import EcmaLua.Proofs.Program.Nodes

/-!
# Rules for names and rules for nodes

The rules of a program that are not about names are about its nodes: about what an assignment, an
update or the head of a loop over keys writes to, and about what is outside the subset. So a program
obeys all of its rules as soon as its names and its nodes do.
-/

namespace EcmaLua

/-- Only the names are asked about. -/
def Rules.naming (name : String → Prop) : Rules where
  name := name
  kind := fun _ => True
  place := fun _ => True

/-- What rules ask of a node itself. -/
def Node.Obeys (r : Rules) : Node → Prop
  | .assign _ target _ => r.place target
  | .update _ _ arg => r.place arg
  | .forIn (.target e) => r.place e
  | .unsupported node => r.kind node.kind
  | .initializer .. | .function _ | .forIn (.var ..) | .attempt .. => True
  | .breaks _ | .continues _ | .withScope _ => True

/-- What is asked of a fragment itself is asked of its names or of the node that it is. -/
theorem Fragment.Abides.of_naming {r : Rules} {p : Fragment} (hn : p.Abides (.naming r.name))
    (h : ∀ n ∈ p.node, n.Obeys r) : p.Abides r := by
  unfold Abides at hn ⊢
  split at hn <;> first
    | exact hn
    | exact h _ List.mem_cons_self

/-- A program obeys rules that its names and its nodes obey. -/
theorem Program.obeys_of_nodes {r : Rules} {p : Program} (hn : p.Obeys (.naming r.name))
    (h : ∀ n ∈ p.nodes, n.Obeys r) : p.Obeys r := by
  have hnodes : p.nodes = p.body.flatMap fun s => Fragment.nodes (.stmt s) :=
    congrFun (Fragment.eq_flatMap rfl fun _ _ => rfl) p.body
  rw [hnodes] at h
  refine Stmt.obeysList_iff.mpr fun s hs => (Fragment.obeys_iff_within (.stmt s)).mpr fun q hq => ?_
  have hnames := (Fragment.obeys_iff_within (.stmt s)).mp (Stmt.obeysList_iff.mp hn s hs) q hq
  refine hnames.of_naming fun n hmem => h n (List.mem_flatMap.mpr ⟨s, hs, ?_⟩)
  rw [Fragment.reads_nodes.eq_flatMap]
  exact List.mem_flatMap.mpr ⟨q, hq, hmem⟩

end EcmaLua
