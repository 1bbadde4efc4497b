import EcmaLua.Proofs.Lua.Jumps

/-!
# Labels that are told apart

A label is seen from its whole block and from the blocks inside it, up to the functions there. A
`goto` can mean one label only as long as none is called like another that is seen where it stands.
-/

namespace EcmaLua.Lua

/-- The labels of a block are different from each other and from those seen around the block. -/
def Stat.NewLabels (visible : List String) (code : List Stat) : Prop :=
  (Stat.labels code).Nodup ∧ ∀ name ∈ Stat.labels code, name ∉ visible

mutual

def Tail.Apart (visible : List String) : Tail → Prop
  | .none => True
  | .otherwise body =>
    Stat.NewLabels visible body ∧ Stat.ApartEach (Stat.labels body ++ visible) body
  | .elseif _ body tail =>
    (Stat.NewLabels visible body ∧ Stat.ApartEach (Stat.labels body ++ visible) body) ∧
      tail.Apart visible

/-- In no block of the statement, outside the functions in it, is a label called like another one
that is seen there. -/
def Stat.Apart (visible : List String) : Stat → Prop
  | .doBlock body | .whileLoop _ body | .repeatUntil body _ | .forIn _ _ _ body
  | .scoped _ _ body =>
    Stat.NewLabels visible body ∧ Stat.ApartEach (Stat.labels body ++ visible) body
  | .ifThen _ body tail =>
    (Stat.NewLabels visible body ∧ Stat.ApartEach (Stat.labels body ++ visible) body) ∧
      tail.Apart visible
  | _ => True

def Stat.ApartEach (visible : List String) : List Stat → Prop
  | [] => True
  | s :: rest => s.Apart visible ∧ Stat.ApartEach visible rest

end

/-- A block whose labels, and those of the blocks in it, are told apart. -/
def Stat.ApartBlock (visible : List String) (code : List Stat) : Prop :=
  Stat.NewLabels visible code ∧ Stat.ApartEach (Stat.labels code ++ visible) code

theorem Stat.apartEach_append {visible : List String} {a b : List Stat} :
    Stat.ApartEach visible (a ++ b) ↔ Stat.ApartEach visible a ∧ Stat.ApartEach visible b := by
  induction a with
  | nil => simp [Stat.ApartEach]
  | cons s rest ih => simp only [List.cons_append, Stat.ApartEach, ih, and_assoc]

theorem Stat.apartEach_map_label (visible names : List String) :
    Stat.ApartEach visible (names.map .label) := by
  induction names with
  | nil => trivial
  | cons name rest ih => exact ⟨trivial, ih⟩

/-- Code without labels directly among its statements is a block as it is. -/
theorem Stat.apartBlock_iff_of_labels {visible : List String} {code : List Stat}
    (h : Stat.labels code = []) : Stat.ApartBlock visible code ↔ Stat.ApartEach visible code := by
  simp [Stat.ApartBlock, Stat.NewLabels, h]

theorem Stat.mem_ownMarksList_of_labels {name : String} {code : List Stat}
    (h : name ∈ Stat.labels code) : .label name ∈ Stat.ownMarksList code := by
  induction code with
  | nil => exact absurd h List.not_mem_nil
  | cons s rest ih =>
    refine List.mem_append.mpr ?_
    cases s with
    | label other =>
      rcases List.mem_cons.mp h with rfl | h
      · exact Or.inl List.mem_cons_self
      · exact Or.inr (ih h)
    | _ => exact Or.inr (ih h)

/-- The code prints no labels outside its functions. -/
def Stat.Unlabeled (code : List Stat) : Prop :=
  ∀ name, .label name ∉ Stat.ownMarksList code

theorem Stat.Unlabeled.labels {code : List Stat} (h : Stat.Unlabeled code) :
    Stat.labels code = [] :=
  List.eq_nil_iff_forall_not_mem.mpr fun name hname => h name (mem_ownMarksList_of_labels hname)

mutual

theorem Tail.apart_of_unlabeled (visible : List String) : (tail : Tail) →
    (∀ name, .label name ∉ tail.ownMarks) → tail.Apart visible
  | .none, _ => trivial
  | .otherwise body, h => Stat.apartBlock_of_unlabeled visible body h
  | .elseif _ body tail, h =>
    ⟨Stat.apartBlock_of_unlabeled visible body fun name hm => h name (List.mem_append_left _ hm),
      tail.apart_of_unlabeled visible fun name hm => h name (List.mem_append_right _ hm)⟩

theorem Stat.apart_of_unlabeled (visible : List String) : (s : Stat) →
    (∀ name, .label name ∉ s.ownMarks) → s.Apart visible
  | .doBlock body, h | .whileLoop _ body, h | .repeatUntil body _, h | .forIn _ _ _ body, h
  | .scoped _ _ body, h => Stat.apartBlock_of_unlabeled visible body h
  | .ifThen _ body tail, h =>
    ⟨Stat.apartBlock_of_unlabeled visible body fun name hm => h name (List.mem_append_left _ hm),
      tail.apart_of_unlabeled visible fun name hm => h name (List.mem_append_right _ hm)⟩
  | .note _, _ | .marker _, _ | .declare _, _ | .define _ _, _ | .assign _ _, _ | .store _ _, _
  | .call _, _ | .select _ _, _ | .goTo _, _ | .label _, _ | .breakLoop, _ | .ret _, _ => trivial

theorem Stat.apartBlock_of_unlabeled (visible : List String) (body : List Stat)
    (h : Stat.Unlabeled body) : Stat.ApartBlock visible body :=
  (Stat.apartBlock_iff_of_labels h.labels).mpr (Stat.apartEach_of_unlabeled visible body h)

theorem Stat.apartEach_of_unlabeled (visible : List String) : (code : List Stat) →
    Stat.Unlabeled code → Stat.ApartEach visible code
  | [], _ => trivial
  | s :: rest, h =>
    ⟨s.apart_of_unlabeled visible fun name hm => h name (List.mem_append_left _ hm),
      Stat.apartEach_of_unlabeled visible rest fun name hm =>
        h name (List.mem_append_right _ hm)⟩

end

/-- Code that has no labels directly among its statements, and whose labels further inside are told
apart wherever none of them is seen from outside. -/
structure Stat.Separate (code : List Stat) : Prop where
  labels : Stat.labels code = []
  apart : ∀ visible, (∀ name, .label name ∈ Stat.ownMarksList code → name ∉ visible) →
    Stat.ApartEach visible code

namespace Stat

variable {code rest : List Stat} {visible names : List String} {name : String}

theorem Unlabeled.separate (h : Unlabeled code) : Separate code :=
  ⟨h.labels, fun visible _ => apartEach_of_unlabeled visible code h⟩

theorem Separate.apartBlock (h : Separate code)
    (hv : ∀ name, .label name ∈ ownMarksList code → name ∉ visible) : ApartBlock visible code :=
  (apartBlock_iff_of_labels h.labels).mpr (h.apart visible hv)

theorem Separate.append (h : Separate code) (h' : Separate rest) : Separate (code ++ rest) := by
  refine ⟨by rw [labels_append, h.labels, h'.labels]; rfl, fun visible hv => ?_⟩
  rw [ownMarksList_append] at hv
  exact apartEach_append.mpr ⟨h.apart visible fun name hm => hv name (List.mem_append_left _ hm),
    h'.apart visible fun name hm => hv name (List.mem_append_right _ hm)⟩

/-- Labels behind code whose own labels are others. -/
theorem Separate.labeled (h : Separate code) (hn : names.Nodup)
    (hc : ∀ name, .label name ∈ ownMarksList code → name ∉ names)
    (hv : ∀ name, .label name ∈ ownMarksList (code ++ names.map .label) → name ∉ visible) :
    ApartBlock visible (code ++ names.map .label) := by
  rw [ownMarksList_append, ownMarksList_map_label] at hv
  have hlabels : Stat.labels (code ++ names.map .label) = names := by
    rw [labels_append, h.labels, labels_map_label, List.nil_append]
  rw [ApartBlock, NewLabels, hlabels]
  refine ⟨⟨hn, fun name hname => hv name ?_⟩, apartEach_append.mpr ⟨h.apart _ fun name hname => ?_,
    apartEach_map_label _ names⟩⟩
  · exact List.mem_append_right _ (List.mem_map_of_mem hname)
  · rw [List.mem_append, not_or]
    exact ⟨hc name hname, hv name (List.mem_append_left _ hname)⟩

/-- A statement around a block. -/
theorem Separate.wrap {stat : Stat} (h : Separate code) (hl : Stat.labels [stat] = [])
    (hm : stat.ownMarks = ownMarksList code)
    (hs : ∀ visible, ApartBlock visible code → stat.Apart visible) : Separate [stat] := by
  refine ⟨hl, fun visible hv => ⟨hs visible (h.apartBlock ?_), trivial⟩⟩
  rwa [ownMarksList_singleton, hm] at hv

/-- Code without labels can stand in front of a block and at its end. -/
theorem Unlabeled.apartBlock_append (h : Unlabeled code) (h' : ApartBlock visible rest) :
    ApartBlock visible (code ++ rest) := by
  rw [ApartBlock, NewLabels, labels_append, h.labels, List.nil_append]
  exact ⟨h'.1, apartEach_append.mpr ⟨apartEach_of_unlabeled _ code h, h'.2⟩⟩

theorem ApartBlock.append_unlabeled (h : ApartBlock visible code) (h' : Unlabeled rest) :
    ApartBlock visible (code ++ rest) := by
  rw [ApartBlock, NewLabels, labels_append, h'.labels, List.append_nil]
  exact ⟨h.1, apartEach_append.mpr ⟨h.2, apartEach_of_unlabeled _ rest h'⟩⟩

end Stat

end EcmaLua.Lua
