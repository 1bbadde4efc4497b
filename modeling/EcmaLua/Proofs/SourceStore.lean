import EcmaLua.Source.Library

/-!
# The library as a store

Files are only ever added. No two of them have one path, each keeps its number, and what was said
about a span of a file stays so, whatever is added later.
-/

namespace EcmaLua

theorem Path.same_iff {a b : String} : same a b = true ↔ components a = components b :=
  beq_iff_eq

namespace Library

/-- Add files, each with its path and its text, one after the other. -/
def addAll (l : Library) (calls : List (String × String)) : Library :=
  calls.foldl (fun l call => (l.add call.1 call.2).2) l

/-- No file has this path. -/
def Lacks (l : Library) (path : String) : Prop := ∀ f ∈ l.files, Path.same f.path path = false

/-- No two files have one path. -/
def Distinct (l : Library) : Prop :=
  l.files.Pairwise fun f g => Path.same f.path g.path = false

variable {l : Library} {path text : String}

theorem find?_eq_none : l.find? path = none ↔ l.Lacks path := by
  simp [find?, Lacks, List.findIdx?_eq_none_iff]

theorem find?_isSome (h : ¬ l.Lacks path) : ∃ id, l.find? path = some id :=
  Option.ne_none_iff_exists'.mp fun hnone => h (find?_eq_none.mp hnone)

theorem add_of_lacks (h : l.Lacks path) (text : String) :
    l.add path text = (⟨l.size⟩, ⟨l.files ++ [⟨path, text⟩]⟩) := by
  rw [add, find?_eq_none.mpr h]

theorem add_of_find? {id : FileId} (h : l.find? path = some id) (text : String) :
    l.add path text = (id, l) := by
  rw [add, h]

/-- A file is found under every spelling of its path. -/
theorem find?_of_get? (hd : l.Distinct) {id : FileId} {f : SourceFile} (h : l.get? id = some f)
    (hp : Path.same f.path path = true) : l.find? path = some id := by
  obtain ⟨hlt, rfl⟩ := List.getElem?_eq_some_iff.mp h
  refine congrArg (Option.map FileId.mk) (List.findIdx?_eq_some_iff_getElem.mpr
    ⟨hlt, hp, fun j hj hsame => ?_⟩)
  have hne := List.pairwise_iff_getElem.mp hd j id.val (Nat.lt_trans hj hlt) hlt hj
  have heq := (Path.same_iff.mp hsame).trans (Path.same_iff.mp hp).symm
  rw [Path.same_iff.mpr heq] at hne
  exact Bool.noConfusion hne

theorem prefix_add (l : Library) (path text : String) : l.files <+: (l.add path text).2.files := by
  unfold add
  split
  · exact List.prefix_refl _
  · exact List.prefix_append _ _

theorem Distinct.add (h : l.Distinct) (path text : String) : (l.add path text).2.Distinct := by
  by_cases hl : l.Lacks path
  · rw [add_of_lacks hl]
    refine List.pairwise_append.mpr ⟨h, List.pairwise_singleton _ _, fun f hf g hg => ?_⟩
    rw [List.mem_singleton.mp hg]
    exact hl f hf
  · obtain ⟨id, hid⟩ := find?_isSome hl
    rwa [add_of_find? hid]

/-- A number is given to a file that is there or to the one that comes next. -/
theorem add_le (l : Library) (path text : String) :
    (l.add path text).1.val ≤ l.size ∧ (l.add path text).2.size ≤ l.size + 1 := by
  by_cases hl : l.Lacks path
  · rw [add_of_lacks hl]
    simp [size]
  · obtain ⟨id, hid⟩ := find?_isSome hl
    obtain ⟨i, hi, rfl⟩ := Option.map_eq_some_iff.mp hid
    rw [add_of_find? hid]
    exact ⟨Nat.le_of_lt (List.findIdx?_eq_some_iff_getElem.mp hi).1, Nat.le_succ _⟩

/-- A path that is new to the library was new, and is not the one just added. -/
theorem lacks_add (added text : String) :
    (l.add added text).2.Lacks path ↔ l.Lacks path ∧ Path.same added path = false := by
  by_cases hl : l.Lacks added
  · rw [add_of_lacks hl]
    simp [Lacks, or_imp, forall_and]
  · obtain ⟨id, hid⟩ := find?_isSome hl
    rw [add_of_find? hid]
    refine ⟨fun h => ⟨h, Bool.eq_false_iff.mpr fun hsame => hl fun f hf => ?_⟩, And.left⟩
    have hne := h f hf
    unfold Path.same at hne ⊢
    rwa [Path.same_iff.mp hsame]

section Runs

theorem prefix_addAll (l : Library) (calls : List (String × String)) :
    l.files <+: (l.addAll calls).files := by
  induction calls generalizing l with
  | nil => exact List.prefix_refl _
  | cons call rest ih => exact (l.prefix_add call.1 call.2).trans (ih _)

theorem size_addAll_le (l : Library) (calls : List (String × String)) :
    (l.addAll calls).size ≤ l.size + calls.length := by
  induction calls generalizing l with
  | nil => exact Nat.le_refl _
  | cons call rest ih =>
    have hone := (l.add_le call.1 call.2).2
    have hrest := ih (l.add call.1 call.2).2
    rw [List.length_cons]
    exact Nat.le_trans hrest (by omega)

theorem Distinct.addAll (h : l.Distinct) (calls : List (String × String)) :
    (l.addAll calls).Distinct := by
  induction calls generalizing l with
  | nil => exact h
  | cons call rest ih => exact ih (h.add call.1 call.2)

theorem lacks_addAll (calls : List (String × String)) :
    (l.addAll calls).Lacks path ↔
      l.Lacks path ∧ ∀ call ∈ calls, Path.same call.1 path = false := by
  induction calls generalizing l with
  | nil => simp [Library.addAll]
  | cons call rest ih =>
    refine (ih (l := (l.add call.1 call.2).2)).trans ?_
    rw [lacks_add, List.forall_mem_cons, and_assoc]

theorem get?_addAll (calls : List (String × String)) {id : FileId} {f : SourceFile}
    (h : l.get? id = some f) : (l.addAll calls).get? id = some f := by
  obtain ⟨hlt, rfl⟩ := List.getElem?_eq_some_iff.mp h
  exact (List.prefix_iff_getElem?.mp (l.prefix_addAll calls)) id.val hlt

end Runs

theorem distinct_empty : empty.Distinct := List.Pairwise.nil

theorem lacks_empty (path : String) : empty.Lacks path :=
  fun _ h => absurd h List.not_mem_nil

/-- The library keeps what these calls told it. -/
structure Records (l : Library) (calls : List (String × String)) : Prop where
  distinct : l.Distinct
  /-- the file at a place has the number of this place -/
  numbered : ∀ i f, l.files[i]? = some f → l.get? ⟨i⟩ = some f ∧ l.find? f.path = some ⟨i⟩
  /-- a path that was not given before gets the next number -/
  fresh : ∀ path text, (∀ call ∈ calls, Path.same call.1 path = false) →
    l.add path text = (⟨l.size⟩, ⟨l.files ++ [⟨path, text⟩]⟩)
  /-- any other gets the number of the first call that gave it, whose spelling and text stay -/
  known : ∀ before first after, calls = before ++ first :: after →
    (∀ call ∈ before, Path.same call.1 first.1 = false) →
    ∀ path text, Path.same first.1 path = true →
      l.add path text = (((empty.addAll before).add first.1 first.2).1, l) ∧
      l.get? (l.add path text).1 = some ⟨first.1, first.2⟩
  /-- a file stays as it is -/
  kept : ∀ more id f, l.get? id = some f → (l.addAll more).get? id = some f
  /-- so does what is said about the spans of a file -/
  answers : ∀ more span, (l.get? span.file).isSome = true →
    (l.addAll more).location span = l.location span ∧
    (l.addAll more).snippet span = l.snippet span
  /-- as long as there are fewer calls than numbers of 32 bits, without the one for no file, these
  are enough -/
  words : calls.length < FileId.none.val → ∀ path text,
    (l.add path text).1 ≠ FileId.none ∧
      (UInt32.ofNat (l.add path text).1.val).toNat = (l.add path text).1.val

/-- What holds of the library after any calls. -/
theorem records_addAll (calls : List (String × String)) :
    (empty.addAll calls).Records calls where
  distinct := distinct_empty.addAll calls
  numbered i f h :=
    ⟨h, find?_of_get? (distinct_empty.addAll calls) h (Path.same_iff.mpr rfl)⟩
  fresh path text h := add_of_lacks ((lacks_addAll calls).mpr ⟨lacks_empty path, h⟩) text
  known before first after hcalls hbefore path text hp := by
    have hlacks : (empty.addAll before).Lacks first.1 :=
      (lacks_addAll before).mpr ⟨lacks_empty first.1, hbefore⟩
    have hadd := add_of_lacks hlacks first.2
    -- the file of the first call comes next after the files of the calls before it
    have hget : ((empty.addAll before).add first.1 first.2).2.get?
        ((empty.addAll before).add first.1 first.2).1 = some ⟨first.1, first.2⟩ := by
      rw [hadd]
      exact List.getElem?_concat_length
    have hlast := get?_addAll after hget
    have hrun : ((empty.addAll before).add first.1 first.2).2.addAll after =
        empty.addAll calls := by
      rw [hcalls, addAll, addAll, addAll, List.foldl_append, List.foldl_cons]
    rw [hrun] at hlast
    have hfind := find?_of_get? (distinct_empty.addAll calls) hlast hp
    rw [add_of_find? hfind]
    exact ⟨rfl, hlast⟩
  kept more _ _ h := get?_addAll more h
  answers more span h := by
    obtain ⟨f, hf⟩ := Option.isSome_iff_exists.mp h
    have hmore := get?_addAll more hf
    exact ⟨by rw [location, location, hf, hmore], by rw [snippet, snippet, hf, hmore]⟩
  words h path text := by
    have hadd := ((empty.addAll calls).add_le path text).1
    have hsize : (empty.addAll calls).size ≤ 0 + calls.length := empty.size_addAll_le calls
    have hnone : FileId.none.val = 4294967295 := rfl
    have hlt : ((empty.addAll calls).add path text).1.val < FileId.none.val := by omega
    refine ⟨fun hnext => Nat.ne_of_lt hlt (congrArg FileId.val hnext), ?_⟩
    exact UInt32.toNat_ofNat_of_lt' (Nat.lt_trans hlt (by decide))

end Library

end EcmaLua
