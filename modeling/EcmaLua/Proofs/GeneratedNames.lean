import EcmaLua.Proofs.Lua.Name

/-!
# Generated names

Two kinds of names come to be in generated code. An identifier or a label is spelled: whatever its
characters are, the result is a Lua name that is not reserved, and so is the label made from it. A
local is made up from a stem and the next number of a supply: the numbers count up from one, and no
name is given out twice, even if one stem is the beginning of another.
-/

namespace EcmaLua

/-- An identifier of any characters, and the label behind a statement that has it as its label, are
spelled as Lua names that nothing is reserved for. -/
theorem spelled_names_are_free (identifier : String) (h : isIdentifier identifier = true) :
    (Lua.isName (Lua.spell identifier) = true ∧ Lua.isReserved (Lua.spell identifier) = false) ∧
      Lua.isName (Lua.spell identifier ++ "__After") = true ∧
      Lua.isReserved (Lua.spell identifier ++ "__After") = false := by
  have hfree {text : String} (htext : text ∉ Lua.reserved) : Lua.isReserved text = false :=
    Bool.eq_false_iff.mpr fun hr => htext (Lua.isReserved_iff.mp hr)
  refine ⟨⟨Lua.isName_spell h, hfree (Lua.spell_not_mem_reserved identifier)⟩,
    Lua.isName_afterLabel h, hfree (Lua.afterLabel_not_mem_reserved identifier)⟩

/-- A reserved word, and an identifier that is made of escapes. -/
theorem spelled_end_and_dollar_names :
    Lua.spell "end" = "_R_end" ∧ Lua.spell "$é→" = "_USD__UE9__U2192_" ∧
      (Lua.isName "_R_end" = true ∧ Lua.isReserved "_R_end" = false) ∧
      Lua.isName "_USD__UE9__U2192___After" = true := by
  have hend : Lua.spell "end" = "_R_end" := by decide
  have hescapes : Lua.spell "$é→" = "_USD__UE9__U2192_" := by decide
  have hname := (spelled_names_are_free "end" (by decide)).1
  have hafter := (spelled_names_are_free "$é→" (by decide)).2.1
  rw [hend] at hname
  rw [hescapes] at hafter
  exact ⟨hend, hescapes, hname, hafter⟩

namespace Emission

/-- What a supply is asked for. -/
inductive Request where
  | number
  | name (stem : String)
deriving DecidableEq, Repr

/-- What a supply gives out. -/
inductive Grant where
  | number (n : Nat)
  | name (text : String)
deriving DecidableEq, Repr

namespace Request

/-- What the request gets with this number. -/
def grant (n : Nat) : Request → Grant
  | .number => .number n
  | .name stem => .name (stem ++ toString n)

/-- Whether the names for the request can be told from others: the number in them starts where
their last digits start. -/
def isPlain : Request → Bool
  | .number => true
  | .name stem => !stem.toList.getLast?.any Char.isDigit

end Request

def Grant.name? : Grant → Option String
  | .number _ => none
  | .name text => some text

namespace Supply

/-- Meet one request. -/
def meet (s : Supply) : Request → Grant × Supply
  | .number => (.number s.next.1, s.next.2)
  | .name stem => (.name (s.fresh stem).1, (s.fresh stem).2)

/-- Meet requests one after the other. -/
def meetAll (s : Supply) : List Request → List Grant × Supply
  | [] => ([], s)
  | r :: rest => ((s.meet r).1 :: ((s.meet r).2.meetAll rest).1, ((s.meet r).2.meetAll rest).2)

/-- A request gets the next number and no other. -/
theorem meet_eq (s : Supply) (r : Request) : s.meet r = (r.grant (s.last + 1), ⟨s.last + 1⟩) := by
  cases r <;> rfl

/-- The requests get the numbers that follow, one each. -/
theorem meetAll_eq (s : Supply) (requests : List Request) :
    s.meetAll requests =
      ((requests.zipIdx (s.last + 1)).map fun r => r.1.grant r.2, ⟨s.last + requests.length⟩) := by
  induction requests generalizing s with
  | nil => rfl
  | cons r rest ih =>
    have hlast : s.last + 1 + rest.length = s.last + (rest.length + 1) := by omega
    rw [meetAll, meet_eq, ih, List.zipIdx_cons, List.map_cons, List.length_cons, ← hlast]

/-- A counter of 64 bits comes to the same number as long as this has 64 bits. -/
theorem word_eq {α : Type} (taken : List α) {last : UInt64}
    (h : last.toNat + taken.length < UInt64.size) :
    (taken.foldl (fun last _ => last + 1) last).toNat = last.toNat + taken.length := by
  induction taken generalizing last with
  | nil => rfl
  | cons r rest ih =>
    rw [List.length_cons] at h
    have hnext : (last + 1).toNat = last.toNat + 1 := by
      rw [UInt64.toNat_add, UInt64.toNat_one]
      exact Nat.mod_eq_of_lt (Nat.lt_of_le_of_lt (by omega) h)
    rw [List.foldl_cons, ih (by omega), hnext, List.length_cons]
    omega

end Supply

/-- The number of a name can be read off if the stem does not end in a digit. -/
theorem takeWhile_isDigit_reverse {stem : String} (h : (Request.name stem).isPlain = true)
    (n : Nat) : (stem ++ toString n).toList.reverse.takeWhile Char.isDigit =
      (Nat.toDigits 10 n).reverse := by
  have hdigits : ∀ c ∈ (Nat.toDigits 10 n).reverse, c.isDigit = true := fun c hc =>
    Nat.isDigit_of_mem_toDigits (by decide) (by decide) (List.mem_reverse.mp hc)
  have hstem : stem.toList.reverse.takeWhile Char.isDigit = [] := by
    cases hback : stem.toList.reverse with
    | nil => rfl
    | cons c cs =>
      rw [Request.isPlain, ← List.head?_reverse, hback] at h
      have hc : c.isDigit = false := by simpa using h
      rw [List.takeWhile_cons, hc]
      rfl
  rw [String.toList_append, Nat.toString_eq_ofList_toDigits, String.toList_ofList,
    List.reverse_append, List.takeWhile_append_of_pos hdigits, hstem, List.append_nil]

/-- Names with different numbers are different, whatever their stems are. -/
theorem eq_of_grant_name {m n : Nat} {q r : Request} {text : String} (hq : q.isPlain = true)
    (hr : r.isPlain = true) (hm : (q.grant m).name? = some text)
    (hn : (r.grant n).name? = some text) : m = n := by
  cases q with
  | number => cases hm
  | name a =>
    cases r with
    | number => cases hn
    | name b =>
      have htext : a ++ toString m = b ++ toString n :=
        (Option.some.inj hm).trans (Option.some.inj hn).symm
      have hdigits : (Nat.toDigits 10 m).reverse = (Nat.toDigits 10 n).reverse := by
        rw [← takeWhile_isDigit_reverse hq m, htext, takeWhile_isDigit_reverse hr n]
      have hvalue := congrArg (Nat.ofDigitChars 10 · 0) (List.reverse_inj.mp hdigits)
      simpa only [Nat.ofDigitChars_toDigits (b := 10) (by decide) (by decide)] using hvalue

/-- Names that are made with numbers in turn are all different. -/
theorem nodup_names {requests : List Request} (h : ∀ r ∈ requests, r.isPlain = true) (k : Nat) :
    (((requests.zipIdx k).map fun r => r.1.grant r.2).filterMap Grant.name?).Nodup := by
  induction requests generalizing k with
  | nil => exact List.nodup_nil
  | cons r rest ih =>
    obtain ⟨hr, hrest⟩ := List.forall_mem_cons.mp h
    rw [List.zipIdx_cons, List.map_cons, List.filterMap_cons]
    cases hname : (r.grant k).name? with
    | none => exact ih hrest (k + 1)
    | some text =>
      refine List.nodup_cons.mpr ⟨fun hmem => ?_, ih hrest (k + 1)⟩
      simp only [List.mem_filterMap, List.mem_map] at hmem
      obtain ⟨_, ⟨⟨q, i⟩, hi, rfl⟩, htext⟩ := hmem
      -- the names further on have larger numbers
      have hlater : k + 1 ≤ i := (List.mem_zipIdx hi).1
      have hq := hrest q (List.fst_mem_of_mem_zipIdx hi)
      have hsame : k = i := eq_of_grant_name hr hq hname htext
      omega

/-- A new supply gives out the numbers from one on, one for each request and without gaps, and
names that are pairwise different. As long as the requests are fewer than the numbers of 64 bits, a
counter of 64 bits comes to the same number. -/
theorem Supply.names_never_repeat (requests : List Request)
    (h : ∀ r ∈ requests, r.isPlain = true) :
    (Supply.meetAll {} requests).1 = (requests.zipIdx 1).map (fun r => r.1.grant r.2) ∧
      (Supply.meetAll {} requests).2.last = requests.length ∧
      ((Supply.meetAll {} requests).1.filterMap Grant.name?).Nodup ∧
      (requests.length < UInt64.size →
        (requests.foldl (fun last _ => last + 1) (0 : UInt64)).toNat =
          (Supply.meetAll {} requests).2.last) := by
  rw [Supply.meetAll_eq]
  refine ⟨rfl, Nat.zero_add _, nodup_names h 1, fun hlength => ?_⟩
  exact Supply.word_eq requests (by simpa using hlength)

/-- The stems of generated code, one of them with digits and more behind it, and no stem at all. -/
theorem Supply.names_of_stems_differ :
    (Supply.meetAll {} [.name "__tmp", .number, .name "__tmp1_", .name "", .name "__tmp"]).1 =
        [.name "__tmp1", .number 2, .name "__tmp1_3", .name "4", .name "__tmp5"] ∧
      ["__tmp1", "__tmp1_3", "4", "__tmp5"].Nodup :=
  ⟨by decide, (Supply.names_never_repeat
    [.name "__tmp", .number, .name "__tmp1_", .name "", .name "__tmp"] (by decide)).2.2.1⟩

end Emission

end EcmaLua
