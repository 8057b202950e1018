/-
  GlslMinifier.Proofs.Survey — what a survey says about its text.

  Main results:
    * `getElem?_sites_ofTokens` — how often a name stands at a rename site
    * `mem_used_ofTokens`, `mem_fixed_ofTokens` — where a name is spelled
    * `utf8Bytes_lt` — names in order by characters are in order by bytes
-/
import GlslMinifier.Proofs.Respelling
import GlslMinifier.Survey
import GlslMinifier.Text.Utf8
import Mathlib.Data.List.Basic

namespace GlslMinifier

/-! ## §1. Tallies. -/

theorem getElem?_foldl_alter (names : List String) (counts : NameMap Nat) (key : String) :
    (names.foldl (fun counts name => counts.alter name fun n? => some (n?.getD 0 + 1))
        counts)[key]?
      = if key ∈ names then some (counts[key]?.getD 0 + names.count key) else counts[key]? := by
  induction names generalizing counts with
  | nil => simp
  | cons name names ih =>
    rw [List.foldl_cons, ih, Std.ExtTreeMap.getElem?_alter]
    simp only [Std.LawfulEqCmp.compare_eq_iff_eq, List.mem_cons, List.count_cons, beq_iff_eq]
    -- the count goes up for the first name of the list, and stays for any other
    by_cases heq : name = key
    · subst heq
      by_cases hmem : name ∈ names
      · simp [hmem]
        omega
      · simp [hmem, List.count_eq_zero.2 hmem]
    · simp [heq, Ne.symm heq]

/-- A tally counts the names that occur, and holds no other. -/
theorem getElem?_tally (names : List String) (key : String) :
    (NameMap.tally names)[key]? = if key ∈ names then some (names.count key) else none := by
  rw [NameMap.tally, getElem?_foldl_alter]
  simp

/-! ## §2. Names of a survey. -/

namespace Survey

theorem mem_namesWhere {p : Occurrence → Bool} {ts : List Token} {name : String} :
    name ∈ namesWhere p ts ↔ ∃ o ∈ occurrences ts, o.token.isIdentifier = true ∧ p o = true
      ∧ o.token.text = name := by
  simp [namesWhere, and_assoc]

theorem getElem?_sites_ofTokens (ts : List Token) (name : String) :
    (ofTokens ts).sites[name]?
      = if name ∈ namesWhere (·.isRenameSite) ts
        then some ((namesWhere (·.isRenameSite) ts).count name) else none :=
  getElem?_tally _ name

theorem mem_used_ofTokens {ts : List Token} {name : String} :
    name ∈ (ofTokens ts).used ↔ ∃ o ∈ occurrences ts, o.token.isIdentifier = true
      ∧ (!o.isMember) = true ∧ o.token.text = name := by
  rw [ofTokens, NameSet.mem_ofNames, mem_namesWhere]

theorem mem_fixed_ofTokens {ts : List Token} {name : String} :
    name ∈ (ofTokens ts).fixed ↔ ∃ o ∈ occurrences ts, o.token.isIdentifier = true
      ∧ (!o.isRenameSite && !o.isMember) = true ∧ o.token.text = name := by
  rw [ofTokens, NameSet.mem_ofNames, mem_namesWhere]

end Survey

/-! ## §3. The order of names. -/

theorem utf8EncodeChar_of_isWordChar {c : Char} (h : isWordChar c = true) :
    String.utf8EncodeChar c = [c.val.toUInt8] :=
  utf8EncodeChar_of_lt (toNat_of_isWordChar h).2

/-- Names in order by characters are in order by bytes. -/
theorem utf8Bytes_lt {a b : String} (ha : isIdentifier a = true) (hb : isIdentifier b = true)
    (h : a < b) : utf8Bytes a < utf8Bytes b := by
  have hwa := isWordChar_of_isIdentifier ha
  have hwb := isWordChar_of_isIdentifier hb
  rw [String.lt_iff] at h
  rw [utf8Bytes_eq_flatMap, utf8Bytes_eq_flatMap]
  generalize a.toList = us at h hwa
  generalize b.toList = vs at h hwb
  induction h with
  | @nil d ds =>
    rw [List.flatMap_cons, utf8EncodeChar_of_isWordChar (hwb d List.mem_cons_self)]
    exact .nil
  | @rel c cs d ds hcd =>
    have hc := hwa c List.mem_cons_self
    have hd := hwb d List.mem_cons_self
    rw [List.flatMap_cons, List.flatMap_cons, utf8EncodeChar_of_isWordChar hc,
      utf8EncodeChar_of_isWordChar hd]
    refine .rel ?_
    have hlt : c.toNat < d.toNat := hcd
    have hsmall := (toNat_of_isWordChar hd).2
    rw [UInt8.lt_iff_toNat_lt, UInt32.toNat_toUInt8, UInt32.toNat_toUInt8, Char.toNat_val,
      Char.toNat_val]
    omega
  | @cons c cs ds _ ih =>
    rw [List.flatMap_cons, List.flatMap_cons,
      utf8EncodeChar_of_isWordChar (hwa c List.mem_cons_self)]
    exact .cons (ih (fun d hd => hwa d (List.mem_cons_of_mem _ hd))
      fun d hd => hwb d (List.mem_cons_of_mem _ hd))

end GlslMinifier
