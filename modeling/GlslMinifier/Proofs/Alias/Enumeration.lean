/-
  GlslMinifier.Proofs.Alias.Enumeration — the sequence of alias words, and searching it.

  `word` runs through the words over `a` to `z`, shorter words first and words of one
  length in alphabetical order: it keeps the order, and it misses no word.  Taking
  aliases from a supply therefore gives the first words of that order that are not
  reserved, however many are taken.

  Main results:
    * `word_precedes`, `exists_word_eq` — `word` is increasing and onto
    * `word_firstFree_not_mem` — the search for a free word ends at one
    * `takeMany_isFirstFree` — the words taken are the first free ones
    * `IsFirstFree.eq_of_length_eq` — their number decides which ones
-/
import GlslMinifier.Alias.Allocator
import GlslMinifier.Proofs.CharClass
import Mathlib.Data.List.Induction
import Mathlib.Data.List.Nodup
import Mathlib.Data.List.Perm.Subperm

namespace GlslMinifier

/-! ## §1. The order of words. -/

/-- A word that may be an alias: letters from `a` to `z`, and at least one. -/
def IsAliasWord (w : String) : Prop := w ≠ "" ∧ ∀ c ∈ w.toList, c.isLower = true

/-- Shorter words come first, and words of one length in alphabetical order. -/
def LettersPrecede (u v : List Char) : Prop :=
  u.length < v.length ∨ u.length = v.length ∧ u < v

/-- `LettersPrecede` on words. -/
def Precedes (u v : String) : Prop := LettersPrecede u.toList v.toList

theorem LettersPrecede.trans {u v w : List Char} (huv : LettersPrecede u v)
    (hvw : LettersPrecede v w) : LettersPrecede u w := by
  rcases huv with huv | ⟨huv, hlt⟩ <;> rcases hvw with hvw | ⟨hvw, hlt'⟩
  · exact .inl (by omega)
  · exact .inl (by omega)
  · exact .inl (by omega)
  · exact .inr ⟨by omega, List.lt_trans hlt hlt'⟩

theorem LettersPrecede.irrefl (u : List Char) : ¬ LettersPrecede u u := by
  intro h
  rcases h with hlength | ⟨-, hlt⟩
  · omega
  · exact List.lt_irrefl u hlt

theorem append_lt_append {us vs : List Char} (hlength : us.length = vs.length) (h : us < vs)
    (a b : List Char) : us ++ a < vs ++ b := by
  induction h with
  | nil => simp at hlength
  | rel h => exact .rel h
  | cons _ ih => exact .cons (ih (by simpa using hlength))

/-! ## §2. Letters. -/

theorem toNat_letter : ∀ i < alphabetSize, (letter i).toNat = 'a'.toNat + i := by decide

theorem isLower_letter : ∀ i < alphabetSize, (letter i).isLower = true := by decide

theorem letter_lt {i j : Nat} (h : i < j) (hj : j < alphabetSize) : letter i < letter j := by
  show (letter i).toNat < (letter j).toNat
  rw [toNat_letter i (by omega), toNat_letter j hj]
  omega

theorem exists_letter_eq {c : Char} (h : c.isLower = true) :
    ∃ i < alphabetSize, letter i = c := by
  have hrange := isLower_iff.1 h
  have hbounds : 'a'.toNat = 97 ∧ 'z'.toNat = 122 ∧ alphabetSize = 26 := by decide
  refine ⟨c.toNat - 'a'.toNat, by omega, ?_⟩
  rw [← Char.toNat_inj, toNat_letter _ (by omega)]
  omega

/-! ## §3. Words. -/

theorem wordLetters_of_lt {p : Nat} (h : p < alphabetSize) : wordLetters p = [letter p] := by
  rw [wordLetters, if_pos h]

theorem wordLetters_of_ge {p : Nat} (h : alphabetSize ≤ p) :
    wordLetters p = wordLetters (p / alphabetSize - 1) ++ [letter (p % alphabetSize)] := by
  rw [wordLetters, if_neg (Nat.not_lt.2 h)]

theorem wordLetters_ne_nil (p : Nat) : wordLetters p ≠ [] := by
  rw [wordLetters]
  split <;> simp

theorem isLower_wordLetters (p : Nat) : ∀ c ∈ wordLetters p, c.isLower = true := by
  fun_induction wordLetters p with
  | case1 p h => simpa using isLower_letter p h
  | case2 p h ih =>
    intro c hc
    rcases List.mem_append.1 hc with hc | hc
    · exact ih c hc
    · rw [List.mem_singleton.1 hc]
      exact isLower_letter _ (Nat.mod_lt p (by decide))

theorem isAliasWord_word (p : Nat) : IsAliasWord (word p) := by
  refine ⟨?_, ?_⟩
  · unfold word
    rw [ne_eq, ← String.toList_inj, String.toList_ofList]
    exact wordLetters_ne_nil p
  · unfold word
    rw [String.toList_ofList]
    exact isLower_wordLetters p

/-- Later positions have later words. -/
theorem wordLetters_precede {p q : Nat} (h : p < q) :
    LettersPrecede (wordLetters p) (wordLetters q) := by
  induction q using Nat.strongRecOn generalizing p with
  | ind q ih =>
    -- the later word has one letter, and so has the earlier one
    rcases Nat.lt_or_ge q alphabetSize with hq | hq
    · rw [wordLetters_of_lt hq, wordLetters_of_lt (Nat.lt_trans h hq)]
      exact .inr ⟨rfl, .rel (letter_lt h hq)⟩
    -- only the later word has more letters than one
    rcases Nat.lt_or_ge p alphabetSize with hp | hp
    · have hlength := List.length_pos_iff.2 (wordLetters_ne_nil (q / alphabetSize - 1))
      rw [wordLetters_of_lt hp, wordLetters_of_ge hq]
      exact .inl (by simpa using hlength)
    have hsteps : p / alphabetSize < q / alphabetSize
        ∨ p / alphabetSize = q / alphabetSize ∧ p % alphabetSize < q % alphabetSize := by
      simp only [alphabetSize]
      omega
    rw [wordLetters_of_ge hp, wordLetters_of_ge hq]
    -- the words differ before their last letter, or in their last letter only
    rcases hsteps with hdiv | ⟨hdiv, hmod⟩
    · have hsmaller : q / alphabetSize - 1 < q
          ∧ p / alphabetSize - 1 < q / alphabetSize - 1 := by
        simp only [alphabetSize] at hp hq hdiv ⊢
        omega
      rcases ih _ hsmaller.1 hsmaller.2 with hlength | ⟨hlength, hlt⟩
      · exact .inl (by simpa using hlength)
      · exact .inr ⟨by simpa using hlength, append_lt_append hlength hlt _ _⟩
    · rw [hdiv]
      refine .inr ⟨by simp, List.append_left_lt ?_⟩
      exact .rel (letter_lt hmod (Nat.mod_lt q (by decide)))

theorem word_precedes {p q : Nat} (h : p < q) : Precedes (word p) (word q) := by
  simpa [Precedes, word] using wordLetters_precede h

theorem word_injective {p q : Nat} (h : word p = word q) : p = q := by
  rcases Nat.lt_trichotomy p q with hlt | heq | hlt
  · exact absurd (h ▸ word_precedes hlt) (LettersPrecede.irrefl _)
  · exact heq
  · exact absurd (h ▸ word_precedes hlt) (LettersPrecede.irrefl _)

theorem word_precedes_iff {p q : Nat} : Precedes (word p) (word q) ↔ p < q := by
  refine ⟨fun h => ?_, word_precedes⟩
  rcases Nat.lt_trichotomy p q with hlt | rfl | hlt
  · exact hlt
  · exact absurd h (LettersPrecede.irrefl _)
  · exact absurd (LettersPrecede.trans h (word_precedes hlt)) (LettersPrecede.irrefl _)

/-- No word is missed. -/
theorem exists_wordLetters_eq (cs : List Char) (hne : cs ≠ [])
    (hall : ∀ c ∈ cs, c.isLower = true) : ∃ p, wordLetters p = cs := by
  induction cs using List.reverseRecOn with
  | nil => exact absurd rfl hne
  | append_singleton init last ih =>
    obtain ⟨i, hi, rfl⟩ := exists_letter_eq (hall last (by simp))
    by_cases hinit : init = []
    · exact ⟨i, by rw [wordLetters_of_lt hi, hinit]; rfl⟩
    · -- the letters before the last are a word, and the last is one more digit
      obtain ⟨p, rfl⟩ := ih hinit fun c hc => hall c (by simp [hc])
      refine ⟨(p + 1) * alphabetSize + i, ?_⟩
      have hdigits : alphabetSize ≤ (p + 1) * alphabetSize + i
          ∧ ((p + 1) * alphabetSize + i) / alphabetSize - 1 = p
          ∧ ((p + 1) * alphabetSize + i) % alphabetSize = i := by
        simp only [alphabetSize] at hi ⊢
        omega
      rw [wordLetters_of_ge hdigits.1, hdigits.2.1, hdigits.2.2]

theorem exists_word_eq {w : String} (h : IsAliasWord w) : ∃ p, word p = w := by
  obtain ⟨p, hp⟩ := exists_wordLetters_eq w.toList (by simpa using h.1) h.2
  exact ⟨p, by rw [word, hp, String.ofList_toList]⟩

theorem precedes_trichotomy {u v : String} (hu : IsAliasWord u) (hv : IsAliasWord v) :
    Precedes u v ∨ u = v ∨ Precedes v u := by
  obtain ⟨p, rfl⟩ := exists_word_eq hu
  obtain ⟨q, rfl⟩ := exists_word_eq hv
  rcases Nat.lt_trichotomy p q with hlt | rfl | hlt
  · exact .inl (word_precedes hlt)
  · exact .inr (.inl rfl)
  · exact .inr (.inr (word_precedes hlt))

/-! ## §4. The first free word. -/

theorem le_firstFreeWithin (reserved : List String) (budget p : Nat) :
    p ≤ firstFreeWithin reserved budget p := by
  fun_induction firstFreeWithin reserved budget p with
  | case1 => exact Nat.le_refl _
  | case2 budget p _ ih => omega
  | case3 => exact Nat.le_refl _

/-- Only reserved words are passed over. -/
theorem mem_of_lt_firstFreeWithin {reserved : List String} {budget p q : Nat} (hpq : p ≤ q)
    (hq : q < firstFreeWithin reserved budget p) : word q ∈ reserved := by
  fun_induction firstFreeWithin reserved budget p with
  | case1 => omega
  | case2 budget p hp ih =>
    rcases Nat.eq_or_lt_of_le hpq with rfl | hlt
    · exact List.contains_iff_mem.1 hp
    · exact ih hlt hq
  | case3 => omega

theorem firstFreeWithin_free_or_exhausted (reserved : List String) (budget p : Nat) :
    word (firstFreeWithin reserved budget p) ∉ reserved
      ∨ firstFreeWithin reserved budget p = p + budget := by
  fun_induction firstFreeWithin reserved budget p with
  | case1 => exact .inr rfl
  | case2 budget p _ ih => exact ih.imp_right fun h => by omega
  | case3 budget p hp => exact .inl fun h => hp (List.contains_iff_mem.2 h)

theorem le_firstFree (reserved : List String) (p : Nat) : p ≤ firstFree reserved p :=
  le_firstFreeWithin reserved reserved.length p

theorem mem_of_lt_firstFree {reserved : List String} {p q : Nat} (hpq : p ≤ q)
    (hq : q < firstFree reserved p) : word q ∈ reserved :=
  mem_of_lt_firstFreeWithin hpq hq

/-- The search ends at a free word.  Were the budget used up, there would be one reserved
    word more than there are reserved names. -/
theorem word_firstFree_not_mem (reserved : List String) (p : Nat) :
    word (firstFree reserved p) ∉ reserved := by
  rcases firstFreeWithin_free_or_exhausted reserved reserved.length p with hfree | hend
  · exact hfree
  intro hmem
  -- with its end, all words that the search looked at are reserved
  have hsubset : (List.range' p (reserved.length + 1)).map word ⊆ reserved := by
    intro w hw
    obtain ⟨q, hq, rfl⟩ := List.mem_map.1 hw
    rw [List.mem_range'_1] at hq
    rcases Nat.lt_or_ge q (firstFree reserved p) with hlt | hge
    · exact mem_of_lt_firstFree hq.1 hlt
    · have heq : q = firstFree reserved p := by
        unfold firstFree at hge ⊢
        omega
      exact heq ▸ hmem
  -- they are all different, so there cannot be so many of them
  have hnodup : ((List.range' p (reserved.length + 1)).map word).Nodup :=
    List.Nodup.map (fun _ _ => word_injective) List.nodup_range'
  have hlength := (List.subperm_of_subset hnodup hsubset).length_le
  rw [List.length_map, List.length_range'] at hlength
  omega

/-! ## §5. Taking many. -/

/-- `words` are the first alias words that are not reserved, in order. -/
structure IsFirstFree (isReserved : String → Prop) (words : List String) : Prop where
  isAliasWord : ∀ w ∈ words, IsAliasWord w
  free : ∀ w ∈ words, ¬ isReserved w
  ascending : words.Pairwise Precedes
  /-- No free word before one of `words` is left out. -/
  initial : ∀ w ∈ words, ∀ u, IsAliasWord u → ¬ isReserved u → Precedes u w → u ∈ words

/-- Positions of the words that a supply gives out: ascending, free, and without a free one
    left out. -/
theorem takeMany_positions (a : Allocator) (count : Nat) :
    ∃ ps : List Nat, (a.takeMany count).1 = ps.map word ∧ ps.length = count
      ∧ ps.Pairwise (· < ·)
      ∧ ∀ p ∈ ps, a.next ≤ p ∧ word p ∉ a.reserved
        ∧ ∀ q, a.next ≤ q → q < p → word q ∉ a.reserved → q ∈ ps := by
  induction count generalizing a with
  | zero => exact ⟨[], rfl, rfl, .nil, by simp⟩
  | succ count ih =>
    obtain ⟨ps, hwords, hlength, hsorted, hps⟩ := ih a.take.2
    have hfirst := le_firstFree a.reserved a.next
    refine ⟨firstFree a.reserved a.next :: ps, ?_, by simp [hlength], ?_, ?_⟩
    · rw [Allocator.takeMany, hwords]
      rfl
    · exact List.pairwise_cons.2 ⟨fun p hp => (hps p hp).1, hsorted⟩
    · intro p hp
      rcases List.mem_cons.1 hp with rfl | hp
      · -- the word taken first: all before it are reserved
        exact ⟨hfirst, word_firstFree_not_mem a.reserved a.next, fun q hq hlt hfree =>
          absurd (mem_of_lt_firstFree hq hlt) hfree⟩
      · -- a word taken later: before it come the first one and those after the first
        obtain ⟨hlow, hfree, hinitial⟩ := hps p hp
        have hlow' : firstFree a.reserved a.next + 1 ≤ p := hlow
        refine ⟨by omega, hfree, fun q hq hlt hqfree => ?_⟩
        rcases Nat.lt_trichotomy q (firstFree a.reserved a.next) with hq' | rfl | hq'
        · exact absurd (mem_of_lt_firstFree hq hq') hqfree
        · exact List.mem_cons_self
        · exact List.mem_cons_of_mem _ (hinitial q hq' hlt hqfree)

@[simp] theorem length_takeMany (a : Allocator) (count : Nat) :
    (a.takeMany count).1.length = count := by
  obtain ⟨ps, hwords, hlength, -⟩ := takeMany_positions a count
  rw [hwords, List.length_map, hlength]

/-- The words taken from a fresh supply are the first free ones. -/
theorem takeMany_isFirstFree {a : Allocator} (hfresh : a.next = 0) (count : Nat) :
    IsFirstFree (· ∈ a.reserved) (a.takeMany count).1 := by
  obtain ⟨ps, hwords, -, hsorted, hps⟩ := takeMany_positions a count
  rw [hwords]
  refine ⟨?_, ?_, ?_, ?_⟩
  · intro w hw
    obtain ⟨p, -, rfl⟩ := List.mem_map.1 hw
    exact isAliasWord_word p
  · intro w hw
    obtain ⟨p, hp, rfl⟩ := List.mem_map.1 hw
    exact (hps p hp).2.1
  · exact List.Pairwise.map word (fun _ _ => word_precedes) hsorted
  · intro w hw u hu hfree hprecedes
    obtain ⟨p, hp, rfl⟩ := List.mem_map.1 hw
    obtain ⟨q, rfl⟩ := exists_word_eq hu
    have hlt := word_precedes_iff.1 hprecedes
    exact List.mem_map_of_mem ((hps p hp).2.2 q (by omega) hlt hfree)

namespace IsFirstFree

variable {isReserved : String → Prop} {words : List String} (h : IsFirstFree isReserved words)
include h

theorem nodup : words.Nodup :=
  h.ascending.imp fun {u v} hprecedes (heq : u = v) =>
    LettersPrecede.irrefl _ (heq ▸ hprecedes)

/-- Lengths never decrease down the list. -/
theorem length_le : words.Pairwise fun u v => u.length ≤ v.length := by
  refine h.ascending.imp fun hprecedes => ?_
  rcases hprecedes with hlt | ⟨heq, -⟩
  · exact Nat.le_of_lt hlt
  · exact Nat.le_of_eq heq

/-- Words of one length are listed in alphabetical order. -/
theorem pairwise_lt (hlength : ∀ u ∈ words, ∀ v ∈ words, u.length = v.length) :
    words.Pairwise (· < ·) := by
  refine h.ascending.imp_of_mem fun {u v} hu hv hprecedes => ?_
  rcases hprecedes with hlt | ⟨-, hlt⟩
  · rw [String.length_toList, String.length_toList, hlength u hu v hv] at hlt
    exact absurd hlt (Nat.lt_irrefl _)
  · exact String.lt_iff.2 hlt

/-- There is one list of first free words of each length. -/
theorem eq_of_length_eq {words' : List String} (h' : IsFirstFree isReserved words')
    (hlength : words.length = words'.length) : words = words' := by
  -- the words of one list are all among those of the other
  have hsubset : words ⊆ words' ∨ words' ⊆ words := by
    by_cases hall : words ⊆ words'
    · exact .inl hall
    · refine .inr fun v hv => ?_
      rw [List.subset_def] at hall
      push Not at hall
      obtain ⟨w, hw, hnot⟩ := hall
      rcases precedes_trichotomy (h'.isAliasWord v hv) (h.isAliasWord w hw) with hlt | rfl | hlt
      · exact h.initial w hw v (h'.isAliasWord v hv) (h'.free v hv) hlt
      · exact hw
      · exact absurd (h'.initial v hv w (h.isAliasWord w hw) (h.free w hw) hlt) hnot
  have hperm : words.Perm words' := by
    rcases hsubset with hsubset | hsubset
    · exact (List.subperm_of_subset h.nodup hsubset).perm_of_length_le (Nat.le_of_eq hlength.symm)
    · exact ((List.subperm_of_subset h'.nodup hsubset).perm_of_length_le
        (Nat.le_of_eq hlength)).symm
  refine hperm.eq_of_pairwise (fun u v _ _ huv hvu => ?_) h.ascending h'.ascending
  exact absurd (LettersPrecede.trans huv hvu) (LettersPrecede.irrefl _)

end IsFirstFree

end GlslMinifier
