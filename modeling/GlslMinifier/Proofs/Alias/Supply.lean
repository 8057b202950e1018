/-
  GlslMinifier.Proofs.Alias.Supply — what a supply of aliases hands out over a whole run.

  A supply keeps the names that it must not hand out and a position that only moves on.  It
  keeps no record of the words that it handed out: they all stand before the position.  The
  invariant of a run is that every word before the position is reserved or was handed out
  (`Allocator.Accounts`), so nothing is lost by looking from the position on only.

  Main results:
    * `accounts_reserve`, `accounts_take` — one request keeps the invariant
    * `accounts_run` — so does a run
    * `isNextFree_take`, `searchEnds_iff` — the word taken, and how the search for it ends
    * `run_takes_next_free` — no run skips a word that could be had
-/
import GlslMinifier.Proofs.Alias.Enumeration

namespace GlslMinifier

/-! ## §1. Runs. -/

/-- A request to something that hands out words. -/
inductive Request (α : Type)
  /-- Hand out none of the names from now on. -/
  | reserve (names : List String)
  /-- Hand out a word for `subject`. -/
  | word (subject : α)
  deriving DecidableEq, Repr

/-- The names that a request keeps back. -/
def Request.names {α : Type} : Request α → List String
  | .reserve names => names
  | .word _ => []

/-- The names that a run of requests keeps back. -/
def reservedIn {α : Type} (rs : List (Request α)) : List String := rs.flatMap Request.names

namespace Allocator

/-- What a supply hands out on one request, and the supply after it.  All subjects are the
    same to it. -/
def serve (a : Allocator) : Request Unit → List String × Allocator
  | .reserve names => ([], a.reserve names)
  | .word _ => ([a.take.1], a.take.2)

/-- The words that a supply hands out on a run of requests, in order, and the supply after
    it. -/
def run (a : Allocator) : List (Request Unit) → List String × Allocator
  | [] => ([], a)
  | r :: rs => ((a.serve r).1 ++ ((a.serve r).2.run rs).1, ((a.serve r).2.run rs).2)

theorem run_append (a : Allocator) (rs later : List (Request Unit)) :
    a.run (rs ++ later)
      = ((a.run rs).1 ++ ((a.run rs).2.run later).1, ((a.run rs).2.run later).2) := by
  induction rs generalizing a with
  | nil => rfl
  | cons r rs ih =>
    show (_ ++ ((a.serve r).2.run (rs ++ later)).1, ((a.serve r).2.run (rs ++ later)).2) = _
    rw [ih, ← List.append_assoc]
    rfl

theorem reserved_run (a : Allocator) (rs : List (Request Unit)) :
    (a.run rs).2.reserved = a.reserved ++ reservedIn rs := by
  induction rs generalizing a with
  | nil => exact (List.append_nil _).symm
  | cons r rs ih =>
    show ((a.serve r).2.run rs).2.reserved = a.reserved ++ (r.names ++ reservedIn rs)
    rw [ih, ← List.append_assoc]
    cases r with
    | reserve names => rfl
    | word subject =>
      show a.reserved ++ reservedIn rs = a.reserved ++ [] ++ reservedIn rs
      rw [List.append_nil]

/-! ## §2. The invariant. -/

/-- Every word before the position of the supply is reserved or given away, and no other
    word is given away. -/
structure Accounts (a : Allocator) (isGiven : String → Prop) : Prop where
  behind : ∀ p < a.next, word p ∈ a.reserved ∨ isGiven (word p)
  given : ∀ w, isGiven w → ∃ p < a.next, word p = w

theorem accounts_empty : empty.Accounts (· ∈ []) where
  behind := by
    intro p hp
    exact absurd hp (Nat.not_lt_zero p)
  given := by
    intro w hw
    exact absurd hw List.not_mem_nil

variable {a : Allocator} {isGiven : String → Prop}

theorem accounts_reserve (h : a.Accounts isGiven) (names : List String) :
    (a.reserve names).Accounts isGiven where
  behind := by
    intro p hp
    exact (h.behind p hp).imp_left (List.mem_append_left names)
  given := h.given

/-- Taking a word moves the position behind it; the words passed over are all reserved. -/
theorem accounts_take (h : a.Accounts isGiven) :
    a.take.2.Accounts fun w => isGiven w ∨ w = a.take.1 where
  behind := by
    intro p hp
    show word p ∈ a.reserved ∨ isGiven (word p) ∨ word p = word (firstFree a.reserved a.next)
    have hlast : p < firstFree a.reserved a.next + 1 := hp
    by_cases hbefore : p < a.next
    · exact (h.behind p hbefore).imp_right .inl
    · by_cases hpassed : p < firstFree a.reserved a.next
      · exact .inl (mem_of_lt_firstFree (by omega) hpassed)
      · have heq : p = firstFree a.reserved a.next := by omega
        exact .inr (.inr (congrArg word heq))
  given := by
    intro w hw
    show ∃ p < firstFree a.reserved a.next + 1, word p = w
    have hle := le_firstFree a.reserved a.next
    cases hw with
    | inl hold =>
      obtain ⟨p, hp, hword⟩ := h.given w hold
      exact ⟨p, by omega, hword⟩
    | inr hnew => exact ⟨firstFree a.reserved a.next, by omega, hnew.symm⟩

/-- **A run keeps the invariant**: what it hands out is given away. -/
theorem accounts_run {given : List String} (rs : List (Request Unit))
    (h : a.Accounts (· ∈ given)) : (a.run rs).2.Accounts (· ∈ given ++ (a.run rs).1) := by
  induction rs generalizing a given with
  | nil =>
    show a.Accounts (· ∈ given ++ [])
    rw [List.append_nil]
    exact h
  | cons r rs ih =>
    show ((a.serve r).2.run rs).2.Accounts
      (· ∈ given ++ ((a.serve r).1 ++ ((a.serve r).2.run rs).1))
    rw [← List.append_assoc]
    apply ih
    cases r with
    | reserve names =>
      show (a.reserve names).Accounts (· ∈ given ++ [])
      rw [List.append_nil]
      exact accounts_reserve h names
    | word subject =>
      show a.take.2.Accounts (· ∈ given ++ [a.take.1])
      simp only [List.mem_append, List.mem_singleton]
      exact accounts_take h

end Allocator

/-! ## §3. The word taken. -/

/-- `w` is the first alias word that is not taken. -/
structure IsNextFree (isTaken : String → Prop) (w : String) : Prop where
  isAliasWord : IsAliasWord w
  free : ¬ isTaken w
  first : ∀ u, IsAliasWord u → ¬ isTaken u → u = w ∨ Precedes w u

/-- Looking for a word from a position on, one word after the other, ends at another one.
    Nothing bounds the number of words that are passed over. -/
inductive SearchEnds (isTaken : String → Prop) : Nat → Nat → Prop
  | found {p : Nat} : ¬ isTaken (word p) → SearchEnds isTaken p p
  | passOver {p q : Nat} : isTaken (word p) → SearchEnds isTaken (p + 1) q →
      SearchEnds isTaken p q

section

variable {isTaken : String → Prop}

theorem searchEnds_of_forall {p q : Nat} (hle : p ≤ q)
    (htaken : ∀ r, p ≤ r → r < q → isTaken (word r)) (hfree : ¬ isTaken (word q)) :
    SearchEnds isTaken p q := by
  obtain ⟨count, rfl⟩ := Nat.exists_eq_add_of_le hle
  induction count generalizing p with
  | zero => exact .found hfree
  | succ count ih =>
    apply SearchEnds.passOver (htaken p (Nat.le_refl p) (by omega))
    have hmove : p + (count + 1) = p + 1 + count := by omega
    rw [hmove] at htaken hfree ⊢
    exact ih (by omega) (fun r hr => htaken r (by omega)) hfree

/-- A search ends at one place only. -/
theorem SearchEnds.unique {p q q' : Nat} (h : SearchEnds isTaken p q)
    (h' : SearchEnds isTaken p q') : q = q' := by
  induction h with
  | found hfree =>
    cases h' with
    | found _ => rfl
    | passOver htaken _ => exact absurd htaken hfree
  | passOver htaken _ ih =>
    cases h' with
    | found hfree => exact absurd htaken hfree
    | passOver _ hrest => exact ih hrest

end

namespace Allocator

variable {a : Allocator} {isGiven : String → Prop}

/-- The word at the position is neither reserved nor given away. -/
theorem not_taken_firstFree (h : a.Accounts isGiven) :
    ¬ (word (firstFree a.reserved a.next) ∈ a.reserved
      ∨ isGiven (word (firstFree a.reserved a.next))) := by
  intro htaken
  cases htaken with
  | inl hreserved => exact word_firstFree_not_mem a.reserved a.next hreserved
  | inr hgiven =>
    -- what is given away stands before the position
    obtain ⟨p, hp, hword⟩ := h.given _ hgiven
    have heq := word_injective hword
    have hle := le_firstFree a.reserved a.next
    omega

/-- **The search for a free word ends**, and where the supply says. -/
theorem searchEnds_iff (h : a.Accounts isGiven) (q : Nat) :
    SearchEnds (fun w => w ∈ a.reserved ∨ isGiven w) a.next q
      ↔ q = firstFree a.reserved a.next := by
  have hends : SearchEnds (fun w => w ∈ a.reserved ∨ isGiven w) a.next
      (firstFree a.reserved a.next) := by
    apply searchEnds_of_forall (le_firstFree _ _)
    · intro r hle hlt
      exact .inl (mem_of_lt_firstFree hle hlt)
    · exact not_taken_firstFree h
  constructor
  · intro hq
    exact hq.unique hends
  · intro hq
    rw [hq]
    exact hends

/-- The word taken is the first that is neither reserved nor given away. -/
theorem isNextFree_take (h : a.Accounts isGiven) :
    IsNextFree (fun w => w ∈ a.reserved ∨ isGiven w) a.take.1 where
  isAliasWord := isAliasWord_word _
  free := not_taken_firstFree h
  first := by
    intro u hu hfree
    show u = word (firstFree a.reserved a.next) ∨ Precedes (word (firstFree a.reserved a.next)) u
    obtain ⟨q, rfl⟩ := exists_word_eq hu
    rcases Nat.lt_trichotomy q (firstFree a.reserved a.next) with hlt | heq | hgt
    · -- every earlier word is taken, be it before the position or passed over
      by_cases hbefore : q < a.next
      · exact absurd (h.behind q hbefore) hfree
      · exact absurd (.inl (mem_of_lt_firstFree (by omega) hlt)) hfree
    · exact .inl (congrArg word heq)
    · exact .inr (word_precedes hgt)

/-- What a run hands out comes from behind the position it begins at. -/
theorem exists_word_of_mem_run {rs : List (Request Unit)} {w : String}
    (h : w ∈ (a.run rs).1) : ∃ p, a.next ≤ p ∧ word p = w := by
  induction rs generalizing a with
  | nil => exact absurd h List.not_mem_nil
  | cons r rs ih =>
    cases r with
    | reserve names => exact ih (a := a.reserve names) h
    | word subject =>
      have hle := le_firstFree a.reserved a.next
      rcases List.mem_cons.1 h with rfl | hlater
      · exact ⟨_, hle, rfl⟩
      · obtain ⟨p, hp, hword⟩ := ih hlater
        have hnext : firstFree a.reserved a.next + 1 ≤ p := hp
        exact ⟨p, by omega, hword⟩

theorem pairwise_precedes_run (a : Allocator) (rs : List (Request Unit)) :
    (a.run rs).1.Pairwise Precedes := by
  induction rs generalizing a with
  | nil => exact .nil
  | cons r rs ih =>
    cases r with
    | reserve names => exact ih (a.reserve names)
    | word subject =>
      apply List.Pairwise.cons _ (ih a.take.2)
      intro w hw
      obtain ⟨p, hp, rfl⟩ := exists_word_of_mem_run hw
      exact word_precedes hp

/-- **No run skips a word that could be had.**  Whatever was asked before, the next word
    taken is the first that was neither reserved nor handed out by then: the search for it,
    which looks at one word after the other, ends just there.  So the words of a run are
    distinct and come in order. -/
theorem run_takes_next_free :
    (∀ rs, (empty.run rs).1.Nodup ∧ (empty.run rs).1.Pairwise Precedes)
      ∧ ∀ before after : List (Request Unit),
        let past := empty.run before
        let isTaken := fun w => w ∈ reservedIn before ∨ w ∈ past.1
        (∃ q, (∀ r, SearchEnds isTaken past.2.next r ↔ r = q)
          ∧ past.2.take = (word q, { past.2 with next := q + 1 }))
        ∧ IsNextFree isTaken past.2.take.1
        ∧ (empty.run (before ++ .word () :: after)).1
          = past.1 ++ past.2.take.1 :: (past.2.take.2.run after).1 := by
  refine ⟨fun rs => ?_, fun before after => ?_⟩
  · have hordered := pairwise_precedes_run empty rs
    refine ⟨hordered.imp ?_, hordered⟩
    intro u v hprecedes heq
    rw [heq] at hprecedes
    exact LettersPrecede.irrefl _ hprecedes
  · intro past isTaken
    have haccounts : past.2.Accounts (· ∈ past.1) := accounts_run before accounts_empty
    have hreserved : past.2.reserved = reservedIn before := reserved_run empty before
    have htaken : isTaken = fun w => w ∈ past.2.reserved ∨ w ∈ past.1 := by
      rw [hreserved]
    rw [htaken]
    refine ⟨⟨firstFree past.2.reserved past.2.next, searchEnds_iff haccounts, rfl⟩,
      isNextFree_take haccounts, ?_⟩
    rw [run_append]
    rfl

end Allocator

example : (Allocator.empty.run [.word (), .reserve ["b", "d"], .word (), .word ()]).1
    = ["a", "c", "e"] := by
  decide +kernel

end GlslMinifier
