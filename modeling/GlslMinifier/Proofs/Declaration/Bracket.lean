/-
  GlslMinifier.Proofs.Declaration.Bracket — how deep tokens stand inside brackets.

  The searches for declarations count brackets while they go.  Here depth is what the
  tokens before a place say, without any order of counting: how many brackets they open
  less how many they close.

  Main results:
    * `bracketDepth_append` — depths add up
    * `count_eq_add_bracketDepth` — a count of open brackets goes by the depth of a token
    * `closesOpen_cons` — one more token in front
-/
import GlslMinifier.Declaration
import Mathlib.Data.List.Infix

namespace GlslMinifier

/-- An identifier token. -/
def Token.word (text : String) : Token := ⟨.identifier, text⟩

/-- A punctuation token. -/
def Token.mark (text : String) : Token := ⟨.punctuation, text⟩

/-! ## §1. Depth. -/

/-- How many brackets the tokens open, less how many they close. -/
def bracketDepth (opening closing : String) (ts : List Token) : Int :=
  ts.countP (·.isPunctuation opening) - ts.countP (·.isPunctuation closing)

/-- From `depth` open brackets on, no bracket is closed that is not open. -/
def ClosesOpen (opening closing : String) (depth : Int) (ts : List Token) : Prop :=
  ∀ before, before <+: ts → 0 ≤ depth + bracketDepth opening closing before

/-- Every bracket that is closed was opened before, and every bracket that is opened is
    closed. -/
structure Balanced (opening closing : String) (ts : List Token) : Prop where
  closes_open : ClosesOpen opening closing 0 ts
  closed : bracketDepth opening closing ts = 0

section

variable {opening closing : String}

instance (depth : Int) (ts : List Token) : Decidable (ClosesOpen opening closing depth ts) :=
  decidable_of_iff (∀ before ∈ ts.inits, 0 ≤ depth + bracketDepth opening closing before) <| by
    simp only [List.mem_inits, ClosesOpen]

instance (ts : List Token) : Decidable (Balanced opening closing ts) :=
  decidable_of_iff
    (ClosesOpen opening closing 0 ts ∧ bracketDepth opening closing ts = 0)
    ⟨fun h => ⟨h.1, h.2⟩, fun h => ⟨h.1, h.2⟩⟩

@[simp] theorem bracketDepth_nil : bracketDepth opening closing [] = 0 := rfl

theorem bracketDepth_append (ts us : List Token) :
    bracketDepth opening closing (ts ++ us)
      = bracketDepth opening closing ts + bracketDepth opening closing us := by
  unfold bracketDepth
  rw [List.countP_append, List.countP_append]
  omega

theorem bracketDepth_cons (t : Token) (ts : List Token) :
    bracketDepth opening closing (t :: ts)
      = bracketDepth opening closing [t] + bracketDepth opening closing ts :=
  bracketDepth_append [t] ts

/-! ## §2. One token. -/

/-- A token has one text. -/
theorem Token.isPunctuation_eq_false {t : Token} {a b : String} (h : t.isPunctuation a = true)
    (hne : a ≠ b) : t.isPunctuation b = false := by
  unfold isPunctuation at h ⊢
  rw [Bool.and_eq_true, beq_iff_eq, beq_iff_eq] at h
  rw [h.2, Bool.and_eq_false_iff]
  exact .inr (beq_eq_false_iff_ne.2 hne)

/-- A word is no punctuation. -/
theorem Token.isPunctuation_of_isIdentifier {t : Token} (h : t.isIdentifier = true)
    (text : String) : t.isPunctuation text = false := by
  unfold isIdentifier at h
  unfold isPunctuation
  rw [beq_iff_eq.1 h]
  rfl

theorem Token.isIdentifier_eq_false {t : Token} {text : String}
    (h : t.isPunctuation text = true) : t.isIdentifier = false := by
  rw [← Bool.not_eq_true]
  intro hword
  rw [isPunctuation_of_isIdentifier hword] at h
  exact absurd h (by decide)

theorem bracketDepth_opening {t : Token} (hne : opening ≠ closing)
    (h : t.isPunctuation opening = true) : bracketDepth opening closing [t] = 1 := by
  simp [bracketDepth, h, Token.isPunctuation_eq_false h hne]

theorem bracketDepth_closing {t : Token} (hne : opening ≠ closing)
    (h : t.isPunctuation closing = true) : bracketDepth opening closing [t] = -1 := by
  simp [bracketDepth, h, Token.isPunctuation_eq_false h hne.symm]

theorem bracketDepth_other {t : Token} (hopening : t.isPunctuation opening = false)
    (hclosing : t.isPunctuation closing = false) : bracketDepth opening closing [t] = 0 := by
  simp [bracketDepth, hopening, hclosing]

/-- A count that goes up at an opening bracket and down at a closing one goes by the depth
    of the token, as long as no bracket is closed that is not open. -/
theorem count_eq_add_bracketDepth {count next : Nat} {t : Token} (hne : opening ≠ closing)
    (hopens : t.isPunctuation opening = true → next = count + 1)
    (hcloses : t.isPunctuation closing = true → next = count - 1)
    (hother : t.isPunctuation opening = false → t.isPunctuation closing = false → next = count)
    (h : 0 ≤ (count : Int) + bracketDepth opening closing [t]) :
    (next : Int) = count + bracketDepth opening closing [t] := by
  by_cases hopen : t.isPunctuation opening = true
  · rw [bracketDepth_opening hne hopen, hopens hopen]
    rfl
  by_cases hclose : t.isPunctuation closing = true
  · rw [bracketDepth_closing hne hclose] at h ⊢
    have hnext := hcloses hclose
    omega
  · rw [Bool.not_eq_true] at hopen hclose
    rw [bracketDepth_other hopen hclose, hother hopen hclose, Int.add_zero]

/-! ## §3. One more token. -/

theorem closesOpen_nil {depth : Int} : ClosesOpen opening closing depth [] ↔ 0 ≤ depth := by
  simp [ClosesOpen]

theorem closesOpen_cons {depth : Int} {t : Token} {ts : List Token} :
    ClosesOpen opening closing depth (t :: ts)
      ↔ 0 ≤ depth
        ∧ ClosesOpen opening closing (depth + bracketDepth opening closing [t]) ts := by
  unfold ClosesOpen
  constructor
  · intro h
    refine ⟨by simpa using h [] List.nil_prefix, fun before hbefore => ?_⟩
    rw [Int.add_assoc, ← bracketDepth_cons]
    exact h (t :: before) ((List.prefix_cons_inj t).2 hbefore)
  · rintro ⟨hdepth, h⟩ before hbefore
    cases before with
    | nil => simpa using hdepth
    | cons u before =>
      obtain ⟨rfl, hrest⟩ := List.cons_prefix_cons.1 hbefore
      rw [bracketDepth_cons, ← Int.add_assoc]
      exact h before hrest

theorem ClosesOpen.of_prefix {depth : Int} {before ts : List Token}
    (h : ClosesOpen opening closing depth ts) (hbefore : before <+: ts) :
    ClosesOpen opening closing depth before :=
  fun _ hpart => h _ (hpart.trans hbefore)

end

end GlslMinifier
