/-
  GlslMinifier.Proofs.Utf8Order — UTF-8 keeps the order of texts.

  The first byte of a character says how many bytes it has, and a character with more of
  them begins with a greater byte.  What its number leaves over the first byte is written
  six bits at a time.  So characters are in the order of their bytes, and so are texts.

  Main results:
    * `trailBytes_append_lt` — the bytes behind the first one
    * `utf8EncodeChar_append_lt` — the bytes of a character
    * `utf8Bytes_lt_of_lt` — the bytes of a text
-/
import GlslMinifier.Text.Utf8
import Mathlib.Algebra.Ring.Nat
import Mathlib.Tactic.SplitIfs

namespace GlslMinifier

/-! ## §1. One character. -/

/-- The first byte of the character with number `n`. -/
def leadByte (n : Nat) : Nat :=
  if n ≤ 0x7f then n
  else if n ≤ 0x7ff then n / 64 + 192
  else if n ≤ 0xffff then n / 4096 + 224
  else n / 262144 + 240

/-- How many bytes the character with number `n` has behind the first one. -/
def trailCount (n : Nat) : Nat :=
  if n ≤ 0x7f then 0 else if n ≤ 0x7ff then 1 else if n ≤ 0xffff then 2 else 3

/-- The last `count` bytes of the character with number `n`, six bits in each. -/
def trailBytes (n : Nat) : (count : Nat) → List UInt8
  | 0 => []
  | count + 1 => .ofNat (n / 64 ^ count % 64 + 128) :: trailBytes n count

theorem toNat_lt_of_valid (c : Char) : c.val.toNat < 0x110000 := by
  have hvalid := c.valid
  unfold UInt32.isValidChar Nat.isValidChar at hvalid
  omega

theorem utf8EncodeChar_eq (c : Char) :
    String.utf8EncodeChar c
      = .ofNat (leadByte c.val.toNat) :: trailBytes c.val.toNat (trailCount c.val.toNat) := by
  have hn := toNat_lt_of_valid c
  unfold String.utf8EncodeChar leadByte trailCount
  generalize c.val.toNat = n at hn ⊢
  dsimp only
  split_ifs with h₁ h₂ h₃
  · rfl
  · have hmod : n / 64 % 32 = n / 64 := Nat.mod_eq_of_lt (by omega)
    simp [trailBytes, hmod]
  · have hmod : n / 4096 % 16 = n / 4096 := Nat.mod_eq_of_lt (by omega)
    simp [trailBytes, hmod]
  · have hmod : n / 262144 % 8 = n / 262144 := Nat.mod_eq_of_lt (by omega)
    simp [trailBytes, hmod]

theorem ofNat_cons_lt {m n : Nat} {as bs : List UInt8} (hn : n < 256)
    (h : m < n ∨ m = n ∧ as < bs) : UInt8.ofNat m :: as < UInt8.ofNat n :: bs := by
  rw [List.cons_lt_cons_iff]
  cases h with
  | inl hlt =>
    left
    rw [UInt8.lt_iff_toNat_lt, UInt8.toNat_ofNat', UInt8.toNat_ofNat', Nat.mod_eq_of_lt hn,
      Nat.mod_eq_of_lt (Nat.lt_trans hlt hn)]
    exact hlt
  | inr heq => exact .inr ⟨congrArg UInt8.ofNat heq.1, heq.2⟩

/-- Numbers that differ in their last `count` groups of six bits only are in the order of the
    bytes for these. -/
theorem trailBytes_append_lt {m n count : Nat} (h : m < n)
    (hsame : m / 64 ^ count = n / 64 ^ count) (as bs : List UInt8) :
    trailBytes m count ++ as < trailBytes n count ++ bs := by
  induction count with
  | zero =>
    rw [Nat.pow_zero, Nat.div_one, Nat.div_one] at hsame
    omega
  | succ count ih =>
    rw [Nat.pow_succ, ← Nat.div_div_eq_div_mul, ← Nat.div_div_eq_div_mul] at hsame
    have hle : m / 64 ^ count ≤ n / 64 ^ count := Nat.div_le_div_right (Nat.le_of_lt h)
    apply ofNat_cons_lt (by omega)
    by_cases hgroup : m / 64 ^ count = n / 64 ^ count
    · exact .inr ⟨by rw [hgroup], ih hgroup⟩
    · exact .inl (by omega)

/-- A later character begins with a greater byte, or it has as many bytes and differs behind
    the first one. -/
theorem leadByte_lt_or_eq {m n : Nat} (h : m < n) (hn : n < 0x110000) :
    leadByte m < leadByte n ∨ leadByte m = leadByte n ∧ trailCount m = trailCount n
      ∧ m / 64 ^ trailCount n = n / 64 ^ trailCount n := by
  unfold leadByte trailCount
  split_ifs <;> omega

/-- **The bytes of a later character are greater**, whatever follows. -/
theorem utf8EncodeChar_append_lt {c d : Char} (h : c < d) (as bs : List UInt8) :
    String.utf8EncodeChar c ++ as < String.utf8EncodeChar d ++ bs := by
  have hlt : c.val.toNat < d.val.toNat := h
  have hd := toNat_lt_of_valid d
  have hbyte : leadByte d.val.toNat < 256 := by
    unfold leadByte
    split_ifs <;> omega
  rw [utf8EncodeChar_eq, utf8EncodeChar_eq]
  apply ofNat_cons_lt hbyte
  cases leadByte_lt_or_eq hlt hd with
  | inl hlead => exact .inl hlead
  | inr hsame =>
    obtain ⟨hlead, hcount, hdiv⟩ := hsame
    rw [hcount]
    exact .inr ⟨hlead, trailBytes_append_lt hlt hdiv as bs⟩

/-! ## §2. Texts. -/

/-- **Texts in order are in order by their bytes.** -/
theorem utf8Bytes_lt_of_lt {a b : String} (h : a < b) : utf8Bytes a < utf8Bytes b := by
  rw [String.lt_iff] at h
  rw [utf8Bytes_eq_flatMap, utf8Bytes_eq_flatMap]
  generalize a.toList = cs at h ⊢
  generalize b.toList = ds at h ⊢
  induction h with
  | @nil d ds =>
    -- the first text has ended
    rw [List.flatMap_cons, utf8EncodeChar_eq]
    exact .nil
  | @rel c cs d ds hcd =>
    rw [List.flatMap_cons, List.flatMap_cons]
    exact utf8EncodeChar_append_lt hcd _ _
  | @cons c cs ds _ ih =>
    rw [List.flatMap_cons, List.flatMap_cons]
    exact List.append_left_lt ih

end GlslMinifier
