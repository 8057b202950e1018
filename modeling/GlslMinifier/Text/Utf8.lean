/-
  GlslMinifier.Text.Utf8 — texts as bytes.

  Positions in a text count the bytes of its UTF-8 encoding.  A part of a text is named by
  its two ends, each of which has to stand between two characters (`slice?`).
-/

namespace GlslMinifier

/-! ## §1. Bytes of a text. -/

/-- The bytes of the UTF-8 encoding. -/
def utf8Bytes (text : String) : List UInt8 := text.toUTF8.data.toList

theorem utf8Bytes_eq_flatMap (text : String) :
    utf8Bytes text = text.toList.flatMap String.utf8EncodeChar := by
  rw [utf8Bytes, String.toUTF8_eq_toByteArray, ← String.utf8Encode_toList, List.utf8Encode,
    List.toList_data_toByteArray]

@[simp] theorem length_utf8Bytes (text : String) :
    (utf8Bytes text).length = text.utf8ByteSize := rfl

@[simp] theorem utf8Bytes_append (a b : String) :
    utf8Bytes (a ++ b) = utf8Bytes a ++ utf8Bytes b := by
  rw [utf8Bytes_eq_flatMap, String.toList_append, List.flatMap_append, ← utf8Bytes_eq_flatMap,
    ← utf8Bytes_eq_flatMap]

/-! ## §2. Bytes of one character. -/

theorem toNat_ofUInt8 (b : UInt8) : (Char.ofUInt8 b).toNat = b.toNat := rfl

theorem utf8EncodeChar_of_lt {c : Char} (h : c.toNat < 128) :
    String.utf8EncodeChar c = [c.val.toUInt8] := by
  have hle : c.val.toNat ≤ 0x7f := Nat.le_of_lt_succ h
  rw [String.utf8EncodeChar, if_pos hle]
  rfl

/-- An ASCII character is its only byte. -/
theorem exists_utf8EncodeChar_of_lt {c : Char} (h : c.toNat < 128) :
    ∃ b, String.utf8EncodeChar c = [b] ∧ Char.ofUInt8 b = c := by
  refine ⟨c.val.toUInt8, utf8EncodeChar_of_lt h, ?_⟩
  rw [← Char.toNat_inj, toNat_ofUInt8, UInt32.toNat_toUInt8, Char.toNat_val]
  omega

/-- The bytes of any other character are no ASCII characters. -/
theorem le_of_mem_utf8EncodeChar {c : Char} {b : UInt8} (h : 128 ≤ c.toNat)
    (hb : b ∈ String.utf8EncodeChar c) : 128 ≤ (Char.ofUInt8 b).toNat := by
  have hwide : ¬ c.val.toNat ≤ 0x7f := Nat.not_le.2 h
  have hhigh : ∀ n, 128 ≤ n → n < 256 → 128 ≤ (Char.ofUInt8 (.ofNat n)).toNat := by
    intro n hlow hsize
    rw [toNat_ofUInt8, UInt8.toNat_ofNat', Nat.mod_eq_of_lt hsize]
    exact hlow
  rw [String.utf8EncodeChar, if_neg hwide] at hb
  -- two, three or four bytes
  split at hb
  · simp only [List.mem_cons, List.not_mem_nil, or_false] at hb
    rcases hb with rfl | rfl <;> exact hhigh _ (by omega) (by omega)
  · split at hb
    · simp only [List.mem_cons, List.not_mem_nil, or_false] at hb
      rcases hb with rfl | rfl | rfl <;> exact hhigh _ (by omega) (by omega)
    · simp only [List.mem_cons, List.not_mem_nil, or_false] at hb
      rcases hb with rfl | rfl | rfl | rfl <;> exact hhigh _ (by omega) (by omega)

/-! ## §3. Parts. -/

/-- The part of a text between two byte positions; there is none if one of them stands
    inside a character or behind the text, or if they are in the wrong order. -/
def slice? (text : String) (start stop : Nat) : Option String :=
  if h : start ≤ stop ∧ String.Pos.Raw.IsValid text ⟨start⟩
      ∧ String.Pos.Raw.IsValid text ⟨stop⟩ then
    some (text.extract ⟨⟨start⟩, h.2.1⟩ ⟨⟨stop⟩, h.2.2⟩)
  else none

theorem isValid_append (a b : String) : String.Pos.Raw.IsValid (a ++ b) ⟨a.utf8ByteSize⟩ :=
  String.Pos.Raw.isValid_iff_exists_append.2 ⟨a, b, rfl, rfl⟩

/-- Between two parts of a text is the part in the middle. -/
theorem slice?_append (a b c : String) :
    slice? (a ++ b ++ c) a.utf8ByteSize (a.utf8ByteSize + b.utf8ByteSize) = some b := by
  have hstart : String.Pos.Raw.IsValid (a ++ b ++ c) ⟨a.utf8ByteSize⟩ := by
    rw [String.append_assoc]
    exact isValid_append a (b ++ c)
  have hstop : String.Pos.Raw.IsValid (a ++ b ++ c) ⟨a.utf8ByteSize + b.utf8ByteSize⟩ := by
    rw [← String.utf8ByteSize_append]
    exact isValid_append (a ++ b) c
  have hmiddle : (a ++ (b ++ c)).toByteArray.extract (a.utf8ByteSize + 0)
      (a.utf8ByteSize + b.utf8ByteSize) = b.toByteArray := by
    rw [String.toByteArray_append, String.toByteArray_append, ← String.size_toByteArray,
      ← String.size_toByteArray, ByteArray.extract_append_size_add,
      ByteArray.extract_append_size_left, ByteArray.extract_zero_size]
  rw [slice?, dif_pos ⟨Nat.le_add_right _ _, hstart, hstop⟩, Option.some_inj,
    ← String.toByteArray_inj, ← hmiddle, ← String.append_assoc]
  rfl

theorem slice?_append_end (a b : String) :
    slice? (a ++ b) a.utf8ByteSize (a ++ b).utf8ByteSize = some b := by
  have h := slice?_append a b ""
  rwa [String.append_empty, ← String.utf8ByteSize_append] at h

theorem le_of_slice? {text part : String} {start stop : Nat}
    (h : slice? text start stop = some part) : start ≤ stop := by
  unfold slice? at h
  split at h
  next hends => exact hends.1
  next => simp at h

end GlslMinifier
