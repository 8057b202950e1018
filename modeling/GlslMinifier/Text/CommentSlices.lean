/-
  GlslMinifier.Text.CommentSlices — removing comments by byte positions.

  A mark is searched for as a byte position, and what stands before and behind it is taken
  out of the text between two positions.  Nothing here says that these stand between
  characters: where one does not, or where it lies behind the text, there is no result
  (`none`).  That there always is one, and which, is the subject of
  `GlslMinifier.Proofs.CommentSlices`.
-/
import GlslMinifier.Text.Lines
import GlslMinifier.Text.Utf8

namespace GlslMinifier

/-- Where a mark stands first, in bytes. -/
def offsetOf? (mark : List Char) : List Char → Option Nat
  | [] => none
  | c :: cs =>
    if mark.isPrefixOf (c :: cs) then some 0 else (offsetOf? mark cs).map (c.utf8Size + ·)

/-- A part is as long as the positions are apart. -/
theorem utf8ByteSize_of_slice? {text part : String} {start stop : Nat}
    (h : slice? text start stop = some part) : start + part.utf8ByteSize = stop := by
  unfold slice? at h
  split at h
  next hends =>
    have hle : stop ≤ text.utf8ByteSize := hends.2.2.le_rawEndPos
    obtain rfl := Option.some.inj h
    rw [← String.size_toByteArray, String.toByteArray_extract, ByteArray.size_extract]
    show start + (min stop text.utf8ByteSize - start) = stop
    omega
  next => simp at h

/-- The text with a blank in place of each block comment.  `rest` is what is still to be
    read: the search starts afresh behind every comment, and a comment without an end
    stays. -/
def sliceBlockComments? (rest : String) : Option String :=
  match offsetOf? ['/', '*'] rest.toList with
  | none => some rest
  | some opening =>
    (slice? rest (opening + 2) rest.utf8ByteSize).bind fun inside =>
      match offsetOf? ['*', '/'] inside.toList with
      | none => some rest
      | some closing =>
        (slice? rest 0 opening).bind fun before =>
          match _h : slice? rest (opening + 2 + closing + 2) rest.utf8ByteSize with
          | none => none
          | some after => (sliceBlockComments? after).map fun tail => before ++ (" " ++ tail)
termination_by rest.utf8ByteSize
decreasing_by
  have := utf8ByteSize_of_slice? _h
  omega

/-- The part of a line before its comment. -/
def sliceLine? (line : String) : Option String :=
  match offsetOf? ['/', '/'] line.toList with
  | none => some line
  | some mark => slice? line 0 mark

/-- Removes block comments, then the line comments of what is left. -/
def sliceComments? (text : String) : Option String :=
  (sliceBlockComments? text).bind fun blanked =>
    ((lines blanked).mapM sliceLine?).map unlines

end GlslMinifier
