/-
  GlslMinifier.Token.ByteScan — cutting a text into tokens by byte positions.

  The scanner never decodes the text.  It tests single bytes, finds the end of a token as
  a byte position, and takes the token out of the text between two positions.  Nothing in
  it says that these stand between characters, nor that the positions that it looks up are
  inside the text: where they do not, the scanner gives up (`none`).  What it finds is the
  subject of `GlslMinifier.Proofs.ByteScan`.

  Each token ends behind its start (`scanToken?_advances`), which is why the scanner comes
  to an end.
-/
import GlslMinifier.Text.Utf8
import GlslMinifier.Token.Lexer
import GlslMinifier.Token.Span

namespace GlslMinifier

/-! ## §1. Ends.

A byte is tested as the character with its number. -/

/-- The first position from `start` on whose byte is not of the class. -/
def runEnd (p : Char → Bool) (bytes : List UInt8) (start : Nat) : Nat :=
  if h : start < bytes.length then
    if p (.ofUInt8 bytes[start]) then runEnd p bytes (start + 1) else start
  else start
termination_by bytes.length - start

/-- The first position from `stop` on that does not continue a number which begins at
    `start`.  A sign needs an exponent mark before it in the number. -/
def numberEnd (hex : Bool) (bytes : List UInt8) (start stop : Nat) : Nat :=
  if h : stop < bytes.length then
    let c := Char.ofUInt8 bytes[stop]
    let isExponentSign := !hex && isSign c && decide (start < stop)
      && isExponentMark (.ofUInt8 bytes[stop - 1])
    if isNumberChar c || isExponentSign then numberEnd hex bytes start (stop + 1) else stop
  else stop
termination_by bytes.length - stop

/-- Where the first closing mark stands, in bytes. -/
def closeOffset? : List Char → Option Nat
  | [] => none
  | '*' :: '/' :: _ => some 0
  | c :: cs => (closeOffset? cs).map (c.utf8Size + ·)

theorem le_runEnd (p : Char → Bool) (bytes : List UInt8) (start : Nat) :
    start ≤ runEnd p bytes start := by
  fun_induction runEnd p bytes start with
  | case1 start _ _ ih => omega
  | case2 => exact Nat.le_refl _
  | case3 => exact Nat.le_refl _

theorem lt_runEnd {p : Char → Bool} {bytes : List UInt8} {start : Nat} {b : UInt8}
    (hb : bytes[start]? = some b) (hp : p (.ofUInt8 b) = true) : start < runEnd p bytes start := by
  obtain ⟨hlt, rfl⟩ := List.getElem?_eq_some_iff.1 hb
  rw [runEnd, dif_pos hlt, if_pos hp]
  exact le_runEnd p bytes (start + 1)

theorem le_numberEnd (hex : Bool) (bytes : List UInt8) (start stop : Nat) :
    stop ≤ numberEnd hex bytes start stop := by
  fun_induction numberEnd hex bytes start stop with
  | case1 stop _ _ _ _ ih => omega
  | case2 => exact Nat.le_refl _
  | case3 => exact Nat.le_refl _

theorem lt_numberEnd {hex : Bool} {bytes : List UInt8} {start : Nat} {b : UInt8}
    (hb : bytes[start]? = some b) (hnumber : isNumberChar (.ofUInt8 b) = true) :
    start < numberEnd hex bytes start start := by
  obtain ⟨hlt, rfl⟩ := List.getElem?_eq_some_iff.1 hb
  rw [numberEnd, dif_pos hlt, if_pos (by rw [hnumber, Bool.true_or])]
  exact le_numberEnd hex bytes start (start + 1)

/-! ## §2. The scanner. -/

/-- A text that is cut up to the byte position `offset`. -/
structure ByteScanner where
  text : String
  offset : Nat
  /-- Whether a `#` at the offset would open a directive. -/
  lineStart : Bool

namespace ByteScanner

/-- The scanner at the start of a text. -/
def atStart (text : String) : ByteScanner := ⟨text, 0, true⟩

def bytes (s : ByteScanner) : List UInt8 := utf8Bytes s.text

/-- The byte that stands `ahead` positions behind the offset. -/
def peek (s : ByteScanner) (ahead : Nat) : Option Char :=
  s.bytes[s.offset + ahead]?.map .ofUInt8

/-- The text from a byte position on. -/
def textFrom? (s : ByteScanner) (start : Nat) : Option String :=
  slice? s.text start s.text.utf8ByteSize

/-- Where a comment ends: behind its closing mark, or at the end of the line. -/
def commentStop? (s : ByteScanner) : Option Nat :=
  if s.peek 1 == some '*' then
    (s.textFrom? (s.offset + 2)).map fun body =>
      match closeOffset? body.toList with
      | some mark => s.offset + 2 + mark + 2
      | none => s.bytes.length
  else some (runEnd (· != '\n') s.bytes s.offset)

/-- Where a token of the kind ends that begins at the offset. -/
def stop? (s : ByteScanner) (kind : Kind) : Option Nat :=
  match kind with
  | .newline => some (s.offset + 1)
  | .whitespace => some (runEnd isBlank s.bytes s.offset)
  | .directive => some (runEnd (· != '\n') s.bytes s.offset)
  | .comment => s.commentStop?
  | .identifier => some (runEnd isWordChar s.bytes s.offset)
  | .number =>
    let hex := s.peek 0 == some '0' && (s.peek 1 == some 'x' || s.peek 1 == some 'X')
    some (numberEnd hex s.bytes s.offset s.offset)
  | .punctuation =>
    (s.textFrom? s.offset).map fun rest =>
      s.offset + (rest.toList.head?.map Char.utf8Size).getD 1

/-- Kind and end of the token that begins at the offset. -/
def scanToken? (s : ByteScanner) : Option (Kind × Nat) :=
  (s.peek 0).bind fun c =>
    let kind := Kind.starting s.lineStart c (s.peek 1)
    (s.stop? kind).map fun stop => (kind, stop)

/-- The token at the offset with its span, and the scanner behind it. -/
def next? (s : ByteScanner) : Option ((Token × Span) × ByteScanner) :=
  s.scanToken?.bind fun (kind, stop) =>
    (slice? s.text s.offset stop).map fun text =>
      ((⟨kind, text⟩, ⟨s.offset, s.offset + text.utf8ByteSize⟩),
        ⟨s.text, stop, kind.keepsLineStart s.lineStart⟩)

theorem commentStop?_advances {s : ByteScanner} {b : UInt8} {stop : Nat}
    (hb : s.bytes[s.offset]? = some b) (hslash : Char.ofUInt8 b = '/')
    (h : s.commentStop? = some stop) : s.offset < stop := by
  unfold commentStop? at h
  split at h
  · obtain ⟨body, hbody, rfl⟩ := Option.map_eq_some_iff.1 h
    have hle : s.offset + 2 ≤ s.bytes.length := le_of_slice? hbody
    split <;> omega
  · obtain rfl := Option.some.inj h
    exact lt_runEnd hb (by rw [hslash]; decide)

/-- Whatever kind the first byte announces, the token holds that byte. -/
theorem stop?_advances {s : ByteScanner} {b : UInt8} {stop : Nat}
    (hb : s.bytes[s.offset]? = some b)
    (h : s.stop? (Kind.starting s.lineStart (.ofUInt8 b) (s.peek 1)) = some stop) :
    s.offset < stop := by
  revert h
  -- the cases are, in order: line break, blanks, directive, comment, identifier, number,
  -- punctuation
  fun_cases Kind.starting s.lineStart (.ofUInt8 b) (s.peek 1) <;> intro h
  case case1 =>
    obtain rfl := Option.some.inj h
    exact Nat.lt_succ_self _
  case case2 _ hblank =>
    obtain rfl := Option.some.inj h
    exact lt_runEnd hb hblank
  case case3 _ _ hhash =>
    obtain rfl := Option.some.inj h
    rw [Bool.and_eq_true, beq_iff_eq] at hhash
    exact lt_runEnd hb (by rw [hhash.1]; decide)
  case case4 _ _ _ hslash =>
    rw [Bool.and_eq_true, beq_iff_eq] at hslash
    exact commentStop?_advances hb hslash.1 h
  case case5 _ _ _ _ hstart =>
    obtain rfl := Option.some.inj h
    refine lt_runEnd hb ?_
    simp only [isWordStart, isWordChar, Char.isAlphanum, Bool.or_eq_true] at hstart ⊢
    exact hstart.imp_left .inl
  case case6 _ _ _ _ _ hdigit =>
    obtain rfl := Option.some.inj h
    refine lt_numberEnd hb ?_
    simp only [isNumberChar, Char.isAlphanum, Bool.or_eq_true, Bool.and_eq_true] at hdigit ⊢
    exact hdigit.imp (fun hdig => .inl (.inr hdig)) And.left
  case case7 =>
    obtain ⟨rest, -, rfl⟩ := Option.map_eq_some_iff.1 h
    cases rest.toList with
    | nil => exact Nat.lt_succ_self _
    | cons c cs => exact Nat.lt_add_of_pos_right c.utf8Size_pos

theorem scanToken?_advances {s : ByteScanner} {kind : Kind} {stop : Nat}
    (h : s.scanToken? = some (kind, stop)) : s.offset < stop := by
  obtain ⟨c, hc, hscan⟩ := Option.bind_eq_some_iff.1 h
  obtain ⟨b, hb, rfl⟩ := Option.map_eq_some_iff.1 hc
  obtain ⟨_, hstop, heq⟩ := Option.map_eq_some_iff.1 hscan
  obtain ⟨rfl, rfl⟩ := Prod.mk.inj heq
  exact stop?_advances hb hstop

theorem next?_advances {s s' : ByteScanner} {found : Token × Span}
    (h : s.next? = some (found, s')) : s'.text = s.text ∧ s.offset < s'.offset := by
  obtain ⟨⟨kind, stop⟩, hscan, hslice⟩ := Option.bind_eq_some_iff.1 h
  obtain ⟨text, -, heq⟩ := Option.map_eq_some_iff.1 hslice
  obtain ⟨-, rfl⟩ := Prod.mk.inj heq
  exact ⟨rfl, scanToken?_advances hscan⟩

/-- All tokens from the offset on with their spans, or `none` where the scanner gives up. -/
def collect? (s : ByteScanner) : Option (List (Token × Span)) :=
  if s.offset < s.text.utf8ByteSize then
    match _h : s.next? with
    | none => none
    | some (found, s') => (collect? s').map (found :: ·)
  else some []
termination_by s.text.utf8ByteSize - s.offset
decreasing_by
  have := next?_advances _h
  rw [this.1]
  omega

end ByteScanner

end GlslMinifier
