/-
  GlslMinifier.Proofs.ByteScan — cutting by bytes is cutting by characters.

  Every test of the byte scanner is about ASCII characters, and in UTF-8 no byte of another
  character looks like one of them.  So a test that a byte passes is passed by the whole
  character that the byte is a part of, and the scanner stops between characters only.

  Main results:
    * `IsAsciiClass.eq_of_mem` — a byte is classed as the character it is a part of
    * `ByteScanner.next?_ahead` — one step cuts off one token of the lexer
    * `ByteScanner.collect?_ahead` — a whole run cuts off all of them
    * `byteScanner_lossless` — the scanner ends, and its spans divide up the text
-/
import GlslMinifier.Proofs.Segmentation
import GlslMinifier.Token.ByteScan
import Mathlib.Data.List.Chain

namespace GlslMinifier

/-! ## §1. Bytes of characters. -/

/-- The bytes of a list of characters. -/
def charBytes (cs : List Char) : List UInt8 := cs.flatMap String.utf8EncodeChar

/-- A class of characters that does not tell apart those that are not ASCII. -/
def IsAsciiClass (p : Char → Bool) : Prop :=
  ∀ c d : Char, 128 ≤ c.toNat → 128 ≤ d.toNat → p c = p d

/-- **A byte is classed as the character it is a part of.** -/
theorem IsAsciiClass.eq_of_mem {p : Char → Bool} (hp : IsAsciiClass p) {c : Char} {b : UInt8}
    (hb : b ∈ String.utf8EncodeChar c) : p (.ofUInt8 b) = p c := by
  rcases Nat.lt_or_ge c.toNat 128 with hascii | hwide
  · obtain ⟨b', henc, hb'⟩ := exists_utf8EncodeChar_of_lt hascii
    rw [henc, List.mem_singleton] at hb
    rw [hb, hb']
  · exact hp _ c (le_of_mem_utf8EncodeChar hwide hb) hwide

/-- A class of ASCII characters holds of no other character. -/
theorem eq_false_of_le {p : Char → Bool} (h : ∀ c, p c = true → c.toNat < 128) {c : Char}
    (hc : 128 ≤ c.toNat) : p c = false := by
  rw [← Bool.not_eq_true]
  intro hp
  exact absurd (h c hp) (Nat.not_lt.2 hc)

theorem IsAsciiClass.of_lt {p : Char → Bool} (h : ∀ c, p c = true → c.toNat < 128) :
    IsAsciiClass p := by
  intro c d hc hd
  rw [eq_false_of_le h hc, eq_false_of_le h hd]

theorem isAsciiClass_beq {d : Char} (hd : d.toNat < 128) : IsAsciiClass (· == d) := by
  refine .of_lt fun c hc => ?_
  rw [beq_iff_eq.1 hc]
  exact hd

theorem isAsciiClass_bne {d : Char} (hd : d.toNat < 128) : IsAsciiClass (· != d) :=
  fun c e hc he => congrArg not (isAsciiClass_beq hd c e hc he)

theorem toNat_lt_of_isBlank {c : Char} (h : isBlank c = true) : c.toNat < 128 := by
  simp only [isBlank, Bool.or_eq_true, beq_iff_eq] at h
  rcases h with (((rfl | rfl) | rfl) | rfl) | rfl <;> decide

theorem isAsciiClass_isBlank : IsAsciiClass isBlank := .of_lt fun _ => toNat_lt_of_isBlank

theorem isAsciiClass_isWordChar : IsAsciiClass isWordChar :=
  .of_lt fun _ hc => (toNat_of_isWordChar hc).2

theorem toNat_lt_of_isNumberChar {c : Char} (h : isNumberChar c = true) : c.toNat < 128 := by
  have hchar : isWordChar c = true ∨ c = '.' := by simpa [isNumberChar, isWordChar] using h
  rcases hchar with hword | rfl
  · exact (toNat_of_isWordChar hword).2
  · decide

theorem toNat_lt_of_isSign {c : Char} (h : isSign c = true) : c.toNat < 128 := by
  rw [isSign, Bool.or_eq_true, beq_iff_eq, beq_iff_eq] at h
  rcases h with rfl | rfl <;> decide

theorem isAsciiClass_isNumberChar : IsAsciiClass isNumberChar :=
  .of_lt fun _ => toNat_lt_of_isNumberChar

theorem isAsciiClass_isSign : IsAsciiClass isSign := .of_lt fun _ => toNat_lt_of_isSign

theorem isAsciiClass_isDigit : IsAsciiClass Char.isDigit :=
  .of_lt fun _ hc => (toNat_of_isWordChar (isWordChar_of_isDigit hc)).2

/-! ## §2. Lists of characters as bytes. -/

theorem exists_first_byte (c : Char) :
    ∃ b bs, String.utf8EncodeChar c = b :: bs ∧ b ∈ String.utf8EncodeChar c := by
  obtain ⟨b, bs, hbytes⟩ := List.exists_cons_of_ne_nil (String.utf8EncodeChar_ne_nil (c := c))
  exact ⟨b, bs, hbytes, hbytes ▸ List.mem_cons_self⟩

@[simp] theorem charBytes_cons (c : Char) (cs : List Char) :
    charBytes (c :: cs) = String.utf8EncodeChar c ++ charBytes cs := rfl

@[simp] theorem utf8Bytes_ofList (cs : List Char) :
    utf8Bytes (String.ofList cs) = charBytes cs := by
  rw [utf8Bytes_eq_flatMap, String.toList_ofList, charBytes]

theorem utf8ByteSize_ofList (cs : List Char) :
    (String.ofList cs).utf8ByteSize = (charBytes cs).length := by
  rw [← length_utf8Bytes, utf8Bytes_ofList]

/-- The first byte of a list of characters is classed as the first character. -/
theorem IsAsciiClass.head?_any {p : Char → Bool} (hp : IsAsciiClass p) (cs : List Char) :
    ((charBytes cs).head?.map Char.ofUInt8).any p = cs.head?.any p := by
  cases cs with
  | nil => rfl
  | cons c cs =>
    obtain ⟨b, bs, hbytes, hb⟩ := exists_first_byte c
    rw [charBytes_cons, hbytes]
    exact hp.eq_of_mem hb

/-- A run of bytes is a run of characters. -/
theorem IsAsciiClass.takeWhile_charBytes {p : Char → Bool} (hp : IsAsciiClass p)
    (cs : List Char) :
    (charBytes cs).takeWhile (fun b => p (.ofUInt8 b)) = charBytes (cs.takeWhile p) := by
  induction cs with
  | nil => rfl
  | cons c cs ih =>
    rw [charBytes_cons, List.takeWhile_cons]
    split
    next hc =>
      rw [List.takeWhile_append_of_pos fun b hb => (hp.eq_of_mem hb).trans hc, ih, charBytes_cons]
    next hc =>
      -- the run ends at the first byte of the character
      obtain ⟨b, bs, hbytes, hb⟩ := exists_first_byte c
      rw [hbytes, List.cons_append, List.takeWhile_cons_of_neg (by rw [hp.eq_of_mem hb]; exact hc)]
      rfl

/-! ## §3. Ends. -/

theorem runEnd_append (p : Char → Bool) (front rest : List UInt8) :
    runEnd p (front ++ rest) front.length
      = front.length + (rest.takeWhile (fun b => p (.ofUInt8 b))).length := by
  induction rest generalizing front with
  | nil =>
    rw [runEnd, dif_neg (by simp)]
    rfl
  | cons b rest ih =>
    have hlt : front.length < (front ++ b :: rest).length := by simp
    have hb : (front ++ b :: rest)[front.length] = b := by simp
    rw [runEnd, dif_pos hlt, hb, List.takeWhile_cons]
    split
    next hp =>
      -- the byte joins what is read
      have hnext := ih (front ++ [b])
      rw [List.append_assoc, List.length_append] at hnext
      rw [List.length_cons]
      exact hnext.trans (by simp; omega)
    next hp => rfl

/-- One test of a number.  The byte before belongs to the number. -/
theorem numberEnd_append_cons {hex : Bool} {init rest : List UInt8} {b d : UInt8} {start : Nat}
    (hstart : start ≤ init.length) :
    numberEnd hex (init ++ b :: d :: rest) start (init.length + 1)
      = if isNumberChar (.ofUInt8 d)
          || (!hex && isSign (.ofUInt8 d) && isExponentMark (.ofUInt8 b)) then
        numberEnd hex (init ++ b :: d :: rest) start (init.length + 2)
      else init.length + 1 := by
  have hlt : init.length + 1 < (init ++ b :: d :: rest).length := by simp
  have hd : (init ++ b :: d :: rest)[init.length + 1] = d := by simp
  have hb : (init ++ b :: d :: rest)[init.length + 1 - 1] = b := by simp
  have hin : decide (start < init.length + 1) = true := decide_eq_true (by omega)
  rw [numberEnd, dif_pos hlt]
  simp only [hd, hb, hin, Bool.and_true]

theorem numberEnd_append_first {hex : Bool} {front rest : List UInt8} {b : UInt8}
    (hb : isNumberChar (.ofUInt8 b) = true) :
    numberEnd hex (front ++ b :: rest) front.length front.length
      = numberEnd hex (front ++ b :: rest) front.length (front.length + 1) := by
  have hlt : front.length < (front ++ b :: rest).length := by simp
  have hget : (front ++ b :: rest)[front.length] = b := by simp
  rw [numberEnd, dif_pos hlt]
  simp only [hget, hb, Bool.true_or, if_true]

/-- A number of bytes is a number of characters. -/
theorem numberEnd_append (hex : Bool) (cs : List Char) {init : List UInt8} {b : UInt8}
    {start : Nat} (hstart : start ≤ init.length) :
    numberEnd hex (init ++ b :: charBytes cs) start (init.length + 1)
      = init.length + 1 + (charBytes (splitNumber hex (.ofUInt8 b) cs).1).length := by
  induction cs generalizing init b with
  | nil =>
    rw [numberEnd, dif_neg (by simp [charBytes])]
    rfl
  | cons c cs ih =>
    obtain ⟨d, ds, hbytes, hd⟩ := exists_first_byte c
    rw [charBytes_cons, hbytes, List.cons_append, numberEnd_append_cons hstart,
      isAsciiClass_isNumberChar.eq_of_mem hd, isAsciiClass_isSign.eq_of_mem hd, splitNumber]
    split
    next hgoesOn =>
      -- a character that continues a number is its only byte
      have hascii : c.toNat < 128 := by
        rw [Bool.or_eq_true, Bool.and_eq_true, Bool.and_eq_true] at hgoesOn
        exact hgoesOn.elim toNat_lt_of_isNumberChar fun hsign => toNat_lt_of_isSign hsign.1.2
      obtain ⟨d', hsingle, rfl⟩ := exists_utf8EncodeChar_of_lt hascii
      obtain ⟨rfl, rfl⟩ := List.cons.inj (hbytes.symm.trans hsingle)
      have hnext := @ih (init ++ [b]) d (by simp; omega)
      rw [List.append_assoc, List.length_append] at hnext
      refine hnext.trans ?_
      rw [charBytes_cons, hsingle]
      simp
      omega
    next => rfl

theorem closeOffset?_eq (cs : List Char) :
    (closeOffset? cs).map (· + 2)
      = (splitClose? cs).map fun found => (charBytes found.1).length := by
  fun_induction closeOffset? cs with
  | case1 => rfl
  | case2 rest => rfl
  | case3 c cs hnot ih =>
    rw [splitClose?, Option.map_map, Option.map_map]
    · -- both sides count the bytes of one more character
      have hmore := congrArg (Option.map (c.utf8Size + ·)) ih
      rw [Option.map_map, Option.map_map] at hmore
      refine hmore.trans (congrArg (Option.map · _) (funext fun found => ?_))
      simp
    · exact hnot

/-! ## §4. One token. -/

/-- Whatever is not ASCII is punctuation. -/
theorem Kind.starting_of_le {c : Char} (h : 128 ≤ c.toNat) (lineStart : Bool)
    (next? : Option Char) : Kind.starting lineStart c next? = .punctuation := by
  have hblank : isBlank c = false := eq_false_of_le (fun _ => toNat_lt_of_isBlank) h
  have hstart : isWordStart c = false :=
    eq_false_of_le (fun _ hd => (toNat_of_isWordChar (isWordChar_of_isWordStart hd)).2) h
  have hdigit : c.isDigit = false :=
    eq_false_of_le (fun _ hd => (toNat_of_isWordChar (isWordChar_of_isDigit hd)).2) h
  have hmark : ∀ d : Char, d.toNat < 128 → (c == d) = false := by
    intro d hd
    rw [beq_eq_false_iff_ne]
    intro heq
    exact absurd (heq ▸ hd) (Nat.not_lt.2 h)
  simp [Kind.starting, hblank, hstart, hdigit, hmark '\n' (by decide), hmark '#' (by decide),
    hmark '/' (by decide), hmark '.' (by decide)]

/-- The two characters, if there are any, cannot be told apart by a test of the scanner. -/
def SameClass (next? other? : Option Char) : Prop :=
  ∀ p, IsAsciiClass p → next?.any p = other?.any p

theorem SameClass.beq_eq {next? other? : Option Char} (h : SameClass next? other?) {d : Char}
    (hd : d.toNat < 128) : (next? == some d) = (other? == some d) := by
  have hany : ∀ o : Option Char, (o == some d) = o.any (· == d) := by
    intro o
    cases o <;> rfl
  rw [hany, hany, h (· == d) (isAsciiClass_beq hd)]

theorem Kind.starting_congr {next? other? : Option Char} (h : SameClass next? other?)
    (lineStart : Bool) (c : Char) :
    Kind.starting lineStart c next? = Kind.starting lineStart c other? := by
  have hslash : (next? == some '/') = (other? == some '/') := h.beq_eq (by decide)
  have hstar : (next? == some '*') = (other? == some '*') := h.beq_eq (by decide)
  simp only [Kind.starting, hslash, hstar, h Char.isDigit isAsciiClass_isDigit]

namespace ByteScanner

/-- The scanner that has cut the text `before` and has the characters `cs` ahead. -/
def ahead (before : String) (cs : List Char) (lineStart : Bool) : ByteScanner :=
  ⟨before ++ String.ofList cs, before.utf8ByteSize, lineStart⟩

variable {before : String} {c : Char} {cs part rest : List Char} {lineStart : Bool}

@[simp] theorem offset_ahead : (ahead before cs lineStart).offset = before.utf8ByteSize := rfl

theorem bytes_ahead : (ahead before cs lineStart).bytes = utf8Bytes before ++ charBytes cs := by
  rw [bytes, ahead, utf8Bytes_append, utf8Bytes_ofList]

theorem peek_ahead (n : Nat) :
    (ahead before cs lineStart).peek n = (charBytes cs)[n]?.map .ofUInt8 := by
  rw [peek, bytes_ahead]
  show (_ ++ _)[(utf8Bytes before).length + n]?.map _ = _
  rw [List.getElem?_append_right (Nat.le_add_right _ _), Nat.add_sub_cancel_left]

theorem textFrom?_ahead :
    (ahead before (part ++ rest) lineStart).textFrom?
        (before.utf8ByteSize + (charBytes part).length) = some (String.ofList rest) := by
  rw [textFrom?, ahead, ← utf8ByteSize_ofList, ← String.utf8ByteSize_append,
    String.ofList_append, ← String.append_assoc]
  exact slice?_append_end _ _

/-- The byte behind an ASCII character is classed as the next character. -/
theorem peek_one (hc : c.toNat < 128) :
    SameClass ((ahead before (c :: cs) lineStart).peek 1) cs.head? := by
  obtain ⟨b, hb, -⟩ := exists_utf8EncodeChar_of_lt hc
  intro p hp
  rw [peek_ahead, charBytes_cons, hb, List.singleton_append, List.getElem?_cons_succ,
    ← List.head?_eq_getElem?]
  exact hp.head?_any cs

/-- The first byte tells the kind of the token. -/
theorem starting_peek : ∃ b, (ahead before (c :: cs) lineStart).peek 0 = some (.ofUInt8 b)
      ∧ Kind.starting lineStart (.ofUInt8 b) ((ahead before (c :: cs) lineStart).peek 1)
        = Kind.starting lineStart c cs.head? := by
  obtain ⟨b, bs, hbytes, hb⟩ := exists_first_byte c
  refine ⟨b, ?_, ?_⟩
  · rw [peek_ahead, charBytes_cons, hbytes]
    rfl
  rcases Nat.lt_or_ge c.toNat 128 with hascii | hwide
  · obtain ⟨d, hd, rfl⟩ := exists_utf8EncodeChar_of_lt hascii
    rw [hd, List.mem_singleton] at hb
    rw [hb]
    exact Kind.starting_congr (peek_one hascii) lineStart _
  · rw [Kind.starting_of_le hwide, Kind.starting_of_le (le_of_mem_utf8EncodeChar hwide hb)]

/-! Where the tokens of each kind end. -/

theorem runEnd_ahead {p : Char → Bool} (hp : IsAsciiClass p) :
    runEnd p (ahead before cs lineStart).bytes before.utf8ByteSize
      = before.utf8ByteSize + (charBytes (cs.takeWhile p)).length := by
  rw [bytes_ahead, ← hp.takeWhile_charBytes]
  exact runEnd_append p (utf8Bytes before) (charBytes cs)

/-- A token that is a run with its first character in it. -/
theorem runEnd_ahead_cons {p : Char → Bool} (hp : IsAsciiClass p) (hc : p c = true) :
    runEnd p (ahead before (c :: cs) lineStart).bytes before.utf8ByteSize
      = before.utf8ByteSize + (charBytes (c :: (splitRun p cs).1)).length := by
  rw [runEnd_ahead hp, List.takeWhile_cons_of_pos hc]
  rfl

theorem stop?_number (hc : isNumberChar c = true) :
    (ahead before (c :: cs) lineStart).stop? .number
      = some (before.utf8ByteSize
        + (charBytes (c :: (splitNumber (isHex c cs) c cs).1)).length) := by
  have hascii := toNat_lt_of_isNumberChar hc
  have hnext : SameClass ((ahead before (c :: cs) lineStart).peek 1) cs.head? := peek_one hascii
  obtain ⟨b, hb, rfl⟩ := exists_utf8EncodeChar_of_lt hascii
  have hfirst : (ahead before (Char.ofUInt8 b :: cs) lineStart).peek 0 = some (.ofUInt8 b) := by
    rw [peek_ahead, charBytes_cons, hb]
    rfl
  have hhex : isHex (.ofUInt8 b) cs = ((some (Char.ofUInt8 b) == some '0')
      && (cs.head? == some 'x' || cs.head? == some 'X')) := rfl
  rw [stop?, hfirst, hnext.beq_eq (by decide), hnext.beq_eq (by decide), ← hhex, bytes_ahead,
    charBytes_cons, charBytes_cons, hb, offset_ahead, ← length_utf8Bytes]
  show some (numberEnd _ (utf8Bytes before ++ b :: charBytes cs) _ _) = _
  rw [numberEnd_append_first hc, numberEnd_append _ cs (Nat.le_refl _)]
  simp
  omega

theorem stop?_lineComment :
    (ahead before ('/' :: '/' :: cs) lineStart).stop? .comment
      = some (before.utf8ByteSize
        + (charBytes ('/' :: (splitComment ('/' :: cs)).1)).length) := by
  have hpeek : (ahead before ('/' :: '/' :: cs) lineStart).peek 1 = some '/' := by
    rw [peek_ahead]
    rfl
  rw [stop?, commentStop?, hpeek, if_neg (by decide)]
  exact congrArg some (runEnd_ahead_cons (isAsciiClass_bne (by decide)) (by decide))

theorem stop?_blockComment :
    (ahead before ('/' :: '*' :: cs) lineStart).stop? .comment
      = some (before.utf8ByteSize
        + (charBytes ('/' :: (splitComment ('*' :: cs)).1)).length) := by
  have hpeek : (ahead before ('/' :: '*' :: cs) lineStart).peek 1 = some '*' := by
    rw [peek_ahead]
    rfl
  have hbody : (ahead before ('/' :: '*' :: cs) lineStart).textFrom? (before.utf8ByteSize + 2)
      = some (String.ofList cs) :=
    @textFrom?_ahead before ['/', '*'] cs lineStart
  have hclose := closeOffset?_eq cs
  rw [stop?, commentStop?, hpeek, if_pos (by decide), offset_ahead, hbody, Option.map_some,
    String.toList_ofList, splitComment]
  cases hfound : splitClose? cs with
  | none =>
    -- the comment reaches to the end of the text
    rw [hfound, Option.map_none, Option.map_eq_none_iff] at hclose
    rw [hclose, bytes_ahead, List.length_append, length_utf8Bytes]
  | some found =>
    rw [hfound, Option.map_some, Option.map_eq_some_iff] at hclose
    obtain ⟨mark, hmark, hlength⟩ := hclose
    have hopen : (charBytes ('/' :: '*' :: found.1)).length = (charBytes found.1).length + 2 := rfl
    rw [hmark]
    show some (before.utf8ByteSize + 2 + mark + 2)
      = some (before.utf8ByteSize + (charBytes ('/' :: '*' :: found.1)).length)
    rw [hopen, ← hlength, Nat.add_assoc _ mark 2, Nat.add_assoc, Nat.add_comm 2]

theorem stop?_punctuation :
    (ahead before (c :: cs) lineStart).stop? .punctuation
      = some (before.utf8ByteSize + (charBytes [c]).length) := by
  have hrest : (ahead before (c :: cs) lineStart).textFrom? before.utf8ByteSize
      = some (String.ofList (c :: cs)) :=
    @textFrom?_ahead before [] (c :: cs) lineStart
  rw [stop?, offset_ahead, hrest, Option.map_some, String.toList_ofList]
  simp [charBytes]

/-- **Where a token ends.**  Its bytes are those of its characters. -/
theorem stop?_ahead :
    (ahead before (c :: cs) lineStart).stop? (Kind.starting lineStart c cs.head?)
      = some (before.utf8ByteSize
        + (charBytes (c :: ((Kind.starting lineStart c cs.head?).extent c cs).1)).length) := by
  -- the cases are, in order: line break, blanks, directive, comment, identifier, number,
  -- punctuation
  fun_cases Kind.starting lineStart c cs.head? with
  | case1 hbreak =>
    obtain rfl : c = '\n' := beq_iff_eq.1 hbreak
    rfl
  | case2 _ hblank => exact congrArg some (runEnd_ahead_cons isAsciiClass_isBlank hblank)
  | case3 _ _ hhash =>
    rw [Bool.and_eq_true, beq_iff_eq] at hhash
    obtain rfl := hhash.1
    exact congrArg some (runEnd_ahead_cons (isAsciiClass_bne (by decide)) (by decide))
  | case4 _ _ _ hopens =>
    obtain ⟨rfl, body, rfl | rfl⟩ := comment_opens hopens
    · exact stop?_lineComment
    · exact stop?_blockComment
  | case5 _ _ _ _ hstart =>
    have hword := isWordChar_of_isWordStart hstart
    exact congrArg some (runEnd_ahead_cons isAsciiClass_isWordChar hword)
  | case6 _ _ _ _ _ hdigit =>
    refine stop?_number ?_
    rw [Bool.or_eq_true, Bool.and_eq_true, beq_iff_eq] at hdigit
    rcases hdigit with hdigit | ⟨rfl, -⟩
    · exact isNumberChar_of_isWordChar (isWordChar_of_isDigit hdigit)
    · decide
  | case7 => exact stop?_punctuation

/-- **One step.**  The scanner cuts off the token that the lexer reads next. -/
theorem next?_ahead :
    let kind := Kind.starting lineStart c cs.head?
    let text := String.ofList (c :: (kind.extent c cs).1)
    (ahead before (c :: cs) lineStart).next?
      = some ((⟨kind, text⟩, ⟨before.utf8ByteSize, before.utf8ByteSize + text.utf8ByteSize⟩),
        ahead (before ++ text) (kind.extent c cs).2 (kind.keepsLineStart lineStart)) := by
  intro kind text
  obtain ⟨b, hb, hkind⟩ := @starting_peek before c cs lineStart
  have hscan : (ahead before (c :: cs) lineStart).scanToken?
      = some (kind, before.utf8ByteSize + text.utf8ByteSize) := by
    rw [scanToken?, hb, Option.bind_some]
    show Option.map (fun stop => (Kind.starting lineStart _ _, stop))
      (stop? _ (Kind.starting lineStart _ _)) = _
    rw [hkind, stop?_ahead, utf8ByteSize_ofList]
    rfl
  have hsplit : before ++ String.ofList (c :: cs)
      = before ++ text ++ String.ofList (kind.extent c cs).2 := by
    rw [String.append_assoc, ← String.ofList_append, List.cons_append, kind.extent_append]
  have hslice : slice? (before ++ String.ofList (c :: cs)) before.utf8ByteSize
      (before.utf8ByteSize + text.utf8ByteSize) = some text := by
    rw [hsplit]
    exact slice?_append _ _ _
  rw [next?, hscan, Option.bind_some]
  show Option.map _ (slice? (before ++ String.ofList (c :: cs)) before.utf8ByteSize _) = _
  rw [hslice, Option.map_some, ahead, ahead, hsplit, String.utf8ByteSize_append]

/-- **A whole run.**  The scanner cuts off all tokens of the lexer. -/
theorem collect?_ahead (before : String) (cs : List Char) (lineStart : Bool) :
    (ahead before cs lineStart).collect?
      = some (Token.locateFrom before.utf8ByteSize (scan lineStart cs)) := by
  fun_induction scan lineStart cs generalizing before with
  | case1 lineStart =>
    rw [collect?, if_neg (by simp [ahead])]
    rfl
  | case2 lineStart c cs kind extent ih =>
    have hinside : (ahead before (c :: cs) lineStart).offset
        < (ahead before (c :: cs) lineStart).text.utf8ByteSize := by
      rw [offset_ahead, ahead, String.utf8ByteSize_append, utf8ByteSize_ofList, charBytes_cons,
        List.length_append, String.length_utf8EncodeChar]
      have := c.utf8Size_pos
      omega
    have hnext := @next?_ahead before c cs lineStart
    rw [collect?, if_pos hinside]
    split
    next hnone => simp [hnext] at hnone
    next found s' hsome =>
      rw [hnext] at hsome
      obtain ⟨rfl, rfl⟩ := Prod.mk.inj (Option.some.inj hsome)
      rw [ih, String.utf8ByteSize_append]
      rfl

theorem collect?_atStart (text : String) :
    (atStart text).collect? = some (Token.locate (tokenize text)) := by
  have hcollect := collect?_ahead "" text.toList true
  rwa [ahead, String.ofList_toList, String.empty_append] at hcollect

end ByteScanner

/-! ## §5. Spans. -/

/-- Tokens with spans that divide up a text: none of them is empty, each begins where the
    one before ends, and each is what the text reads between its ends. -/
structure DividesUp (text : String) (found : List (Token × Span)) : Prop where
  nonempty : ∀ x ∈ found, x.1.text ≠ ""
  starts : ∀ x, found.head? = some x → x.2.start = 0
  contiguous : found.IsChain fun x y => x.2.stop = y.2.start
  ends : ∀ x, found.getLast? = some x → x.2.stop = text.utf8ByteSize
  boundaries : ∀ x ∈ found,
    String.Pos.Raw.IsValid text ⟨x.2.start⟩ ∧ String.Pos.Raw.IsValid text ⟨x.2.stop⟩
  reads : ∀ x ∈ found, slice? text x.2.start x.2.stop = some x.1.text
  joined : Token.spell (found.map Prod.fst) = text

namespace Token

theorem map_fst_locateFrom (start : Nat) (ts : List Token) :
    (locateFrom start ts).map Prod.fst = ts := by
  induction ts generalizing start with
  | nil => rfl
  | cons t ts ih => rw [locateFrom, List.map_cons, ih]

theorem start_of_head?_locateFrom {start : Nat} {ts : List Token} {x : Token × Span}
    (h : (locateFrom start ts).head? = some x) : x.2.start = start := by
  cases ts with
  | nil => simp [locateFrom] at h
  | cons t ts =>
    obtain rfl := Option.some.inj h
    rfl

theorem isChain_locateFrom (start : Nat) (ts : List Token) :
    (locateFrom start ts).IsChain fun x y => x.2.stop = y.2.start := by
  induction ts generalizing start with
  | nil => exact .nil
  | cons t ts ih =>
    have hrest := ih (start + t.text.utf8ByteSize)
    cases ts with
    | nil => exact .singleton _
    | cons u us => exact .cons_cons rfl hrest

/-- A token stands behind the text of the tokens before it. -/
theorem exists_of_mem_locateFrom {start : Nat} {ts : List Token} {x : Token × Span}
    (h : x ∈ locateFrom start ts) :
    ∃ before after, ts = before ++ x.1 :: after
      ∧ x.2.start = start + (spell before).utf8ByteSize
      ∧ x.2.stop = x.2.start + x.1.text.utf8ByteSize := by
  induction ts generalizing start with
  | nil => simp [locateFrom] at h
  | cons t ts ih =>
    rcases List.mem_cons.1 h with rfl | hrest
    · exact ⟨[], ts, rfl, rfl, rfl⟩
    · obtain ⟨before, after, rfl, hstart, hstop⟩ := ih hrest
      refine ⟨t :: before, after, rfl, ?_, hstop⟩
      rw [hstart, spell_cons, String.utf8ByteSize_append, Nat.add_assoc]

theorem stop_of_getLast?_locateFrom {start : Nat} {ts : List Token} {x : Token × Span}
    (h : (locateFrom start ts).getLast? = some x) :
    x.2.stop = start + (spell ts).utf8ByteSize := by
  induction ts generalizing start with
  | nil => simp [locateFrom] at h
  | cons t ts ih =>
    rw [spell_cons, String.utf8ByteSize_append, ← Nat.add_assoc]
    cases ts with
    | nil =>
      obtain rfl := Option.some.inj h
      rfl
    | cons u us => exact ih (by rwa [locateFrom, locateFrom, List.getLast?_cons_cons] at h)

end Token

/-- The spans of a list of tokens without empty ones divide up what they spell. -/
theorem dividesUp_locate {ts : List Token} (h : ∀ t ∈ ts, t.text ≠ "") :
    DividesUp (Token.spell ts) (Token.locate ts) := by
  have hread : ∀ x ∈ Token.locate ts, ∃ before after : String,
      Token.spell ts = before ++ x.1.text ++ after ∧ x.2.start = before.utf8ByteSize
        ∧ x.2.stop = before.utf8ByteSize + x.1.text.utf8ByteSize := by
    intro x hx
    obtain ⟨before, after, rfl, hstart, hstop⟩ := Token.exists_of_mem_locateFrom hx
    rw [Nat.zero_add] at hstart
    refine ⟨Token.spell before, Token.spell after, ?_, hstart, hstart ▸ hstop⟩
    rw [Token.spell_append, Token.spell_cons, String.append_assoc]
  have hjoined : (Token.locate ts).map Prod.fst = ts := Token.map_fst_locateFrom 0 ts
  exact {
    nonempty := fun x hx => h x.1 (hjoined ▸ List.mem_map_of_mem hx)
    starts := fun x hx => Token.start_of_head?_locateFrom hx
    contiguous := Token.isChain_locateFrom 0 ts
    ends := fun x hx => (Token.stop_of_getLast?_locateFrom hx).trans (Nat.zero_add _)
    boundaries := by
      intro x hx
      obtain ⟨before, after, htext, hstart, hstop⟩ := hread x hx
      rw [htext, hstart, hstop, ← String.utf8ByteSize_append]
      refine ⟨?_, isValid_append _ after⟩
      rw [String.append_assoc]
      exact isValid_append before _
    reads := by
      intro x hx
      obtain ⟨before, after, htext, hstart, hstop⟩ := hread x hx
      rw [htext, hstart, hstop]
      exact slice?_append before x.1.text after
    joined := by rw [hjoined] }

theorem text_ne_empty_of_mem_tokenize {text : String} {t : Token} (ht : t ∈ tokenize text) :
    t.text ≠ "" := by
  obtain ⟨start, hshape⟩ := (cut_tokenize text).exists_wellShaped ht
  obtain ⟨c, cs, hc⟩ := hshape.exists_cons
  intro heq
  rw [heq] at hc
  exact List.cons_ne_nil c cs hc.symm

/-- **Cutting by bytes ends, loses nothing and stays between characters.**  Wherever it
    stands, the scanner only ever moves on.  From the start of a text it finds the tokens
    of the lexer, and their spans divide up the text. -/
theorem byteScanner_lossless (text : String) :
    (∀ s found s', ByteScanner.next? s = some (found, s') → s.offset < s'.offset)
      ∧ (ByteScanner.atStart text).collect? = some (Token.locate (tokenize text))
      ∧ DividesUp text (Token.locate (tokenize text)) := by
  have hcollect := ByteScanner.collect?_ahead "" text.toList true
  rw [ByteScanner.ahead, String.ofList_toList, String.empty_append] at hcollect
  have hdivides : DividesUp (Token.spell (tokenize text)) (Token.locate (tokenize text)) :=
    dividesUp_locate fun t ht => text_ne_empty_of_mem_tokenize ht
  rw [spell_tokenize] at hdivides
  exact ⟨fun s found s' h => (ByteScanner.next?_advances h).2, hcollect, hdivides⟩

/-- Positions count bytes: `é` is two of them and `€` is three. -/
theorem byteScanner_lossless_wide :
    (ByteScanner.atStart "é/*€*/1").collect?
        = some [(⟨.punctuation, "é"⟩, ⟨0, 2⟩), (⟨.comment, "/*€*/"⟩, ⟨2, 9⟩),
          (⟨.number, "1"⟩, ⟨9, 10⟩)]
      ∧ DividesUp "é/*€*/1" [(⟨.punctuation, "é"⟩, ⟨0, 2⟩), (⟨.comment, "/*€*/"⟩, ⟨2, 9⟩),
        (⟨.number, "1"⟩, ⟨9, 10⟩)] := by
  have hlocate : Token.locate (tokenize "é/*€*/1")
      = [(⟨.punctuation, "é"⟩, ⟨0, 2⟩), (⟨.comment, "/*€*/"⟩, ⟨2, 9⟩),
        (⟨.number, "1"⟩, ⟨9, 10⟩)] := by
    decide +kernel
  obtain ⟨-, hcollect, hdivides⟩ := byteScanner_lossless "é/*€*/1"
  rw [hlocate] at hcollect hdivides
  exact ⟨hcollect, hdivides⟩

end GlslMinifier
