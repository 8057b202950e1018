/-
  GlslMinifier.Proofs.Validation — what is refused, and that nothing else is.

  Two definitions say what an identifier is: a test on the characters of a name, which
  options are held to, and the lexer, which cuts one out of a text.  They agree on every
  text, also when the lexer tests bytes.  A run is refused for a preserved name that is
  none, for the first one in the list, and for nothing else.

  Main results:
    * `isIdentifier_iff_tokenize`, `isIdentifier_iff_collect?` — the two definitions agree
    * `minify_refuses_first_misspelled` — which runs are refused, and with what error
-/
import GlslMinifier.Proofs.ByteScan
import GlslMinifier.Proofs.Compaction.Tokens

namespace GlslMinifier

/-! ## §1. One identifier. -/

/-- The lexer reads all of the text as one identifier. -/
def IsOneIdentifier (name : String) : Prop := tokenize name = [⟨.identifier, name⟩]

/-- A single token is a cut of its text if it is a lexeme: nothing follows that could
    continue it. -/
theorem cut_singleton_iff {lineStart : Bool} {t : Token} :
    Cut lineStart none [t] ↔ t.WellShaped lineStart := by
  simp [Cut, Token.headChar?]

/-- What options are held to is what the lexer reads as one identifier. -/
theorem isIdentifier_iff_tokenize (name : String) :
    isIdentifier name = true ↔ IsOneIdentifier name := by
  have hspell : Token.spell [⟨.identifier, name⟩] = name := by
    rw [Token.spell_cons, Token.spell_nil, String.append_empty]
  rw [IsOneIdentifier, tokenize_eq_iff, cut_singleton_iff, and_iff_left hspell,
    isIdentifier_iff_shape true]
  rfl

/-- And it is what the byte scanner reads as one identifier, from the first byte to the
    last. -/
theorem isIdentifier_iff_collect? (name : String) :
    isIdentifier name = true ↔ (ByteScanner.atStart name).collect?
      = some [(⟨.identifier, name⟩, ⟨0, name.utf8ByteSize⟩)] := by
  rw [isIdentifier_iff_tokenize, ByteScanner.collect?_atStart, Option.some_inj]
  constructor
  · intro hone
    rw [hone]
    simp [Token.locate, Token.locateFrom]
  · intro hlocate
    -- the tokens are what is located
    have htokens := congrArg (List.map Prod.fst) hlocate
    rwa [Token.locate, Token.map_fst_locateFrom] at htokens

/-! ## §2. The first name that is none. -/

/-- `name` stands in the list, is no identifier, and all names before it are. -/
def IsFirstMisspelled (names : List String) (name : String) : Prop :=
  ∃ before after, names = before ++ name :: after ∧ (∀ n ∈ before, IsOneIdentifier n)
    ∧ ¬ IsOneIdentifier name

theorem invalidName?_eq_some_iff {options : Options} {e : InvalidName} :
    options.invalidName? = some e ↔ IsFirstMisspelled options.preserveNames e.name := by
  have hplain : ∀ name, (!isIdentifier name) = true ↔ ¬ IsOneIdentifier name := by
    intro name
    rw [← isIdentifier_iff_tokenize, Bool.not_eq_true', Bool.not_eq_true]
  have hfind : options.invalidName? = some e
      ↔ options.preserveNames.find? (!isIdentifier ·) = some e.name := by
    rw [Options.invalidName?, Option.map_eq_some_iff]
    constructor
    · rintro ⟨name, hname, rfl⟩
      exact hname
    · intro h
      exact ⟨e.name, h, rfl⟩
  rw [hfind, List.find?_eq_some_iff_append]
  constructor
  · rintro ⟨hname, before, after, hlist, hbefore⟩
    refine ⟨before, after, hlist, fun n hn => ?_, (hplain e.name).1 hname⟩
    rw [← isIdentifier_iff_tokenize]
    simpa using hbefore n hn
  · rintro ⟨before, after, hlist, hbefore, hname⟩
    refine ⟨(hplain e.name).2 hname, before, after, hlist, fun n hn => ?_⟩
    simpa using (isIdentifier_iff_tokenize n).2 (hbefore n hn)

/-- A list with a name that is no identifier has a first one. -/
theorem exists_isFirstMisspelled_iff {names : List String} :
    (∃ name, IsFirstMisspelled names name) ↔ ∃ name ∈ names, ¬ IsOneIdentifier name := by
  constructor
  · rintro ⟨name, before, after, rfl, -, hname⟩
    exact ⟨name, by simp, hname⟩
  · intro h
    induction names with
    | nil => simp at h
    | cons n names ih =>
      by_cases hn : IsOneIdentifier n
      · -- the first one is then behind `n`
        have hrest : ∃ name ∈ names, ¬ IsOneIdentifier name := by
          obtain ⟨name, hmem, hname⟩ := h
          rcases List.mem_cons.1 hmem with rfl | hmem
          · exact absurd hn hname
          · exact ⟨name, hmem, hname⟩
        obtain ⟨name, before, after, rfl, hbefore, hname⟩ := ih hrest
        exact ⟨name, n :: before, after, rfl, List.forall_mem_cons.2 ⟨hn, hbefore⟩, hname⟩
      · exact ⟨n, [], names, rfl, by simp, hn⟩

/-! ## §3. Runs. -/

/-- Checking the options comes first, and what comes after it cannot be refused. -/
theorem minify_eq_error_iff {options : Options} {plugins : List Filter} {text : String}
    {e : InvalidName} :
    minify options plugins text = .error e ↔ options.invalidName? = some e := by
  unfold minify
  cases options.invalidName? with
  | some found => simp
  | none => by_cases hrenames : options.renames = true <;> simp [hrenames]

/-- **A run is refused at the first preserved name that is no identifier, and for nothing
    else.**  An identifier is what the lexer reads as one, whether it looks at characters or
    at bytes.  Neither the text nor the plugins nor the other options have a say in it,
    also when nothing is to be renamed. -/
theorem minify_refuses_first_misspelled :
    (∀ name, (isIdentifier name = true ↔ tokenize name = [⟨.identifier, name⟩])
        ∧ (isIdentifier name = true ↔ (ByteScanner.atStart name).collect?
            = some [(⟨.identifier, name⟩, ⟨0, name.utf8ByteSize⟩)]))
      ∧ ∀ (options : Options) (plugins : List Filter) (text : String),
        ((∃ result, minify options plugins text = .ok result)
            ↔ ∀ name ∈ options.preserveNames, IsOneIdentifier name)
          ∧ ∀ e, minify options plugins text = .error e
            ↔ ∃ name, IsFirstMisspelled options.preserveNames name ∧ e = ⟨name⟩
              ∧ e.message = "invalid entry in \x60preserveNames\x60: "
                ++ ("\x60" ++ name ++ "\x60 is not a valid identifier") := by
  refine ⟨fun name => ⟨isIdentifier_iff_tokenize name, isIdentifier_iff_collect? name⟩,
    fun options plugins text => ⟨?_, fun e => ?_⟩⟩
  · constructor
    · rintro ⟨result, hresult⟩ name hmem
      by_contra hname
      -- a first one would have been refused
      obtain ⟨first, hfirst⟩ := exists_isFirstMisspelled_iff.2 ⟨name, hmem, hname⟩
      have herror : minify options plugins text = .error ⟨first⟩ :=
        minify_eq_error_iff.2 (invalidName?_eq_some_iff.2 hfirst)
      rw [hresult] at herror
      cases herror
    · intro hnames
      have hvalid : ∀ name ∈ options.preserveNames, isIdentifier name = true :=
        fun name hmem => (isIdentifier_iff_tokenize name).2 (hnames name hmem)
      cases hrenames : options.renames with
      | true => exact ⟨_, minify_of_renames plugins text hvalid hrenames⟩
      | false => exact ⟨_, minify_of_not_renames plugins text hvalid hrenames⟩
  · rw [minify_eq_error_iff, invalidName?_eq_some_iff]
    constructor
    · intro hfirst
      exact ⟨e.name, hfirst, rfl, rfl⟩
    · rintro ⟨name, hfirst, rfl, -⟩
      exact hfirst

/-- The second name is the one that is named: a sharp s is a letter, and no letter of an
    identifier. -/
example : minify ⟨some false, none, ["uTime", "ß", "1"], none⟩ [] "void main(){}"
    = .error ⟨"ß"⟩ := by decide +kernel

end GlslMinifier
