/-
  GlslMinifier.Proofs.Declaration.Body — members of structures and interface blocks.

  Accesses are never respelled, so a member must keep its spelling where it is declared.
  The search for members finds all declarators that stand directly inside the braces of a
  named body, whether or not these braces are closed, and finds nothing else.

  Main results:
    * `mem_memberNames_iff` — what the search finds in a body
    * `mem_blocks` — every named body is found
    * `members_keep_spelling` — a member stands where it stood after any renaming
-/
import GlslMinifier.Proofs.Declaration
import GlslMinifier.Proofs.Declaration.Bracket
import GlslMinifier.Proofs.Renaming.Capture

namespace GlslMinifier

/-! ## §1. Members. -/

/-- The tokens `ts` of a body declare `name` where its outermost braces, `depth` braces deep,
    are the only ones around. -/
def DeclaresMember (depth : Nat) (ts : List Token) (name : String) : Prop :=
  ∃ before t after, ts = before ++ t :: after
    ∧ ClosesOpen openBrace closeBrace depth before
    ∧ depth + bracketDepth openBrace closeBrace before = 0
    ∧ t.isIdentifier = true ∧ after.head?.any (·.endsDeclarator) = true ∧ t.text = name

/-- A declaration stands at the first token of a body or after it. -/
theorem declaresMember_cons {depth : Nat} {t : Token} {ts : List Token} {name : String} :
    DeclaresMember depth (t :: ts) name
      ↔ (depth = 0 ∧ t.isIdentifier = true ∧ ts.head?.any (·.endsDeclarator) = true
          ∧ t.text = name)
        ∨ ∃ inner : Nat, (inner : Int) = depth + bracketDepth openBrace closeBrace [t]
          ∧ DeclaresMember inner ts name := by
  constructor
  · rintro ⟨before, u, after, hsplit, hopen, hdepth, hu⟩
    cases before with
    | nil =>
      obtain ⟨rfl, rfl⟩ := List.cons_eq_cons.1 hsplit
      exact .inl ⟨by simpa using hdepth, hu⟩
    | cons v before =>
      obtain ⟨rfl, rfl⟩ := List.cons_eq_cons.1 hsplit
      obtain ⟨-, hopen⟩ := closesOpen_cons.1 hopen
      rw [bracketDepth_cons, ← Int.add_assoc] at hdepth
      -- nothing is closed that is not open, so the depth is a natural number
      have hinner : 0 ≤ (depth : Int) + bracketDepth openBrace closeBrace [t] := by
        simpa using hopen [] List.nil_prefix
      refine .inr ⟨_, Int.toNat_of_nonneg hinner, before, u, after, rfl, ?_, ?_, hu⟩
      · rwa [Int.toNat_of_nonneg hinner]
      · rwa [Int.toNat_of_nonneg hinner]
  · rintro (⟨rfl, ht⟩ | ⟨inner, hinner, before, u, after, rfl, hopen, hdepth, hu⟩)
    · exact ⟨[], t, ts, rfl, closesOpen_nil.2 (Int.le_refl 0), rfl, ht⟩
    · refine ⟨t :: before, u, after, rfl, ?_, ?_, hu⟩
      · rw [closesOpen_cons, ← hinner]
        exact ⟨Int.natCast_nonneg depth, hopen⟩
      · rw [bracketDepth_cons, ← Int.add_assoc, ← hinner]
        exact hdepth

/-- Behind a token that declares nothing, the search goes on at the depth after it. -/
theorem declaresMember_cons_of_not {depth inner : Nat} {t : Token} {ts : List Token}
    {name : String} (hinner : depth + bracketDepth openBrace closeBrace [t] = inner)
    (hnot : ¬ (depth = 0 ∧ t.isIdentifier = true ∧ ts.head?.any (·.endsDeclarator) = true
      ∧ t.text = name)) :
    DeclaresMember depth (t :: ts) name ↔ DeclaresMember inner ts name := by
  rw [declaresMember_cons, or_iff_right hnot, hinner]
  simp only [Int.natCast_inj, exists_eq_left]

/-- **What the search finds in a body** are the names declared directly inside it. -/
theorem mem_memberNames_iff {depth : Nat} {ts : List Token} {name : String} :
    name ∈ memberNames depth ts ↔ DeclaresMember depth ts name := by
  have hne : openBrace ≠ closeBrace := by decide
  fun_induction memberNames depth ts with
  | case1 depth => simp [DeclaresMember]
  | case2 depth t ts hopen ih =>
    -- one brace deeper
    refine ih.trans (declaresMember_cons_of_not ?_ ?_).symm
    · rw [bracketDepth_opening hne hopen, Int.natCast_succ]
    · simp [Token.isIdentifier_eq_false hopen]
  | case3 t ts hopen hclose =>
    -- the body ends
    rw [declaresMember_cons, bracketDepth_closing hne hclose, Token.isIdentifier_eq_false hclose]
    simp only [List.not_mem_nil, Bool.false_eq_true, false_and, and_false, false_or, false_iff]
    rintro ⟨inner, hinner, -⟩
    omega
  | case4 t ts hopen hclose outer ih =>
    -- one brace less
    refine ih.trans (declaresMember_cons_of_not ?_ ?_).symm
    · rw [bracketDepth_closing hne hclose]
      omega
    · simp [Token.isIdentifier_eq_false hclose]
  | case5 depth t ts hopen hclose hfound ih =>
    -- a declared name, at the depth of the body
    obtain ⟨⟨rfl, hword⟩, hends⟩ : (depth = 0 ∧ t.isIdentifier = true)
        ∧ ts.head?.any (·.endsDeclarator) = true := by
      simpa only [Bool.and_eq_true, beq_iff_eq] using hfound
    have hdepth : bracketDepth openBrace closeBrace [t] = 0 :=
      bracketDepth_other (by simpa using hopen) (by simpa using hclose)
    rw [List.mem_cons, declaresMember_cons, hdepth]
    refine (or_congr_right ih).trans ?_
    simp only [hword, hends, true_and, Int.natCast_zero, Int.add_zero, Int.natCast_eq_zero,
      exists_eq_left, eq_comm]
  | case6 depth t ts hopen hclose hfound ih =>
    refine ih.trans (declaresMember_cons_of_not ?_ ?_).symm
    · rw [bracketDepth_other (by simpa using hopen) (by simpa using hclose), Int.add_zero]
    · rintro ⟨rfl, hword, hends, -⟩
      simp [hword, hends] at hfound

/-! ## §2. Blocks. -/

/-- A block that is found further on is found. -/
theorem mem_blocks_of_mem_tail {t : Token} {ts : List Token} {b : Block} (h : b ∈ blocks ts) :
    b ∈ blocks (t :: ts) := by
  match ts with
  | [] | [_] => exact absurd h List.not_mem_nil
  | name :: brace :: rest =>
    rw [blocks]
    split
    · exact List.mem_cons_of_mem _ h
    · exact h

/-- Every named body is found, wherever it begins. -/
theorem mem_blocks {before rest : List Token} {keyword name brace : Token}
    (hkeyword : keyword.opensBlock = true) (hname : name.isIdentifier = true)
    (hbrace : brace.isPunctuation openBrace = true) :
    ⟨keyword.text, name.text, memberNames 0 rest⟩
      ∈ blocks (before ++ keyword :: name :: brace :: rest) := by
  induction before with
  | nil =>
    rw [List.nil_append, blocks, if_pos (by simp [hkeyword, hname, hbrace])]
    exact List.mem_cons_self
  | cons t before ih => exact mem_blocks_of_mem_tail ih

/-- The word opens the body of a structure or of an interface block. -/
def Token.IsBlockWord (t : Token) : Prop :=
  t.isIdentifier = true ∧ t.text ∈ ["struct", "uniform", "buffer", "in", "out"]

instance (t : Token) : Decidable t.IsBlockWord := inferInstanceAs (Decidable (_ ∧ _))

theorem Token.IsBlockWord.opensBlock {t : Token} (h : t.IsBlockWord) : t.opensBlock = true := by
  have hword : t.text = "struct" ∨ t.text ∈ blockQualifiers := List.mem_cons.1 h.2
  unfold Token.opensBlock
  rw [h.1, Bool.true_and, Bool.or_eq_true, beq_iff_eq, List.contains_iff_mem]
  exact hword

/-- Members are protected. -/
theorem contains_of_mem_members {ts : List Token} {b : Block}
    (hb : b ∈ blocks (Token.significant ts)) {name : String} (hname : name ∈ b.members) :
    (ProtectedNames.ofTokens ts).contains name = true := by
  have hmem : name ∈ (blocks (Token.significant ts)).flatMap (·.members) :=
    List.mem_flatMap.2 ⟨b, hb, hname⟩
  refine ProtectedNames.contains_of_mem ?_ name hmem
  simp [ProtectedNames.sets, ProtectedNames.ofTokens]

/-! ## §3. Members in a renamed text. -/

/-- Among the tokens `ts`, the identifier `x` stands directly inside braces that open behind
    the tokens `opener`, and `;`, `,` or `[` comes next. -/
def DeclaresInBraces (ts opener : List Token) (x : Token) : Prop :=
  ∃ before brace body after, ts = before ++ opener ++ brace :: (body ++ x :: after)
    ∧ brace.isPunctuation openBrace = true ∧ Balanced openBrace closeBrace body
    ∧ x.isIdentifier = true ∧ after.head?.any (·.endsDeclarator) = true

/-- **A member keeps its spelling**, where it is declared and everywhere else, if the body
    that declares it has a name. -/
theorem members_keep_spelling (filter : Filter) (text : String) {keyword name x : Token}
    (hkeyword : keyword.IsBlockWord) (hname : name.isIdentifier = true)
    (hx : DeclaresInBraces (Token.significant (tokenize text)) [keyword, name] x) :
    (Survey.ofText text).protectedNames.contains x.text = true
      ∧ ∀ i, spellingAt (tokenize (renameIdentifiers filter text).content) i = some x.text
        ↔ spellingAt (tokenize text) i = some x.text := by
  obtain ⟨before, brace, body, after, hsplit, hbrace, hinside, hword, hends⟩ := hx
  have hblock : ⟨keyword.text, name.text, memberNames 0 (body ++ x :: after)⟩
      ∈ blocks (before ++ keyword :: name :: brace :: (body ++ x :: after)) :=
    mem_blocks hkeyword.opensBlock hname hbrace
  have hmember : x.text ∈ memberNames 0 (body ++ x :: after) :=
    mem_memberNames_iff.2 ⟨body, x, after, rfl, hinside.closes_open, by simp [hinside.closed],
      hword, hends, rfl⟩
  rw [List.append_assoc, List.cons_append, List.cons_append, List.nil_append] at hsplit
  rw [← hsplit] at hblock
  have hprotected := contains_of_mem_members hblock hmember
  exact ⟨hprotected, spellingAt_content_eq_protected_iff hprotected⟩

/-- A body without an end, with a structure inside it: `v` is a member of the outer one. -/
theorem members_keep_spelling_nested :
    let text := "struct S \x7b struct T \x7b int u; \x7d; int v, w = x.v"
    (Token.word "struct").IsBlockWord
      ∧ DeclaresInBraces (Token.significant (tokenize text)) [.word "struct", .word "S"] (.word "v")
      ∧ (Survey.ofText text).protectedNames.contains "v" = true
      ∧ ∀ i, spellingAt (tokenize (renameIdentifiers (Filter.anyOf []) text).content) i
          = some "v" ↔ spellingAt (tokenize text) i = some "v" := by
  intro text
  have hword : (Token.word "struct").IsBlockWord := by decide
  have hmember : DeclaresInBraces (Token.significant (tokenize text))
      [.word "struct", .word "S"] (.word "v") := by
    refine ⟨[], .mark openBrace, [.word "struct", .word "T", .mark openBrace, .word "int",
      .word "u", .mark ";", .mark closeBrace, .mark ";", .word "int"],
      [.mark ",", .word "w", .mark "=", .word "x", .mark ".", .word "v"], ?_⟩
    decide +kernel
  have hkept := members_keep_spelling (Filter.anyOf []) text hword (by decide) hmember
  exact ⟨hword, hmember, hkept⟩

/-- A member of a structure without a name is respelled, and its accesses are not. -/
theorem nameless_member_renamed :
    let text := "struct { float val; } s; float x = s.val;"
    DeclaresInBraces (Token.significant (tokenize text)) [.word "struct"] (.word "val")
      ∧ (Survey.ofText text).protectedNames.contains "val" = false
      ∧ (renameIdentifiers (Filter.anyOf []) text).content
        = "struct { float b; } a; float c = a.val;" := by
  refine ⟨⟨[], .mark openBrace, [.word "float"], [.mark ";", .mark closeBrace, .word "s",
    .mark ";", .word "float", .word "x", .mark "=", .word "s", .mark ".", .word "val",
    .mark ";"], ?_⟩, ?_⟩
  · decide +kernel
  · decide +kernel

end GlslMinifier
