/-
  GlslMinifier.Proofs.Declaration.Host — globals that the host program binds by name.

  A storage qualifier outside all brackets begins a statement, and the names that this
  statement declares outside all brackets have to keep their spelling.  The search keeps
  one flag for "a qualifier stands before", which the end of the statement takes back, and
  any brace as well.  So a declarator is found up to the first brace of its statement, and
  one behind the body of an unnamed block or behind an initialiser in braces is not.

  Main results:
    * `isGlobal_after_iff`, `declaring_after_iff` — what the state of the search means
    * `mem_interfaceNames_top_iff` — what the search finds in a balanced text
    * `hostDeclarator_keeps_name` — such a name is protected and has no alias
-/
import GlslMinifier.Proofs.Declaration
import GlslMinifier.Proofs.Declaration.Bracket
import GlslMinifier.Proofs.Renaming.Table

namespace GlslMinifier

/-! ## §1. Statements with a storage qualifier. -/

/-- What comes after these tokens stands outside all braces and parentheses. -/
def IsGlobal (before : List Token) : Prop :=
  bracketDepth openBrace closeBrace before = 0 ∧ bracketDepth "(" ")" before = 0

instance (before : List Token) : Decidable (IsGlobal before) :=
  inferInstanceAs (Decidable (_ ∧ _))

def Token.isBrace (t : Token) : Bool :=
  t.isPunctuation openBrace || t.isPunctuation closeBrace

/-- The storage qualifier `q`, outside all brackets, begins a statement that goes on with
    `middle`: no semicolon outside all brackets has ended it yet. -/
structure HostStatement (before : List Token) (q : Token) (middle : List Token) : Prop where
  is_word : q.isIdentifier = true
  is_qualifier : q.text ∈ interfaceQualifiers
  is_global : IsGlobal before
  not_ended : ∀ i < middle.length, middle[i]?.any (·.isPunctuation ";") = true →
    ¬ IsGlobal (before ++ q :: middle.take i)

/-- The statement declares the name `x`, outside all brackets, with `after` behind it. -/
structure HostDeclarator (before : List Token) (q : Token) (middle : List Token) (x : Token)
    (after : List Token) : Prop extends HostStatement before q middle where
  is_name : x.isIdentifier = true
  name_global : IsGlobal (before ++ q :: middle)
  ends : after.head?.any (fun t => t.endsDeclarator || t.isPunctuation "=") = true

instance (before : List Token) (q : Token) (middle : List Token) :
    Decidable (HostStatement before q middle) :=
  decidable_of_iff (q.isIdentifier = true ∧ q.text ∈ interfaceQualifiers ∧ IsGlobal before
      ∧ ∀ i < middle.length, middle[i]?.any (·.isPunctuation ";") = true →
        ¬ IsGlobal (before ++ q :: middle.take i))
    ⟨fun h => ⟨h.1, h.2.1, h.2.2.1, h.2.2.2⟩,
      fun h => ⟨h.is_word, h.is_qualifier, h.is_global, h.not_ended⟩⟩

instance (before : List Token) (q : Token) (middle : List Token) (x : Token)
    (after : List Token) : Decidable (HostDeclarator before q middle x after) :=
  decidable_of_iff (HostStatement before q middle ∧ x.isIdentifier = true
      ∧ IsGlobal (before ++ q :: middle)
      ∧ after.head?.any (fun t => t.endsDeclarator || t.isPunctuation "=") = true)
    ⟨fun h => ⟨h.1, h.2.1, h.2.2.1, h.2.2.2⟩,
      fun h => ⟨h.toHostStatement, h.is_name, h.name_global, h.ends⟩⟩

/-- One more token goes on with a statement unless the statement has ended before it. -/
theorem hostStatement_concat_iff {before middle : List Token} {q t : Token} :
    HostStatement before q (middle ++ [t])
      ↔ HostStatement before q middle
        ∧ (t.isPunctuation ";" = true → ¬ IsGlobal (before ++ q :: middle)) := by
  constructor
  · intro h
    refine ⟨⟨h.is_word, h.is_qualifier, h.is_global, fun i hi hmark => ?_⟩, fun hmark => ?_⟩
    · have hended := h.not_ended i (by simp; omega)
      rw [List.getElem?_append_left hi, List.take_append_of_le_length (Nat.le_of_lt hi)] at hended
      exact hended hmark
    · have hended := h.not_ended middle.length (by simp)
      rw [List.getElem?_concat_length, List.take_left] at hended
      exact hended hmark
  · rintro ⟨h, hlast⟩
    refine ⟨h.is_word, h.is_qualifier, h.is_global, fun i hi hmark => ?_⟩
    rw [List.length_append, List.length_singleton] at hi
    rcases Nat.lt_succ_iff_lt_or_eq.1 hi with hi | rfl
    · rw [List.getElem?_append_left hi] at hmark
      rw [List.take_append_of_le_length (Nat.le_of_lt hi)]
      exact h.not_ended i hi hmark
    · rw [List.getElem?_concat_length] at hmark
      rw [List.take_left]
      exact hlast hmark

/-! ## §2. One step of the search. -/

namespace Scope

variable {s : Scope} {t : Token}

/-- Braces are counted, as long as none is closed that is not open. -/
theorem step_braces (h : 0 ≤ (s.braces : Int) + bracketDepth openBrace closeBrace [t]) :
    ((s.step t).braces : Int) = s.braces + bracketDepth openBrace closeBrace [t] := by
  refine count_eq_add_bracketDepth (by decide) ?_ ?_ ?_ h
  · intro hopen
    unfold step
    rw [if_pos hopen]
  · intro hclose
    have hopen := Token.isPunctuation_eq_false hclose (b := openBrace) (by decide)
    unfold step
    rw [if_neg (by simp [hopen]), if_pos hclose]
  · intro hopen hclose
    unfold step
    rw [if_neg (by simp [hopen]), if_neg (by simp [hclose])]
    split_ifs <;> rfl

/-- A brace changes nothing but the count of braces and the flag. -/
theorem step_brace (h : t.isBrace = true) :
    (s.step t).parens = s.parens ∧ (s.step t).declaring = false := by
  unfold step
  rcases Bool.or_eq_true _ _ ▸ h with hopen | hclose
  · rw [if_pos hopen]
    exact ⟨rfl, rfl⟩
  · have hnot : t.isPunctuation openBrace = false :=
      Token.isPunctuation_eq_false hclose (by decide)
    rw [if_neg (by simp [hnot]), if_pos hclose]
    exact ⟨rfl, rfl⟩

/-- A parenthesis is no brace. -/
theorem brace_eq_false_of_paren {text : String} (h : t.isPunctuation text = true)
    (htext : text ∈ ["(", ")"]) :
    t.isPunctuation openBrace = false ∧ t.isPunctuation closeBrace = false := by
  have hne : text ≠ openBrace ∧ text ≠ closeBrace := by
    constructor <;> rintro rfl <;> exact absurd htext (by decide)
  exact ⟨Token.isPunctuation_eq_false h hne.1, Token.isPunctuation_eq_false h hne.2⟩

/-- Parentheses are counted like braces. -/
theorem step_parens (h : 0 ≤ (s.parens : Int) + bracketDepth "(" ")" [t]) :
    ((s.step t).parens : Int) = s.parens + bracketDepth "(" ")" [t] := by
  refine count_eq_add_bracketDepth (by decide) ?_ ?_ ?_ h
  · intro hopen
    obtain ⟨hopenBrace, hcloseBrace⟩ := brace_eq_false_of_paren hopen (by simp)
    unfold step
    rw [if_neg (by simp [hopenBrace]), if_neg (by simp [hcloseBrace]), if_pos hopen]
  · intro hclose
    obtain ⟨hopenBrace, hcloseBrace⟩ := brace_eq_false_of_paren hclose (by simp)
    have hopen := Token.isPunctuation_eq_false hclose (b := "(") (by decide)
    unfold step
    rw [if_neg (by simp [hopenBrace]), if_neg (by simp [hcloseBrace]), if_neg (by simp [hopen]),
      if_pos hclose]
  · -- a brace leaves the count alone, like any other token
    intro hopen hclose
    by_cases hbrace : t.isBrace = true
    · exact (step_brace hbrace).1
    · obtain ⟨hopenBrace, hcloseBrace⟩ : ¬ t.isPunctuation openBrace = true
          ∧ ¬ t.isPunctuation closeBrace = true := by
        simpa [Token.isBrace] using hbrace
      unfold step
      rw [if_neg hopenBrace, if_neg hcloseBrace, if_neg (by simp [hopen]),
        if_neg (by simp [hclose])]
      split_ifs <;> rfl

theorem isQualifier_eq_false {text : String} (h : t.isPunctuation text = true) :
    s.isQualifier t = false := by
  rw [isQualifier, Token.isIdentifier_eq_false h, Bool.and_false, Bool.false_and]

/-- After a token the flag is up if the token is a qualifier, or if it was up and neither a
    brace nor the end of the statement takes it back. -/
theorem step_declaring_iff :
    (s.step t).declaring = true
      ↔ t.isBrace = false ∧ ¬ (t.isPunctuation ";" = true ∧ s.isGlobal = true)
        ∧ (s.isQualifier t = true ∨ s.declaring = true) := by
  by_cases hbrace : t.isBrace = true
  · simp [(step_brace hbrace).2, hbrace]
  obtain ⟨hopenBrace, hcloseBrace⟩ : ¬ t.isPunctuation openBrace = true
      ∧ ¬ t.isPunctuation closeBrace = true := by
    simpa [Token.isBrace] using hbrace
  rw [Bool.not_eq_true] at hbrace
  unfold step
  rw [if_neg hopenBrace, if_neg hcloseBrace]
  split_ifs with hopen hclose hend hqualifier
  · -- a parenthesis is no semicolon and no qualifier
    simp [hbrace, isQualifier_eq_false hopen, Token.isPunctuation_eq_false hopen]
  · simp [hbrace, isQualifier_eq_false hclose, Token.isPunctuation_eq_false hclose]
  · simp_all
  · simp_all
  · simp_all

end Scope

/-! ## §3. A run of the search. -/

/-- The state of the search after some tokens. -/
def Scope.after (ts : List Token) : Scope := ts.foldl Scope.step .top

theorem Scope.after_concat (ts : List Token) (t : Token) :
    Scope.after (ts ++ [t]) = (Scope.after ts).step t := by
  rw [after, List.foldl_append]
  rfl

section

variable {ts : List Token} (hbraces : ClosesOpen openBrace closeBrace 0 ts)
  (hparens : ClosesOpen "(" ")" 0 ts)

include hbraces in
theorem braces_after : ((Scope.after ts).braces : Int) = bracketDepth openBrace closeBrace ts := by
  induction ts using List.reverseRecOn with
  | nil => rfl
  | append_singleton ts t ih =>
    have hcount := ih (hbraces.of_prefix (List.prefix_append ts [t]))
    have hopen := hbraces _ (List.prefix_refl _)
    rw [Int.zero_add, bracketDepth_append, ← hcount] at hopen
    rw [Scope.after_concat, Scope.step_braces hopen, hcount, bracketDepth_append]

include hparens in
theorem parens_after : ((Scope.after ts).parens : Int) = bracketDepth "(" ")" ts := by
  induction ts using List.reverseRecOn with
  | nil => rfl
  | append_singleton ts t ih =>
    have hcount := ih (hparens.of_prefix (List.prefix_append ts [t]))
    have hopen := hparens _ (List.prefix_refl _)
    rw [Int.zero_add, bracketDepth_append, ← hcount] at hopen
    rw [Scope.after_concat, Scope.step_parens hopen, hcount, bracketDepth_append]

include hbraces hparens

/-- The search knows when it stands outside all brackets. -/
theorem isGlobal_after_iff : (Scope.after ts).isGlobal = true ↔ IsGlobal ts := by
  unfold IsGlobal
  rw [← braces_after hbraces, ← parens_after hparens, Scope.isGlobal, Bool.and_eq_true,
    beq_iff_eq, beq_iff_eq]
  omega

/-- **What the flag means**: a qualifier began the statement, and no brace has come since. -/
theorem declaring_after_iff :
    (Scope.after ts).declaring = true
      ↔ ∃ before q middle, ts = before ++ q :: middle ∧ HostStatement before q middle
        ∧ ∀ t ∈ middle, t.isBrace = false := by
  induction ts using List.reverseRecOn with
  | nil => simp [Scope.after, Scope.top]
  | append_singleton ts t ih =>
    have hbraces' := hbraces.of_prefix (List.prefix_append ts [t])
    have hparens' := hparens.of_prefix (List.prefix_append ts [t])
    have hglobal := isGlobal_after_iff hbraces' hparens'
    rw [Scope.after_concat, Scope.step_declaring_iff, ih hbraces' hparens', Scope.isQualifier,
      Bool.and_eq_true, Bool.and_eq_true, List.contains_iff_mem, hglobal]
    constructor
    · rintro ⟨hbrace, hend, ⟨⟨hat, hword⟩, hqualifier⟩ | ⟨before, q, middle, rfl, h, hno⟩⟩
      · -- the token begins a statement
        exact ⟨ts, t, [], rfl, ⟨hword, hqualifier, hat, by simp⟩, by simp⟩
      · -- the token goes on with the statement
        refine ⟨before, q, middle ++ [t], by simp, hostStatement_concat_iff.2 ⟨h, ?_⟩, ?_⟩
        · exact fun hmark hat => hend ⟨hmark, hat⟩
        · simpa [or_imp, forall_and] using ⟨hno, hbrace⟩
    · rintro ⟨before, q, middle, hsplit, h, hno⟩
      cases middle using List.reverseRecOn with
      | nil =>
        obtain ⟨rfl, hq⟩ := List.append_inj' hsplit rfl
        obtain rfl : t = q := by simpa using hq
        have hmark := Token.isPunctuation_of_isIdentifier h.is_word
        refine ⟨by simp [Token.isBrace, hmark], by simp [hmark], .inl ⟨⟨?_, ?_⟩, ?_⟩⟩
        · exact h.is_global
        · exact h.is_word
        · exact h.is_qualifier
      | append_singleton middle u _ =>
        rw [← List.cons_append, ← List.append_assoc] at hsplit
        obtain ⟨rfl, hu⟩ := List.append_inj' hsplit rfl
        obtain rfl : t = u := by simpa using hu
        obtain ⟨h, hend⟩ := hostStatement_concat_iff.1 h
        refine ⟨hno t (by simp), fun hmark => hend hmark.1 hmark.2, .inr ?_⟩
        exact ⟨before, q, middle, rfl, h, fun v hv => hno v (by simp [hv])⟩

end

/-! ## §4. What the search finds. -/

/-- The search looks at each token in the state that the tokens before it lead to. -/
theorem mem_interfaceNames_iff {s : Scope} {ts : List Token} {name : String} :
    name ∈ interfaceNames s ts
      ↔ ∃ before t after, ts = before ++ t :: after
        ∧ (before.foldl Scope.step s).declares t after.head? = true ∧ t.text = name := by
  induction ts generalizing s with
  | nil => simp [interfaceNames]
  | cons t ts ih =>
    have hmem : name ∈ interfaceNames s (t :: ts)
        ↔ (s.declares t ts.head? = true ∧ t.text = name) ∨ name ∈ interfaceNames (s.step t) ts := by
      rw [interfaceNames]
      by_cases hdeclares : s.declares t ts.head? = true
      · simp [hdeclares, eq_comm]
      · simp [hdeclares]
    rw [hmem, ih]
    constructor
    · rintro (h | ⟨before, u, after, rfl, h⟩)
      · exact ⟨[], t, ts, rfl, h⟩
      · exact ⟨t :: before, u, after, rfl, h⟩
    · rintro ⟨before, u, after, hsplit, h⟩
      cases before with
      | nil =>
        obtain ⟨rfl, rfl⟩ := List.cons_eq_cons.1 hsplit
        exact .inl h
      | cons v before =>
        obtain ⟨rfl, rfl⟩ := List.cons_eq_cons.1 hsplit
        exact .inr ⟨before, u, after, rfl, h⟩

/-- **What the search declares**: a declarator of a statement with a storage qualifier, if no
    brace has come in the statement. -/
theorem declares_after_iff {first after : List Token} {x : Token}
    (hbraces : ClosesOpen openBrace closeBrace 0 first) (hparens : ClosesOpen "(" ")" 0 first) :
    (Scope.after first).declares x after.head? = true
      ↔ ∃ before q middle, first = before ++ q :: middle
        ∧ HostDeclarator before q middle x after ∧ (∀ t ∈ middle, t.isBrace = false)
        ∧ x.text ∉ interfaceQualifiers := by
  have hglobal := isGlobal_after_iff hbraces hparens
  have hdeclaring := declaring_after_iff hbraces hparens
  constructor
  · intro hdeclares
    simp only [Scope.declares, Scope.isQualifier, Bool.and_eq_true, Bool.not_eq_true',
      hglobal, hdeclaring] at hdeclares
    obtain ⟨⟨⟨⟨hat, before, q, middle, rfl, h, hno⟩, hword⟩, hnot⟩, hends⟩ := hdeclares
    refine ⟨before, q, middle, rfl, ⟨h, hword, hat, hends⟩, hno, ?_⟩
    simpa [hglobal.2 hat, hword] using hnot
  · rintro ⟨before, q, middle, rfl, h, hno, hnot⟩
    have hflag := hdeclaring.2 ⟨before, q, middle, rfl, h.toHostStatement, hno⟩
    simp [Scope.declares, Scope.isQualifier, hglobal.2 h.name_global, hflag, h.is_name, hnot,
      h.ends]

/-- **What the search finds**, if no bracket is closed that is not open: the declarators of
    statements with a storage qualifier, up to the first brace of the statement. -/
theorem mem_interfaceNames_top_iff {ts : List Token}
    (hbraces : ClosesOpen openBrace closeBrace 0 ts) (hparens : ClosesOpen "(" ")" 0 ts)
    {name : String} :
    name ∈ interfaceNames .top ts
      ↔ ∃ before q middle x after, ts = before ++ q :: (middle ++ x :: after)
        ∧ HostDeclarator before q middle x after ∧ (∀ t ∈ middle, t.isBrace = false)
        ∧ x.text ∉ interfaceQualifiers ∧ x.text = name := by
  rw [mem_interfaceNames_iff]
  constructor
  · rintro ⟨first, x, after, rfl, hdeclares, rfl⟩
    have hpart := List.prefix_append first (x :: after)
    obtain ⟨before, q, middle, rfl, h, hno, hnot⟩ :=
      (declares_after_iff (hbraces.of_prefix hpart) (hparens.of_prefix hpart)).1 hdeclares
    exact ⟨before, q, middle, x, after, by simp, h, hno, hnot, rfl⟩
  · rintro ⟨before, q, middle, x, after, rfl, h, hno, hnot, rfl⟩
    have hpart : before ++ q :: middle <+: before ++ q :: (middle ++ x :: after) :=
      ⟨x :: after, by simp⟩
    refine ⟨before ++ q :: middle, x, after, by simp, ?_, rfl⟩
    exact (declares_after_iff (hbraces.of_prefix hpart) (hparens.of_prefix hpart)).2
      ⟨before, q, middle, rfl, h, hno, hnot⟩

/-! ## §5. Names bound by the host. -/

theorem isKeyword_of_mem_interfaceQualifiers :
    ∀ w ∈ interfaceQualifiers, isKeyword w = true := by decide

/-- **A name that the host binds keeps its spelling**: in a text whose braces and parentheses
    balance, what a statement with a storage qualifier declares before its first brace is
    protected and gets no alias. -/
theorem hostDeclarator_keeps_name (filter : Filter) (text : String)
    (hbraces : Balanced openBrace closeBrace (Token.significant (tokenize text)))
    (hparens : Balanced "(" ")" (Token.significant (tokenize text)))
    {before middle after : List Token} {q x : Token}
    (hsplit : Token.significant (tokenize text) = before ++ q :: (middle ++ x :: after))
    (h : HostDeclarator before q middle x after) (hno : ∀ t ∈ middle, t.isBrace = false) :
    (Survey.ofText text).protectedNames.contains x.text = true
      ∧ (renameIdentifiers filter text).table.aliases[x.text]? = none := by
  have hprotected : (Survey.ofText text).protectedNames.contains x.text = true := by
    by_cases hqualifier : x.text ∈ interfaceQualifiers
    · exact ProtectedNames.contains_of_isKeyword
        (isKeyword_of_mem_interfaceQualifiers _ hqualifier)
    · have hfound : x.text ∈ interfaceNames .top (Token.significant (tokenize text)) :=
        (mem_interfaceNames_top_iff hbraces.closes_open hparens.closes_open).2
          ⟨before, q, middle, x, after, hsplit, h, hno, hqualifier, rfl⟩
      refine ProtectedNames.contains_of_mem ?_ _ (List.mem_append_right
        (((blocks (Token.significant (tokenize text))).filter (!·.isStruct)).map (·.name)) hfound)
      simp [Survey.ofText, Survey.ofTokens, ProtectedNames.sets, ProtectedNames.ofTokens]
  exact ⟨hprotected, no_alias_of_contains hprotected⟩

/-- Behind a layout list, an array and an initialiser with a comma in it, `gain` is found. -/
theorem hostDeclarator_keeps_name_listed :
    let text := "layout(binding = 0) uniform int w[2] = f(1, 2), gain; int g(in int p) { }"
    let before : List Token := [.word "layout", .mark "(", .word "binding", .mark "=",
      ⟨.number, "0"⟩, .mark ")"]
    let middle : List Token := [.word "int", .word "w", .mark "[", ⟨.number, "2"⟩, .mark "]",
      .mark "=", .word "f", .mark "(", ⟨.number, "1"⟩, .mark ",", ⟨.number, "2"⟩, .mark ")",
      .mark ","]
    let after : List Token := [.mark ";", .word "int", .word "g", .mark "(", .word "in",
      .word "int", .word "p", .mark ")", .mark openBrace, .mark closeBrace]
    Balanced openBrace closeBrace (Token.significant (tokenize text))
      ∧ Balanced "(" ")" (Token.significant (tokenize text))
      ∧ Token.significant (tokenize text)
        = before ++ .word "uniform" :: (middle ++ .word "gain" :: after)
      ∧ HostDeclarator before (.word "uniform") middle (.word "gain") after
      ∧ (∀ t ∈ middle, t.isBrace = false)
      ∧ (Survey.ofText text).protectedNames.contains "gain" = true
      ∧ (renameIdentifiers (Filter.anyOf []) text).table.aliases["gain"]? = none := by
  intro text before middle after
  have htokens : Token.significant (tokenize text)
      = before ++ .word "uniform" :: (middle ++ .word "gain" :: after) := by
    decide +kernel
  have hbraces : Balanced openBrace closeBrace (Token.significant (tokenize text)) := by
    rw [htokens]
    decide +kernel
  have hparens : Balanced "(" ")" (Token.significant (tokenize text)) := by
    rw [htokens]
    decide +kernel
  have hdeclarator : HostDeclarator before (.word "uniform") middle (.word "gain") after := by
    decide +kernel
  have hbrace : ∀ t ∈ middle, t.isBrace = false := by decide +kernel
  have hkept := hostDeclarator_keeps_name (Filter.anyOf []) text hbraces hparens htokens
    hdeclarator hbrace
  exact ⟨hbraces, hparens, htokens, hdeclarator, hbrace, hkept⟩

/-- Behind the body of a structure, what the statement declares is respelled. -/
theorem hostDeclarator_behind_body_renamed :
    let text := "uniform struct L { vec3 d; } lamp;"
    let middle : List Token := [.word "struct", .word "L", .mark openBrace, .word "vec3",
      .word "d", .mark ";", .mark closeBrace]
    Balanced openBrace closeBrace (Token.significant (tokenize text))
      ∧ Balanced "(" ")" (Token.significant (tokenize text))
      ∧ Token.significant (tokenize text)
        = [] ++ .word "uniform" :: (middle ++ .word "lamp" :: [.mark ";"])
      ∧ HostDeclarator [] (.word "uniform") middle (.word "lamp") [.mark ";"]
      ∧ middle[1]?.any (·.isPunctuation openBrace) = false
      ∧ (Survey.ofText text).protectedNames.contains "lamp" = false
      ∧ (renameIdentifiers (Filter.anyOf []) text).content
        = "uniform struct L { vec3 d; } a;" := by
  intro text middle
  have htokens : Token.significant (tokenize text)
      = [] ++ .word "uniform" :: (middle ++ .word "lamp" :: [.mark ";"]) := by
    decide +kernel
  refine ⟨?_, ?_, htokens, ?_⟩
  · rw [htokens]
    decide +kernel
  · rw [htokens]
    decide +kernel
  · decide +kernel

end GlslMinifier
