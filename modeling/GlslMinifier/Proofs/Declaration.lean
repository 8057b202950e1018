/-
  GlslMinifier.Proofs.Declaration — what respelling does to declarations.

  The searches for declared names look at kinds, at punctuation and at some words of the
  language.  Respelling names outside a set that holds these words and all declared names
  changes none of this, so every search finds the names that it found before.

  Main results:
    * `blocks_respelled`, `functionNames_respelled`, … — one for each search
    * `protectedNames_respelled` — the protected names of a text stay the same
-/
import GlslMinifier.Proofs.Respelling
import GlslMinifier.Survey

namespace GlslMinifier

/-! ## §1. Tokens. -/

/-- `u` may stand for `t` where the names in `kept` are left alone: it is the same token, or
    both spell names outside `kept`. -/
def Token.RespellsOutside (kept : String → Bool) (t u : Token) : Prop :=
  t.Respells u ∧ (u = t ∨ kept t.text = false ∧ kept u.text = false)

/-- Words that the searches look for. -/
def declarationWords : List String :=
  ["struct", "layout"] ++ blockQualifiers ++ interfaceQualifiers

section

variable {kept : String → Bool}

namespace Token.RespellsOutside

variable {t u : Token} (h : t.RespellsOutside kept u)
include h

theorem eq_of_kept (hkept : kept t.text = true) : u = t := by
  refine h.2.resolve_right fun hfree => ?_
  rw [hkept] at hfree
  exact absurd hfree.1 (by decide)

theorem isIdentifier_eq : u.isIdentifier = t.isIdentifier := by
  unfold Token.isIdentifier
  rw [h.1.kind_eq]

theorem isPunctuation_eq (text : String) : u.isPunctuation text = t.isPunctuation text :=
  h.1.isPunctuation_eq text

theorem endsDeclarator_eq : u.endsDeclarator = t.endsDeclarator := by
  unfold Token.endsDeclarator
  simp only [h.isPunctuation_eq]

/-- Kept words stand where they stood. -/
theorem contains_eq {words : List String} (hwords : ∀ w ∈ words, kept w = true) :
    words.contains u.text = words.contains t.text := by
  rcases h.2 with rfl | ⟨ht, hu⟩
  · rfl
  · have hfree : ∀ name, kept name = false → words.contains name = false := by
      intro name hname
      rw [← Bool.not_eq_true, List.contains_iff_mem]
      intro hmem
      exact absurd (hwords name hmem) (by simp [hname])
    rw [hfree _ ht, hfree _ hu]

theorem beq_text_eq {w : String} (hw : kept w = true) : (u.text == w) = (t.text == w) := by
  have hsame : [w].contains u.text = [w].contains t.text := h.contains_eq (by simpa using hw)
  simpa using hsame

theorem isWord_eq {w : String} (hw : kept w = true) : u.isWord w = t.isWord w := by
  unfold Token.isWord
  rw [h.1.kind_eq, h.beq_text_eq hw]

variable (hwords : ∀ w ∈ declarationWords, kept w = true)
include hwords

theorem opensBlock_eq : u.opensBlock = t.opensBlock := by
  have hqualifiers : ∀ w ∈ blockQualifiers, kept w = true := fun w hw =>
    hwords w (by simp [declarationWords, hw])
  unfold Token.opensBlock
  rw [h.isIdentifier_eq, h.contains_eq hqualifiers, h.beq_text_eq (hwords "struct" (by decide))]

omit h in
theorem kept_of_opensBlock (hopens : t.opensBlock = true) : kept t.text = true := by
  simp only [Token.opensBlock, Bool.and_eq_true, Bool.or_eq_true, beq_iff_eq,
    List.contains_iff_mem] at hopens
  rcases hopens.2 with htext | hmem
  · rw [htext]
    exact hwords "struct" (by decide)
  · exact hwords _ (by simp [declarationWords, hmem])

theorem isQualifier_eq (s : Scope) : s.isQualifier u = s.isQualifier t := by
  have hqualifiers : ∀ w ∈ interfaceQualifiers, kept w = true := fun w hw =>
    hwords w (by simp [declarationWords, hw])
  unfold Scope.isQualifier
  rw [h.isIdentifier_eq, h.contains_eq hqualifiers]

theorem step_eq (s : Scope) : s.step u = s.step t := by
  unfold Scope.step
  simp only [h.isPunctuation_eq, h.isQualifier_eq hwords]

end Token.RespellsOutside

theorem any_endsDeclarator_respelled {ts us : List Token}
    (h : List.Forall₂ (Token.RespellsOutside kept) ts us) :
    us.head?.any (·.endsDeclarator) = ts.head?.any (·.endsDeclarator) := by
  cases h with
  | nil => rfl
  | cons htu _ => exact htu.endsDeclarator_eq

/-! ## §2. Searches. -/

theorem functionNames_respelled {ts us : List Token}
    (h : List.Forall₂ (Token.RespellsOutside kept) ts us)
    (hkept : ∀ name ∈ functionNames ts, kept name = true) :
    functionNames us = functionNames ts := by
  induction h with
  | nil => rfl
  | cons htype hrest ih =>
    cases hrest with
    | nil => rfl
    | cons hname hrest =>
      cases hrest with
      | nil => rfl
      | cons hparen hrest =>
        rw [functionNames] at hkept ⊢
        rw [functionNames, htype.isIdentifier_eq, hname.isIdentifier_eq,
          hparen.isPunctuation_eq]
        split at hkept
        next hcond =>
          rw [List.forall_mem_cons] at hkept
          rw [if_pos hcond, if_pos hcond, ih hkept.2, hname.eq_of_kept hkept.1]
        next hcond => rw [if_neg hcond, if_neg hcond, ih hkept]

theorem memberNames_respelled {ts us : List Token}
    (h : List.Forall₂ (Token.RespellsOutside kept) ts us) {depth : Nat}
    (hkept : ∀ name ∈ memberNames depth ts, kept name = true) :
    memberNames depth us = memberNames depth ts := by
  induction h generalizing depth with
  | nil => rfl
  | @cons t u ts us htu hrest ih =>
    unfold memberNames at hkept ⊢
    rw [htu.isPunctuation_eq, htu.isPunctuation_eq, htu.isIdentifier_eq,
      any_endsDeclarator_respelled hrest]
    by_cases hopen : t.isPunctuation openBrace = true
    · simp only [if_pos hopen] at hkept ⊢
      exact ih hkept
    · simp only [if_neg hopen] at hkept ⊢
      by_cases hclose : t.isPunctuation closeBrace = true
      · simp only [if_pos hclose] at hkept ⊢
        cases depth with
        | zero => rfl
        | succ outer => exact ih hkept
      · simp only [if_neg hclose] at hkept ⊢
        split at hkept
        next hcond =>
          rw [List.forall_mem_cons] at hkept
          rw [if_pos hcond, if_pos hcond, ih hkept.2, htu.eq_of_kept hkept.1]
        next hcond =>
          rw [if_neg hcond, if_neg hcond]
          exact ih hkept

theorem blocks_respelled {ts us : List Token}
    (h : List.Forall₂ (Token.RespellsOutside kept) ts us)
    (hwords : ∀ w ∈ declarationWords, kept w = true)
    (hkept : ∀ b ∈ blocks ts, kept b.name = true ∧ ∀ name ∈ b.members, kept name = true) :
    blocks us = blocks ts := by
  induction h with
  | nil => rfl
  | cons hkeyword hrest ih =>
    cases hrest with
    | nil => rfl
    | cons hname hrest =>
      cases hrest with
      | nil => rfl
      | @cons t u ts us hbrace hrest =>
        rw [blocks] at hkept ⊢
        rw [blocks, hkeyword.opensBlock_eq hwords, hname.isIdentifier_eq,
          hbrace.isPunctuation_eq]
        split at hkept
        next hcond =>
          rw [List.forall_mem_cons] at hkept
          obtain ⟨⟨hblock, hmembers⟩, hlater⟩ := hkept
          have hopens := (Bool.and_eq_true_iff.1 (Bool.and_eq_true_iff.1 hcond).1).1
          have hsame := Token.RespellsOutside.kept_of_opensBlock hwords hopens
          rw [if_pos hcond, if_pos hcond, ih hlater, hkeyword.eq_of_kept hsame,
            hname.eq_of_kept hblock, memberNames_respelled hrest hmembers]
        next hcond => rw [if_neg hcond, if_neg hcond, ih hkept]

theorem listedNames_respelled {ts us : List Token}
    (h : List.Forall₂ (Token.RespellsOutside kept) ts us) {depth : Nat}
    (hkept : ∀ name ∈ listedNames depth ts, kept name = true) :
    listedNames depth us = listedNames depth ts := by
  induction h generalizing depth with
  | nil => rfl
  | @cons t u ts us htu hrest ih =>
    unfold listedNames at hkept ⊢
    rw [htu.isPunctuation_eq, htu.isPunctuation_eq, htu.isIdentifier_eq]
    by_cases hopen : t.isPunctuation "(" = true
    · simp only [if_pos hopen] at hkept ⊢
      exact ih hkept
    · simp only [if_neg hopen] at hkept ⊢
      by_cases hclose : t.isPunctuation ")" = true
      · simp only [if_pos hclose] at hkept ⊢
        cases depth with
        | zero => rfl
        | succ outer => exact ih hkept
      · simp only [if_neg hclose] at hkept ⊢
        split at hkept
        next hcond =>
          rw [List.forall_mem_cons] at hkept
          rw [if_pos hcond, if_pos hcond, ih hkept.2, htu.eq_of_kept hkept.1]
        next hcond =>
          rw [if_neg hcond, if_neg hcond]
          exact ih hkept

theorem layoutNames_respelled {ts us : List Token}
    (h : List.Forall₂ (Token.RespellsOutside kept) ts us)
    (hwords : ∀ w ∈ declarationWords, kept w = true)
    (hkept : ∀ name ∈ layoutNames ts, kept name = true) :
    layoutNames us = layoutNames ts := by
  induction h with
  | nil => rfl
  | cons hkeyword hrest ih =>
    cases hrest with
    | nil => rfl
    | cons hparen hrest =>
      rw [layoutNames] at hkept ⊢
      rw [layoutNames, hkeyword.isWord_eq (hwords "layout" (by decide)), hparen.isPunctuation_eq]
      split at hkept
      next hcond =>
        rw [List.forall_mem_append] at hkept
        rw [if_pos hcond, if_pos hcond, ih hkept.2, listedNames_respelled hrest hkept.1]
      next hcond => rw [if_neg hcond, if_neg hcond, ih hkept]

theorem interfaceNames_respelled {ts us : List Token}
    (h : List.Forall₂ (Token.RespellsOutside kept) ts us)
    (hwords : ∀ w ∈ declarationWords, kept w = true) {s : Scope}
    (hkept : ∀ name ∈ interfaceNames s ts, kept name = true) :
    interfaceNames s us = interfaceNames s ts := by
  induction h generalizing s with
  | nil => rfl
  | @cons t u ts us htu hrest ih =>
    have hafter : us.head?.any (fun v => v.endsDeclarator || v.isPunctuation "=")
        = ts.head?.any (fun v => v.endsDeclarator || v.isPunctuation "=") := by
      cases hrest with
      | nil => rfl
      | cons hnext _ => simp [hnext.endsDeclarator_eq, hnext.isPunctuation_eq]
    have hdeclares : s.declares u us.head? = s.declares t ts.head? := by
      unfold Scope.declares
      rw [htu.isIdentifier_eq, htu.isQualifier_eq hwords, hafter]
    rw [interfaceNames] at hkept ⊢
    rw [interfaceNames, hdeclares, htu.step_eq hwords]
    split at hkept
    next hcond =>
      rw [List.forall_mem_cons] at hkept
      rw [if_pos hcond, if_pos hcond, ih hkept.2, htu.eq_of_kept hkept.1]
    next hcond => rw [if_neg hcond, if_neg hcond, ih hkept]

/-! ## §3. Protected names. -/

theorem significant_respelledOutside {ts us : List Token}
    (h : List.Forall₂ (Token.RespellsOutside kept) ts us) :
    List.Forall₂ (Token.RespellsOutside kept) (Token.significant ts) (Token.significant us) := by
  refine List.rel_filter (fun {t u} htu => ?_) h
  simp only [htu.1.isTrivia_eq]

/-- Directives are no identifiers. -/
theorem directives_respelled {ts us : List Token}
    (h : List.Forall₂ (Token.RespellsOutside kept) ts us) :
    us.filter (·.kind == .directive) = ts.filter (·.kind == .directive) := by
  rw [← List.map_id (us.filter _), ← List.map_id (ts.filter _)]
  refine map_filter_of_forall₂ h (fun t u htu => by rw [htu.1.kind_eq]) fun t u htu hkind => ?_
  refine htu.1.resolve_right fun hword => ?_
  rw [hword.1] at hkind
  exact absurd hkind (by decide)

end

theorem ProtectedNames.contains_of_mem {p : ProtectedNames} {names : List String}
    (hset : NameSet.ofNames names ∈ p.sets) : ∀ name ∈ names, p.contains name = true := by
  intro name hname
  unfold contains
  rw [Bool.or_eq_true, List.any_eq_true]
  exact .inr ⟨_, hset, by simpa using hname⟩

theorem ProtectedNames.contains_of_isKeyword {p : ProtectedNames} {name : String}
    (h : isKeyword name = true) : p.contains name = true := by
  unfold contains
  rw [h, Bool.true_or]

/-- **Respelling names that are not protected** leaves the protected names as they are. -/
theorem protectedNames_respelled {ts us : List Token}
    (h : List.Forall₂ (Token.RespellsOutside (ProtectedNames.ofTokens ts).contains) ts us) :
    ProtectedNames.ofTokens us = ProtectedNames.ofTokens ts := by
  have hsig := significant_respelledOutside h
  have hwords : ∀ w ∈ declarationWords, (ProtectedNames.ofTokens ts).contains w = true := by
    have hkeywords : ∀ w ∈ declarationWords, isKeyword w = true := by decide
    exact fun w hw => ProtectedNames.contains_of_isKeyword (hkeywords w hw)
  -- whatever a search finds is in one of the six sets
  have hfunctions := functionNames_respelled hsig
    (ProtectedNames.contains_of_mem (by simp [ProtectedNames.sets, ProtectedNames.ofTokens]))
  have hlayouts := layoutNames_respelled hsig hwords
    (ProtectedNames.contains_of_mem (by simp [ProtectedNames.sets, ProtectedNames.ofTokens]))
  have hstructs : ∀ name ∈ ((blocks (Token.significant ts)).filter (·.isStruct)).map (·.name),
      (ProtectedNames.ofTokens ts).contains name = true :=
    ProtectedNames.contains_of_mem (by simp [ProtectedNames.sets, ProtectedNames.ofTokens])
  have hmembers : ∀ name ∈ (blocks (Token.significant ts)).flatMap (·.members),
      (ProtectedNames.ofTokens ts).contains name = true :=
    ProtectedNames.contains_of_mem (by simp [ProtectedNames.sets, ProtectedNames.ofTokens])
  have hinterfaces : ∀ name ∈ ((blocks (Token.significant ts)).filter (!·.isStruct)).map (·.name)
        ++ interfaceNames .top (Token.significant ts),
      (ProtectedNames.ofTokens ts).contains name = true :=
    ProtectedNames.contains_of_mem (by simp [ProtectedNames.sets, ProtectedNames.ofTokens])
  have hblocks : blocks (Token.significant us) = blocks (Token.significant ts) := by
    refine blocks_respelled hsig hwords fun b hb => ⟨?_, fun name hname => ?_⟩
    · by_cases hstruct : b.isStruct = true
      · exact hstructs _ (List.mem_map_of_mem (List.mem_filter.2 ⟨hb, hstruct⟩))
      · refine hinterfaces _ (List.mem_append_left _ (List.mem_map_of_mem ?_))
        exact List.mem_filter.2 ⟨hb, by simpa using hstruct⟩
    · exact hmembers name (List.mem_flatMap.2 ⟨b, hb, hname⟩)
  have hglobals := interfaceNames_respelled hsig hwords fun name hname =>
    hinterfaces name (List.mem_append_right _ hname)
  unfold ProtectedNames.ofTokens
  simp only [hfunctions, hblocks, hlayouts, hglobals, directives_respelled hsig]

end GlslMinifier
