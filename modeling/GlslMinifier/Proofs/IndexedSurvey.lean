/-
  GlslMinifier.Proofs.IndexedSurvey — surveying by positions never fails.

  A scan over positions is a scan over the tokens that stand there, as soon as the
  positions lead to those tokens one after the other (`LeadsTo`).  The positions of the
  tokens with a meaning do so in any list, so no look-up misses.  A depth is taken down
  where the scan over tokens is still inside of something, and the scan stops as soon as it
  is not: a stray closing bracket is never reached with nothing open.

  Main results:
    * `leadsTo_significantPositions` — the positions lead to the tokens with a meaning
    * `LeadsTo.scanMembers?_eq`, `LeadsTo.scanList?_eq` — depths stay above zero
    * `scanDirective?_eq` — behind the first byte of a preprocessor line begins a text
    * `survey_and_strip_never_fail` — surveying and stripping fail on no text
-/
import GlslMinifier.IndexedSurvey
import GlslMinifier.Proofs.CommentSlices

namespace GlslMinifier

/-! ## §1. Positions that lead to tokens. -/

/-- Each position is one of a token of the second list, and the next token with a meaning
    behind it is the next of that list. -/
inductive LeadsTo (ts : List Token) : List Nat → List Token → Prop
  | nil : LeadsTo ts [] []
  | cons {position : Nat} {t : Token} {positions : List Nat} {sig : List Token}
      (here : ts[position]? = some t) (next : nextSignificant ts position = sig.head?)
      (rest : LeadsTo ts positions sig) : LeadsTo ts (position :: positions) (t :: sig)

/-- Between what stands before a token and what stands behind it. -/
theorem nextSignificant_append (before : List Token) (t : Token) (after : List Token) :
    nextSignificant (before ++ t :: after) before.length = after.find? (!·.isTrivia) := by
  unfold nextSignificant sliceFrom?
  rw [if_pos (by simp), Option.bind_some]
  congr 1
  simp

theorem prevSignificant?_append (before : List Token) (t : Token) (after : List Token) :
    prevSignificant? (before ++ t :: after) before.length
      = some (before.reverse.find? (!·.isTrivia)) := by
  unfold prevSignificant? sliceTo?
  rw [if_pos (by simp), Option.map_some, List.take_left]

/-- Wherever the tokens `after` stand, the positions of those with a meaning lead to them. -/
theorem leadsTo_append (before after : List Token) :
    LeadsTo (before ++ after)
      (((after.zipIdx before.length).filter fun x => !x.1.isTrivia).map (·.2))
      (Token.significant after) := by
  induction after generalizing before with
  | nil => exact .nil
  | cons t after ih =>
    have hrest := ih (before ++ [t])
    rw [List.append_assoc, List.singleton_append, List.length_append, List.length_singleton]
      at hrest
    unfold Token.significant at hrest ⊢
    rw [List.zipIdx_cons]
    by_cases htrivia : t.isTrivia = true
    · rw [List.filter_cons_of_neg (by simp [htrivia]), List.filter_cons_of_neg (by simp [htrivia])]
      exact hrest
    · rw [List.filter_cons_of_pos (by simp [htrivia]), List.filter_cons_of_pos (by simp [htrivia])]
      refine .cons (by simp) ?_ hrest
      rw [nextSignificant_append, List.head?_filter]

/-- **The positions of the tokens with a meaning lead to them.** -/
theorem leadsTo_significantPositions (ts : List Token) :
    LeadsTo ts (significantPositions ts) (Token.significant ts) :=
  leadsTo_append [] ts

namespace LeadsTo

variable {ts sig : List Token} {positions : List Nat}

theorem length_eq (h : LeadsTo ts positions sig) : positions.length = sig.length := by
  induction h with
  | nil => rfl
  | cons _ _ _ ih => rw [List.length_cons, List.length_cons, ih]

/-- A look-up by one of the positions finds the token that it leads to. -/
theorem tokenAt?_eq (h : LeadsTo ts positions sig) (i : Nat) :
    tokenAt? ts positions i = sig[i]? := by
  induction h generalizing i with
  | nil => rfl
  | cons here _ _ ih =>
    cases i with
    | zero => exact here
    | succ i => exact ih i

theorem tokenAt?_of_lt (h : LeadsTo ts positions sig) {i : Nat} (hi : i < sig.length) :
    tokenAt? ts positions i = some sig[i] := by
  rw [h.tokenAt?_eq, List.getElem?_eq_getElem hi]

theorem sliceFrom?_eq (h : LeadsTo ts positions sig) {n : Nat} (hn : n ≤ sig.length) :
    sliceFrom? positions n = some (positions.drop n) :=
  if_pos (h.length_eq ▸ hn)

theorem drop (h : LeadsTo ts positions sig) (n : Nat) :
    LeadsTo ts (positions.drop n) (sig.drop n) := by
  induction h generalizing n with
  | nil => simpa using LeadsTo.nil
  | cons here next rest ih =>
    cases n with
    | zero => exact .cons here next rest
    | succ n => exact ih n

end LeadsTo

/-! ## §2. Scans with a depth.

The scans over tokens count the brackets opened inside; the scans over positions count the
outermost one as well, and are thus one ahead. -/

namespace LeadsTo

variable {ts sig : List Token} {positions : List Nat}

/-- Inside of brackets the depth can be taken down at every closing mark: at that of the
    outermost ones it becomes zero, and there the scan ends.  `names` is the scan over
    tokens, given by its two equations. -/
theorem scanBracketed?_eq {opening closing : String} {picks : Nat → Token → Option Token → Bool}
    {names : Nat → List Token → List String} (hnil : ∀ depth, names depth [] = [])
    (hcons : ∀ depth t sig, names depth (t :: sig)
      = if t.isPunctuation opening then names (depth + 1) sig
        else if t.isPunctuation closing then
          match depth with
          | 0 => []
          | outer + 1 => names outer sig
        else if picks (depth + 1) t sig.head? then t.text :: names depth sig
        else names depth sig)
    (h : LeadsTo ts positions sig) (depth : Nat) :
    scanBracketed? opening closing picks ts (depth + 1) positions = some (names depth sig) := by
  induction h generalizing depth with
  | nil => rw [hnil, scanBracketed?]
  | @cons position t positions sig here next rest ih =>
    rw [scanBracketed?, here, hcons, ← next]
    show (if _ then _ else if _ then _ else if _ then _ else _) = some _
    by_cases hopen : t.isPunctuation opening = true
    · rw [if_pos hopen, if_pos hopen, ih]
    rw [if_neg hopen, if_neg hopen]
    by_cases hclose : t.isPunctuation closing = true
    · rw [if_pos hclose, if_pos hclose]
      -- at the outermost closing mark nothing more is read
      cases depth with
      | zero => rfl
      | succ outer => exact ih outer
    rw [if_neg hclose, if_neg hclose, ih]
    by_cases hpick : picks (depth + 1) t (nextSignificant ts position) = true
    · rw [if_pos hpick, if_pos hpick]
      rfl
    · rw [if_neg hpick, if_neg hpick]

theorem scanMembers?_eq (h : LeadsTo ts positions sig) (depth : Nat) :
    scanMembers? ts (depth + 1) positions = some (memberNames depth sig) := by
  refine scanBracketed?_eq (fun depth => ?_) (fun depth t sig => ?_) h depth
  · exact memberNames.eq_def depth []
  · have hdepth : (depth + 1 == 1) = (depth == 0) := by cases depth <;> rfl
    rw [hdepth]
    exact memberNames.eq_def depth (t :: sig)

theorem scanList?_eq (h : LeadsTo ts positions sig) (depth : Nat) :
    scanList? ts (depth + 1) positions = some (listedNames depth sig) := by
  refine scanBracketed?_eq (fun depth => ?_) (fun depth t sig => ?_) h depth
  · exact listedNames.eq_def depth []
  · exact listedNames.eq_def depth (t :: sig)

/-- Entered at the list's own parenthesis, a scan first goes one deep. -/
theorem scanList?_cons {paren : Token} (h : LeadsTo ts positions (paren :: sig))
    (hopen : paren.isPunctuation "(" = true) :
    scanList? ts 0 positions = some (listedNames 0 sig) := by
  obtain _ | ⟨here, -, rest⟩ := h
  rw [scanList?, scanBracketed?, here]
  show (if _ then _ else _) = _
  rw [if_pos hopen]
  exact rest.scanList?_eq 0

/-- What keeps the depth above zero is where a scan begins, not what it reads: entered
    outside of the body it fails at the first closing brace. -/
example : scanMembers? [⟨.punctuation, closeBrace⟩] 0 [0] = none := by decide

/-- Around global declarations a closing bracket too many does not count, so only the
    look-ups could fail. -/
theorem scanInterfaces?_eq (h : LeadsTo ts positions sig) (s : Scope) :
    scanInterfaces? ts s positions = some (interfaceNames s sig) := by
  induction h generalizing s with
  | nil => rfl
  | @cons position t positions sig here next rest ih =>
    rw [scanInterfaces?, here, interfaceNames, ← next]
    show (scanInterfaces? ts (s.step t) positions).bind _ = _
    rw [ih]
    rfl

end LeadsTo

/-! ## §3. Patterns of neighbours.

The scans over tokens look for a pattern at the front of what is left; the scans over
positions look for it at every position with enough positions behind it. -/

/-- The function name at the front of the tokens, if there is one. -/
def functionHere : List Token → List String
  | type :: name :: paren :: _ =>
    if type.isIdentifier && name.isIdentifier && paren.isPunctuation "(" then [name.text] else []
  | _ => []

/-- The block at the front of the tokens, if there is one. -/
def blockHere : List Token → List Block
  | keyword :: name :: brace :: rest =>
    if keyword.opensBlock && name.isIdentifier && brace.isPunctuation openBrace then
      [⟨keyword.text, name.text, memberNames 0 rest⟩]
    else []
  | _ => []

/-- The names of the layout list at the front of the tokens, if there is one. -/
def layoutHere : List Token → List String
  | keyword :: paren :: rest =>
    if keyword.isWord "layout" && paren.isPunctuation "(" then listedNames 0 rest else []
  | _ => []

theorem functionHere_short {ts : List Token} (h : ts.length ≤ 2) : functionHere ts = [] := by
  match ts, h with
  | [], _ | [_], _ | [_, _], _ => rfl

theorem blockHere_short {ts : List Token} (h : ts.length ≤ 2) : blockHere ts = [] := by
  match ts, h with
  | [], _ | [_], _ | [_, _], _ => rfl

theorem layoutHere_short {ts : List Token} (h : ts.length ≤ 1) : layoutHere ts = [] := by
  match ts, h with
  | [], _ | [_], _ => rfl

theorem functionNames_cons (t : Token) (ts : List Token) :
    functionNames (t :: ts) = functionHere (t :: ts) ++ functionNames ts := by
  match ts with
  | [] => rfl
  | [_] => rfl
  | name :: paren :: rest =>
    rw [functionNames, functionHere]
    show (if _ then _ else _) = _
    split <;> rfl

theorem blocks_cons (t : Token) (ts : List Token) :
    blocks (t :: ts) = blockHere (t :: ts) ++ blocks ts := by
  match ts with
  | [] => rfl
  | [_] => rfl
  | name :: brace :: rest =>
    rw [blocks, blockHere]
    show (if _ then _ else _) = _
    split <;> rfl

theorem layoutNames_cons (t : Token) (ts : List Token) :
    layoutNames (t :: ts) = layoutHere (t :: ts) ++ layoutNames ts := by
  match ts with
  | [] => rfl
  | paren :: rest =>
    rw [layoutNames, layoutHere]
    show (if _ then _ else _) = _
    split <;> rfl

/-- A scan that looks at the front of what is left looks at every position; those with no
    more than `size` tokens from there on may be left out if it finds nothing there. -/
theorem eq_flatMap_drop {β : Type} {scan here : List Token → List β} {size : Nat}
    (hnil : scan [] = []) (hcons : ∀ t ts, scan (t :: ts) = here (t :: ts) ++ scan ts)
    (hshort : ∀ {ts}, ts.length ≤ size → here ts = []) (ts : List Token) :
    scan ts = (List.range (ts.length - size)).flatMap fun i => here (ts.drop i) := by
  induction ts with
  | nil => simp [hnil]
  | cons t ts ih =>
    rw [hcons, ih]
    by_cases hsize : ts.length < size
    · have hnone : (t :: ts).length ≤ size := hsize
      rw [hshort hnone, Nat.sub_eq_zero_of_le hnone, Nat.sub_eq_zero_of_le (Nat.le_of_lt hsize)]
      rfl
    · have hmore : (t :: ts).length - size = ts.length - size + 1 := by
        rw [List.length_cons]
        omega
      rw [hmore, List.range_succ_eq_map, List.flatMap_cons, List.flatMap_map]
      rfl

/-- A loop over positions that fails at none of them joins what it finds. -/
theorem mapM_range_flatten {β : Type} {step? : Nat → Option (List β)} {step : Nat → List β}
    {count : Nat} (h : ∀ i < count, step? i = some (step i)) :
    ((List.range count).mapM step?).map List.flatten = some ((List.range count).flatMap step) := by
  rw [mapM_of_forall fun i hi => h i (List.mem_range.1 hi), Option.map_some, List.flatMap_def]

theorem drop_eq_three {ts : List Token} {i : Nat} (hi : i + 2 < ts.length) :
    ts.drop i = ts[i] :: ts[i + 1] :: ts[i + 2] :: ts.drop (i + 3) := by
  rw [List.drop_eq_getElem_cons (by omega), List.drop_eq_getElem_cons (by omega),
    List.drop_eq_getElem_cons hi]

namespace LeadsTo

variable {ts sig : List Token} {positions : List Nat}

/-- A run of three positions is read without a miss. -/
theorem scanFunction?_eq (h : LeadsTo ts positions sig) {i : Nat} (hi : i + 2 < sig.length) :
    scanFunction? ts ((positions.drop i).take 3) = some (functionHere (sig.drop i)) := by
  have hlook : ∀ j (hj : j < 3), tokenAt? ts ((positions.drop i).take 3) j = some sig[i + j] := by
    intro j hj
    rw [tokenAt?, List.getElem?_take_of_lt hj, List.getElem?_drop]
    exact h.tokenAt?_of_lt (by omega)
  rw [scanFunction?, hlook 0 (by decide), hlook 1 (by decide), hlook 2 (by decide),
    drop_eq_three hi]
  rfl

/-- Nor does the look-up of a block miss, and its body is there. -/
theorem scanBlock?_eq (h : LeadsTo ts positions sig) {i : Nat} (hi : i + 2 < sig.length) :
    scanBlock? ts positions i = some (blockHere (sig.drop i)) := by
  rw [scanBlock?, h.tokenAt?_of_lt (show i < _ by omega),
    h.tokenAt?_of_lt (show i + 1 < _ by omega), h.tokenAt?_of_lt hi,
    h.sliceFrom?_eq (show i + 3 ≤ _ from hi), drop_eq_three hi]
  show (if _ then _ else _) = some (if _ then _ else _)
  split
  · -- the block's own brace stands before its body, so the depth is one there
    show (scanMembers? ts (0 + 1) (positions.drop (i + 3))).bind _ = _
    rw [(h.drop (i + 3)).scanMembers?_eq 0]
    rfl
  · rfl

/-- A layout list is entered at its own parenthesis, which takes the depth to one. -/
theorem scanLayout?_eq (h : LeadsTo ts positions sig) {i : Nat} (hi : i + 1 < sig.length) :
    scanLayout? ts positions i = some (layoutHere (sig.drop i)) := by
  have hsig : sig.drop i = sig[i] :: sig[i + 1] :: sig.drop (i + 2) := by
    rw [List.drop_eq_getElem_cons (by omega), List.drop_eq_getElem_cons hi]
  rw [scanLayout?, h.tokenAt?_of_lt (show i < _ by omega), h.tokenAt?_of_lt hi,
    h.sliceFrom?_eq (Nat.le_of_lt hi), hsig]
  show (if _ then _ else _) = some (if _ then _ else _)
  split
  next hopens =>
    have hlist := h.drop (i + 1)
    rw [List.drop_eq_getElem_cons hi] at hlist
    exact hlist.scanList?_cons (Bool.and_eq_true_iff.1 hopens).2
  next => rfl

theorem scanFunctions?_eq (h : LeadsTo ts positions sig) :
    scanFunctions? ts positions = some (functionNames sig) := by
  have hcount : positions.length + 1 - 3 = sig.length - 2 := by rw [h.length_eq]; rfl
  rw [scanFunctions?, windows, List.mapM_map, hcount]
  show ((List.range _).mapM fun i => scanFunction? ts ((positions.drop i).take 3)).map _ = _
  rw [mapM_range_flatten fun i hi => h.scanFunction?_eq (show i + 2 < sig.length by omega),
    eq_flatMap_drop rfl functionNames_cons functionHere_short sig]

theorem scanBlocks?_eq (h : LeadsTo ts positions sig) :
    scanBlocks? ts positions = some (blocks sig) := by
  rw [scanBlocks?, h.length_eq,
    mapM_range_flatten fun i hi => h.scanBlock?_eq (show i + 2 < sig.length by omega),
    eq_flatMap_drop rfl blocks_cons blockHere_short sig]

theorem scanLayouts?_eq (h : LeadsTo ts positions sig) :
    scanLayouts? ts positions = some (layoutNames sig) := by
  rw [scanLayouts?, h.length_eq,
    mapM_range_flatten fun i hi => h.scanLayout?_eq (show i + 1 < sig.length by omega),
    eq_flatMap_drop rfl layoutNames_cons layoutHere_short sig]

end LeadsTo

/-! ## §4. Rename sites. -/

/-- What a token and its neighbours say about a name. -/
def Occurrence.site (o : Occurrence) : Site := ⟨o.token.text, o.isMember, o.isRenameSite⟩

/-- The sites of occurrences. -/
def sitesOf (os : List Occurrence) : List Site :=
  (os.filter (·.token.isIdentifier)).map (·.site)

theorem sitesOf_append (os ps : List Occurrence) :
    sitesOf (os ++ ps) = sitesOf os ++ sitesOf ps := by
  unfold sitesOf
  rw [List.filter_append, List.map_append]

/-- Before a token there is a list, which may be empty. -/
theorem isRenameSite?_append (before : List Token) (t : Token) (after : List Token) :
    isRenameSite? (before ++ t :: after) before.length
      = some (Occurrence.mk (before.reverse.find? (!·.isTrivia)) t
          (after.find? (!·.isTrivia))).isRenameSite := by
  have here : (before ++ t :: after)[before.length]? = some t := by simp
  rw [isRenameSite?, here, prevSignificant?_append, nextSignificant_append]
  unfold Occurrence.isRenameSite
  show (if _ then _ else _) = _
  split
  next hword =>
    rw [hword, Bool.true_and]
    rfl
  next hword =>
    rw [Bool.not_eq_true] at hword
    rw [hword]
    rfl

theorem scanSite?_append (before : List Token) (t : Token) (after : List Token) :
    scanSite? (before ++ t :: after) t before.length
      = some (sitesOf [⟨before.reverse.find? (!·.isTrivia), t, after.find? (!·.isTrivia)⟩]) := by
  rw [scanSite?, isRenameSite?_append, prevSignificant?_append]
  show (if _ then _ else _) = _
  unfold sitesOf
  rw [List.filter_singleton]
  split
  next hword =>
    rw [hword]
    rfl
  next hword =>
    rw [Bool.not_eq_true] at hword
    rw [hword]
    rfl

/-- What stands before the next token with a meaning. -/
theorem find?_reverse_concat (before : List Token) (t : Token) :
    (before ++ [t]).reverse.find? (!·.isTrivia)
      = if t.isTrivia then before.reverse.find? (!·.isTrivia) else some t := by
  rw [List.reverse_append, List.reverse_singleton, List.singleton_append, List.find?_cons]
  cases t.isTrivia <;> rfl

/-- Wherever the tokens `after` stand, their sites are those of their occurrences. -/
theorem mapM_scanSite?_append (before after : List Token) :
    ((after.zipIdx before.length).mapM fun x => scanSite? (before ++ after) x.1 x.2).map
        List.flatten
      = some (sitesOf (occurrencesAfter (before.reverse.find? (!·.isTrivia)) after)) := by
  induction after generalizing before with
  | nil => rfl
  | cons t after ih =>
    have hrest := ih (before ++ [t])
    rw [List.append_assoc, List.singleton_append, List.length_append, List.length_singleton,
      find?_reverse_concat] at hrest
    obtain ⟨found, hfound, hjoin⟩ := Option.map_eq_some_iff.1 hrest
    rw [List.zipIdx_cons, List.mapM_cons, scanSite?_append, hfound]
    show some (_ ++ found.flatten) = _
    rw [hjoin, ← sitesOf_append]
    rfl

theorem scanSites?_eq (ts : List Token) : scanSites? ts = some (sitesOf (occurrences ts)) :=
  mapM_scanSite?_append [] ts

/-- The names of the sites that `p` holds for. -/
theorem map_name_sitesOf (p : Site → Bool) (ts : List Token) :
    ((sitesOf (occurrences ts)).filter p).map (·.name)
      = Survey.namesWhere (fun o => p o.site) ts := by
  unfold sitesOf Survey.namesWhere
  rw [List.filter_map, List.map_map, List.filter_filter]
  exact congrArg (List.map fun o : Occurrence => o.token.text)
    (List.filter_congr fun o _ => Bool.and_comm _ _)

/-! ## §5. Preprocessor lines. -/

/-- A preprocessor line begins with a mark of one byte, behind which a text begins. -/
theorem scanDirective?_eq {text : String} {t : Token} (ht : t ∈ tokenize text)
    (hkind : t.kind = .directive) : scanDirective? t = some (ProtectedNames.directiveWords t) := by
  obtain ⟨start, hshape⟩ := (cut_tokenize text).exists_wellShaped ht
  rw [Token.WellShaped, hkind] at hshape
  obtain ⟨-, hmark, -⟩ := hshape
  obtain ⟨rest, hrest⟩ := List.head?_eq_some_iff.1 hmark
  have htext : t.text = "#" ++ String.ofList rest := by
    apply String.toList_injective
    simp [hrest]
  have hslice : slice? t.text 1 t.text.utf8ByteSize = some (String.ofList rest) := by
    rw [htext]
    exact slice?_append_end "#" (String.ofList rest)
  rw [scanDirective?, hslice]
  show (ByteScanner.collect? _).bind _ = _
  rw [ByteScanner.collect?_atStart]
  show some (((List.map Prod.fst (Token.locateFrom 0 _)).filter _).map _) = _
  rw [Token.map_fst_locateFrom, ProtectedNames.directiveWords, hrest]
  rfl

theorem scanDirectives?_eq (text : String) :
    scanDirectives? (tokenize text)
      = some (((Token.significant (tokenize text)).filter (·.kind == .directive)).flatMap
        ProtectedNames.directiveWords) := by
  have hkept : ∀ t : Token, (t.kind == .directive && !t.isTrivia) = (t.kind == .directive) := by
    intro t
    unfold Token.isTrivia
    cases t.kind <;> rfl
  have hsig : (Token.significant (tokenize text)).filter (·.kind == .directive)
      = (tokenize text).filter (·.kind == .directive) := by
    rw [Token.significant, List.filter_filter]
    exact List.filter_congr fun t _ => hkept t
  rw [scanDirectives?, hsig, mapM_of_forall, Option.map_some, List.flatMap_def]
  intro t ht
  obtain ⟨hmem, hkind⟩ := List.mem_filter.1 ht
  exact scanDirective?_eq hmem (beq_iff_eq.1 hkind)

/-! ## §6. Surveys. -/

/-- Surveying the tokens of a text by positions fails nowhere. -/
theorem Survey.collect?_eq (text : String) :
    Survey.collect? (tokenize text) = some (Survey.ofText text) := by
  have hlead := leadsTo_significantPositions (tokenize text)
  unfold Survey.collect?
  simp only [scanDirectives?_eq, hlead.scanFunctions?_eq, hlead.scanBlocks?_eq,
    hlead.scanLayouts?_eq, hlead.scanInterfaces?_eq, scanSites?_eq, Option.bind_eq_bind,
    Option.bind_some, map_name_sitesOf]
  rfl

/-- **Surveying and stripping fail on no text.**  No depth is taken down from zero, no
    position misses its list, and no part that is taken out of a text ends inside of a
    character; what is found is what the library finds without positions. -/
theorem survey_and_strip_never_fail (text : String) :
    Survey.collect? (tokenize text) = some (Survey.ofText text)
      ∧ sliceComments? text = some (stripComments text) :=
  ⟨Survey.collect?_eq text, sliceComments?_eq text⟩

end GlslMinifier
