/-
  GlslMinifier.Proofs.Alias.Assignment — what a table holds after names were assigned.

  Names that are new to a table take words from its supply one after the other.  When the
  names come in order, the finished table lists them against the words in order.

  Main results:
    * `getElem?_assignAll` — the aliases after any list of new names
    * `pairs_assignAll` — the listing of a table that was filled in order
-/
import GlslMinifier.Alias.Table
import GlslMinifier.Proofs.Alias.Enumeration

namespace GlslMinifier

namespace AliasTable

theorem assign_of_new {t : AliasTable} {name : String} (h : t.aliases[name]? = none) :
    (t.assign name).2 = ⟨t.aliases.insert name t.allocator.take.1, t.allocator.take.2⟩ := by
  simp only [assign, h]

theorem getElem?_assign_of_new {t : AliasTable} {name : String}
    (h : t.aliases[name]? = none) (key : String) :
    (t.assign name).2.aliases[key]?
      = if name = key then some t.allocator.take.1 else t.aliases[key]? := by
  rw [assign_of_new h, Std.ExtTreeMap.getElem?_insert]
  simp only [Std.LawfulEqCmp.compare_eq_iff_eq]

/-- Every new name gets one of the words taken, in order; nothing else changes. -/
theorem getElem?_assignAll {t : AliasTable} {names : List String} (hnodup : names.Nodup)
    (hnew : ∀ name ∈ names, t.aliases[name]? = none) (key spelling : String) :
    (t.assignAll names).aliases[key]? = some spelling
      ↔ t.aliases[key]? = some spelling
        ∨ (key, spelling) ∈ names.zip (t.allocator.takeMany names.length).1 := by
  induction names generalizing t with
  | nil => simp [assignAll]
  | cons name names ih =>
    obtain ⟨hnotin, hnodup⟩ := List.nodup_cons.1 hnodup
    have hname := hnew name List.mem_cons_self
    have hlookup := getElem?_assign_of_new hname
    -- the names that remain are new to the table that `name` was added to
    have hnew' : ∀ other ∈ names, (t.assign name).2.aliases[other]? = none := by
      intro other hother
      rw [hlookup, if_neg fun heq : name = other => hnotin (heq ▸ hother)]
      exact hnew other (List.mem_cons_of_mem _ hother)
    have hallocator : (t.assign name).2.allocator = t.allocator.take.2 := by
      rw [assign_of_new hname]
    show ((t.assign name).2.assignAll names).aliases[key]? = some spelling ↔ _
    rw [ih hnodup hnew', hlookup, hallocator]
    simp only [List.length_cons, Allocator.takeMany, List.zip_cons_cons, List.mem_cons,
      Prod.mk.injEq]
    -- `key` is the name just added, or it is looked up as before
    by_cases hkey : name = key
    · subst hkey
      simp [hname, eq_comm]
    · simp [hkey, Ne.symm hkey]

theorem pairs_pairwise (t : AliasTable) : t.pairs.Pairwise fun p q => p.1 < q.1 := by
  refine List.Pairwise.imp ?_ t.aliases.ordered_keys_toList
  intro p q h
  exact compareOfLessAndEq_eq_lt.1 h

theorem mem_pairs {t : AliasTable} {name spelling : String} :
    (name, spelling) ∈ t.pairs ↔ t.aliases[name]? = some spelling :=
  Std.ExtTreeMap.mem_toList_iff_getElem?_eq_some

theorem nodup_of_ascending {names : List String} (h : names.Pairwise (· < ·)) :
    names.Nodup := by
  refine h.imp ?_
  intro name other hlt heq
  rw [heq] at hlt
  exact List.lt_irrefl _ hlt

/-- Listings in the order of the names are equal as soon as they have the same entries. -/
theorem eq_of_pairwise_fst {ps qs : List (String × String)}
    (hps : ps.Pairwise fun p q => p.1 < q.1) (hqs : qs.Pairwise fun p q => p.1 < q.1)
    (hmem : ∀ p, p ∈ ps ↔ p ∈ qs) : ps = qs := by
  have hnodup : ∀ {rs : List (String × String)},
      rs.Pairwise (fun p q => p.1 < q.1) → rs.Nodup := by
    intro rs hrs
    refine hrs.imp ?_
    intro p q hlt heq
    rw [heq] at hlt
    exact List.lt_irrefl _ hlt
  -- ordered listings that are permutations of each other are the same
  refine List.Perm.eq_of_pairwise (fun p q _ _ hpq hqp => ?_) hps hqs
    ((List.perm_ext_iff_of_nodup (hnodup hps) (hnodup hqs)).2 hmem)
  exact absurd (List.lt_trans hpq hqp) (List.lt_irrefl _)

/-- A table that was filled in the order of the names lists the words in order. -/
theorem pairs_assignAll {t : AliasTable} {names : List String} (hempty : t.aliases = ∅)
    (hsorted : names.Pairwise (· < ·)) :
    (t.assignAll names).pairs = names.zip (t.allocator.takeMany names.length).1 := by
  have hnodup := nodup_of_ascending hsorted
  refine eq_of_pairwise_fst (pairs_pairwise _) ?_ fun ⟨name, spelling⟩ => ?_
  · have hnames : (names.zip (t.allocator.takeMany names.length).1).map Prod.fst = names :=
      List.map_fst_zip (by simp)
    rw [← hnames, List.pairwise_map] at hsorted
    exact hsorted
  · rw [mem_pairs, getElem?_assignAll hnodup (by simp [hempty])]
    simp [hempty]

/-- No name is listed twice. -/
theorem nodup_map_fst_pairs (t : AliasTable) : (t.pairs.map Prod.fst).Nodup :=
  nodup_of_ascending (List.pairwise_map.2 (pairs_pairwise t))

end AliasTable

theorem mem_of_lookup {pairs : List (String × String)} {name spelling : String}
    (h : pairs.lookup name = some spelling) : (name, spelling) ∈ pairs := by
  obtain ⟨before, after, rfl, -⟩ := List.lookup_eq_some_iff.1 h
  exact List.mem_append_right _ List.mem_cons_self

/-- Looking a name up in the listed pairs is looking it up in the table. -/
theorem lookup_pairs (table : AliasTable) (name : String) :
    table.pairs.lookup name = table.aliases[name]? := by
  cases hpairs : table.pairs.lookup name with
  | some spelling => exact (AliasTable.mem_pairs.1 (mem_of_lookup hpairs)).symm
  | none =>
    cases halias : table.aliases[name]? with
    | none => rfl
    | some spelling =>
      have hne := List.lookup_eq_none_iff.1 hpairs _ (AliasTable.mem_pairs.2 halias)
      exact absurd hne (by simp)

end GlslMinifier
