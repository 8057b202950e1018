/-
  GlslMinifier.Proofs.Alias.Requests — what a table of aliases answers over a whole run.

  A table keeps two things in step: the aliases that it gave to names, and the supply that
  it takes them from.  Names may be kept back and aliases asked for in any order.  A name
  that has an alias keeps it, whatever is kept back later; a new name gets a word that the
  supply has not handed out and that was not kept back before.

  Main results:
    * `consistent_assign`, `consistent_run` — aliases and supply stay in step
    * `getElem?_run_of_some` — an alias is given once and for all
    * `mem_map_fst_pairs_run` — the table lists the names that were asked for
    * `run_answers_each_name_once` — what every run of requests keeps to
-/
import GlslMinifier.Proofs.Alias.Assignment
import GlslMinifier.Proofs.Alias.Supply
import GlslMinifier.Proofs.Utf8Order

namespace GlslMinifier

namespace AliasTable

/-! ## §1. Runs. -/

/-- A table after one request.  The subject of a word is the name that it is an alias of. -/
def serve (t : AliasTable) : Request String → AliasTable
  | .reserve names => t.reserve names
  | .word name => (t.assign name).2

/-- A table after a run of requests. -/
def run (t : AliasTable) (rs : List (Request String)) : AliasTable := rs.foldl serve t

/-- `w` is the alias of a name. -/
def IsAlias (t : AliasTable) (w : String) : Prop := ∃ name : String, t.aliases[name]? = some w

theorem assign_of_some {t : AliasTable} {name w : String} (h : t.aliases[name]? = some w) :
    t.assign name = (w, t) := by
  unfold assign
  rw [h]

theorem fst_assign_of_new {t : AliasTable} {name : String} (h : t.aliases[name]? = none) :
    (t.assign name).1 = t.allocator.take.1 := by
  unfold assign
  rw [h]

/-- After it was asked for, a name has the alias that was answered. -/
theorem getElem?_assign_self (t : AliasTable) (name : String) :
    (t.assign name).2.aliases[name]? = some (t.assign name).1 := by
  cases hold : t.aliases[name]? with
  | some w =>
    rw [assign_of_some hold]
    exact hold
  | none => rw [getElem?_assign_of_new hold, if_pos rfl, fst_assign_of_new hold]

/-! ## §2. The invariant. -/

/-- The supply accounts for the aliases of the table, and no two names share one. -/
structure Consistent (t : AliasTable) : Prop where
  accounts : t.allocator.Accounts t.IsAlias
  injective : ∀ name other w : String, t.aliases[name]? = some w → t.aliases[other]? = some w →
    name = other

theorem consistent_empty : empty.Consistent where
  accounts := {
    behind := by
      intro p hp
      exact absurd hp (Nat.not_lt_zero p)
    given := by
      intro w hw
      obtain ⟨name, hname⟩ := hw
      simp [empty] at hname }
  injective := by
    intro name other w hname
    simp [empty] at hname

theorem consistent_reserve {t : AliasTable} (h : t.Consistent) (names : List String) :
    (t.reserve names).Consistent where
  accounts := Allocator.accounts_reserve h.accounts names
  injective := h.injective

/-- A new name brings one more alias into the table. -/
theorem isAlias_assign_of_new {t : AliasTable} {name : String} (hnew : t.aliases[name]? = none)
    (w : String) : (t.assign name).2.IsAlias w ↔ t.IsAlias w ∨ w = t.allocator.take.1 := by
  unfold IsAlias
  simp only [getElem?_assign_of_new hnew]
  constructor
  · intro h
    obtain ⟨key, hkey⟩ := h
    by_cases heq : name = key
    · rw [if_pos heq] at hkey
      exact .inr (Option.some.inj hkey).symm
    · rw [if_neg heq] at hkey
      exact .inl ⟨key, hkey⟩
  · intro h
    cases h with
    | inl hold =>
      obtain ⟨key, hkey⟩ := hold
      -- the name that has it is not the new one
      have hne : name ≠ key := by
        intro heq
        rw [heq, hkey] at hnew
        exact absurd hnew (Option.some_ne_none w)
      exact ⟨key, by rw [if_neg hne, hkey]⟩
    | inr htaken => exact ⟨name, by rw [if_pos rfl, htaken]⟩

/-- The word taken next is no alias yet. -/
theorem Consistent.not_isAlias_take {t : AliasTable} (h : t.Consistent) :
    ¬ t.IsAlias t.allocator.take.1 := by
  intro halias
  exact (Allocator.isNextFree_take h.accounts).free (.inr halias)

theorem consistent_assign {t : AliasTable} (h : t.Consistent) (name : String) :
    (t.assign name).2.Consistent := by
  cases hold : t.aliases[name]? with
  | some w =>
    rw [assign_of_some hold]
    exact h
  | none =>
    have hfresh := h.not_isAlias_take
    constructor
    · have haccounts := Allocator.accounts_take h.accounts
      have hsame : (t.assign name).2.IsAlias = fun w => t.IsAlias w ∨ w = t.allocator.take.1 := by
        funext w
        exact propext (isAlias_assign_of_new hold w)
      rw [hsame, assign_of_new hold]
      exact haccounts
    · intro key other w hkey hother
      rw [getElem?_assign_of_new hold] at hkey hother
      by_cases hk : name = key
      · by_cases ho : name = other
        · rw [← hk, ho]
        · rw [if_pos hk] at hkey
          rw [if_neg ho] at hother
          exact absurd ⟨other, hother.trans hkey.symm⟩ hfresh
      · by_cases ho : name = other
        · rw [if_neg hk] at hkey
          rw [if_pos ho] at hother
          exact absurd ⟨key, hkey.trans hother.symm⟩ hfresh
        · rw [if_neg hk] at hkey
          rw [if_neg ho] at hother
          exact h.injective key other w hkey hother

theorem consistent_serve {t : AliasTable} (h : t.Consistent) (r : Request String) :
    (t.serve r).Consistent := by
  cases r with
  | reserve names => exact consistent_reserve h names
  | word name => exact consistent_assign h name

/-- **Aliases and supply stay in step** over a run. -/
theorem consistent_run {t : AliasTable} (h : t.Consistent) (rs : List (Request String)) :
    (t.run rs).Consistent := by
  induction rs generalizing t with
  | nil => exact h
  | cons r rs ih => exact ih (consistent_serve h r)

/-! ## §3. What a run leaves. -/

theorem getElem?_serve_of_some {t : AliasTable} {name w : String}
    (h : t.aliases[name]? = some w) (r : Request String) :
    (t.serve r).aliases[name]? = some w := by
  cases r with
  | reserve names => exact h
  | word other =>
    show (t.assign other).2.aliases[name]? = some w
    cases hold : t.aliases[other]? with
    | some v =>
      rw [assign_of_some hold]
      exact h
    | none =>
      have hne : other ≠ name := by
        intro heq
        rw [heq, h] at hold
        exact absurd hold (Option.some_ne_none w)
      rw [getElem?_assign_of_new hold, if_neg hne]
      exact h

/-- **An alias is given once and for all.** -/
theorem getElem?_run_of_some {t : AliasTable} {name w : String}
    (h : t.aliases[name]? = some w) (rs : List (Request String)) :
    (t.run rs).aliases[name]? = some w := by
  induction rs generalizing t with
  | nil => exact h
  | cons r rs ih => exact ih (getElem?_serve_of_some h r)

theorem reserved_assign (t : AliasTable) (name : String) :
    (t.assign name).2.allocator.reserved = t.allocator.reserved := by
  cases hold : t.aliases[name]? with
  | some w => rw [assign_of_some hold]
  | none =>
    rw [assign_of_new hold]
    rfl

theorem reserved_run (t : AliasTable) (rs : List (Request String)) :
    (t.run rs).allocator.reserved = t.allocator.reserved ++ reservedIn rs := by
  induction rs generalizing t with
  | nil => exact (List.append_nil _).symm
  | cons r rs ih =>
    show ((t.serve r).run rs).allocator.reserved
      = t.allocator.reserved ++ (r.names ++ reservedIn rs)
    rw [ih, ← List.append_assoc]
    cases r with
    | reserve names => rfl
    | word name =>
      show (t.assign name).2.allocator.reserved ++ _ = t.allocator.reserved ++ [] ++ _
      rw [reserved_assign, List.append_nil]

theorem mem_assign {t : AliasTable} {name key : String} :
    key ∈ (t.assign name).2.aliases ↔ key ∈ t.aliases ∨ name = key := by
  cases hold : t.aliases[name]? with
  | some w =>
    have hmem : name ∈ t.aliases := by
      rw [Std.ExtTreeMap.mem_iff_isSome_getElem?, hold]
      rfl
    rw [assign_of_some hold]
    constructor
    · exact .inl
    · intro h
      exact h.elim id fun heq => heq ▸ hmem
  | none =>
    rw [assign_of_new hold]
    show key ∈ t.aliases.insert name _ ↔ _
    rw [Std.ExtTreeMap.mem_insert, Std.LawfulEqCmp.compare_eq_iff_eq, or_comm]

/-- A table has the names that were asked for, and those that it began with. -/
theorem mem_run {t : AliasTable} {rs : List (Request String)} {key : String} :
    key ∈ (t.run rs).aliases ↔ key ∈ t.aliases ∨ .word key ∈ rs := by
  induction rs generalizing t with
  | nil => simp [run]
  | cons r rs ih =>
    show key ∈ ((t.serve r).run rs).aliases ↔ _
    rw [ih, List.mem_cons, ← or_assoc]
    cases r with
    | reserve names =>
      show key ∈ t.aliases ∨ _ ↔ _
      simp
    | word name =>
      show key ∈ (t.assign name).2.aliases ∨ _ ↔ _
      rw [mem_assign]
      simp [eq_comm]

/-- The names that a table lists after a run. -/
theorem mem_map_fst_pairs_run {rs : List (Request String)} {name : String} :
    name ∈ (empty.run rs).pairs.map Prod.fst ↔ .word name ∈ rs := by
  have hlisted : name ∈ (empty.run rs).pairs.map Prod.fst ↔ name ∈ (empty.run rs).aliases := by
    rw [Std.ExtTreeMap.mem_iff_isSome_getElem?, Option.isSome_iff_exists]
    simp only [List.mem_map, Prod.exists, exists_eq_right, ← mem_pairs, exists_and_right]
  rw [hlisted, mem_run]
  simp [empty]

/-- **A table answers each name once and for all, with a word of its own.**  After any run of
    requests no two names share an alias, and a name that has been asked for is answered
    alike for ever, without a change to the table.  A new name is given the first word that
    is neither an alias nor was kept back by then.  The names asked for are listed once
    each, with the alias that each was given, in the order of their bytes. -/
theorem run_answers_each_name_once (rs : List (Request String)) :
    let t := empty.run rs
    (∀ name other w : String, t.aliases[name]? = some w → t.aliases[other]? = some w → name = other)
      ∧ (∀ name later, ((t.assign name).2.run later).assign name
        = ((t.assign name).1, (t.assign name).2.run later))
      ∧ (∀ name, t.aliases[name]? = none →
        IsNextFree (fun w => w ∈ reservedIn rs ∨ t.IsAlias w) (t.assign name).1)
      ∧ t.pairs.Pairwise (fun p q => utf8Bytes p.1 < utf8Bytes q.1)
      ∧ (∀ name, (t.pairs.map Prod.fst).count name = if .word name ∈ rs then 1 else 0)
      ∧ ∀ name later, (name, (t.assign name).1) ∈ ((t.assign name).2.run later).pairs := by
  intro t
  have hconsistent : t.Consistent := consistent_run consistent_empty rs
  have hkept : ∀ name later,
      ((t.assign name).2.run later).aliases[name]? = some (t.assign name).1 := by
    intro name later
    exact getElem?_run_of_some (getElem?_assign_self t name) later
  refine ⟨hconsistent.injective, ?_, ?_, ?_, ?_, ?_⟩
  · intro name later
    exact assign_of_some (hkept name later)
  · intro name hnew
    have hreserved : t.allocator.reserved = reservedIn rs := reserved_run empty rs
    rw [fst_assign_of_new hnew, ← hreserved]
    exact Allocator.isNextFree_take hconsistent.accounts
  · exact (pairs_pairwise t).imp utf8Bytes_lt_of_lt
  · intro name
    rw [(nodup_map_fst_pairs t).count]
    simp only [mem_map_fst_pairs_run, t]
  · intro name later
    exact mem_pairs.2 (hkept name later)

/-- Keeping `b` and `color` back comes too late for `color`, which is `b` by then. -/
theorem run_answers_each_name_once_late :
    let rs : List (Request String) :=
      [.reserve ["a"], .word "color", .reserve ["b", "color"], .word "é"]
    let t := empty.run rs
    t.aliases["color"]? = some "b" ∧ t.aliases["position"]? = none
      ∧ (∀ other : String, t.aliases[other]? = some "b" → "color" = other)
      ∧ ((t.assign "color").2.run [.reserve ["b"]]).assign "color"
        = ("b", (t.assign "color").2.run [.reserve ["b"]])
      ∧ (t.assign "position").1 = "d"
      ∧ IsNextFree (fun w => w ∈ reservedIn rs ∨ t.IsAlias w) "d"
      ∧ t.pairs = [("color", "b"), ("é", "c")] := by
  intro rs t
  have hcolor : t.aliases["color"]? = some "b" := by decide +kernel
  have hposition : t.aliases["position"]? = none := by decide +kernel
  have hanswer : (t.assign "color").1 = "b" := by decide +kernel
  have hfourth : (t.assign "position").1 = "d" := by decide +kernel
  have hpairs : t.pairs = [("color", "b"), ("é", "c")] := by decide +kernel
  obtain ⟨hinjective, hagain, hnew, -⟩ := run_answers_each_name_once rs
  refine ⟨hcolor, hposition, ?_, ?_, hfourth, ?_, hpairs⟩
  · intro other hother
    exact hinjective "color" other "b" hcolor hother
  · have hlater := hagain "color" [.reserve ["b"]]
    rw [hanswer] at hlater
    exact hlater
  · have hfree := hnew "position" hposition
    rw [hfourth] at hfree
    exact hfree

end AliasTable

end GlslMinifier
