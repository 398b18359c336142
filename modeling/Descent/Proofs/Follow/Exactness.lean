import Descent.Analysis.Basic
import Descent.Proofs.Follow.Reference
import Descent.Proofs.Follow.Tables

/-!
# The follow tables of an analysis

A table is built rule by rule and leaf by leaf, and the FIRST engine is asked for every set. Each
step adds one entry that is near the one that `Node.follows` computes (`Follow.Near`), provided its
key is new. In a built grammar all keys are, since no two leaves of a rule have both target and
occurrence index in common; so the analysis never fails.
-/

namespace Descent

/-- All members of the set are in the exact one, and in a tame grammar the sets are equal. -/
structure Grammar.Within (g : Grammar) (set value : TerminalSet) : Prop where
  subset : set ⊆ value
  tame : g.Tame → set = value

namespace Follow

open Grammar

variable {τ : Type} {pick : Symbol RuleId → Option τ} {g : Grammar} {e : Engine} {r : RuleId}
  {R : Rule} {key : Key τ} {set : TerminalSet}

/-! ## Entries -/

/-- The entry of a leaf in the table of the rule around it, if the leaf is selected. -/
def entryOf (pick : Symbol RuleId → Option τ) (enclosing : RuleId)
    (leaf : (Symbol RuleId × Nat) × TerminalSet) : Option (Key τ × TerminalSet) :=
  (pick leaf.1.1).map fun target => ({ target, occurrence := leaf.1.2, enclosing }, leaf.2)

/-- The exact entries of a rule. -/
def exactEntries (pick : Symbol RuleId → Option τ) (g : Grammar) (r : RuleId) :
    List (Key τ × TerminalSet) :=
  match g.rules[r]? with
  | some R => (R.body.follows g.exactRule ∅).filterMap (entryOf pick r)
  | none => []

/-- The entries have the same key, and the set of the first lies within that of the second. -/
structure Near (g : Grammar) (entry exact : Key τ × TerminalSet) : Prop where
  key : entry.1 = exact.1
  set : g.Within entry.2 exact.2

theorem map_fst_eq_of_near (h : List.Forall₂ (Near g) found entries) :
    found.map Prod.fst = entries.map (Prod.fst : Key τ × TerminalSet → Key τ) := by
  induction h with
  | nil => rfl
  | cons h _ ih => rw [List.map_cons, List.map_cons, h.key, ih]

theorem exists_near_of_mem (h : List.Forall₂ (Near g) found entries) (hmem : (key, set) ∈ entries) :
    ∃ set', (key, set') ∈ found ∧ g.Within set' set := by
  induction h with
  | nil => cases hmem
  | @cons entry _ _ _ hnear _ ih =>
    obtain ⟨key', set'⟩ := entry
    rcases List.mem_cons.1 hmem with rfl | hmem
    · cases hnear.key
      exact ⟨set', List.mem_cons_self, hnear.set⟩
    · obtain ⟨set', hmem', hset'⟩ := ih hmem
      exact ⟨set', List.mem_cons_of_mem _ hmem', hset'⟩

/-! ## The keys are new -/

theorem follows_nodup (hg : g.WellFormed) (hrule : g.rules[r]? = some R) :
    ((R.body.follows g.exactRule ∅).map Prod.fst).Nodup :=
  ((R.body.leaves_perm g.exactRule ∅).nodup_iff.1 (hg.leaves hrule)).of_append_left

/-- The leaves selected are those with the symbols of targets. -/
def Selects (pick : Symbol RuleId → Option τ) (symbolOf : τ → Symbol RuleId) : Prop :=
  ∀ symbol target, pick symbol = some target ↔ symbol = symbolOf target

theorem references_selects : Selects references .rule := by
  rintro (_ | _) _ <;> simp [references]

theorem consumptions_selects : Selects consumptions .terminal := by
  rintro (_ | _) _ <;> simp [consumptions]

variable {symbolOf : τ → Symbol RuleId}

theorem mem_exactEntries_iff (hpick : Selects pick symbolOf) :
    (key, set) ∈ exactEntries pick g r ↔ key.enclosing = r ∧ ∃ R, g.rules[r]? = some R ∧
      ((symbolOf key.target, key.occurrence), set) ∈ R.body.follows g.exactRule ∅ := by
  unfold exactEntries
  cases hrule : g.rules[r]? with
  | none => simp
  | some R =>
    obtain ⟨target, occurrence, enclosing⟩ := key
    simp only [List.mem_filterMap, entryOf, Option.map_eq_some_iff, hpick _ _]
    constructor
    · rintro ⟨⟨⟨symbol, o⟩, after⟩, hmem, target, rfl, ⟨⟩⟩
      exact ⟨rfl, R, rfl, hmem⟩
    · rintro ⟨rfl, _, ⟨⟩, hmem⟩
      exact ⟨_, hmem, target, rfl, rfl⟩

theorem exactEntries_nodup (hg : g.WellFormed) (hpick : Selects pick symbolOf) (r : RuleId) :
    ((exactEntries pick g r).map Prod.fst).Nodup := by
  unfold exactEntries
  cases hrule : g.rules[r]? with
  | none => exact List.nodup_nil
  | some R =>
    have hleaves := List.pairwise_map.1 (follows_nodup hg hrule)
    refine List.pairwise_map.2 (hleaves.filterMap _ ?_)
    intro ⟨⟨symbol, o⟩, after⟩ ⟨⟨symbol', o'⟩, after'⟩ hne entry hentry entry' hentry' heq
    obtain ⟨target, htarget, rfl⟩ := Option.map_eq_some_iff.1 hentry
    obtain ⟨target', htarget', rfl⟩ := Option.map_eq_some_iff.1 hentry'
    cases heq
    rw [hpick] at htarget htarget'
    exact hne (Prod.mk.injEq .. ▸ ⟨htarget.trans htarget'.symm, rfl⟩)

theorem allEntries_nodup (hg : g.WellFormed) (hpick : Selects pick symbolOf) :
    ((g.ruleIds.flatMap (exactEntries pick g)).map Prod.fst).Nodup := by
  rw [List.map_flatMap, List.nodup_flatMap]
  refine ⟨fun r _ => exactEntries_nodup hg hpick r, List.nodup_range.imp fun {r r'} hne => ?_⟩
  intro key hkey hkey'
  obtain ⟨⟨_, set⟩, hentry, rfl⟩ := List.mem_map.1 hkey
  obtain ⟨⟨_, set'⟩, hentry', heq⟩ := List.mem_map.1 hkey'
  cases heq
  exact hne (((mem_exactEntries_iff hpick).1 hentry).1.symm.trans
    ((mem_exactEntries_iff hpick).1 hentry').1)

/-! ## What a table holds -/

variable [Ord τ] {t own : Table τ}

/-- The table holds entries near the given ones, and nothing else. -/
def Holds (g : Grammar) (t : Table τ) (entries : List (Key τ × TerminalSet)) : Prop :=
  ∃ found, t.toList.Perm found ∧ List.Forall₂ (Near g) found entries

theorem Holds.keys_perm (h : Holds g t entries) : t.keys.Perm (entries.map Prod.fst) := by
  obtain ⟨found, hperm, hnear⟩ := h
  exact map_fst_eq_of_near hnear ▸ hperm.map Prod.fst

theorem Holds.size (h : Holds g t entries) : t.size = entries.length := by
  simpa [Table.keys, Table.length_toList] using h.keys_perm.length_eq

variable [Std.TransOrd τ] [Std.LawfulEqOrd τ]

theorem Holds.get? (h : Holds g t entries) (hmem : (key, set) ∈ entries) :
    ∃ set', t.get? key = some set' ∧ g.Within set' set := by
  obtain ⟨found, hperm, hnear⟩ := h
  obtain ⟨set', hmem', hset'⟩ := exists_near_of_mem hnear hmem
  exact ⟨set', Table.mem_toList_iff.1 (hperm.mem_iff.2 hmem'), hset'⟩

/-- Compared with a direct computation of all sets, a table has the same keys, and sets within. -/
theorem Holds.rel {value : Option TerminalSet} (h : Holds g t entries)
    (hvalue : ∀ set, (key, set) ∈ entries ↔ value = some set) :
    Option.Rel g.Within (t.get? key) value := by
  cases hv : value with
  | some set =>
    obtain ⟨set', hget, hset'⟩ := h.get? ((hvalue set).2 hv)
    exact hget ▸ .some hset'
  | none =>
    cases hget : t.get? key with
    | none => exact .none
    | some set =>
      have hkey : key ∈ t.keys := Table.mem_keys_iff.2 (hget ▸ rfl)
      obtain ⟨⟨_, set'⟩, hmem, rfl⟩ := List.mem_map.1 (h.keys_perm.mem_iff.1 hkey)
      cases hv.symm.trans ((hvalue set').1 hmem)

/-! ## Building the tables -/

theorem firstOfRest_within (hg : g.WellFormed) (he : g.Ready e) (h : g.Reads rest after) :
    ∃ set e', firstOfRest g rest e = .ok (set, e') ∧ g.Ready e' ∧ g.Within set after := by
  obtain ⟨items, hitems, rfl⟩ := h
  obtain ⟨hready, hfits⟩ := he.restInfo hg rest
  have htree : g.restTree? rest = some (.group 0 .sequence items) := by simp [restTree?, hitems]
  obtain ⟨info, e', hq, hinfo⟩ := hfits htree
  refine ⟨info.first, e', by rw [firstOfRest, hq], hready hq, hinfo.first, fun ht => ?_⟩
  rw [hinfo.tame ht]

variable [DecidableEq τ] [KeyTarget τ]

theorem ofVisits_near (hg : g.WellFormed) (he : g.Ready e)
    (hmeets : List.Forall₂ g.Meets visits leaves)
    (hnew : ((leaves.filterMap (entryOf pick r)).map Prod.fst ++ t.keys).Nodup) :
    ∃ t' e' found, ofVisits pick g r visits t e = .ok (t', e') ∧ g.Ready e' ∧
      t'.toList.Perm (found ++ t.toList) ∧
      List.Forall₂ (Near g) found (leaves.filterMap (entryOf pick r)) := by
  induction hmeets generalizing t e with
  | nil => exact ⟨t, e, [], rfl, he, .refl _, .nil⟩
  | @cons v leaf visits leaves hmeet _ ih =>
    obtain ⟨⟨symbol, occurrence⟩, after⟩ := leaf
    obtain ⟨hleaf, hrest⟩ := hmeet
    obtain ⟨rfl, rfl⟩ := Prod.mk.inj hleaf
    rw [ofVisits]
    cases hpick : pick v.symbol with
    | none =>
      have hnone : entryOf pick r ((v.symbol, v.occurrence), after) = none := by
        simp [entryOf, hpick]
      rw [List.filterMap_cons_none hnone] at hnew ⊢
      exact ih he hnew
    | some target =>
      have hsome : entryOf pick r ((v.symbol, v.occurrence), after) =
          some ({ target, occurrence := v.occurrence, enclosing := r }, after) := by
        simp [entryOf, hpick]
      rw [List.filterMap_cons_some hsome] at hnew ⊢
      obtain ⟨set, e₁, hfirst, he₁, hwithin⟩ := firstOfRest_within hg he hrest
      obtain ⟨t₁, hrecord, hperm₁, hnew₁⟩ := Table.record_next g set hnew
      obtain ⟨t', e', found, hok, he', hperm, hnear⟩ := ih he₁ hnew₁
      refine ⟨t', e', ({ target, occurrence := v.occurrence, enclosing := r }, set) :: found, ?_,
        he', ?_, .cons ⟨rfl, hwithin⟩ hnear⟩
      · simp [hfirst, update, hrecord, bind, Except.bind, hok]
      · exact hperm.trans ((hperm₁.append_left _).trans List.perm_middle)

theorem ofRule_holds (hg : g.WellFormed) (he : g.Ready e) (hrule : g.rules[r]? = some R)
    (hnew : ((exactEntries pick g r).map Prod.fst).Nodup) :
    ∃ t e', ofRule pick g r e = .ok (t, e') ∧ g.Ready e' ∧ Holds g t (exactEntries pick g r) := by
  have hwalk := walk_follows hg (hg.bodies hrule) [] [] ∅ (.nil g)
  simp only [exactEntries, hrule] at hnew ⊢
  have hnew' : (((R.body.follows g.exactRule ∅).filterMap (entryOf pick r)).map Prod.fst ++
      ({} : Table τ).keys).Nodup := by simpa using hnew
  obtain ⟨t, e', found, hok, he', hperm, hnear⟩ := ofVisits_near hg he hwalk hnew'
  refine ⟨t, e', by rw [ofRule, Grammar.rule, hrule]; exact hok, he', found, ?_, hnear⟩
  simpa using hperm

theorem merge_holds (ht : Holds g t entries) (hown : Holds g own entries')
    (hnew : ((entries ++ entries').map Prod.fst).Nodup) :
    ∃ t', update t (Table.merge g own) = .ok t' ∧ Holds g t' (entries ++ entries') := by
  have hdisjoint : own.keys.Disjoint t.keys := by
    rw [List.map_append] at hnew
    intro key hkey hkey'
    refine List.disjoint_of_nodup_append hnew (ht.keys_perm.mem_iff.1 hkey') ?_
    exact hown.keys_perm.mem_iff.1 hkey
  obtain ⟨t', hmerge, hperm'⟩ := Table.merge_new g hdisjoint
  obtain ⟨found, hperm, hnear⟩ := ht
  obtain ⟨found', hperm'', hnear'⟩ := hown
  refine ⟨t', by rw [update, hmerge], found ++ found', ?_, List.rel_append hnear hnear'⟩
  exact hperm'.trans (List.perm_append_comm.trans (hperm.append hperm''))

/-- Rules whose keys are new can be added to a table. -/
theorem ofRules_holds (hg : g.WellFormed) (he : g.Ready e) (hrs : ∀ r ∈ rs, r < g.rules.size)
    (ht : Holds g t entries)
    (hnew : ((entries ++ rs.flatMap (exactEntries pick g)).map Prod.fst).Nodup) :
    ∃ t' e', ofRules pick g rs t e = .ok (t', e') ∧ g.Ready e' ∧
      Holds g t' (entries ++ rs.flatMap (exactEntries pick g)) := by
  induction rs generalizing t e entries with
  | nil => exact ⟨t, e, rfl, he, by simpa using ht⟩
  | cons r rs ih =>
    obtain ⟨hr, hrs⟩ := List.forall_mem_cons.1 hrs
    rw [List.flatMap_cons, ← List.append_assoc] at hnew ⊢
    have hnew₁ : ((entries ++ exactEntries pick g r).map Prod.fst).Nodup := by
      rw [List.map_append] at hnew
      exact hnew.of_append_left
    have hown : ((exactEntries pick g r).map Prod.fst).Nodup := by
      rw [List.map_append] at hnew₁
      exact hnew₁.of_append_right
    obtain ⟨own, e₁, hrule, he₁, hown⟩ := ofRule_holds hg he (Array.getElem?_eq_getElem hr) hown
    obtain ⟨t₁, hmerge, ht₁⟩ := merge_holds ht hown hnew₁
    obtain ⟨t', e', hok, he', ht'⟩ := ih he₁ hrs ht₁ hnew
    refine ⟨t', e', ?_, he', ht'⟩
    simp [ofRules, hrule, hmerge, hok, bind, Except.bind]

end Follow

namespace Grammar

open Follow

variable {g : Grammar} {r : RuleId} {R : Rule} {leaf : Symbol RuleId × Nat} {set : TerminalSet}

/-- What may come after a leaf within a rule, computed straight from the body of the rule with the
least solution of the FIRST equations. -/
def exactFollow? (g : Grammar) (enclosing : RuleId) (leaf : Symbol RuleId × Nat) :
    Option TerminalSet := do
  let R ← g.rules[enclosing]?
  (R.body.follows g.exactRule ∅).lookup leaf

private theorem lookup_eq_some_iff_mem [BEq α] [LawfulBEq α] {l : List (α × β)}
    (h : (l.map Prod.fst).Nodup) : l.lookup a = some b ↔ (a, b) ∈ l := by
  induction l with
  | nil => simp
  | cons p l ih =>
    obtain ⟨a', b'⟩ := p
    obtain ⟨hnew, hl⟩ := List.nodup_cons.1 h
    rw [List.lookup_cons, List.mem_cons, Prod.mk.injEq]
    cases ha : a == a' with
    | false => simp [ih hl, beq_eq_false_iff_ne.1 ha]
    | true =>
      obtain rfl := eq_of_beq ha
      have hmem : (a, b) ∉ l := fun hmem => hnew (List.mem_map.2 ⟨_, hmem, rfl⟩)
      simp [hmem, eq_comm]

theorem exactFollow?_eq_some_iff (hg : g.WellFormed) : g.exactFollow? r leaf = some set ↔
    ∃ R, g.rules[r]? = some R ∧ (leaf, set) ∈ R.body.follows g.exactRule ∅ := by
  rw [exactFollow?, Option.bind_eq_bind, Option.bind_eq_some_iff]
  refine exists_congr fun R => and_congr_right fun hrule => ?_
  exact lookup_eq_some_iff_mem (follows_nodup hg hrule)

/-- Something is assigned to the leaves of rules that can be matched. -/
theorem exactFollow?_isSome_iff (hg : g.WellFormed) : (g.exactFollow? r leaf).isSome ↔
    ∃ R, g.rules[r]? = some R ∧
      leaf ∈ R.body.leaves ∧ leaf ∉ R.body.idleSeparators.map Node.asLeaf := by
  rw [Option.isSome_iff_exists]
  simp only [exactFollow?_eq_some_iff hg]
  rw [exists_comm]
  refine exists_congr fun R => ?_
  rw [exists_and_left]
  refine and_congr_right fun hrule => ?_
  have hperm := R.body.leaves_perm g.exactRule ∅
  have hdisjoint := List.disjoint_of_nodup_append (hperm.nodup_iff.1 (hg.leaves hrule))
  have hmem : (∃ set, (leaf, set) ∈ R.body.follows g.exactRule ∅) ↔
      leaf ∈ (R.body.follows g.exactRule ∅).map Prod.fst := by simp
  rw [hmem, hperm.mem_iff, List.mem_append]
  exact ⟨fun h => ⟨.inl h, fun h' => hdisjoint h h'⟩, fun ⟨h, hidle⟩ => h.resolve_right hidle⟩

theorem reference_isSome_iff (hg : g.WellFormed) : (g.exactFollow? r (.rule target, o)).isSome ↔
    ∃ R, g.rules[r]? = some R ∧ (target, o) ∈ R.body.references := by
  simp [exactFollow?_isSome_iff hg, Node.mem_references_iff, Node.asLeaf]

theorem consumption_isSome_iff (hg : g.WellFormed) :
    (g.exactFollow? r (.terminal kind, o)).isSome ↔ ∃ R, g.rules[r]? = some R ∧
      (kind, o) ∈ R.body.terminals ∧ (kind, o) ∉ R.body.idleSeparators := by
  simp [exactFollow?_isSome_iff hg, Node.mem_terminals_iff, Node.asLeaf]

theorem mem_allEntries_iff (hg : g.WellFormed) (hpick : Selects pick symbolOf) :
    (key, set) ∈ g.ruleIds.flatMap (exactEntries pick g) ↔
      g.exactFollow? key.enclosing (symbolOf key.target, key.occurrence) = some set := by
  rw [exactFollow?_eq_some_iff hg, List.mem_flatMap]
  constructor
  · intro ⟨r, _, hmem⟩
    obtain ⟨rfl, hmem⟩ := (mem_exactEntries_iff hpick).1 hmem
    exact hmem
  · intro ⟨R, hrule, hmem⟩
    refine ⟨key.enclosing, ?_, (mem_exactEntries_iff hpick).2 ⟨rfl, R, hrule, hmem⟩⟩
    exact List.mem_range.2 (Array.getElem?_eq_some_iff.1 hrule).1

theorem ofRules_exact [Ord τ] [Std.TransOrd τ] [Std.LawfulEqOrd τ] [DecidableEq τ] [KeyTarget τ]
    {pick : Symbol RuleId → Option τ} (hg : g.WellFormed) (he : g.Ready e)
    (hpick : Selects pick symbolOf) :
    ∃ t e', ofRules pick g g.ruleIds {} e = .ok (t, e') ∧ g.Ready e' ∧
      Holds g t (g.ruleIds.flatMap (exactEntries pick g)) :=
  ofRules_holds hg he (fun _ hr => List.mem_range.1 hr) ⟨[], .refl _, .nil⟩
    (allEntries_nodup hg hpick)

theorem analyze_holds (hg : g.WellFormed) : ∃ a, g.analyze = .ok a ∧
    Holds g a.follows (g.ruleIds.flatMap (exactEntries references g)) ∧
    Holds g a.inRule (g.ruleIds.flatMap (exactEntries consumptions g)) := by
  obtain ⟨follows, e, hfollows, he, hholds⟩ := ofRules_exact hg (.fresh g) references_selects
  obtain ⟨inRule, e', hinRule, -, hholds'⟩ := ofRules_exact hg he consumptions_selects
  refine ⟨{ grammar := g, first := e'.finish g, follows, inRule }, ?_, hholds, hholds'⟩
  rw [analyze, betweenRules, hfollows]
  simp only [bind, Except.bind, inRules, hinRule]
  rfl

/-- The follow tables of every built grammar are right. They have an entry for a key iff something
is computed for the leaf straight from the body of the rule, which leaves out nothing but the
separators of optional bodies. Their sets lie within those computed, and are equal to them in a tame
grammar. -/
theorem follow_tables_exact (hg : g.Built) : g.LeastSolution g.exactRule ∧ ∃ a, g.analyze = .ok a ∧
    (∀ key, Option.Rel g.Within (a.follows.get? key)
      (g.exactFollow? key.enclosing (.rule key.target, key.occurrence))) ∧
    (∀ key, Option.Rel g.Within (a.inRule.get? key)
      (g.exactFollow? key.enclosing (.terminal key.target, key.occurrence))) ∧
    ∀ (r : RuleId) R, g.rules[r]? = some R →
      (∀ target o, (target, o) ∈ R.body.references →
        (g.exactFollow? r (.rule target, o)).isSome) ∧
      ∀ kind o, (kind, o) ∈ R.body.terminals →
        ((g.exactFollow? r (.terminal kind, o)).isSome ↔ (kind, o) ∉ R.body.idleSeparators) := by
  have hwf := hg.wellFormed
  obtain ⟨a, ha, hfollows, hinRule⟩ := analyze_holds hwf
  refine ⟨g.exactRule_least, a, ha, fun key => ?_, fun key => ?_, fun r R hrule =>
    ⟨fun target o hmem => ?_, fun kind o hmem => ?_⟩⟩
  · exact hfollows.rel fun set => mem_allEntries_iff hwf references_selects
  · exact hinRule.rel fun set => mem_allEntries_iff hwf consumptions_selects
  · exact (reference_isSome_iff hwf).2 ⟨R, hrule, hmem⟩
  · simp [consumption_isSome_iff hwf, hrule, hmem]

/-- Cells between commas, and an end mark. The separator of the end mark is never matched. -/
def rows : Draft where
  name := "rows"
  terminals := ["Comma", "Semi", "Item", "End"]
  rules :=
    [{ name := "row"
       body := .group .sequence [.loop .zeroOrMore (.leaf (.rule "cell") none) (some 0),
         .loop .optional (.leaf (.terminal 3) none) (some 1)] },
     { name := "cell", body := .loop .optional (.leaf (.terminal 2) none) none }]

/-- The grammar of rows. -/
def rowsBuilt : Grammar :=
  let comma := { id := 1, kind := 0, occurrence := 1 }
  let semi := { id := 4, kind := 1, occurrence := 1 }
  let cells := .loop 2 .zeroOrMore (.leaf 0 (.rule 1) 1) (some comma)
  let mark := .loop 5 .optional (.leaf 3 (.terminal 3) 1) (some semi)
  let row := .group 6 .sequence [cells, mark]
  let cell := .loop 8 .optional (.leaf 7 (.terminal 2) 1) none
  { name := "rows"
    registry :=
      { names := #["Comma", "Semi", "Item", "End"]
        byName := [("End", 3), ("Item", 2), ("Semi", 1), ("Comma", 0)] }
    nodes := #[.leaf 0 (.rule 1) 1, .leaf 1 (.terminal 0) 1, cells, .leaf 3 (.terminal 3) 1,
      .leaf 4 (.terminal 1) 1, mark, row, .leaf 7 (.terminal 2) 1, cell]
    rules := #[{ name := "row", body := row, resync := true },
      { name := "cell", body := cell, resync := true }]
    byName := [("cell", 1), ("row", 0)] }

theorem rows_build : rows.build = .ok rowsBuilt := by cbv

theorem rows_cell_follow :
    rowsBuilt.exactFollow? 0 (.rule 1, 1) = some (.single 0 ∪ .single 3) := by decide +kernel

theorem rows_semi_follow : rowsBuilt.exactFollow? 0 (.terminal 1, 1) = none := by decide +kernel

/-- A cell is followed by a comma or the end mark, and nothing is recorded for the separator of the
end mark. -/
theorem rows_follow_exact : ∃ a set, rowsBuilt.analyze = .ok a ∧
    a.follows.get? { target := 1, occurrence := 1, enclosing := 0 } = some set ∧
    rowsBuilt.Within set (.single 0 ∪ .single 3) ∧
    a.inRule.get? { target := 1, occurrence := 1, enclosing := 0 } = none := by
  obtain ⟨-, a, ha, hfollows, hinRule, -⟩ := follow_tables_exact (Draft.built rows_build)
  have hcell := rows_cell_follow ▸ hfollows { target := 1, occurrence := 1, enclosing := 0 }
  have hsemi := rows_semi_follow ▸ hinRule { target := 1, occurrence := 1, enclosing := 0 }
  cases hset : a.follows.get? { target := 1, occurrence := 1, enclosing := 0 } with
  | none =>
    rw [hset] at hcell
    cases hcell
  | some set =>
    rw [hset, Option.rel_some_some] at hcell
    cases hnone : a.inRule.get? { target := 1, occurrence := 1, enclosing := 0 } with
    | none => exact ⟨a, set, ha, hset, hcell, hnone⟩
    | some set' =>
      rw [hnone] at hsemi
      cases hsemi

private theorem isSome_eq_of_rel (h : Option.Rel p a b) : a.isSome = b.isSome := by
  cases h <;> rfl

/-- The exact entries of a rule for its references name these. -/
theorem references_perm (hrule : g.rules[r]? = some R) : R.body.references.Perm
    ((exactEntries references g r).map fun entry => (entry.1.target, entry.1.occurrence)) := by
  let target? (leaf : Symbol RuleId × Nat) := (references leaf.1).map (·, leaf.2)
  have hleaves : R.body.references = R.body.leaves.filterMap target? :=
    List.filterMap_congr fun leaf _ => by rcases leaf with ⟨_ | _, _⟩ <;> rfl
  have hidle : (R.body.idleSeparators.map Node.asLeaf).filterMap target? = [] := by
    simp [target?, references, Node.asLeaf]
  have hfollows : ((R.body.follows g.exactRule ∅).map Prod.fst).filterMap target? =
      (exactEntries references g r).map fun entry => (entry.1.target, entry.1.occurrence) := by
    simp only [exactEntries, hrule, List.filterMap_map, List.map_filterMap]
    exact List.filterMap_congr fun leaf _ => by simp [target?, entryOf, Function.comp_def]
  have hperm := (R.body.leaves_perm g.exactRule ∅).filterMap target?
  rwa [List.filterMap_append, hidle, List.append_nil, hfollows, ← hleaves] at hperm

/-- Analysing a built grammar never fails. The tables have exactly one entry for each rule reference
and for each consumed kind, the separators of optional bodies apart. -/
theorem analyze_covers_leaves (hg : g.Built) : ∃ a, g.analyze = .ok a ∧
    (∀ key, (a.follows.get? key).isSome ↔ ∃ R, g.rules[key.enclosing]? = some R ∧
      (key.target, key.occurrence) ∈ R.body.references) ∧
    (∀ key, (a.inRule.get? key).isSome ↔ ∃ R, g.rules[key.enclosing]? = some R ∧
      (key.target, key.occurrence) ∈ R.body.terminals ∧
      (key.target, key.occurrence) ∉ R.body.idleSeparators) ∧
    a.follows.size = (g.rules.toList.map fun R => R.body.references.length).sum := by
  have hwf := hg.wellFormed
  obtain ⟨a, ha, hfollows, hinRule⟩ := analyze_holds hwf
  refine ⟨a, ha, fun key => ?_, fun key => ?_, ?_⟩
  · have hrel : Option.Rel g.Within (a.follows.get? key) _ :=
      hfollows.rel fun set => mem_allEntries_iff hwf references_selects
    rw [isSome_eq_of_rel hrel, reference_isSome_iff hwf]
  · have hrel : Option.Rel g.Within (a.inRule.get? key) _ :=
      hinRule.rel fun set => mem_allEntries_iff hwf consumptions_selects
    rw [isSome_eq_of_rel hrel, consumption_isSome_iff hwf]
  · rw [hfollows.size, List.length_flatMap]
    refine congrArg List.sum (List.ext_getElem (by simp [ruleIds]) fun r hr hr' => ?_)
    have hr : r < g.rules.size := by simpa using hr'
    simpa [ruleIds] using (references_perm (Array.getElem?_eq_getElem hr)).length_eq.symm

/-- Rows have one reference, which is to cells. -/
theorem rows_covered : ∃ a, rowsBuilt.analyze = .ok a ∧ a.follows.size = 1 ∧
    (a.follows.get? { target := 1, occurrence := 1, enclosing := 0 }).isSome := by
  obtain ⟨a, ha, hfollows, -, hsize⟩ := analyze_covers_leaves (Draft.built rows_build)
  exact ⟨a, ha, hsize, (hfollows _).2 ⟨_, rfl, List.mem_cons_self⟩⟩

end Grammar

end Descent
