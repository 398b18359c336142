import Descent.Proofs.Follow.Tables

/-!
# Merging tables

Merging records the entries of one table in another, one by one and up to the first key that is
there already. The order in which the entries are visited is left open here (`Table.Listing`). Where
the tables have no key in common it plays no role: merging is disjoint union (`Table.mergeBy_new`),
and any number of tables can be merged in any order and grouping (`Table.Grouping.eval_new`). Where
they have, the merge stops at some key of both, and `Table.mergeBy_collided` says what it leaves
behind.
-/

namespace Descent

variable {τ : Type} [Ord τ]

/-- The order of keys: by target, then by occurrence, then by the rule around the leaf. -/
def Key.Precedes (a b : Key τ) : Prop :=
  compare a.target b.target = .lt ∨ a.target = b.target ∧
    (a.occurrence < b.occurrence ∨ a.occurrence = b.occurrence ∧ a.enclosing < b.enclosing)

theorem Key.compare_eq_lt_iff [Std.LawfulEqOrd τ] {a b : Key τ} :
    compare a b = .lt ↔ a.Precedes b := by
  rw [compare_def, Ordering.then_eq_lt, Ordering.then_eq_lt, Std.LawfulEqOrd.compare_eq_iff_eq,
    Std.LawfulEqOrd.compare_eq_iff_eq, Nat.compare_eq_lt, Nat.compare_eq_lt]
  rfl

namespace Table

/-- The entries of every table, listed in some order. -/
structure Listing (τ : Type) [Ord τ] where
  entries : Table τ → List (Key τ × TerminalSet)
  perm : ∀ t, (entries t).Perm t.toList

/-- The entries in the order of their keys. -/
def Listing.ascending : Listing τ := ⟨toList, fun t => .refl t.toList⟩

variable {t u t' : Table τ} {g : Grammar} {listing : Listing τ} {key : Key τ} {set : TerminalSet}
  {entries front back : List (Key τ × TerminalSet)} {failure : Failure}

/-! ## The entries of a table -/

section

variable [Std.TransOrd τ] [Std.LawfulEqOrd τ]

theorem toList_eq_iff : t.toList = u.toList ↔ ∀ key, t.get? key = u.get? key := by
  constructor
  · intro h key
    refine Option.ext fun set => ?_
    rw [← mem_toList_iff, ← mem_toList_iff, h]
  · exact fun h => Std.TreeMap.equiv_iff_toList_eq.1 (.of_forall_constGet?_eq h)

theorem toList_precedes (t : Table τ) : t.toList.Pairwise fun a b => a.1.Precedes b.1 :=
  Std.TreeMap.ordered_keys_toList.imp Key.compare_eq_lt_iff.1

theorem beq_iff [DecidableEq τ] : t.beq u = true ↔ ∀ key, t.get? key = u.get? key :=
  beq_iff_eq.trans toList_eq_iff

theorem mem_keys_of_get? (h : t.get? key = some set) : key ∈ t.keys := mem_keys_iff.2 (h ▸ rfl)

theorem get?_of_perm (h : t.toList.Perm (entries ++ u.toList)) :
    t.get? key = some set ↔ (key, set) ∈ entries ∨ u.get? key = some set := by
  rw [← mem_toList_iff, h.mem_iff, List.mem_append, mem_toList_iff]

theorem Listing.mem_entries_iff : (key, set) ∈ listing.entries t ↔ t.get? key = some set :=
  (listing.perm t).mem_iff.trans mem_toList_iff

end

theorem Listing.keys_perm (listing : Listing τ) (t : Table τ) :
    ((listing.entries t).map Prod.fst).Perm t.keys :=
  (listing.perm t).map Prod.fst

/-- The entries of a table up to the first one whose key is in another table too. -/
theorem exists_first_common [DecidableEq τ] (listing : Listing τ)
    (h : ¬ t.keys.Disjoint u.keys) :
    ∃ front key set back, listing.entries u = front ++ (key, set) :: back ∧ key ∈ t.keys ∧
      ∀ entry ∈ front, entry.1 ∉ t.keys := by
  obtain ⟨key, hkey, hkey'⟩ : ∃ key, key ∈ t.keys ∧ key ∈ u.keys := by
    simpa [List.Disjoint] using h
  obtain ⟨entry, hentry, rfl⟩ := List.mem_map.1 hkey'
  have hfind : ((listing.entries u).find? (·.1 ∈ t.keys)).isSome := by
    rw [List.find?_isSome]
    exact ⟨entry, (listing.perm u).mem_iff.2 hentry, by simpa using hkey⟩
  obtain ⟨⟨key, set⟩, hfind⟩ := Option.isSome_iff_exists.1 hfind
  obtain ⟨hmem, front, back, hentries, hfront⟩ := List.find?_eq_some_iff_append.1 hfind
  refine ⟨front, key, set, back, hentries, by simpa using hmem, fun entry hentry => ?_⟩
  simpa using hfront entry hentry

variable [KeyTarget τ]

/-- Records the entries of another table in the order in which they are listed. -/
def mergeBy (g : Grammar) (listing : Listing τ) (other : Table τ) :
    EStateM Failure (Table τ) Unit :=
  recordAll g (listing.entries other)

theorem mergeBy_ascending (g : Grammar) (other : Table τ) :
    mergeBy g .ascending other = merge g other :=
  rfl

theorem recordAll_append (g : Grammar) (front back : List (Key τ × TerminalSet)) (t : Table τ) :
    recordAll g (front ++ back) t =
      EStateM.bind (recordAll g front) (fun _ => recordAll g back) t := by
  induction front generalizing t with
  | nil => rfl
  | cons entry front ih =>
    obtain ⟨key, set⟩ := entry
    change EStateM.bind (record g key set) (fun _ => recordAll g (front ++ back)) t =
      EStateM.bind (EStateM.bind (record g key set) fun _ => recordAll g front)
        (fun _ => recordAll g back) t
    unfold EStateM.bind
    cases record g key set t with
    | error => rfl
    | ok _ t' => exact ih t'

variable [Std.TransOrd τ] [Std.LawfulEqOrd τ] [DecidableEq τ]

/-! ## Tables without a common key -/

theorem mergeBy_new (g : Grammar) (listing : Listing τ) (hnew : t.keys.Disjoint u.keys) :
    ∃ t', mergeBy g listing u t = .ok () t' ∧ t'.toList.Perm (u.toList ++ t.toList) := by
  have hkeys : ((listing.entries u).map Prod.fst ++ t.keys).Nodup := by
    rw [((listing.keys_perm u).append_right t.keys).nodup_iff]
    exact keys_nodup.append keys_nodup fun _ hu ht => hnew ht hu
  obtain ⟨t', hmerge, hentries⟩ := recordAll_new g hkeys
  exact ⟨t', hmerge, hentries.trans ((listing.perm u).append_right _)⟩

/-- Tables merged in some order and grouping, the entries of each being visited in some order. -/
inductive Grouping (τ : Type) [Ord τ] where
  | single (t : Table τ)
  | merged (listing : Listing τ) (left right : Grouping τ)

namespace Grouping

/-- The tables that are merged, from left to right. -/
def tables : Grouping τ → List (Table τ)
  | .single t => [t]
  | .merged _ left right => left.tables ++ right.tables

/-- Merges the right table into the left one at every step. -/
def eval (g : Grammar) : Grouping τ → Except Failure (Table τ)
  | .single t => .ok t
  | .merged listing left right => do
    let t ← left.eval g
    let u ← right.eval g
    Follow.update t (mergeBy g listing u)

theorem eval_new (g : Grammar) (plan : Grouping τ)
    (hnew : plan.tables.Pairwise fun t u => t.keys.Disjoint u.keys) :
    ∃ t, plan.eval g = .ok t ∧ t.toList.Perm (plan.tables.flatMap toList) := by
  induction plan with
  | single t => exact ⟨t, rfl, by simp [tables]⟩
  | merged listing left right ihl ihr =>
    obtain ⟨hl, hr, hcross⟩ := List.pairwise_append.1 hnew
    obtain ⟨t, ht, htperm⟩ := ihl hl
    obtain ⟨u, hu, huperm⟩ := ihr hr
    have hmem {v : Table τ} {tables : List (Table τ)} {key : Key τ}
        (hperm : v.toList.Perm (tables.flatMap toList)) (hkey : key ∈ v.keys) :
        ∃ w ∈ tables, key ∈ w.keys := by
      have hkey' := (hperm.map Prod.fst).mem_iff.1 hkey
      rw [List.map_flatMap, List.mem_flatMap] at hkey'
      exact hkey'
    have hdisjoint : t.keys.Disjoint u.keys := by
      intro key hkey hkey'
      obtain ⟨v, hv, hkey⟩ := hmem htperm hkey
      obtain ⟨w, hw, hkey'⟩ := hmem huperm hkey'
      exact hcross v hv w hw hkey hkey'
    obtain ⟨t', hmerge, hperm⟩ := mergeBy_new g listing hdisjoint
    refine ⟨t', ?_, ?_⟩
    · simp [eval, ht, hu, Follow.update, hmerge, bind, Except.bind]
    · rw [tables, List.flatMap_append]
      exact hperm.trans (List.perm_append_comm.trans (htperm.append huperm))

end Grouping

/-! ## Tables with a common key -/

theorem record_known (g : Grammar) (set : TerminalSet) (hkey : key ∈ t.keys) :
    ∃ t', record g key set t = .error (keyError g key .duplicateKey) t' ∧
      ∀ k, t'.get? k = if key = k then some set else t.get? k := by
  have hcontains : t.entries.contains key = true := by
    rwa [mem_keys_iff, get?, ← Std.TreeMap.contains_eq_isSome_getElem?] at hkey
  have hrecord : record g key set t =
      .error (keyError g key .duplicateKey) ⟨t.entries.insert key set⟩ := by
    simp [record, hcontains]
  refine ⟨_, hrecord, fun k => ?_⟩
  rw [← get?_after_record g, after, hrecord]

/-- Recording stops at the first key that is there, once that key has its new set. -/
theorem recordAll_stops (g : Grammar) (set : TerminalSet) (back : List (Key τ × TerminalSet))
    (hkey : key ∈ t.keys) (hnew : (front.map Prod.fst ++ t.keys).Nodup) :
    ∃ t₁ t' : Table τ, t₁.toList.Perm (front ++ t.toList) ∧
      recordAll g (front ++ (key, set) :: back) t = .error (keyError g key .duplicateKey) t' ∧
      ∀ k, t'.get? k = if key = k then some set else t₁.get? k := by
  obtain ⟨t₁, hfront, hperm⟩ := recordAll_new g hnew
  have hkeys : t₁.keys.Perm (front.map Prod.fst ++ t.keys) := by
    simpa [keys] using hperm.map Prod.fst
  have hkey' : key ∈ t₁.keys := hkeys.mem_iff.2 (List.mem_append_right _ hkey)
  obtain ⟨t', hrecord, hget⟩ := record_known g set hkey'
  refine ⟨t₁, t', hperm, ?_, hget⟩
  rw [recordAll_append, EStateM.bind, hfront]
  change EStateM.bind (record g key set) (fun _ => recordAll g back) t₁ = _
  rw [EStateM.bind, hrecord]

/-- What is left of the first table once a merge of the second one has met a key of both. -/
structure Collided (g : Grammar) (t u : Table τ) (failure : Failure) (t' : Table τ) : Prop where
  /-- The failure gives the text of such a key, if the key has one. -/
  reported : ∃ key ∈ t.keys, key ∈ u.keys ∧
    (∀ text, key.text g = .ok text → failure = .malformed (.duplicateKey text)) ∧
    ∀ fault, key.text g = .error fault → failure = .broken fault
  stays : ∀ key ∈ t.keys, key ∈ t'.keys
  /-- Keys of the first table only have their set, and keys of neither table have none. -/
  untouched : ∀ key, key ∉ u.keys → t'.get? key = t.get? key
  added : ∀ key, key ∉ t.keys → t'.get? key = none ∨ t'.get? key = u.get? key

theorem mergeBy_collided (g : Grammar) (listing : Listing τ) (h : ¬ t.keys.Disjoint u.keys) :
    ∃ failure t', mergeBy g listing u t = .error failure t' ∧ Collided g t u failure t' := by
  obtain ⟨front, key, set, back, hentries, hkey, hfront⟩ := exists_first_common listing h
  have hmem {k s} : (k, s) ∈ front → u.get? k = some s := by
    intro hin
    rw [← listing.mem_entries_iff, hentries]
    exact List.mem_append_left _ hin
  have hkey' : key ∈ u.keys := by
    have hin : (key, set) ∈ listing.entries u := hentries ▸ List.mem_append_cons_self
    exact mem_keys_of_get? ((listing.mem_entries_iff).1 hin)
  have hnew : (front.map Prod.fst ++ t.keys).Nodup := by
    have hall := (listing.keys_perm u).nodup_iff.2 keys_nodup
    rw [hentries, List.map_append] at hall
    refine (List.nodup_append'.1 hall).1.append keys_nodup fun k hk hk' => ?_
    obtain ⟨entry, hentry, rfl⟩ := List.mem_map.1 hk
    exact hfront entry hentry hk'
  obtain ⟨t₁, t', hperm, hstops, hget⟩ := recordAll_stops g set back hkey hnew
  have hbefore {k s} : t₁.get? k = some s ↔ (k, s) ∈ front ∨ t.get? k = some s :=
    get?_of_perm hperm
  have hother {k} (hne : key ≠ k) : t'.get? k = t₁.get? k := (hget k).trans (if_neg hne)
  refine ⟨_, t', (congrArg (recordAll g · t) hentries).trans hstops, ?_, ?_, ?_, ?_⟩
  · refine ⟨key, hkey, hkey', fun text htext => ?_, fun fault hfault => ?_⟩
    · rw [keyError, htext]
    · rw [keyError, hfault]
  · intro k hk
    obtain ⟨s, hs⟩ := Option.isSome_iff_exists.1 (mem_keys_iff.1 hk)
    by_cases hne : key = k
    · exact mem_keys_of_get? ((hget k).trans (if_pos hne))
    · exact mem_keys_of_get? ((hother hne).trans (hbefore.2 (.inr hs)))
  · intro k hk
    rw [hother (ne_of_mem_of_not_mem hkey' hk)]
    refine Option.ext fun s => hbefore.trans (or_iff_right fun hin => ?_)
    exact hk (mem_keys_of_get? (hmem hin))
  · intro k hk
    rw [hother (ne_of_mem_of_not_mem hkey hk)]
    cases hs : t₁.get? k with
    | none => exact .inl rfl
    | some s =>
      have hin := (hbefore.1 hs).resolve_right fun hold => hk (mem_keys_of_get? hold)
      exact .inr (hmem hin).symm

/-! ## Disjoint union -/

/-- Merging is disjoint union, in whatever order entries are visited; `merge` visits them in the
order of their keys. It succeeds exactly if no key is in both tables. Then every key has the set
that it has in one of them, and tables without common keys can be merged in any order and grouping,
with equal results. Otherwise a key of both is reported; no key of the first table is lost, and what
is added comes from the second one. The list of a table is strictly ascending and has exactly its
entries, so equal tables are those with equal lists. -/
theorem merge_is_disjoint_union (g : Grammar) (listing : Listing τ) (t u : Table τ) :
    mergeBy g .ascending u = merge g u ∧
    ((∃ t', mergeBy g listing u t = .ok () t') ↔ t.keys.Disjoint u.keys) ∧
    (∀ t', mergeBy g listing u t = .ok () t' →
      (∀ key set, t'.get? key = some set ↔ t.get? key = some set ∨ u.get? key = some set) ∧
      t'.size = t.size + u.size) ∧
    (∀ failure t', mergeBy g listing u t = .error failure t' → Collided g t u failure t') ∧
    (∀ plan plan' : Grouping τ, plan.tables.Pairwise (fun v w => v.keys.Disjoint w.keys) →
      plan.tables.Perm plan'.tables → ∃ v v', plan.eval g = .ok v ∧ plan'.eval g = .ok v' ∧
        v.beq v' = true ∧
        ∀ key set, v.get? key = some set ↔ ∃ w ∈ plan.tables, w.get? key = some set) ∧
    t.toList.Pairwise (fun a b => a.1.Precedes b.1) ∧
    (∀ key set, (key, set) ∈ t.toList ↔ t.get? key = some set) ∧
    (t.beq u = true ↔ ∀ key, t.get? key = u.get? key) ∧
    (t.toList = u.toList ↔ ∀ key, t.get? key = u.get? key) := by
  have hdisjoint {t'} (h : mergeBy g listing u t = .ok () t') : t.keys.Disjoint u.keys := by
    by_contra hcommon
    obtain ⟨failure, t'', hfails, -⟩ := mergeBy_collided g listing hcommon
    cases h.symm.trans hfails
  refine ⟨mergeBy_ascending g u, ⟨fun h => hdisjoint h.choose_spec, fun h => ?_⟩, fun t' h => ?_,
    fun failure t' h => ?_, fun plan plan' hnew hperm => ?_, t.toList_precedes,
    fun key set => mem_toList_iff, beq_iff, toList_eq_iff⟩
  · obtain ⟨t', hmerge, -⟩ := mergeBy_new g listing h
    exact ⟨t', hmerge⟩
  · obtain ⟨t'', hmerge, hperm⟩ := mergeBy_new g listing (hdisjoint h)
    cases h.symm.trans hmerge
    refine ⟨fun key set => ?_, ?_⟩
    · rw [get?_of_perm hperm, mem_toList_iff, or_comm]
    · rw [← length_toList, hperm.length_eq, List.length_append, length_toList, length_toList,
        Nat.add_comm]
  · have hcommon : ¬ t.keys.Disjoint u.keys := by
      intro hnew
      obtain ⟨t'', hmerge, -⟩ := mergeBy_new g listing hnew
      cases h.symm.trans hmerge
    obtain ⟨failure', t'', hfails, hcollided⟩ := mergeBy_collided g listing hcommon
    cases h.symm.trans hfails
    exact hcollided
  · have hsymm {v w : Table τ} (h : v.keys.Disjoint w.keys) : w.keys.Disjoint v.keys :=
      fun _ hw hv => h hv hw
    have hnew' := (hperm.pairwise_iff hsymm).1 hnew
    obtain ⟨v, hv, hentries⟩ := plan.eval_new g hnew
    obtain ⟨v', hv', hentries'⟩ := plan'.eval_new g hnew'
    have hsame := hentries.trans ((hperm.flatMap_right toList).trans hentries'.symm)
    refine ⟨v, v', hv, hv', ?_, fun key set => ?_⟩
    · exact beq_iff_eq.2 (Std.TreeMap.equiv_iff_toList_eq.1 (.of_toList_perm hsame))
    · rw [← mem_toList_iff, hentries.mem_iff]
      simp only [List.mem_flatMap, mem_toList_iff]

/-- A grammar of two rules; only their names matter. -/
def twoRules : Grammar where
  name := "two"
  registry := {}
  nodes := #[]
  rules := #[{ name := "row", body := default, resync := true },
    { name := "cell", body := default, resync := true }]
  byName := [("cell", 1), ("row", 0)]

/-- A table with the given entries; of entries with one key the last one counts. -/
def ofList (entries : List (FollowKey × TerminalSet)) : FollowTable :=
  ⟨entries.foldl (fun t entry => t.insert entry.1 entry.2) {}⟩

/-- Two references to the second rule inside of the first one. -/
def cells : FollowTable := ofList [(⟨1, 2, 0⟩, .single 4), (⟨1, 1, 0⟩, .single 3)]

/-- A reference to the first rule inside of the second one. -/
def nested : FollowTable := ofList [(⟨0, 1, 1⟩, .single 5)]

/-- The second of `cells` again, and a new key after it. -/
def repeated : FollowTable := ofList [(⟨1, 3, 0⟩, .single 7), (⟨1, 2, 0⟩, .single 6)]

/-- Tables without a common key are merged in either order. Where there is a common key it is
reported by its text. -/
theorem cells_merged :
    (∃ t, merge twoRules nested cells = .ok () t ∧ t.size = 3) ∧
    (∃ v v', Grouping.eval twoRules (.merged .ascending (.single cells) (.single nested)) = .ok v ∧
      Grouping.eval twoRules (.merged .ascending (.single nested) (.single cells)) = .ok v' ∧
      v.beq v' = true) ∧
    ∃ t, merge twoRules repeated cells = .error (.malformed (.duplicateKey "cell2_~IN~_row")) t ∧
      Collided twoRules cells repeated (.malformed (.duplicateKey "cell2_~IN~_row")) t := by
  have hcells : cells.keys = [⟨1, 1, 0⟩, ⟨1, 2, 0⟩] := by decide
  have hnested : nested.keys = [⟨0, 1, 1⟩] := by decide
  have hnew : cells.keys.Disjoint nested.keys := by simp [hcells, hnested]
  have hfails : merge twoRules repeated cells =
      .error (.malformed (.duplicateKey "cell2_~IN~_row"))
        (after (merge twoRules repeated) cells) :=
    rfl
  obtain ⟨hmerge, hok, hsize, -, hplans, -⟩ :=
    merge_is_disjoint_union twoRules .ascending cells nested
  obtain ⟨-, -, -, hcollided, -⟩ := merge_is_disjoint_union twoRules .ascending cells repeated
  refine ⟨?_, ?_, _, hfails, hcollided _ _ hfails⟩
  · obtain ⟨t, ht⟩ := hok.2 hnew
    exact ⟨t, hmerge ▸ ht, (hsize t ht).2.trans (by decide)⟩
  · obtain ⟨v, v', hv, hv', hsame, -⟩ := hplans
      (.merged .ascending (.single cells) (.single nested))
      (.merged .ascending (.single nested) (.single cells))
      (List.pairwise_pair.2 hnew) (.swap _ _ _)
    exact ⟨v, v', hv, hv', hsame⟩

end Table

end Descent
