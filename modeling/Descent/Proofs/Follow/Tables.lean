import Descent.Follow.Basic
import Mathlib.Data.List.Nodup

/-!
# Tables as lists of entries

A table is the list of its entries, up to order. Recording a new key adds an entry, and merging
tables that have no key in common puts their entries together. Neither fails then.
-/

namespace Descent.Table

variable {τ : Type} [Ord τ] {t own : Table τ} {key : Key τ} {set : TerminalSet}

/-- The keys of a table, in order. -/
def keys (t : Table τ) : List (Key τ) := t.toList.map Prod.fst

@[simp] theorem toList_empty : ({} : Table τ).toList = [] := rfl

@[simp] theorem keys_empty : ({} : Table τ).keys = [] := rfl

theorem length_toList : t.toList.length = t.size := Std.TreeMap.length_toList

variable [Std.TransOrd τ] [Std.LawfulEqOrd τ]

theorem mem_toList_iff : (key, set) ∈ t.toList ↔ t.get? key = some set :=
  Std.TreeMap.mem_toList_iff_getElem?_eq_some

theorem mem_keys_iff : key ∈ t.keys ↔ (t.get? key).isSome := by
  simp [keys, mem_toList_iff, Option.isSome_iff_exists]

theorem keys_nodup : t.keys.Nodup := by
  refine List.Pairwise.map _ (fun a b hne => ?_) Std.TreeMap.distinct_keys_toList
  exact fun heq => hne (heq ▸ Std.ReflCmp.compare_self)

variable [DecidableEq τ] [KeyTarget τ]

theorem record_new (g : Grammar) (set : TerminalSet) (hnew : key ∉ t.keys) :
    ∃ t', record g key set t = .ok () t' ∧ t'.toList.Perm ((key, set) :: t.toList) := by
  have hcontains : t.entries.contains key = false := by
    rw [mem_keys_iff, get?, ← Std.TreeMap.contains_eq_isSome_getElem?] at hnew
    exact Bool.eq_false_iff.2 hnew
  refine ⟨⟨t.entries.insert key set⟩, by simp [record, hcontains], ?_⟩
  have hperm : (t.entries.insert key set).toList.Perm
      ((key, set) :: t.entries.toList.filter (¬key == ·.1)) := Std.TreeMap.toList_insert_perm
  rwa [List.filter_eq_self.2] at hperm
  intro entry hentry
  have hne : key ≠ entry.1 := fun heq => hnew (heq ▸ List.mem_map_of_mem hentry)
  simpa using hne

/-- Recording the first of several new keys leaves the others new. -/
theorem record_next (g : Grammar) (set : TerminalSet) {keys : List (Key τ)}
    (hnew : (key :: (keys ++ t.keys)).Nodup) :
    ∃ t', record g key set t = .ok () t' ∧ t'.toList.Perm ((key, set) :: t.toList) ∧
      (keys ++ t'.keys).Nodup := by
  obtain ⟨hkey, -⟩ := List.nodup_cons.1 hnew
  obtain ⟨t', hrecord, hperm⟩ := record_new g set fun h => hkey (List.mem_append_right _ h)
  have hkeys : t'.keys.Perm (key :: t.keys) := hperm.map Prod.fst
  refine ⟨t', hrecord, hperm, (List.Perm.nodup_iff ?_).1 hnew⟩
  exact List.perm_middle.symm.trans (hkeys.symm.append_left _)

theorem recordAll_new (g : Grammar) {entries : List (Key τ × TerminalSet)}
    (hnew : (entries.map Prod.fst ++ t.keys).Nodup) :
    ∃ t', recordAll g entries t = .ok () t' ∧ t'.toList.Perm (entries ++ t.toList) := by
  induction entries generalizing t with
  | nil => exact ⟨t, rfl, .refl _⟩
  | cons entry entries ih =>
    obtain ⟨key, set⟩ := entry
    obtain ⟨t', hrecord, hperm, hnew'⟩ := record_next g set hnew
    obtain ⟨t'', hrest, hperm'⟩ := ih hnew'
    refine ⟨t'', ?_, hperm'.trans ((hperm.append_left _).trans List.perm_middle)⟩
    change EStateM.bind (record g key set) (fun _ => recordAll g entries) t = _
    rw [EStateM.bind, hrecord]
    exact hrest

theorem merge_new (g : Grammar) (hnew : own.keys.Disjoint t.keys) :
    ∃ t', merge g own t = .ok () t' ∧ t'.toList.Perm (own.toList ++ t.toList) :=
  recordAll_new g (keys_nodup.append keys_nodup hnew)

end Descent.Table
