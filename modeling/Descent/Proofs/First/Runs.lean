import Descent.First.Query
import Mathlib.Data.List.Range
import Mathlib.Data.List.Perm.Subperm

/-!
# Runs of the FIRST search

`Search.Runs g t e s e'` says that searching `t` from the engine `e` finds `s` and leaves `e'`
behind. It has a rule for each thing the search can do, and no budget: `Search.node_runs` and
`Search.rule_runs` show that the search runs like this whenever its budget covers the rules that
are not active, which is the case for every question asked from outside.

What holds of all runs is proved by induction over them. Here this is done for the active rules,
which every run leaves as it found them, and for the rules a result is pending on, which are
always active.
-/

namespace Descent.Search

/-- What is searched. -/
inductive Task where
  /-- A tree, for which something may be remembered. -/
  | node (n : Node)
  /-- A tree, whatever is remembered for it. -/
  | inside (n : Node)
  | items (ns : List Node)
  | branches (ns : List Node)
  | rule (r : RuleId)

/-- A tree that means what the task means. -/
def Task.tree : Task → Node
  | .node n | .inside n => n
  | .items ns => .group 0 .sequence ns
  | .branches ns => .group 0 .alternation ns
  | .rule r => .leaf 0 (.rule r) 0

/-- Searching the task from the first engine gives the result and the second engine. -/
inductive Runs (g : Grammar) : Task → Engine → Scan → Engine → Prop where
  | remembered : e.memo[n.id]? = some info → Runs g (.node n) e { info } e
  | searched : e.memo[n.id]? = none → Runs g (.inside n) e s e' →
    Runs g (.node n) e s (keep n.id s e').2
  | token :
    Runs g (.inside (.leaf i (.terminal kind) occurrence)) e { info.first := .single kind } e
  | reference : Runs g (.rule r) e s e' → Runs g (.inside (.leaf i (.rule r) occurrence)) e s e'
  | row : shape ≠ .alternation → Runs g (.items items) e s e' →
    Runs g (.inside (.group i shape items)) e s e'
  | choice : Runs g (.branches branches) e s e' →
    Runs g (.inside (.group i .alternation branches)) e s e'
  | loop : Runs g (.node body) e s e' →
    Runs g (.inside (.loop i kind body separator)) e (s.loop kind) e'
  | noItem : Runs g (.items []) e { info.nullable := true } e
  | lastItem : Runs g (.node item) e s e' → s.info.nullable = false →
    Runs g (.items (item :: items)) e s e'
  | item : Runs g (.node item) e s e' → s.info.nullable = true → Runs g (.items items) e' t e'' →
    Runs g (.items (item :: items)) e (s.andThen t) e''
  | noBranch : Runs g (.branches []) e {} e
  | branch : Runs g (.node branch) e s e' → Runs g (.branches branches) e' t e'' →
    Runs g (.branches (branch :: branches)) e (s.orElse t) e''
  | cut : r ∈ e.active → Runs g (.rule r) e { pending := [r] } (e.approximate r)
  | unknown : r ∉ e.active → g.rules[r]? = none → Runs g (.rule r) e {} e
  | known : r ∉ e.active → g.rules[r]? = some R → e.memo[R.body.id]? = some info →
    Runs g (.rule r) e { info } e
  | entered : r ∉ e.active → g.rules[r]? = some R → e.memo[R.body.id]? = none →
    Runs g (.node R.body) (e.enter r) s e' →
    Runs g (.rule r) e (s.settle r) (keep R.body.id (s.settle r) e'.leave).2

variable {g : Grammar} {t : Task} {e e' : Engine} {s : Scan}

/-- A run leaves the active rules as it found them. -/
theorem Runs.active (h : Runs g t e s e') : e'.active = e.active := by
  induction h with
  | searched _ _ ih => rw [keep_active, ih]
  | reference _ ih | row _ _ ih | choice _ ih | loop _ ih | lastItem _ _ ih => exact ih
  | item _ _ _ ih ihs | branch _ _ ih ihs => rw [ihs, ih]
  | cut => exact approximate_active ..
  | entered _ _ _ _ ih => rw [keep_active, Engine.leave, ih, Engine.enter, List.tail_cons]
  | _ => rfl

theorem mem_joinPending_iff : r ∈ Scan.joinPending a b ↔ r ∈ a ∨ r ∈ b := by
  by_cases h : r ∈ a <;> simp [Scan.joinPending, h]

/-- A result is pending on active rules only. -/
theorem Runs.pending_subset (h : Runs g t e s e') : s.pending ⊆ e.active := by
  induction h with
  | searched _ _ ih | reference _ ih | row _ _ ih | choice _ ih | loop _ ih | lastItem _ _ ih =>
    exact ih
  | item h _ _ ih ihs | branch h _ ih ihs =>
    intro r hr
    rcases mem_joinPending_iff.1 hr with hr | hr
    · exact ih hr
    · exact h.active ▸ ihs hr
  | cut hr => exact List.cons_subset.2 ⟨hr, List.nil_subset _⟩
  | entered _ _ _ _ ih =>
    intro r hr
    obtain ⟨hr, hne⟩ := List.mem_filter.1 hr
    exact (List.mem_cons.1 (ih hr)).resolve_left (by simpa using hne)
  | _ => exact List.nil_subset _

/-! ## The search runs -/

/-- The budget covers the rules of the grammar that are not active. -/
structure Room (g : Grammar) (budget : Nat) (active : List RuleId) : Prop where
  nodup : active.Nodup
  bounded : ∀ r ∈ active, r < g.rules.size
  covers : g.rules.size ≤ budget + active.length

theorem Room.nil (g : Grammar) : Room g g.rules.size [] := ⟨List.nodup_nil, nofun, Nat.le_refl _⟩

/-- Where another rule can become active, the budget is not used up. -/
theorem Room.enter (h : Room g budget active) (hr : r ∉ active) (hrule : g.rules[r]? = some R) :
    ∃ rest, budget = rest + 1 ∧ Room g rest (r :: active) := by
  have hsize : r < g.rules.size := (Array.getElem?_eq_some_iff.1 hrule).1
  have hnodup : (r :: active).Nodup := List.nodup_cons.2 ⟨hr, h.nodup⟩
  have hbounded : ∀ r' ∈ r :: active, r' < g.rules.size := List.forall_mem_cons.2 ⟨hsize, h.bounded⟩
  have hsub : r :: active ⊆ List.range g.rules.size :=
    fun r' hr' => List.mem_range.2 (hbounded r' hr')
  have hlength := (hnodup.subperm hsub).length_le
  have hcovers := h.covers
  rw [List.length_cons, List.length_range] at hlength
  obtain ⟨rest, rfl⟩ : ∃ rest, budget = rest + 1 := ⟨budget - 1, by omega⟩
  exact ⟨rest, rfl, hnodup, hbounded, by rw [List.length_cons]; omega⟩

/-- Rules are searched as runs say, from every engine whose active rules are these. -/
def Enters (g : Grammar) (enter : RuleId → Search) (active : List RuleId) : Prop :=
  ∀ r e, e.active = active → Runs g (.rule r) e (enter r e).1 (enter r e).2

theorem memoized_runs {search : Search} (h : Runs g (.inside n) e (search e).1 (search e).2) :
    Runs g (.node n) e (memoized n.id search e).1 (memoized n.id search e).2 := by
  unfold memoized
  cases hm : e.memo[n.id]? with
  | some info => exact .remembered hm
  | none => exact .searched hm h

mutual

theorem node_runs_of {enter : RuleId → Search} (h : Enters g enter active) :
    ∀ (n : Node) (e : Engine), e.active = active →
      Runs g (.node n) e (node enter n e).1 (node enter n e).2
  | .leaf i (.terminal kind) o, _, _ => memoized_runs (n := .leaf i (.terminal kind) o) .token
  | .leaf i (.rule r) o, e, he => memoized_runs (n := .leaf i (.rule r) o) (.reference (h r e he))
  | .group i .sequence items, e, he =>
    memoized_runs (n := .group i .sequence items)
      (.row Shape.sequence_ne (itemsOf_runs_of h items e he))
  | .group i .flat items, e, he =>
    memoized_runs (n := .group i .flat items) (.row nofun (itemsOf_runs_of h items e he))
  | .group i .alternation branches, e, he =>
    memoized_runs (n := .group i .alternation branches)
      (.choice (branchesOf_runs_of h branches e he))
  | .loop i kind body separator, e, he =>
    memoized_runs (n := .loop i kind body separator) (.loop (node_runs_of h body e he))

theorem itemsOf_runs_of {enter : RuleId → Search} (h : Enters g enter active) :
    ∀ (items : List Node) (e : Engine), e.active = active →
      Runs g (.items items) e (itemsOf enter items e).1 (itemsOf enter items e).2
  | [], _, _ => .noItem
  | item :: items, e, he => by
    have hitem := node_runs_of h item e he
    rw [itemsOf]
    dsimp only
    split
    next hn => exact .item hitem hn (itemsOf_runs_of h items _ (hitem.active.trans he))
    next hn => exact .lastItem hitem (by simpa using hn)

theorem branchesOf_runs_of {enter : RuleId → Search} (h : Enters g enter active) :
    ∀ (branches : List Node) (e : Engine), e.active = active →
      Runs g (.branches branches) e (branchesOf enter branches e).1 (branchesOf enter branches e).2
  | [], _, _ => .noBranch
  | branch :: branches, e, he => by
    have hbranch := node_runs_of h branch e he
    exact .branch hbranch (branchesOf_runs_of h branches _ (hbranch.active.trans he))

end

theorem rule_runs (h : Room g budget e.active) (r : RuleId) :
    Runs g (.rule r) e (rule g budget r e).1 (rule g budget r e).2 := by
  induction budget using Nat.strong_induction_on generalizing r e with
  | _ budget ih =>
    unfold rule
    by_cases hr : r ∈ e.active
    · rw [if_pos hr]
      exact .cut hr
    rw [if_neg hr]
    cases hrule : g.rules[r]? with
    | none =>
      cases budget <;> exact .unknown hr hrule
    | some R =>
      obtain ⟨rest, rfl, hroom⟩ := h.enter hr hrule
      dsimp only
      cases hm : e.memo[R.body.id]? with
      | some info => exact .known hr hrule hm
      | none =>
        refine .entered hr hrule hm (node_runs_of (fun r' e' he' => ?_) R.body (e.enter r) rfl)
        exact ih rest (Nat.lt_succ_self rest) (he' ▸ hroom) r'

theorem node_runs (h : Room g budget e.active) (n : Node) :
    Runs g (.node n) e (node (rule g budget) n e).1 (node (rule g budget) n e).2 :=
  node_runs_of (fun r _ he => rule_runs (he ▸ h) r) n e rfl

end Descent.Search
