import Descent.First.Search
import Descent.Proofs.Grammar.Derivation
import Mathlib.Algebra.Order.BigOperators.Group.Finset
import Mathlib.Data.Fintype.Option

/-!
# The least solution of the FIRST equations

Each construct has an equation that gives its FIRST set and nullability from those of its parts
and of the referenced rules (`Node.eval`). `Grammar.exactRule` is the least table of rule values
that satisfies the equations of all rule bodies (`Grammar.exactRule_least`), and `Grammar.exact`
extends it to all trees. It is found by evaluating all bodies over and over, starting from nothing;
a table can grow at most 129 times a rule, so that many sweeps are enough.

The least solution says what matches say: a tree is nullable in it iff it has an empty match, and
its FIRST set holds the kinds that stand first in a match (`Grammar.exact_nullable_iff`,
`Grammar.mem_exact_first_iff`).
-/

namespace Descent

/-! ## Order and size of values -/

namespace Info

instance : LE Info := ⟨fun a b => a.first ⊆ b.first ∧ (a.nullable = true → b.nullable = true)⟩

theorem le_refl (a : Info) : a ≤ a := ⟨TerminalSet.Subset.refl _, id⟩

theorem bot_le (a : Info) : ({} : Info) ≤ a :=
  ⟨fun _ h => (TerminalSet.not_mem_empty h).elim, nofun⟩

theorem le_antisymm {a b : Info} (h : a ≤ b) (h' : b ≤ a) : a = b := by
  cases a
  cases b
  exact Info.mk.injEq .. ▸
    ⟨TerminalSet.Subset.antisymm h.1 h'.1, Bool.eq_iff_iff.2 ⟨h.2, h'.2⟩⟩

/-- Whether a value has one of the things a value can have: a kind in its FIRST set, or
nullability. -/
def holds (a : Info) : Option Terminal → Bool
  | some kind => a.first.contains kind
  | none => a.nullable

/-- All that a value says. -/
def points (a : Info) : Finset (Option Terminal) := Finset.univ.filter fun p => a.holds p

theorem points_subset_iff {a b : Info} : a.points ⊆ b.points ↔ a ≤ b := by
  simp only [points, Finset.subset_iff, Finset.mem_filter, Finset.mem_univ, true_and, Option.forall]
  exact And.comm

theorem card_points_le (a : Info) : a.points.card ≤ 129 := by
  simpa using Finset.card_le_univ a.points

theorem card_points_mono {a b : Info} (h : a ≤ b) : a.points.card ≤ b.points.card :=
  Finset.card_le_card (points_subset_iff.2 h)

theorem card_points_lt {a b : Info} (h : a ≤ b) (hne : a ≠ b) : a.points.card < b.points.card := by
  refine Finset.card_lt_card ⟨points_subset_iff.2 h, fun h' => hne ?_⟩
  exact le_antisymm h (points_subset_iff.1 h')

end Info

/-! ## The equations -/

namespace Node

mutual

/-- The value of a tree, given the values of the rules. -/
def eval (rules : RuleId → Info) : Node → Info
  | .leaf _ (.terminal kind) _ => { first := .single kind }
  | .leaf _ (.rule r) _ => rules r
  | .group _ .alternation branches => evalBranches rules branches
  | .group _ _ items => evalItems rules items
  | .loop _ kind body _ =>
    let info := eval rules body
    { info with nullable := kind.allowsEmpty || info.nullable }

/-- The value of trees in a row: nothing after the first one that is not nullable counts. -/
def evalItems (rules : RuleId → Info) : List Node → Info
  | [] => { nullable := true }
  | item :: items =>
    let head := eval rules item
    if head.nullable then
      let tail := evalItems rules items
      { tail with first := head.first ∪ tail.first }
    else
      head

/-- The value of a choice. -/
def evalBranches (rules : RuleId → Info) : List Node → Info
  | [] => {}
  | branch :: branches =>
    let head := eval rules branch
    let tail := evalBranches rules branches
    { first := head.first ∪ tail.first, nullable := head.nullable || tail.nullable }

end

variable {rules rules' : RuleId → Info}

theorem evalItems_nullable_iff : (evalItems rules items).nullable = true ↔
    ∀ item ∈ items, (item.eval rules).nullable = true := by
  induction items with
  | nil => simp [evalItems]
  | cons item items ih =>
    rw [evalItems, List.forall_mem_cons, ← ih]
    cases h : (item.eval rules).nullable <;> simp [h]

theorem mem_evalItems_cons_iff : k ∈ (evalItems rules (item :: items)).first ↔
    k ∈ (item.eval rules).first ∨
      (item.eval rules).nullable = true ∧ k ∈ (evalItems rules items).first := by
  rw [evalItems]
  cases (item.eval rules).nullable <;> simp

theorem evalBranches_nullable_iff : (evalBranches rules branches).nullable = true ↔
    ∃ branch ∈ branches, (branch.eval rules).nullable = true := by
  induction branches with
  | nil => simp [evalBranches]
  | cons branch branches ih => simp [evalBranches, ih]

theorem mem_evalBranches_iff : k ∈ (evalBranches rules branches).first ↔
    ∃ branch ∈ branches, k ∈ (branch.eval rules).first := by
  induction branches with
  | nil => simp [evalBranches]
  | cons branch branches ih => simp [evalBranches, ih]

theorem eval_row (hs : shape ≠ .alternation) :
    (Node.group i shape items).eval rules = evalItems rules items := by
  cases shape <;> first | rfl | exact (hs rfl).elim

theorem evalItems_mono (h : ∀ item ∈ items, item.eval rules ≤ item.eval rules') :
    evalItems rules items ≤ evalItems rules' items := by
  induction items with
  | nil => exact Info.le_refl _
  | cons item items ih =>
    obtain ⟨⟨hfirst, hnull⟩, hitems⟩ := List.forall_mem_cons.1 h
    refine ⟨fun k hk => ?_, fun hn => ?_⟩
    · rw [mem_evalItems_cons_iff] at hk ⊢
      exact hk.imp (@hfirst k) (.imp hnull (@(ih hitems).1 k))
    · rw [evalItems_nullable_iff] at hn ⊢
      exact fun n hmem => (h n hmem).2 (hn n hmem)

theorem eval_mono (h : ∀ r, rules r ≤ rules' r) (n : Node) : n.eval rules ≤ n.eval rules' := by
  induction n with
  | leaf _ symbol _ =>
    cases symbol with
    | terminal => exact Info.le_refl _
    | rule r => exact h r
  | group _ shape items ih =>
    by_cases hs : shape = .alternation
    · subst hs
      refine ⟨fun k hk => ?_, fun hn => ?_⟩
      · obtain ⟨branch, hb, hk⟩ := mem_evalBranches_iff.1 hk
        exact mem_evalBranches_iff.2 ⟨branch, hb, (ih branch hb).1 hk⟩
      · obtain ⟨branch, hb, hn⟩ := evalBranches_nullable_iff.1 hn
        exact evalBranches_nullable_iff.2 ⟨branch, hb, (ih branch hb).2 hn⟩
    · rw [eval_row hs, eval_row hs]
      exact evalItems_mono ih
  | loop _ kind body _ ih =>
    refine ⟨ih.1, fun hn => ?_⟩
    simp only [eval, Bool.or_eq_true] at hn ⊢
    exact hn.imp_right ih.2

end Node

namespace Grammar

variable {g : Grammar} {rules : RuleId → Info}

/-- The rule values satisfy the equations of all rule bodies. -/
def Solves (g : Grammar) (rules : RuleId → Info) : Prop :=
  ∀ r R, g.rules[r]? = some R → rules r = R.body.eval rules

/-- The table of rule values after `k` sweeps over all rule bodies, each of which evaluates every
body with the values of the sweep before. -/
def sweeps (g : Grammar) : Nat → Array Info
  | 0 => g.rules.map fun _ => {}
  | k + 1 =>
    let before := g.sweeps k
    g.rules.map fun R => R.body.eval fun r => before[r]?.getD {}

/-- The value of a rule after `k` sweeps. -/
def swept (g : Grammar) (k : Nat) (r : RuleId) : Info := (g.sweeps k)[r]?.getD {}

/-- The value of a rule in the least solution. -/
def exactRule (g : Grammar) : RuleId → Info := g.swept (129 * g.rules.size)

/-- The value of a tree in the least solution. -/
def exact (g : Grammar) (n : Node) : Info := n.eval g.exactRule

/-! ## The sweeps reach a solution -/

theorem swept_zero (g : Grammar) (r : RuleId) : g.swept 0 r = {} := by
  unfold swept sweeps
  cases h : g.rules[r]? <;> simp [h]

theorem swept_succ (hrule : g.rules[r]? = some R) :
    g.swept (k + 1) r = R.body.eval (g.swept k) := by
  simp [swept, sweeps, hrule]
  rfl

theorem swept_none (hrule : g.rules[r]? = none) : g.swept k r = {} := by
  cases k <;> simp [swept, sweeps, hrule]

theorem swept_le_succ (g : Grammar) (k : Nat) (r : RuleId) : g.swept k r ≤ g.swept (k + 1) r := by
  induction k generalizing r with
  | zero => exact swept_zero g r ▸ Info.bot_le _
  | succ k ih =>
    cases hrule : g.rules[r]? with
    | none => exact swept_none (k := k + 1) hrule ▸ Info.bot_le _
    | some R =>
      rw [swept_succ hrule, swept_succ hrule]
      exact Node.eval_mono ih _

theorem swept_succ_eq (h : g.swept (k + 1) = g.swept k) : g.swept (k + 2) = g.swept (k + 1) := by
  funext r
  cases hrule : g.rules[r]? with
  | none => rw [swept_none hrule, swept_none hrule]
  | some R => rw [swept_succ hrule, swept_succ hrule, h]

/-- How much a table of rule values says. -/
def total (g : Grammar) (rules : RuleId → Info) : Nat :=
  ∑ r ∈ Finset.range g.rules.size, (rules r).points.card

theorem total_le (g : Grammar) (rules : RuleId → Info) : g.total rules ≤ 129 * g.rules.size := by
  refine (Finset.sum_le_card_nsmul _ _ 129 fun r _ => (rules r).card_points_le).trans ?_
  simp [Nat.mul_comm]

/-- A sweep that changes anything makes the table say more. -/
theorem total_swept_lt (h : g.swept (k + 1) ≠ g.swept k) :
    g.total (g.swept k) < g.total (g.swept (k + 1)) := by
  obtain ⟨r, hr⟩ := Function.ne_iff.1 h
  have hsize : r < g.rules.size := by
    by_contra hsize
    have hrule : g.rules[r]? = none := by simpa using hsize
    exact hr (by rw [swept_none hrule, swept_none hrule])
  refine Finset.sum_lt_sum (fun r _ => Info.card_points_mono (g.swept_le_succ k r))
    ⟨r, Finset.mem_range.2 hsize, ?_⟩
  exact Info.card_points_lt (g.swept_le_succ k r) (Ne.symm hr)

theorem swept_stable_or_lt_total (g : Grammar) (k : Nat) :
    g.swept (k + 1) = g.swept k ∨ k < g.total (g.swept (k + 1)) := by
  induction k with
  | zero =>
    by_cases h : g.swept 1 = g.swept 0
    · exact .inl h
    · exact .inr (Nat.zero_lt_of_lt (total_swept_lt h))
  | succ k ih =>
    by_cases h : g.swept (k + 2) = g.swept (k + 1)
    · exact .inl h
    · have hlt := ih.resolve_left fun hk => h (swept_succ_eq hk)
      exact .inr (Nat.lt_of_le_of_lt hlt (total_swept_lt h))

theorem exactRule_solves (g : Grammar) : g.Solves g.exactRule := by
  intro r R hrule
  have hstable := (g.swept_stable_or_lt_total (129 * g.rules.size)).resolve_right
    (Nat.not_lt.2 (g.total_le _))
  calc g.swept (129 * g.rules.size) r
    _ = g.swept (129 * g.rules.size + 1) r := by rw [hstable]
    _ = R.body.eval g.exactRule := swept_succ hrule

/-! ## The solution says what matches say -/

/-- What a value says of a tree is shown by matches of the tree. -/
structure Shown (g : Grammar) (a : Info) (n : Node) : Prop where
  nullable : a.nullable = true → g.Nullable [] n
  first : ∀ k ∈ a.first, g.Starts [] n k

theorem Shown.evalItems (hs : shape ≠ .alternation)
    (h : ∀ item ∈ items, g.Shown (item.eval rules) item) :
    g.Shown (Node.evalItems rules items) (.group i shape items) := by
  induction items with
  | nil =>
    exact ⟨fun _ => .row hs (List.forall_mem_nil _),
      fun k hk => (TerminalSet.not_mem_empty hk).elim⟩
  | cons item items ih =>
    obtain ⟨hitem, hitems⟩ := List.forall_mem_cons.1 h
    refine ⟨fun hn => ?_, fun k hk => ?_⟩
    · rw [Node.evalItems_nullable_iff] at hn
      exact .row hs fun n hmem => (h n hmem).nullable (hn n hmem)
    · rw [Node.mem_evalItems_cons_iff] at hk
      rw [starts_cons_iff (j := i) hs]
      exact hk.imp (hitem.first k) (.imp hitem.nullable ((ih hitems).first k))

theorem Shown.eval (h : ∀ r, g.Shown (rules r) (.leaf 0 (.rule r) 0)) (n : Node) :
    g.Shown (n.eval rules) n := by
  induction n with
  | leaf _ symbol _ =>
    cases symbol with
    | terminal => exact ⟨nofun, fun _ hk => starts_token_iff.2 (TerminalSet.mem_single.1 hk)⟩
    | rule r =>
      exact ⟨fun hn => nullable_reference_iff.2 (nullable_reference_iff.1 ((h r).nullable hn)),
        fun k hk => starts_reference_iff.2 (starts_reference_iff.1 ((h r).first k hk))⟩
  | group _ shape items ih =>
    by_cases hs : shape = .alternation
    · subst hs
      refine ⟨fun hn => ?_, fun k hk => ?_⟩
      · obtain ⟨branch, hb, hn⟩ := Node.evalBranches_nullable_iff.1 hn
        exact .branch hb ((ih branch hb).nullable hn)
      · obtain ⟨branch, hb, hk⟩ := Node.mem_evalBranches_iff.1 hk
        exact .branch hb ((ih branch hb).first k hk)
    · rw [Node.eval_row hs]
      exact .evalItems hs ih
  | loop _ kind body _ ih =>
    refine ⟨fun hn => ?_, fun k hk => .loop (ih.first k hk)⟩
    simp only [Node.eval, Bool.or_eq_true] at hn
    exact nullable_loop_iff.2 (hn.imp_right ih.nullable)

theorem Shown.swept (g : Grammar) (k : Nat) (r : RuleId) :
    g.Shown (g.swept k r) (.leaf 0 (.rule r) 0) := by
  induction k generalizing r with
  | zero =>
    rw [swept_zero]
    exact ⟨nofun, fun k hk => (TerminalSet.not_mem_empty hk).elim⟩
  | succ k ih =>
    cases hrule : g.rules[r]? with
    | none =>
      rw [swept_none hrule]
      exact ⟨nofun, fun k hk => (TerminalSet.not_mem_empty hk).elim⟩
    | some R =>
      rw [swept_succ hrule]
      have hbody := Shown.eval ih R.body
      exact ⟨fun hn => .reference List.not_mem_nil hrule (hbody.nullable hn),
        fun k hk => .reference List.not_mem_nil hrule (hbody.first k hk)⟩

theorem Solves.nullable_of (h : g.Solves rules) (hn : g.Nullable [] n) :
    (n.eval rules).nullable = true := by
  induction hn with
  | reference _ hrule _ ih => exact (congrArg Info.nullable (h _ _ hrule)).trans ih
  | row hs _ ih => exact Node.eval_row hs ▸ Node.evalItems_nullable_iff.2 ih
  | branch hb _ ih => exact Node.evalBranches_nullable_iff.2 ⟨_, hb, ih⟩
  | skip hk => simp [Node.eval, hk]
  | once _ ih => simp [Node.eval, ih]

theorem Solves.mem_evalItems (h : g.Solves rules) (hfront : ∀ before ∈ front, g.Nullable [] before)
    (hk : k ∈ (item.eval rules).first) :
    k ∈ (Node.evalItems rules (front ++ item :: back)).first := by
  induction front with
  | nil => exact Node.mem_evalItems_cons_iff.2 (.inl hk)
  | cons before front ih =>
    obtain ⟨hbefore, hfront⟩ := List.forall_mem_cons.1 hfront
    exact Node.mem_evalItems_cons_iff.2 (.inr ⟨h.nullable_of hbefore, ih hfront⟩)

theorem Solves.mem_first_of (h : g.Solves rules) (hk : g.Starts [] n k) :
    k ∈ (n.eval rules).first := by
  induction hk with
  | token => exact TerminalSet.mem_single.2 rfl
  | reference _ hrule _ ih =>
    rw [Node.eval, h _ _ hrule]
    exact ih
  | row hs hitems hfront _ ih =>
    rw [Node.eval_row hs, hitems]
    exact h.mem_evalItems hfront ih
  | branch hb _ ih => exact Node.mem_evalBranches_iff.2 ⟨_, hb, ih⟩
  | loop _ ih => exact ih

theorem exact_nullable_iff : (g.exact n).nullable = true ↔ g.Nullable [] n :=
  ⟨(Shown.eval (Shown.swept g _) n).nullable, g.exactRule_solves.nullable_of⟩

theorem mem_exact_first_iff : k ∈ (g.exact n).first ↔ g.Starts [] n k :=
  ⟨(Shown.eval (Shown.swept g _) n).first k, g.exactRule_solves.mem_first_of⟩

/-- The rule values are a solution, and lie below every solution. -/
structure LeastSolution (g : Grammar) (rules : RuleId → Info) : Prop where
  solves : g.Solves rules
  least : ∀ {others}, g.Solves others → ∀ {r R}, g.rules[r]? = some R → rules r ≤ others r

theorem exactRule_least (g : Grammar) : g.LeastSolution g.exactRule where
  solves := g.exactRule_solves
  least hothers r R hrule := by
    have hshown := Shown.eval (Shown.swept g (129 * g.rules.size)) R.body
    rw [g.exactRule_solves _ _ hrule, hothers _ _ hrule]
    exact ⟨fun k hk => hothers.mem_first_of (hshown.first k hk),
      fun hn => hothers.nullable_of (hshown.nullable hn)⟩

end Grammar

end Descent
