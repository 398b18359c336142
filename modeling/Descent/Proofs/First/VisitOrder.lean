import Descent.Proofs.First.Exactness

/-!
# The order of questions

What an engine remembers can depend on the order in which it was asked. A rule that is nullable and
refers to itself first is cut before the items after the reference are looked at; asked for the body
of the rule instead, the engine enters the rule once more and does look at them.

The answers do not depend on the order if and only if all of them are exact
(`Grammar.visit_order_free_iff_exact`). In one direction, a question asked of a fresh engine is
answered from the answers for the parts of the node, which have been asked for right before; if the
order of questions plays no role, the answers therefore solve the FIRST equations, and the least
solution lies below every solution. So tame grammars are free of the order of questions.
-/

namespace Descent

open Search

namespace Grammar

/-- Whatever was asked before, a node is answered alike, and a rule is answered like its body. -/
structure OrderFree (g : Grammar) : Prop where
  nodes : ∀ {e e'}, g.Asked e → g.Asked e' → ∀ ⦃i : NodeId⦄ ⦃n⦄, g.nodes[i]? = some n →
    (e.nodeInfo g i).map Prod.fst = (e'.nodeInfo g i).map Prod.fst
  bodies : ∀ {e e'}, g.Asked e → g.Asked e' → ∀ ⦃r : RuleId⦄ ⦃R⦄, g.rules[r]? = some R →
    (e.ruleInfo g r).map Prod.fst = (e'.nodeInfo g R.body.id).map Prod.fst

/-- Whatever was asked before, nodes and rules are answered with the least solution of the FIRST
equations. -/
structure AlwaysExact (g : Grammar) : Prop where
  nodes : ∀ {e}, g.Asked e → ∀ ⦃i : NodeId⦄ ⦃n⦄, g.nodes[i]? = some n →
    (e.nodeInfo g i).map Prod.fst = .ok (g.exact n)
  rules : ∀ {e}, g.Asked e → ∀ ⦃r : RuleId⦄ ⦃R⦄, g.rules[r]? = some R →
    (e.ruleInfo g r).map Prod.fst = .ok (g.exact R.body)

variable {g : Grammar} {e e' : Engine} {i : NodeId} {r : RuleId} {n : Node} {R : Rule}
  {rules : RuleId → Info}

/-! ## Questions about what is there -/

theorem nodeInfo_eq (hn : g.nodes[i]? = some n) : e.nodeInfo g i = .ok (e.searchNode g n) := by
  rw [Engine.nodeInfo, Grammar.node, hn]
  rfl

theorem ruleInfo_eq (hrule : g.rules[r]? = some R) : e.ruleInfo g r = .ok (e.searchRule g r) := by
  rw [Engine.ruleInfo, Grammar.rule, hrule]
  rfl

theorem Asked.searchNode (he : g.Asked e) (hn : g.nodes[n.id]? = some n) :
    g.Asked (e.searchNode g n).2 :=
  .node he (nodeInfo_eq hn)

/-- A fresh engine remembers nothing, so it searches. -/
theorem memoized_fresh (i : NodeId) (search : Search) :
    (memoized i search {}).1 = (search {}).1 := by
  have hmemo : ({} : Engine).memo[i]? = none := by simp
  rw [memoized, hmemo]
  rfl

theorem AlwaysExact.orderFree (h : g.AlwaysExact) (hg : g.WellFormed) : g.OrderFree where
  nodes he he' _ _ hn := (h.nodes he hn).trans (h.nodes he' hn).symm
  bodies he he' _ _ hrule := (h.rules he hrule).trans (h.nodes he' (hg.bodies hrule)).symm

/-! ## Answers that do not depend on the order solve the equations -/

/-- What a fresh engine answers for a rule. -/
def freshRule (g : Grammar) (r : RuleId) : Info := (Engine.searchRule g r {}).1

/-- From every history the tree is answered as the equations say, given the values of rules. -/
def AnsweredBy (g : Grammar) (rules : RuleId → Info) (n : Node) : Prop :=
  g.nodes[n.id]? = some n ∧ ∀ {e}, g.Asked e → (e.searchNode g n).1 = n.eval rules

theorem itemsOf_eq_evalItems (h : ∀ item ∈ items, g.AnsweredBy rules item) (he : g.Asked e) :
    (itemsOf (Search.rule g g.rules.size) items e).1.info = Node.evalItems rules items := by
  induction items generalizing e with
  | nil => rfl
  | cons item items ih =>
    obtain ⟨⟨hn, hitem⟩, hitems⟩ := List.forall_mem_cons.1 h
    have hhead : (Search.node (Search.rule g g.rules.size) item e).1.info = item.eval rules :=
      hitem he
    have htail := ih hitems (he.searchNode hn)
    rw [itemsOf, Node.evalItems]
    dsimp only
    rw [hhead]
    cases hnull : (item.eval rules).nullable with
    | false => exact hhead
    | true =>
      simp only [if_true, Scan.andThen, hhead, hnull, Bool.true_and]
      rw [← htail]
      rfl

theorem branchesOf_eq_evalBranches (h : ∀ branch ∈ branches, g.AnsweredBy rules branch)
    (he : g.Asked e) : (branchesOf (Search.rule g g.rules.size) branches e).1.info =
      Node.evalBranches rules branches := by
  induction branches generalizing e with
  | nil => rfl
  | cons branch branches ih =>
    obtain ⟨⟨hn, hbranch⟩, hbranches⟩ := List.forall_mem_cons.1 h
    have hhead : (Search.node (Search.rule g g.rules.size) branch e).1.info = branch.eval rules :=
      hbranch he
    rw [Node.evalBranches, ← ih hbranches (he.searchNode hn), ← hhead]
    rfl

/-- A fresh engine answers a tree as the equations say, if the trees right below it are answered
so. -/
theorem searchNode_fresh (h : ∀ child ∈ n.children, g.AnsweredBy g.freshRule child) :
    (Engine.searchNode g n {}).1 = n.eval g.freshRule := by
  change (Search.node (Search.rule g g.rules.size) n {}).1.info = _
  cases n with
  | leaf i symbol o =>
    cases symbol <;>
    · rw [Search.node, memoized_fresh]
      rfl
  | group i shape items =>
    cases shape with
    | alternation =>
      rw [Search.node, memoized_fresh]
      exact branchesOf_eq_evalBranches h .fresh
    | sequence | flat =>
      rw [Search.node, memoized_fresh]
      · exact itemsOf_eq_evalItems h .fresh
      · intro hshape
        cases hshape
  | loop i kind body separator =>
    have hbody := (h body List.mem_cons_self).2 .fresh
    rw [Search.node, memoized_fresh, Node.eval, ← hbody]
    rfl

theorem OrderFree.answeredBy_of_children (h : g.OrderFree) (hn : g.nodes[n.id]? = some n)
    (hchildren : ∀ child ∈ n.children, g.AnsweredBy g.freshRule child) :
    g.AnsweredBy g.freshRule n := by
  refine ⟨hn, fun he => ?_⟩
  have hsame := h.nodes he .fresh hn
  rw [nodeInfo_eq hn, nodeInfo_eq hn] at hsame
  exact (Except.ok.inj hsame).trans (searchNode_fresh hchildren)

theorem OrderFree.answeredBy (h : g.OrderFree) (hg : g.WellFormed)
    (hn : g.nodes[n.id]? = some n) : g.AnsweredBy g.freshRule n := by
  induction n with
  | leaf => exact h.answeredBy_of_children hn (List.forall_mem_nil _)
  | group _ _ items ih =>
    exact h.answeredBy_of_children hn fun item hitem =>
      ih item hitem (hg.nodes.closed hn item hitem)
  | loop _ _ body separator ih =>
    have hclosed := hg.nodes.closed hn
    refine h.answeredBy_of_children hn (List.forall_mem_cons.2 ⟨?_, fun child hchild => ?_⟩)
    · exact ih (hclosed body List.mem_cons_self)
    · -- a separator is a leaf
      obtain ⟨s, -, rfl⟩ := Option.map_eq_some_iff.1 (Option.mem_toList.1 hchild)
      have hs := hclosed s.node (List.mem_cons_of_mem _ hchild)
      exact h.answeredBy_of_children hs (List.forall_mem_nil _)

theorem OrderFree.freshRule_solves (h : g.OrderFree) (hg : g.WellFormed) :
    g.Solves g.freshRule := by
  intro r R hrule
  have hn := hg.bodies hrule
  have hsame := h.bodies .fresh .fresh hrule
  rw [ruleInfo_eq hrule, nodeInfo_eq hn] at hsame
  exact (Except.ok.inj hsame).trans ((h.answeredBy hg hn).2 .fresh)

theorem Fits.le (h : g.Fits info value) : info ≤ value := ⟨h.first, fun hn => h.nullable ▸ hn⟩

theorem OrderFree.freshRule_eq (h : g.OrderFree) (hg : g.WellFormed) :
    g.freshRule = g.exactRule := by
  funext r
  refine Info.le_antisymm ((Ready.fresh g).searchRule hg r).1.le ?_
  cases hrule : g.rules[r]? with
  | none =>
    rw [exactRule, swept_none hrule]
    exact Info.bot_le _
  | some R => exact g.exactRule_least.least (h.freshRule_solves hg) hrule

theorem OrderFree.alwaysExact (h : g.OrderFree) (hg : g.WellFormed) : g.AlwaysExact := by
  have hnodes {e} (he : g.Asked e) {i : NodeId} {n} (hn : g.nodes[i]? = some n) :
      (e.nodeInfo g i).map Prod.fst = .ok (g.exact n) := by
    have hanswer := (h.answeredBy hg (hg.nodes.numbered hn ▸ hn)).2 he
    rw [nodeInfo_eq hn, exact, ← h.freshRule_eq hg, ← hanswer]
    rfl
  refine ⟨fun he i n hn => hnodes he hn, fun he r R hrule => ?_⟩
  exact (h.bodies he he hrule).trans (hnodes he (hg.bodies hrule))

/-! ## Tame grammars -/

theorem Serves.answer (h : g.Serves question (some n)) :
    ∃ info, question.map Prod.fst = .ok info ∧ g.Fits info (g.exact n) := by
  obtain ⟨info, e', hq, hfits⟩ := h.fits rfl
  exact ⟨info, by rw [hq]; rfl, hfits⟩

theorem Tame.alwaysExact (ht : g.Tame) (hg : g.WellFormed) : g.AlwaysExact := by
  constructor
  · intro e he i n hn
    obtain ⟨info, hinfo, hfits⟩ := (hn ▸ (he.ready hg).nodeInfo hg i).answer
    exact hfits.tame ht ▸ hinfo
  · intro e he r R hrule
    have hserves := (he.ready hg).ruleInfo hg r
    rw [hrule] at hserves
    obtain ⟨info, hinfo, hfits⟩ := hserves.answer
    exact hfits.tame ht ▸ hinfo

/-- The answers of a built grammar are free of the order of questions if and only if they are always
exact, and this is so in every tame grammar. Whether a node is nullable is answered alike in any
grammar. -/
theorem visit_order_free_iff_exact (hg : g.Built) :
    (g.OrderFree ↔ g.AlwaysExact) ∧ (g.Tame → g.OrderFree) ∧
    ∀ {e e'}, g.Asked e → g.Asked e' → ∀ ⦃i : NodeId⦄ ⦃n⦄, g.nodes[i]? = some n →
      (e.nodeInfo g i).map (·.1.nullable) = (e'.nodeInfo g i).map (·.1.nullable) := by
  have hwf := hg.wellFormed
  refine ⟨⟨fun h => h.alwaysExact hwf, fun h => h.orderFree hwf⟩,
    fun ht => (ht.alwaysExact hwf).orderFree hwf, fun {e e'} he he' i n hn => ?_⟩
  obtain ⟨info, f, hq, hfits⟩ := ((he.ready hwf).nodeInfo hwf i).fits hn
  obtain ⟨info', f', hq', hfits'⟩ := ((he'.ready hwf).nodeInfo hwf i).fits hn
  rw [hq, hq']
  exact congrArg Except.ok (hfits.nullable.trans hfits'.nullable.symm)

/-- Sums refer to themselves first, and are free of the order of questions nevertheless. -/
theorem sums_orderFree : sumsBuilt.LeftRecursive 0 ∧ sumsBuilt.OrderFree :=
  ⟨sums_leftRecursive, (visit_order_free_iff_exact (Draft.built sums_build)).2.1 sums_tame⟩

/-- The body of the rule of lists starts with an item if it is asked for at once, and with nothing
once the rule was asked for. -/
theorem lists_not_orderFree : listsBuilt.Built ∧ ¬ listsBuilt.OrderFree ∧
    ∃ e rule, Engine.ruleInfo listsBuilt 0 {} = .ok (rule, e) ∧
      (e.nodeInfo listsBuilt 3).map Prod.fst = .ok { first := ∅, nullable := true } ∧
      (Engine.nodeInfo listsBuilt 3 {}).map Prod.fst =
        .ok { first := .single 0, nullable := true } := by
  have hrule : Engine.ruleInfo listsBuilt 0 {} = .ok (Engine.searchRule listsBuilt 0 {}) := rfl
  have hlate : ((Engine.searchRule listsBuilt 0 {}).2.nodeInfo listsBuilt 3).map Prod.fst =
      .ok { first := ∅, nullable := true } := by cbv
  have hearly : (Engine.nodeInfo listsBuilt 3 {}).map Prod.fst =
      .ok { first := .single 0, nullable := true } := by cbv
  refine ⟨Draft.built lists_build, fun h => ?_, _, _, hrule, hlate, hearly⟩
  have hbody : listsBuilt.nodes[3]? = some listBody := rfl
  have hsame := hlate.symm.trans ((h.nodes (.rule .fresh hrule) .fresh hbody).trans hearly)
  revert hsame
  decide

end Grammar

end Descent
