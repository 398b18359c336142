import Descent.Proofs.First.LeftRecursion
import Descent.Proofs.First.VisitOrder
import Descent.Proofs.Grammar.Numbering

/-!
# The search comes to an end

References may lead back to any rule, so no tree bounds the search. A call of it is a tree of the
grammar with the engine that its search starts from. Under way it makes others (`Call.MadeBy`): for
the items or branches of a group, for the body of a repetition, and at a reference for the body of a
rule that is not active. Each of them has one active rule more, or the same active rules and a tree
with a smaller number (`Call.MadeBy.descends`), which cannot go on forever. So every call ends, with
no budget to stop it (`Call.ends`), and what it ends with does not depend on a budget.

What is remembered stays remembered, and a search that is pending on nothing has remembered its own
answer. Between questions no rule is active, so every question leaves an entry behind.
-/

namespace Descent

namespace Search

/-- A tree of the grammar, to be searched from an engine on which rules of the grammar are active,
each of them once. -/
structure Call (g : Grammar) where
  tree : Node
  engine : Engine
  owned : g.nodes[tree.id]? = some tree
  nodup : engine.active.Nodup
  bounded : ∀ r ∈ engine.active, r < g.rules.size

namespace Call

variable {g : Grammar} {inner outer : Call g}

/-- While the tree of the outer call is searched, the inner call is made. -/
inductive MadeBy (inner outer : Call g) : Prop where
  /-- For an item, once those in front of it are found to be nullable. -/
  | item : outer.engine.memo[outer.tree.id]? = none →
    outer.tree = .group i shape (front ++ inner.tree :: back) → shape ≠ .alternation →
    Runs g (.items front) outer.engine s inner.engine → s.info.nullable = true →
    MadeBy inner outer
  | branch : outer.engine.memo[outer.tree.id]? = none →
    outer.tree = .group i .alternation (front ++ inner.tree :: back) →
    Runs g (.branches front) outer.engine s inner.engine → MadeBy inner outer
  | body : outer.engine.memo[outer.tree.id]? = none →
    outer.tree = .loop i kind inner.tree separator → inner.engine = outer.engine →
    MadeBy inner outer
  | entered : outer.engine.memo[outer.tree.id]? = none →
    outer.tree = .leaf i (.rule r) occurrence → r ∉ outer.engine.active →
    g.rules[r]? = some R → outer.engine.memo[R.body.id]? = none → inner.tree = R.body →
    inner.engine = outer.engine.enter r → MadeBy inner outer

/-- The inner call has entered a rule that was not active, or moved to a smaller number. -/
inductive Descends (inner outer : Call g) : Prop where
  | enters : r ∉ outer.engine.active → inner.engine.active = r :: outer.engine.active →
    Descends inner outer
  | moves : inner.engine.active = outer.engine.active → inner.tree.id < outer.tree.id →
    Descends inner outer

theorem MadeBy.descends (h : inner.MadeBy outer) (hg : g.Forest) : inner.Descends outer := by
  have hchild (hmem : inner.tree ∈ outer.tree.children) : inner.tree.id < outer.tree.id :=
    (hg.child outer.owned inner.tree hmem).1
  cases h with
  | item _ htree _ hfront | branch _ htree hfront =>
    refine .moves hfront.active (hchild ?_)
    rw [htree]
    exact List.mem_append_cons_self
  | body _ htree hengine =>
    refine .moves (congrArg Engine.active hengine) (hchild ?_)
    rw [htree]
    exact List.mem_cons_self
  | entered _ _ hr _ _ _ hengine => exact .enters hr (congrArg Engine.active hengine)

theorem length_active_le (c : Call g) : c.engine.active.length ≤ g.rules.size := by
  have hsub : c.engine.active ⊆ List.range g.rules.size :=
    fun r hr => List.mem_range.2 (c.bounded r hr)
  simpa using (c.nodup.subperm hsub).length_le

/-- How many rules are not active, and then the number of the tree. -/
def rank (c : Call g) : Nat × Nat := (g.rules.size - c.engine.active.length, c.tree.id)

theorem Descends.rank_lt (h : inner.Descends outer) :
    Prod.Lex (· < ·) (· < ·) inner.rank outer.rank := by
  cases h with
  | enters _ hactive =>
    have hle := inner.length_active_le
    rw [hactive, List.length_cons] at hle
    refine .left _ _ ?_
    rw [hactive, List.length_cons]
    omega
  | moves hactive hlt =>
    rw [rank, rank, hactive]
    exact .right _ hlt

theorem descends_wellFounded : WellFounded (Descends (g := g)) :=
  Subrelation.wf Descends.rank_lt (InvImage.wf rank (Prod.lex Nat.lt_wfRel Nat.lt_wfRel).wf)

theorem madeBy_wellFounded (hg : g.Forest) : WellFounded (MadeBy (g := g)) :=
  Subrelation.wf (fun h => h.descends hg) descends_wellFounded

end Call

variable {g : Grammar} {t : Task} {e e' : Engine} {s : Scan}

/-- The search of the task from the engine comes to an end. -/
def Ends (g : Grammar) (t : Task) (e : Engine) : Prop := ∃ s e', Runs g t e s e'

theorem items_end (h : ∀ front item back s e', items = front ++ item :: back →
      Runs g (.items front) e s e' → s.info.nullable = true → Ends g (.node item) e') :
    Ends g (.items items) e := by
  induction items generalizing e with
  | nil => exact ⟨_, _, .noItem⟩
  | cons item items ih =>
    -- the rest is searched from where the first item ends, and what is in front of it grows by one
    obtain ⟨s, e', hitem⟩ := h [] item items _ e rfl .noItem rfl
    cases hn : s.info.nullable with
    | false => exact ⟨_, _, .lastItem hitem hn⟩
    | true =>
      obtain ⟨s', e'', hitems⟩ := ih fun front item' back s' e'' hitems hfront hn' =>
        h (item :: front) item' back _ e'' (congrArg (item :: ·) hitems) (.item hitem hn hfront)
          (by simp [Scan.andThen, hn, hn'])
      exact ⟨_, _, .item hitem hn hitems⟩

theorem branches_end (h : ∀ front branch back s e', branches = front ++ branch :: back →
      Runs g (.branches front) e s e' → Ends g (.node branch) e') :
    Ends g (.branches branches) e := by
  induction branches generalizing e with
  | nil => exact ⟨_, _, .noBranch⟩
  | cons branch branches ih =>
    obtain ⟨s, e', hbranch⟩ := h [] branch branches _ e rfl .noBranch
    obtain ⟨s', e'', hbranches⟩ := ih fun front branch' back s' e'' hbranches hfront =>
      h (branch :: front) branch' back _ e'' (congrArg (branch :: ·) hbranches)
        (.branch hbranch hfront)
    exact ⟨_, _, .branch hbranch hbranches⟩

namespace Call

variable {c : Call g}

theorem child_ends (hg : g.Forest)
    (h : ∀ inner : Call g, inner.MadeBy c → Ends g (.node inner.tree) inner.engine)
    (hm : m ∈ c.tree.children) (he : e.active = c.engine.active)
    (hmade : ∀ inner : Call g, inner.tree = m → inner.engine = e → inner.MadeBy c) :
    Ends g (.node m) e := by
  have howned : g.nodes[m.id]? = some m := (hg.child c.owned m hm).2
  exact h ⟨m, e, howned, he ▸ c.nodup, he ▸ c.bounded⟩ (hmade _ rfl rfl)

/-- The call for the body of a rule that is not active. -/
def enter (hg : g.Forest) (c : Call g) (hr : r ∉ c.engine.active) (hrule : g.rules[r]? = some R) :
    Call g where
  tree := R.body
  engine := c.engine.enter r
  owned := (hg.body hrule).2
  nodup := List.nodup_cons.2 ⟨hr, c.nodup⟩
  bounded := List.forall_mem_cons.2 ⟨(Array.getElem?_eq_some_iff.1 hrule).1, c.bounded⟩

theorem rule_ends (hg : g.Forest)
    (h : ∀ inner : Call g, inner.MadeBy c → Ends g (.node inner.tree) inner.engine)
    (hmemo : c.engine.memo[c.tree.id]? = none) (htree : c.tree = .leaf i (.rule r) o) :
    Ends g (.rule r) c.engine := by
  by_cases hr : r ∈ c.engine.active
  · exact ⟨_, _, .cut hr⟩
  have hsize : r < g.rules.size := hg.resolved (htree ▸ c.owned)
  have hrule : g.rules[r]? = some g.rules[r] := Array.getElem?_eq_getElem hsize
  cases hbody : c.engine.memo[g.rules[r].body.id]? with
  | some info => exact ⟨_, _, .known hr hrule hbody⟩
  | none =>
    obtain ⟨s, e', hrun⟩ :=
      h (c.enter hg hr hrule) (.entered hmemo htree hr hrule hbody rfl rfl)
    exact ⟨_, _, .entered hr hrule hbody hrun⟩

/-- A call ends if all calls end that it makes. -/
theorem ends_of_madeBy (hg : g.Forest) (c : Call g)
    (h : ∀ inner : Call g, inner.MadeBy c → Ends g (.node inner.tree) inner.engine) :
    Ends g (.node c.tree) c.engine := by
  cases hmemo : c.engine.memo[c.tree.id]? with
  | some info => exact ⟨_, _, .remembered hmemo⟩
  | none =>
    suffices hinside : Ends g (.inside c.tree) c.engine by
      obtain ⟨s, e', hrun⟩ := hinside
      exact ⟨_, _, .searched hmemo hrun⟩
    cases htree : c.tree with
    | leaf i symbol o =>
      cases symbol with
      | terminal kind => exact ⟨_, _, .token⟩
      | rule r =>
        obtain ⟨s, e', hrun⟩ := rule_ends hg h hmemo htree
        exact ⟨_, _, .reference hrun⟩
    | group i shape items =>
      have hmem {front item back} (hitems : items = front ++ item :: back) :
          item ∈ c.tree.children := by
        rw [htree, hitems]
        exact List.mem_append_cons_self
      by_cases hshape : shape = .alternation
      · have hbranches : Ends g (.branches items) c.engine := by
          apply branches_end
          intro front branch back s e hitems hfront
          refine child_ends hg h (hmem hitems) hfront.active fun inner hinner hengine => ?_
          exact .branch hmemo (by rw [htree, hshape, hitems, hinner]) (hengine ▸ hfront)
        obtain ⟨s, e', hrun⟩ := hbranches
        exact hshape ▸ ⟨_, _, .choice hrun⟩
      · have hitems : Ends g (.items items) c.engine := by
          apply items_end
          intro front item back s e hitems hfront hn
          refine child_ends hg h (hmem hitems) hfront.active fun inner hinner hengine => ?_
          exact .item hmemo (by rw [htree, hitems, hinner]) hshape (hengine ▸ hfront) hn
        obtain ⟨s, e', hrun⟩ := hitems
        exact ⟨_, _, .row hshape hrun⟩
    | loop i kind body separator =>
      have hmem : body ∈ c.tree.children := htree ▸ List.mem_cons_self
      obtain ⟨s, e', hrun⟩ := child_ends hg h hmem rfl fun inner hinner hengine =>
        .body hmemo (hinner ▸ htree) hengine
      exact ⟨_, _, .loop hrun⟩

/-- Every call ends. -/
theorem ends (hg : g.Forest) (c : Call g) : Ends g (.node c.tree) c.engine :=
  (madeBy_wellFounded hg).induction c (ends_of_madeBy hg)

end Call

/-- A run is determined by what it starts from. -/
theorem Runs.unique (h : Runs g t e s e') (h' : Runs g t e s' e'') : s' = s ∧ e'' = e' := by
  -- where a task can be searched in several ways, their guards exclude each other
  induction h generalizing s' e'' with
  | remembered hmemo =>
    cases h' with
    | remembered hmemo' =>
      cases hmemo.symm.trans hmemo'
      exact ⟨rfl, rfl⟩
    | searched hnone => cases hmemo.symm.trans hnone
  | searched hnone _ ih =>
    cases h' with
    | remembered hmemo => cases hmemo.symm.trans hnone
    | searched _ h' =>
      obtain ⟨rfl, rfl⟩ := ih h'
      exact ⟨rfl, rfl⟩
  | token =>
    cases h'
    exact ⟨rfl, rfl⟩
  | reference _ ih =>
    cases h' with
    | reference h' => exact ih h'
  | row hshape _ ih =>
    cases h' with
    | row _ h' => exact ih h'
    | choice => exact (hshape rfl).elim
  | choice _ ih =>
    cases h' with
    | row hshape => exact (hshape rfl).elim
    | choice h' => exact ih h'
  | loop _ ih =>
    cases h' with
    | loop h' =>
      obtain ⟨rfl, rfl⟩ := ih h'
      exact ⟨rfl, rfl⟩
  | noItem | noBranch =>
    cases h'
    exact ⟨rfl, rfl⟩
  | lastItem _ hn ih =>
    cases h' with
    | lastItem h' => exact ih h'
    | item h' hn' =>
      obtain ⟨rfl, -⟩ := ih h'
      cases hn.symm.trans hn'
  | item _ hn _ ih ihs =>
    cases h' with
    | lastItem h' hn' =>
      obtain ⟨rfl, -⟩ := ih h'
      cases hn.symm.trans hn'
    | item h' _ hs' =>
      obtain ⟨rfl, rfl⟩ := ih h'
      obtain ⟨rfl, rfl⟩ := ihs hs'
      exact ⟨rfl, rfl⟩
  | branch _ _ ih ihs =>
    cases h' with
    | branch h' hs' =>
      obtain ⟨rfl, rfl⟩ := ih h'
      obtain ⟨rfl, rfl⟩ := ihs hs'
      exact ⟨rfl, rfl⟩
  | cut hr =>
    cases h' with
    | cut => exact ⟨rfl, rfl⟩
    | unknown hr' | known hr' | entered hr' => exact (hr' hr).elim
  | unknown hr hrule =>
    cases h' with
    | cut hr' => exact (hr hr').elim
    | unknown => exact ⟨rfl, rfl⟩
    | known _ hrule' | entered _ hrule' => cases hrule.symm.trans hrule'
  | known hr hrule hmemo =>
    cases h' with
    | cut hr' => exact (hr hr').elim
    | unknown _ hrule' => cases hrule.symm.trans hrule'
    | known _ hrule' hmemo' =>
      cases hrule.symm.trans hrule'
      cases hmemo.symm.trans hmemo'
      exact ⟨rfl, rfl⟩
    | entered _ hrule' hnone =>
      cases hrule.symm.trans hrule'
      cases hmemo.symm.trans hnone
  | entered hr hrule hnone _ ih =>
    cases h' with
    | cut hr' => exact (hr hr').elim
    | unknown _ hrule' => cases hrule.symm.trans hrule'
    | known _ hrule' hmemo =>
      cases hrule.symm.trans hrule'
      cases hmemo.symm.trans hnone
    | entered _ hrule' _ h' =>
      cases hrule.symm.trans hrule'
      obtain ⟨rfl, rfl⟩ := ih h'
      exact ⟨rfl, rfl⟩

/-! ## What is remembered -/

theorem keep_memo_of_nil (hs : s.pending = []) (i : NodeId) (e : Engine) :
    (keep i s e).2.memo[i]? = some s.info := by
  simp [keep, hs, Engine.remember]

theorem keep_memo_of_ne {i j : NodeId} (hij : i ≠ j) (s : Scan) (e : Engine) :
    (keep j s e).2.memo[i]? = e.memo[i]? := by
  unfold keep
  dsimp only
  split
  · change (e.memo.insert j s.info)[i]? = e.memo[i]?
    rw [Std.TreeMap.getElem?_insert, if_neg fun h => hij (Std.LawfulEqOrd.eq_of_compare h).symm]
  · rfl

@[simp] theorem approximate_memo (e : Engine) (r : RuleId) :
    (e.approximate r).memo = e.memo := by
  unfold Engine.approximate
  split <;> rfl

/-- What is remembered stays remembered. -/
theorem Runs.memo_mono (h : Runs g t e s e') {i : NodeId} {info : Info}
    (hi : e.memo[i]? = some info) : e'.memo[i]? = some info := by
  -- an entry is made only where there was none when the search of its node began
  have hne {e : Engine} {j : NodeId} (hi : e.memo[i]? = some info) (hj : e.memo[j]? = none) :
      i ≠ j := by
    rintro rfl
    cases hi.symm.trans hj
  induction h with
  | searched hnone _ ih => rw [keep_memo_of_ne (hne hi hnone), ih hi]
  | reference _ ih | row _ _ ih | choice _ ih | loop _ ih | lastItem _ _ ih => exact ih hi
  | item _ _ _ ih ihs | branch _ _ ih ihs => exact ihs (ih hi)
  | cut => rwa [approximate_memo]
  | entered _ _ hnone _ ih =>
    rw [keep_memo_of_ne (hne hi hnone)]
    exact ih hi
  | _ => exact hi

/-- A tree whose answer is pending on nothing has its answer remembered. -/
theorem Runs.node_remembered (h : Runs g (.node n) e s e') (hs : s.pending = []) :
    e'.memo[n.id]? = some s.info := by
  cases h with
  | remembered hmemo => exact hmemo
  | searched => exact keep_memo_of_nil hs ..

/-- A rule whose answer is pending on nothing has it remembered for its body. -/
theorem Runs.rule_remembered (h : Runs g (.rule r) e s e') (hrule : g.rules[r]? = some R)
    (hs : s.pending = []) : e'.memo[R.body.id]? = some s.info := by
  cases h with
  | cut => cases hs
  | unknown _ hrule' => cases hrule.symm.trans hrule'
  | known _ hrule' hmemo =>
    cases hrule.symm.trans hrule'
    exact hmemo
  | entered _ hrule' =>
    cases hrule.symm.trans hrule'
    exact keep_memo_of_nil hs ..

end Search

/-! ## Questions -/

/-- A question to the engine. -/
inductive Query where
  | node (i : NodeId)
  | rule (r : RuleId)
  | rest (entries : Rest)

/-- The node that is searched for an element of a rest. -/
def Entry.target : Entry → NodeId
  | .node i => i
  | .again body separator => separator.getD body

/-- The elements of a rest that are read: all up to the first one that is not nullable. -/
def Grammar.readOf (g : Grammar) : Rest → List Entry
  | [] => []
  | entry :: entries =>
    entry :: if (g.entryTree? entry).any fun n => (g.exact n).nullable then g.readOf entries else []

namespace Query

/-- All numbers in the question belong to the grammar. -/
def Inside (g : Grammar) : Query → Prop
  | .node i => i < g.nodes.size
  | .rule r => r < g.rules.size
  | .rest entries => ∀ entry ∈ entries, entry.target < g.nodes.size

def ask (g : Grammar) : Query → Engine → Except Fault (Info × Engine)
  | .node i => Engine.nodeInfo g i
  | .rule r => Engine.ruleInfo g r
  | .rest entries => Engine.restInfo g entries

/-- The answer is remembered for the node or for the body of the rule. For a rest something is
remembered for each element that is read. -/
def Held (g : Grammar) (memo : Std.TreeMap NodeId Info) (info : Info) : Query → Prop
  | .node i => memo[i]? = some info
  | .rule r => ∃ R, g.rules[r]? = some R ∧ memo[R.body.id]? = some info
  | .rest entries => ∀ entry ∈ g.readOf entries, ∃ info, memo[entry.target]? = some info

end Query

namespace Grammar

open Search

variable {g : Grammar} {e e' : Engine}

theorem Asked.ask (h : g.Asked e) {q : Query} (hq : q.ask g e = .ok (info, e')) : g.Asked e' := by
  cases q with
  | node i => exact .node h hq
  | rule r => exact .rule h hq
  | rest entries => exact .rest h hq

theorem Searches.memo_mono (h : g.Searches e e') {i : NodeId} {info : Info}
    (hi : e.memo[i]? = some info) : e'.memo[i]? = some info := by
  obtain ⟨-, t, s, -, -, hrun⟩ := h
  exact hrun.memo_mono hi

/-- No question makes the engine forget anything. -/
theorem Ready.ask_memo_mono (he : g.Ready e) (hg : g.WellFormed) {q : Query}
    (hq : q.ask g e = .ok (info, e')) {i : NodeId} {known : Info}
    (hi : e.memo[i]? = some known) : e'.memo[i]? = some known := by
  have hsearches : Relation.ReflTransGen g.Searches e e' := by
    cases q with
    | node i => exact .single (he.nodeInfo_searches hg hq)
    | rule r => exact .single (he.ruleInfo_searches hq)
    | rest entries => exact he.restInfo_searches hg hq
  clear hq
  induction hsearches with
  | refl => exact hi
  | tail _ hs ih => exact hs.memo_mono ih

/-- Between questions an answer is pending on nothing. -/
theorem Ready.pending_eq_nil (he : g.Ready e) (h : Runs g t e s e') : s.pending = [] :=
  List.subset_nil.1 (he.idle ▸ h.pending_subset)

theorem Ready.nodeInfo_held (he : g.Ready e) (hg : g.WellFormed) {i : NodeId}
    (hi : i < g.nodes.size) :
    ∃ info e', e.nodeInfo g i = .ok (info, e') ∧ e'.memo[i]? = some info := by
  have hn : g.nodes[i]? = some g.nodes[i] := Array.getElem?_eq_getElem hi
  have hrun := node_runs he.room g.nodes[i]
  have hmemo := hrun.node_remembered (he.pending_eq_nil hrun)
  rw [hg.nodes.numbered hn] at hmemo
  exact ⟨_, _, nodeInfo_eq hn, hmemo⟩

theorem Ready.ruleInfo_held (he : g.Ready e) (hrule : g.rules[r]? = some R) :
    ∃ info e', e.ruleInfo g r = .ok (info, e') ∧ e'.memo[R.body.id]? = some info := by
  have hrun := rule_runs he.room r
  exact ⟨_, _, ruleInfo_eq hrule, hrun.rule_remembered hrule (he.pending_eq_nil hrun)⟩

/-- An element of a rest is answered, and its nullability is exact. -/
theorem Ready.entryInfo_held (he : g.Ready e) (hg : g.WellFormed) {entry : Entry}
    (hi : entry.target < g.nodes.size) :
    ∃ info e', e.entryInfo g entry = .ok (info, e') ∧ g.Ready e' ∧
      (g.entryTree? entry).any (fun n => (g.exact n).nullable) = info.nullable ∧
      ∃ known, e'.memo[entry.target]? = some known := by
  have hn : g.nodes[entry.target]? = some g.nodes[entry.target] := Array.getElem?_eq_getElem hi
  obtain ⟨n, htree⟩ : ∃ n, g.entryTree? entry = some n := by
    cases entry with
    | node i => exact ⟨_, hn⟩
    | again body separator => exact ⟨_, Option.map_eq_some_iff.2 ⟨_, hn, rfl⟩⟩
  obtain ⟨hready, hfits⟩ := he.entryInfo hg entry
  obtain ⟨info, e', hq, hinfo⟩ := hfits htree
  refine ⟨info, e', hq, hready hq, ?_, ?_⟩
  · rw [htree, Option.any_some, hinfo.nullable]
  · obtain ⟨known, e'', hnode, hmemo⟩ := he.nodeInfo_held hg hi
    cases entry with
    | node i =>
      cases hq.symm.trans hnode
      exact ⟨_, hmemo⟩
    | again body separator =>
      change e.nodeInfo g (separator.getD body) = _ at hnode
      simp only [Engine.entryInfo, hnode, bind, Except.bind, pure, Except.pure] at hq
      cases hq
      exact ⟨_, hmemo⟩

theorem Ready.restInfo_held (he : g.Ready e) (hg : g.WellFormed) {entries : Rest}
    (hi : ∀ entry ∈ entries, entry.target < g.nodes.size) :
    ∃ info e', e.restInfo g entries = .ok (info, e') ∧
      ∀ entry ∈ g.readOf entries, ∃ known, e'.memo[entry.target]? = some known := by
  induction entries generalizing e with
  | nil => exact ⟨_, _, rfl, List.forall_mem_nil _⟩
  | cons entry entries ih =>
    obtain ⟨hentry, hentries⟩ := List.forall_mem_cons.1 hi
    obtain ⟨head, e₁, hq, he₁, hnull, known, hknown⟩ := he.entryInfo_held hg hentry
    rw [restInfo_cons hq, readOf, hnull]
    cases hn : head.nullable with
    | false => exact ⟨_, _, if_neg Bool.false_ne_true, by simpa using ⟨known, hknown⟩⟩
    | true =>
      obtain ⟨tail, e₂, hrest, hheld⟩ := ih he₁ hentries
      have hstays := he₁.ask_memo_mono hg (q := .rest entries) hrest hknown
      rw [hrest]
      exact ⟨_, _, if_pos rfl, by simpa using ⟨⟨known, hstays⟩, hheld⟩⟩

/-- A question about the grammar is answered, and the engine has then something to show for it. -/
theorem Ready.ask_held (he : g.Ready e) (hg : g.WellFormed) {q : Query} (hq : q.Inside g) :
    ∃ info e', q.ask g e = .ok (info, e') ∧ q.Held g e'.memo info := by
  cases q with
  | node i => exact he.nodeInfo_held hg hq
  | rule r =>
    have hrule : g.rules[r]? = some g.rules[r] := Array.getElem?_eq_getElem hq
    obtain ⟨info, e', hask, hmemo⟩ := he.ruleInfo_held hrule
    exact ⟨info, e', hask, _, hrule, hmemo⟩
  | rest entries => exact he.restInfo_held hg hq

end Grammar

end Descent
