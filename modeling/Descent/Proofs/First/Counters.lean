import Descent.Proofs.First.Calls

/-!
# Counting the active rules

The engine keeps the list of the active rules, and with each result the list of those that it is
pending on. A search can do with less. `Counters` has a depth and, for each rule, the depth at which
its body was entered; a result has the least depth that it is tainted by. Here both numbers are
checked: a search fails where it would count down from zero, or look at a rule that has no mark.

`Engine.counters` forgets the lists, and `Counters.node_counted` and `Counters.rule_counted` show
that the counting search does what the search does, whatever budget covers the rules that are not
active. So it never fails. Since no rule is active between questions, its depth is zero then and all
marks are gone.
-/

namespace Descent

/-- A result, with the depth of the outermost active rule that it was cut at. -/
structure Reply where
  info : Info := {}
  taint : Option Nat := none

namespace Reply

def andThen (a b : Reply) : Reply where
  info := { first := a.info.first ∪ b.info.first, nullable := a.info.nullable && b.info.nullable }
  taint := Option.merge min a.taint b.taint

def orElse (a b : Reply) : Reply where
  info := { first := a.info.first ∪ b.info.first, nullable := a.info.nullable || b.info.nullable }
  taint := Option.merge min a.taint b.taint

/-- A result once the search of the rule has ended that was entered at the depth: only rules further
out still taint it. -/
def settle (a : Reply) (depth : Nat) : Reply := { a with taint := a.taint.filter (· < depth) }

def loop (a : Reply) (kind : Repetition) : Reply :=
  { a with info.nullable := kind.allowsEmpty || a.info.nullable }

end Reply

/-- The state of a counting search. -/
structure Counters where
  memo : Std.TreeMap NodeId Info := {}
  /-- For each rule by number, the depth at which its body was entered, while it is searched. -/
  entered : Array (Option Nat)
  depth : Nat := 0
  approximated : List RuleId := []

/-- A counting search gives its result and the state that it leaves behind, unless it fails. -/
abbrev Counting := Counters → Option (Reply × Counters)

namespace Counters

/-- No rule is marked. -/
def fresh (g : Grammar) : Counters := { entered := Array.replicate g.rules.size none }

def approximate (c : Counters) (r : RuleId) : Counters :=
  if r ∈ c.approximated then c else { c with approximated := c.approximated ++ [r] }

def enter (c : Counters) (r : RuleId) : Counters :=
  { c with depth := c.depth + 1, entered := c.entered.setIfInBounds r (some c.depth) }

/-- Takes the mark of a rule away and counts down, which fails at depth zero. -/
def leave (c : Counters) (r : RuleId) : Option Counters :=
  match c.depth with
  | 0 => none
  | depth + 1 => some { c with depth, entered := c.entered.setIfInBounds r none }

/-- Remembers a result that nothing taints. -/
def keep (c : Counters) (id : NodeId) (reply : Reply) : Counters :=
  if reply.taint.isNone then { c with memo := c.memo.insert id reply.info } else c

/-- What is remembered for a node, or else the outcome of a search. -/
def memoized (id : NodeId) (search : Counting) : Counting := fun c =>
  match c.memo[id]? with
  | some info => some ({ info }, c)
  | none => (search c).map fun found => (found.1, found.2.keep id found.1)

mutual

/-- Searches a tree, given how to search a referenced rule. -/
def node (enter : RuleId → Counting) : Node → Counting
  | .leaf id (.terminal kind) _ => memoized id fun c => some ({ info.first := .single kind }, c)
  | .leaf id (.rule target) _ => memoized id (enter target)
  | .group id .alternation branches => memoized id (branchesOf enter branches)
  | .group id _ items => memoized id (itemsOf enter items)
  | .loop id kind body _ => memoized id fun c =>
    (node enter body c).map fun found => (found.1.loop kind, found.2)

/-- Searches items in a row, up to the first one that is not nullable. -/
def itemsOf (enter : RuleId → Counting) : List Node → Counting
  | [] => fun c => some ({ info.nullable := true }, c)
  | item :: items => fun c =>
    (node enter item c).bind fun head =>
      if head.1.info.nullable then
        (itemsOf enter items head.2).map fun tail => (head.1.andThen tail.1, tail.2)
      else
        some head

def branchesOf (enter : RuleId → Counting) : List Node → Counting
  | [] => fun c => some ({}, c)
  | branch :: branches => fun c =>
    (node enter branch c).bind fun head =>
      (branchesOf enter branches head.2).map fun tail => (head.1.orElse tail.1, tail.2)

end

/-- Searches the body of a rule. This fails for a rule that the grammar or the marks do not have,
and when the budget is used up. -/
def rule (g : Grammar) (budget : Nat) (r : RuleId) : Counting := fun c =>
  match c.entered[r]?, budget, g.rules[r]? with
  | some (some depth), _, _ => some ({ taint := some depth }, c.approximate r)
  | some none, budget + 1, some R =>
    match c.memo[R.body.id]? with
    | some info => some ({ info }, c)
    | none =>
      (node (rule g budget) R.body (c.enter r)).bind fun found =>
        (found.2.leave r).map fun left =>
          (found.1.settle c.depth, left.keep R.body.id (found.1.settle c.depth))
  | _, _, _ => none

end Counters

/-! ## Forgetting the lists -/

/-- The depth at which an active rule was entered. -/
def enteredAt : List RuleId → RuleId → Option Nat
  | [], _ => none
  | top :: active, r => if r = top then some active.length else enteredAt active r

/-- The least depth at which one of the rules was entered. -/
def taintOf (active : List RuleId) : List RuleId → Option Nat
  | [] => none
  | r :: pending => Option.merge min (enteredAt active r) (taintOf active pending)

/-- For each rule the depth at which it was entered. -/
def Grammar.marks (g : Grammar) (active : List RuleId) : Array (Option Nat) :=
  Array.ofFn fun r : Fin g.rules.size => enteredAt active r

def Engine.counters (g : Grammar) (e : Engine) : Counters where
  memo := e.memo
  entered := g.marks e.active
  depth := e.active.length
  approximated := e.approximated

def Scan.reply (active : List RuleId) (s : Scan) : Reply where
  info := s.info
  taint := taintOf active s.pending

variable {g : Grammar} {e e' : Engine} {s : Scan} {r : RuleId} {R : Rule}
  {active pending : List RuleId}

/-! ### Marks -/

theorem enteredAt_of_notMem (hr : r ∉ active) : enteredAt active r = none := by
  induction active with
  | nil => rfl
  | cons top active ih =>
    rw [List.mem_cons, not_or] at hr
    rw [enteredAt, if_neg hr.1, ih hr.2]

theorem exists_enteredAt (hr : r ∈ active) :
    ∃ depth, enteredAt active r = some depth ∧ depth < active.length := by
  induction active with
  | nil => cases hr
  | cons top active ih =>
    rw [enteredAt]
    split
    next => exact ⟨_, rfl, Nat.lt_succ_self _⟩
    next hne =>
      obtain ⟨depth, hdepth, hlt⟩ := ih ((List.mem_cons.1 hr).resolve_left hne)
      exact ⟨depth, hdepth, Nat.lt_succ_of_lt hlt⟩

theorem getElem?_marks (g : Grammar) (active : List RuleId) (r : Nat) :
    (g.marks active)[r]? = if r < g.rules.size then some (enteredAt active r) else none := by
  rw [Grammar.marks, Array.getElem?_ofFn]
  split <;> rfl

theorem marks_nil (g : Grammar) : g.marks [] = Array.replicate g.rules.size none := by
  refine Array.ext_getElem? fun r => ?_
  rw [getElem?_marks, Array.getElem?_replicate, enteredAt]

theorem marks_enter (g : Grammar) (active : List RuleId) (r : RuleId) :
    (g.marks active).setIfInBounds r (some active.length) = g.marks (r :: active) := by
  refine Array.ext_getElem? fun r' => ?_
  rw [Array.getElem?_setIfInBounds, getElem?_marks, getElem?_marks, enteredAt]
  by_cases hr : r = r'
  · simp [hr, Grammar.marks]
  · simp [hr, Ne.symm hr]

theorem marks_leave (g : Grammar) (hr : r ∉ active) :
    (g.marks (r :: active)).setIfInBounds r none = g.marks active := by
  refine Array.ext_getElem? fun r' => ?_
  rw [Array.getElem?_setIfInBounds, getElem?_marks, getElem?_marks, enteredAt]
  by_cases hr' : r = r'
  · subst hr'
    simp [enteredAt_of_notMem hr, Grammar.marks]
  · simp [hr', Ne.symm hr']

theorem counters_fresh (g : Grammar) : Engine.counters g {} = .fresh g := by
  rw [Engine.counters, Counters.fresh, marks_nil]
  rfl

theorem counters_enter (g : Grammar) (e : Engine) (r : RuleId) :
    (e.counters g).enter r = (e.enter r).counters g := by
  simp [Counters.enter, Engine.counters, Engine.enter, marks_enter]

theorem counters_leave (hactive : e.active = r :: active) (hr : r ∉ active) :
    (e.counters g).leave r = some (e.leave.counters g) := by
  simp [Counters.leave, Engine.counters, Engine.leave, hactive, marks_leave g hr]

theorem counters_approximate (g : Grammar) (e : Engine) (r : RuleId) :
    (e.approximate r).counters g = (e.counters g).approximate r := by
  unfold Engine.approximate Counters.approximate
  change _ = if r ∈ e.approximated then _ else _
  split <;> rfl

/-! ### Taints -/

theorem taintOf_append (active a b : List RuleId) :
    taintOf active (a ++ b) = Option.merge min (taintOf active a) (taintOf active b) := by
  induction a with
  | nil => simp [taintOf]
  | cons r a ih =>
    rw [List.cons_append, taintOf, taintOf, ih]
    ac_rfl

theorem merge_taintOf_of_mem (hr : r ∈ pending) :
    Option.merge min (enteredAt active r) (taintOf active pending) = taintOf active pending := by
  induction hr with
  | head pending =>
    calc Option.merge min (enteredAt active r) (taintOf active (r :: pending))
      _ = Option.merge min (Option.merge min (enteredAt active r) (enteredAt active r))
            (taintOf active pending) := by
        rw [taintOf]
        ac_rfl
      _ = taintOf active (r :: pending) :=
        congrArg (Option.merge min · _) (Std.IdempotentOp.idempotent (enteredAt active r))
  | @tail r' pending _ ih =>
    calc Option.merge min (enteredAt active r) (taintOf active (r' :: pending))
      _ = Option.merge min (enteredAt active r')
            (Option.merge min (enteredAt active r) (taintOf active pending)) := by
        rw [taintOf]
        ac_rfl
      _ = taintOf active (r' :: pending) := by rw [ih, taintOf]

/-- A rule that both results are pending on counts once, and its depth is as small as it was. -/
theorem taintOf_joinPending (active a b : List RuleId) :
    taintOf active (Scan.joinPending a b) =
      Option.merge min (taintOf active a) (taintOf active b) := by
  rw [Scan.joinPending, taintOf_append]
  induction b with
  | nil => rfl
  | cons r b ih =>
    by_cases hr : r ∈ a
    · rw [List.filter_cons_of_neg (by simpa using hr), ih, taintOf]
      calc Option.merge min (taintOf active a) (taintOf active b)
        _ = Option.merge min (Option.merge min (enteredAt active r) (taintOf active a))
              (taintOf active b) := by rw [merge_taintOf_of_mem hr]
        _ = _ := by ac_rfl
    · rw [List.filter_cons_of_pos (by simpa using hr), taintOf, taintOf]
      calc Option.merge min (taintOf active a)
            (Option.merge min (enteredAt active r) (taintOf active (b.filter (· ∉ a))))
        _ = Option.merge min (enteredAt active r)
              (Option.merge min (taintOf active a) (taintOf active (b.filter (· ∉ a)))) := by ac_rfl
        _ = _ := by
          rw [ih]
          ac_rfl

/-- The rule that was entered last is the deepest one: it taints a result only if no other does. -/
theorem taintOf_settle (hpending : pending ⊆ r :: active) :
    (taintOf (r :: active) pending).filter (· < active.length) =
      taintOf active (pending.filter (· ≠ r)) := by
  induction pending with
  | nil => rfl
  | cons r' pending ih =>
    obtain ⟨hr', hpending⟩ := List.cons_subset.1 hpending
    rw [taintOf, enteredAt]
    split
    next heq =>
      -- this depth is not below the limit, and whatever is below it is smaller anyway
      rw [List.filter_cons_of_neg (by simpa using heq), ← ih hpending]
      cases taintOf (r :: active) pending with
      | none => simp
      | some depth =>
        by_cases hlt : depth < active.length
        · have hmin : min active.length depth = depth := by omega
          simp [hlt, hmin, Option.filter]
        · simp [hlt, Option.filter]
    next hne =>
      -- this depth is below the limit, so the least depth is too
      obtain ⟨depth, hdepth, hlt⟩ := exists_enteredAt ((List.mem_cons.1 hr').resolve_left hne)
      rw [List.filter_cons_of_pos (by simpa using hne), taintOf, ← ih hpending, hdepth]
      cases taintOf (r :: active) pending with
      | none => simp [hlt]
      | some depth' =>
        by_cases hlt' : depth' < active.length
        · simp [hlt, hlt', Option.filter]
        · have hmin : min depth depth' = depth := by omega
          simp [hlt, hlt', hmin, Option.filter]

theorem taintOf_eq_none (hpending : pending ⊆ active) :
    taintOf active pending = none ↔ pending = [] := by
  cases pending with
  | nil => exact ⟨fun _ => rfl, fun _ => rfl⟩
  | cons r pending =>
    obtain ⟨depth, hdepth, -⟩ := exists_enteredAt (hpending List.mem_cons_self)
    rw [taintOf, hdepth]
    cases taintOf active pending <;> simp

theorem counters_keep (hpending : s.pending ⊆ active) (i : NodeId) :
    (e.counters g).keep i (s.reply active) = (Search.keep i s e).2.counters g := by
  unfold Counters.keep Search.keep
  dsimp only
  by_cases hs : s.pending = []
  · rw [if_pos (by simp [Scan.reply, hs, taintOf]), if_pos (by simp [hs])]
    rfl
  · rw [if_neg (by simpa [Scan.reply, taintOf_eq_none hpending] using hs),
      if_neg (by simpa using hs)]

theorem reply_andThen (active : List RuleId) (a b : Scan) :
    (a.andThen b).reply active = (a.reply active).andThen (b.reply active) := by
  rw [Scan.reply, Scan.andThen, taintOf_joinPending]
  rfl

theorem reply_orElse (active : List RuleId) (a b : Scan) :
    (a.orElse b).reply active = (a.reply active).orElse (b.reply active) := by
  rw [Scan.reply, Scan.orElse, taintOf_joinPending]
  rfl

theorem reply_settle (hpending : s.pending ⊆ r :: active) :
    (s.reply (r :: active)).settle active.length = (s.settle r).reply active := by
  rw [Reply.settle, Scan.reply, taintOf_settle hpending]
  rfl

/-! ## The counting search does what the search does -/

open Search

/-- What the counting search makes of a result, where these rules are active. -/
def counted (g : Grammar) (active : List RuleId) (found : Scan × Engine) :
    Option (Reply × Counters) :=
  some (found.1.reply active, found.2.counters g)

namespace Counters

theorem memoized_counted {search : Search} {counting : Counting}
    (h : counting (e.counters g) = counted g active (search e))
    (hpending : (search e).1.pending ⊆ active) (i : NodeId) :
    memoized i counting (e.counters g) = counted g active (Search.memoized i search e) := by
  unfold memoized Search.memoized
  change (match e.memo[i]? with | some info => _ | none => _) = _
  cases e.memo[i]? with
  | some info => rfl
  | none =>
    rw [h, counted, Option.map_some, counters_keep hpending]
    rfl

/-- Rules of the grammar are searched alike from every engine whose active rules are these. -/
def EntersAlike (g : Grammar) (enter : RuleId → Search) (counting : RuleId → Counting)
    (active : List RuleId) : Prop :=
  ∀ r e, r < g.rules.size → e.active = active →
    counting r (e.counters g) = counted g active (enter r e)

mutual

theorem node_counted_of {enter : RuleId → Search} {counting : RuleId → Counting}
    (hg : g.WellFormed) (hruns : Enters g enter active) (h : EntersAlike g enter counting active) :
    ∀ (n : Node) (e : Engine), g.nodes[n.id]? = some n → e.active = active →
      node counting n (e.counters g) = counted g active (Search.node enter n e)
  | .leaf i (.terminal kind) o, _, _, _ => memoized_counted rfl (List.nil_subset _) i
  | .leaf i (.rule r) o, e, hn, he =>
    memoized_counted (h r e (hg.nodes.resolved hn) he) (he ▸ (hruns r e he).pending_subset) i
  | .group i .sequence items, e, hn, he =>
    memoized_counted (itemsOf_counted_of hg hruns h items e (hg.nodes.closed hn) he)
      (he ▸ (itemsOf_runs_of hruns items e he).pending_subset) i
  | .group i .flat items, e, hn, he =>
    memoized_counted (itemsOf_counted_of hg hruns h items e (hg.nodes.closed hn) he)
      (he ▸ (itemsOf_runs_of hruns items e he).pending_subset) i
  | .group i .alternation branches, e, hn, he =>
    memoized_counted (branchesOf_counted_of hg hruns h branches e (hg.nodes.closed hn) he)
      (he ▸ (branchesOf_runs_of hruns branches e he).pending_subset) i
  | .loop i kind body separator, e, hn, he => by
    have hbody := hg.nodes.closed hn body List.mem_cons_self
    refine memoized_counted ?_ (he ▸ (node_runs_of hruns body e he).pending_subset) i
    rw [node_counted_of hg hruns h body e hbody he]
    rfl

theorem itemsOf_counted_of {enter : RuleId → Search} {counting : RuleId → Counting}
    (hg : g.WellFormed) (hruns : Enters g enter active) (h : EntersAlike g enter counting active) :
    ∀ (items : List Node) (e : Engine), (∀ n ∈ items, g.nodes[n.id]? = some n) →
      e.active = active →
      itemsOf counting items (e.counters g) = counted g active (Search.itemsOf enter items e)
  | [], _, _, _ => rfl
  | item :: items, e, hn, he => by
    obtain ⟨hitem, hitems⟩ := List.forall_mem_cons.1 hn
    have hactive := (node_runs_of hruns item e he).active.trans he
    rw [itemsOf, Search.itemsOf]
    dsimp only
    rw [node_counted_of hg hruns h item e hitem he, counted, Option.bind_some]
    by_cases hnull : (Search.node enter item e).1.info.nullable = true
    · refine (if_pos hnull).trans ?_
      rw [if_pos hnull, itemsOf_counted_of hg hruns h items _ hitems hactive, counted,
        Option.map_some, counted, reply_andThen]
    · refine (if_neg hnull).trans ?_
      rw [if_neg hnull, counted]

theorem branchesOf_counted_of {enter : RuleId → Search} {counting : RuleId → Counting}
    (hg : g.WellFormed) (hruns : Enters g enter active) (h : EntersAlike g enter counting active) :
    ∀ (branches : List Node) (e : Engine), (∀ n ∈ branches, g.nodes[n.id]? = some n) →
      e.active = active →
      branchesOf counting branches (e.counters g) =
        counted g active (Search.branchesOf enter branches e)
  | [], _, _, _ => rfl
  | branch :: branches, e, hn, he => by
    obtain ⟨hbranch, hbranches⟩ := List.forall_mem_cons.1 hn
    have hactive := (node_runs_of hruns branch e he).active.trans he
    rw [branchesOf, Search.branchesOf]
    dsimp only
    rw [node_counted_of hg hruns h branch e hbranch he, counted, Option.bind_some,
      branchesOf_counted_of hg hruns h branches _ hbranches hactive, counted, Option.map_some,
      counted, reply_orElse]

end

theorem rule_counted (hg : g.WellFormed) (h : Room g budget e.active) (hr : r < g.rules.size) :
    rule g budget r (e.counters g) = counted g e.active (Search.rule g budget r e) := by
  induction budget using Nat.strong_induction_on generalizing r e with
  | _ budget ih =>
    have hmark : (e.counters g).entered[r]? = some (enteredAt e.active r) := by
      rw [Engine.counters, getElem?_marks, if_pos hr]
    unfold rule Search.rule
    by_cases hactive : r ∈ e.active
    · obtain ⟨depth, hdepth, -⟩ := exists_enteredAt hactive
      rw [hmark, hdepth, if_pos hactive, counted, counters_approximate, Scan.reply, taintOf, hdepth]
      rfl
    have hrule : g.rules[r]? = some g.rules[r] := Array.getElem?_eq_getElem hr
    obtain ⟨rest, rfl, hroom⟩ := h.enter hactive hrule
    rw [hmark, enteredAt_of_notMem hactive, if_neg hactive, hrule]
    dsimp only
    change (match e.memo[g.rules[r].body.id]? with | some info => _ | none => _) = _
    cases hmemo : e.memo[g.rules[r].body.id]? with
    | some info => rfl
    | none =>
      dsimp only
      have hruns : Enters g (Search.rule g rest) (r :: e.active) :=
        fun r' e' he' => rule_runs (he' ▸ hroom) r'
      have halike : EntersAlike g (Search.rule g rest) (rule g rest) (r :: e.active) := by
        intro r' e' hr' he'
        rw [ih rest (Nat.lt_succ_self rest) (he' ▸ hroom) hr', he']
      have hrun := node_runs_of hruns g.rules[r].body (e.enter r) rfl
      have hsettled := (Runs.entered hactive hrule hmemo hrun).pending_subset
      rw [counters_enter, node_counted_of hg hruns halike _ (e.enter r) (hg.bodies hrule) rfl,
        counted, Option.bind_some]
      dsimp only
      have hdepth : (e.counters g).depth = e.active.length := rfl
      rw [counters_leave hrun.active hactive, Option.map_some, hdepth,
        reply_settle hrun.pending_subset, counters_keep hsettled]
      rfl

theorem node_counted (hg : g.WellFormed) (h : Room g budget e.active)
    (hn : g.nodes[n.id]? = some n) :
    node (rule g budget) n (e.counters g) =
      counted g e.active (Search.node (Search.rule g budget) n e) := by
  have hruns : Enters g (Search.rule g budget) e.active :=
    fun r e' he' => rule_runs (he' ▸ h) r
  have halike : EntersAlike g (Search.rule g budget) (rule g budget) e.active := by
    intro r e' hr he'
    rw [rule_counted hg (he' ▸ h) hr, he']
  exact node_counted_of hg hruns halike n e hn rfl

end Counters

/-! ## Questions -/

namespace Counters

def nodeInfo (g : Grammar) (budget : Nat) (i : NodeId) (c : Counters) : Option (Info × Counters) :=
  g.nodes[i]?.bind fun n =>
    (node (rule g budget) n c).map fun found => (found.1.info, found.2)

def ruleInfo (g : Grammar) (budget : Nat) (r : RuleId) (c : Counters) : Option (Info × Counters) :=
  (rule g budget r c).map fun found => (found.1.info, found.2)

def entryInfo (g : Grammar) (budget : Nat) : Entry → Counters → Option (Info × Counters)
  | .node i, c => nodeInfo g budget i c
  | .again body separator, c =>
    (nodeInfo g budget (separator.getD body) c).map fun found =>
      ({ found.1 with nullable := true }, found.2)

def restInfo (g : Grammar) (budget : Nat) : Rest → Counters → Option (Info × Counters)
  | [], c => some ({ nullable := true }, c)
  | entry :: entries, c =>
    (entryInfo g budget entry c).bind fun head =>
      if head.1.nullable then
        (restInfo g budget entries head.2).map fun tail =>
          ({ tail.1 with first := head.1.first ∪ tail.1.first }, tail.2)
      else
        some head

end Counters

/-- The question, put to a counting search. -/
def Query.count (g : Grammar) (budget : Nat) : Query → Counters → Option (Info × Counters)
  | .node i => Counters.nodeInfo g budget i
  | .rule r => Counters.ruleInfo g budget r
  | .rest entries => Counters.restInfo g budget entries

theorem Search.Room.mono (h : Room g budget active) (hle : budget ≤ budget') :
    Room g budget' active :=
  ⟨h.nodup, h.bounded, Nat.le_trans h.covers (Nat.add_le_add_right hle _)⟩

/-- A search that runs does so under any budget that is large enough. -/
theorem Search.Runs.node_eq (h : Runs g (.node n) e s e') (hroom : Room g budget e.active) :
    Search.node (Search.rule g budget) n e = (s, e') := by
  obtain ⟨hs, he'⟩ := h.unique (node_runs hroom n)
  exact Prod.ext hs he'

theorem Search.Runs.rule_eq (h : Runs g (.rule r) e s e') (hroom : Room g budget e.active) :
    Search.rule g budget r e = (s, e') := by
  obtain ⟨hs, he'⟩ := h.unique (rule_runs hroom r)
  exact Prod.ext hs he'

namespace Grammar

theorem Ready.nodeInfo_counted (he : g.Ready e) (hg : g.WellFormed) (hb : g.rules.size ≤ budget)
    (hq : e.nodeInfo g i = .ok (info, e')) :
    Counters.nodeInfo g budget i (e.counters g) = some (info, e'.counters g) := by
  cases hn : g.nodes[i]? with
  | none =>
    rw [Engine.nodeInfo, Grammar.node, hn] at hq
    cases hq
  | some n =>
    rw [nodeInfo_eq hn] at hq
    cases hq
    have howned : g.nodes[n.id]? = some n := hg.nodes.numbered hn ▸ hn
    rw [Counters.nodeInfo, hn, Option.bind_some, Counters.node_counted hg (he.room.mono hb) howned,
      (node_runs he.room n).node_eq (he.room.mono hb)]
    rfl

theorem Ready.ruleInfo_counted (he : g.Ready e) (hg : g.WellFormed) (hb : g.rules.size ≤ budget)
    (hq : e.ruleInfo g r = .ok (info, e')) :
    Counters.ruleInfo g budget r (e.counters g) = some (info, e'.counters g) := by
  cases hrule : g.rules[r]? with
  | none =>
    rw [Engine.ruleInfo, Grammar.rule, hrule] at hq
    cases hq
  | some R =>
    rw [ruleInfo_eq hrule] at hq
    cases hq
    have hr : r < g.rules.size := (Array.getElem?_eq_some_iff.1 hrule).1
    rw [Counters.ruleInfo, Counters.rule_counted hg (he.room.mono hb) hr,
      (rule_runs he.room r).rule_eq (he.room.mono hb)]
    rfl

theorem Ready.entryInfo_counted (he : g.Ready e) (hg : g.WellFormed) (hb : g.rules.size ≤ budget)
    (hq : e.entryInfo g entry = .ok (info, e')) :
    Counters.entryInfo g budget entry (e.counters g) = some (info, e'.counters g) := by
  cases entry with
  | node i => exact he.nodeInfo_counted hg hb hq
  | again body separator =>
    cases hnode : e.nodeInfo g (separator.getD body) with
    | error fault => simp [Engine.entryInfo, hnode, bind, Except.bind] at hq
    | ok answer =>
      simp only [Engine.entryInfo, hnode, bind, Except.bind, pure, Except.pure] at hq
      cases hq
      rw [Counters.entryInfo, he.nodeInfo_counted hg hb hnode]
      rfl

theorem Ready.restInfo_counted (he : g.Ready e) (hg : g.WellFormed) (hb : g.rules.size ≤ budget)
    {entries : Rest} (hq : e.restInfo g entries = .ok (info, e')) :
    Counters.restInfo g budget entries (e.counters g) = some (info, e'.counters g) := by
  induction entries generalizing e info with
  | nil =>
    cases hq
    rfl
  | cons entry entries ih =>
    cases hentry : e.entryInfo g entry with
    | error fault => simp [Engine.restInfo, hentry, bind, Except.bind] at hq
    | ok answer =>
      rw [Counters.restInfo, he.entryInfo_counted hg hb hentry, Option.bind_some]
      rw [restInfo_cons hentry] at hq
      split at hq
      next hn =>
        cases hrest : answer.2.restInfo g entries with
        | error fault =>
          rw [hrest] at hq
          cases hq
        | ok answer' =>
          rw [hrest] at hq
          cases hq
          rw [if_pos hn, ih ((he.entryInfo hg entry).ready hentry) hrest]
          rfl
      next hn =>
        cases hq
        rw [if_neg hn]

/-- A question that has been answered leaves nothing behind but what it adds to the memory, and the
counting search answers it in the same way under every budget that covers the rules. -/
structure CleanAfter (g : Grammar) (e : Engine) (q : Query) (info : Info) (e' : Engine) : Prop where
  counted : ∀ budget, g.rules.size ≤ budget →
    q.count g budget (e.counters g) = some (info, e'.counters g)
  depth : (e'.counters g).depth = 0
  unmarked : (e'.counters g).entered = Array.replicate g.rules.size none
  held : q.Held g e'.memo info
  kept : ∀ (i : NodeId) known, e.memo[i]? = some known → e'.memo[i]? = some known
  nodup : e'.approximated.Nodup

/-- The search always comes to an end and cleans up. Each call that it makes on the way enters a
rule that was not active or moves to a tree with a smaller number. This cannot go on forever, so
every call has a run, which is what the search finds under every budget that covers the rules.
Whatever was asked before, a question about nodes and rules of the grammar is answered. The depth is
never counted down from zero, no mark is left, the answer is remembered, what was remembered before
still is, and no rule is noted twice. -/
theorem search_ends_clean (hg : g.Built) (he : g.Asked e) :
    Engine.counters g {} = .fresh g ∧
    (∀ inner outer : Call g, inner.MadeBy outer → inner.Descends outer) ∧
    WellFounded (Call.MadeBy (g := g)) ∧
    (∀ c : Call g, ∃ s e', Runs g (.node c.tree) c.engine s e' ∧
      ∀ budget, g.rules.size ≤ budget →
        Search.node (Search.rule g budget) c.tree c.engine = (s, e')) ∧
    ∀ q : Query, q.Inside g →
      ∃ info e', q.ask g e = .ok (info, e') ∧ g.CleanAfter e q info e' := by
  have hwf := hg.wellFormed
  have hready := he.ready hwf
  refine ⟨counters_fresh g, fun inner outer h => h.descends hg.forest,
    Call.madeBy_wellFounded hg.forest, fun c => ?_, fun q hq => ?_⟩
  · obtain ⟨s, e', hrun⟩ := c.ends hg.forest
    refine ⟨s, e', hrun, fun budget hb => hrun.node_eq ⟨c.nodup, c.bounded, ?_⟩⟩
    exact Nat.le_add_right_of_le hb
  · obtain ⟨info, e', hask, hheld⟩ := hready.ask_held hwf hq
    have hasked := he.ask hask
    have hidle := (hasked.ready hwf).idle
    refine ⟨info, e', hask, fun budget hb => ?_, ?_, ?_, hheld, fun i known => ?_, ?_⟩
    · cases q with
      | node i => exact hready.nodeInfo_counted hwf hb hask
      | rule r => exact hready.ruleInfo_counted hwf hb hask
      | rest entries => exact hready.restInfo_counted hwf hb hask
    · rw [Engine.counters, hidle]
      rfl
    · rw [Engine.counters, hidle, marks_nil]
    · exact hready.ask_memo_mono hwf hask
    · exact (hasked.surveyed hwf hg.rooted).nodup

/-- Phrases refer to each other in cycles, and asking for what leads one in has met such a cycle. A
rest that reads one after the other of two rules is then answered, and no mark is left. -/
theorem phrases_searched_clean : ∃ e info, Engine.ruleInfo phrasesBuilt 0 {} = .ok (info, e) ∧
    e.approximated = [0] ∧ ∃ info' e',
      Query.ask phrasesBuilt (.rest [.again 1 none, .node 7]) e = .ok (info', e') ∧
      phrasesBuilt.CleanAfter e (.rest [.again 1 none, .node 7]) info' e' := by
  have hasked : Engine.ruleInfo phrasesBuilt 0 {} = .ok (Engine.searchRule phrasesBuilt 0 {}) := rfl
  have hnoted : (Engine.searchRule phrasesBuilt 0 {}).2.approximated = [0] := by cbv
  have hclean := search_ends_clean (Draft.built phrases_build) (.rule .fresh hasked)
  have hinside : (Query.rest [.again 1 none, .node 7]).Inside phrasesBuilt := by
    simp [Query.Inside, Entry.target, phrasesBuilt]
  exact ⟨_, _, hasked, hnoted, hclean.2.2.2.2 _ hinside⟩

end Grammar

end Descent
