import Descent.Proofs.First.Answers

/-!
# Exact and approximate FIRST sets

`Grammar.Asked` is the set of engines that some history of questions leads to. Between questions no
rule is active, so every answer is pending on nothing: it fits the least solution
(`Grammar.Fits`), and so does all that is remembered. It follows that in a tame grammar every answer
is exact, and that in any grammar answers are exact about nullability and lose kinds only.

A rest is answered like a sequence. `Grammar.restTree?` is the tree that a rest stands for, where a
further iteration of a repetition is an optional item.
-/

namespace Descent

open Search

namespace Grammar

/-- The engines that some history of questions leads to. -/
inductive Asked (g : Grammar) : Engine → Prop where
  | fresh : Asked g {}
  | node : Asked g e → e.nodeInfo g i = .ok (info, e') → Asked g e'
  | rule : Asked g e → e.ruleInfo g r = .ok (info, e') → Asked g e'
  | rest : Asked g e → e.restInfo g rest = .ok (info, e') → Asked g e'

variable {g : Grammar} {e e' : Engine} {n : Node} {info : Info} {r : RuleId} {R : Rule}

/-! ## Questions from outside -/

/-- The value has the nullability of the exact value, and of its kinds maybe not all. In a tame
grammar it is the exact value. -/
structure Fits (g : Grammar) (info value : Info) : Prop where
  nullable : info.nullable = value.nullable
  first : info.first ⊆ value.first
  tame : g.Tame → info = value

theorem Answers.fits (h : g.Answers { info } n) : g.Fits info (g.exact n) := by
  have hfirst : info.first ⊆ (g.exact n).first :=
    fun k hk => mem_exact_first_iff.2 (h.shown.first k hk)
  have hnull : info.nullable = true ↔ (g.exact n).nullable = true :=
    ⟨fun hn => exact_nullable_iff.2 (h.shown.nullable hn),
      fun hn => h.nullable (exact_nullable_iff.1 hn)⟩
  refine ⟨Bool.eq_iff_iff.2 hnull, hfirst, fun ht => ?_⟩
  exact Info.le_antisymm ⟨hfirst, hnull.1⟩
    ⟨fun k hk => h.tameFirst ht k (mem_exact_first_iff.1 hk), hnull.2⟩

/-- No rule is active, and what is remembered answers. -/
structure Ready (g : Grammar) (e : Engine) : Prop where
  idle : e.active = []
  remembers : g.Remembers e

theorem Ready.fresh (g : Grammar) : g.Ready {} :=
  ⟨rfl, fun i info h => by simp at h⟩

theorem Ready.run (he : g.Ready e) (hg : g.WellFormed) (h : Runs g t e s e') (ho : g.Owns t) :
    g.Fits s.info (g.exact t.tree) ∧ g.Ready e' := by
  have hactive : g.Undisturbed e.active t.tree := by
    rw [he.idle]
    exact nofun
  obtain ⟨ha, hm⟩ := h.answers hg ho he.remembers fun _ => hactive
  have hpending : s.pending = [] := List.subset_nil.1 (he.idle ▸ h.pending_subset)
  exact ⟨(answers_of_pending ha hpending).fits, h.active.trans he.idle, hm⟩

theorem Ready.room (he : g.Ready e) : Room g g.rules.size e.active := he.idle ▸ Room.nil g

theorem Ready.searchNode (he : g.Ready e) (hg : g.WellFormed) (hn : g.nodes[n.id]? = some n) :
    g.Fits (e.searchNode g n).1 (g.exact n) ∧ g.Ready (e.searchNode g n).2 :=
  he.run hg (node_runs he.room n) hn

theorem exact_body (hrule : g.rules[r]? = some R) : g.exact R.body = g.exactRule r :=
  (g.exactRule_solves r R hrule).symm

theorem Ready.searchRule (he : g.Ready e) (hg : g.WellFormed) (r : RuleId) :
    g.Fits (e.searchRule g r).1 (g.exactRule r) ∧ g.Ready (e.searchRule g r).2 :=
  he.run hg (rule_runs he.room r) trivial

theorem Ready.searchRules (he : g.Ready e) (hg : g.WellFormed) (rs : List RuleId) :
    List.Forall₂ (fun info r => g.Fits info (g.exactRule r)) (e.searchRules g rs).1 rs ∧
      g.Ready (e.searchRules g rs).2 := by
  induction rs generalizing e with
  | nil => exact ⟨.nil, he⟩
  | cons r rs ih =>
    obtain ⟨hfits, he'⟩ := he.searchRule hg r
    obtain ⟨hall, he''⟩ := ih he'
    exact ⟨.cons hfits hall, he''⟩

/-- Closing the engine leaves a value for every rule. -/
theorem Ready.finish (he : g.Ready e) (hg : g.WellFormed) (hrule : g.rules[r]? = some R) :
    ∃ info, (e.finish g).rules[r]? = some info ∧ g.Fits info (g.exact R.body) := by
  have hr : r < g.rules.size := (Array.getElem?_eq_some_iff.1 hrule).1
  obtain ⟨hall, -⟩ := he.searchRules hg g.ruleIds
  rw [List.forall₂_iff_get] at hall
  obtain ⟨hlength, hall⟩ := hall
  have hr' : r < (e.searchRules g g.ruleIds).1.length := by
    rwa [hlength, ruleIds, List.length_range]
  refine ⟨(e.searchRules g g.ruleIds).1[r], by simp [Engine.finish, hr'], ?_⟩
  have hfits := hall r hr' (by simpa [ruleIds] using hr)
  rw [exact_body hrule]
  simpa [ruleIds] using hfits

theorem Ready.finish_size (he : g.Ready e) (hg : g.WellFormed) :
    (e.finish g).rules.size = g.rules.size := by
  obtain ⟨hall, -⟩ := he.searchRules hg g.ruleIds
  simpa [Engine.finish, ruleIds] using hall.length_eq

/-! ## Rests -/

/-- The tree that an element of a rest stands for. A further iteration can be left out. -/
def entryTree? (g : Grammar) : Entry → Option Node
  | .node i => g.nodes[i]?
  | .again body separator => g.nodes[separator.getD body]?.map (.loop 0 .optional · none)

/-- The tree that a rest stands for, if all its nodes belong to the grammar. -/
def restTree? (g : Grammar) (rest : Rest) : Option Node :=
  (rest.mapM g.entryTree?).map (.group 0 .sequence)

/-- A question whose answer leaves the engine ready, and fits the tree if there is one. -/
structure Serves (g : Grammar) (question : Except Fault (Info × Engine)) (tree? : Option Node) :
    Prop where
  ready : ∀ {info e}, question = .ok (info, e) → g.Ready e
  fits : ∀ {n}, tree? = some n → ∃ info e, question = .ok (info, e) ∧ g.Fits info (g.exact n)

theorem Ready.nodeInfo (he : g.Ready e) (hg : g.WellFormed) (i : NodeId) :
    g.Serves (e.nodeInfo g i) g.nodes[i]? := by
  unfold Engine.nodeInfo Grammar.node
  cases hn : g.nodes[i]? with
  | none => exact ⟨nofun, nofun⟩
  | some n =>
    obtain ⟨hfits, he'⟩ := he.searchNode hg (hg.nodes.numbered hn ▸ hn)
    refine ⟨fun h => ?_, ?_⟩
    · cases h
      exact he'
    · rintro _ ⟨⟩
      exact ⟨_, _, rfl, hfits⟩

theorem Ready.ruleInfo (he : g.Ready e) (hg : g.WellFormed) (r : RuleId) :
    g.Serves (e.ruleInfo g r) (g.rules[r]?.map Rule.body) := by
  unfold Engine.ruleInfo Grammar.rule
  cases hrule : g.rules[r]? with
  | none => exact ⟨nofun, nofun⟩
  | some R =>
    obtain ⟨hfits, he'⟩ := he.searchRule hg r
    refine ⟨fun h => ?_, ?_⟩
    · cases h
      exact he'
    · rintro _ ⟨⟩
      exact ⟨_, _, rfl, exact_body hrule ▸ hfits⟩

private theorem exists_of_map_eq_ok {x : Except ε α} {f : α → β} (h : x.map f = .ok b) :
    ∃ a, x = .ok a ∧ f a = b := by
  cases x with
  | error => cases h
  | ok a => exact ⟨a, rfl, Except.ok.inj h⟩

theorem Ready.entryInfo (he : g.Ready e) (hg : g.WellFormed) (entry : Entry) :
    g.Serves (e.entryInfo g entry) (g.entryTree? entry) := by
  cases entry with
  | node i => exact he.nodeInfo hg i
  | again body separator =>
    obtain ⟨hready, hfits⟩ := he.nodeInfo hg (separator.getD body)
    have hq : e.entryInfo g (.again body separator) =
        (e.nodeInfo g (separator.getD body)).map fun p => ({ p.1 with nullable := true }, p.2) := by
      rw [Engine.entryInfo]
      cases e.nodeInfo g (separator.getD body) <;> rfl
    refine ⟨fun {info e'} h => ?_, fun {n} h => ?_⟩
    · obtain ⟨answer, hnode, hanswer⟩ := exists_of_map_eq_ok (hq ▸ h)
      cases hanswer
      exact hready hnode
    · obtain ⟨m, hm, rfl⟩ := Option.map_eq_some_iff.1 h
      obtain ⟨info, e', hnode, hm⟩ := hfits hm
      refine ⟨{ info with nullable := true }, e', by rw [hq, hnode]; rfl, rfl, hm.first, ?_⟩
      exact fun ht => by rw [hm.tame ht]; rfl

theorem restTree?_cons (h : g.restTree? (entry :: rest) = some n) : ∃ item items,
    g.entryTree? entry = some item ∧ g.restTree? rest = some (.group 0 .sequence items) ∧
      n = .group 0 .sequence (item :: items) := by
  obtain ⟨ns, hns, rfl⟩ := Option.map_eq_some_iff.1 h
  rw [List.mapM_cons] at hns
  obtain ⟨item, hitem, hns⟩ := Option.bind_eq_some_iff.1 hns
  obtain ⟨items, hitems, hns⟩ := Option.bind_eq_some_iff.1 hns
  cases hns
  exact ⟨item, items, hitem, Option.map_eq_some_iff.2 ⟨items, hitems, rfl⟩, rfl⟩

theorem exact_cons : g.exact (.group i .sequence (item :: items)) =
    if (g.exact item).nullable then
      { g.exact (.group i .sequence items) with
        first := (g.exact item).first ∪ (g.exact (.group i .sequence items)).first }
    else
      g.exact item :=
  rfl

theorem Fits.andThen (h : g.Fits head value) (ht : g.Fits tail value') :
    g.Fits { tail with first := head.first ∪ tail.first }
      { value' with first := value.first ∪ value'.first } where
  nullable := ht.nullable
  first k hk :=
    TerminalSet.mem_union.2 ((TerminalSet.mem_union.1 hk).imp (@h.first k) (@ht.first k))
  tame htame := by rw [h.tame htame, ht.tame htame]

theorem restInfo_cons (hentry : e.entryInfo g entry = .ok (head, e')) :
    e.restInfo g (entry :: rest) =
      if head.nullable then
        (e'.restInfo g rest).map fun p => ({ p.1 with first := head.first ∪ p.1.first }, p.2)
      else
        .ok (head, e') := by
  rw [Engine.restInfo, hentry]
  dsimp only [bind, Except.bind]
  split
  · cases e'.restInfo g rest <;> rfl
  · rfl

theorem Ready.restInfo (he : g.Ready e) (hg : g.WellFormed) (rest : Rest) :
    g.Serves (e.restInfo g rest) (g.restTree? rest) := by
  induction rest generalizing e with
  | nil =>
    refine ⟨fun h => ?_, fun h => ?_⟩
    · cases h
      exact he
    · cases h
      exact ⟨_, _, rfl, rfl, TerminalSet.Subset.refl _, fun _ => rfl⟩
  | cons entry rest ih =>
    obtain ⟨hready, hfits⟩ := he.entryInfo hg entry
    refine ⟨fun {info e'} h => ?_, fun {n} h => ?_⟩
    · cases hentry : e.entryInfo g entry with
      | error fault => simp [Engine.restInfo, hentry, bind, Except.bind] at h
      | ok answer =>
        rw [restInfo_cons hentry] at h
        split at h
        · obtain ⟨answer', hrest, hanswer⟩ := exists_of_map_eq_ok h
          cases hanswer
          exact (ih (hready hentry)).ready hrest
        · cases h
          exact hready hentry
    · obtain ⟨item, items, hitem, hitems, rfl⟩ := restTree?_cons h
      obtain ⟨head, e₁, hentry, hhead⟩ := hfits hitem
      obtain ⟨tail, e₂, hrest, htail⟩ := (ih (hready hentry)).fits hitems
      rw [restInfo_cons hentry, hrest]
      cases hn : head.nullable with
      | false =>
        have hn' : (g.exact item).nullable = false := hhead.nullable ▸ hn
        refine ⟨head, e₁, if_neg nofun, ?_⟩
        rwa [exact_cons, if_neg (by simp [hn'])]
      | true =>
        have hn' : (g.exact item).nullable = true := hhead.nullable ▸ hn
        refine ⟨_, e₂, if_pos rfl, ?_⟩
        rw [exact_cons, if_pos hn']
        exact hhead.andThen htail

/-! ## Histories of questions -/

theorem Asked.ready (h : g.Asked e) (hg : g.WellFormed) : g.Ready e := by
  induction h with
  | fresh => exact .fresh g
  | node _ hq ih => exact (ih.nodeInfo hg _).ready hq
  | rule _ hq ih => exact (ih.ruleInfo hg _).ready hq
  | rest _ hq ih => exact (ih.restInfo hg _).ready hq

/-- What is remembered for a number fits the node with that number. -/
theorem Remembers.fits (h : g.Remembers e) {i : NodeId} (hi : e.memo[i]? = some info) :
    ∃ n, g.nodes[i]? = some n ∧ g.Fits info (g.exact n) := by
  obtain ⟨n, hn, ha⟩ := h i info hi
  exact ⟨n, hn, ha.fits⟩

theorem Ready.finish_remembers (he : g.Ready e) (hg : g.WellFormed) :
    ∀ {i : NodeId} {info}, (e.finish g).memo[i]? = some info →
      ∃ n, g.nodes[i]? = some n ∧ g.Fits info (g.exact n) :=
  fun hi => (he.searchRules hg g.ruleIds).2.remembers.fits hi

/-- FIRST sets are exact in every built grammar without a nullable left-recursive rule: whatever
was asked before, the least solution of the FIRST equations is what nodes, rules and rests are
answered with, what is remembered, and what is left once the engine is closed. -/
theorem first_exact_of_tame (hg : g.Built) (ht : g.Tame) (he : g.Asked e) :
    g.LeastSolution g.exactRule ∧
    (∀ (i : NodeId) n, g.nodes[i]? = some n → ∃ e', e.nodeInfo g i = .ok (g.exact n, e')) ∧
    (∀ (r : RuleId) R, g.rules[r]? = some R → ∃ e', e.ruleInfo g r = .ok (g.exact R.body, e')) ∧
    (∀ rest n, g.restTree? rest = some n → ∃ e', e.restInfo g rest = .ok (g.exact n, e')) ∧
    (∀ (i : NodeId) info, e.memo[i]? = some info →
      ∃ n, g.nodes[i]? = some n ∧ info = g.exact n) ∧
    (e.finish g).rules = g.rules.map (fun R => g.exact R.body) ∧
    (∀ (i : NodeId) info, (e.finish g).memo[i]? = some info →
      ∃ n, g.nodes[i]? = some n ∧ info = g.exact n) := by
  have hwf := hg.wellFormed
  have hready := he.ready hwf
  have hserves {q tree?} (h : g.Serves q tree?) (n) (hn : tree? = some n) :
      ∃ e', q = .ok (g.exact n, e') := by
    obtain ⟨info, e', hq, hfits⟩ := h.fits hn
    exact ⟨e', hfits.tame ht ▸ hq⟩
  refine ⟨g.exactRule_least, fun i => hserves (hready.nodeInfo hwf i), fun r R hR => ?_,
    fun rest => hserves (hready.restInfo hwf rest), fun i info hi => ?_, ?_, fun i info hi => ?_⟩
  · exact hserves (hready.ruleInfo hwf r) R.body (by rw [hR]; rfl)
  · obtain ⟨n, hn, hfits⟩ := hready.remembers.fits hi
    exact ⟨n, hn, hfits.tame ht⟩
  · refine Array.ext_getElem? fun r => ?_
    rw [Array.getElem?_map]
    cases hR : g.rules[r]? with
    | none => simpa [hready.finish_size hwf] using hR
    | some R =>
      obtain ⟨info, hr, hfits⟩ := hready.finish hwf hR
      rw [hr, hfits.tame ht]
      rfl
  · obtain ⟨n, hn, hfits⟩ := hready.finish_remembers hwf hi
    exact ⟨n, hn, hfits.tame ht⟩

/-- Sums of terms, where the rule of sums refers to itself first. -/
def sums : Draft where
  name := "sums"
  terminals := ["Plus", "Number"]
  rules :=
    let sum := .group .sequence
      [.leaf (.rule "sum") none, .leaf (.terminal 0) none, .leaf (.rule "term") none]
    [{ name := "sum", body := .group .alternation [sum, .leaf (.rule "term") none] },
     { name := "term", body := .leaf (.terminal 1) none }]

/-- The grammar of sums. -/
def sumsBuilt : Grammar :=
  let sum := .group 3 .sequence [.leaf 0 (.rule 0) 1, .leaf 1 (.terminal 0) 1, .leaf 2 (.rule 1) 1]
  let body := .group 5 .alternation [sum, .leaf 4 (.rule 1) 2]
  let term := .leaf 6 (.terminal 1) 1
  { name := "sums"
    registry := { names := #["Plus", "Number"], byName := [("Number", 1), ("Plus", 0)] }
    nodes := #[.leaf 0 (.rule 0) 1, .leaf 1 (.terminal 0) 1, .leaf 2 (.rule 1) 1, sum,
      .leaf 4 (.rule 1) 2, body, term]
    rules := #[{ name := "sum", body, resync := true },
      { name := "term", body := term, resync := true }]
    byName := [("term", 1), ("sum", 0)] }

theorem sums_build : sums.build = .ok sumsBuilt := by cbv

theorem sums_leftRecursive : sumsBuilt.LeftRecursive 0 :=
  .single ⟨_, rfl, .branch List.mem_cons_self (.head .here)⟩

/-- No rule of sums is nullable, since the equations have a solution where none is. -/
theorem sums_tame : sumsBuilt.Tame := by
  have hsolves : sumsBuilt.Solves fun _ => { first := .single 1 } := by
    intro r R hR
    match r, hR with
    | 0, hR | 1, hR =>
      cases hR
      decide
    | r + 2, hR => simp [sumsBuilt] at hR
  intro r _
  cases hR : sumsBuilt.rules[r]? with
  | none => exact congrArg Info.nullable (swept_none hR)
  | some R =>
    have hle := sumsBuilt.exactRule_least.least hsolves hR
    exact Bool.eq_false_iff.2 fun hn => Bool.false_ne_true (hle.2 hn)

/-- Sums are left-recursive and tame: once a question about terms was asked, closing the engine
leaves the exact values. -/
theorem sums_first_exact : ∃ e info, Engine.ruleInfo sumsBuilt 1 {} = .ok (info, e) ∧
    sumsBuilt.LeftRecursive 0 ∧ sumsBuilt.Tame ∧ sumsBuilt.LeastSolution sumsBuilt.exactRule ∧
    (e.finish sumsBuilt).rules = sumsBuilt.rules.map fun R => sumsBuilt.exact R.body := by
  have hasked : Engine.ruleInfo sumsBuilt 1 {} = .ok (Engine.searchRule sumsBuilt 1 {}) := rfl
  have hexact := first_exact_of_tame (Draft.built sums_build) sums_tame (.rule .fresh hasked)
  exact ⟨_, _, hasked, sums_leftRecursive, sums_tame, hexact.1, hexact.2.2.2.2.2.1⟩

/-- The value is nullable iff the tree matches no token at all, and has no kind that the least
solution lacks. -/
structure Approximates (g : Grammar) (info : Info) (n : Node) : Prop where
  nullable : info.nullable = true ↔ g.Derives n []
  first : info.first ⊆ (g.exact n).first

theorem Fits.approximates (h : g.Fits info (g.exact n)) : g.Approximates info n where
  nullable := by rw [h.nullable, exact_nullable_iff, nullable_iff_derives]
  first := h.first

/-- In every built grammar, left-recursive or not, and whatever was asked before: all that is
answered, remembered and left once the engine is closed is exact about nullability, and only loses
kinds. -/
theorem nullable_exact_and_first_subset (hg : g.Built) (he : g.Asked e) :
    g.LeastSolution g.exactRule ∧
    (∀ (i : NodeId) n, g.nodes[i]? = some n → ∃ info e', e.nodeInfo g i = .ok (info, e') ∧
      g.Approximates info n) ∧
    (∀ (r : RuleId) R, g.rules[r]? = some R → ∃ info e', e.ruleInfo g r = .ok (info, e') ∧
      g.Approximates info R.body) ∧
    (∀ (i : NodeId) info, e.memo[i]? = some info →
      ∃ n, g.nodes[i]? = some n ∧ g.Approximates info n) ∧
    (e.finish g).rules.size = g.rules.size ∧
    (∀ (r : RuleId) R, g.rules[r]? = some R → ∃ info, (e.finish g).rules[r]? = some info ∧
      g.Approximates info R.body) ∧
    (∀ (i : NodeId) info, (e.finish g).memo[i]? = some info →
      ∃ n, g.nodes[i]? = some n ∧ g.Approximates info n) := by
  have hwf := hg.wellFormed
  have hready := he.ready hwf
  have hserves {q tree?} (h : g.Serves q tree?) (n) (hn : tree? = some n) :
      ∃ info e', q = .ok (info, e') ∧ g.Approximates info n := by
    obtain ⟨info, e', hq, hfits⟩ := h.fits hn
    exact ⟨info, e', hq, hfits.approximates⟩
  refine ⟨g.exactRule_least, fun i => hserves (hready.nodeInfo hwf i), fun r R hR => ?_,
    fun i info hi => ?_, hready.finish_size hwf, fun r R hR => ?_, fun i info hi => ?_⟩
  · exact hserves (hready.ruleInfo hwf r) R.body (by rw [hR]; rfl)
  · obtain ⟨n, hn, hfits⟩ := hready.remembers.fits hi
    exact ⟨n, hn, hfits.approximates⟩
  · obtain ⟨info, hr, hfits⟩ := hready.finish hwf hR
    exact ⟨info, hr, hfits.approximates⟩
  · obtain ⟨n, hn, hfits⟩ := hready.finish_remembers hwf hi
    exact ⟨n, hn, hfits.approximates⟩

/-- Lists that may be empty, where the rule of lists refers to itself first. -/
def lists : Draft where
  name := "lists"
  terminals := ["Item"]
  rules :=
    let list := .group .sequence [.leaf (.rule "list") none, .leaf (.terminal 0) none]
    [{ name := "list", body := .loop .optional list none }]

/-- The body of the rule of lists. -/
def listBody : Node :=
  .loop 3 .optional (.group 2 .sequence [.leaf 0 (.rule 0) 1, .leaf 1 (.terminal 0) 1]) none

/-- The grammar of lists. -/
def listsBuilt : Grammar where
  name := "lists"
  registry := { names := #["Item"], byName := [("Item", 0)] }
  nodes := #[.leaf 0 (.rule 0) 1, .leaf 1 (.terminal 0) 1,
    .group 2 .sequence [.leaf 0 (.rule 0) 1, .leaf 1 (.terminal 0) 1], listBody]
  rules := #[{ name := "list", body := listBody, resync := true }]
  byName := [("list", 0)]

theorem lists_build : lists.build = .ok listsBuilt := by cbv

theorem item_starts_lists : listsBuilt.Starts [] listBody 0 := by
  have hlist : listsBuilt.Nullable [] (.leaf 0 (.rule 0) 1) :=
    .reference List.not_mem_nil (R := ⟨"list", listBody, true⟩) rfl (.skip rfl)
  have hfront := List.forall_mem_singleton.2 hlist
  exact .loop (.row Shape.sequence_ne List.singleton_append.symm hfront .token)

/-- The rule of lists is cut before the items are looked at, so that their kind is lost. -/
theorem lists_first_subset : ∃ info e, Engine.ruleInfo listsBuilt 0 {} = .ok (info, e) ∧
    listsBuilt.Approximates info listBody ∧ info.first = ∅ ∧
      0 ∈ (listsBuilt.exact listBody).first := by
  have hfound : (Engine.searchRule listsBuilt 0 {}).1.first = ∅ := by cbv
  have happrox := nullable_exact_and_first_subset (Draft.built lists_build) .fresh
  obtain ⟨info, e, hq, hinfo⟩ := happrox.2.2.1 0 _ rfl
  cases hq
  exact ⟨_, _, rfl, hinfo, hfound, mem_exact_first_iff.2 item_starts_lists⟩

end Grammar

end Descent
