import Descent.Proofs.First.Exactness
import Descent.Proofs.Grammar.Roots
import Mathlib.Data.List.Chain

/-!
# Reporting left recursion

The engine notes a rule when it meets it again while searching its body. The active rules lead to
each other by left edges (`Grammar.Descends`), so a noted rule lies on a cycle of them.

That no cycle is missed is less plain: a cut rule counts as not nullable, which hides the edges
behind it, and what is remembered hides all edges below it. But a result that a cut has influenced
is pending on the cut rule, and it is remembered only for that rule itself, which is noted by then.
So whatever is remembered is cleared: from the rules that it can start with, every path of left
edges comes to an end or to a noted rule (`Grammar.Explored`). Once the engine is closed this holds
of every rule, and then no cycle avoids the noted ones.
-/

namespace Descent

open Search

namespace Grammar

/-- The active rules, innermost first, lead to each other by left edges, and the innermost one leads
to all that the tree can start with. -/
structure Descends (g : Grammar) (active : List RuleId) (n : Node) : Prop where
  chain : active.IsChain fun inner outer => g.LeftEdge outer inner
  next : ∀ top ∈ active.head?, ∀ r, g.LeftRef n r → g.LeftEdge top r

/-- Every path of left edges from the rule comes to an end or to a noted rule. -/
inductive Explored (g : Grammar) (noted : List RuleId) : RuleId → Prop where
  | noted : r ∈ noted → Explored g noted r
  | edges : (∀ r', g.LeftEdge r r' → Explored g noted r') → Explored g noted r

/-- Whatever the tree can start with is explored. -/
def Cleared (g : Grammar) (noted : List RuleId) (n : Node) : Prop :=
  ∀ r, g.LeftRef n r → g.Explored noted r

variable {g : Grammar} {e e' : Engine} {s : Scan} {n n' : Node} {r : RuleId} {R : Rule}
  {active noted noted' : List RuleId}

/-! ## Noted rules are left-recursive -/

theorem path_of_isChain (h : (top :: active).IsChain fun inner outer => g.LeftEdge outer inner)
    (hr : r ∈ top :: active) : Relation.ReflTransGen g.LeftEdge r top := by
  induction active generalizing top with
  | nil => exact List.mem_singleton.1 hr ▸ .refl
  | cons outer active ih =>
    obtain ⟨hedge, hrest⟩ := List.isChain_cons_cons.1 h
    rcases List.mem_cons.1 hr with rfl | hr
    · exact .refl
    · exact (ih hrest hr).tail hedge

/-- If the search of the tree can come back to an active rule, that rule lies on a cycle. -/
theorem Descends.leftRecursive (h : g.Descends active n) (hr : r ∈ active) (hn : g.Reaches n r) :
    g.LeftRecursive r := by
  obtain ⟨r', hleft, hback⟩ := hn
  cases active with
  | nil => cases hr
  | cons top active =>
    have hedge : g.LeftEdge top r' := h.next top rfl r' hleft
    exact .trans_right (path_of_isChain h.chain hr) (.head' hedge hback)

theorem Descends.undisturbed (h : g.Descends active n) (ht : g.Tame) : g.Undisturbed active n :=
  fun r hr hn => ht r (h.leftRecursive hr hn)

theorem Descends.idle (n : Node) : g.Descends [] n := ⟨.nil, nofun⟩

theorem Descends.mono (h : g.Descends active n) (hsub : ∀ r, g.LeftRef n' r → g.LeftRef n r) :
    g.Descends active n' :=
  ⟨h.chain, fun top htop r hr => h.next top htop r (hsub r hr)⟩

theorem Descends.congr (h : g.Descends active n) (ha : g.Alike n n') : g.Descends active n' :=
  h.mono fun r hr => (ha.leftRef r).2 hr

theorem Descends.enter (h : g.Descends active (.leaf i (.rule r) o))
    (hrule : g.rules[r]? = some R) : g.Descends (r :: active) R.body where
  chain := by
    cases active with
    | nil => exact .singleton r
    | cons top active => exact List.isChain_cons_cons.2 ⟨h.next top rfl r .here, h.chain⟩
  next := by
    rintro _ ⟨⟩ r' hr'
    exact ⟨R, hrule, hr'⟩

/-! ## What can be cleared -/

theorem Explored.mono (hsub : noted ⊆ noted') (h : g.Explored noted r) : g.Explored noted' r := by
  induction h with
  | noted hr => exact .noted (hsub hr)
  | edges _ ih => exact .edges ih

/-- An explored rule does not belong to rules that are not noted and lead on to each other
forever. -/
theorem Explored.not_endless (h : g.Explored noted r) {C : RuleId → Prop}
    (hC : ∀ r, C r → r ∉ noted ∧ ∃ r', C r' ∧ g.LeftEdge r r') : ¬ C r := by
  induction h with
  | noted hr => exact fun hr' => (hC _ hr').1 hr
  | edges _ ih =>
    intro hr
    obtain ⟨-, r', hr', hedge⟩ := hC _ hr
    exact ih r' hedge hr'

theorem Cleared.mono (hsub : noted ⊆ noted') (h : g.Cleared noted n) : g.Cleared noted' n :=
  fun r hr => (h r hr).mono hsub

theorem Cleared.congr (h : g.Cleared noted n) (ha : g.Alike n n') : g.Cleared noted n' :=
  fun r hr => h r ((ha.leftRef r).2 hr)

/-- A rule whose body is cleared is explored. -/
theorem Cleared.explored (h : g.Cleared noted R.body) (hrule : g.rules[r]? = some R) :
    g.Explored noted r := by
  refine .edges fun r' => ?_
  rintro ⟨R', hrule', hleft⟩
  cases hrule.symm.trans hrule'
  exact h r' hleft

theorem cleared_reference_iff : g.Cleared noted (.leaf i (.rule r) o) ↔ g.Explored noted r := by
  refine ⟨fun h => h r .here, fun h r' hr' => ?_⟩
  cases hr'
  exact h

theorem LeftRef.cons_cases (h : g.LeftRef (.group i .sequence (item :: items)) r) :
    g.LeftRef item r ∨
      (g.exact item).nullable = true ∧ g.LeftRef (.group i .sequence items) r := by
  cases h with
  | @row _ _ front _ _ _ _ hs hitems hfront hleft =>
    cases front with
    | nil =>
      cases hitems
      exact .inl hleft
    | cons _ front =>
      cases hitems
      obtain ⟨hitem, hfront⟩ := List.forall_mem_cons.1 hfront
      exact .inr ⟨hitem, .row hs rfl hfront hleft⟩

theorem Cleared.consItem (h : g.Cleared noted item)
    (hrest : (g.exact item).nullable = true → g.Cleared noted (.group i .sequence items)) :
    g.Cleared noted (.group i .sequence (item :: items)) := by
  intro r hr
  rcases hr.cons_cases with hr | ⟨hn, hr⟩
  · exact h r hr
  · exact hrest hn r hr

theorem Cleared.consBranch (h : g.Cleared noted branch)
    (hrest : g.Cleared noted (.group i .alternation branches)) :
    g.Cleared noted (.group i .alternation (branch :: branches)) := by
  intro r hr
  cases hr with
  | row hs => exact (hs rfl).elim
  | branch hb hleft =>
    rcases List.mem_cons.1 hb with rfl | hb
    · exact h r hleft
    · exact hrest r (.branch hb hleft)

/-! ## All runs -/

/-- A rule that has the tree as its body is explored, and a tree that is no rule body is cleared.
The body of a noted rule need not be cleared. -/
structure Settled (g : Grammar) (noted : List RuleId) (n : Node) : Prop where
  body : ∀ {r : RuleId} {R : Rule}, g.rules[r]? = some R → R.body = n → g.Explored noted r
  inner : (∀ {r : RuleId} {R : Rule}, g.rules[r]? = some R → n ≠ R.body) → g.Cleared noted n

/-- What a result that is pending on nothing has achieved. -/
def Done (g : Grammar) (noted : List RuleId) : Task → Prop
  | .node n => g.Settled noted n
  | t => g.Cleared noted t.tree

/-- None of the trees that are searched in a row or as branches is a rule body. -/
def Inner (g : Grammar) : Task → Prop
  | .items ns | .branches ns =>
    ∀ n ∈ ns, ∀ {r : RuleId} {R : Rule}, g.rules[r]? = some R → n ≠ R.body
  | _ => True

/-- The noted rules are distinct and left-recursive, and what is remembered is settled. -/
structure Surveyed (g : Grammar) (e : Engine) : Prop where
  nodup : e.approximated.Nodup
  recursive : ∀ r ∈ e.approximated, g.LeftRecursive r
  settled : ∀ {i : NodeId} {info n}, e.memo[i]? = some info → g.nodes[i]? = some n →
    g.Settled e.approximated n

/-- What a run adds: it notes the rules that its result is pending on, and a result that is pending
on nothing is done with its task. -/
structure Surveys (g : Grammar) (t : Task) (e : Engine) (s : Scan) (e' : Engine) : Prop where
  grows : e.approximated ⊆ e'.approximated
  pending : s.pending ⊆ e'.approximated
  done : s.pending = [] → g.Done e'.approximated t
  surveyed : g.Surveyed e'

theorem Cleared.settled (h : g.Cleared noted n) : g.Settled noted n where
  body hrule hbody := Cleared.explored (hbody ▸ h) hrule
  inner _ := h

theorem Settled.mono (hsub : noted ⊆ noted') (h : g.Settled noted n) : g.Settled noted' n where
  body hrule hbody := (h.body hrule hbody).mono hsub
  inner hn := (h.inner hn).mono hsub

theorem Done.mono (hsub : noted ⊆ noted') : ∀ {t : Task}, g.Done noted t → g.Done noted' t
  | .node _, h => Settled.mono hsub h
  | .inside _, h | .items _, h | .branches _, h | .rule _, h => Cleared.mono hsub h

theorem Explored.settled (h : g.Explored noted r) (hr : g.Rooted) (hrule : g.rules[r]? = some R) :
    g.Settled noted R.body where
  body hrule' hbody := hr.distinct hrule' hrule hbody ▸ h
  inner hn := (hn hrule rfl).elim

@[simp] theorem keep_approximated (i : NodeId) (s : Scan) (e : Engine) :
    (keep i s e).2.approximated = e.approximated := by
  unfold keep
  dsimp only
  split <;> rfl

theorem Surveyed.keep (h : g.Surveyed e) (hn : g.nodes[i]? = some n)
    (hs : s.pending = [] → g.Settled e.approximated n) : g.Surveyed (keep i s e).2 := by
  refine ⟨by simpa using h.nodup, by simpa using h.recursive, fun {j info m} hj hm => ?_⟩
  rw [keep_approximated]
  unfold Search.keep at hj
  dsimp only at hj
  split at hj
  next hp =>
    change (e.memo.insert i s.info)[j]? = some info at hj
    rw [Std.TreeMap.getElem?_insert] at hj
    split at hj
    next hij =>
      cases Std.LawfulEqOrd.eq_of_compare hij
      cases hn.symm.trans hm
      exact hs (List.isEmpty_iff.1 hp)
    next => exact h.settled hj hm
  next => exact h.settled hj hm

theorem approximated_subset (e : Engine) (r : RuleId) :
    r :: e.approximated ⊆ (e.approximate r).approximated := by
  unfold Engine.approximate
  split
  next hr => exact List.cons_subset.2 ⟨hr, List.Subset.refl _⟩
  next => simp

theorem Surveyed.approximate (h : g.Surveyed e) (hr : g.LeftRecursive r) :
    g.Surveyed (e.approximate r) := by
  unfold Engine.approximate
  split
  next => exact h
  next hr' =>
    refine ⟨?_, ?_, fun hi hn => ?_⟩
    · simpa [List.nodup_append] using ⟨h.nodup, fun r' hr'' => ne_of_mem_of_not_mem hr'' hr'⟩
    · simpa [or_imp, forall_and] using ⟨h.recursive, hr⟩
    · exact (h.settled hi hn).mono (List.subset_append_left _ _)

namespace Surveys

variable {t t' : Task}

theorem still (h : g.Surveyed e) (hd : g.Done e.approximated t) : g.Surveys t e { info } e :=
  ⟨List.Subset.refl _, List.nil_subset _, fun _ => hd, h⟩

theorem imp (h : g.Surveys t e s e') (hp : s'.pending = s.pending)
    (hd : g.Done e'.approximated t → g.Done e'.approximated t') : g.Surveys t' e s' e' :=
  ⟨h.grows, hp ▸ h.pending, fun hs => hd (h.done (hp ▸ hs)), h.surveyed⟩

theorem keep (h : g.Surveys (.inside n) e s e') (hn : g.nodes[n.id]? = some n) :
    g.Surveys (.node n) e s (Search.keep n.id s e').2 where
  grows := by simpa using h.grows
  pending := by simpa using h.pending
  done hp := by
    rw [keep_approximated]
    exact Cleared.settled (h.done hp)
  surveyed := h.surveyed.keep hn fun hp => Cleared.settled (h.done hp)

theorem join (h : g.Surveys t e s e') (h' : g.Surveys t' e' s' e'')
    (hp : joined.pending = Scan.joinPending s.pending s'.pending)
    (hd : g.Done e''.approximated t → g.Done e''.approximated t' → g.Done e''.approximated t'') :
    g.Surveys t'' e joined e'' where
  grows := List.Subset.trans h.grows h'.grows
  pending r hr := by
    rw [hp, mem_joinPending_iff] at hr
    exact hr.elim (fun hr => h'.grows (h.pending hr)) fun hr => h'.pending hr
  done hnil := by
    have hnone (r) : r ∉ s.pending ∧ r ∉ s'.pending := by
      rw [← not_or, ← mem_joinPending_iff, ← hp, hnil]
      exact List.not_mem_nil
    have hs : s.pending = [] := List.eq_nil_iff_forall_not_mem.2 fun r => (hnone r).1
    have hs' : s'.pending = [] := List.eq_nil_iff_forall_not_mem.2 fun r => (hnone r).2
    exact hd ((h.done hs).mono h'.grows) (h'.done hs')
  surveyed := h'.surveyed

/-- The search of a rule ends. If its result is then pending on nothing, it was pending at most on
the rule itself, and in that case the rule is noted. -/
theorem settle (h : g.Surveys (.node R.body) (e.enter r) s e') (hg : g.WellFormed) (hr : g.Rooted)
    (hrule : g.rules[r]? = some R) :
    g.Surveys (.rule r) e (s.settle r) (Search.keep R.body.id (s.settle r) e'.leave).2 := by
  have hexplored : (s.settle r).pending = [] → g.Explored e'.approximated r := by
    intro hp
    by_cases hmem : r ∈ s.pending
    · exact .noted (h.pending hmem)
    · have hnil : s.pending = [] := by
        rw [← hp]
        refine (List.filter_eq_self.2 fun r' hr' => ?_).symm
        simpa using ne_of_mem_of_not_mem hr' hmem
      exact Settled.body (h.done hnil) hrule rfl
  constructor
  · rw [keep_approximated]
    exact h.grows
  · rw [keep_approximated]
    exact fun r' hr' => h.pending (List.mem_of_mem_filter hr')
  · rw [keep_approximated]
    exact fun hp => cleared_reference_iff.2 (hexplored hp)
  · refine Surveyed.keep ⟨h.surveyed.nodup, h.surveyed.recursive, h.surveyed.settled⟩
      (hg.bodies hrule) fun hp => ?_
    exact (hexplored hp).settled hr hrule

end Surveys

end Grammar

open Grammar

variable {g : Grammar}

/-- Every run of the search surveys its task. -/
theorem Search.Runs.surveys (hg : g.WellFormed) (hr : g.Rooted) (h : Runs g t e s e')
    (ho : g.Owns t) (hi : g.Inner t) (hm : g.Remembers e) (hd : g.Descends e.active t.tree)
    (he : g.Surveyed e) : g.Surveys t e s e' := by
  induction h with
  | remembered hmemo => exact .still he (he.settled hmemo ho)
  | searched _ _ ih => exact (ih ho trivial hm hd he).keep ho
  | token => exact .still he fun _ hr => nomatch hr
  | reference _ ih =>
    have hs := ih trivial trivial hm (hd.congr alike_reference) he
    exact hs.imp rfl (Cleared.congr · alike_reference)
  | row hshape _ ih =>
    have hs := ih (hg.nodes.closed ho) (fun c hc _ _ hrule => hr.apart ho hrule c hc) hm
      (hd.congr (alike_row hshape Shape.sequence_ne)) he
    exact hs.imp rfl (Cleared.congr · (alike_row Shape.sequence_ne hshape))
  | choice _ ih =>
    have hs := ih (hg.nodes.closed ho) (fun c hc _ _ hrule => hr.apart ho hrule c hc) hm
      (hd.congr alike_choice) he
    exact hs.imp rfl (Cleared.congr · alike_choice)
  | loop _ ih =>
    have hbody := hg.nodes.closed ho _ List.mem_cons_self
    refine (ih hbody trivial hm (hd.mono fun r => .loop) he).imp rfl fun hs r hleft => ?_
    have hcleared := Settled.inner hs fun hrule => hr.apart ho hrule _ List.mem_cons_self
    cases hleft with
    | loop hleft => exact hcleared r hleft
  | noItem =>
    refine .still he fun r hleft => ?_
    cases hleft with
    | row _ hitems => simp at hitems
  | lastItem h hn ih =>
    obtain ⟨hitem, -⟩ := List.forall_mem_cons.1 ho
    obtain ⟨hinner, -⟩ := List.forall_mem_cons.1 hi
    have hdi := hd.mono fun r => .head
    have hs := ih hitem trivial hm hdi he
    obtain ⟨ha, -⟩ := h.answers hg hitem hm hdi.undisturbed
    refine ⟨hs.grows, hs.pending, fun hp => ?_, hs.surveyed⟩
    -- the answer is pending on nothing, so the item really has no empty match
    refine ((hs.done hp).inner hinner).consItem fun hn' => ?_
    have hexact : (g.exact _).nullable = false :=
      (answers_of_pending ha hp).fits.nullable.symm.trans hn
    cases hexact.symm.trans hn'
  | item h hn _ ih ihs =>
    obtain ⟨hitem, hitems⟩ := List.forall_mem_cons.1 ho
    obtain ⟨hinner, hinners⟩ := List.forall_mem_cons.1 hi
    have hdi := hd.mono fun r => .head
    obtain ⟨ha, hm'⟩ := h.answers hg hitem hm hdi.undisturbed
    have hnull := exact_nullable_iff.2 (ha.shown.nullable hn)
    have hs := ih hitem trivial hm hdi he
    have hss := ihs hitems hinners hm' (h.active ▸ hd.mono fun r => .tail hnull) hs.surveyed
    exact hs.join hss rfl fun hc hcs => (hc.inner hinner).consItem fun _ => hcs
  | noBranch =>
    refine .still he fun r hleft => ?_
    cases hleft with
    | row hs => exact (hs rfl).elim
    | branch hb => cases hb
  | branch h _ ih ihs =>
    obtain ⟨hbranch, hbranches⟩ := List.forall_mem_cons.1 ho
    obtain ⟨hinner, hinners⟩ := List.forall_mem_cons.1 hi
    have hdi := hd.mono fun r => .branch List.mem_cons_self
    obtain ⟨-, hm'⟩ := h.answers hg hbranch hm hdi.undisturbed
    have hs := ih hbranch trivial hm hdi he
    have hss := ihs hbranches hinners hm' (h.active ▸ hd.mono fun r => .others) hs.surveyed
    exact hs.join hss rfl fun hc hcs => (hc.inner hinner).consBranch hcs
  | @cut r e hactive =>
    obtain ⟨hnoted, hgrows⟩ := List.cons_subset.1 (approximated_subset e r)
    exact ⟨hgrows, List.cons_subset.2 ⟨hnoted, List.nil_subset _⟩, nofun,
      he.approximate (hd.leftRecursive hactive ⟨r, .here, .refl⟩)⟩
  | unknown _ hrule =>
    refine .still he (cleared_reference_iff.2 (.edges fun r' => ?_))
    rintro ⟨R, hrule', -⟩
    cases hrule.symm.trans hrule'
  | known _ hrule hmemo =>
    have hbody := he.settled hmemo (hg.bodies hrule)
    exact .still he (cleared_reference_iff.2 (hbody.body hrule rfl))
  | entered _ hrule _ h ih =>
    have hs := ih (hg.bodies hrule) trivial hm (hd.enter hrule)
      ⟨he.nodup, he.recursive, he.settled⟩
    exact hs.settle hg hr hrule

namespace Grammar

/-! ## Histories of questions -/

/-- One search of an engine on which no rule is active. -/
def Searches (g : Grammar) (e e' : Engine) : Prop :=
  g.Ready e ∧ ∃ t s, g.Owns t ∧ g.Inner t ∧ Runs g t e s e'

theorem Ready.nodeInfo_searches (he : g.Ready e) (hg : g.WellFormed)
    (h : e.nodeInfo g i = .ok (info, e')) : g.Searches e e' := by
  unfold Engine.nodeInfo Grammar.node at h
  cases hn : g.nodes[i]? with
  | none =>
    rw [hn] at h
    cases h
  | some n =>
    rw [hn] at h
    cases h
    have howns : g.nodes[n.id]? = some n := hg.nodes.numbered hn ▸ hn
    exact ⟨he, .node n, _, howns, trivial, node_runs he.room n⟩

theorem Ready.searchRule_searches (he : g.Ready e) (r : RuleId) :
    g.Searches e (e.searchRule g r).2 :=
  ⟨he, .rule r, _, trivial, trivial, rule_runs he.room r⟩

theorem Ready.ruleInfo_searches (he : g.Ready e) (h : e.ruleInfo g r = .ok (info, e')) :
    g.Searches e e' := by
  unfold Engine.ruleInfo Grammar.rule at h
  cases hrule : g.rules[r]? with
  | none =>
    rw [hrule] at h
    cases h
  | some R =>
    rw [hrule] at h
    cases h
    exact he.searchRule_searches r

theorem Ready.entryInfo_searches (he : g.Ready e) (hg : g.WellFormed)
    (h : e.entryInfo g entry = .ok (info, e')) : g.Searches e e' := by
  cases entry with
  | node i => exact he.nodeInfo_searches hg h
  | again body separator =>
    rw [Engine.entryInfo] at h
    cases hq : e.nodeInfo g (separator.getD body) with
    | error fault => simp [hq, bind, Except.bind] at h
    | ok answer =>
      simp only [hq, bind, Except.bind, pure, Except.pure] at h
      cases h
      exact he.nodeInfo_searches hg hq

theorem Ready.restInfo_searches (he : g.Ready e) (hg : g.WellFormed) {rest : Rest}
    (h : e.restInfo g rest = .ok (info, e')) : Relation.ReflTransGen g.Searches e e' := by
  induction rest generalizing e info with
  | nil =>
    cases h
    exact .refl
  | cons entry rest ih =>
    cases hentry : e.entryInfo g entry with
    | error fault => simp [Engine.restInfo, hentry, bind, Except.bind] at h
    | ok answer =>
      have hfirst := he.entryInfo_searches hg hentry
      rw [restInfo_cons hentry] at h
      split at h
      · cases hrest : answer.2.restInfo g rest with
        | error fault =>
          rw [hrest] at h
          cases h
        | ok answer' =>
          rw [hrest] at h
          cases h
          exact .head hfirst (ih ((he.entryInfo hg entry).ready hentry) hrest)
      · cases h
        exact .single hfirst

/-- A history of questions is a history of searches. -/
theorem Asked.searches (h : g.Asked e) (hg : g.WellFormed) :
    Relation.ReflTransGen g.Searches {} e := by
  induction h with
  | fresh => exact .refl
  | node he hq ih => exact ih.tail ((he.ready hg).nodeInfo_searches hg hq)
  | rule he hq ih => exact ih.tail ((he.ready hg).ruleInfo_searches hq)
  | rest he hq ih => exact ih.trans ((he.ready hg).restInfo_searches hg hq)

theorem Surveyed.fresh (g : Grammar) : g.Surveyed {} :=
  ⟨List.nodup_nil, nofun, fun h => by simp at h⟩

theorem Surveyed.searches (h : g.Surveyed e) (hg : g.WellFormed) (hr : g.Rooted)
    (hs : g.Searches e e') : g.Surveyed e' := by
  obtain ⟨he, t, s, ho, hi, hrun⟩ := hs
  exact (hrun.surveys hg hr ho hi he.remembers (he.idle ▸ .idle _) h).surveyed

theorem Asked.surveyed (h : g.Asked e) (hg : g.WellFormed) (hr : g.Rooted) : g.Surveyed e := by
  have hsearches := h.searches hg
  clear h
  induction hsearches with
  | refl => exact .fresh g
  | tail _ hs ih => exact ih.searches hg hr hs

/-- Searching a rule of an engine on which none is active explores it. -/
theorem Ready.searchRule_surveys (he : g.Ready e) (hg : g.WellFormed) (hr : g.Rooted)
    (hs : g.Surveyed e) (r : RuleId) :
    e.approximated ⊆ (e.searchRule g r).2.approximated ∧
      g.Explored (e.searchRule g r).2.approximated r ∧ g.Surveyed (e.searchRule g r).2 := by
  have hrun := rule_runs he.room r
  have hpending := hrun.pending_subset
  rw [he.idle, List.subset_nil] at hpending
  have hsurveys := hrun.surveys hg hr trivial trivial he.remembers (he.idle ▸ .idle _) hs
  exact ⟨hsurveys.grows, cleared_reference_iff.1 (hsurveys.done hpending), hsurveys.surveyed⟩

theorem Ready.searchRules_surveys (he : g.Ready e) (hg : g.WellFormed) (hr : g.Rooted)
    (hs : g.Surveyed e) (rs : List RuleId) :
    e.approximated ⊆ (e.searchRules g rs).2.approximated ∧
      (∀ r ∈ rs, g.Explored (e.searchRules g rs).2.approximated r) ∧
      g.Surveyed (e.searchRules g rs).2 := by
  induction rs generalizing e with
  | nil => exact ⟨List.Subset.refl _, nofun, hs⟩
  | cons r rs ih =>
    obtain ⟨hgrows, hexplored, hs'⟩ := he.searchRule_surveys hg hr hs r
    obtain ⟨hgrows', hall, hs''⟩ := ih (he.searchRule hg r).2 hs'
    exact ⟨List.Subset.trans hgrows hgrows', List.forall_mem_cons.2 ⟨hexplored.mono hgrows', hall⟩,
      hs''⟩

/-! ## What is reported -/

/-- Each rule of a closed path has a left edge to a rule of the path. -/
theorem exists_edge_of_isChain (h : (rs ++ [last]).IsChain g.LeftEdge) (hr : r ∈ rs) :
    ∃ r', r' ∈ rs.tail ++ [last] ∧ g.LeftEdge r r' := by
  induction rs with
  | nil => cases hr
  | cons first rs ih =>
    cases rs with
    | nil =>
      cases List.mem_singleton.1 hr
      exact ⟨last, List.mem_singleton_self last, (List.isChain_cons_cons.1 h).1⟩
    | cons second rs =>
      obtain ⟨hedge, hrest⟩ := List.isChain_cons_cons.1 h
      rcases List.mem_cons.1 hr with rfl | hr
      · exact ⟨second, List.mem_cons_self, hedge⟩
      · obtain ⟨r', hr', hedge'⟩ := ih hrest hr
        exact ⟨r', List.mem_cons_of_mem _ hr', hedge'⟩

theorem LeftRecursive.exists_edge (h : g.LeftRecursive r) :
    ∃ r', g.LeftRecursive r' ∧ g.LeftEdge r r' := by
  obtain ⟨r', hedge, hback⟩ := Relation.TransGen.head'_iff.1 h
  exact ⟨r', .tail' hback hedge, hedge⟩

/-- Left recursion is reported soundly and completely. Whatever was asked before, the rules left
once the engine is closed stand in ascending order; each of them lies on a cycle of left edges, and
every cycle of left edges contains one of them. So none is left exactly if there is no left
recursion. -/
theorem left_recursion_reported (hg : g.Built) (he : g.Asked e) :
    g.LeastSolution g.exactRule ∧
    (e.finish g).approximated.Pairwise (· < ·) ∧
    (∀ r ∈ (e.finish g).approximated, g.LeftRecursive r) ∧
    (∀ r rs, (r :: rs ++ [r]).IsChain g.LeftEdge →
      ∃ r' ∈ r :: rs, r' ∈ (e.finish g).approximated) ∧
    ((e.finish g).approximated = [] ↔ ∀ r, ¬ g.LeftRecursive r) := by
  have hwf := hg.wellFormed
  have hready := he.ready hwf
  obtain ⟨-, hexplored, hsurveyed⟩ := hready.searchRules_surveys hwf hg.rooted
    (he.surveyed hwf hg.rooted) g.ruleIds
  have hmem (r) : r ∈ (e.finish g).approximated ↔
      r ∈ (e.searchRules g g.ruleIds).2.approximated := by
    simp [Engine.finish]
  have hleft : ∀ r ∈ (e.finish g).approximated, g.LeftRecursive r :=
    fun r hr => hsurveyed.recursive r ((hmem r).1 hr)
  -- a rule with a left edge has a body, so it has been searched
  have hendless (C : RuleId → Prop) (hC : ∀ r, C r → ∃ r', C r' ∧ g.LeftEdge r r') (r) (hr : C r) :
      ∃ r', C r' ∧ r' ∈ (e.finish g).approximated := by
    by_contra hnone
    obtain ⟨r', hr', R, hrule, -⟩ := hC r hr
    have hlt : r < g.rules.size := (Array.getElem?_eq_some_iff.1 hrule).1
    refine (hexplored r (List.mem_range.2 hlt)).not_endless (C := C) (fun x hx => ?_) hr
    exact ⟨fun hnoted => hnone ⟨x, hx, (hmem x).2 hnoted⟩, hC x hx⟩
  refine ⟨g.exactRule_least, ?_, hleft, fun r rs hcycle => ?_, fun hnil r hr => ?_, fun hnone => ?_⟩
  · have hsorted := List.pairwise_mergeSort' (· ≤ ·) (e.searchRules g g.ruleIds).2.approximated
    refine (hsorted.and ?_).imp fun h => Nat.lt_of_le_of_ne h.1 h.2
    exact (List.mergeSort_perm _ _).nodup_iff.2 hsurveyed.nodup
  · refine hendless (· ∈ r :: rs) (fun x hx => ?_) r List.mem_cons_self
    obtain ⟨r', hr', hedge⟩ := exists_edge_of_isChain hcycle hx
    exact ⟨r', by simpa [or_comm] using hr', hedge⟩
  · obtain ⟨r', -, hr'⟩ := hendless g.LeftRecursive (fun x => LeftRecursive.exists_edge) r hr
    rw [hnil] at hr'
    cases hr'
  · exact List.eq_nil_iff_forall_not_mem.2 fun r hr => hnone r (hleft r hr)

/-- Phrases after an optional phrase. A phrase can start with itself in two ways: by what leads it
in, and by its tail, which comes first where nothing leads it in. -/
def phrases : Draft where
  name := "phrases"
  terminals := ["Word"]
  rules :=
    let led := .group .sequence [.leaf (.rule "lead") none, .leaf (.rule "tail") none]
    [{ name := "lead", body := .loop .optional (.leaf (.rule "phrase") none) none },
     { name := "phrase", body := .group .alternation [led, .leaf (.terminal 0) none] },
     { name := "tail", body := .leaf (.rule "phrase") none }]

/-- The grammar of phrases. -/
def phrasesBuilt : Grammar :=
  let lead := .loop 1 .optional (.leaf 0 (.rule 1) 1) none
  let led := .group 4 .sequence [.leaf 2 (.rule 0) 1, .leaf 3 (.rule 2) 1]
  let phrase := .group 6 .alternation [led, .leaf 5 (.terminal 0) 1]
  let tail := .leaf 7 (.rule 1) 1
  { name := "phrases"
    registry := { names := #["Word"], byName := [("Word", 0)] }
    nodes := #[.leaf 0 (.rule 1) 1, lead, .leaf 2 (.rule 0) 1, .leaf 3 (.rule 2) 1, led,
      .leaf 5 (.terminal 0) 1, phrase, tail]
    rules := #[{ name := "lead", body := lead, resync := true },
      { name := "phrase", body := phrase, resync := true },
      { name := "tail", body := tail, resync := true }]
    byName := [("tail", 2), ("phrase", 1), ("lead", 0)] }

theorem phrases_build : phrases.build = .ok phrasesBuilt := by cbv

theorem phrases_cycle : [1, 2, 1].IsChain phrasesBuilt.LeftEdge := by
  have hlead : (phrasesBuilt.exact (.leaf 2 (.rule 0) 1)).nullable = true :=
    exact_nullable_iff.2 (.reference List.not_mem_nil rfl (.skip rfl))
  have htail : phrasesBuilt.LeftEdge 1 2 :=
    ⟨_, rfl, .branch List.mem_cons_self (.tail hlead (.head .here))⟩
  have hphrase : phrasesBuilt.LeftEdge 2 1 := ⟨_, rfl, .here⟩
  exact List.isChain_cons_cons.2 ⟨htail, List.isChain_cons_cons.2 ⟨hphrase, .singleton 1⟩⟩

/-- Asked for what leads a phrase in, the engine is cut before it comes to the tail, and does not
see the cycle through it. Once it is closed that cycle is reported too. -/
theorem phrases_cycles_reported : ∃ e info, Engine.ruleInfo phrasesBuilt 0 {} = .ok (info, e) ∧
    e.approximated = [0] ∧ [1, 2, 1].IsChain phrasesBuilt.LeftEdge ∧
    ∃ r ∈ [1, 2], r ∈ (e.finish phrasesBuilt).approximated := by
  have hasked : Engine.ruleInfo phrasesBuilt 0 {} = .ok (Engine.searchRule phrasesBuilt 0 {}) := rfl
  have hnoted : (Engine.searchRule phrasesBuilt 0 {}).2.approximated = [0] := by cbv
  have hreported := left_recursion_reported (Draft.built phrases_build) (.rule .fresh hasked)
  exact ⟨_, _, hasked, hnoted, phrases_cycle, hreported.2.2.2.1 1 [2] phrases_cycle⟩

end Grammar

end Descent
