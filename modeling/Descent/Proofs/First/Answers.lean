import Descent.Proofs.First.Reference
import Descent.Proofs.First.Runs
import Descent.Proofs.Grammar.WellFormed
import Mathlib.Logic.Relation

/-!
# The answers of the FIRST engine

A search that is cut at active rules depends on where it was cut. What a result is worth is said
relative to the rules it is pending on: `Grammar.Answers g s n` holds if all that `s` says of the
tree `n` is shown by matches of `n`, and `s` says all that is shown by matches that avoid the rules
`s` is pending on. Every run of the search answers its task (`Search.Runs.answers`). In the end a
result is pending on nothing and answers the plain question.

For nullability this needs nothing else. For FIRST sets there is one obstacle: a cut rule counts as
not nullable, so where it is nullable the items after it are not looked at. This does not happen
if no rule is both nullable and left-recursive (`Grammar.Tame`). In a tame grammar all answers are
those of the least solution of the FIRST equations.
-/

namespace Descent

open Search

namespace Grammar

/-! ## Left edges -/

/-- The rule is referenced in the tree at a place before which everything is nullable. -/
inductive LeftRef (g : Grammar) : Node → RuleId → Prop where
  | here : LeftRef g (.leaf i (.rule r) occurrence) r
  | row : shape ≠ .alternation → items = front ++ item :: back →
    (∀ before ∈ front, (g.exact before).nullable = true) → LeftRef g item r →
    LeftRef g (.group i shape items) r
  | branch : branch ∈ branches → LeftRef g branch r → LeftRef g (.group i .alternation branches) r
  | loop : LeftRef g body r → LeftRef g (.loop i kind body separator) r

/-- The body of the first rule can start with the second rule. -/
def LeftEdge (g : Grammar) (r r' : RuleId) : Prop := ∃ R, g.rules[r]? = some R ∧ g.LeftRef R.body r'

/-- The rule lies on a cycle of left edges. -/
def LeftRecursive (g : Grammar) (r : RuleId) : Prop := Relation.TransGen g.LeftEdge r r

/-- No rule is both nullable and left-recursive. -/
def Tame (g : Grammar) : Prop := ∀ r, g.LeftRecursive r → (g.exactRule r).nullable = false

/-- The search of the tree can come to the rule. -/
def Reaches (g : Grammar) (n : Node) (r : RuleId) : Prop :=
  ∃ r', g.LeftRef n r' ∧ Relation.ReflTransGen g.LeftEdge r' r

/-- No nullable rule is active that the search of the tree can come to. -/
def Undisturbed (g : Grammar) (active : List RuleId) (n : Node) : Prop :=
  ∀ r ∈ active, g.Reaches n r → (g.exactRule r).nullable = false

variable {g : Grammar} {active : List RuleId} {n n' : Node}

theorem LeftRef.head (h : g.LeftRef item r) : g.LeftRef (.group i .sequence (item :: items)) r :=
  .row Shape.sequence_ne (List.nil_append _).symm (List.forall_mem_nil _) h

theorem LeftRef.tail (hitem : (g.exact item).nullable = true)
    (h : g.LeftRef (.group i .sequence items) r) :
    g.LeftRef (.group i .sequence (item :: items)) r := by
  cases h with
  | row hs hitems hfront h =>
    exact .row hs (congrArg (item :: ·) hitems) (List.forall_mem_cons.2 ⟨hitem, hfront⟩) h

theorem LeftRef.others (h : g.LeftRef (.group i .alternation branches) r) :
    g.LeftRef (.group i .alternation (first :: branches)) r := by
  cases h with
  | row hs => exact (hs rfl).elim
  | branch hb h => exact .branch (List.mem_cons_of_mem _ hb) h

theorem Undisturbed.mono (h : g.Undisturbed active n) (hsub : ∀ r, g.LeftRef n' r → g.LeftRef n r) :
    g.Undisturbed active n' := by
  intro r hr ⟨r', hleft, hpath⟩
  exact h r hr ⟨r', hsub r' hleft, hpath⟩

/-- A tree whose search enters a rule of a tame grammar: the body of the rule is undisturbed too. -/
theorem Undisturbed.enter (h : g.Undisturbed active (.leaf i (.rule r) o)) (ht : g.Tame)
    (hrule : g.rules[r]? = some R) : g.Undisturbed (r :: active) R.body := by
  intro r' hr' ⟨r'', hleft, hpath⟩
  have hpath : Relation.TransGen g.LeftEdge r r' := .head' ⟨R, hrule, hleft⟩ hpath
  rcases List.mem_cons.1 hr' with rfl | hr'
  · exact ht r' hpath
  · exact h r' hr' ⟨r, .here, hpath.to_reflTransGen⟩

/-! ## What a result is worth -/

/-- The result says of the tree only what matches show. It misses no empty match that avoids the
rules it is pending on. In a tame grammar it misses no empty match at all, and no first kind on a
way that avoids these rules. -/
structure Answers (g : Grammar) (s : Scan) (n : Node) : Prop where
  shown : g.Shown s.info n
  nullable : g.Nullable s.pending n → s.info.nullable = true
  tameNullable : g.Tame → g.Nullable [] n → s.info.nullable = true
  tameFirst : g.Tame → ∀ k, g.Starts s.pending n k → k ∈ s.info.first

/-- Trees that mean the same, whatever is avoided. -/
structure Alike (g : Grammar) (n n' : Node) : Prop where
  nullable : ∀ avoid, g.Nullable avoid n ↔ g.Nullable avoid n'
  starts : ∀ avoid k, g.Starts avoid n k ↔ g.Starts avoid n' k
  leftRef : ∀ r, g.LeftRef n r ↔ g.LeftRef n' r

theorem Undisturbed.congr (h : g.Undisturbed active n) (ha : g.Alike n n') :
    g.Undisturbed active n' :=
  h.mono fun r hr => (ha.leftRef r).2 hr

/-- What a result is worth depends only on the matches that avoid nothing or the pending rules. -/
theorem Answers.transfer (h : g.Answers s n)
    (hnull : ∀ avoid ∈ [[], s.pending], g.Nullable avoid n ↔ g.Nullable avoid n')
    (hstarts : ∀ avoid ∈ [[], s.pending], ∀ k, g.Starts avoid n k ↔ g.Starts avoid n' k) :
    g.Answers s n' := by
  simp only [List.forall_mem_cons] at hnull hstarts
  obtain ⟨hnull₀, hnull, -⟩ := hnull
  obtain ⟨hstarts₀, hstarts, -⟩ := hstarts
  refine ⟨⟨fun hn => ?_, fun k hk => ?_⟩, fun hn => ?_, fun ht hn => ?_, fun ht k hk => ?_⟩
  · exact hnull₀.1 (h.shown.nullable hn)
  · exact (hstarts₀ k).1 (h.shown.first k hk)
  · exact h.nullable (hnull.2 hn)
  · exact h.tameNullable ht (hnull₀.2 hn)
  · exact h.tameFirst ht k ((hstarts k).2 hk)

theorem Answers.congr (h : g.Answers s n) (ha : g.Alike n n') : g.Answers s n' :=
  h.transfer (fun avoid _ => ha.nullable avoid) fun avoid _ => ha.starts avoid

theorem alike_reference : g.Alike (.leaf i (.rule r) o) (.leaf i' (.rule r) o') where
  nullable avoid := nullable_reference_iff.trans nullable_reference_iff.symm
  starts avoid k := starts_reference_iff.trans starts_reference_iff.symm
  leftRef r := ⟨fun h => by cases h; exact .here, fun h => by cases h; exact .here⟩

theorem alike_row (hs : shape ≠ .alternation) (hs' : shape' ≠ .alternation) :
    g.Alike (.group i shape items) (.group i' shape' items) where
  nullable avoid := (nullable_row_iff hs).trans (nullable_row_iff hs').symm
  starts avoid k := by
    constructor <;> intro h <;> cases h with
    | row _ hitems hfront h => exact .row ‹_› hitems hfront h
    | branch => contradiction
  leftRef r := by
    constructor <;> intro h <;> cases h with
    | row _ hitems hfront h => exact .row ‹_› hitems hfront h
    | branch => contradiction

theorem alike_choice :
    g.Alike (.group i .alternation branches) (.group i' .alternation branches) where
  nullable avoid := nullable_choice_iff.trans nullable_choice_iff.symm
  starts avoid k := starts_choice_iff.trans starts_choice_iff.symm
  leftRef r := by
    constructor <;> intro h <;> cases h with
    | row hs => exact (hs rfl).elim
    | branch hb h => exact .branch hb h

/-! ## One step of the search -/

variable {s t : Scan}

theorem Answers.token : g.Answers { info.first := .single kind } (.leaf i (.terminal kind) o) where
  shown := ⟨nofun, fun _ hk => starts_token_iff.2 (TerminalSet.mem_single.1 hk)⟩
  nullable hn := (not_nullable_token hn).elim
  tameNullable _ hn := (not_nullable_token hn).elim
  tameFirst _ _ hk := TerminalSet.mem_single.2 (starts_token_iff.1 hk)

theorem Answers.loop (h : g.Answers s body) :
    g.Answers (s.loop kind) (.loop i kind body separator) where
  shown := by
    refine ⟨fun hn => nullable_loop_iff.2 ?_, fun k hk => .loop (h.shown.first k hk)⟩
    exact (Bool.or_eq_true_iff.1 hn).imp_right h.shown.nullable
  nullable hn := Bool.or_eq_true_iff.2 ((nullable_loop_iff.1 hn).imp_right h.nullable)
  tameNullable ht hn :=
    Bool.or_eq_true_iff.2 ((nullable_loop_iff.1 hn).imp_right (h.tameNullable ht))
  tameFirst ht k hk := h.tameFirst ht k (starts_loop_iff.1 hk)

theorem Answers.noItem (hs : shape ≠ .alternation) :
    g.Answers { info.nullable := true } (.group i shape []) where
  shown := ⟨fun _ => .row hs (List.forall_mem_nil _),
    fun _ hk => (TerminalSet.not_mem_empty hk).elim⟩
  nullable _ := rfl
  tameNullable _ _ := rfl
  tameFirst _ _ hk := (not_starts_nil hs hk).elim

theorem nullable_cons_iff (hs : shape ≠ .alternation) :
    g.Nullable avoid (.group i shape (item :: items)) ↔
      g.Nullable avoid item ∧ g.Nullable avoid (.group i shape items) := by
  rw [nullable_row_iff hs, nullable_row_iff hs, List.forall_mem_cons]

/-- An item that is not nullable ends the row. In a tame grammar nothing after it counts, since
then it really has no empty match. -/
theorem Answers.lastItem (h : g.Answers s item) (hn : s.info.nullable = false)
    (hs : shape ≠ .alternation) : g.Answers s (.group i shape (item :: items)) where
  shown := ⟨fun h' => by simp [hn] at h',
    fun k hk => (starts_cons_iff (j := i) hs).2 (.inl (h.shown.first k hk))⟩
  nullable hrow := h.nullable ((nullable_cons_iff hs).1 hrow).1
  tameNullable ht hrow := h.tameNullable ht ((nullable_cons_iff hs).1 hrow).1
  tameFirst ht k hk := by
    rcases (starts_cons_iff (j := i) hs).1 hk with hk | ⟨hitem, -⟩
    · exact h.tameFirst ht k hk
    · rw [h.tameNullable ht hitem] at hn
      cases hn

theorem Answers.consItem (h : g.Answers s item) (hn : s.info.nullable = true)
    (hs : shape ≠ .alternation) (hrest : g.Answers t (.group i shape items)) :
    g.Answers (s.andThen t) (.group i shape (item :: items)) := by
  have hleft : s.pending ⊆ (s.andThen t).pending := fun r hr => mem_joinPending_iff.2 (.inl hr)
  have hright : t.pending ⊆ (s.andThen t).pending := fun r hr => mem_joinPending_iff.2 (.inr hr)
  refine ⟨⟨fun hn' => ?_, fun k hk => ?_⟩, fun hrow => ?_, fun ht hrow => ?_, fun ht k hk => ?_⟩
  · obtain ⟨-, hn'⟩ := Bool.and_eq_true_iff.1 hn'
    exact (nullable_cons_iff hs).2 ⟨h.shown.nullable hn, hrest.shown.nullable hn'⟩
  · refine (starts_cons_iff (j := i) hs).2 ((TerminalSet.mem_union.1 hk).imp (h.shown.first k) ?_)
    exact fun hk => ⟨h.shown.nullable hn, hrest.shown.first k hk⟩
  · obtain ⟨-, hrow⟩ := (nullable_cons_iff hs).1 hrow
    exact Bool.and_eq_true_iff.2 ⟨hn, hrest.nullable (hrow.mono hright)⟩
  · obtain ⟨-, hrow⟩ := (nullable_cons_iff hs).1 hrow
    exact Bool.and_eq_true_iff.2 ⟨hn, hrest.tameNullable ht hrow⟩
  · refine TerminalSet.mem_union.2 (((starts_cons_iff (j := i) hs).1 hk).imp ?_ ?_)
    · exact fun hk => h.tameFirst ht k (hk.mono hleft)
    · exact fun ⟨_, hk⟩ => hrest.tameFirst ht k (hk.mono hright)

theorem Answers.noBranch : g.Answers {} (.group i .alternation []) where
  shown := ⟨nofun, fun _ hk => (TerminalSet.not_mem_empty hk).elim⟩
  nullable hn := by simp [nullable_choice_iff] at hn
  tameNullable _ hn := by simp [nullable_choice_iff] at hn
  tameFirst _ _ hk := by simp [starts_choice_iff] at hk

theorem Answers.consBranch (h : g.Answers s branch)
    (hrest : g.Answers t (.group i .alternation branches)) :
    g.Answers (s.orElse t) (.group i .alternation (branch :: branches)) := by
  have hleft : s.pending ⊆ (s.orElse t).pending := fun r hr => mem_joinPending_iff.2 (.inl hr)
  have hright : t.pending ⊆ (s.orElse t).pending := fun r hr => mem_joinPending_iff.2 (.inr hr)
  have hnull {avoid} : g.Nullable avoid (.group i .alternation (branch :: branches)) ↔
      g.Nullable avoid branch ∨ g.Nullable avoid (.group i .alternation branches) := by
    simp [nullable_choice_iff]
  have hstarts {avoid k} : g.Starts avoid (.group i .alternation (branch :: branches)) k ↔
      g.Starts avoid branch k ∨ g.Starts avoid (.group i .alternation branches) k := by
    simp [starts_choice_iff]
  refine ⟨⟨fun hn => ?_, fun k hk => ?_⟩, fun hn => ?_, fun ht hn => ?_, fun ht k hk => ?_⟩
  · exact hnull.2 ((Bool.or_eq_true_iff.1 hn).imp h.shown.nullable hrest.shown.nullable)
  · exact hstarts.2 ((TerminalSet.mem_union.1 hk).imp (h.shown.first k) (hrest.shown.first k))
  · exact Bool.or_eq_true_iff.2 ((hnull.1 hn).imp (fun hn => h.nullable (hn.mono hleft))
      fun hn => hrest.nullable (hn.mono hright))
  · exact Bool.or_eq_true_iff.2 ((hnull.1 hn).imp (h.tameNullable ht) (hrest.tameNullable ht))
  · exact TerminalSet.mem_union.2 ((hstarts.1 hk).imp (fun hk => h.tameFirst ht k (hk.mono hleft))
      fun hk => hrest.tameFirst ht k (hk.mono hright))

/-- A cut says nothing, which misses nothing on ways that avoid the rule. -/
theorem Answers.cut (hr : r ∈ active) (hu : g.Tame → g.Undisturbed active (.leaf i (.rule r) o)) :
    g.Answers { pending := [r] } (.leaf i (.rule r) o) where
  shown := ⟨nofun, fun _ hk => (TerminalSet.not_mem_empty hk).elim⟩
  nullable hn := ((nullable_reference_iff.1 hn).1 (List.mem_singleton_self r)).elim
  tameNullable ht hn := by
    have hfalse := hu ht r hr ⟨r, .here, .refl⟩
    have htrue : (g.exactRule r).nullable = true := exact_nullable_iff.2 hn
    rw [hfalse] at htrue
    cases htrue
  tameFirst _ _ hk := ((starts_reference_iff.1 hk).1 (List.mem_singleton_self r)).elim

theorem Answers.unknown (hrule : g.rules[r]? = none) : g.Answers {} (.leaf i (.rule r) o) where
  shown := ⟨nofun, fun _ hk => (TerminalSet.not_mem_empty hk).elim⟩
  nullable hn := by simp [nullable_reference_iff, hrule] at hn
  tameNullable _ hn := by simp [nullable_reference_iff, hrule] at hn
  tameFirst _ _ hk := by simp [starts_reference_iff, hrule] at hk

theorem nullable_rule_iff (hrule : g.rules[r]? = some R) :
    g.Nullable avoid (.leaf i (.rule r) o) ↔ r ∉ avoid ∧ g.Nullable avoid R.body := by
  simp [nullable_reference_iff, hrule]

theorem starts_rule_iff (hrule : g.rules[r]? = some R) :
    g.Starts avoid (.leaf i (.rule r) o) k ↔ r ∉ avoid ∧ g.Starts avoid R.body k := by
  simp [starts_reference_iff, hrule]

/-- Once the search of a rule has ended its result is no longer pending on the rule, since no match
has to enter the rule below itself. -/
theorem Answers.settle (h : g.Answers s R.body) (hrule : g.rules[r]? = some R) :
    g.Answers (s.settle r) (.leaf i (.rule r) o) := by
  have hsub : s.pending ⊆ r :: (s.settle r).pending := by
    intro r' hr'
    by_cases hrr : r' = r
    · exact List.mem_cons.2 (.inl hrr)
    · exact List.mem_cons_of_mem _ (List.mem_filter.2 ⟨hr', by simpa using hrr⟩)
  refine ⟨⟨fun hn => ?_, fun k hk => ?_⟩, fun hn => ?_, fun ht hn => ?_, fun ht k hk => ?_⟩
  · exact (nullable_rule_iff hrule).2 ⟨List.not_mem_nil, h.shown.nullable hn⟩
  · exact (starts_rule_iff hrule).2 ⟨List.not_mem_nil, h.shown.first k hk⟩
  · obtain ⟨-, hbody⟩ := (nullable_rule_iff hrule).1 hn
    exact h.nullable ((hbody.avoid_self hrule).mono hsub)
  · exact h.tameNullable ht ((nullable_rule_iff hrule).1 hn).2
  · obtain ⟨-, hbody⟩ := (starts_rule_iff hrule).1 hk
    exact h.tameFirst ht k ((hbody.avoid_self hrule).mono hsub)

/-- What answers a rule and is pending on nothing answers the body of the rule, and conversely. -/
theorem answers_rule_iff (hrule : g.rules[r]? = some R) :
    g.Answers { info } (.leaf i (.rule r) o) ↔ g.Answers { info } R.body := by
  have hnull : ∀ avoid ∈ [[], []],
      g.Nullable avoid (.leaf i (.rule r) o) ↔ g.Nullable avoid R.body := by
    simp [nullable_rule_iff hrule]
  have hstarts : ∀ avoid ∈ [[], []], ∀ k,
      g.Starts avoid (.leaf i (.rule r) o) k ↔ g.Starts avoid R.body k := by
    simp [starts_rule_iff hrule]
  constructor <;> intro h
  · exact h.transfer hnull hstarts
  · exact h.transfer (fun avoid ha => (hnull avoid ha).symm)
      fun avoid ha k => (hstarts avoid ha k).symm

/-! ## All runs -/

/-- What is remembered for a number answers the node with that number. -/
def Remembers (g : Grammar) (e : Engine) : Prop :=
  ∀ (i : NodeId) (info : Info), e.memo[i]? = some info →
    ∃ n, g.nodes[i]? = some n ∧ g.Answers { info } n

variable {e e' : Engine}

theorem Remembers.keep (h : g.Remembers e) (hn : g.nodes[i]? = some n)
    (ha : s.pending = [] → g.Answers { info := s.info } n) : g.Remembers (Search.keep i s e).2 := by
  unfold Search.keep
  dsimp only
  split
  next hp =>
    intro j info hj
    change (e.memo.insert i s.info)[j]? = some info at hj
    rw [Std.TreeMap.getElem?_insert] at hj
    split at hj
    next hij =>
      cases hj
      exact Std.LawfulEqOrd.eq_of_compare hij ▸ ⟨n, hn, ha (List.isEmpty_iff.1 hp)⟩
    next => exact h j info hj
  next => exact h

theorem Remembers.approximate (h : g.Remembers e) : g.Remembers (e.approximate r) := by
  unfold Engine.approximate
  split
  · exact h
  · exact h

/-- The trees of a task stand in the node table. -/
def Owns (g : Grammar) : Task → Prop
  | .node n | .inside n => g.nodes[n.id]? = some n
  | .items ns | .branches ns => ∀ n ∈ ns, g.nodes[n.id]? = some n
  | .rule _ => True

theorem answers_of_pending (h : g.Answers s n) (hp : s.pending = []) :
    g.Answers { info := s.info } n := by
  cases s
  cases hp
  exact h

end Grammar

open Grammar

variable {g : Grammar}

/-- Every run answers its task, and remembers only answers. -/
theorem Search.Runs.answers (hg : g.WellFormed) (h : Runs g t e s e') (ho : g.Owns t)
    (hm : g.Remembers e) (hu : g.Tame → g.Undisturbed e.active t.tree) :
    g.Answers s t.tree ∧ g.Remembers e' := by
  induction h with
  | remembered hi =>
    obtain ⟨n, hn, ha⟩ := hm _ _ hi
    cases hn.symm.trans ho
    exact ⟨ha, hm⟩
  | searched _ _ ih =>
    obtain ⟨ha, hm'⟩ := ih ho hm hu
    exact ⟨ha, hm'.keep ho (answers_of_pending ha)⟩
  | token => exact ⟨.token, hm⟩
  | reference _ ih =>
    obtain ⟨ha, hm'⟩ := ih trivial hm fun ht => (hu ht).congr alike_reference
    exact ⟨ha.congr alike_reference, hm'⟩
  | row hs _ ih =>
    obtain ⟨ha, hm'⟩ := ih (hg.nodes.closed ho) hm
      fun ht => (hu ht).congr (alike_row hs Shape.sequence_ne)
    exact ⟨ha.congr (alike_row Shape.sequence_ne hs), hm'⟩
  | choice _ ih =>
    obtain ⟨ha, hm'⟩ := ih (hg.nodes.closed ho) hm fun ht => (hu ht).congr alike_choice
    exact ⟨ha.congr alike_choice, hm'⟩
  | loop _ ih =>
    have hbody := hg.nodes.closed ho _ List.mem_cons_self
    obtain ⟨ha, hm'⟩ := ih hbody hm fun ht => (hu ht).mono fun r => .loop
    exact ⟨ha.loop, hm'⟩
  | noItem => exact ⟨.noItem Shape.sequence_ne, hm⟩
  | lastItem _ hn ih =>
    obtain ⟨ha, hm'⟩ := ih (ho _ List.mem_cons_self) hm fun ht => (hu ht).mono fun r => .head
    exact ⟨ha.lastItem hn Shape.sequence_ne, hm'⟩
  | item h hn _ ih ihs =>
    obtain ⟨hitem, hitems⟩ := List.forall_mem_cons.1 ho
    obtain ⟨ha, hm'⟩ := ih hitem hm fun ht => (hu ht).mono fun r => .head
    have hnull := exact_nullable_iff.2 (ha.shown.nullable hn)
    obtain ⟨has, hm''⟩ := ihs hitems hm' fun ht => h.active ▸ (hu ht).mono fun r => .tail hnull
    exact ⟨ha.consItem hn Shape.sequence_ne has, hm''⟩
  | noBranch => exact ⟨.noBranch, hm⟩
  | branch h _ ih ihs =>
    obtain ⟨hbranch, hbranches⟩ := List.forall_mem_cons.1 ho
    obtain ⟨ha, hm'⟩ := ih hbranch hm fun ht => (hu ht).mono fun r => .branch List.mem_cons_self
    obtain ⟨has, hm''⟩ := ihs hbranches hm' fun ht => h.active ▸ (hu ht).mono fun r => .others
    exact ⟨ha.consBranch has, hm''⟩
  | cut hr => exact ⟨.cut hr hu, hm.approximate⟩
  | unknown _ hrule => exact ⟨.unknown hrule, hm⟩
  | known _ hrule hi =>
    obtain ⟨n, hn, ha⟩ := hm _ _ hi
    cases hn.symm.trans (hg.bodies hrule)
    exact ⟨(answers_rule_iff hrule).2 ha, hm⟩
  | entered hr hrule _ h ih =>
    obtain ⟨ha, hm'⟩ := ih (hg.bodies hrule) hm fun ht => (hu ht).enter ht hrule
    have hsettled := ha.settle (i := 0) (o := 0) hrule
    refine ⟨hsettled, Remembers.keep (e := _) hm' (hg.bodies hrule) fun hp => ?_⟩
    exact (answers_rule_iff hrule).1 (answers_of_pending hsettled hp)

end Descent
