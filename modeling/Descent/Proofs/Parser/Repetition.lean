import Descent.Proofs.Parser.Rollback

/-!
# Runs that repeat each other

Two runs of the same rule bodies, perhaps under different configurations, from states that a body
cannot tell apart. `Likeness` says what a relation on states has to give and to be closed under for
that. The first run does not recover. Then, as long as the second one does not recover either, both end
with the same result at the same place; and where the second run could recover, it has no occasion
to if the first one ends with a value and bodies pass errors on (`Repeats`). Each operation repeats
if the bodies of the rules it calls do, and `Program.enter_repeats` follows by induction on programs
and on the nesting of rules.
-/

namespace Descent

variable {α β ι V : Type} {e e' : Setting} {R : State → State → Prop} {s s' t t' : State}

/-- A relation between the states of two runs under two settings: the runs look alike to the rule
bodies, and the first one does not recover. -/
structure Likeness (e e' : Setting) (R : State → State → Prop) : Prop where
  analysis : e'.analysis = e.analysis
  tokens : e'.tokens = e.tokens
  quiet : ∀ {s s'}, R s s' → e.recovers s = false
  position : ∀ {s s'}, R s s' → s'.position = s.position
  currentRule? : ∀ {s s'}, R s s' → s'.currentRule? = s.currentRule?
  kept : ∀ {s s' t t'}, R s s' → s.Kept t → s'.Kept t' → t'.position = t.position → R t t'
  push : ∀ {s s'}, R s s' → ∀ frame, R (s.push frame) (s'.push frame)
  trial : ∀ {s s'}, R s s' → R s.onTrial s'.onTrial

/-- From like states, the first action keeps what was gathered, and the second one ends with the
same result at the same place and keeps it too. If recovery applies to the second run, this is so
where the result is a value. -/
def Repeats (R : State → State → Prop) (e' : Setting) (x x' : Action α) : Prop :=
  ∀ ⦃s s' r t⦄, R s s' → x.Ends s r t → s.Kept t ∧
    ((e'.recovers s' = true → ∃ a, r = .ok a) →
      ∃ t', x'.Ends s' r t' ∧ t'.position = t.position ∧ s'.Kept t')

theorem State.Kept.recovers (h : s.Kept t) : e.recovers t = e.recovers s :=
  (Setting.Steady.of_kept h).recovers

namespace Likeness

theorem grammar (L : Likeness e e' R) : e'.grammar = e.grammar :=
  congrArg Analysis.grammar L.analysis

theorem resolve (L : Likeness e e' R) (name : String) : e'.resolve name = e.resolve name := by
  simp [Setting.resolve, L.grammar]

theorem tokenOf? (L : Likeness e e' R) (h : R s s') (kind : Terminal) :
    e'.tokenOf? s'.position kind = e.tokenOf? s.position kind := by
  simp [Setting.tokenOf?, L.tokens, L.position h]

theorem mismatch (L : Likeness e e' R) (h : R s s') (kind : Terminal) :
    e'.mismatch s' kind = e.mismatch s kind := by
  have hn : e'.named = e.named := by
    funext kind
    simp [Setting.named, L.grammar]
  simp [Setting.mismatch, Setting.cursor, hn, L.tokens, L.position h]

theorem expectedOf (L : Likeness e e' R) (names : List String) :
    e'.expectedOf names = e.expectedOf names := by
  induction names with
  | nil => rfl
  | cons name names ih => simp [Setting.expectedOf, ih, L.resolve, L.analysis]

theorem currentRuleName (L : Likeness e e' R) (h : R s s') :
    e'.currentRuleName s' = e.currentRuleName s := by
  simp [Setting.currentRuleName, L.grammar, L.currentRule? h]

end Likeness

namespace Repeats

/-- Actions that change nothing and give the same results repeat each other. -/
theorem of_eq (L : Likeness e e' R) {x x' : Action α} {result : State → Except ParseError α}
    (h : ∀ ⦃s r t⦄, x.Ends s r t → r = result s ∧ t = s)
    (h' : ∀ ⦃s s'⦄, R s s' → x'.Ends s' (result s) s') : Repeats R e' x x' := by
  intro s s' r t hs hx
  obtain ⟨rfl, rfl⟩ := h hx
  exact ⟨.refl t, fun _ => ⟨s', h' hs, L.position hs, .refl s'⟩⟩

theorem ofResult (L : Likeness e e' R) (result : Except ParseError α) :
    Repeats R e' (Action.ofResult result) (Action.ofResult result) :=
  of_eq L (fun _ _ _ h => Action.ends_ofResult.1 h) fun _ _ _ => Action.ends_ofResult.2 ⟨rfl, rfl⟩

theorem raise (L : Likeness e e' R) (error : GrammarError) :
    Repeats R e' (Action.raise error : Action α) (Action.raise error) :=
  of_eq L (fun _ _ _ h => Action.ends_raise.1 h) fun _ _ _ => Action.ends_raise.2 ⟨rfl, rfl⟩

/-- Where the second run could recover, the first action has to end with a value, so what comes
after it has to pass errors on. -/
theorem andThen (L : Likeness e e' R) {x x' : Action α} {f f' : Except ParseError α → Action β}
    (hx : Repeats R e' x x') (hf : ∀ r, Repeats R e' (f r) (f' r))
    (hp : ∀ ⦃s s'⦄, R s s' → e'.recovers s' = true →
      ∀ error, f (.error error) = Action.ofResult (.error error)) :
    Repeats R e' (x.andThen f) (x'.andThen f') := by
  intro s s' r t hs h
  obtain ⟨r₁, t₁, h₁, h₂⟩ := Action.ends_andThen.1 h
  obtain ⟨hk₁, hrep₁⟩ := hx hs h₁
  -- the first part can be repeated unless it fails where the second run would mend it
  by_cases hv : e'.recovers s' = true → ∃ a, r₁ = .ok a
  · obtain ⟨t₁', h₁', hpos₁, hk₁'⟩ := hrep₁ hv
    obtain ⟨hk₂, hrep₂⟩ := hf r₁ (L.kept hs hk₁ hk₁' hpos₁) h₂
    refine ⟨hk₁.trans hk₂, fun hok => ?_⟩
    obtain ⟨t', h₂', hpos₂, hk₂'⟩ := hrep₂ fun hr => hok (hk₁'.recovers.symm.trans hr)
    exact ⟨t', Action.ends_andThen.2 ⟨r₁, t₁', h₁', h₂'⟩, hpos₂, hk₁'.trans hk₂'⟩
  · obtain ⟨hr, hne⟩ := Classical.not_imp.1 hv
    cases r₁ with
    | ok a => exact absurd ⟨a, rfl⟩ hne
    | error error =>
      rw [hp hs hr] at h₂
      obtain ⟨rfl, rfl⟩ := Action.ends_ofResult.1 h₂
      exact ⟨hk₁, fun hok => nomatch hok hr⟩

theorem bind (L : Likeness e e' R) {x x' : Action α} {f f' : α → Action β}
    (hx : Repeats R e' x x') (hf : ∀ a, Repeats R e' (f a) (f' a)) :
    Repeats R e' (x >>= f) (x' >>= f') := by
  rw [Action.bind_eq_andThen, Action.bind_eq_andThen]
  refine hx.andThen L (fun r => ?_) fun _ _ _ _ _ => rfl
  cases r with
  | ok a => exact hf a
  | error error => exact ofResult L _

theorem getState_bind {f f' : State → Action α}
    (h : ∀ ⦃s s'⦄, R s s' → Repeats R e' (f s) (f' s')) :
    Repeats R e' (Action.getState >>= f) (Action.getState >>= f') := by
  intro s s' r t hs hf
  simp only [Action.ends_getState_bind] at hf ⊢
  exact h hs hs hf

theorem inFrame (L : Likeness e e' R) {body body' : Action V} {frame : Frame}
    (hb : Repeats R e' body body') :
    Repeats R e' (Setting.inFrame frame body) (Setting.inFrame frame body') := by
  intro s s' r t hs h
  obtain ⟨t₁, h₁, rfl⟩ := Setting.ends_inFrame.1 h
  obtain ⟨hk, hrep⟩ := hb (L.push hs frame) h₁
  refine ⟨hk.pop, fun hok => ?_⟩
  obtain ⟨t₁', h₁', hpos, hk'⟩ := hrep hok
  exact ⟨t₁'.pop, Setting.ends_inFrame.2 ⟨t₁', h₁', rfl⟩, hpos, hk'.pop⟩

/-! ## The operations -/

theorem consume (L : Likeness e e' R) (kind : Terminal) (occurrence : Nat) :
    Repeats R e' (e.consume kind occurrence) (e'.consume kind occurrence) := by
  intro s s' r t hs h
  have htoken := L.tokenOf? hs kind
  cases hk : e.tokenOf? s.position kind with
  | some token =>
    rw [hk] at htoken
    obtain ⟨rfl, rfl⟩ := (Setting.ends_consume_of_some hk).1 h
    refine ⟨⟨rfl, rfl, rfl⟩, fun _ => ?_⟩
    refine ⟨_, (Setting.ends_consume_of_some htoken).2 ⟨rfl, rfl⟩, ?_, ⟨rfl, rfl, rfl⟩⟩
    exact congrArg (· + 1) (L.position hs)
  | none =>
    rw [hk] at htoken
    obtain ⟨rfl, rfl⟩ := (Setting.ends_consume_of_quiet hk (L.quiet hs)).1 h
    refine ⟨.refl t, fun hok => ⟨s', ?_, L.position hs, .refl s'⟩⟩
    cases hr : e'.recovers s' with
    | true => exact nomatch hok hr
    | false =>
      exact (Setting.ends_consume_of_quiet htoken hr).2 ⟨by rw [L.mismatch hs], rfl⟩

theorem orResync (L : Likeness e e' R) {body body' : Action V} {name : String} {recovery : V}
    (hb : Repeats R e' body body') :
    Repeats R e' (e.orResync name recovery body) (e'.orResync name recovery body') := by
  intro s s' r t hs h
  -- the first run does not recover, so the call has ended as its body did
  have hbody : body.Ends s r t := Setting.ends_of_ends_orResync
    (fun _ _ h => (hb hs h).1.recovers.trans (L.quiet hs)) h
  obtain ⟨hk, hrep⟩ := hb hs hbody
  refine ⟨hk, fun hok => ?_⟩
  obtain ⟨t', h', hpos, hk'⟩ := hrep hok
  have hend : (e'.orResync name recovery body').Ends s' r t' :=
    Setting.ends_orResync h' fun hr => hok (hk'.recovers.symm.trans hr)
  exact ⟨t', hend, hpos, hk'⟩

theorem invoke (L : Likeness e e' R) {body body' : Action V} (name : String)
    (hb : Repeats R e' body body') : Repeats R e' (e.invoke name body) (e'.invoke name body') := by
  unfold Setting.invoke
  rw [L.resolve]
  split
  · exact raise L _
  · exact hb.inFrame L

theorem subrule (L : Likeness e e' R) {body body' : Action V} (name : String) (recovery : V)
    (occurrence : Nat) (hb : Repeats R e' body body') :
    Repeats R e' (e.subrule name recovery occurrence body)
      (e'.subrule name recovery occurrence body') := by
  unfold Setting.subrule
  rw [L.resolve]
  split
  · exact raise L _
  · exact (hb.orResync L).inFrame L

variable {callee : Callee V} {body' : Action V}

theorem call (L : Likeness e e' R) (occurrence : Nat) (hb : Repeats R e' callee.body body') :
    Repeats R e' (e.call callee occurrence) (e'.call { callee with body := body' } occurrence) :=
  hb.subrule L callee.name callee.recovery occurrence

/-- Neither of two trials recovers, so a trial is repeated whatever comes of it. -/
theorem trial (L : Likeness e e' R) (accept : V → Bool) (hb : Repeats R e' callee.body body') :
    Repeats R e' (e.trial callee accept) (e'.trial { callee with body := body' } accept) := by
  intro s s' r t hs h
  obtain ⟨r₁, t₁, hi, rfl, rfl⟩ := Setting.ends_trial.1 h
  obtain ⟨hk, hrep⟩ := hb.invoke L callee.name (L.trial hs) hi
  refine ⟨hk.unmoved_backFrom.toKept, fun _ => ?_⟩
  obtain ⟨t₁', hi', -, hk'⟩ := hrep fun hr => by simp [e'.recovers_onTrial s'] at hr
  have hpos : s'.position = s.position := L.position hs
  exact ⟨_, Setting.ends_trial.2 ⟨r₁, t₁', hi', rfl, rfl⟩, hpos, hk'.unmoved_backFrom.toKept⟩

theorem backtrack (L : Likeness e e' R) (accept : V → Bool)
    (hb : Repeats R e' callee.body body') :
    Repeats R e' (e.backtrack callee accept)
      (e'.backtrack { callee with body := body' } accept) :=
  (hb.trial L accept).bind L fun _ => ofResult L _

theorem speculate (L : Likeness e e' R) (occurrence : Nat) (accept : V → Bool)
    (hb : Repeats R e' callee.body body') :
    Repeats R e' (e.speculate callee occurrence accept)
      (e'.speculate { callee with body := body' } occurrence accept) := by
  refine (hb.trial L accept).bind L fun verdict => ?_
  cases verdict with
  | some reason => exact ofResult L _
  | none => exact (hb.call L occurrence).bind L fun _ => ofResult L _

theorem noViable (L : Likeness e e' R) (names : List String) (position : Nat) :
    Repeats R e' (e.noViable names position : Action V) (e'.noViable names position) := by
  unfold Setting.noViable
  rw [L.expectedOf]
  split
  · exact raise L _
  · refine getState_bind fun s s' hs => ?_
    rw [L.currentRuleName hs, L.grammar]
    exact ofResult L _

variable {callee : ι → Callee V} {body' : ι → Action V}

theorem firstAccepted (L : Likeness e e' R)
    (hb : ∀ rule, Repeats R e' (callee rule).body (body' rule))
    (alternatives : List (Alternative ι V)) :
    Repeats R e' (e.firstAccepted callee alternatives)
      (e'.firstAccepted (fun rule => { callee rule with body := body' rule }) alternatives) := by
  induction alternatives with
  | nil => exact ofResult L _
  | cons alternative alternatives ih =>
    unfold Setting.firstAccepted
    split
    · exact ((hb _).call L _).bind L fun _ => ofResult L _
    · refine ((hb _).speculate L _ _).bind L fun outcome => ?_
      cases outcome with
      | committed value => exact ofResult L _
      | rolledBack reason => exact ih

theorem choose (L : Likeness e e' R)
    (hb : ∀ rule, Repeats R e' (callee rule).body (body' rule))
    (alternatives : List (Alternative ι V)) :
    Repeats R e' (e.choose callee alternatives)
      (e'.choose (fun rule => { callee rule with body := body' rule }) alternatives) := by
  unfold Setting.choose
  refine getState_bind fun s s' hs => ?_
  rw [L.position hs]
  refine (firstAccepted L hb alternatives).bind L fun found => ?_
  cases found with
  | some value => exact ofResult L _
  | none => exact noViable L _ _

end Repeats

/-! ## Programs -/

namespace Program

/-- If the program is about to read, it goes on in the same way in states that are alike. -/
def ReadsAlike (R : State → State → Prop) (e e' : Setting) : Program ι V α → Prop
  | .inspect next => ∀ ⦃s s'⦄, R s s' → next e s = next e' s'
  | _ => True

/-- If the operation that the program is about to use fails, the program ends with its error. -/
def Forwards : Program ι V α → Prop
  | .consume _ _ next => ∀ error, next (.error error) = .done (.error error)
  | .subrule _ _ next | .invoke _ next | .choose _ next =>
    ∀ error, next (.error error) = .done (.error error)
  | .backtrack _ _ next => ∀ error, next (.error error) = .done (.error error)
  | .speculate _ _ _ next => ∀ error, next (.error error) = .done (.error error)
  | _ => True

theorem forwards_use {op : Operation ι V β} {next : Except ParseError β → Program ι V α} :
    (use op next).Forwards ↔ ∀ error, next (.error error) = .done (.error error) := by
  cases op <;> exact Iff.rfl

/-- What a body needs for its runs to repeat each other. It has to pass errors on only where the
second run could recover. -/
structure Repeatable (R : State → State → Prop) (e e' : Setting) (p : Program ι V α) : Prop where
  tidy : p.Tidy
  reads : p.ReadsAlike R e e'
  forwards : ∀ ⦃s s'⦄, R s s' → e'.recovers s' = true → p.Forwards

end Program

variable {book : Book ι V} {bodies bodies' : ι → Action V}

/-- An operation and the rest of the program after it. -/
theorem Repeats.thenExec (L : Likeness e e' R) {x x' : Action β}
    {next : Except ParseError β → Program ι V α} (hx : Repeats R e' x x')
    (hnext : ∀ r, Repeats R e' ((next r).exec e book bodies) ((next r).exec e' book bodies'))
    (hf : ∀ ⦃s s'⦄, R s s' → e'.recovers s' = true →
      ∀ error, next (.error error) = .done (.error error)) :
    Repeats R e' (x.andThen fun r => (next r).exec e book bodies)
      (x'.andThen fun r => (next r).exec e' book bodies') := by
  refine hx.andThen L hnext fun s s' hs hr error => ?_
  rw [hf hs hr error]
  rfl

namespace Program

theorem exec_repeats (L : Likeness e e' R)
    (he : ∀ rule, Repeats R e' (bodies rule) (bodies' rule)) {p : Program ι V α}
    (hp : p.Everywhere (Repeatable R e e')) :
    Repeats R e' (p.exec e book bodies) (p.exec e' book bodies') := by
  induction p with
  | done result => exact .ofResult L result
  | halt why => exact fun s s' r t _ h => (Action.not_ends_halt h).elim
  | consume kind occurrence next ih =>
    exact (Repeats.consume L kind occurrence).thenExec L (fun r => ih r (hp.2 r)) hp.1.forwards
  | subrule rule occurrence next ih =>
    exact ((he rule).call L occurrence).thenExec L (fun r => ih r (hp.2 r)) hp.1.forwards
  | invoke rule next ih =>
    exact ((he rule).invoke L _).thenExec L (fun r => ih r (hp.2 r)) hp.1.forwards
  | backtrack rule accept next ih =>
    exact ((he rule).backtrack L accept).thenExec L (fun r => ih r (hp.2 r)) hp.1.forwards
  | speculate rule occurrence accept next ih =>
    exact ((he rule).speculate L occurrence accept).thenExec L (fun r => ih r (hp.2 r))
      hp.1.forwards
  | choose alternatives next ih =>
    exact (Repeats.choose L he alternatives).thenExec L (fun r => ih r (hp.2 r)) hp.1.forwards
  | inspect next ih =>
    intro s s' r t hs h
    have hrep := ih e s (hp.2 e s) hs h
    rw [hp.1.reads hs] at hrep
    exact hrep
  | takeErrors next ih => exact hp.1.tidy.elim
  | mark name next ih =>
    intro s s' r t hs h
    have hm (s : State) : s.Kept (s.mark name) := ⟨rfl, rfl, rfl⟩
    have hpos : s'.position = s.position := L.position hs
    obtain ⟨hk, hrep⟩ := ih hp.2 (L.kept hs (hm s) (hm s') hpos) h
    refine ⟨(hm s).trans hk, fun hok => ?_⟩
    obtain ⟨t', h', hpos, hk'⟩ := hrep hok
    exact ⟨t', h', hpos, (hm s').trans hk'⟩
  | restore place next ih => exact hp.1.tidy.elim
  | recoveryValue rule next ih =>
    intro s s' r t hs h
    simp only [exec, Action.ends_report_andThen] at h ⊢
    exact ih _ (hp.2 _) hs h

/-- The body of a rule repeats, however deep the calls in it nest. -/
theorem enter_repeats (L : Likeness e e' R)
    (hb : ∀ rule, (book rule).body.Everywhere (Repeatable R e e')) (fuel : Nat) (rule : ι) :
    Repeats R e' (enter e book fuel rule) (enter e' book fuel rule) := by
  induction fuel generalizing rule with
  | zero => exact fun s s' r t _ h => (Action.not_ends_halt h).elim
  | succ fuel ih =>
    intro s s' r t hs h
    simp only [ends_enter] at h ⊢
    exact exec_repeats L ih (hb rule) hs h

end Program

end Descent
