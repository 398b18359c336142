import Descent.Proofs.Parser.Reports

/-!
# Laws of runs

A judgement about runs, such as that the active rules are back at the end, goes through all
operations of the parser in the same way: a call is a body in a frame, perhaps resynced; a trial is
a rule without a caller that is gone back from; a choice is trials and a call in a row. `RunLaw`
lists what a judgement has to satisfy for that, each time with all that is known of the step in
question. A judgement that is about the states at the start and at the end only is a law if its
relation is one (`StateLaw`).

`Operation.Starts` says which rule bodies an operation runs, and in which states. A law holds of the
run of an operation if it holds of the runs of these bodies (`Operation.run_obeysFrom`), and so it
holds of all runs if it holds of all that rule bodies do (`Operation.run_obeys`).

To a program all operations are alike: it uses one and goes on with the result (`Program.use`).
`Program.useInduction` is induction on programs with one case for all of them.
-/

namespace Descent

variable {α β ι V : Type} {e : Setting} {s t : State} {events : List Event}
  {J : ∀ ⦃α : Type⦄, State → Ran α → Prop} {R : State → State → Prop}

/-- Run from `s`, the action satisfies the judgement. -/
def Action.ObeysFrom (J : ∀ ⦃α : Type⦄, State → Ran α → Prop) (s : State) (x : Action α) : Prop :=
  ∀ ⦃ran⦄, x s = .ok ran → J s ran

/-- Wherever the action is run from, its run satisfies the judgement. -/
def Action.Obeys (J : ∀ ⦃α : Type⦄, State → Ran α → Prop) (x : Action α) : Prop :=
  ∀ ⦃s⦄, x.ObeysFrom J s

theorem Action.Obeys.obeysFrom {x : Action α} (h : x.Obeys J) (s : State) : x.ObeysFrom J s :=
  fun _ hran => h hran

/-- An error ends the run, and nothing is added to what was reported before it. -/
theorem Action.bind_of_error {x : Action α} {f : α → Action β} {error : ParseError}
    (hx : x s = .ok { result := .error error, state := t, events }) :
    (x >>= f) s = .ok { result := .error error, state := t, events } := by
  rw [bind_eq_andThen]
  unfold andThen
  rw [hx]
  simp [ofResult]

/-- What a judgement about runs has to satisfy to go through the operations. -/
structure RunLaw (e : Setting) (J : ∀ ⦃α : Type⦄, State → Ran α → Prop) : Prop where
  value {α : Type} (s : State) (a : α) : J s { result := .ok a, state := s }
  /-- An error that is passed on. -/
  error {α β : Type} {s : State} {ran : Ran α} {error : ParseError} : J s ran →
    ran.result = .error error →
    J s ({ result := .error error, state := ran.state, events := ran.events } : Ran β)
  /-- Going on after a value. -/
  bind {α β : Type} {s : State} {first : Ran α} {a : α} {next : Ran β} : J s first →
    first.result = .ok a → J first.state next → J s (next.after first.events)
  consumed {kind : Terminal} {occurrence : Nat} {s : State} {ran : Ran Token} :
    e.Consumed kind occurrence s ran → J s ran
  raised {α : Type} (s : State) (missing : GrammarError) :
    J s ({ result := .error (.structural missing), state := s,
           events := s.reports [.raised missing] } : Ran α)
  noViable {α : Type} (s : State) (rule expected : String) :
    J s ({ result := .error (.noViable rule s.position expected), state := s } : Ran α)
  frame {V : Type} {s : State} {frame : Frame} {ran : Ran V} : J (s.push frame) ran →
    J s { ran with state := ran.state.pop }
  /-- A failed body, and an attempt to mend the failure. -/
  resynced {V : Type} {s : State} {ran next : Ran V} {error : ParseError} {name : String}
    {recovery : V} : J s ran → ran.result = .error error → error.isRecognition = true →
    e.recovers ran.state = true → e.Resynced name recovery error ran.state next →
    J s (next.after ran.events)
  trial {V : Type} {s : State} {ran : Ran V} (accept : V → Bool) : J s.onTrial ran →
    J s { result := Setting.verdict accept ran.result
          state := s.backFrom ran.state
          events := ran.events ++
            (s.backFrom ran.state).reports (Setting.judgement accept ran.result) }

/-- The relation holds between the states at the start and at the end. -/
def Leaves (R : State → State → Prop) ⦃α : Type⦄ (s : State) (ran : Ran α) : Prop := R s ran.state

/-- What a relation between the states at the start and at the end of runs has to satisfy. -/
structure StateLaw (e : Setting) (R : State → State → Prop) : Prop where
  refl (s : State) : R s s
  trans {s t u : State} : R s t → R t u → R s u
  moved (s : State) (position : Nat) : R s { s with position }
  mended {s : State} {error : ParseError} {position : Nat} : e.recovers s = true →
    R s (e.recordError error { s with position })
  frame {s t : State} {frame : Frame} : R (s.push frame) t → R s t.pop
  trial {s t : State} : R s.onTrial t → R s (s.backFrom t)

theorem StateLaw.runLaw (law : StateLaw e R) : RunLaw e (Leaves R) where
  value s _ := law.refl s
  error h _ := h
  bind h _ h' := law.trans h h'
  consumed h := by
    cases h with
    | took => exact law.moved _ _
    | dropped _ hrecovers => exact law.mended hrecovers
    | madeUp _ hrecovers => exact law.mended hrecovers
    | raised | failed => exact law.refl _
  raised s _ := law.refl s
  noViable s _ _ := law.refl s
  frame h := law.frame h
  resynced h _ _ hrecovers h' := by
    refine law.trans h ?_
    cases h' with
    | resumed => exact law.mended hrecovers
    | raised | failed => exact law.refl _
  trial _ h := law.trial h

/-! ## Which rule bodies an operation runs -/

namespace Setting

/-- A call made in `s` runs the body of the called rule in `t`. A rule without a caller is one whose
occurrence is 0. -/
def Activates (e : Setting) (callee : Callee V) (occurrence : Nat) (s t : State) : Prop :=
  ∃ id, e.resolve callee.name = .ok id ∧ t = s.push { rule := id, occurrence }

/-- A speculative call made in `s` runs the body of its rule in `t`. -/
inductive Speculates (e : Setting) (callee : Callee V) (occurrence : Nat) (accept : V → Bool)
    (s t : State) : Prop
  | tried (hcall : e.Activates callee 0 s.onTrial t)
  | committed {ran : Ran (Option Rejection)} (htrial : e.trial callee accept s = .ok ran)
      (haccepted : ran.result = .ok none) (hcall : e.Activates callee occurrence ran.state t)

/-- Alternatives tried from `s` on come to run the body of a rule in a state. -/
inductive Attempts (e : Setting) (callee : ι → Callee V) :
    List (Alternative ι V) → State → ι → State → Prop
  | ungated {a : Alternative ι V} {rest : List (Alternative ι V)} {s t : State}
      (hgate : a.gate = none) (hcall : e.Activates (callee a.rule) a.occurrence s t) :
      e.Attempts callee (a :: rest) s a.rule t
  | gated {a : Alternative ι V} {rest : List (Alternative ι V)} {s t : State} {accept : V → Bool}
      (hgate : a.gate = some accept)
      (hcall : e.Speculates (callee a.rule) a.occurrence accept s t) :
      e.Attempts callee (a :: rest) s a.rule t
  | passed {a : Alternative ι V} {rest : List (Alternative ι V)} {s t : State}
      {accept : V → Bool} {ran : Ran (Speculation V)} {reason : Rejection} {rule : ι}
      (hgate : a.gate = some accept)
      (hrun : e.speculate (callee a.rule) a.occurrence accept s = .ok ran)
      (hrolledBack : ran.result = .ok (.rolledBack reason))
      (hrest : e.Attempts callee rest ran.state rule t) :
      e.Attempts callee (a :: rest) s rule t

end Setting

/-! ## The operations -/

namespace RunLaw

theorem obeysFrom_pure (law : RunLaw e J) (a : α) : (pure a : Action α).ObeysFrom J s := by
  intro ran h
  cases h
  exact law.value s a

theorem obeysFrom_raise (law : RunLaw e J) (missing : GrammarError) :
    (Action.raise missing : Action α).ObeysFrom J s := by
  intro ran h
  cases h
  exact law.raised s missing

theorem obeysFrom_bind (law : RunLaw e J) {x : Action α} {f : α → Action β} (hx : x.ObeysFrom J s)
    (hf : ∀ first a, x s = .ok first → first.result = .ok a → (f a).ObeysFrom J first.state) :
    (x >>= f).ObeysFrom J s := by
  intro ran h
  rw [Action.bind_eq_andThen] at h
  obtain ⟨first, next, hfirst, hnext, rfl⟩ := Action.andThen_eq_ok.1 h
  cases hresult : first.result with
  | ok a =>
    rw [hresult] at hnext
    exact law.bind (hx hfirst) hresult (hf first a hfirst hresult hnext)
  | error error =>
    rw [hresult] at hnext
    cases hnext
    simpa using law.error (hx hfirst) hresult

theorem obeysFrom_inFrame (law : RunLaw e J) {body : Action V} {frame : Frame}
    (hbody : body.ObeysFrom J (s.push frame)) : (Setting.inFrame frame body).ObeysFrom J s := by
  intro ran h
  obtain ⟨inner, hinner, rfl⟩ := Setting.inFrame_run h
  exact law.frame (hbody hinner)

theorem obeysFrom_orResync (law : RunLaw e J) {body : Action V} (hbody : body.ObeysFrom J s)
    (name : String) (recovery : V) : (e.orResync name recovery body).ObeysFrom J s := by
  intro ran h
  obtain ⟨first, next, hfirst, hnext, rfl⟩ := Action.andThen_eq_ok.1 h
  cases hresult : first.result with
  | ok value =>
    rw [hresult] at hnext
    cases hnext
    exact law.bind (hbody hfirst) hresult (law.value _ value)
  | error error =>
    simp only [hresult, Action.getState_bind] at hnext
    split at hnext
    next hmends =>
      obtain ⟨hrecognition, hrecovers⟩ := Bool.and_eq_true_iff.1 hmends
      exact law.resynced (hbody hfirst) hresult hrecognition hrecovers
        (Setting.resynced_of_run hnext)
    next =>
      cases hnext
      simpa using law.error (hbody hfirst) hresult

theorem consume (law : RunLaw e J) (kind : Terminal) (occurrence : Nat) :
    (e.consume kind occurrence).ObeysFrom J s :=
  fun _ h => law.consumed (Setting.consumed_of_run h)

variable {callee : Callee V}

theorem invoke (law : RunLaw e J)
    (hbody : ∀ t, e.Activates callee 0 s t → callee.body.ObeysFrom J t) :
    (e.invoke callee.name callee.body).ObeysFrom J s := by
  unfold Setting.invoke
  split
  next => exact law.obeysFrom_raise _
  next id hid => exact law.obeysFrom_inFrame (hbody _ ⟨id, hid, rfl⟩)

theorem call (law : RunLaw e J) {occurrence : Nat}
    (hbody : ∀ t, e.Activates callee occurrence s t → callee.body.ObeysFrom J t) :
    (e.call callee occurrence).ObeysFrom J s := by
  unfold Setting.call Setting.subrule
  split
  next => exact law.obeysFrom_raise _
  next id hid =>
    exact law.obeysFrom_inFrame (law.obeysFrom_orResync (hbody _ ⟨id, hid, rfl⟩) _ _)

theorem obeysFrom_trial (law : RunLaw e J)
    (hbody : ∀ t, e.Activates callee 0 s.onTrial t → callee.body.ObeysFrom J t)
    (accept : V → Bool) : (e.trial callee accept).ObeysFrom J s := by
  intro ran h
  obtain ⟨inner, hinner, hresult, hstate, hevents⟩ := Setting.trial_run h
  have hran := law.trial accept (law.invoke hbody hinner)
  obtain ⟨result, state, events⟩ := ran
  dsimp only at hresult hstate hevents
  subst hresult hstate hevents
  exact hran

theorem backtrack (law : RunLaw e J)
    (hbody : ∀ t, e.Activates callee 0 s.onTrial t → callee.body.ObeysFrom J t)
    (accept : V → Bool) : (e.backtrack callee accept).ObeysFrom J s :=
  law.obeysFrom_bind (law.obeysFrom_trial hbody accept) fun _ _ _ _ => law.obeysFrom_pure _

theorem speculate (law : RunLaw e J) {occurrence : Nat} {accept : V → Bool}
    (hbody : ∀ t, e.Speculates callee occurrence accept s t → callee.body.ObeysFrom J t) :
    (e.speculate callee occurrence accept).ObeysFrom J s := by
  refine law.obeysFrom_bind (law.obeysFrom_trial (fun t ht => hbody t (.tried ht)) accept) ?_
  intro tried verdict htrial hresult
  cases verdict with
  | some reason => exact law.obeysFrom_pure _
  | none =>
    have hcall := law.call fun t ht => hbody t (.committed htrial hresult ht)
    exact law.obeysFrom_bind hcall fun _ _ _ _ => law.obeysFrom_pure _

variable {callee : ι → Callee V} {alternatives : List (Alternative ι V)}

theorem obeysFrom_firstAccepted (law : RunLaw e J)
    (hbody : ∀ rule t, e.Attempts callee alternatives s rule t →
      (callee rule).body.ObeysFrom J t) : (e.firstAccepted callee alternatives).ObeysFrom J s := by
  induction alternatives generalizing s with
  | nil => exact law.obeysFrom_pure _
  | cons alternative alternatives ih =>
    unfold Setting.firstAccepted
    split
    next hgate =>
      have hcall := law.call fun t ht => hbody _ t (.ungated hgate ht)
      exact law.obeysFrom_bind hcall fun _ _ _ _ => law.obeysFrom_pure _
    next accept hgate =>
      have htried := law.speculate fun t ht => hbody _ t (.gated hgate ht)
      refine law.obeysFrom_bind htried fun tried outcome hrun hresult => ?_
      cases outcome with
      | committed value => exact law.obeysFrom_pure _
      | rolledBack reason => exact ih fun rule t ht => hbody rule t (.passed hgate hrun hresult ht)

end RunLaw

namespace Setting

variable {callee : Callee V}

/-- A speculative call that is rolled back ends at the place where it started. -/
theorem speculate_position {occurrence : Nat} {accept : V → Bool} {reason : Rejection}
    (h : (e.speculate callee occurrence accept).Ends s (.ok (.rolledBack reason)) t) :
    t.position = s.position := by
  obtain ⟨reason', ht, -⟩ | ⟨t₁, error | value, -, -, hr⟩ | ⟨error, -, hr⟩ := ends_speculate.1 h
  · obtain ⟨r₁, t₁, -, -, rfl⟩ := ends_trial.1 ht
    rfl
  all_goals cases hr

/-- Where no alternative is taken, the parse is at the place where the first one was tried. -/
theorem firstAccepted_position {callee : ι → Callee V} {alternatives : List (Alternative ι V)}
    (h : (e.firstAccepted callee alternatives).Ends s (.ok none) t) :
    t.position = s.position := by
  induction alternatives generalizing s with
  | nil => rw [(Action.ends_pure.1 h).2]
  | cons alternative alternatives ih =>
    unfold firstAccepted at h
    split at h
    · obtain ⟨value, t₁, -, hend⟩ | ⟨error, -, hr⟩ := Action.ends_bind.1 h
      · cases (Action.ends_pure.1 hend).1
      · cases hr
    · obtain ⟨outcome, t₁, htried, hrest⟩ | ⟨error, -, hr⟩ := Action.ends_bind.1 h
      · cases outcome with
        | committed value => cases (Action.ends_pure.1 hrest).1
        | rolledBack reason => exact (ih hrest).trans (speculate_position htried)
      · cases hr

end Setting

theorem RunLaw.noViable_run (law : RunLaw e J) {names : List String} {ran : Ran α}
    (h : e.noViable names s.position s = .ok ran) : J s ran := by
  unfold Setting.noViable at h
  cases hexpected : e.expectedOf names with
  | error missing =>
    rw [hexpected] at h
    exact law.obeysFrom_raise missing h
  | ok expected =>
    rw [hexpected] at h
    cases h
    exact law.noViable s _ _

theorem RunLaw.choose (law : RunLaw e J) {callee : ι → Callee V}
    {alternatives : List (Alternative ι V)}
    (hbody : ∀ rule t, e.Attempts callee alternatives s rule t →
      (callee rule).body.ObeysFrom J t) : (e.choose callee alternatives).ObeysFrom J s := by
  intro ran h
  unfold Setting.choose at h
  rw [Action.getState_bind] at h
  refine law.obeysFrom_bind (law.obeysFrom_firstAccepted hbody) ?_ h
  intro first found hfirst hresult
  cases found with
  | some value => exact law.obeysFrom_pure value
  | none =>
    -- all trials were rolled back, so the error is at the place where the parse is now
    have hplace : first.state.position = s.position :=
      Setting.firstAccepted_position (hresult ▸ Action.ends_of_eq_ok hfirst)
    intro next hnext
    rw [← hplace] at hnext
    exact law.noViable_run hnext

/-! ## Programs -/

/-- An operation that a program can use, by the type of its value. -/
inductive Operation (ι V : Type) : Type → Type
  | consume (kind : Terminal) (occurrence : Nat) : Operation ι V Token
  | subrule (rule : ι) (occurrence : Nat) : Operation ι V V
  | invoke (rule : ι) : Operation ι V V
  | backtrack (rule : ι) (accept : V → Bool) : Operation ι V Bool
  | speculate (rule : ι) (occurrence : Nat) (accept : V → Bool) : Operation ι V (Speculation V)
  | choose (alternatives : List (Alternative ι V)) : Operation ι V V

namespace Operation

/-- Runs an operation, given what is called when a rule is called. -/
def run (e : Setting) (callee : ι → Callee V) : Operation ι V β → Action β
  | .consume kind occurrence => e.consume kind occurrence
  | .subrule rule occurrence => e.call (callee rule) occurrence
  | .invoke rule => e.invoke (callee rule).name (callee rule).body
  | .backtrack rule accept => e.backtrack (callee rule) accept
  | .speculate rule occurrence accept => e.speculate (callee rule) occurrence accept
  | .choose alternatives => e.choose callee alternatives

/-- An operation that is used in `s` runs the body of `rule` in `t`. -/
def Starts (e : Setting) (callee : ι → Callee V) : Operation ι V β → State → ι → State → Prop
  | .consume .., _, _, _ => False
  | .subrule called occurrence, s, rule, t =>
    rule = called ∧ e.Activates (callee called) occurrence s t
  | .invoke called, s, rule, t => rule = called ∧ e.Activates (callee called) 0 s t
  | .backtrack tried _, s, rule, t => rule = tried ∧ e.Activates (callee tried) 0 s.onTrial t
  | .speculate tried occurrence accept, s, rule, t =>
    rule = tried ∧ e.Speculates (callee tried) occurrence accept s t
  | .choose alternatives, s, rule, t => e.Attempts callee alternatives s rule t

theorem run_obeysFrom (law : RunLaw e J) {callee : ι → Callee V} {op : Operation ι V β}
    (hbody : ∀ rule t, op.Starts e callee s rule t → (callee rule).body.ObeysFrom J t) :
    (op.run e callee).ObeysFrom J s := by
  cases op with
  | consume kind occurrence => exact law.consume kind occurrence
  | subrule rule occurrence => exact law.call fun t ht => hbody rule t ⟨rfl, ht⟩
  | invoke rule => exact law.invoke fun t ht => hbody rule t ⟨rfl, ht⟩
  | backtrack rule accept => exact law.backtrack (fun t ht => hbody rule t ⟨rfl, ht⟩) accept
  | speculate rule occurrence accept => exact law.speculate fun t ht => hbody rule t ⟨rfl, ht⟩
  | choose alternatives => exact law.choose hbody

theorem run_obeys (law : RunLaw e J) {callee : ι → Callee V}
    (hbody : ∀ rule, (callee rule).body.Obeys J) (op : Operation ι V β) :
    (op.run e callee).Obeys J :=
  fun _ => run_obeysFrom law fun rule t _ => (hbody rule).obeysFrom t

end Operation

namespace Program

variable {book : Book ι V}

/-- The program that uses an operation and goes on with its result. -/
def use : Operation ι V β → (Except ParseError β → Program ι V α) → Program ι V α
  | .consume kind occurrence, next => .consume kind occurrence next
  | .subrule rule occurrence, next => .subrule rule occurrence next
  | .invoke rule, next => .invoke rule next
  | .backtrack rule accept, next => .backtrack rule accept next
  | .speculate rule occurrence accept, next => .speculate rule occurrence accept next
  | .choose alternatives, next => .choose alternatives next

theorem exec_use {enter : ι → Action V} (op : Operation ι V β)
    (next : Except ParseError β → Program ι V α) : (use op next).exec e book enter =
      (op.run e (callee book enter)).andThen fun r => (next r).exec e book enter := by
  cases op <;> rfl

theorem everywhere_use {P : Program ι V α → Prop} {op : Operation ι V β}
    {next : Except ParseError β → Program ι V α} :
    (use op next).Everywhere P ↔ P (use op next) ∧ ∀ r, (next r).Everywhere P := by
  cases op <;> exact Iff.rfl

theorem traceless_use (op : Operation ι V β) (next : Except ParseError β → Program ι V α) :
    (use op next).Traceless := by
  cases op <;> trivial

/-- Induction on programs in which all operations are one case. -/
@[elab_as_elim]
theorem useInduction {motive : Program ι V α → Prop} (done : ∀ result, motive (.done result))
    (halt : ∀ why, motive (.halt why))
    (use : ∀ {β : Type} (op : Operation ι V β) (next : Except ParseError β → Program ι V α),
      (∀ r, motive (next r)) → motive (use op next))
    (inspect : ∀ next, (∀ e s, motive (next e s)) → motive (.inspect next))
    (takeErrors : ∀ next, (∀ errors, motive (next errors)) → motive (.takeErrors next))
    (mark : ∀ name next, motive next → motive (.mark name next))
    (restore : ∀ place next, motive next → motive (.restore place next))
    (recoveryValue : ∀ rule next, (∀ value, motive (next value)) →
      motive (.recoveryValue rule next)) (p : Program ι V α) : motive p := by
  induction p with
  | done result => exact done result
  | halt why => exact halt why
  | consume kind occurrence next ih => exact use (.consume kind occurrence) next ih
  | subrule rule occurrence next ih => exact use (.subrule rule occurrence) next ih
  | invoke rule next ih => exact use (.invoke rule) next ih
  | backtrack rule accept next ih => exact use (.backtrack rule accept) next ih
  | speculate rule occurrence accept next ih =>
    exact use (.speculate rule occurrence accept) next ih
  | choose alternatives next ih => exact use (.choose alternatives) next ih
  | inspect next ih => exact inspect next ih
  | takeErrors next ih => exact takeErrors next ih
  | mark name next ih => exact mark name next ih
  | restore place next ih => exact restore place next ih
  | recoveryValue rule next ih => exact recoveryValue rule next ih

/-- A rule body reports that it is entered, all that it does, and that it is left. -/
theorem enter_run {fuel : Nat} {rule : ι} {ran : Ran V}
    (h : enter e book (fuel + 1) rule s = .ok ran) : ∃ inner,
      (book rule).body.exec e book (enter e book fuel) s = .ok inner ∧
      ran = { inner with
        events := s.reports [.entered (book rule).name s.position s.frames.length] ++
          (inner.events ++ inner.state.reports
            [.left (book rule).name inner.result.isOk inner.state.position
              inner.state.errors.length]) } := by
  simp only [enter, Action.getState_bind, Action.attempt_bind] at h
  rw [Action.bind_eq_andThen] at h
  obtain ⟨entered, next, hentered, hnext, rfl⟩ := Action.andThen_eq_ok.1 h
  cases hentered
  obtain ⟨inner, last, hinner, hlast, rfl⟩ := Action.andThen_eq_ok.1 hnext
  rw [Action.getState_bind, Action.report_bind] at hlast
  cases hlast
  exact ⟨inner, hinner, by simp [Ran.after, State.reports]⟩

end Program

end Descent
