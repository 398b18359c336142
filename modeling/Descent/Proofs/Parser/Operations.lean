import Descent.Parser.Program

/-!
# How the operations of the parser end

`Action.Ends x s r t` says that the action `x`, run from `s`, ends with the result `r` in the state
`t`; what it reports on the way is left out. A compound action ends as its parts do (`ends_andThen`,
`ends_bind`). From there each operation gets its own lemmas: `ends_consume_of_some` and
`ends_consume_of_quiet` for tokens, `ends_inFrame` and `ends_orResync` for calls, `ends_trial` and
`ends_speculate` for trials. Proofs about whole runs use these and leave the definitions alone.

Rule bodies are programs. `Program.Everywhere P` says that `P` holds of a program and of all that it
can go on with. `Program.Onward`, `Program.Tidy` and `Program.Traceless` say what a program leaves to
the operations.
-/

namespace Descent

variable {α β : Type} {s t : State}

/-- The state in which a trial started from `s` runs its rule. -/
def State.onTrial (s : State) : State := { s with speculation := s.speculation + 1 }

/-- The state in which a trial started from `s` ends, if its rule has ended in `t`. -/
def State.backFrom (s t : State) : State :=
  { t with speculation := t.speculation - 1 }.restore s.snapshot

namespace Action

/-- Run from `s`, the action ends with the result `r` in the state `t`. -/
def Ends (x : Action α) (s : State) (r : Except ParseError α) (t : State) : Prop :=
  ∃ events, x s = .ok { result := r, state := t, events }

variable {x : Action α} {r : Except ParseError α}

theorem ends_of_eq_ok {ran : Ran α} (h : x s = .ok ran) : x.Ends s ran.result ran.state :=
  ⟨ran.events, h⟩

theorem Ends.exists_ran (h : x.Ends s r t) :
    ∃ ran, x s = .ok ran ∧ ran.result = r ∧ ran.state = t := by
  obtain ⟨events, h⟩ := h
  exact ⟨_, h, rfl, rfl⟩

@[simp] theorem ends_ofResult {result : Except ParseError α} :
    (ofResult result).Ends s r t ↔ r = result ∧ t = s := by
  simp [Ends, ofResult, eq_comm]

@[simp] theorem ends_pure {a : α} : (pure a : Action α).Ends s r t ↔ r = .ok a ∧ t = s :=
  ends_ofResult

@[simp] theorem ends_fail {error : ParseError} :
    (fail error : Action α).Ends s r t ↔ r = .error error ∧ t = s :=
  ends_ofResult

@[simp] theorem not_ends_halt {why : Halt} : ¬ (halt why : Action α).Ends s r t := by
  simp [Ends, halt]

@[simp] theorem ends_getState {r : Except ParseError State} :
    getState.Ends s r t ↔ r = .ok s ∧ t = s := by
  simp [Ends, getState, eq_comm]

@[simp] theorem ends_modify {f : State → State} {r : Except ParseError Unit} :
    (modify f).Ends s r t ↔ r = .ok () ∧ t = f s := by
  simp [Ends, modify, eq_comm]

@[simp] theorem ends_reportAll {whats : List Happening} {r : Except ParseError Unit} :
    (reportAll whats).Ends s r t ↔ r = .ok () ∧ t = s := by
  simp [Ends, reportAll, eq_comm]

@[simp] theorem ends_report {what : Happening} {r : Except ParseError Unit} :
    (report what).Ends s r t ↔ r = .ok () ∧ t = s :=
  ends_reportAll

@[simp] theorem ends_handOut {index : Nat} {r : Except ParseError Unit} :
    (handOut index).Ends s r t ↔ r = .ok () ∧ t = { s with position := index + 1 } := by
  simp [Ends, handOut, eq_comm]

@[simp] theorem ends_andThen {f : Except ParseError α → Action β} {r : Except ParseError β} :
    (x.andThen f).Ends s r t ↔ ∃ r₁ t₁, x.Ends s r₁ t₁ ∧ (f r₁).Ends t₁ r t := by
  simp only [Ends, andThen_eq_ok]
  constructor
  · rintro ⟨events, first, next, hx, hf, h⟩
    cases h
    exact ⟨first.result, first.state, ⟨first.events, hx⟩, next.events, hf⟩
  · rintro ⟨r₁, t₁, ⟨before, hx⟩, after, hf⟩
    exact ⟨before ++ after, _, _, hx, hf, rfl⟩

theorem bind_eq_andThen (x : Action α) (f : α → Action β) :
    x >>= f = x.andThen fun
      | .ok a => f a
      | .error error => ofResult (.error error) :=
  rfl

theorem attempt_bind (x : Action α) (f : Except ParseError α → Action β) :
    x.attempt >>= f = x.andThen f := by
  funext s
  rw [bind_eq_andThen]
  unfold attempt andThen
  cases x s with
  | error h => rfl
  | ok ran => simp [ofResult]

theorem ends_bind {f : α → Action β} {r : Except ParseError β} :
    (x >>= f).Ends s r t ↔ (∃ a t₁, x.Ends s (.ok a) t₁ ∧ (f a).Ends t₁ r t) ∨
      ∃ error, x.Ends s (.error error) t ∧ r = .error error := by
  rw [bind_eq_andThen, ends_andThen]
  constructor
  · rintro ⟨error | a, t₁, hx, hf⟩
    · obtain ⟨rfl, rfl⟩ := ends_ofResult.1 hf
      exact .inr ⟨_, hx, rfl⟩
    · exact .inl ⟨_, t₁, hx, hf⟩
  · rintro (⟨a, t₁, hx, hf⟩ | ⟨error, hx, rfl⟩)
    · exact ⟨.ok a, t₁, hx, hf⟩
    · exact ⟨.error error, t, hx, ends_ofResult.2 ⟨rfl, rfl⟩⟩

theorem ends_report_andThen {what : Happening} {f : Except ParseError Unit → Action α} :
    ((report what).andThen f).Ends s r t ↔ (f (.ok ())).Ends s r t := by
  simp [and_assoc]

/-- An action that always ends the same way just passes its value on. -/
theorem ends_bind_of_ends {a : α} {t₁ : State} {f : α → Action β} {r : Except ParseError β}
    (hx : ∀ r t, x.Ends s r t ↔ r = .ok a ∧ t = t₁) :
    (x >>= f).Ends s r t ↔ (f a).Ends t₁ r t := by
  simp [ends_bind, hx, and_assoc]

@[simp] theorem ends_pure_bind {a : α} {f : α → Action β} {r : Except ParseError β} :
    (pure a >>= f).Ends s r t ↔ (f a).Ends s r t :=
  ends_bind_of_ends fun _ _ => ends_pure

@[simp] theorem ends_getState_bind {f : State → Action α} :
    (getState >>= f).Ends s r t ↔ (f s).Ends s r t :=
  ends_bind_of_ends fun _ _ => ends_getState

@[simp] theorem ends_modify_bind {g : State → State} {f : Unit → Action α} :
    (modify g >>= f).Ends s r t ↔ (f ()).Ends (g s) r t :=
  ends_bind_of_ends fun _ _ => ends_modify

@[simp] theorem ends_reportAll_bind {whats : List Happening} {f : Unit → Action α} :
    (reportAll whats >>= f).Ends s r t ↔ (f ()).Ends s r t :=
  ends_bind_of_ends fun _ _ => ends_reportAll

@[simp] theorem ends_report_bind {what : Happening} {f : Unit → Action α} :
    (report what >>= f).Ends s r t ↔ (f ()).Ends s r t :=
  ends_reportAll_bind

@[simp] theorem ends_handOut_bind {index : Nat} {f : Unit → Action α} :
    (handOut index >>= f).Ends s r t ↔ (f ()).Ends { s with position := index + 1 } r t :=
  ends_bind_of_ends fun _ _ => ends_handOut

@[simp] theorem ends_attempt_bind {f : Except ParseError α → Action β} {r : Except ParseError β} :
    (x.attempt >>= f).Ends s r t ↔ ∃ r₁ t₁, x.Ends s r₁ t₁ ∧ (f r₁).Ends t₁ r t := by
  simp only [ends_bind, attempt, ends_andThen, ends_ofResult]
  constructor
  · rintro (⟨r₁, t₁, ⟨r₂, t₂, hx, h, rfl⟩, hf⟩ | ⟨error, ⟨r₂, t₂, hx, h, -⟩, -⟩)
    · cases h
      exact ⟨r₁, t₁, hx, hf⟩
    · cases h
  · rintro ⟨r₁, t₁, hx, hf⟩
    exact .inl ⟨r₁, t₁, ⟨r₁, t₁, hx, rfl, rfl⟩, hf⟩

@[simp] theorem ends_raise {error : GrammarError} :
    (raise error : Action α).Ends s r t ↔ r = .error (.structural error) ∧ t = s := by
  simp [raise]

end Action

namespace Setting

variable {ι V : Type} {e : Setting}

/-! ## Tokens -/

theorem recordError_eq (e : Setting) (error : ParseError) (s : State) :
    e.recordError error s = { s with errors :=
      if s.errors.length < e.config.maxErrors then s.errors ++ [error] else s.errors } := by
  unfold recordError
  split <;> rfl

theorem ends_consume_of_some {kind : Terminal} {occurrence : Nat} {token : Token}
    {r : Except ParseError Token} (h : e.tokenOf? s.position kind = some token) :
    (e.consume kind occurrence).Ends s r t ↔
      r = .ok token ∧ t = { s with position := s.position + 1 } := by
  simp [consume, h]

theorem ends_consume_of_quiet {kind : Terminal} {occurrence : Nat} {r : Except ParseError Token}
    (h : e.tokenOf? s.position kind = none) (hq : e.recovers s = false) :
    (e.consume kind occurrence).Ends s r t ↔ r = .error (e.mismatch s kind) ∧ t = s := by
  simp [consume, h, hq]

/-! ## Calls -/

theorem ends_inFrame {frame : Frame} {body : Action V} {r : Except ParseError V} :
    (inFrame frame body).Ends s r t ↔ ∃ t₁, body.Ends (s.push frame) r t₁ ∧ t = t₁.pop := by
  simp only [inFrame, Action.ends_modify_bind, Action.ends_attempt_bind, Action.ends_ofResult]
  constructor
  · rintro ⟨r₁, t₁, hb, rfl, rfl⟩
    exact ⟨t₁, hb, rfl⟩
  · rintro ⟨t₁, hb, rfl⟩
    exact ⟨r, t₁, hb, rfl, rfl⟩

/-- A rule without a caller gives a value only if there is such a rule and its body gives it. -/
theorem exists_of_ends_invoke {body : Action V} {name : String} {value : V}
    (h : (e.invoke name body).Ends s (.ok value) t) : ∃ id t₁, e.resolve name = .ok id ∧
      body.Ends (s.push (.root id)) (.ok value) t₁ ∧ t = t₁.pop := by
  unfold invoke at h
  split at h
  next => cases (Action.ends_raise.1 h).1
  next id hid =>
    obtain ⟨t₁, hb, rfl⟩ := ends_inFrame.1 h
    exact ⟨id, t₁, hid, hb, rfl⟩

theorem ends_orResync {body : Action V} {name : String} {recovery : V} {r : Except ParseError V}
    (h : body.Ends s r t) (hr : e.recovers t = true → ∃ value, r = .ok value) :
    (e.orResync name recovery body).Ends s r t := by
  refine Action.ends_andThen.2 ⟨r, t, h, ?_⟩
  cases r with
  | ok value => exact Action.ends_pure.2 ⟨rfl, rfl⟩
  | error error =>
    have hq : e.recovers t = false := Bool.eq_false_iff.2 fun hr' => nomatch hr hr'
    simp [hq]

/-- Where recovery does not apply, a call ends as the body does. -/
theorem ends_of_ends_orResync {body : Action V} {name : String} {recovery : V}
    {r : Except ParseError V} (hq : ∀ ⦃r t⦄, body.Ends s r t → e.recovers t = false)
    (h : (e.orResync name recovery body).Ends s r t) : body.Ends s r t := by
  obtain ⟨r₁, t₁, hb, h⟩ := Action.ends_andThen.1 h
  cases r₁ with
  | ok value =>
    obtain ⟨rfl, rfl⟩ := Action.ends_pure.1 h
    exact hb
  | error error =>
    simp only [Action.ends_getState_bind, hq hb, Bool.and_false] at h
    obtain ⟨rfl, rfl⟩ := Action.ends_fail.1 h
    exact hb

theorem ends_skipTo {kind : Terminal} {r : Except ParseError Unit} :
    (e.skipTo kind).Ends s r t ↔ r = .ok () ∧
      t = { s with position := ((e.cursor s).synchronize (.single kind)).2.position } := by
  simp [skipTo]

/-! ## Trials -/

/-- What the end of a trial comes to. -/
def verdict (accept : V → Bool) : Except ParseError V → Except ParseError (Option Rejection)
  | .ok value => .ok (if accept value then none else some .refused)
  | .error error => if error.isRecognition then .ok (some (.failed error)) else .error error

theorem ends_trial {callee : Callee V} {accept : V → Bool}
    {r : Except ParseError (Option Rejection)} :
    (e.trial callee accept).Ends s r t ↔ ∃ r₁ t₁,
      (e.invoke callee.name callee.body).Ends s.onTrial r₁ t₁ ∧ r = verdict accept r₁ ∧
      t = s.backFrom t₁ := by
  simp only [trial, Action.ends_getState_bind, Action.ends_modify_bind, Action.ends_attempt_bind]
  refine exists_congr fun r₁ => exists_congr fun t₁ => and_congr_right fun _ => ?_
  cases r₁ with
  | ok value => simp [judge, verdict, State.backFrom]
  | error error =>
    unfold verdict
    dsimp only
    split <;> simp [State.backFrom]

theorem verdict_eq_none {accept : V → Bool} {r : Except ParseError V}
    (h : verdict accept r = .ok none) : ∃ value, r = .ok value ∧ accept value = true := by
  cases r with
  | error error =>
    unfold verdict at h
    dsimp only at h
    split at h <;> cases h
  | ok value =>
    refine ⟨value, rfl, ?_⟩
    cases ha : accept value with
    | true => rfl
    | false => simp [verdict, ha] at h

/-- A speculative call is rolled back, or it ends as the real call does, or the trial has failed. -/
theorem ends_speculate {callee : Callee V} {occurrence : Nat} {accept : V → Bool}
    {r : Except ParseError (Speculation V)} :
    (e.speculate callee occurrence accept).Ends s r t ↔
      (∃ reason, (e.trial callee accept).Ends s (.ok (some reason)) t ∧
        r = .ok (.rolledBack reason)) ∨
      (∃ t₁ r₁, (e.trial callee accept).Ends s (.ok none) t₁ ∧
        (e.call callee occurrence).Ends t₁ r₁ t ∧ r = r₁.map .committed) ∨
      ∃ error, (e.trial callee accept).Ends s (.error error) t ∧ r = .error error := by
  unfold speculate
  rw [Action.ends_bind]
  constructor
  · rintro (⟨verdict, t₁, ht, h⟩ | ⟨error, ht, rfl⟩)
    · cases verdict with
      | some reason =>
        obtain ⟨rfl, rfl⟩ := Action.ends_pure.1 h
        exact .inl ⟨reason, ht, rfl⟩
      | none =>
        obtain ⟨value, t₂, hc, h⟩ | ⟨error, hc, rfl⟩ := Action.ends_bind.1 h
        · obtain ⟨rfl, rfl⟩ := Action.ends_pure.1 h
          exact .inr (.inl ⟨t₁, .ok value, ht, hc, rfl⟩)
        · exact .inr (.inl ⟨t₁, .error error, ht, hc, rfl⟩)
    · exact .inr (.inr ⟨error, ht, rfl⟩)
  · rintro (⟨reason, ht, rfl⟩ | ⟨t₁, error | value, ht, hc, rfl⟩ | ⟨error, ht, rfl⟩)
    · exact .inl ⟨_, t, ht, Action.ends_pure.2 ⟨rfl, rfl⟩⟩
    · exact .inl ⟨_, t₁, ht, Action.ends_bind.2 (.inr ⟨error, hc, rfl⟩)⟩
    · refine .inl ⟨_, t₁, ht, Action.ends_bind.2 (.inl ⟨value, t, hc, ?_⟩)⟩
      exact Action.ends_pure.2 ⟨rfl, rfl⟩
    · exact .inr ⟨error, ht, rfl⟩

end Setting

namespace Program

variable {ι V : Type} {e : Setting} {book : Book ι V}

/-- A property holds of a program and of everything that it can go on with. -/
def Everywhere (P : Program ι V α → Prop) : Program ι V α → Prop
  | .done result => P (.done result)
  | .halt why => P (.halt why)
  | .consume kind occurrence next =>
    P (.consume kind occurrence next) ∧ ∀ r, (next r).Everywhere P
  | .subrule rule occurrence next =>
    P (.subrule rule occurrence next) ∧ ∀ r, (next r).Everywhere P
  | .invoke rule next => P (.invoke rule next) ∧ ∀ r, (next r).Everywhere P
  | .backtrack rule accept next => P (.backtrack rule accept next) ∧ ∀ r, (next r).Everywhere P
  | .speculate rule occurrence accept next =>
    P (.speculate rule occurrence accept next) ∧ ∀ r, (next r).Everywhere P
  | .choose alternatives next => P (.choose alternatives next) ∧ ∀ r, (next r).Everywhere P
  | .inspect next => P (.inspect next) ∧ ∀ e s, (next e s).Everywhere P
  | .takeErrors next => P (.takeErrors next) ∧ ∀ errors, (next errors).Everywhere P
  | .mark name next => P (.mark name next) ∧ next.Everywhere P
  | .restore place next => P (.restore place next) ∧ next.Everywhere P
  | .recoveryValue rule next => P (.recoveryValue rule next) ∧ ∀ value, (next value).Everywhere P

theorem Everywhere.mono {P Q : Program ι V α → Prop} (hPQ : ∀ p, P p → Q p) {p : Program ι V α}
    (hp : p.Everywhere P) : p.Everywhere Q := by
  induction p with
  | done result | halt why => exact hPQ _ hp
  | consume _ _ _ ih | subrule _ _ _ ih | invoke _ _ ih | backtrack _ _ _ ih | speculate _ _ _ _ ih
  | choose _ _ ih | takeErrors _ ih | recoveryValue _ _ ih =>
    exact ⟨hPQ _ hp.1, fun r => ih r (hp.2 r)⟩
  | inspect _ ih => exact ⟨hPQ _ hp.1, fun e s => ih e s (hp.2 e s)⟩
  | mark _ _ ih | restore _ _ ih => exact ⟨hPQ _ hp.1, ih hp.2⟩

/-! What a program can do besides using the operations of the parser is to go back, to take the
recorded errors away, and to put a place aside. Programs over the operations are those that are
`Tidy` everywhere. -/

/-- The program is not about to go back by itself. -/
def Onward : Program ι V α → Prop
  | .restore .. => False
  | _ => True

/-- The program is not about to go back by itself or to take the recorded errors away. -/
def Tidy : Program ι V α → Prop
  | .takeErrors _ => False
  | p => p.Onward

/-- The program is not about to do what going back does not undo: to go back by itself, to take the
recorded errors away, or to put a place aside. -/
def Traceless : Program ι V α → Prop
  | .mark .. => False
  | p => p.Tidy

theorem Tidy.onward {p : Program ι V α} (h : p.Tidy) : p.Onward := by
  cases p with
  | restore => exact h
  | _ => trivial

theorem Traceless.tidy {p : Program ι V α} (h : p.Traceless) : p.Tidy := by
  cases p with
  | takeErrors | restore => exact h
  | _ => trivial

/-- A rule of a book as it is called, where at most `fuel` rule bodies can be nested in it. -/
def calleeOf (e : Setting) (book : Book ι V) (fuel : Nat) (rule : ι) : Callee V :=
  callee book (enter e book fuel) rule

/-- A program that consumes a token which is there goes on after it. -/
theorem ends_exec_consume {enter : ι → Action V} {kind : Terminal} {occurrence : Nat}
    {next : Except ParseError Token → Program ι V α} {token : Token} {r : Except ParseError α}
    (htoken : e.tokenOf? s.position kind = some token)
    (h : ((next (.ok token)).exec e book enter).Ends { s with position := s.position + 1 } r t) :
    ((consume kind occurrence next).exec e book enter).Ends s r t :=
  Action.ends_andThen.2 ⟨_, _, (Setting.ends_consume_of_some htoken).2 ⟨rfl, rfl⟩, h⟩

theorem ends_enter {fuel : Nat} {rule : ι} {r : Except ParseError V} :
    (enter e book (fuel + 1) rule).Ends s r t ↔
      ((book rule).body.exec e book (enter e book fuel)).Ends s r t := by
  simp [enter]

end Program

end Descent
