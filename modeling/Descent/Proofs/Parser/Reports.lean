import Descent.Proofs.Parser.Operations

/-!
# What the operations of the parser report

`Action.Ends` leaves out what a run reports on its way. Here the reports are part of the end. One
rule says what a step adds to the reports of what comes after it (`Action.bind_of_ok`), and each
operation that moves the parse or goes back gets the list of all its ends: `Setting.Consumed` for
tokens (`consumed_of_run`), `Setting.Resynced` for failures that are mended by skipping
(`resynced_of_run`), `trial_run` for trials.
-/

namespace Descent

variable {α β V : Type} {s t : State}

/-- What happens in a state, as it is reported. -/
def State.reports (s : State) (whats : List Happening) : List Event :=
  whats.map ({ speculation := s.speculation, what := · })

/-- The run, with earlier reports before its own. -/
def Ran.after (events : List Event) (ran : Ran α) : Ran α :=
  { ran with events := events ++ ran.events }

namespace Action

/-- What comes after a step that ends with a value runs on from there, and adds its reports. -/
theorem bind_of_ok {x : Action α} {f : α → Action β} {a : α} {events : List Event}
    (hx : x s = .ok { result := .ok a, state := t, events }) :
    (x >>= f) s = (f a t).map (Ran.after events) := by
  rw [bind_eq_andThen]
  unfold andThen
  rw [hx]
  dsimp only
  cases f a t <;> rfl

theorem map_after_nil (x : Except Halt (Ran α)) : x.map (Ran.after []) = x := by
  cases x <;> rfl

@[simp] theorem getState_bind (f : State → Action α) : (getState >>= f) s = f s s :=
  (bind_of_ok rfl).trans (map_after_nil _)

@[simp] theorem modify_bind (g : State → State) (f : Unit → Action α) :
    (modify g >>= f) s = f () (g s) :=
  (bind_of_ok rfl).trans (map_after_nil _)

@[simp] theorem report_bind (what : Happening) (f : Unit → Action α) :
    (report what >>= f) s = (f () s).map (Ran.after (s.reports [what])) :=
  bind_of_ok rfl

/-- A lookup gives what is found, or it raises the error that there is nothing to be found. -/
theorem ofLookup_bind {found : Except Failure α} {f : α → Action β} {ran : Ran β}
    (h : (ofLookup found >>= f) s = .ok ran) :
    (∃ a, found = .ok a ∧ f a s = .ok ran) ∨ ∃ error, found = .error (.malformed error) ∧
      ran = { result := .error (.structural error), state := s,
              events := s.reports [.raised error] } := by
  match found with
  | .ok a => exact .inl ⟨a, rfl, by rwa [ofLookup, bind_of_ok rfl, map_after_nil] at h⟩
  | .error (.malformed error) =>
    cases h
    exact .inr ⟨error, rfl, rfl⟩
  | .error (.broken fault) => cases h

end Action

namespace Setting

variable {e : Setting}

@[simp] theorem recordError_position (error : ParseError) :
    (e.recordError error s).position = s.position := by
  rw [recordError_eq]

@[simp] theorem recordError_speculation (error : ParseError) :
    (e.recordError error s).speculation = s.speculation := by
  rw [recordError_eq]

@[simp] theorem reports_recordError (error : ParseError) (whats : List Happening) :
    (e.recordError error s).reports whats = s.reports whats := by
  simp [State.reports]

/-! ## Tokens -/

/-- The ends of consuming a token of a kind. -/
inductive Consumed (e : Setting) (kind : Terminal) (occurrence : Nat) (s : State) :
    Ran Token → Prop
  /-- The next token is of the kind. -/
  | took {token : Token} (hnext : e.tokenOf? s.position kind = some token) :
      e.Consumed kind occurrence s
        { result := .ok token
          state := { s with position := s.position + 1 }
          events := s.reports [.took s.position] }
  /-- The next token is dropped in front of one of the kind. -/
  | dropped {token : Token} (hnext : e.tokenOf? s.position kind = none)
      (hrecovers : e.recovers s = true) (hahead : e.tokenOf? (s.position + 1) kind = some token) :
      e.Consumed kind occurrence s
        { result := .ok token
          state := e.recordError (e.mismatch s kind) { s with position := s.position + 1 + 1 }
          events := s.reports [.deleted s.position, .took (s.position + 1)] }
  /-- A token of the kind is made up where the next one may follow it. -/
  | madeUp {rule : RuleId} {current : Token} {follows : TerminalSet}
      (hnext : e.tokenOf? s.position kind = none) (hrecovers : e.recovers s = true)
      (hahead : e.tokenOf? (s.position + 1) kind = none) (hrule : s.currentRule? = some rule)
      (hcurrent : e.tokens[s.position]? = some current)
      (hfollows : e.analysis.terminalFollows kind occurrence rule = .ok follows)
      (hmem : follows.contains current.kind = true) :
      e.Consumed kind occurrence s
        { result := .ok (.madeUp kind current.offset)
          state := e.recordError (e.mismatch s kind) s
          events := s.reports [.madeUp (.madeUp kind current.offset)] }
  /-- It is not known what may follow the missing token. -/
  | raised {rule : RuleId} {error : GrammarError} (hnext : e.tokenOf? s.position kind = none)
      (hrecovers : e.recovers s = true) (hrule : s.currentRule? = some rule)
      (hfollows : e.analysis.terminalFollows kind occurrence rule = .error (.malformed error)) :
      e.Consumed kind occurrence s
        { result := .error (.structural error), state := s, events := s.reports [.raised error] }
  | failed (hnext : e.tokenOf? s.position kind = none) :
      e.Consumed kind occurrence s { result := .error (e.mismatch s kind), state := s }

theorem consumed_of_makeUpToken {kind : Terminal} {occurrence : Nat} {ran : Ran Token}
    (hnext : e.tokenOf? s.position kind = none) (hrecovers : e.recovers s = true)
    (hahead : e.tokenOf? (s.position + 1) kind = none)
    (h : e.makeUpToken s kind occurrence (e.mismatch s kind) s = .ok ran) :
    e.Consumed kind occurrence s ran := by
  unfold makeUpToken at h
  cases hrule : s.currentRule? with
  | none =>
    simp only [hrule] at h
    cases h
    exact .failed hnext
  | some rule =>
    cases hcurrent : (e.cursor s).current? with
    | none =>
      simp only [hrule, hcurrent] at h
      cases h
      exact .failed hnext
    | some current =>
      simp only [hrule, hcurrent] at h
      obtain ⟨follows, hfollows, h⟩ | ⟨error, hfollows, rfl⟩ := Action.ofLookup_bind h
      · split at h
        next hmem =>
          simp only [Action.modify_bind, Action.report_bind, reports_recordError] at h
          cases h
          exact .madeUp hnext hrecovers hahead hrule hcurrent hfollows hmem
        next =>
          cases h
          exact .failed hnext
      · exact .raised hnext hrecovers hrule hfollows

theorem consumed_of_run {kind : Terminal} {occurrence : Nat} {ran : Ran Token}
    (h : e.consume kind occurrence s = .ok ran) : e.Consumed kind occurrence s ran := by
  simp only [consume, Action.getState_bind] at h
  cases hnext : e.tokenOf? s.position kind with
  | some token =>
    simp only [hnext] at h
    cases h
    exact .took hnext
  | none =>
    simp only [hnext] at h
    cases hrecovers : e.recovers s with
    | false =>
      simp only [hrecovers] at h
      cases h
      exact .failed hnext
    | true =>
      simp only [hrecovers, if_true] at h
      cases hahead : e.tokenOf? (s.position + 1) kind with
      | some token =>
        simp only [hahead] at h
        cases h
        exact .dropped hnext hrecovers hahead
      | none =>
        simp only [hahead] at h
        exact consumed_of_makeUpToken hnext hrecovers hahead h

/-! ## Calls -/

/-- A rule body runs in a frame of its own and reports all there is to report. -/
theorem inFrame_run {frame : Frame} {body : Action V} {ran : Ran V}
    (h : inFrame frame body s = .ok ran) :
    ∃ inner, body (s.push frame) = .ok inner ∧ ran = { inner with state := inner.state.pop } := by
  simp only [inFrame, Action.modify_bind, Action.attempt_bind] at h
  obtain ⟨inner, next, hinner, hnext, rfl⟩ := Action.andThen_eq_ok.1 h
  rw [Action.modify_bind] at hnext
  cases hnext
  exact ⟨inner, hinner, by simp⟩

/-- The position that skipping to a token of a kind ends at. -/
def skipEnd (e : Setting) (s : State) (kind : Terminal) : Nat :=
  ((e.cursor s).synchronize (.single kind)).2.position

/-- The ends of mending the failure of the innermost rule. -/
inductive Resynced (e : Setting) (name : String) (recovery : V) (error : ParseError) (s : State) :
    Ran V → Prop
  /-- The rule is resumed at the next token of a kind. -/
  | resumed {count : Nat} {kind : Terminal} (hpoint : e.resumePoint s = .ok (some (count, kind))) :
      e.Resynced name recovery error s
        { result := .ok recovery
          state := e.recordError error { s with position := e.skipEnd s kind }
          events :=
            s.reports ((List.range' s.position (e.skipEnd s kind - s.position)).map .skipped) ++
              s.reports [.recovered name] }
  /-- It is not known what may follow an active rule. -/
  | raised {missing : GrammarError} (hpoint : e.resumePoint s = .error (.malformed missing)) :
      e.Resynced name recovery error s
        { result := .error (.structural missing)
          state := s
          events := s.reports [.raised missing] }
  | failed (hpoint : e.resumePoint s = .ok none) :
      e.Resynced name recovery error s { result := .error error, state := s }

theorem skipTo_run (kind : Terminal) : e.skipTo kind s =
    .ok {
      result := .ok ()
      state := { s with position := e.skipEnd s kind }
      events := s.reports
        ((List.range' s.position (e.skipEnd s kind - s.position)).map .skipped) } :=
  rfl

theorem resynced_of_run {name : String} {recovery : V} {error : ParseError} {ran : Ran V}
    (h : e.resync name recovery error s = .ok ran) : e.Resynced name recovery error s ran := by
  unfold resync at h
  rw [Action.getState_bind] at h
  obtain ⟨point, hpoint, h⟩ | ⟨missing, hpoint, rfl⟩ := Action.ofLookup_bind h
  · split at h
    next =>
      cases h
      exact .failed hpoint
    next count kind =>
      simp only [Action.bind_of_ok (skipTo_run kind), Action.modify_bind, Action.report_bind,
        reports_recordError] at h
      cases h
      exact .resumed hpoint
  · exact .raised hpoint

/-! ## Trials -/

/-- What a gate has to say about the end of a trial. -/
def judgement (accept : V → Bool) : Except ParseError V → List Happening
  | .ok value => [.judged (accept value)]
  | .error _ => []

/-- A trial runs a rule one trial further in, goes back, and asks the gate. -/
theorem trial_run {callee : Callee V} {accept : V → Bool} {ran : Ran (Option Rejection)}
    (h : e.trial callee accept s = .ok ran) : ∃ inner,
      e.invoke callee.name callee.body s.onTrial = .ok inner ∧
      ran.result = verdict accept inner.result ∧ ran.state = s.backFrom inner.state ∧
      ran.events = inner.events ++ ran.state.reports (judgement accept inner.result) := by
  simp only [trial, Action.getState_bind, Action.modify_bind, Action.attempt_bind] at h
  obtain ⟨⟨result, t, events⟩, next, hinner, hnext, rfl⟩ := Action.andThen_eq_ok.1 h
  refine ⟨_, hinner, ?_⟩
  simp only [Action.modify_bind] at hnext
  cases result with
  | ok value =>
    cases hnext
    exact ⟨rfl, rfl, rfl⟩
  | error error =>
    dsimp only at hnext
    split at hnext
    next hrecognition =>
      cases hnext
      exact ⟨(if_pos hrecognition).symm, rfl, rfl⟩
    next hstructural =>
      cases hnext
      exact ⟨(if_neg hstructural).symm, rfl, rfl⟩

end Setting

end Descent
