import Descent.Proofs.Parser.Accounting
import Descent.Proofs.Parser.Repetition
import Descent.Proofs.Parser.Choice

/-!
# Structural errors escape

A structural error says that the grammar and the rule bodies disagree. No operation mends it, takes
it for a rejection or goes on to another alternative: where rule bodies pass errors on, the error is
what the outermost operation ends with, and nothing happens on the way out but that rule bodies are
left (`Setting.structural_escapes`).

What a run leaves behind in any case, be its end a value or an error, is `Unwound`; `Unwinds` is the
law of runs that adds what comes after a structural error is reported. How an error gets from an
operation to the one around it follows `Within`, which puts operations inside of each other.
-/

namespace Descent

variable {α β γ ι V : Type} {e : Setting} {s t u : State} {fixed : Prop}

/-! ## What runs leave behind -/

/-- What is left of a parse at the end of a run: the running trials are those of the start, and the
active rules as well, but for bodies that go back further by themselves. Where recovery does not
apply, there are no more errors than before. -/
structure Unwound (e : Setting) (fixed : Prop) (s t : State) : Prop where
  speculation : t.speculation = s.speculation
  frames : t.frames <:+ s.frames
  fixed : fixed → t.frames = s.frames
  quiet : e.recovers s = false → t.errors.length ≤ s.errors.length

namespace Unwound

theorem of_frames (hspec : t.speculation = s.speculation) (hframes : t.frames = s.frames)
    (hquiet : e.recovers s = false → t.errors.length ≤ s.errors.length) : Unwound e fixed s t :=
  ⟨hspec, hframes ▸ List.suffix_rfl, fun _ => hframes, hquiet⟩

theorem of_steady (h : e.Steady s t) : Unwound e fixed s t :=
  of_frames h.speculation h.frames fun hq => Nat.le_of_eq (congrArg List.length (h.quiet hq))

theorem refl (e : Setting) (fixed : Prop) (s : State) : Unwound e fixed s s := of_steady (.refl e s)

theorem recovers (h : Unwound e fixed s t) : e.recovers t = e.recovers s := by
  simp [Setting.recovers, State.isSpeculating, h.speculation]

theorem trans (h : Unwound e fixed s t) (h' : Unwound e fixed t u) : Unwound e fixed s u where
  speculation := h'.speculation.trans h.speculation
  frames := h'.frames.trans h.frames
  fixed hf := (h'.fixed hf).trans (h.fixed hf)
  quiet hq := Nat.le_trans (h'.quiet (h.recovers.trans hq)) (h.quiet hq)

theorem pop {frame : Frame} (h : Unwound e fixed (s.push frame) t) : Unwound e fixed s t.pop where
  speculation := h.speculation
  frames := by
    obtain hall | hsome := List.suffix_cons_iff.1 h.frames
    · have hpopped : t.pop.frames = s.frames := congrArg List.tail hall
      exact hpopped ▸ List.suffix_rfl
    · exact (List.tail_suffix _).trans hsome
  fixed hf := congrArg List.tail (h.fixed hf)
  quiet := h.quiet

/-- A trial has no errors to drop when it goes back, and no rules to leave. -/
theorem errors_backFrom (h : Unwound e fixed s.onTrial t) : (s.backFrom t).errors = t.errors :=
  List.take_of_length_le (h.quiet (e.recovers_onTrial s))

theorem frames_backFrom (h : Unwound e fixed s.onTrial t) : (s.backFrom t).frames = t.frames := by
  have hle : t.frames.length ≤ s.frames.length := h.frames.length_le
  change t.frames.drop (t.frames.length - s.frames.length) = t.frames
  rw [Nat.sub_eq_zero_of_le hle, List.drop_zero]

theorem backFrom (h : Unwound e fixed s.onTrial t) : Unwound e fixed s (s.backFrom t) where
  speculation := by
    change t.speculation - 1 = s.speculation
    rw [h.speculation]
    rfl
  frames := h.frames_backFrom.symm ▸ h.frames
  fixed hf := h.frames_backFrom.trans (h.fixed hf)
  quiet _ := h.errors_backFrom.symm ▸ h.quiet (e.recovers_onTrial s)

end Unwound

@[simp] theorem State.map_what_reports (s : State) (whats : List Happening) :
    (s.reports whats).map Event.what = whats := by
  simp [reports, Function.comp_def]

/-- What a run leaves behind, and what comes after a structural error is reported: the run ends with
it, and until then rule bodies are left without success, each with as many errors recorded as at the
end. -/
structure Unwinds (e : Setting) (fixed : Prop) ⦃α : Type⦄ (s : State) (ran : Ran α) : Prop where
  unwound : Unwound e fixed s ran.state
  raised : ∀ ⦃before event after missing⦄, ran.events = before ++ event :: after →
    event.what = .raised missing → ran.result = .error (.structural missing) ∧
      ∀ later ∈ after, ∃ rule position,
        later.what = .left rule false position ran.state.errors.length

namespace Unwinds

/-- A run that reports no structural error. -/
theorem of_calm {ran : Ran α} (h : Unwound e fixed s ran.state)
    (hcalm : ∀ missing, .raised missing ∉ ran.events.map Event.what) : Unwinds e fixed s ran := by
  refine ⟨h, fun before event after missing hevents hwhat => ?_⟩
  refine absurd ?_ (hcalm missing)
  rw [hevents]
  simp [hwhat]

/-- A run that reports a structural error and no more. -/
theorem of_raise (s : State) (missing : GrammarError) :
    Unwinds e fixed s ({ result := .error (.structural missing), state := s,
                         events := s.reports [.raised missing] } : Ran α) := by
  refine ⟨.refl e fixed s, fun before event after missing' hevents hwhat => ?_⟩
  obtain ⟨-, hsingle⟩ | ⟨-, hnone⟩ := List.append_eq_singleton_iff.1 hevents.symm
  · cases hsingle
    cases hwhat
    exact ⟨rfl, List.forall_mem_nil _⟩
  · cases hnone

theorem not_raised {ran : Ran α} {result : Except ParseError α} (h : Unwinds e fixed s ran)
    (hresult : ran.result = result) (hother : ∀ missing, result ≠ .error (.structural missing))
    (missing : GrammarError) : .raised missing ∉ ran.events.map Event.what := by
  intro hmem
  obtain ⟨event, hmem, hwhat⟩ := List.mem_map.1 hmem
  obtain ⟨before, after, hevents⟩ := List.append_of_mem hmem
  exact hother missing (hresult.symm.trans (h.raised hevents hwhat).1)

/-- What comes after a run that has not reported a structural error. -/
theorem after {ran : Ran α} {next : Ran β} (h : Unwinds e fixed s ran)
    (hcalm : ∀ missing, .raised missing ∉ ran.events.map Event.what)
    (h' : Unwinds e fixed ran.state next) : Unwinds e fixed s (next.after ran.events) := by
  refine ⟨h.unwound.trans h'.unwound, fun before event after missing hevents hwhat => ?_⟩
  obtain ⟨between, -, hnext⟩ | ⟨between, hran, hnext⟩ := List.append_eq_append_iff.1 hevents
  · exact h'.raised hnext hwhat
  · cases between with
    | nil =>
      have hfirst : next.events = [] ++ event :: after := hnext.symm
      exact h'.raised hfirst hwhat
    | cons first between =>
      cases hnext
      refine absurd ?_ (hcalm missing)
      rw [hran]
      simp [hwhat]

/-- A rule body is left as its run ends. -/
theorem leave {ran : Ran α} (h : Unwinds e fixed s ran) (rule : String) :
    Unwinds e fixed s { ran with
      events := ran.events ++ ran.state.reports
        [.left rule ran.result.isOk ran.state.position ran.state.errors.length] } := by
  refine ⟨h.unwound, fun before event after missing hevents hwhat => ?_⟩
  obtain rfl | ⟨between, last, rfl⟩ := List.eq_nil_or_concat after
  · cases (List.append_inj' hevents rfl).2
    cases hwhat
  · rw [List.concat_eq_append, ← List.cons_append, ← List.append_assoc] at hevents
    obtain ⟨hran, hlast⟩ := List.append_inj' hevents rfl
    cases hlast
    obtain ⟨hresult, hlater⟩ := h.raised hran hwhat
    refine ⟨hresult, ?_⟩
    rw [List.concat_eq_append, List.forall_mem_append]
    exact ⟨hlater, List.forall_mem_singleton.2 ⟨rule, ran.state.position, by rw [hresult]; rfl⟩⟩

theorem resynced {name : String} {recovery : V} {error : ParseError} {ran : Ran V}
    (hrecovers : e.recovers s = true) (h : e.Resynced name recovery error s ran) :
    Unwinds e fixed s ran := by
  cases h with
  | resumed =>
    refine of_calm (.of_steady (.mended hrecovers)) ?_
    simp
  | raised => exact .of_raise s _
  | failed => exact of_calm (.refl e fixed s) (by simp)

/-- A trial gives its verdict, and the errors are those of the end of its rule. -/
theorem trial {ran : Ran V} (accept : V → Bool) (h : Unwinds e fixed s.onTrial ran) :
    Unwinds e fixed s
      { result := Setting.verdict accept ran.result
        state := s.backFrom ran.state
        events := ran.events ++
          (s.backFrom ran.state).reports (Setting.judgement accept ran.result) } := by
  cases hresult : ran.result with
  | ok value =>
    refine of_calm h.unwound.backFrom fun missing => ?_
    simpa [Setting.judgement] using h.not_raised hresult (by simp) missing
  | error error =>
    refine ⟨h.unwound.backFrom, fun before event after missing hevents hwhat => ?_⟩
    have hran : ran.events = before ++ event :: after := by
      simpa [Setting.judgement, State.reports] using hevents
    obtain ⟨hraised, hlater⟩ := h.raised hran hwhat
    cases hresult.symm.trans hraised
    dsimp only
    rw [h.unwound.errors_backFrom]
    exact ⟨rfl, hlater⟩

end Unwinds

theorem unwinds_law (e : Setting) (fixed : Prop) : RunLaw e (Unwinds e fixed) where
  value s _ := .of_calm (.refl e fixed s) (by simp)
  error h hresult := by
    refine ⟨h.unwound, fun before event after missing hevents hwhat => ?_⟩
    obtain ⟨hraised, hlater⟩ := h.raised hevents hwhat
    cases hresult.symm.trans hraised
    exact ⟨rfl, hlater⟩
  bind h hresult h' := h.after (h.not_raised hresult (by simp)) h'
  consumed h := by
    cases h with
    | took => exact .of_calm (.of_frames rfl rfl fun _ => Nat.le_refl _) (by simp)
    | dropped _ hrecovers => exact .of_calm (.of_steady (.mended hrecovers)) (by simp)
    | madeUp _ hrecovers => exact .of_calm (.of_steady (.mended hrecovers)) (by simp)
    | raised => exact .of_raise _ _
    | failed => exact .of_calm (.refl e fixed _) (by simp)
  raised s missing := .of_raise s missing
  noViable s _ _ := .of_calm (.refl e fixed s) (by simp)
  frame h := ⟨h.unwound.pop, h.raised⟩
  resynced h hresult hrecognition hrecovers h' := by
    refine h.after (h.not_raised hresult fun missing heq => ?_) (.resynced hrecovers h')
    cases heq
    cases hrecognition
  trial accept h := h.trial accept

namespace Program

variable {book : Book ι V}

theorem exec_unwinds {enter : ι → Action V} (he : ∀ rule, (enter rule).Obeys (Unwinds e fixed))
    {p : Program ι V α} (hp : p.Everywhere Forwards) (hfixed : fixed → p.Everywhere Onward) :
    (p.exec e book enter).Obeys (Unwinds e fixed) := by
  have law := unwinds_law e fixed
  intro s ran h
  induction p using useInduction generalizing s ran with
  | done result =>
    cases h
    exact .of_calm (.refl e fixed s) (by simp)
  | halt why => cases h
  | use op next ih =>
    obtain ⟨hforwards, hnexts⟩ := everywhere_use.1 hp
    rw [exec_use] at h
    obtain ⟨first, next', hfirst, hnext, rfl⟩ := Action.andThen_eq_ok.1 h
    have hop := op.run_obeys law he hfirst
    cases hresult : first.result with
    | ok a =>
      rw [hresult] at hnext
      exact law.bind hop hresult
        (ih (.ok a) (hnexts _) (fun hf => (everywhere_use.1 (hfixed hf)).2 _) hnext)
    | error error =>
      rw [hresult, forwards_use.1 hforwards] at hnext
      cases hnext
      simpa using law.error hop hresult
  | inspect next ih => exact ih e s (hp.2 e s) (fun hf => (hfixed hf).2 e s) h
  | takeErrors next ih =>
    have hinner := ih s.errors (hp.2 _) (fun hf => (hfixed hf).2 _) h
    have htaken : Unwound e fixed s { s with errors := [] } :=
      .of_frames rfl rfl fun _ => Nat.zero_le _
    exact ⟨htaken.trans hinner.unwound, hinner.raised⟩
  | mark name next ih =>
    have hinner := ih hp.2 (fun hf => (hfixed hf).2) h
    have hmarked : Unwound e fixed s (s.mark name) := .of_frames rfl rfl fun _ => Nat.le_refl _
    exact ⟨hmarked.trans hinner.unwound, hinner.raised⟩
  | restore place next ih =>
    have hinner := ih hp.2 (fun hf => (hfixed hf).2) h
    have hback : Unwound e fixed s (s.restore place) :=
      ⟨rfl, List.drop_suffix _ _, fun hf => (hfixed hf).1.elim, fun _ => List.length_take_le' _ _⟩
    exact ⟨hback.trans hinner.unwound, hinner.raised⟩
  | recoveryValue rule next ih =>
    obtain ⟨first, next', hfirst, hnext, rfl⟩ := Action.andThen_eq_ok.1 h
    cases hfirst
    have hreport : Unwinds e fixed s
        ({ result := .ok (), state := s, events := s.reports [.recovered (book rule).name] } :
          Ran Unit) := .of_calm (.refl e fixed s) (by simp)
    exact hreport.after (by simp) (ih _ (hp.2 _) (fun hf => (hfixed hf).2 _) hnext)

theorem enter_unwinds (hb : ∀ rule, (book rule).body.Everywhere Forwards)
    (hfixed : fixed → ∀ rule, (book rule).body.Everywhere Onward) (fuel : Nat) (rule : ι) :
    (enter e book fuel rule).Obeys (Unwinds e fixed) := by
  induction fuel generalizing rule with
  | zero => exact fun s ran h => nomatch h
  | succ fuel ih =>
    intro s ran h
    obtain ⟨inner, hinner, rfl⟩ := enter_run h
    have hbody := exec_unwinds ih (hb rule) (fun hf => hfixed hf rule) hinner
    have hentered : Unwinds e fixed s
        ({ result := .ok (), state := s,
           events := s.reports [.entered (book rule).name s.position s.frames.length] } :
          Ran Unit) := .of_calm (.refl e fixed s) (by simp)
    exact hentered.after (by simp) (hbody.leave (book rule).name)

end Program

/-! ## The way out -/

/-- The run ends with the structural error of an inner run. The errors recorded are those recorded
at the end of the inner run, and after its reports there are none but that rule bodies are left
without success. -/
structure Ran.EscapeOf (ran : Ran β) (missing : GrammarError) (inner : Ran γ) : Prop where
  result : ran.result = .error (.structural missing)
  errors : ran.state.errors = inner.state.errors
  events : ∃ before leaving, ran.events = before ++ inner.events ++ leaving ∧
    ∀ event ∈ leaving, ∃ rule position,
      event.what = .left rule false position inner.state.errors.length

/-- Run from `s`, the action ends with the structural error of an inner run. -/
def Action.Escapes (x : Action β) (s : State) (missing : GrammarError) (inner : Ran γ) : Prop :=
  ∃ ran, x s = .ok ran ∧ ran.EscapeOf missing inner

variable {missing : GrammarError} {inner : Ran γ}

namespace Ran.EscapeOf

theorem refl (h : inner.result = .error (.structural missing)) : inner.EscapeOf missing inner :=
  ⟨h, rfl, [], [], by simp, List.forall_mem_nil _⟩

theorem after {ran : Ran β} (h : ran.EscapeOf missing inner) (events : List Event) :
    (ran.after events).EscapeOf missing inner := by
  obtain ⟨before, leaving, hevents, hleaving⟩ := h.events
  exact ⟨h.result, h.errors, events ++ before, leaving, by simp [Ran.after, hevents], hleaving⟩

/-- On the way out the value is of another type, and the state may change but for its errors. -/
theorem out {ran : Ran β} (h : ran.EscapeOf missing inner) (herrors : t.errors = ran.state.errors) :
    ({ result := .error (.structural missing), state := t, events := ran.events } :
      Ran α).EscapeOf missing inner :=
  ⟨rfl, herrors.trans h.errors, h.events⟩

/-- On the way out a rule body is left without success. -/
theorem leave {ran : Ran β} (h : ran.EscapeOf missing inner) (rule : String) :
    Ran.EscapeOf { ran with
      events := ran.events ++ ran.state.reports
        [.left rule false ran.state.position ran.state.errors.length] } missing inner := by
  obtain ⟨before, leaving, hevents, hleaving⟩ := h.events
  refine ⟨h.result, h.errors, before, leaving ++ ran.state.reports
    [.left rule false ran.state.position ran.state.errors.length], ?_, ?_⟩
  · rw [hevents, List.append_assoc _ leaving]
  · refine List.forall_mem_append.2 ⟨hleaving, List.forall_mem_singleton.2 ?_⟩
    exact ⟨rule, ran.state.position, by rw [h.errors]⟩

end Ran.EscapeOf

namespace Action.Escapes

theorem bind {x : Action α} {f : α → Action β} (h : x.Escapes s missing inner) :
    (x >>= f).Escapes s missing inner := by
  obtain ⟨⟨result, t, events⟩, hx, hran⟩ := h
  obtain rfl : result = _ := hran.result
  exact ⟨_, Action.bind_of_error hx, hran.out rfl⟩

theorem of_bind {x : Action α} {f : α → Action β} {ran : Ran α} {a : α} (hx : x s = .ok ran)
    (hresult : ran.result = .ok a) (h : (f a).Escapes ran.state missing inner) :
    (x >>= f).Escapes s missing inner := by
  obtain ⟨result, t, events⟩ := ran
  obtain rfl : result = .ok a := hresult
  obtain ⟨next, hnext, hran⟩ := h
  refine ⟨next.after events, ?_, hran.after events⟩
  rw [Action.bind_of_ok hx, hnext]
  rfl

theorem andThen {x : Action α} {f : Except ParseError α → Action β} {ran : Ran α}
    (hx : x s = .ok ran) (h : (f ran.result).Escapes ran.state missing inner) :
    (x.andThen f).Escapes s missing inner := by
  obtain ⟨next, hnext, hran⟩ := h
  exact ⟨_, Action.andThen_eq_ok.2 ⟨ran, next, hx, hnext, rfl⟩, hran.after ran.events⟩

/-- What comes after an action that fails passes the error on. -/
theorem andThen_error {x : Action α} {f : Except ParseError α → Action β}
    (h : x.Escapes s missing inner)
    (hf : f (.error (.structural missing)) = Action.ofResult (.error (.structural missing))) :
    (x.andThen f).Escapes s missing inner := by
  obtain ⟨⟨result, t, events⟩, hx, hran⟩ := h
  obtain rfl : result = _ := hran.result
  refine ⟨_, Action.andThen_eq_ok.2 ⟨_, _, hx, by rw [hf]; rfl, rfl⟩, ?_⟩
  simpa using hran.out rfl

theorem inFrame {frame : Frame} {body : Action V} (h : body.Escapes (s.push frame) missing inner) :
    (Setting.inFrame frame body).Escapes s missing inner := by
  obtain ⟨⟨result, t, events⟩, hbody, hran⟩ := h
  obtain rfl : result = _ := hran.result
  refine ⟨_, ?_, hran.out (t := t.pop) rfl⟩
  simp only [Setting.inFrame, Action.modify_bind, Action.attempt_bind]
  exact Action.andThen_eq_ok.2 ⟨_, _, hbody, rfl, by simp⟩

theorem orResync {name : String} {recovery : V} {body : Action V}
    (h : body.Escapes s missing inner) : (e.orResync name recovery body).Escapes s missing inner :=
  h.andThen_error (by funext t; simp [ParseError.isRecognition]; rfl)

end Action.Escapes

namespace Setting

theorem escapes_of_activates {callee : Callee V} {occurrence : Nat} {body : Action V}
    (h : e.Activates callee occurrence s t) (hbody : body.Escapes t missing inner) :
    ∃ id, e.resolve callee.name = .ok id ∧
      (inFrame { rule := id, occurrence } body).Escapes s missing inner := by
  obtain ⟨id, hid, rfl⟩ := h
  exact ⟨id, hid, hbody.inFrame⟩

theorem invoke_escapes {callee : Callee V} (h : e.Activates callee 0 s t)
    (hbody : callee.body.Escapes t missing inner) :
    (e.invoke callee.name callee.body).Escapes s missing inner := by
  obtain ⟨id, hid, hframe⟩ := escapes_of_activates h hbody
  unfold invoke
  rw [hid]
  exact hframe

theorem call_escapes {callee : Callee V} {occurrence : Nat} (h : e.Activates callee occurrence s t)
    (hbody : callee.body.Escapes t missing inner) :
    (e.call callee occurrence).Escapes s missing inner := by
  obtain ⟨id, hid, hframe⟩ := escapes_of_activates h hbody.orResync
  unfold call subrule
  rw [hid]
  exact hframe

theorem trial_escapes {callee : Callee V} {accept : V → Bool}
    (hkept : callee.body.Obeys (Unwinds e fixed)) (h : e.Activates callee 0 s.onTrial t)
    (hbody : callee.body.Escapes t missing inner) :
    (e.trial callee accept).Escapes s missing inner := by
  obtain ⟨⟨result, u, events⟩, hinvoke, hran⟩ := invoke_escapes h hbody
  have hunwound := ((unwinds_law e fixed).invoke (fun t _ => hkept.obeysFrom t) hinvoke).unwound
  obtain rfl : result = _ := hran.result
  refine ⟨_, ?_, hran.out (t := s.backFrom u) hunwound.errors_backFrom⟩
  simp only [trial, Action.getState_bind, Action.modify_bind, Action.attempt_bind]
  exact Action.andThen_eq_ok.2 ⟨_, _, hinvoke, rfl, by simp [State.backFrom]⟩

theorem speculate_escapes {callee : Callee V} {occurrence : Nat} {accept : V → Bool}
    (hkept : callee.body.Obeys (Unwinds e fixed)) (h : e.Speculates callee occurrence accept s t)
    (hbody : callee.body.Escapes t missing inner) :
    (e.speculate callee occurrence accept).Escapes s missing inner := by
  cases h with
  | tried hcall => exact (trial_escapes hkept hcall hbody).bind
  | committed htrial haccepted hcall =>
    exact .of_bind htrial haccepted (call_escapes hcall hbody).bind

theorem firstAccepted_escapes {callee : ι → Callee V} {alternatives : List (Alternative ι V)}
    {rule : ι} (hkept : ∀ rule, (callee rule).body.Obeys (Unwinds e fixed))
    (h : e.Attempts callee alternatives s rule t)
    (hbody : (callee rule).body.Escapes t missing inner) :
    (e.firstAccepted callee alternatives).Escapes s missing inner := by
  induction h with
  | ungated hgate hcall =>
    simp only [firstAccepted, hgate]
    exact (call_escapes hcall hbody).bind
  | gated hgate hcall =>
    simp only [firstAccepted, hgate]
    exact (speculate_escapes (hkept _) hcall hbody).bind
  | passed hgate hrun hrolledBack _ ih =>
    simp only [firstAccepted, hgate]
    exact .of_bind hrun hrolledBack (ih hbody)

end Setting

theorem Operation.Starts.escapes {callee : ι → Callee V} {op : Operation ι V β} {rule : ι}
    (h : op.Starts e callee s rule t) (hkept : ∀ rule, (callee rule).body.Obeys (Unwinds e fixed))
    (hbody : (callee rule).body.Escapes t missing inner) :
    (op.run e callee).Escapes s missing inner := by
  cases op with
  | consume => exact h.elim
  | subrule called occurrence =>
    obtain ⟨rfl, hcall⟩ := h
    exact Setting.call_escapes hcall hbody
  | invoke called =>
    obtain ⟨rfl, hcall⟩ := h
    exact Setting.invoke_escapes hcall hbody
  | backtrack tried accept =>
    obtain ⟨rfl, hcall⟩ := h
    exact (Setting.trial_escapes (hkept _) hcall hbody).bind
  | speculate tried occurrence accept =>
    obtain ⟨rfl, hcall⟩ := h
    exact Setting.speculate_escapes (hkept _) hcall hbody
  | choose alternatives =>
    have hfirst := Setting.firstAccepted_escapes hkept h hbody
    exact .of_bind rfl rfl hfirst.bind

namespace Program

variable {book : Book ι V}

theorem Reaches.escapes {enter : ι → Action V} {p : Program ι V α} {op : Operation ι V β}
    (h : p.Reaches e (callee book enter) s op t) (hp : p.Everywhere Forwards)
    (hop : (op.run e (callee book enter)).Escapes t missing inner) :
    (p.exec e book enter).Escapes s missing inner := by
  obtain ⟨next, hgoes⟩ := h
  -- from the operation back to the start of the program
  refine Relation.ReflTransGen.head_induction_on (motive := fun x _ => x.1.Everywhere Forwards →
    (x.1.exec e book enter).Escapes x.2 missing inner) hgoes (fun hp => ?_) ?_ hp
  · rw [exec_use]
    refine hop.andThen_error ?_
    rw [forwards_use.1 (everywhere_use.1 hp).1]
    rfl
  · intro x y hstep _ ih hx
    have hrest := ih (hstep.everywhere hx)
    cases hstep with
    | use hrun =>
      rw [exec_use]
      exact .andThen hrun hrest
    | inspect | takeErrors | mark | restore => exact hrest
    | recoveryValue => exact .andThen rfl hrest

theorem enter_escapes {fuel : Nat} {rule : ι}
    (h : ((book rule).body.exec e book (enter e book fuel)).Escapes s missing inner) :
    (enter e book (fuel + 1) rule).Escapes s missing inner := by
  obtain ⟨⟨result, t, events⟩, hbody, hran⟩ := h
  obtain rfl : result = _ := hran.result
  refine .of_bind rfl rfl (.of_bind rfl rfl ⟨_, ?_, hran.leave (book rule).name⟩)
  rw [Action.attempt_bind]
  exact Action.andThen_eq_ok.2 ⟨_, _, hbody, rfl, rfl⟩

end Program

/-- If an operation inside of another one fails with a structural error, so does the outer one. -/
theorem Within.escapes {book : Book ι V} {fuel fuel' : Nat} {op : Operation ι V α}
    {op' : Operation ι V β} (hb : ∀ rule, (book rule).body.Everywhere Program.Forwards)
    (h : Within e book fuel op s fuel' op' t)
    (hinner : (op'.run e (Program.calleeOf e book fuel')).Escapes t missing inner) :
    (op.run e (Program.calleeOf e book fuel)).Escapes s missing inner := by
  have hkept fuel rule : (Program.enter e book fuel rule).Obeys (Unwinds e False) :=
    Program.enter_unwinds hb False.elim fuel rule
  induction h with
  | self => exact hinner
  | body hstarts hreaches _ ih =>
    have hbody := hreaches.escapes (hb _) (ih hinner)
    exact hstarts.escapes (hkept _) (Program.enter_escapes hbody)

/-- Rule bodies that pass errors on never swallow a structural error. If an operation fails with
one, at any depth inside of another operation, the outermost one does not halt: it ends with that
very error, with the errors that were recorded then, and after the inner operation no rule body is
entered, no gate asked and nothing mended; rule bodies are left, that is all. The running trials are
those of the start, and so are the active rules, provided that the start is outside of all rules or
that rule bodies do not go back by themselves. Every structural error that is reported, be it by the
outermost operation itself, is the one that the run ends with, and rule bodies that are left without
success are all that is reported after it. -/
theorem Setting.structural_escapes (e : Setting) (book : Book ι V)
    (hb : ∀ rule, (book rule).body.Everywhere Program.Forwards) (fuel : Nat)
    (op : Operation ι V β) (s : State) :
    (∀ (γ : Type) (fuel' : Nat) (op' : Operation ι V γ) (s' : State) (inner : Ran γ)
      (missing : GrammarError), Within e book fuel op s fuel' op' s' →
      op'.run e (Program.calleeOf e book fuel') s' = .ok inner →
      inner.result = .error (.structural missing) →
      ∃ ran, op.run e (Program.calleeOf e book fuel) s = .ok ran ∧ ran.EscapeOf missing inner) ∧
    ∀ ran, op.run e (Program.calleeOf e book fuel) s = .ok ran →
      (∀ before event after missing, ran.events = before ++ event :: after →
        event.what = .raised missing → ran.result = .error (.structural missing) ∧
          ∀ later ∈ after, ∃ rule position,
            later.what = .left rule false position ran.state.errors.length) ∧
      ran.state.speculation = s.speculation ∧
      ((s.frames = [] ∨ ∀ rule, (book rule).body.Everywhere Program.Onward) →
        ran.state.frames = s.frames) := by
  refine ⟨fun γ fuel' op' s' inner missing hwithin hrun hresult => ?_, fun ran hran => ?_⟩
  · exact hwithin.escapes hb ⟨inner, hrun, .refl hresult⟩
  · let fixed := ∀ rule, (book rule).body.Everywhere Program.Onward
    have hunwinds : Unwinds e fixed s ran :=
      op.run_obeys (unwinds_law e fixed) (Program.enter_unwinds hb id fuel) hran
    refine ⟨hunwinds.raised, hunwinds.unwound.speculation, ?_⟩
    rintro (houtside | honward)
    · have hsuffix := hunwinds.unwound.frames
      rw [houtside, List.suffix_nil] at hsuffix
      rw [hsuffix, houtside]
    · exact hunwinds.unwound.fixed honward

/-! ## A sample escape -/

namespace Sample

/-- Bodies whose handle of the default rule has a name that the grammar does not know. A path asks
for it by a trial, in a trial of the statement. -/
def misnamed : Book PathRule Nat
  | .path =>
    { name := "path"
      recovery := 0
      body := .consume 0 1 fun
        | .error error => .done (.error error)
        | .ok _ => .backtrack .defaulted (fun _ => true) fun r => .done (r.map fun _ => 1) }
  | .assign => marked "assign" 2
  | .defaulted => marked "default" 3
  | .stmt =>
    { name := "stmt"
      recovery := 0
      body := .choose [perhapsAssign, otherwiseDefaulted] .done }

theorem misnamed_everywhere {P : Program PathRule Nat Nat → Prop} (hP : OfForwarding P)
    (rule : PathRule) : (misnamed rule).body.Everywhere P := by
  cases rule with
  | path =>
    refine ⟨hP.use (.consume 0 1) _ fun _ => rfl, fun r => ?_⟩
    cases r with
    | error error => exact hP.done _
    | ok token =>
      exact ⟨hP.use (.backtrack .defaulted fun _ => true) _ fun _ => rfl, fun _ => hP.done _⟩
  | assign | defaulted => exact marked_everywhere hP _ _
  | stmt => exact ⟨hP.choose _, fun _ => hP.done _⟩

/-- The names of three handles are those of rules, and that of the default rule is not. -/
def misnames (e : Setting) : Bool :=
  ["stmt", "assign", "path"].all (fun name => (e.resolve name).toOption.any fun _ => true) &&
    (e.resolve "default").toOption.isNone

/-- A path that is tried in a call of the statement comes to ask for the default rule. -/
theorem misnamed_within {a : Analysis} (h : misnames (dotted a) = true) : ∃ t,
    t.speculation = 1 ∧ Within (dotted a) misnamed 4 (.subrule .stmt 1) underway 1
      (.backtrack .defaulted fun _ => true) t := by
  simp only [misnames, List.all_cons, List.all_nil, Bool.and_eq_true] at h
  obtain ⟨⟨hstmt, hassign, hpath, -⟩, -⟩ := h
  obtain ⟨stmt, hstmt, -⟩ := exists_ok_of_any hstmt
  obtain ⟨assign, hassign, -⟩ := exists_ok_of_any hassign
  obtain ⟨path, hpath, -⟩ := exists_ok_of_any hpath
  let s₁ := underway.push { rule := stmt, occurrence := 1 }
  let s₂ := s₁.onTrial.push { rule := assign, occurrence := 0 }
  let s₃ := s₂.push { rule := path, occurrence := 1 }
  have hchoose : (misnamed .stmt).body.Reaches (dotted a) (Program.calleeOf (dotted a) misnamed 3)
      s₁ (.choose [perhapsAssign, otherwiseDefaulted]) s₁ := .of_eq rfl
  have hcall : (misnamed .assign).body.Reaches (dotted a) (Program.calleeOf (dotted a) misnamed 2)
      s₂ (.subrule .path 1) s₂ := .of_eq rfl
  have hname : (Operation.consume 0 1).run (dotted a) (Program.calleeOf (dotted a) misnamed 1) s₃ =
      .ok { result := .ok { kind := 0, text := "a", offset := 0 }
            state := { s₃ with position := 1 }
            events := s₃.reports [.took 0] } := rfl
  have hask : (misnamed .path).body.Reaches (dotted a) (Program.calleeOf (dotted a) misnamed 1)
      s₃ (.backtrack .defaulted fun _ => true) { s₃ with position := 1 } :=
    .later hname (.of_eq rfl)
  exact ⟨{ s₃ with position := 1 }, rfl, .body ⟨rfl, stmt, hstmt, rfl⟩ hchoose <|
    .body (.gated rfl (.tried ⟨assign, hassign, rfl⟩)) hcall <|
    .body ⟨rfl, path, hpath, rfl⟩ hask .self⟩

theorem misnamed_raises {a : Analysis} (h : misnames (dotted a) = true) (t : State) : ∃ inner,
    (Operation.backtrack .defaulted fun _ => true).run (dotted a)
      (Program.calleeOf (dotted a) misnamed 1) t = .ok inner ∧
    inner.result = .error (.structural (.unknownRule (dotted a).grammar.name "default")) := by
  have hnone : (dotted a).resolve "default" =
      .error (.unknownRule (dotted a).grammar.name "default") := by
    have hname := (Bool.and_eq_true_iff.1 h).2
    unfold Setting.resolve at hname ⊢
    split at hname
    · cases hname
    · rfl
  have hinvoke : (dotted a).invoke "default" (Program.enter (dotted a) misnamed 1 .defaulted) =
      Action.raise (.unknownRule (dotted a).grammar.name "default") := by
    unfold Setting.invoke
    rw [hnone]
  have hends : ((dotted a).trial (Program.calleeOf (dotted a) misnamed 1 .defaulted)
      fun _ => true).Ends t (.error (.structural (.unknownRule (dotted a).grammar.name "default")))
      (t.backFrom t.onTrial) :=
    Setting.ends_trial.2 ⟨_, _, hinvoke ▸ Action.ends_raise.2 ⟨rfl, rfl⟩, rfl, rfl⟩
  obtain ⟨events, htrial⟩ := hends
  exact ⟨_, Action.bind_of_error htrial, rfl⟩

/-- Four operations deep, in a trial, a rule is asked for that the grammar does not know. The call
of the statement, which could recover, ends with that error and tries no other alternative. -/
theorem misnamed_rule_escapes : ∃ a, analysisOf paths = .ok a ∧
    ∃ t ran, ∃ inner : Ran Bool,
      Within (dotted a) misnamed 4 (.subrule .stmt 1) underway 1
        (.backtrack .defaulted fun _ => true) t ∧ t.speculation = 1 ∧
      (dotted a).call (Program.calleeOf (dotted a) misnamed 4 .stmt) 1 underway = .ok ran ∧
      ran.EscapeOf (.unknownRule (dotted a).grammar.name "default") inner ∧
      ran.state.speculation = 0 ∧ ran.state.frames = underway.frames := by
  have hnames : (analysisOf paths).toOption.any (fun a => misnames (dotted a)) = true := by
    decide +kernel
  obtain ⟨a, ha, hnames⟩ := exists_ok_of_any hnames
  obtain ⟨t, htrial, hwithin⟩ := misnamed_within hnames
  obtain ⟨inner, hinner, hresult⟩ := misnamed_raises hnames t
  have hforwards := misnamed_everywhere (P := Program.Forwards)
    ⟨fun _ => trivial, fun _ _ h => Program.forwards_use.2 h⟩
  have honward rule : (misnamed rule).body.Everywhere Program.Onward :=
    (misnamed_everywhere traceless_ofForwarding rule).mono fun _ h => h.tidy.onward
  obtain ⟨hescapes, hends⟩ := Setting.structural_escapes (dotted a) misnamed hforwards 4
    (.subrule .stmt 1) underway
  obtain ⟨ran, hran, hescape⟩ := hescapes Bool 1 _ t inner _ hwithin hinner hresult
  obtain ⟨-, hspec, hframes⟩ := hends ran hran
  exact ⟨a, ha, t, ran, inner, hwithin, htrial, hran, hescape, hspec, hframes (.inr honward)⟩

end Sample

end Descent
