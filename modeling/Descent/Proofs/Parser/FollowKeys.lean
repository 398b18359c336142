import Descent.Proofs.Parser.FrameLinks
import Descent.Proofs.Parser.Resumption

/-!
# Follow keys are never missing

Recovery looks follow sets up by key: that of a token which does not match, and those of the active
rules. If a parse agrees with its grammar, the keys are there. `Setting.Keys` is the judgement that
a run keeps its frames linked and misses no key. It has one rule for each operation, and goes
through to whole programs (`Program.exec_keys`) and to nested rule bodies (`Program.enter_keys`).

A rule body could also make up the error that a key is missing. A body that does not is honest
(`Program.Honest`), whichever operations it uses, and only results of honest bodies are free of that
error; that no lookup fails holds of all bodies alike.
-/

namespace Descent

variable {α β ι V : Type} {e : Setting} {s t : State} {honest : Prop}

/-- Something was looked up by a key that was never recorded. -/
def ParseError.MissesKey : ParseError → Prop
  | .structural (.missingKey _) => True
  | _ => False

/-- The result is not the error that a key is missing. -/
def KeyFound (r : Except ParseError α) : Prop := ∀ error, r = .error error → ¬ error.MissesKey

theorem keyFound_ok (a : α) : KeyFound (.ok a) := nofun

theorem keyFound_error_iff {error : ParseError} :
    KeyFound (.error error : Except ParseError α) ↔ ¬ error.MissesKey := by
  simp [KeyFound]

theorem KeyFound.map {r : Except ParseError α} (h : KeyFound r) (f : α → β) :
    KeyFound (r.map f) := by
  cases r with
  | error error => exact keyFound_error_iff.2 (h error rfl)
  | ok a => exact keyFound_ok _

theorem ParseError.not_missesKey_of_isRecognition {error : ParseError}
    (h : error.isRecognition = true) : ¬ error.MissesKey := by
  cases error with
  | mismatched | noViable => exact id
  | structural => cases h

/-- The program ends with the error that a key is missing only if it got that error from an
operation or out of the recorded errors. -/
def Program.Honest : Program ι V α → Prop
  | .done result => KeyFound result
  | .halt _ => True
  | .consume _ _ next => ∀ r, KeyFound r → (next r).Honest
  | .subrule _ _ next | .invoke _ next | .choose _ next => ∀ r, KeyFound r → (next r).Honest
  | .backtrack _ _ next => ∀ r, KeyFound r → (next r).Honest
  | .speculate _ _ _ next => ∀ r, KeyFound r → (next r).Honest
  | .inspect next => ∀ e s, (∀ error ∈ s.errors, ¬ error.MissesKey) → (next e s).Honest
  | .takeErrors next => ∀ errors, (∀ error ∈ errors, ¬ error.MissesKey) → (next errors).Honest
  | .mark _ next | .restore _ next => next.Honest
  | .recoveryValue _ next => ∀ value, (next value).Honest

/-! ## Runs that miss no key -/

namespace Setting

/-- No lookup has failed for want of a key. -/
def KeysFound (events : List Event) : Prop :=
  ∀ event ∈ events, ∀ key, event.what ≠ .raised (.missingKey key)

/-- The frames are linked, and no recorded error is about a missing key. -/
structure InOrder (e : Setting) (honest : Prop) (s : State) : Prop where
  linked : e.Linked s.frames
  errors : honest → ∀ error ∈ s.errors, ¬ error.MissesKey

/-- No key was missed on the way, and the end is in order. -/
structure Keyed (e : Setting) (honest : Prop) (ran : Ran α) : Prop where
  state : e.InOrder honest ran.state
  events : KeysFound ran.events
  result : honest → KeyFound ran.result

/-- Run from a state, the action misses no key. -/
def Keys (e : Setting) (honest : Prop) (x : Action α) (s : State) : Prop :=
  ∀ ran, x s = .ok ran → e.Keyed honest ran

theorem Keyed.after {ran : Ran α} {events : List Event} (h : e.Keyed honest ran)
    (hevents : KeysFound events) : e.Keyed honest { ran with events := events ++ ran.events } := by
  refine ⟨h.state, fun event hmem => ?_, h.result⟩
  rcases List.mem_append.1 hmem with hmem | hmem
  · exact hevents event hmem
  · exact h.events event hmem

theorem InOrder.recordError {error : ParseError} (h : e.InOrder honest s)
    (herror : ¬ error.MissesKey) : e.InOrder honest (e.recordError error s) := by
  rw [recordError_eq]
  refine ⟨h.linked, fun hh error' hmem => ?_⟩
  split at hmem
  · rcases List.mem_append.1 hmem with hmem | hmem
    · exact h.errors hh error' hmem
    · rw [List.mem_singleton.1 hmem]
      exact herror
  · exact h.errors hh error' hmem

theorem InOrder.restore (h : e.InOrder honest s) (place : Snapshot) :
    e.InOrder honest (s.restore place) :=
  ⟨h.linked.drop _, fun hh error hmem => h.errors hh error (List.mem_of_mem_take hmem)⟩

theorem InOrder.pop (h : e.InOrder honest s) : e.InOrder honest s.pop :=
  ⟨h.linked.tail, h.errors⟩

theorem InOrder.push {frame : Frame} (h : e.InOrder honest s)
    (hlinked : e.Linked (frame :: s.frames)) : e.InOrder honest (s.push frame) :=
  ⟨hlinked, h.errors⟩

theorem InOrder.atPosition (h : e.InOrder honest s) (position : Nat) :
    e.InOrder honest { s with position } :=
  ⟨h.linked, h.errors⟩

theorem InOrder.atSpeculation (h : e.InOrder honest s) (speculation : Nat) :
    e.InOrder honest { s with speculation } :=
  ⟨h.linked, h.errors⟩

namespace Keys

theorem ofResult {result : Except ParseError α} (hs : e.InOrder honest s)
    (hr : honest → KeyFound result) : e.Keys honest (Action.ofResult result) s := by
  intro ran h
  cases h
  exact ⟨hs, nofun, hr⟩

theorem pure (hs : e.InOrder honest s) (a : α) : e.Keys honest (Pure.pure a : Action α) s :=
  ofResult hs fun _ => keyFound_ok a

theorem fail {error : ParseError} (hs : e.InOrder honest s) (herror : ¬ error.MissesKey) :
    e.Keys honest (Action.fail error : Action α) s :=
  ofResult hs fun _ => keyFound_error_iff.2 herror

theorem andThen {x : Action α} {f : Except ParseError α → Action β} (hx : e.Keys honest x s)
    (hf : ∀ r t, x.Ends s r t → e.InOrder honest t → (honest → KeyFound r) →
      e.Keys honest (f r) t) : e.Keys honest (x.andThen f) s := by
  intro ran h
  obtain ⟨first, next, h₁, h₂, rfl⟩ := Action.andThen_eq_ok.1 h
  have hfirst := hx first h₁
  have hnext := hf _ _ (Action.ends_of_eq_ok h₁) hfirst.state hfirst.result next h₂
  exact hnext.after hfirst.events

theorem bind {x : Action α} {f : α → Action β} (hx : e.Keys honest x s)
    (hf : ∀ a t, x.Ends s (.ok a) t → e.InOrder honest t → e.Keys honest (f a) t) :
    e.Keys honest (x >>= f) s := by
  rw [Action.bind_eq_andThen]
  refine hx.andThen fun r t hends ht hr => ?_
  cases r with
  | ok a => exact hf a t hends ht
  | error error => exact ofResult ht fun hh => keyFound_error_iff.2 (hr hh error rfl)

/-- A step of the parser that always ends in the same way, and what comes after it. -/
theorem step {x : Action α} {a : α} {events : List Event} {f : α → Action β}
    (hx : x s = .ok { result := .ok a, state := t, events })
    (hevents : KeysFound events) (hf : e.Keys honest (f a) t) : e.Keys honest (x >>= f) s := by
  intro ran h
  rw [Action.bind_eq_andThen] at h
  obtain ⟨first, next, h₁, h₂, rfl⟩ := Action.andThen_eq_ok.1 h
  rw [hx] at h₁
  cases h₁
  exact (hf next h₂).after hevents

theorem getState {f : State → Action α} (hf : e.Keys honest (f s) s) :
    e.Keys honest (Action.getState >>= f) s :=
  step rfl nofun hf

theorem modify {g : State → State} {f : Unit → Action α} (hf : e.Keys honest (f ()) (g s)) :
    e.Keys honest (Action.modify g >>= f) s :=
  step rfl nofun hf

theorem handOut {index : Nat} {f : Unit → Action α}
    (hf : e.Keys honest (f ()) { s with position := index + 1 }) :
    e.Keys honest (Action.handOut index >>= f) s :=
  step rfl (by simp [KeysFound]) hf

theorem ofLookup {found : Except Failure α} {a : α} {f : α → Action β} (h : found = .ok a)
    (hf : e.Keys honest (f a) s) : e.Keys honest (Action.ofLookup found >>= f) s := by
  rw [h]
  exact step rfl nofun hf

theorem report {what : Happening} {f : Unit → Action α}
    (hwhat : ∀ key, what ≠ .raised (.missingKey key)) (hf : e.Keys honest (f ()) s) :
    e.Keys honest (Action.report what >>= f) s :=
  step rfl (by simpa [KeysFound] using hwhat) hf

theorem reportAll {whats : List Happening} (hs : e.InOrder honest s)
    (hwhats : ∀ what ∈ whats, ∀ key, what ≠ .raised (.missingKey key)) :
    e.Keys honest (Action.reportAll whats) s := by
  intro ran h
  cases h
  exact ⟨hs, by simpa [KeysFound] using hwhats, fun _ => keyFound_ok ()⟩

theorem raise {error : GrammarError} (hs : e.InOrder honest s)
    (herror : ∀ key, error ≠ .missingKey key) :
    e.Keys honest (Action.raise error : Action α) s := by
  refine report (fun key h => herror key (Happening.raised.inj h)) (fail hs ?_)
  cases error with
  | missingKey key => exact absurd rfl (herror key)
  | _ => exact id

theorem attempt {x : Action α} {f : Except ParseError α → Action β} (hx : e.Keys honest x s)
    (hf : ∀ r t, x.Ends s r t → e.InOrder honest t → (honest → KeyFound r) →
      e.Keys honest (f r) t) : e.Keys honest (x.attempt >>= f) s := by
  rw [Action.attempt_bind]
  exact hx.andThen hf

theorem inFrame {frame : Frame} {body : Action V} (hbody : e.Keys honest body (s.push frame)) :
    e.Keys honest (inFrame frame body) s :=
  modify <| hbody.attempt fun _ _ _ ht hr => modify <| ofResult ht.pop hr

end Keys

/-! ## The operations -/

theorem makeUpToken_keys {kind : Terminal} {occurrence : Nat} {error : ParseError}
    (hcovered : e.Covered) (hs : e.InOrder honest s) (herror : ¬ error.MissesKey)
    (h : s.Innermost (e.HasToken · kind occurrence)) :
    e.Keys honest (e.makeUpToken s kind occurrence error) s := by
  unfold makeUpToken
  split
  next rule current hrule _ =>
    obtain ⟨follows, hfollows⟩ := hcovered.tokens (h rule hrule)
    apply Keys.ofLookup hfollows
    split
    · exact .modify <| .report nofun <| .pure (hs.recordError herror) _
    · exact .fail hs herror
  next => exact .fail hs herror

theorem consume_keys {kind : Terminal} {occurrence : Nat} (hcovered : e.Covered)
    (hs : e.InOrder honest s) (h : s.Innermost (e.HasToken · kind occurrence)) :
    e.Keys honest (e.consume kind occurrence) s := by
  have herror : ¬ (e.mismatch s kind).MissesKey := id
  apply Keys.getState
  split
  · exact .handOut <| .pure (hs.atPosition _) _
  · split
    · split
      · refine .report nofun <| .handOut <| .modify <| .pure ?_ _
        exact (hs.atPosition _).recordError herror
      · exact makeUpToken_keys hcovered hs herror h
    · exact .fail hs herror

theorem skipTo_keys {kind : Terminal} (hs : e.InOrder honest s) :
    e.Keys honest (e.skipTo kind) s := by
  refine .getState <| .modify <| .reportAll (hs.atPosition _) fun what hwhat => ?_
  obtain ⟨index, -, rfl⟩ := List.mem_map.1 hwhat
  exact nofun

theorem resync_keys {name : String} {recovery : V} {error : ParseError} (hs : e.InOrder honest s)
    (herror : ¬ error.MissesKey) : e.Keys honest (e.resync name recovery error) s := by
  obtain ⟨point, hpoint⟩ := hs.linked.resumePoint
  apply Keys.getState
  apply Keys.ofLookup hpoint
  split
  · exact .fail hs herror
  · refine (skipTo_keys hs).bind fun _ t _ ht => ?_
    exact .modify <| .report nofun <| .pure (ht.recordError herror) _

theorem orResync_keys {name : String} {recovery : V} {body : Action V}
    (hbody : e.Keys honest body s) : e.Keys honest (e.orResync name recovery body) s := by
  refine hbody.andThen fun r t _ ht hr => ?_
  cases r with
  | ok value => exact .pure ht value
  | error error =>
    apply Keys.getState
    split
    next hrecovers =>
      simp only [Bool.and_eq_true] at hrecovers
      exact resync_keys ht (ParseError.not_missesKey_of_isRecognition hrecovers.1)
    next => exact .ofResult ht hr

theorem resolve_error {name : String} {error : GrammarError} (h : e.resolve name = .error error) :
    ∀ key, error ≠ .missingKey key := by
  unfold resolve at h
  split at h
  · cases h
  · cases h
    exact nofun

variable {callee : Callee V} {body : State → Prop}

/-- The body of a rule misses no key if it agrees with the grammar. -/
def BodyKeys (e : Setting) (honest : Prop) (body : State → Prop) (x : Action V) : Prop :=
  ∀ ⦃t⦄, e.InOrder honest t → body t → e.Keys honest x t

theorem invoke_keys {name : String} {x : Action V} (hbody : e.BodyKeys honest body x)
    (hs : e.InOrder honest s) (h : e.RootConforms name body s) :
    e.Keys honest (e.invoke name x) s := by
  unfold invoke
  split
  next error hid => exact .raise hs (resolve_error hid)
  next id hid => exact (hbody (hs.push (hs.linked.root id)) (h id hid)).inFrame

theorem call_keys {occurrence : Nat} (hcovered : e.Covered)
    (hbody : e.BodyKeys honest body callee.body) (hs : e.InOrder honest s)
    (h : e.CallConforms callee.name occurrence body s) :
    e.Keys honest (e.call callee occurrence) s := by
  unfold call subrule
  split
  next error hid => exact .raise hs (resolve_error hid)
  next id hid =>
    have hlinked := hs.linked.call hcovered h.1 hid
    exact (orResync_keys (hbody (hs.push hlinked) (h.2 id hid))).inFrame

theorem trial_keys {accept : V → Bool} (hbody : e.BodyKeys honest body callee.body)
    (hs : e.InOrder honest s) (h : e.TrialConforms callee.name body s) :
    e.Keys honest (e.trial callee accept) s := by
  refine .getState <| .modify <| (invoke_keys hbody (hs.atSpeculation _) h).attempt ?_
  intro r t _ ht hr
  apply Keys.modify
  apply Keys.modify
  -- whatever the trial has done to the frames, going back only takes inner ones away
  have hback : e.InOrder honest (s.backFrom t) := (ht.atSpeculation _).restore _
  cases r with
  | ok value => exact .report nofun <| .pure hback _
  | error error =>
    dsimp only
    split
    · exact .pure hback _
    · exact .ofResult hback fun hh => keyFound_error_iff.2 (hr hh error rfl)

theorem backtrack_keys {accept : V → Bool} (hbody : e.BodyKeys honest body callee.body)
    (hs : e.InOrder honest s) (h : e.TrialConforms callee.name body s) :
    e.Keys honest (e.backtrack callee accept) s :=
  (trial_keys hbody hs h).bind fun _ _ _ ht => .pure ht _

theorem speculate_keys {occurrence : Nat} {accept : V → Bool} (hcovered : e.Covered)
    (hbody : e.BodyKeys honest body callee.body) (hs : e.InOrder honest s)
    (h : e.SpeculationConforms callee occurrence accept body s) :
    e.Keys honest (e.speculate callee occurrence accept) s := by
  refine (trial_keys hbody hs h.1).bind fun verdict t hends ht => ?_
  cases verdict with
  | some reason => exact .pure ht _
  | none => exact (call_keys hcovered hbody ht (h.2 hends rfl)).bind fun _ _ _ ht => .pure ht _

theorem expectedOf_error {names : List String} {error : GrammarError}
    (h : e.expectedOf names = .error error) : ∀ key, error ≠ .missingKey key := by
  induction names with
  | nil => cases h
  | cons name names ih =>
    unfold expectedOf at h
    cases hid : e.resolve name with
    | error error' =>
      rw [hid] at h
      cases h
      exact resolve_error hid
    | ok id =>
      cases hrest : e.expectedOf names with
      | error error' =>
        rw [hid, hrest] at h
        cases h
        exact ih hrest
      | ok rest =>
        rw [hid, hrest] at h
        cases h

theorem noViable_keys {names : List String} {position : Nat} (hs : e.InOrder honest s) :
    e.Keys honest (e.noViable names position : Action V) s := by
  unfold noViable
  split
  next error hexpected => exact .raise hs (expectedOf_error hexpected)
  next => exact .getState <| .fail hs id

theorem firstAccepted_keys {callee : ι → Callee V} {body : ι → State → Prop}
    (hcovered : e.Covered) (hbody : ∀ rule, e.BodyKeys honest (body rule) (callee rule).body)
    {alternatives : List (Alternative ι V)} (hs : e.InOrder honest s)
    (h : e.ChoiceConforms callee body alternatives s) :
    e.Keys honest (e.firstAccepted callee alternatives) s := by
  induction alternatives generalizing s with
  | nil => exact .pure hs none
  | cons a alternatives ih =>
    unfold ChoiceConforms at h
    unfold firstAccepted
    cases hgate : a.gate with
    | none =>
      rw [hgate] at h
      exact (call_keys hcovered (hbody _) hs h).bind fun _ _ _ ht => .pure ht _
    | some accept =>
      rw [hgate] at h
      refine (speculate_keys hcovered (hbody _) hs h.1).bind fun outcome t hends ht => ?_
      cases outcome with
      | committed value => exact .pure ht _
      | rolledBack reason => exact ih ht (h.2 hends reason rfl)

theorem choose_keys {callee : ι → Callee V} {body : ι → State → Prop} (hcovered : e.Covered)
    (hbody : ∀ rule, e.BodyKeys honest (body rule) (callee rule).body)
    {alternatives : List (Alternative ι V)} (hs : e.InOrder honest s)
    (h : e.ChoiceConforms callee body alternatives s) :
    e.Keys honest (e.choose callee alternatives) s := by
  refine .getState <| (firstAccepted_keys hcovered hbody hs h).bind fun found t _ ht => ?_
  cases found with
  | some value => exact .pure ht _
  | none => exact noViable_keys ht

end Setting

/-! ## Programs -/

namespace Program

variable {book : Book ι V}

theorem exec_keys {enter : ι → Action V} {body : ι → State → Prop} (hcovered : e.Covered)
    (hbody : ∀ rule, e.BodyKeys honest (body rule) (enter rule)) {p : Program ι V α}
    (hp : honest → p.Honest) (hs : e.InOrder honest s) (h : p.Conforms e book enter body s) :
    e.Keys honest (p.exec e book enter) s := by
  -- the frames are linked before each operation, so the next one can be judged from there
  induction p generalizing s with
  | done result => exact .ofResult hs hp
  | halt why => exact nofun
  | consume kind occurrence next ih =>
    refine (Setting.consume_keys hcovered hs h.1).andThen fun r t hends ht hr => ?_
    exact ih r (fun hh => hp hh r (hr hh)) ht (h.2 hends)
  | subrule rule occurrence next ih =>
    refine (Setting.call_keys hcovered (hbody rule) hs h.1).andThen fun r t hends ht hr => ?_
    exact ih r (fun hh => hp hh r (hr hh)) ht (h.2 hends)
  | invoke rule next ih =>
    refine (Setting.invoke_keys (hbody rule) hs h.1).andThen fun r t hends ht hr => ?_
    exact ih r (fun hh => hp hh r (hr hh)) ht (h.2 hends)
  | backtrack rule accept next ih =>
    refine (Setting.backtrack_keys (hbody rule) hs h.1).andThen fun r t hends ht hr => ?_
    exact ih r (fun hh => hp hh r (hr hh)) ht (h.2 hends)
  | speculate rule occurrence accept next ih =>
    refine (Setting.speculate_keys hcovered (hbody rule) hs h.1).andThen fun r t hends ht hr => ?_
    exact ih r (fun hh => hp hh r (hr hh)) ht (h.2 hends)
  | choose alternatives next ih =>
    refine (Setting.choose_keys hcovered hbody hs h.1).andThen fun r t hends ht hr => ?_
    exact ih r (fun hh => hp hh r (hr hh)) ht (h.2 hends)
  | inspect next ih => exact ih e s (fun hh => hp hh e s (hs.errors hh)) hs h
  | takeErrors next ih =>
    exact ih s.errors (fun hh => hp hh s.errors (hs.errors hh)) ⟨hs.linked, nofun⟩ h
  | mark name next ih => exact ih hp ⟨hs.linked, hs.errors⟩ h
  | restore place next ih => exact ih hp (hs.restore place) h
  | recoveryValue rule next ih =>
    refine (Setting.Keys.reportAll hs (by simp)).andThen fun r t hends _ _ => ?_
    obtain ⟨-, rfl⟩ := Action.ends_reportAll.1 hends
    exact ih _ (fun hh => hp hh _) hs h

theorem enter_keys (hcovered : e.Covered) (hb : honest → ∀ rule, (book rule).body.Honest)
    (fuel : Nat) (rule : ι) :
    e.BodyKeys honest (BodyConforms e book fuel rule) (enter e book fuel rule) := by
  induction fuel generalizing rule with
  | zero => exact fun _ _ _ => nofun
  | succ fuel ih =>
    intro s hs h
    have hexec := exec_keys hcovered ih (fun hh => hb hh rule) hs h
    refine .getState <| .report nofun <| hexec.attempt fun r t _ ht hr => ?_
    exact .getState <| .report nofun <| .ofResult ht hr

end Program

namespace Setting

/-- A parse that agrees with its built grammar never misses a follow key, wherever it recovers and
whatever it tries: no lookup fails for want of a key, and if no body makes that error up, it does
not come out either. The parse starts with no active rule, by a rule without a caller or by a
call. -/
theorem follow_keys_never_missing {g : Grammar} (hg : g.Built) (e : Setting)
    (ha : g.analyze = .ok e.analysis) (book : Book ι V) (fuel : Nat) (rule : ι) (occurrence : Nat)
    (s : State) (hs : s.frames = []) (ran : Ran V)
    (hrun :
      e.RootConforms (book rule).name (Program.BodyConforms e book fuel rule) s ∧
        e.invoke (book rule).name (Program.enter e book fuel rule) s = .ok ran ∨
      e.CallConforms (book rule).name occurrence (Program.BodyConforms e book fuel rule) s ∧
        e.call (Program.calleeOf e book fuel rule) occurrence s = .ok ran) :
    KeysFound ran.events ∧
    ((∀ rule, (book rule).body.Honest) → (∀ error ∈ s.errors, ¬ error.MissesKey) →
      ∀ key, ran.result ≠ .error (.structural (.missingKey key))) := by
  let honest : Prop :=
    (∀ rule, (book rule).body.Honest) ∧ ∀ error ∈ s.errors, ¬ error.MissesKey
  have hcovered : e.Covered := covered_of_built hg ha
  have hstart : e.InOrder honest s := ⟨by rw [hs]; trivial, fun hh => hh.2⟩
  have hbody : e.BodyKeys honest (Program.BodyConforms e book fuel rule)
      (Program.enter e book fuel rule) :=
    Program.enter_keys hcovered (fun hh => hh.1) fuel rule
  have hkeyed : e.Keyed honest ran := by
    rcases hrun with ⟨hconforms, hran⟩ | ⟨hconforms, hran⟩
    · exact invoke_keys hbody hstart hconforms ran hran
    · have hcallee : e.BodyKeys honest _ (Program.calleeOf e book fuel rule).body := hbody
      exact call_keys hcovered hcallee hstart hconforms ran hran
  refine ⟨hkeyed.events, fun hb herrors key hresult => ?_⟩
  exact hkeyed.result ⟨hb, herrors⟩ _ hresult trivial

end Setting

/-! ## A sample parse -/

namespace Sample

theorem callBodies_honest (rule : CallRule) : (callBodies rule).body.Honest := by
  cases rule with
  | stmts => exact fun r hr => hr
  | stmt =>
    intro r hr
    cases r with
    | error error => exact hr
    | ok value => exact fun r hr => hr.map _
  | call =>
    intro r hr
    cases r with
    | error error => exact keyFound_error_iff.2 (keyFound_error_iff.1 hr)
    | ok token =>
      intro r hr
      cases r with
      | error error => exact keyFound_error_iff.2 (keyFound_error_iff.1 hr)
      | ok token =>
        intro r hr
        cases r with
        | error error => exact hr
        | ok value => exact fun r hr => hr.map _
  | args => exact fun r hr => hr.map _

/-- The number of a rule of the sample. -/
def CallRule.id : CallRule → RuleId
  | .stmts => 0
  | .stmt => 1
  | .call => 2
  | .args => 3

/-- Whether the rules have their numbers and the bodies of the sample do what stands in them. -/
def standsIn (a : Analysis) : Bool :=
  let e := unclosed a
  let numbered (rule : CallRule) :=
    (e.resolve (callBodies rule).name).toOption.any (· == rule.id)
  numbered .stmts && numbered .stmt && numbered .call && numbered .args &&
  decide (e.HasReference 0 "stmt" 1 ∧ e.HasReference 1 "call" 1 ∧ e.HasToken 1 2 1 ∧
    e.HasToken 2 0 1 ∧ e.HasToken 2 3 1 ∧ e.HasReference 2 "args" 1 ∧ e.HasToken 2 4 1 ∧
    e.HasToken 3 0 1)

theorem callBodies_written {a : Analysis} (h : standsIn a = true) (rule : CallRule) :
    (unclosed a).resolve (callBodies rule).name = .ok rule.id ∧
      (callBodies rule).body.Everywhere (Program.WrittenAfter (unclosed a) callBodies rule.id) := by
  simp only [standsIn, Bool.and_eq_true, decide_eq_true_eq] at h
  obtain ⟨⟨⟨⟨hstmts, hstmt⟩, hcall⟩, hargs⟩, hstmt₁, hcall₁, hsemi, hident, hopen, hargs₁, hclose,
    hident'⟩ := h
  have hnumbered {rule : CallRule}
      (h : ((unclosed a).resolve (callBodies rule).name).toOption.any (· == rule.id) = true) :
      (unclosed a).resolve (callBodies rule).name = .ok rule.id := by
    obtain ⟨id, hid, hsame⟩ := exists_ok_of_any h
    exact eq_of_beq hsame ▸ hid
  have hdone (id : RuleId) (r : Except ParseError Nat) :
      (Program.done r).Everywhere (Program.WrittenAfter (unclosed a) callBodies id) :=
    ⟨trivial, trivial⟩
  cases rule with
  | stmts => exact ⟨hnumbered hstmts, ⟨trivial, hstmt₁⟩, fun r => hdone _ r⟩
  | stmt =>
    refine ⟨hnumbered hstmt, ⟨trivial, hcall₁⟩, fun r => ?_⟩
    cases r with
    | error error => exact hdone _ _
    | ok value => exact ⟨⟨trivial, hsemi⟩, fun r => hdone _ _⟩
  | call =>
    refine ⟨hnumbered hcall, ⟨trivial, hident⟩, fun r => ?_⟩
    cases r with
    | error error => exact hdone _ _
    | ok token =>
      refine ⟨⟨trivial, hopen⟩, fun r => ?_⟩
      cases r with
      | error error => exact hdone _ _
      | ok token =>
        refine ⟨⟨trivial, hargs₁⟩, fun r => ?_⟩
        cases r with
        | error error => exact hdone _ _
        | ok value => exact ⟨⟨trivial, hclose⟩, fun r => hdone _ _⟩
  | args => exact ⟨hnumbered hargs, ⟨trivial, hident'⟩, fun r => hdone _ _⟩

theorem callBodies_agree {a : Analysis} (h : standsIn a = true) (fuel : Nat) (rule : CallRule) :
    (unclosed a).Agrees (callBodies rule).name
      (Program.BodyConforms (unclosed a) callBodies fuel rule) := by
  refine Program.bodyConforms_of_written (fun rule id hid => ?_) (fun rule => ?_) fuel rule
  · obtain ⟨hnumber, hwritten⟩ := callBodies_written h rule
    rw [hnumber] at hid
    cases hid
    exact hwritten
  · exact (callBodies_written h rule).2.mono fun p hp => hp.tidy

/-- The call without arguments is mended, for which follow sets are looked up, and no key is
missed. -/
theorem unclosed_call_keyed : ∃ a ran, analysisOf calls = .ok a ∧
    (unclosed a).invoke "stmts" (Program.enter (unclosed a) callBodies 4 .stmts) {} = .ok ran ∧
    ran.state.errors = [noArgument] ∧
    Setting.KeysFound ran.events ∧
    ∀ key, ran.result ≠ .error (.structural (.missingKey key)) := by
  have hfacts : (analysisOf calls).toOption.any (fun a => standsIn a &&
      ((unclosed a).invoke "stmts" (Program.enter (unclosed a) callBodies 4 .stmts)
        {}).toOption.any fun ran => ran.state.errors == [noArgument]) = true := by
    decide +kernel
  obtain ⟨a, ha, hfacts⟩ := exists_ok_of_any hfacts
  obtain ⟨hstands, hruns⟩ := Bool.and_eq_true_iff.1 hfacts
  obtain ⟨ran, hran, herrors⟩ := exists_ok_of_any hruns
  obtain ⟨g, hg, ha'⟩ : ∃ g, calls.build = .ok g ∧ g.analyze = .ok a := by
    unfold analysisOf at ha
    cases hg : calls.build with
    | error failure =>
      rw [hg] at ha
      cases ha
    | ok g =>
      rw [hg] at ha
      exact ⟨g, rfl, ha⟩
  obtain ⟨hraised, hreturned⟩ := Setting.follow_keys_never_missing (Draft.built hg) (unclosed a) ha'
    callBodies 4 .stmts 0 {} rfl ran
    (.inl ⟨(callBodies_agree hstands 4 .stmts).rootConforms _, hran⟩)
  exact ⟨a, ran, ha, hran, by simpa using herrors, hraised,
    hreturned callBodies_honest (by simp)⟩

end Sample

end Descent
