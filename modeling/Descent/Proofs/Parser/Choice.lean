import Descent.Proofs.Parser.Commit
import Descent.Proofs.Parser.Gates
import Descent.Proofs.Parser.RunLaws

/-!
# Gated choice is ordered choice

A gated choice passes over the alternatives whose trials are rejected, and takes the first one that
has no gate or whose trial is accepted. Since every trial comes back to where it started
(`Program.trial_returns`), each alternative is tried in the state of the choice itself, and the one
that is taken is called from there: the choice ends as that call does, and has reported the trials
before it (`Setting.choice_ordered`). A call that fails is not made up for by a later alternative.

Going back undoes all that a parse has gathered. What it does not undo are the places that rule
bodies have put aside, so bodies that come back to the very same state leave those alone as well
(`Program.Traceless`).
-/

namespace Descent

variable {α β ι V : Type} {e : Setting} {s t : State} {events : List Event}

/-! ## Places put aside -/

theorem marks_law (e : Setting) : StateLaw e fun s t => t.marks = s.marks where
  refl _ := rfl
  trans h h' := h'.trans h
  moved _ _ := rfl
  mended _ := by rw [Setting.recordError_eq]
  frame h := h
  trial h := h

theorem State.Unmoved.eq_of_marks (h : s.Unmoved t) (hmarks : t.marks = s.marks) : t = s := by
  obtain ⟨⟨herrors, hframes, hspec⟩, hpos⟩ := h
  cases s
  cases t
  simp_all

/-- A trial comes back to the very state in which it started. -/
theorem Program.trial_returns {book : Book ι V} (hb : ∀ rule, (book rule).body.Everywhere Traceless)
    {fuel : Nat} {rule : ι} {accept : V → Bool} {ran : Ran (Option Rejection)}
    (h : e.trial (calleeOf e book fuel rule) accept s = .ok ran) : ran.state = s := by
  have htidy rule : (book rule).body.Everywhere Tidy := (hb rule).mono fun _ hp => hp.tidy
  have hkeeps : e.Keeps (calleeOf e book fuel rule).body := enter_keeps htidy fuel rule
  have hbody := (marks_law e).enter_obeys hb (fun _ s hp => hp.ownStep s) fuel rule
  have hmarks : ran.state.marks = s.marks :=
    (marks_law e).runLaw.obeysFrom_trial (fun t _ => hbody.obeysFrom t) accept h
  exact (Setting.trial_unmoved hkeeps (Action.ends_of_eq_ok h)).eq_of_marks hmarks

/-! ## Runs of choices -/

/-- The run, with its value changed. -/
def Ran.mapValue (f : α → β) (ran : Ran α) : Ran β := { ran with result := ran.result.map f }

namespace Action

theorem bind_of_halt {x : Action α} {f : α → Action β} {why : Halt} (hx : x s = .error why) :
    (x >>= f) s = .error why := by
  rw [bind_eq_andThen]
  unfold andThen
  rw [hx]

theorem bind_pure_run (x : Action α) (f : α → β) :
    (x >>= fun a => pure (f a)) s = (x s).map (Ran.mapValue f) := by
  cases hx : x s with
  | error why => exact bind_of_halt hx
  | ok ran =>
    obtain ⟨error | a, t, events⟩ := ran
    · exact bind_of_error hx
    · rw [bind_of_ok hx]
      simp [pure, ofResult, Except.map, Ran.after, Ran.mapValue]

/-- What comes after an action that ends as another one does, but for its value and for earlier
reports. -/
theorem bind_of_map {x : Action α} {y : Action β} {γ : Type} {f : β → α} {g : α → Action γ}
    {h : β → γ} (hx : x s = ((y s).map (Ran.mapValue f)).map (Ran.after events))
    (hg : ∀ b, g (f b) = pure (h b)) :
    (x >>= g) s = ((y s).map (Ran.mapValue h)).map (Ran.after events) := by
  cases hy : y s with
  | error why =>
    rw [hy] at hx
    exact bind_of_halt hx
  | ok ran =>
    rw [hy] at hx
    obtain ⟨error | b, t, later⟩ := ran
    · exact bind_of_error hx
    · rw [bind_of_ok hx, hg]
      simp [pure, ofResult, Except.map, Ran.after, Ran.mapValue]

theorem map_after_after (x : Except Halt (Ran α)) (events later : List Event) :
    (x.map (Ran.after later)).map (Ran.after events) = x.map (Ran.after (events ++ later)) := by
  cases x <;> simp [Except.map, Ran.after]

end Action

namespace Setting

/-- The alternatives have gates, and each of their trials from `s` is rejected. -/
inductive PassedOver (e : Setting) (callee : ι → Callee V) (s : State) :
    List (Alternative ι V) → List Event → Prop
  | nil : e.PassedOver callee s [] []
  | cons {a : Alternative ι V} {alternatives : List (Alternative ι V)} {accept : V → Bool}
      {ran : Ran (Option Rejection)} {reason : Rejection} {events : List Event} :
      a.gate = some accept → e.trial (callee a.rule) accept s = .ok ran →
      ran.result = .ok (some reason) → e.PassedOver callee s alternatives events →
      e.PassedOver callee s (a :: alternatives) (ran.events ++ events)

variable {callee : ι → Callee V} {alternatives passed rest : List (Alternative ι V)}
  {a : Alternative ι V}

/-- Every trial comes back to the state in which it started. -/
def TrialsReturn (e : Setting) (callee : ι → Callee V) : Prop :=
  ∀ ⦃rule accept s ran⦄, e.trial (callee rule) accept s = .ok ran → ran.state = s

theorem TrialsReturn.trial_eq (hback : e.TrialsReturn callee) {rule : ι} {accept : V → Bool}
    {ran : Ran (Option Rejection)} (h : e.trial (callee rule) accept s = .ok ran) :
    e.trial (callee rule) accept s =
      .ok { result := ran.result, state := s, events := ran.events } := by
  rw [h, ← hback h]

theorem TrialsReturn.firstAccepted_append (hback : e.TrialsReturn callee)
    (h : e.PassedOver callee s passed events) :
    e.firstAccepted callee (passed ++ rest) s =
      (e.firstAccepted callee rest s).map (Ran.after events) := by
  induction h with
  | nil => exact (Action.map_after_nil _).symm
  | @cons a alternatives accept ran reason events hgate htrial hresult _ ih =>
    have htried := hback.trial_eq htrial
    rw [hresult] at htried
    have hspeculate : e.speculate (callee a.rule) a.occurrence accept s =
        .ok { result := .ok (.rolledBack reason), state := s, events := ran.events } := by
      unfold speculate
      rw [Action.bind_of_ok htried]
      simp [pure, Action.ofResult, Except.map, Ran.after]
    simp only [List.cons_append, firstAccepted, hgate]
    rw [Action.bind_of_ok hspeculate]
    dsimp only
    rw [ih, Action.map_after_after]

/-- An alternative without a gate is called. -/
theorem firstAccepted_of_ungated (hgate : a.gate = none) :
    e.firstAccepted callee (a :: rest) s =
      (e.call (callee a.rule) a.occurrence s).map (Ran.mapValue some) := by
  simp only [firstAccepted, hgate]
  exact Action.bind_pure_run _ some

/-- An alternative whose trial is accepted is called from where it was tried. -/
theorem TrialsReturn.firstAccepted_of_accepted (hback : e.TrialsReturn callee)
    {accept : V → Bool} {ran : Ran (Option Rejection)} (hgate : a.gate = some accept)
    (htrial : e.trial (callee a.rule) accept s = .ok ran) (hresult : ran.result = .ok none) :
    e.firstAccepted callee (a :: rest) s =
      ((e.call (callee a.rule) a.occurrence s).map (Ran.mapValue some)).map
        (Ran.after ran.events) := by
  have htried := hback.trial_eq htrial
  rw [hresult] at htried
  have hspeculate : e.speculate (callee a.rule) a.occurrence accept s =
      ((e.call (callee a.rule) a.occurrence s).map (Ran.mapValue .committed)).map
        (Ran.after ran.events) := by
    unfold speculate
    rw [Action.bind_of_ok htried]
    dsimp only
    rw [Action.bind_pure_run]
  simp only [firstAccepted, hgate]
  exact Action.bind_of_map hspeculate fun _ => rfl

/-- A choice ends as the call of the alternative that is taken. -/
theorem choose_of_call {callee' : Callee V} {occurrence : Nat}
    (h : e.firstAccepted callee alternatives s =
      ((e.call callee' occurrence s).map (Ran.mapValue some)).map (Ran.after events)) :
    e.choose callee alternatives s = (e.call callee' occurrence s).map (Ran.after events) := by
  unfold choose
  rw [Action.getState_bind]
  refine (Action.bind_of_map (h := id) h fun _ => rfl).trans ?_
  cases e.call callee' occurrence s with
  | error why => rfl
  | ok ran => obtain ⟨error | value, t, later⟩ := ran <;> rfl

/-- A structural error of a trial goes to the caller of the choice. -/
theorem TrialsReturn.firstAccepted_of_error (hback : e.TrialsReturn callee) {accept : V → Bool}
    {ran : Ran (Option Rejection)} {error : ParseError} (hgate : a.gate = some accept)
    (htrial : e.trial (callee a.rule) accept s = .ok ran) (hresult : ran.result = .error error) :
    e.firstAccepted callee (a :: rest) s =
      .ok { result := .error error, state := s, events := ran.events } := by
  have htried := hback.trial_eq htrial
  rw [hresult] at htried
  simp only [firstAccepted, hgate]
  exact Action.bind_of_error (Action.bind_of_error htried)

theorem choose_of_error {error : ParseError}
    (h : e.firstAccepted callee alternatives s =
      .ok { result := .error error, state := t, events }) :
    e.choose callee alternatives s = .ok { result := .error error, state := t, events } := by
  unfold choose
  rw [Action.getState_bind]
  exact Action.bind_of_error h

/-! ## No alternative is taken -/

/-- A rule whose trial comes to a verdict is one of the grammar. -/
theorem exists_resolve_of_trial {callee : Callee V} {accept : V → Bool}
    {ran : Ran (Option Rejection)} {verdict : Option Rejection}
    (h : e.trial callee accept s = .ok ran) (hresult : ran.result = .ok verdict) :
    ∃ id, e.resolve callee.name = .ok id := by
  obtain ⟨inner, hinner, hverdict, -⟩ := trial_run h
  unfold invoke at hinner
  cases hid : e.resolve callee.name with
  | ok id => exact ⟨id, rfl⟩
  | error missing =>
    rw [hid] at hinner
    cases hinner
    rw [hresult] at hverdict
    cases hverdict

theorem PassedOver.exists_resolve (h : e.PassedOver callee s alternatives events) :
    ∀ a ∈ alternatives, ∃ id, e.resolve (callee a.rule).name = .ok id := by
  induction h with
  | nil => exact List.forall_mem_nil _
  | cons _ htrial hresult _ ih =>
    exact List.forall_mem_cons.2 ⟨exists_resolve_of_trial htrial hresult, ih⟩

/-- The kinds that some alternatives can start with. -/
def CanStart (e : Setting) (callee : ι → Callee V) (alternatives : List (Alternative ι V))
    (kind : Terminal) : Prop :=
  ∃ a ∈ alternatives, ∃ id first, e.resolve (callee a.rule).name = .ok id ∧
    e.analysis.firstOfRule id = .ok first ∧ kind ∈ first

theorem mem_first_getD {a : Analysis} {id : RuleId} {kind : Terminal} :
    kind ∈ ((a.first.rules[id]?).getD {}).first ↔
      ∃ first, a.firstOfRule id = .ok first ∧ kind ∈ first := by
  unfold Analysis.firstOfRule FirstSets.rule
  cases a.first.rules[id]? with
  | none => simp [Except.map]
  | some info => simp [Except.map]

theorem expectedOf_of_resolve
    (h : ∀ a ∈ alternatives, ∃ id, e.resolve (callee a.rule).name = .ok id) : ∃ expected,
      e.expectedOf (alternatives.map fun a => (callee a.rule).name) = .ok expected ∧
      ∀ kind, kind ∈ expected ↔ e.CanStart callee alternatives kind := by
  induction alternatives with
  | nil => exact ⟨∅, rfl, by simp [CanStart]⟩
  | cons a alternatives ih =>
    obtain ⟨⟨id, hid⟩, h⟩ := List.forall_mem_cons.1 h
    obtain ⟨expected, hexpected, hmem⟩ := ih h
    refine ⟨((e.analysis.first.rules[id]?).getD {}).first ∪ expected, ?_, fun kind => ?_⟩
    · simp [expectedOf, hid, hexpected, bind, Except.bind, pure, Except.pure]
    · rw [TerminalSet.mem_union, hmem, mem_first_getD]
      simp [CanStart, hid]

/-- If every alternative is passed over, the choice fails where it started. -/
theorem TrialsReturn.choose_of_passedOver (hback : e.TrialsReturn callee)
    (h : e.PassedOver callee s alternatives events) :
    ∃ expected : TerminalSet, (∀ kind, kind ∈ expected ↔ e.CanStart callee alternatives kind) ∧
      e.choose callee alternatives s = .ok {
        result := .error (.noViable (e.currentRuleName s) s.position
          (expected.expectedText e.grammar.registry))
        state := s
        events } := by
  obtain ⟨expected, hexpected, hmem⟩ := expectedOf_of_resolve h.exists_resolve
  have hnone : e.firstAccepted callee (alternatives ++ []) s =
      (e.firstAccepted callee [] s).map (Ran.after events) := hback.firstAccepted_append h
  rw [List.append_nil] at hnone
  refine ⟨expected, hmem, ?_⟩
  unfold choose
  rw [Action.getState_bind, Action.bind_of_ok (hnone.trans rfl)]
  simp [noViable, hexpected, Action.getState_bind, Action.fail, Action.ofResult, Except.map,
    Ran.after]

/-- The alternatives in front of the first one that is not passed over. -/
theorem passedOver_or_decided (e : Setting) (callee : ι → Callee V) (s : State)
    (alternatives : List (Alternative ι V)) :
    (∃ events, e.PassedOver callee s alternatives events) ∨
      ∃ passed a rest events, alternatives = passed ++ a :: rest ∧
        e.PassedOver callee s passed events ∧ ∀ accept ran reason, a.gate = some accept →
          e.trial (callee a.rule) accept s = .ok ran → ran.result ≠ .ok (some reason) := by
  induction alternatives with
  | nil => exact .inl ⟨[], .nil⟩
  | cons a alternatives ih =>
    by_cases hrejected : ∃ accept ran reason, a.gate = some accept ∧
        e.trial (callee a.rule) accept s = .ok ran ∧ ran.result = .ok (some reason)
    · obtain ⟨accept, ran, reason, hgate, htrial, hresult⟩ := hrejected
      obtain ⟨events, hpassed⟩ | ⟨passed, a', rest, events, rfl, hpassed, hdecides⟩ := ih
      · exact .inl ⟨_, .cons hgate htrial hresult hpassed⟩
      · exact .inr ⟨a :: passed, a', rest, _, rfl, .cons hgate htrial hresult hpassed, hdecides⟩
    · refine .inr ⟨[], a, alternatives, [], rfl, .nil, ?_⟩
      exact fun accept ran reason hgate htrial hresult =>
        hrejected ⟨accept, ran, reason, hgate, htrial, hresult⟩

/-- The first alternative that is not passed over decides a choice from `s`, whatever the rule
bodies do with errors and however they try rules themselves. Without a gate or with an accepted
trial it is called from `s`, and the choice ends as the call does, with the trials as its only other
reports. A structural error of its trial ends the choice in `s`. If all alternatives are passed
over, the choice fails at its place with what their rules can start with, again in `s`. -/
theorem choice_ordered (e : Setting) (book : Book ι V)
    (hb : ∀ rule, (book rule).body.Everywhere Program.Traceless) (fuel : Nat) (s : State)
    (alternatives : List (Alternative ι V)) :
    let callee := Program.calleeOf e book fuel
    (∀ passed a rest events, alternatives = passed ++ a :: rest →
      e.PassedOver callee s passed events →
      (a.gate = none → e.choose callee alternatives s =
        (e.call (callee a.rule) a.occurrence s).map (Ran.after events)) ∧
      ∀ accept, a.gate = some accept →
        (∀ ran, e.trial (callee a.rule) accept s = .ok ran → ran.result = .ok none →
          e.choose callee alternatives s =
            (e.call (callee a.rule) a.occurrence s).map (Ran.after (events ++ ran.events))) ∧
        (∀ ran error, e.trial (callee a.rule) accept s = .ok ran → ran.result = .error error →
          error.isRecognition = false ∧ e.choose callee alternatives s =
            .ok { result := .error error, state := s, events := events ++ ran.events }) ∧
        ∀ why, e.trial (callee a.rule) accept s = .error why →
          e.choose callee alternatives s = .error why) ∧
    (∀ events, e.PassedOver callee s alternatives events → ∃ expected : TerminalSet,
      (∀ kind, kind ∈ expected ↔ e.CanStart callee alternatives kind) ∧
      e.choose callee alternatives s = .ok {
        result := .error (.noViable (e.currentRuleName s) s.position
          (expected.expectedText e.grammar.registry))
        state := s
        events }) ∧
    ((∃ events, e.PassedOver callee s alternatives events) ∨
      ∃ passed a rest events, alternatives = passed ++ a :: rest ∧
        e.PassedOver callee s passed events ∧ ∀ accept ran reason, a.gate = some accept →
          e.trial (callee a.rule) accept s = .ok ran → ran.result ≠ .ok (some reason)) := by
  intro callee
  have hback : e.TrialsReturn callee := fun _ _ _ _ h => Program.trial_returns hb h
  refine ⟨?_, fun events => hback.choose_of_passedOver, e.passedOver_or_decided callee s _⟩
  rintro passed a rest events rfl hpassed
  -- what the deciding alternative does comes after the reports of those passed over
  have hfirst : e.firstAccepted callee (passed ++ a :: rest) s =
      (e.firstAccepted callee (a :: rest) s).map (Ran.after events) :=
    hback.firstAccepted_append hpassed
  refine ⟨fun hgate => ?_, fun accept hgate => ⟨fun ran htrial hresult => ?_,
    fun ran error htrial hresult => ⟨?_, ?_⟩, fun why htrial => ?_⟩⟩
  · rw [firstAccepted_of_ungated hgate] at hfirst
    exact choose_of_call hfirst
  · rw [hback.firstAccepted_of_accepted hgate htrial hresult, Action.map_after_after] at hfirst
    exact choose_of_call hfirst
  · obtain ⟨inner, -, hverdict, -⟩ := trial_run htrial
    exact isRecognition_of_verdict (hresult ▸ hverdict)
  · rw [hback.firstAccepted_of_error hgate htrial hresult] at hfirst
    exact choose_of_error hfirst
  · have hhalts : e.firstAccepted callee (a :: rest) s = .error why := by
      simp only [firstAccepted, hgate]
      exact Action.bind_of_halt (Action.bind_of_halt htrial)
    rw [hhalts] at hfirst
    unfold choose
    rw [Action.getState_bind]
    exact Action.bind_of_halt hfirst

end Setting

/-! ## Sample choices -/

namespace Sample

/-- A path before an equals sign, if a trial of it succeeds. -/
def perhapsAssign : Alternative PathRule Nat where
  rule := .assign
  occurrence := 1
  gate := some fun _ => true

/-- A path before a default mark. -/
def otherwiseDefaulted : Alternative PathRule Nat where
  rule := .defaulted
  occurrence := 1
  gate := none

/-- On a path before a default mark the first of two alternatives is passed over, and the choice is
the call of the second one from the same state. Without a second one nothing is viable. -/
theorem strict_choice_decided : ∃ a, analysisOf paths = .ok a ∧ ∃ tried,
    (dotted a).trial (Program.calleeOf (dotted a) strict 3 .assign) (fun _ => true) underway =
      .ok tried ∧
    (dotted a).choose (Program.calleeOf (dotted a) strict 3)
        [perhapsAssign, perhapsAssign, otherwiseDefaulted] underway =
      ((dotted a).call (Program.calleeOf (dotted a) strict 3 .defaulted) 1 underway).map
        (Ran.after (tried.events ++ tried.events)) ∧
    ∃ ran expected, (dotted a).choose (Program.calleeOf (dotted a) strict 3) [perhapsAssign]
        underway = .ok ran ∧ ran.state = underway ∧
      ran.result = .error (.noViable ((dotted a).currentRuleName underway) 0 expected) := by
  have hruns : (analysisOf paths).toOption.any (fun a =>
      ((dotted a).trial (Program.calleeOf (dotted a) strict 3 .assign) (fun _ => true)
        underway).toOption.any fun tried => tried.result.toOption.any (·.isSome)) = true := by
    decide +kernel
  obtain ⟨a, ha, hruns⟩ := exists_ok_of_any hruns
  obtain ⟨tried, htried, hresult⟩ := exists_ok_of_any hruns
  obtain ⟨verdict, hresult, hsome⟩ := exists_ok_of_any hresult
  obtain ⟨reason, rfl⟩ := Option.isSome_iff_exists.1 hsome
  have htraceless := strict_everywhere traceless_ofForwarding fun _ _ => trivial
  have hchoice := Setting.choice_ordered (dotted a) strict htraceless 3 underway
  have honce : (dotted a).PassedOver (Program.calleeOf (dotted a) strict 3) underway
      [perhapsAssign] (tried.events ++ []) := .cons rfl htried hresult .nil
  refine ⟨a, ha, tried, htried, ?_, ?_⟩
  · have htwice := Setting.PassedOver.cons (a := perhapsAssign) rfl htried hresult honce
    rw [List.append_nil] at htwice
    exact ((hchoice _).1 [perhapsAssign, perhapsAssign] otherwiseDefaulted [] _ rfl htwice).1 rfl
  · obtain ⟨expected, -, hran⟩ := (hchoice [perhapsAssign]).2.1 _ honce
    exact ⟨_, _, hran, rfl, rfl⟩

end Sample

end Descent
