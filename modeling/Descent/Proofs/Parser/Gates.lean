import Descent.Proofs.Parser.Repetition

/-!
# Gates look at the input only

A gate tries a rule from the present place. What it answers depends on the grammar, the tokens and
the place, and neither on the configuration nor on what the parse has been through: the errors that
are recorded, the rules that are active, the trials that are running
(`Setting.gate_ignores_history`). Rule bodies may handle errors as they like, but have to look no
further than their own frame.

The two trials run alike because recovery applies to neither of them, so that the configuration and
the recorded errors are never consulted, and because each starts in a frame without a caller, which
hides the frames below.
-/

namespace Descent

variable {α ι V : Type} {e : Setting} {s s' t : State}

/-- Two parses that are inside of trials, at the same place and in the same innermost frame. -/
structure SameTrial (s s' : State) : Prop where
  first : 0 < s.speculation
  second : 0 < s'.speculation
  position : s'.position = s.position
  frame : s'.frames.head? = s.frames.head?

theorem SameTrial.quiet (h : SameTrial s s') (e : Setting) :
    e.recovers s = false ∧ e.recovers s' = false := by
  simp [Setting.recovers, State.isSpeculating, h.first, h.second]

theorem sameTrial_likeness (e : Setting) (c : Config) :
    Likeness e { e with config := c } SameTrial where
  analysis := rfl
  tokens := rfl
  quiet h := (h.quiet e).1
  position h := h.position
  currentRule? h := by rw [State.currentRule?, h.frame, State.currentRule?]
  kept h hk hk' hpos :=
    { first := hk.speculation ▸ h.first
      second := hk'.speculation ▸ h.second
      position := hpos
      frame := by rw [hk.frames, hk'.frames, h.frame] }
  push h frame := ⟨h.first, h.second, h.position, rfl⟩
  trial h := ⟨Nat.succ_pos _, Nat.succ_pos _, h.position, h.frame⟩

namespace Program

/-- Of the parse, the program reads at most the analysis, the tokens, the position and its own
frame. -/
def ReadsOwnFrame : Program ι V α → Prop
  | .inspect next => ∀ e c ⦃s s'⦄, s'.position = s.position → s'.frames.head? = s.frames.head? →
    next e s = next { e with config := c } s'
  | _ => True

/-- A program that goes by the input. What it does with errors is up to it. -/
structure Secluded (p : Program ι V α) : Prop where
  tidy : p.Tidy
  reads : p.ReadsOwnFrame

theorem Secluded.repeatable {p : Program ι V α} (h : p.Secluded) (e : Setting) (c : Config) :
    p.Repeatable SameTrial e { e with config := c } where
  tidy := h.tidy
  reads := by
    cases p with
    | inspect next => exact fun s s' hs => h.reads e c hs.position hs.frame
    | _ => trivial
  forwards s s' hs hr := by
    rw [(hs.quiet _).2] at hr
    cases hr

end Program

namespace Setting

variable {book : Book ι V} {fuel : Nat} {rule : ι}

/-- A rule without a caller ends in the same way in any two trials from the same place. -/
theorem invoke_of_trials (hb : ∀ rule, (book rule).body.Everywhere Program.Secluded) (c : Config)
    {r : Except ParseError V} (hs : 0 < s.speculation) (hs' : 0 < s'.speculation)
    (hpos : s'.position = s.position)
    (h : (e.invoke (book rule).name (Program.enter e book fuel rule)).Ends s r t) :
    let e' := { e with config := c }
    ∃ t', (e'.invoke (book rule).name (Program.enter e' book fuel rule)).Ends s' r t' := by
  intro e'
  have hlike : Likeness e e' SameTrial := sameTrial_likeness e c
  have hbody := Program.enter_repeats hlike
    (fun rule => (hb rule).mono fun p hp => hp.repeatable e c) fuel rule
  unfold invoke at h ⊢
  rw [hlike.resolve]
  split at h
  next error _ =>
    obtain ⟨rfl, -⟩ := Action.ends_raise.1 h
    exact ⟨s', Action.ends_raise.2 ⟨rfl, rfl⟩⟩
  next id _ =>
    obtain ⟨t₁, hran, -⟩ := ends_inFrame.1 h
    have hsame : SameTrial (s.push (.root id)) (s'.push (.root id)) := ⟨hs, hs', hpos, rfl⟩
    have hquiet : e'.recovers (s'.push (.root id)) = false := (hsame.quiet e').2
    obtain ⟨t₁', hran', -⟩ := (hbody hsame hran).2 fun hr => by rw [hquiet] at hr; cases hr
    exact ⟨t₁'.pop, ends_inFrame.2 ⟨t₁', hran', rfl⟩⟩

/-- So does a trial of the rule, wherever it starts from that place. -/
theorem trial_of_position (hb : ∀ rule, (book rule).body.Everywhere Program.Secluded) (c : Config)
    {accept : V → Bool} {r : Except ParseError (Option Rejection)} (hpos : s'.position = s.position)
    (h : (e.trial (Program.calleeOf e book fuel rule) accept).Ends s r t) :
    let e' := { e with config := c }
    ∃ t', (e'.trial (Program.calleeOf e' book fuel rule) accept).Ends s' r t' := by
  intro e'
  obtain ⟨r₁, t₁, hi, rfl, -⟩ := ends_trial.1 h
  have hplace : { s' with speculation := s'.speculation + 1 }.position =
      { s with speculation := s.speculation + 1 }.position := hpos
  obtain ⟨t₁', hi'⟩ := invoke_of_trials hb c (Nat.succ_pos _) (Nat.succ_pos _) hplace hi
  exact ⟨_, ends_trial.2 ⟨r₁, t₁', hi', rfl, rfl⟩⟩

theorem ends_backtrack {callee : Callee V} {accept : V → Bool} {r : Except ParseError Bool} :
    (e.backtrack callee accept).Ends s r t ↔
      ∃ r₁, (e.trial callee accept).Ends s r₁ t ∧ r = r₁.map Option.isNone := by
  unfold backtrack
  rw [Action.ends_bind]
  constructor
  · rintro (⟨verdict, t₁, ht, h⟩ | ⟨error, ht, rfl⟩)
    · obtain ⟨rfl, rfl⟩ := Action.ends_pure.1 h
      exact ⟨.ok verdict, ht, rfl⟩
    · exact ⟨.error error, ht, rfl⟩
  · rintro ⟨error | verdict, ht, rfl⟩
    · exact .inr ⟨error, ht, rfl⟩
    · exact .inl ⟨verdict, t, ht, Action.ends_pure.2 ⟨rfl, rfl⟩⟩

theorem ends_speculate_rolledBack {callee : Callee V} {occurrence : Nat} {accept : V → Bool}
    {reason : Rejection} :
    (e.speculate callee occurrence accept).Ends s (.ok (.rolledBack reason)) t ↔
      (e.trial callee accept).Ends s (.ok (some reason)) t := by
  rw [ends_speculate]
  constructor
  · rintro (⟨reason', ht, hr⟩ | ⟨t₁, error | value, -, -, hr⟩ | ⟨error, -, hr⟩)
    · cases hr
      exact ht
    all_goals cases hr
  · exact fun ht => .inl ⟨reason, ht, rfl⟩

theorem isRecognition_of_verdict {accept : V → Bool} {r : Except ParseError V} {error : ParseError}
    (h : .error error = verdict accept r) : error.isRecognition = false := by
  cases r with
  | ok value => cases h
  | error error' =>
    unfold verdict at h
    dsimp only at h
    split at h
    next => cases h
    next hrecognition =>
      cases h
      exact Bool.eq_false_iff.2 hrecognition

/-- A gate gives the same answer, or the same structural error, under every configuration and
whatever the parse has been through, as long as it is at the same place; and a speculative call is
rolled back for the same reason. -/
theorem gate_ignores_history (e : Setting) (c : Config) (book : Book ι V)
    (hb : ∀ rule, (book rule).body.Everywhere Program.Secluded) (fuel : Nat) (rule : ι)
    (occurrence : Nat) (accept : V → Bool) (s s' : State) (hpos : s'.position = s.position) :
    let e' := { e with config := c }
    (∀ r, (∃ t, (e.backtrack (Program.calleeOf e book fuel rule) accept).Ends s r t) ↔
      ∃ t', (e'.backtrack (Program.calleeOf e' book fuel rule) accept).Ends s' r t') ∧
    (∀ error t, (e.backtrack (Program.calleeOf e book fuel rule) accept).Ends s (.error error) t →
      error.isRecognition = false) ∧
    ∀ reason,
      (∃ t, (e.speculate (Program.calleeOf e book fuel rule) occurrence accept).Ends s
        (.ok (.rolledBack reason)) t) ↔
      ∃ t', (e'.speculate (Program.calleeOf e' book fuel rule) occurrence accept).Ends s'
        (.ok (.rolledBack reason)) t' := by
  intro e'
  -- the roles of the two parses can be changed, since the first one has a configuration too
  have htrial (r) : (∃ t, (e.trial (Program.calleeOf e book fuel rule) accept).Ends s r t) ↔
      ∃ t', (e'.trial (Program.calleeOf e' book fuel rule) accept).Ends s' r t' :=
    ⟨fun ⟨_, h⟩ => trial_of_position hb c hpos h,
      fun ⟨_, h⟩ => trial_of_position (e := e') hb e.config hpos.symm h⟩
  refine ⟨fun r => ?_, fun error t h => ?_, fun reason => ?_⟩
  · simp only [ends_backtrack]
    constructor
    · rintro ⟨t, r₁, h, rfl⟩
      obtain ⟨t', h'⟩ := (htrial r₁).1 ⟨t, h⟩
      exact ⟨t', r₁, h', rfl⟩
    · rintro ⟨t', r₁, h', rfl⟩
      obtain ⟨t, h⟩ := (htrial r₁).2 ⟨t', h'⟩
      exact ⟨t, r₁, h, rfl⟩
  · obtain ⟨error' | verdict, ht, hr⟩ := ends_backtrack.1 h
    · cases hr
      obtain ⟨r₁, -, -, hverdict, -⟩ := ends_trial.1 ht
      exact isRecognition_of_verdict hverdict
    · cases hr
  · simp only [ends_speculate_rolledBack]
    exact htrial _

end Setting

/-! ## Sample gates -/

namespace Sample

/-- A parse at the same place as `underway`, inside of two trials and three other rules. -/
def elsewhere : State where
  frames := [{ rule := 3, occurrence := 1 }, { rule := 2, occurrence := 1 }, .root 0]
  speculation := 2

/-- With recovery and an error behind it, a statement of two names is accepted and one of one name
is refused. So it is without recovery in the middle of other trials. -/
theorem lenient_gates_agree : ∃ a, analysisOf paths = .ok a ∧
    (∃ t, ({ dotted a with config := {} }.backtrack
      (Program.calleeOf { dotted a with config := {} } lenient 3 .stmt) (· == 2)).Ends elsewhere
        (.ok true) t) ∧
    ∃ t reason, ({ dotted a with config := {} }.speculate
      (Program.calleeOf { dotted a with config := {} } lenient 3 .stmt) 1 (· == 1)).Ends elsewhere
        (.ok (.rolledBack reason)) t := by
  have hruns : (analysisOf paths).toOption.any (fun a =>
      let e := dotted a
      let stmt := Program.calleeOf e lenient 3 .stmt
      (e.backtrack stmt (· == 2) underway).toOption.any (fun ran => ran.result.toOption.any id) &&
      (e.speculate stmt 1 (· == 1) underway).toOption.any fun ran =>
        ran.result.toOption.any (·.committed?.isNone)) = true := by decide +kernel
  obtain ⟨a, ha, hruns⟩ := exists_ok_of_any hruns
  obtain ⟨hback, hspec⟩ := Bool.and_eq_true_iff.1 hruns
  have hsecluded := lenient_everywhere (P := Program.Secluded) (fun _ => ⟨trivial, trivial⟩)
    fun op next => ⟨(Program.traceless_use op next).tidy, by cases op <;> trivial⟩
  have hsame (accept : Nat → Bool) := Setting.gate_ignores_history (dotted a) {} lenient
    hsecluded 3 .stmt 1 accept underway elsewhere rfl
  refine ⟨a, ha, ?_, ?_⟩
  · obtain ⟨ran, hran, hresult⟩ := exists_ok_of_any hback
    obtain ⟨answer, hresult, rfl⟩ := exists_ok_of_any hresult
    exact ((hsame _).1 _).1 ⟨ran.state, hresult ▸ Action.ends_of_eq_ok hran⟩
  · obtain ⟨ran, hran, hresult⟩ := exists_ok_of_any hspec
    obtain ⟨outcome, hresult, hnone⟩ := exists_ok_of_any hresult
    cases outcome with
    | committed value => cases hnone
    | rolledBack reason =>
      obtain ⟨t, h⟩ := ((hsame _).2.2 reason).1 ⟨ran.state, hresult ▸ Action.ends_of_eq_ok hran⟩
      exact ⟨t, reason, h⟩

end Sample

end Descent
