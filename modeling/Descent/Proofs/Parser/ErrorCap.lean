import Descent.Proofs.Parser.Rollback
import Descent.Proofs.Parser.RunLaws

/-!
# The cap on recorded errors

Errors beyond the cap are recovered from like others. Two runs that differ in their caps only go
through the same states, but for the log: the log under the lower cap is the first part of the other
one. `State.capped` cuts a state down to a lower cap. `Action.Shadows` says that one action does
from the state that is cut down what another does from the whole state, and every operation under
the lower cap shadows the operation under the higher one, if rule bodies read nothing of the log
(`Operation.run_shadows`, `Program.calleeOf_shadows`).
-/

namespace Descent

variable {α β ι V : Type} {e : Setting} {s t : State} {cap limit : Nat}

/-- The setting with another cap on the number of recorded errors. -/
def Setting.withCap (e : Setting) (cap : Nat) : Setting :=
  { e with config := { e.config with maxErrors := cap } }

/-! ## Cutting down to a cap -/

def Snapshot.capped (place : Snapshot) (cap : Nat) : Snapshot :=
  { place with errorCount := min cap place.errorCount }

/-- The state with a log of at most so many errors. -/
def State.capped (s : State) (cap : Nat) : State :=
  { s with
    errors := s.errors.take cap
    marks := s.marks.map fun (name, place) => (name, place.capped cap) }

def Happening.capped (what : Happening) (cap : Nat) : Happening :=
  match what with
  | .left rule succeeded position errors => .left rule succeeded position (min cap errors)
  | what => what

def Event.capped (event : Event) (cap : Nat) : Event :=
  { event with what := event.what.capped cap }

def Ran.capped (ran : Ran α) (cap : Nat) : Ran α where
  result := ran.result
  state := ran.state.capped cap
  events := ran.events.map (·.capped cap)

namespace State

theorem snapshot_capped (s : State) : (s.capped cap).snapshot = s.snapshot.capped cap := by
  simp [snapshot, capped, Snapshot.capped]

theorem mark_capped (s : State) (name : String) :
    (s.capped cap).mark name = (s.mark name).capped cap := by
  simp only [mark, snapshot_capped]
  rfl

theorem restore_capped (s : State) (place : Snapshot) :
    (s.capped cap).restore (place.capped cap) = (s.restore place).capped cap := by
  have hmin : min (min cap place.errorCount) cap = min cap place.errorCount :=
    Nat.min_eq_left (Nat.min_le_left _ _)
  simp only [restore, capped, Snapshot.capped, List.take_take, hmin]

end State

/-- Under a lower cap an error is recorded as long as it is one of the first ones. -/
theorem Setting.recordError_capped (hcap : cap ≤ limit) (error : ParseError) (s : State) :
    (e.withCap cap).recordError error (s.capped cap) =
      ((e.withCap limit).recordError error s).capped cap := by
  simp only [recordError_eq, withCap, State.capped, List.length_take]
  obtain hroom | hfull := Nat.lt_or_ge s.errors.length cap
  · rw [if_pos (by omega), if_pos (by omega), List.take_of_length_le (by omega),
      List.take_of_length_le (by simp; omega)]
  · rw [if_neg (by omega)]
    split
    · rw [List.take_append_of_le_length hfull]
    · rfl

/-! ## Shadows -/

namespace Action

/-- From the state cut down to a cap, the second action does what the first one does from the whole
state. -/
def Shadows (cap : Nat) (s : State) (x y : Action α) : Prop :=
  y (s.capped cap) = (x s).map (·.capped cap)

namespace Shadows

variable {x y : Action α}

theorem ofResult (result : Except ParseError α) (s : State) :
    Shadows cap s (ofResult result) (ofResult result) :=
  rfl

theorem modify {f g : State → State} (h : g (s.capped cap) = (f s).capped cap) :
    Shadows cap s (modify f) (modify g) := by
  unfold Shadows Action.modify
  rw [h]
  rfl

theorem report (what : Happening) (s : State) :
    Shadows cap s (report what) (report (what.capped cap)) :=
  rfl

theorem reportAll {whats : List Happening} (h : ∀ what ∈ whats, what.capped cap = what)
    (s : State) : Shadows cap s (reportAll whats) (reportAll whats) := by
  have hevents : (whats.map fun what => (Event.mk s.speculation what).capped cap) =
      whats.map (Event.mk s.speculation) :=
    List.map_congr_left fun what hmem => congrArg (Event.mk s.speculation) (h what hmem)
  unfold Shadows Action.reportAll
  simp only [Except.map, Ran.capped, List.map_map, Function.comp_def, hevents]
  rfl

theorem handOut (index : Nat) (s : State) : Shadows cap s (handOut index) (handOut index) :=
  rfl

theorem ite {x' y' : Action α} {c : Prop} [Decidable c] (h : Shadows cap s x y)
    (h' : Shadows cap s x' y') : Shadows cap s (if c then x else x') (if c then y else y') := by
  by_cases hc : c
  · rwa [if_pos hc, if_pos hc]
  · rwa [if_neg hc, if_neg hc]

theorem andThen {f g : Except ParseError α → Action β} (hx : Shadows cap s x y)
    (hf : ∀ r t, Shadows cap t (f r) (g r)) : Shadows cap s (x.andThen f) (y.andThen g) := by
  unfold Shadows at hx ⊢
  unfold Action.andThen
  rw [hx]
  cases x s with
  | error why => rfl
  | ok ran =>
    have hnext : g ran.result (ran.state.capped cap) = _ := hf ran.result ran.state
    simp only [Except.map, Ran.capped, hnext]
    cases f ran.result ran.state with
    | error why => rfl
    | ok next => simp

theorem bind {f g : α → Action β} (hx : Shadows cap s x y)
    (hf : ∀ a t, Shadows cap t (f a) (g a)) : Shadows cap s (x >>= f) (y >>= g) := by
  rw [bind_eq_andThen, bind_eq_andThen]
  refine hx.andThen fun r t => ?_
  cases r with
  | ok a => exact hf a t
  | error error => exact ofResult _ t

theorem getState {f g : State → Action α} (h : Shadows cap s (f s) (g (s.capped cap))) :
    Shadows cap s (getState >>= f) (getState >>= g) := by
  unfold Shadows at h ⊢
  rw [getState_bind, getState_bind, h]

theorem attempt {f g : Except ParseError α → Action β} (hx : Shadows cap s x y)
    (hf : ∀ r t, Shadows cap t (f r) (g r)) :
    Shadows cap s (x.attempt >>= f) (y.attempt >>= g) := by
  rw [attempt_bind, attempt_bind]
  exact hx.andThen hf

theorem raise (missing : GrammarError) (s : State) :
    Shadows cap s (raise missing : Action α) (Action.raise missing) :=
  (report _ s).bind fun _ t => ofResult _ t

theorem ofLookup (found : Except Failure α) (s : State) :
    Shadows cap s (ofLookup found) (ofLookup found) := by
  match found with
  | .ok a => exact ofResult _ s
  | .error (.malformed missing) => exact raise missing s
  | .error (.broken fault) => rfl

end Shadows

end Action

namespace Setting

open Descent.Action

/-! ## What the cap has nothing to do with -/

@[simp] theorem tokenOf?_withCap (index : Nat) (kind : Terminal) :
    (e.withCap cap).tokenOf? index kind = e.tokenOf? index kind :=
  rfl

@[simp] theorem cursor_withCap : (e.withCap cap).cursor s = e.cursor s := rfl

@[simp] theorem cursor_capped : e.cursor (s.capped cap) = e.cursor s := rfl

@[simp] theorem mismatch_withCap (kind : Terminal) :
    (e.withCap cap).mismatch s kind = e.mismatch s kind :=
  rfl

@[simp] theorem mismatch_capped (kind : Terminal) :
    e.mismatch (s.capped cap) kind = e.mismatch s kind :=
  rfl

@[simp] theorem recovers_withCap : (e.withCap cap).recovers s = e.recovers s := rfl

@[simp] theorem recovers_capped : e.recovers (s.capped cap) = e.recovers s := rfl

@[simp] theorem resolve_withCap (name : String) :
    (e.withCap cap).resolve name = e.resolve name :=
  rfl

@[simp] theorem position_capped : (s.capped cap).position = s.position := rfl

@[simp] theorem currentRule?_capped : (s.capped cap).currentRule? = s.currentRule? := rfl

@[simp] theorem expectedOf_withCap (names : List String) :
    (e.withCap cap).expectedOf names = e.expectedOf names := by
  induction names with
  | nil => rfl
  | cons name names ih =>
    unfold expectedOf
    rw [ih]
    rfl

theorem resyncSet_withCap (frames : List Frame) :
    (e.withCap cap).resyncSet frames = e.resyncSet frames := by
  induction frames with
  | nil => rfl
  | cons frame frames ih =>
    cases frames with
    | nil => rfl
    | cons caller frames =>
      unfold resyncSet
      rw [ih]
      rfl

@[simp] theorem resumePoint_withCap : (e.withCap cap).resumePoint s = e.resumePoint s := by
  unfold resumePoint
  simp only [resyncSet_withCap]
  rfl

@[simp] theorem resumePoint_capped : e.resumePoint (s.capped cap) = e.resumePoint s := rfl

/-! ## The operations -/

theorem recordError_shadows (hcap : cap ≤ limit) (error : ParseError) (s : State) :
    Shadows cap s (modify ((e.withCap limit).recordError error))
      (modify ((e.withCap cap).recordError error)) :=
  .modify (recordError_capped hcap error s)

theorem makeUpToken_shadows (hcap : cap ≤ limit) (kind : Terminal) (occurrence : Nat)
    (error : ParseError) (s : State) :
    Shadows cap s ((e.withCap limit).makeUpToken s kind occurrence error)
      ((e.withCap cap).makeUpToken (s.capped cap) kind occurrence error) := by
  unfold makeUpToken
  simp only [currentRule?_capped, cursor_withCap, cursor_capped]
  cases s.currentRule? with
  | none => exact .ofResult _ s
  | some rule =>
    cases (e.cursor s).current? with
    | none => exact .ofResult _ s
    | some current =>
      refine (Shadows.ofLookup _ s).bind fun follows t => ?_
      refine .ite ?_ (.ofResult _ t)
      refine (recordError_shadows hcap error t).bind fun _ u => ?_
      exact (Shadows.report _ u).bind fun _ v => .ofResult _ v

theorem consume_shadows (hcap : cap ≤ limit) (kind : Terminal) (occurrence : Nat) (s : State) :
    Shadows cap s ((e.withCap limit).consume kind occurrence)
      ((e.withCap cap).consume kind occurrence) := by
  refine .getState ?_
  simp only [tokenOf?_withCap, position_capped, recovers_withCap, recovers_capped,
    mismatch_withCap, mismatch_capped]
  cases e.tokenOf? s.position kind with
  | some token => exact (Shadows.handOut _ s).bind fun _ t => .ofResult _ t
  | none =>
    refine .ite ?_ (.ofResult _ s)
    cases e.tokenOf? (s.position + 1) kind with
    | some token =>
      refine (Shadows.report _ s).bind fun _ t => (Shadows.handOut _ t).bind fun _ u => ?_
      exact (recordError_shadows hcap _ u).bind fun _ v => .ofResult _ v
    | none => exact makeUpToken_shadows hcap kind occurrence _ s

theorem skipTo_shadows (kind : Terminal) (s : State) :
    Shadows cap s ((e.withCap limit).skipTo kind) ((e.withCap cap).skipTo kind) := by
  refine .getState <| (Shadows.modify rfl).bind fun _ t => .reportAll (fun what hmem => ?_) t
  obtain ⟨index, -, rfl⟩ := List.mem_map.1 hmem
  rfl

theorem resync_shadows (hcap : cap ≤ limit) (name : String) (recovery : V) (error : ParseError)
    (s : State) : Shadows cap s ((e.withCap limit).resync name recovery error)
      ((e.withCap cap).resync name recovery error) := by
  refine .getState ?_
  simp only [resumePoint_withCap, resumePoint_capped]
  refine (Shadows.ofLookup _ s).bind fun point t => ?_
  split
  · exact .ofResult _ t
  · refine (skipTo_shadows _ t).bind fun _ u => ?_
    refine (recordError_shadows hcap error u).bind fun _ v => ?_
    exact (Shadows.report _ v).bind fun _ w => .ofResult _ w

theorem inFrame_shadows {body body' : Action V} {frame : Frame}
    (hbody : ∀ t, Shadows cap t body body') (s : State) :
    Shadows cap s (inFrame frame body) (inFrame frame body') := by
  refine (Shadows.modify rfl).bind fun _ t => (hbody t).attempt fun result u => ?_
  exact (Shadows.modify rfl).bind fun _ v => .ofResult _ v

theorem invoke_shadows {body body' : Action V} (hbody : ∀ t, Shadows cap t body body')
    (name : String) (s : State) :
    Shadows cap s ((e.withCap limit).invoke name body) ((e.withCap cap).invoke name body') := by
  unfold invoke
  simp only [resolve_withCap]
  split
  · exact .raise _ s
  · exact inFrame_shadows hbody s

theorem orResync_shadows {body body' : Action V} (hcap : cap ≤ limit)
    (hbody : ∀ t, Shadows cap t body body') (name : String) (recovery : V) (s : State) :
    Shadows cap s ((e.withCap limit).orResync name recovery body)
      ((e.withCap cap).orResync name recovery body') := by
  refine (hbody s).andThen fun r t => ?_
  cases r with
  | ok value => exact .ofResult _ t
  | error error =>
    refine .getState ?_
    simp only [recovers_withCap, recovers_capped]
    exact .ite (resync_shadows hcap name recovery error t) (.ofResult _ t)

variable {callee callee' : Callee V}

/-- The two callees differ in their bodies, of which one shadows the other. -/
structure CalleeShadows (cap : Nat) (callee callee' : Callee V) : Prop where
  name : callee'.name = callee.name
  recovery : callee'.recovery = callee.recovery
  body : ∀ s, Shadows cap s callee.body callee'.body

theorem call_shadows (hcap : cap ≤ limit) (hcallee : CalleeShadows cap callee callee')
    (occurrence : Nat) (s : State) :
    Shadows cap s ((e.withCap limit).call callee occurrence)
      ((e.withCap cap).call callee' occurrence) := by
  unfold call subrule
  simp only [resolve_withCap, hcallee.name, hcallee.recovery]
  split
  · exact .raise _ s
  · exact inFrame_shadows (orResync_shadows hcap hcallee.body _ _) s

theorem trial_shadows (hcallee : CalleeShadows cap callee callee') (accept : V → Bool)
    (s : State) : Shadows cap s ((e.withCap limit).trial callee accept)
      ((e.withCap cap).trial callee' accept) := by
  unfold trial
  rw [hcallee.name]
  refine .getState <| (Shadows.modify rfl).bind fun _ t => ?_
  refine (invoke_shadows hcallee.body _ t).attempt fun outcome u => ?_
  refine (Shadows.modify rfl).bind fun _ v => (Shadows.modify ?_).bind fun _ w => ?_
  · rw [State.snapshot_capped, State.restore_capped]
  · cases outcome with
    | ok value => exact (Shadows.report _ w).bind fun _ x => .ofResult _ x
    | error error => exact .ite (.ofResult _ w) (.ofResult _ w)

theorem speculate_shadows (hcap : cap ≤ limit) (hcallee : CalleeShadows cap callee callee')
    (occurrence : Nat) (accept : V → Bool) (s : State) :
    Shadows cap s ((e.withCap limit).speculate callee occurrence accept)
      ((e.withCap cap).speculate callee' occurrence accept) := by
  refine (trial_shadows hcallee accept s).bind fun verdict t => ?_
  cases verdict with
  | some reason => exact .ofResult _ t
  | none => exact (call_shadows hcap hcallee occurrence t).bind fun _ u => .ofResult _ u

variable {callee callee' : ι → Callee V}

theorem firstAccepted_shadows (hcap : cap ≤ limit)
    (hcallee : ∀ rule, CalleeShadows cap (callee rule) (callee' rule))
    (alternatives : List (Alternative ι V)) (s : State) :
    Shadows cap s ((e.withCap limit).firstAccepted callee alternatives)
      ((e.withCap cap).firstAccepted callee' alternatives) := by
  induction alternatives generalizing s with
  | nil => exact .ofResult _ s
  | cons alternative alternatives ih =>
    unfold firstAccepted
    split
    · exact (call_shadows hcap (hcallee _) _ s).bind fun _ t => .ofResult _ t
    · refine (speculate_shadows hcap (hcallee _) _ _ s).bind fun outcome t => ?_
      cases outcome with
      | committed value => exact .ofResult _ t
      | rolledBack reason => exact ih t

theorem choose_shadows (hcap : cap ≤ limit)
    (hcallee : ∀ rule, CalleeShadows cap (callee rule) (callee' rule))
    (alternatives : List (Alternative ι V)) (s : State) :
    Shadows cap s ((e.withCap limit).choose callee alternatives)
      ((e.withCap cap).choose callee' alternatives) := by
  refine .getState <| (firstAccepted_shadows hcap hcallee alternatives s).bind fun found t => ?_
  cases found with
  | some value => exact .ofResult _ t
  | none =>
    have hnames : (alternatives.map fun a => (callee' a.rule).name) =
        alternatives.map fun a => (callee a.rule).name :=
      List.map_congr_left fun a _ => (hcallee a.rule).name
    unfold noViable
    simp only [hnames, expectedOf_withCap]
    split
    · exact .raise _ t
    · exact .getState (.ofResult _ t)

end Setting

theorem Operation.run_shadows {callee callee' : ι → Callee V} (hcap : cap ≤ limit)
    (hcallee : ∀ rule, Setting.CalleeShadows cap (callee rule) (callee' rule))
    (op : Operation ι V β) (s : State) :
    Action.Shadows cap s (op.run (e.withCap limit) callee) (op.run (e.withCap cap) callee') := by
  cases op with
  | consume kind occurrence => exact Setting.consume_shadows hcap kind occurrence s
  | subrule rule occurrence => exact Setting.call_shadows hcap (hcallee rule) occurrence s
  | invoke rule =>
    simp only [run, (hcallee rule).name]
    exact Setting.invoke_shadows (hcallee rule).body _ s
  | backtrack rule accept =>
    exact (Setting.trial_shadows (hcallee rule) accept s).bind fun _ t => .ofResult _ t
  | speculate rule occurrence accept =>
    exact Setting.speculate_shadows hcap (hcallee rule) occurrence accept s
  | choose alternatives => exact Setting.choose_shadows hcap hcallee alternatives s

/-! ## Programs -/

/-- The state without a trace of the errors recorded. -/
def State.logless (s : State) : State := s.capped 0

theorem State.logless_capped (s : State) : (s.capped cap).logless = s.logless := by
  simp [logless, capped, Snapshot.capped]

namespace Program

/-- If the program is about to read, it reads nothing of the log: neither the errors recorded, nor
how many they are, nor how many there may be. -/
def ReadsNoLog : Program ι V α → Prop
  | .inspect next => ∀ e s, next e s = next (e.withCap 0) s.logless
  | _ => True

/-- The program neither takes the recorded errors away nor goes back by itself nor reads anything of
the log. -/
structure LogBlind (p : Program ι V α) : Prop where
  tidy : p.Tidy
  reads : p.ReadsNoLog

variable {book : Book ι V}

theorem exec_shadows {bodies bodies' : ι → Action V} (hcap : cap ≤ limit)
    (he : ∀ rule s, Action.Shadows cap s (bodies rule) (bodies' rule)) {p : Program ι V α}
    (hp : p.Everywhere LogBlind) (s : State) :
    Action.Shadows cap s (p.exec (e.withCap limit) book bodies)
      (p.exec (e.withCap cap) book bodies') := by
  have hcallee rule : Setting.CalleeShadows cap (callee book bodies rule)
      (callee book bodies' rule) := ⟨rfl, rfl, he rule⟩
  induction p using useInduction generalizing s with
  | done result => exact .ofResult result s
  | halt why => rfl
  | use op next ih =>
    rw [exec_use, exec_use]
    exact (op.run_shadows hcap hcallee s).andThen fun r t => ih r ((everywhere_use.1 hp).2 r) t
  | inspect next ih =>
    have hread : next (e.withCap cap) (s.capped cap) = next (e.withCap limit) s := by
      rw [hp.1.reads (e.withCap cap), hp.1.reads (e.withCap limit), State.logless_capped]
      rfl
    have hnext := ih (e.withCap limit) s (hp.2 _ _) s
    unfold Action.Shadows at hnext ⊢
    exact (congrArg (fun p => exec (e.withCap cap) book bodies' p (s.capped cap)) hread).trans hnext
  | takeErrors next ih => exact hp.1.tidy.elim
  | mark name next ih =>
    have hnext := ih hp.2 (s.mark name)
    unfold Action.Shadows at hnext ⊢
    rw [← State.mark_capped] at hnext
    exact hnext
  | restore place next ih => exact hp.1.tidy.elim
  | recoveryValue rule next ih =>
    exact (Action.Shadows.report _ s).andThen fun _ t => ih _ (hp.2 _) t

theorem enter_shadows (hcap : cap ≤ limit)
    (hb : ∀ rule, (book rule).body.Everywhere LogBlind) (fuel : Nat) (rule : ι) (s : State) :
    Action.Shadows cap s (enter (e.withCap limit) book fuel rule)
      (enter (e.withCap cap) book fuel rule) := by
  induction fuel generalizing rule s with
  | zero => rfl
  | succ fuel ih =>
    refine .getState <| (Action.Shadows.report _ s).bind fun _ t => ?_
    refine (exec_shadows hcap ih (hb rule) t).attempt fun result u => .getState ?_
    have hcount : (u.capped cap).errors.length = min cap u.errors.length := List.length_take
    rw [hcount]
    exact (Action.Shadows.report _ u).bind fun _ v => .ofResult result v

/-- A rule of a book under a lower cap shadows the rule under a higher one. -/
theorem calleeOf_shadows (hcap : cap ≤ limit)
    (hb : ∀ rule, (book rule).body.Everywhere LogBlind) (fuel : Nat) (rule : ι) :
    Setting.CalleeShadows cap (calleeOf (e.withCap limit) book fuel rule)
      (calleeOf (e.withCap cap) book fuel rule) := by
  -- opened first, since `rfl` on the closed callees would compare how their bodies run
  simp only [calleeOf, callee]
  exact ⟨rfl, rfl, enter_shadows hcap hb fuel rule⟩

end Program

end Descent
