import Descent.Proofs.Parser.Accounting
import Descent.Proofs.Parser.ErrorCap
import Descent.Proofs.Parser.Gates

/-!
# The log of recorded errors

What a parse records are recognition errors, in the order of their positions, and none lies ahead of
the parse (`Logged`). An error is recorded when it is mended, which is after it was raised and
perhaps in another rule; but an operation that fails ends at the position of its error
(`FailsAt`), and from there recovery only goes forward. This takes rule bodies that do not make up
errors about other places (`Program.Placed`).

`Setting.log_capped` puts this together with what the cap does to a run, for any number of rules run
one after the other: the cap decides how much of the log is kept, and nothing else.
-/

namespace Descent

variable {α β ι V : Type} {e : Setting} {placed : Prop} {s t : State}

/-! ## Errors and their positions -/

namespace ParseError

/-- If this is a recognition error, it is one at the position. -/
def StandsAt (error : ParseError) (position : Nat) : Prop :=
  ∀ p, error.position? = some p → p = position

theorem exists_position {error : ParseError} (h : error.isRecognition = true) :
    ∃ p, error.position? = some p := by
  cases error with
  | mismatched expected found p => exact ⟨p, rfl⟩
  | noViable rule p expected => exact ⟨p, rfl⟩
  | structural missing => cases h

theorem standsAt_of_structural {error : ParseError} (h : error.isRecognition = false)
    (position : Nat) : error.StandsAt position := by
  intro p hp
  cases error with
  | mismatched | noViable => cases h
  | structural missing => cases hp

end ParseError

/-- If this is a failure, its error stands at the position. -/
def FailsAt (result : Except ParseError α) (position : Nat) : Prop :=
  ∀ error, result = .error error → error.StandsAt position

theorem failsAt_ok (a : α) (position : Nat) : FailsAt (.ok a) position := nofun

theorem failsAt_error {error : ParseError} {position : Nat} (h : error.StandsAt position) :
    FailsAt (.error error : Except ParseError α) position := by
  rintro _ ⟨⟩
  exact h

theorem failsAt_verdict (accept : V → Bool) (r : Except ParseError V) (position : Nat) :
    FailsAt (Setting.verdict accept r) position :=
  fun _ hr =>
    ParseError.standsAt_of_structural (Setting.isRecognition_of_verdict hr.symm) position

theorem Setting.mismatch_standsAt (kind : Terminal) :
    (e.mismatch s kind).StandsAt s.position := by
  rintro _ ⟨⟩
  rfl

/-- The positions of the recorded errors, in the order of their recording. -/
def State.logPositions (s : State) : List Nat := s.errors.filterMap ParseError.position?

/-- The log holds recognition errors, sorted by position and none of them ahead of the parse. -/
structure Logged (e : Setting) (placed : Prop) (s : State) : Prop where
  inside : s.position ≤ e.tokens.size
  recognition : ∀ error ∈ s.errors, error.isRecognition = true
  sorted : placed → s.logPositions.Pairwise (· ≤ ·)
  behind : placed → ∀ p ∈ s.logPositions, p ≤ s.position

namespace Logged

theorem congr (h : Logged e placed s) (hpos : t.position = s.position)
    (herrors : t.errors = s.errors) : Logged e placed t := by
  have hlog : t.logPositions = s.logPositions := congrArg (List.filterMap _) herrors
  refine ⟨hpos ▸ h.inside, herrors ▸ h.recognition, ?_, ?_⟩
  · rw [hlog]
    exact h.sorted
  · rw [hlog, hpos]
    exact h.behind

theorem forward {position : Nat} (h : Logged e placed s) (hpos : s.position ≤ position)
    (hend : position ≤ e.tokens.size) : Logged e placed { s with position } where
  inside := hend
  recognition := h.recognition
  sorted := h.sorted
  behind hplaced p hmem := Nat.le_trans (h.behind hplaced p hmem) hpos

/-- An error about the present place is recorded after the parse has gone on from there. -/
theorem recordError {error : ParseError} {position : Nat} (h : Logged e placed s)
    (hrecognition : error.isRecognition = true) (hplace : placed → error.StandsAt s.position)
    (hpos : s.position ≤ position) (hend : position ≤ e.tokens.size) :
    Logged e placed (e.recordError error { s with position }) := by
  unfold Setting.recordError
  split
  next =>
    obtain ⟨p, hp⟩ := ParseError.exists_position hrecognition
    have hlog : ({ s with position, errors := s.errors ++ [error] } : State).logPositions =
        s.logPositions ++ [p] := by
      simp [State.logPositions, List.filterMap_append, hp]
    refine ⟨hend, ?_, fun hplaced => ?_, fun hplaced => ?_⟩
    · exact List.forall_mem_append.2 ⟨h.recognition, List.forall_mem_singleton.2 hrecognition⟩
    · rw [hlog, hplace hplaced p hp]
      refine List.pairwise_append.2 ⟨h.sorted hplaced, List.pairwise_singleton _ _, ?_⟩
      exact fun q hq _ hmem => List.mem_singleton.1 hmem ▸ h.behind hplaced q hq
    · rw [hlog, hplace hplaced p hp]
      refine List.forall_mem_append.2 ⟨fun q hq => ?_, List.forall_mem_singleton.2 hpos⟩
      exact Nat.le_trans (h.behind hplaced q hq) hpos
  next => exact h.forward hpos hend

end Logged

/-! ## Runs -/

/-- What a run makes of a log: it stays one, the parse goes forward, and an error that the run ends
with stands where the parse is. -/
structure LogKept (e : Setting) (placed : Prop) (s : State) (ran : Ran α) : Prop where
  logged : Logged e placed ran.state
  forward : s.position ≤ ran.state.position
  speculation : ran.state.speculation = s.speculation
  quiet : e.recovers s = false → ran.state.errors = s.errors
  failsAt : placed → FailsAt ran.result ran.state.position

namespace LogKept

theorem of_state {r : Except ParseError α} {events : List Event} (h : Logged e placed s)
    (hfails : placed → FailsAt r s.position) :
    LogKept e placed s { result := r, state := s, events } :=
  ⟨h, Nat.le_refl _, rfl, fun _ => rfl, hfails⟩

theorem trans {first : Ran α} {next : Ran β} (h : LogKept e placed s first)
    (h' : LogKept e placed first.state next) : LogKept e placed s (next.after first.events) where
  logged := h'.logged
  forward := Nat.le_trans h.forward h'.forward
  speculation := h'.speculation.trans h.speculation
  quiet hq := by
    have hq' : e.recovers first.state = false := by
      simpa [Setting.recovers, State.isSpeculating, h.speculation] using hq
    exact (h'.quiet hq').trans (h.quiet hq)
  failsAt := h'.failsAt

/-- An error about the present place is mended. -/
theorem of_mended {error : ParseError} {position : Nat} {a : α} {events : List Event}
    (h : Logged e placed s) (hrecovers : e.recovers s = true)
    (hrecognition : error.isRecognition = true) (hplace : placed → error.StandsAt s.position)
    (hpos : s.position ≤ position) (hend : position ≤ e.tokens.size) :
    LogKept e placed s
      { result := .ok a, state := e.recordError error { s with position }, events } where
  logged := h.recordError hrecognition hplace hpos hend
  forward := by simpa using hpos
  speculation := by simp
  quiet hq := by cases hrecovers.symm.trans hq
  failsAt _ := failsAt_ok a _

end LogKept

/-- A run that starts with a log. -/
def Logs (e : Setting) (placed : Prop) ⦃α : Type⦄ (s : State) (ran : Ran α) : Prop :=
  Logged e placed s → LogKept e placed s ran

theorem logs_law (e : Setting) (placed : Prop) : RunLaw e (Logs e placed) where
  value s a h := .of_state h fun _ => failsAt_ok a _
  error h hresult hs := by
    have hran := h hs
    refine { hran with failsAt := fun hplaced => failsAt_error (hran.failsAt hplaced _ hresult) }
  bind h _ h' hs := (h hs).trans (h' (h hs).logged)
  consumed h hs := by
    cases h with
    | took hnext =>
      exact ⟨hs.forward (Nat.le_succ _) (Setting.lt_size_of_tokenOf? hnext), Nat.le_succ _, rfl,
        fun _ => rfl, fun _ => failsAt_ok _ _⟩
    | dropped _ hrecovers hahead =>
      exact .of_mended hs hrecovers rfl (fun _ => Setting.mismatch_standsAt _)
        (Nat.le_add_right _ 2) (Setting.lt_size_of_tokenOf? hahead)
    | madeUp _ hrecovers =>
      exact .of_mended hs hrecovers rfl (fun _ => Setting.mismatch_standsAt _)
        (Nat.le_refl _) hs.inside
    | raised => exact .of_state hs fun _ => failsAt_error (ParseError.standsAt_of_structural rfl _)
    | failed => exact .of_state hs fun _ => failsAt_error (Setting.mismatch_standsAt _)
  raised s missing hs :=
    .of_state hs fun _ => failsAt_error (ParseError.standsAt_of_structural rfl _)
  noViable s rule expected hs := by
    refine .of_state hs fun _ => failsAt_error ?_
    rintro _ ⟨⟩
    rfl
  frame h hs := by
    have hran := h (hs.congr rfl rfl)
    exact { hran with logged := hran.logged.congr rfl rfl }
  resynced h hresult hrecognition hrecovers h' hs := by
    have hran := h hs
    have hplace hplaced := hran.failsAt hplaced _ hresult
    refine hran.trans ?_
    cases h' with
    | @resumed count kind =>
      obtain ⟨hpos, hend⟩ := Setting.skipEnd_bounds kind hran.logged.inside
      exact .of_mended hran.logged hrecovers hrecognition hplace hpos hend
    | raised =>
      exact .of_state hran.logged fun _ => failsAt_error (ParseError.standsAt_of_structural rfl _)
    | failed => exact .of_state hran.logged fun hplaced => failsAt_error (hplace hplaced)
  trial {_ s ran} accept h hs := by
    have hran := h (hs.congr rfl rfl)
    have herrors : ran.state.errors = s.errors := hran.quiet (e.recovers_onTrial s)
    have hspec : ran.state.speculation = s.speculation + 1 := hran.speculation
    have hback : (s.backFrom ran.state).errors = s.errors := by
      change ran.state.errors.take s.errors.length = s.errors
      rw [herrors, List.take_length]
    refine ⟨hs.congr rfl hback, Nat.le_refl _, ?_, fun _ => hback, fun _ => failsAt_verdict _ _ _⟩
    change ran.state.speculation - 1 = s.speculation
    rw [hspec, Nat.add_sub_cancel]

/-! ## Programs -/

namespace Program

/-- Run at a position, the program ends with an error at its position only, as long as the
operations that it uses do so: it returns at once the errors that it receives, and those of its own
are about the next token. -/
def Placed : Program ι V α → Nat → Prop
  | .done result, position => FailsAt result position
  | .halt _, _ => True
  | .consume _ _ next, _ => ∀ r position, FailsAt r position → (next r).Placed position
  | .subrule _ _ next, _ | .invoke _ next, _ | .choose _ next, _ =>
    ∀ r position, FailsAt r position → (next r).Placed position
  | .backtrack _ _ next, _ => ∀ r position, FailsAt r position → (next r).Placed position
  | .speculate _ _ _ next, _ => ∀ r position, FailsAt r position → (next r).Placed position
  | .inspect next, position => ∀ e s, s.position = position → (next e s).Placed position
  | .takeErrors next, position => ∀ errors, (next errors).Placed position
  | .mark _ next, position => next.Placed position
  | .restore place next, _ => next.Placed place.position
  | .recoveryValue _ next, position => ∀ value, (next value).Placed position

theorem placed_use {op : Operation ι V β} {next : Except ParseError β → Program ι V α}
    {position : Nat} : (use op next).Placed position ↔
      ∀ r position, FailsAt r position → (next r).Placed position := by
  cases op <;> exact Iff.rfl

variable {book : Book ι V}

theorem exec_logs {enter : ι → Action V} (he : ∀ rule, (enter rule).Obeys (Logs e placed))
    {p : Program ι V α} (hp : p.Everywhere Tidy) {ran : Ran α}
    (hplaced : placed → p.Placed s.position) (h : p.exec e book enter s = .ok ran) :
    Logs e placed s ran := by
  intro hs
  induction p using useInduction generalizing s ran with
  | done result =>
    cases h
    exact .of_state hs hplaced
  | halt why => cases h
  | use op next ih =>
    rw [exec_use] at h
    obtain ⟨first, last, hfirst, hlast, rfl⟩ := Action.andThen_eq_ok.1 h
    have hop := op.run_obeys (logs_law e placed) he hfirst hs
    refine hop.trans (ih _ ((everywhere_use.1 hp).2 _) (fun hpl => ?_) hlast hop.logged)
    exact placed_use.1 (hplaced hpl) _ _ (hop.failsAt hpl)
  | inspect next ih =>
    exact ih e s (hp.2 e s) (fun hpl => hplaced hpl e s rfl) h hs
  | takeErrors next ih | restore place next ih => exact hp.1.elim
  | mark name next ih =>
    have hmarked : Logged e placed (s.mark name) := hs.congr rfl rfl
    have hinner := ih hp.2 (s := s.mark name) hplaced h hmarked
    exact { hinner with }
  | recoveryValue rule next ih =>
    obtain ⟨first, last, hfirst, hlast, rfl⟩ := Action.andThen_eq_ok.1 h
    cases hfirst
    have hinner := ih _ (hp.2 _) (fun hpl => hplaced hpl _) hlast hs
    exact { hinner with }

theorem enter_logs (hb : ∀ rule, (book rule).body.Everywhere Tidy)
    (hplaced : placed → ∀ rule position, (book rule).body.Placed position) (fuel : Nat)
    (rule : ι) : (enter e book fuel rule).Obeys (Logs e placed) := by
  induction fuel generalizing rule with
  | zero => exact fun s ran h => nomatch h
  | succ fuel ih =>
    intro s ran h hs
    obtain ⟨inner, hinner, rfl⟩ := enter_run h
    have hbody := exec_logs ih (hb rule) (fun hpl => hplaced hpl rule _) hinner hs
    exact { hbody with }

end Program

/-! ## Rules run one after the other -/

namespace Operation

/-- Uses operations one after the other, whether they fail or not. Each gives its result and the
position after it. -/
def runAll (e : Setting) (callee : ι → Callee V) :
    List (Operation ι V V) → Action (List (Except ParseError V × Nat))
  | [] => pure []
  | op :: ops => (op.run e callee).andThen fun result => do
    let s ← Action.getState
    let rest ← runAll e callee ops
    return (result, s.position) :: rest

theorem runAll_shadows {cap limit : Nat} {callee callee' : ι → Callee V} (hcap : cap ≤ limit)
    (hcallee : ∀ rule, Setting.CalleeShadows cap (callee rule) (callee' rule))
    (ops : List (Operation ι V V)) (s : State) :
    Action.Shadows cap s (runAll (e.withCap limit) callee ops)
      (runAll (e.withCap cap) callee' ops) := by
  induction ops generalizing s with
  | nil => exact .ofResult _ s
  | cons op ops ih =>
    refine (op.run_shadows hcap hcallee s).andThen fun result t => .getState ?_
    exact (ih t).bind fun rest u => .ofResult _ u

theorem runAll_logged {callee : ι → Callee V}
    (hbody : ∀ rule, (callee rule).body.Obeys (Logs e placed)) {ops : List (Operation ι V V)}
    {ran : Ran (List (Except ParseError V × Nat))} (hs : Logged e placed s)
    (h : runAll e callee ops s = .ok ran) : Logged e placed ran.state := by
  induction ops generalizing s ran with
  | nil =>
    cases h
    exact hs
  | cons op ops ih =>
    obtain ⟨first, last, hfirst, hlast, rfl⟩ := Action.andThen_eq_ok.1 h
    have hop := op.run_obeys (logs_law e placed) hbody hfirst hs
    rw [Action.getState_bind, Action.bind_eq_andThen] at hlast
    obtain ⟨rest, final, hrest, hfinal, rfl⟩ := Action.andThen_eq_ok.1 hlast
    have hlogged := ih hop.logged hrest
    cases hresult : rest.result with
    | ok results =>
      rw [hresult] at hfinal
      cases hfinal
      exact hlogged
    | error error =>
      rw [hresult] at hfinal
      cases hfinal
      exact hlogged

end Operation

/-- Rules are run one after the other from a fresh start, with bodies that read nothing of the log
and leave it alone. The cap does not change what they end with and where, and not whether they halt:
of the log under a higher cap it keeps the first errors, as many as it allows. All errors recorded
are recognition errors. If rule bodies do not make up errors about other places, the errors are
sorted by position, and none lies ahead of the parse. -/
theorem Setting.log_capped (e : Setting) (book : Book ι V)
    (hb : ∀ rule, (book rule).body.Everywhere Program.LogBlind) (fuel : Nat)
    (ops : List (Operation ι V V)) :
    let run cap := Operation.runAll (e.withCap cap) (Program.calleeOf (e.withCap cap) book fuel)
      ops {}
    (∀ cap limit, (run cap).map Ran.result = (run limit).map Ran.result) ∧
    (∀ cap limit, cap ≤ limit →
      (run cap).map (·.state.errors) = (run limit).map (·.state.errors.take cap)) ∧
    ∀ cap ran, run cap = .ok ran → (∀ error ∈ ran.state.errors, error.isRecognition = true) ∧
      ((∀ rule position, (book rule).body.Placed position) →
        ran.state.logPositions.Pairwise (· ≤ ·) ∧
        ∀ p ∈ ran.state.logPositions, p ≤ ran.state.position) := by
  intro run
  have hshadow {cap limit} (hcap : cap ≤ limit) : run cap = (run limit).map (·.capped cap) := by
    have hfresh : ({} : State).capped cap = {} := by simp [State.capped]
    have hcallee rule := Program.calleeOf_shadows (e := e) hcap hb fuel rule
    have hall := Operation.runAll_shadows (e := e) hcap hcallee ops {}
    rwa [Action.Shadows, hfresh] at hall
  have hresult {cap limit} (hcap : cap ≤ limit) :
      (run cap).map Ran.result = (run limit).map Ran.result := by
    rw [hshadow hcap]
    cases run limit <;> rfl
  refine ⟨fun cap limit => ?_, fun cap limit hcap => ?_, fun cap ran hran => ?_⟩
  · obtain hcap | hcap := Nat.le_total cap limit
    · exact hresult hcap
    · exact (hresult hcap).symm
  · rw [hshadow hcap]
    cases run limit <;> rfl
  · let placed := ∀ rule position, (book rule).body.Placed position
    have hfresh : Logged (e.withCap cap) placed {} :=
      ⟨Nat.zero_le _, List.forall_mem_nil _, fun _ => .nil, fun _ => List.forall_mem_nil _⟩
    have hbodies rule : (Program.enter (e.withCap cap) book fuel rule).Obeys
        (Logs (e.withCap cap) placed) :=
      Program.enter_logs (fun rule => (hb rule).mono fun _ hp => hp.tidy) id fuel rule
    have hlogged := Operation.runAll_logged hbodies hfresh hran
    exact ⟨hlogged.recognition, fun hplaced => ⟨hlogged.sorted hplaced, hlogged.behind hplaced⟩⟩

/-! ## Sample logs -/

/-- If the program is about to read, it does not read the recorded errors. -/
def Program.ReadsNoErrors : Program ι V α → Prop
  | .inspect next => ∀ e s errors, next e s = next e { s with errors }
  | _ => True

namespace Sample

theorem failsAt_map {r : Except ParseError α} {position : Nat} (h : FailsAt r position)
    (f : α → β) : FailsAt (r.map f) position := by
  cases r with
  | ok a => exact failsAt_ok _ _
  | error error => exact failsAt_error (h error rfl)

theorem logBlind_ofForwarding {ι : Type} :
    OfForwarding (Program.LogBlind : Program ι Nat Nat → Prop) where
  done _ := ⟨trivial, trivial⟩
  use op next _ := ⟨(Program.traceless_use op next).tidy, by cases op <;> trivial⟩

theorem callBodies_placed (rule : CallRule) (position : Nat) :
    (callBodies rule).body.Placed position := by
  have hlast kind (f : Token → Nat) position :
      (Program.consume kind 1 fun r => .done (r.map f) : Program CallRule Nat Nat).Placed
        position :=
    fun r position hr => failsAt_map hr f
  cases rule with
  | stmts => exact fun r position hr => hr
  | stmt =>
    intro r position hr
    cases r with
    | error error => exact hr
    | ok value => exact hlast 2 _ _
  | call =>
    intro r position hr
    cases r with
    | error error => exact failsAt_error (hr error rfl)
    | ok token =>
      intro r position hr
      cases r with
      | error error => exact failsAt_error (hr error rfl)
      | ok token =>
        intro r position hr
        cases r with
        | error error => exact hr
        | ok value => exact hlast 4 _ _
  | args => exact hlast 0 _ _

/-- Bodies whose value is the cap. -/
def capReaders (rule : CallRule) : Handle CallRule Nat where
  name := (callBodies rule).name
  recovery := 0
  body := .inspect fun e _ => .done (.ok e.config.maxErrors)

/-- The bodies of `callBodies`, but a call fails at a place of its own invention. -/
def farFetched : Book CallRule Nat
  | .call => { callBodies .call with body := .done (.error (.noViable "call" 9 "Ident")) }
  | rule => callBodies rule

/-- Two rules run one after the other over a garbled call. -/
def garbledRun (a : Analysis) (book : Book CallRule Nat) (cap : Nat) :
    Except Halt (Ran (List (Except ParseError Nat × Nat))) :=
  let e := (garbled a).withCap cap
  Operation.runAll e (Program.calleeOf e book 4) [.invoke .stmts, .subrule .stmt 1] {}

/-- Three errors of the garbled call are recorded. Under a cap of one only the first of them is, and
both rules end as before. -/
theorem garbled_log_capped : ∃ a, analysisOf calls = .ok a ∧
    ∃ ran, garbledRun a callBodies 100 = .ok ran ∧ ran.state.errors.length = 3 ∧
      (garbledRun a callBodies 1).map Ran.result = .ok ran.result ∧
      (garbledRun a callBodies 1).map (·.state.errors) = .ok (ran.state.errors.take 1) ∧
      (∀ error ∈ ran.state.errors, error.isRecognition = true) ∧
      ran.state.logPositions.Pairwise (· ≤ ·) ∧
      ∀ p ∈ ran.state.logPositions, p ≤ ran.state.position := by
  have hruns : (analysisOf calls).toOption.any (fun a =>
      (garbledRun a callBodies 100).toOption.any (·.state.errors.length == 3)) = true := by
    decide +kernel
  obtain ⟨a, ha, hruns⟩ := exists_ok_of_any hruns
  obtain ⟨ran, hran, hlength⟩ := exists_ok_of_any hruns
  obtain ⟨hresults, hlogs, hlog⟩ := Setting.log_capped (garbled a) callBodies
    (callBodies_everywhere logBlind_ofForwarding) 4
    [.invoke .stmts, .subrule .stmt 1]
  obtain ⟨hrecognition, hsorted⟩ := hlog 100 ran hran
  refine ⟨a, ha, ran, hran, eq_of_beq hlength, ?_, ?_, hrecognition, hsorted callBodies_placed⟩
  · exact (hresults 1 100).trans (congrArg (Except.map Ran.result) hran)
  · exact (hlogs 1 100 (by decide)).trans (congrArg (Except.map _) hran)

/-- Bodies that read the cap but not the errors end differently under different caps; and a body
that makes up an error about a place further on gets it recorded there. Both pass errors on. -/
theorem cap_and_invention_show : ∃ a, analysisOf calls = .ok a ∧
    ((∀ rule, (capReaders rule).body.Everywhere fun p =>
        p.Tidy ∧ p.Forwards ∧ p.ReadsNoErrors) ∧
      (garbledRun a capReaders 1).map Ran.result ≠ (garbledRun a capReaders 2).map Ran.result) ∧
    (∀ rule, (farFetched rule).body.Everywhere fun p =>
        p.Tidy ∧ p.Forwards ∧ p.ReadsNoErrors) ∧
      ∃ ran, garbledRun a farFetched 100 = .ok ran ∧
        ∃ p ∈ ran.state.logPositions, ran.state.position < p := by
  have hruns : (analysisOf calls).toOption.any (fun a =>
      decide ((garbledRun a capReaders 1).map Ran.result ≠
        (garbledRun a capReaders 2).map Ran.result) &&
      (garbledRun a farFetched 100).toOption.any fun ran =>
        ran.state.logPositions.any (ran.state.position < ·)) = true := by
    decide +kernel
  obtain ⟨a, ha, hruns⟩ := exists_ok_of_any hruns
  obtain ⟨hdiffer, hruns⟩ := Bool.and_eq_true_iff.1 hruns
  obtain ⟨ran, hran, hahead⟩ := exists_ok_of_any hruns
  obtain ⟨p, hmem, hp⟩ := List.any_eq_true.1 hahead
  have hcalls (rule : CallRule) : (callBodies rule).body.Everywhere fun p =>
      p.Tidy ∧ p.Forwards ∧ p.ReadsNoErrors :=
    callBodies_everywhere ⟨fun _ => ⟨trivial, trivial, trivial⟩, fun op next h =>
      ⟨(Program.traceless_use op next).tidy, Program.forwards_use.2 h, by cases op <;> trivial⟩⟩ rule
  refine ⟨a, ha, ⟨fun rule => ?_, of_decide_eq_true hdiffer⟩, fun rule => ?_, ran, hran, p, hmem,
    of_decide_eq_true hp⟩
  · exact ⟨⟨trivial, trivial, fun _ _ _ => rfl⟩, fun _ _ => ⟨trivial, trivial, trivial⟩⟩
  · cases rule with
    | call => exact ⟨trivial, trivial, trivial⟩
    | stmts | stmt | args => exact hcalls _

end Sample

end Descent
