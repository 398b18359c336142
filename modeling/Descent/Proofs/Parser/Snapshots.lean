import Descent.Proofs.Parser.CallContract

/-!
# Going back to a snapshot

A snapshot is three numbers, and going back to it drops what has come since. So it brings back the
frames and the errors of its state exactly as long as these are still there, below or in front of
all others (`State.restore_frames_iff`, `State.restore_errors_iff`).

`Session` is what can be done with a parse after a snapshot, deed by deed: operations, ways back to
places that the session has come through, taking errors away, and going on inside of a rule that was
called. The frames stay where they are if no rule body goes back out of its own frame
(`Operation.StaysIn`), and the errors do if nobody takes them away (`Operation.KeepsErrors`). Each is
a law of states; all that a session comes through lies deeper than its start (`Session.deepens`), so
that it is harmless to go back there.
-/

namespace Descent

/-! ## Sessions -/

/-- Something that is done with a parse. -/
inductive Deed (ι V : Type) : Type 1
  | used {β : Type} (op : Operation ι V β)
  | wentBack (place : Snapshot)
  | tookErrors
  | marked (name : String)
  /-- On inside of a rule that was called, before it has ended. -/
  | called (frame : Frame)
  /-- On inside of a trial. -/
  | tried

/-- What is done in `u` comes through that state, and through all those inside of an operation in which
a rule body can take a snapshot. -/
inductive Deed.Through {ι V : Type} (e : Setting) (book : Book ι V) (fuel : Nat) :
    Deed ι V → State → State → Prop
  | before {deed : Deed ι V} {u : State} : Through e book fuel deed u u
  | inside {β : Type} {op : Operation ι V β} {rule : ι} {u t : State}
      {x : Program ι V V × State} (h : op.Inside e book fuel u rule t x) :
      Through e book fuel (.used op) u x.2

/-- What is done from a state on, newest first and each with the state in which it is done, and the
state that has come of it. -/
inductive Session {ι V : Type} (e : Setting) (book : Book ι V) (fuel : Nat) (s : State) :
    List (State × Deed ι V) → State → Prop
  | start : Session e book fuel s [] s
  | used {β : Type} {op : Operation ι V β} {ran : Ran β} (h : Session e book fuel s deeds t)
      (hrun : op.run e (Program.calleeOf e book fuel) t = .ok ran) :
      Session e book fuel s ((t, .used op) :: deeds) ran.state
  /-- Back to a place that the session has come through, be it in a rule body. -/
  | wentBack {deed : Deed ι V} {u v : State} (h : Session e book fuel s deeds t)
      (hdone : (u, deed) ∈ deeds) (hthrough : deed.Through e book fuel u v) :
      Session e book fuel s ((t, .wentBack v.snapshot) :: deeds) (t.restore v.snapshot)
  | tookErrors (h : Session e book fuel s deeds t) :
      Session e book fuel s ((t, .tookErrors) :: deeds) { t with errors := [] }
  | marked (h : Session e book fuel s deeds t) (name : String) :
      Session e book fuel s ((t, .marked name) :: deeds) (t.mark name)
  | called (h : Session e book fuel s deeds t) (frame : Frame) :
      Session e book fuel s ((t, .called frame) :: deeds) (t.push frame)
  | tried (h : Session e book fuel s deeds t) :
      Session e book fuel s ((t, .tried) :: deeds) t.onTrial

variable {β ι V : Type} {e : Setting} {book : Book ι V} {fuel : Nat} {s t : State}

/-! ## What a snapshot needs -/

namespace State

theorem restore_frames_iff :
    (t.restore s.snapshot).frames = s.frames ↔ s.frames <:+ t.frames := by
  rw [List.suffix_iff_eq_drop, eq_comm]
  rfl

theorem restore_errors_iff :
    (t.restore s.snapshot).errors = s.errors ↔ s.errors <+: t.errors := by
  rw [List.prefix_iff_eq_take, eq_comm]
  rfl

/-- Frames stay below if the parse goes back to a place that has at least as many. -/
theorem suffix_restore {place : Snapshot} {frames : List Frame} (h : frames <:+ t.frames)
    (hplace : frames.length ≤ place.frameCount) : frames <:+ (t.restore place).frames := by
  have hlength := h.length_le
  apply List.suffix_of_suffix_length_le h (List.drop_suffix _ _)
  rw [List.length_drop]
  omega

/-- Errors stay in front if the parse goes back to a place that has at least as many. -/
theorem isPrefix_restore {place : Snapshot} {errors : List ParseError} (h : errors <+: t.errors)
    (hplace : errors.length ≤ place.errorCount) : errors <+: (t.restore place).errors := by
  have hlength := h.length_le
  apply List.prefix_of_prefix_length_le h (List.take_prefix _ _)
  rw [List.length_take]
  omega

end State

/-- If these errors were the first ones recorded, they still are. -/
def LogStays (errors : List ParseError) (s t : State) : Prop :=
  errors <+: s.errors → errors <+: t.errors

theorem logStays_law (e : Setting) (errors : List ParseError) : StateLaw e (LogStays errors) where
  refl _ := id
  trans h h' hs := h' (h hs)
  moved _ _ := id
  mended {s error position} _ hs := by
    rw [Setting.recordError_eq]
    dsimp only
    split
    · exact hs.trans (List.prefix_append _ _)
    · exact hs
  frame h := h
  -- a trial goes back to its own start, which had these errors
  trial h hs := State.isPrefix_restore (h hs) hs.length_le

namespace Operation

variable {op : Operation ι V β}

/-- As long as there are so many errors, no body that runs inside of the operation goes back to a
place with fewer, and none takes errors away. -/
structure KeepsErrors (e : Setting) (book : Book ι V) (fuel : Nat) (op : Operation ι V β) (s : State)
    (count : Nat) : Prop where
  takesNone : ∀ ⦃rule t next u⦄, ¬ op.Inside e book fuel s rule t (.takeErrors next, u)
  restores : ∀ ⦃rule t place next u⦄, op.Inside e book fuel s rule t (.restore place next, u) →
    count ≤ u.errors.length → count ≤ place.errorCount

/-- Programs over the operations of the parser keep all errors. -/
theorem keepsErrors_of_tidy (hb : ∀ rule, (book rule).body.Everywhere Program.Tidy)
    (op : Operation ι V β) (s : State) (count : Nat) : op.KeepsErrors e book fuel s count :=
  ⟨fun _ _ _ _ hinside => hinside.everywhere hb, fun _ _ _ _ _ hinside =>
    (hinside.everywhere hb).elim⟩

theorem KeepsErrors.ownSteps {errors : List ParseError}
    (h : op.KeepsErrors e book fuel s errors.length) :
    op.OwnSteps (LogStays errors) e book fuel s := by
  intro rule t q u hinside _
  cases q with
  | takeErrors next => exact (h.takesNone hinside).elim
  | mark => exact id
  | restore place next =>
    intro hu
    exact State.isPrefix_restore hu (h.restores hinside hu.length_le)
  | _ => trivial

end Operation

/-! ## Sessions keep what is there -/

/-- The bodies that are run by what is done in `u` go along a law, and taking errors away leaves the
state deeper than `s`. -/
def Deed.Harmless (R S : State → State → Prop) (e : Setting) (book : Book ι V) (fuel : Nat)
    (s u : State) : Deed ι V → Prop
  | .used op => op.OwnSteps R e book fuel u
  | .tookErrors => S s u → S s { u with errors := [] }
  | _ => True

variable {R S : State → State → Prop} {deeds : List (State × Deed ι V)}

theorem Deed.Through.deepens {deed : Deed ι V} {u v : State} (law : StateLaw e R)
    (deep : Deepens R S) (hdeed : deed.Harmless R S e book fuel s u) (hu : S s u)
    (h : deed.Through e book fuel u v) : S s v := by
  cases h with
  | before => exact hu
  | inside hinside => exact deep.trans hu (deep.inside law hdeed hinside)

/-- If all that is done is harmless, then what is reached lies deeper than the start, and so does all
that was done on the way. -/
theorem Session.deepens (law : StateLaw e R) (deep : Deepens R S) (hrefl : S s s)
    (hmark : ∀ u name, S s u → S s (u.mark name))
    (hback : ∀ u v, S s u → S s v → S s (u.restore v.snapshot))
    (h : Session e book fuel s deeds t)
    (hdeeds : ∀ d ∈ deeds, d.2.Harmless R S e book fuel s d.1) :
    S s t ∧ ∀ d ∈ deeds, S s d.1 := by
  induction h with
  | start => exact ⟨hrefl, List.forall_mem_nil _⟩
  | used _ hrun ih =>
    obtain ⟨hdeed, hdeeds⟩ := List.forall_mem_cons.1 hdeeds
    obtain ⟨ht, hearlier⟩ := ih hdeeds
    have hreached := deep.trans ht (deep.of (law.run_along hdeed hrun))
    exact ⟨hreached, List.forall_mem_cons.2 ⟨ht, hearlier⟩⟩
  | wentBack _ hdone hthrough ih =>
    obtain ⟨-, hdeeds⟩ := List.forall_mem_cons.1 hdeeds
    obtain ⟨ht, hearlier⟩ := ih hdeeds
    have hplace := hthrough.deepens law deep (hdeeds _ hdone) (hearlier _ hdone)
    exact ⟨hback _ _ ht hplace, List.forall_mem_cons.2 ⟨ht, hearlier⟩⟩
  | tookErrors _ ih =>
    obtain ⟨hdeed, hdeeds⟩ := List.forall_mem_cons.1 hdeeds
    obtain ⟨ht, hearlier⟩ := ih hdeeds
    exact ⟨hdeed ht, List.forall_mem_cons.2 ⟨ht, hearlier⟩⟩
  | marked _ name ih =>
    obtain ⟨ht, hearlier⟩ := ih (List.forall_mem_cons.1 hdeeds).2
    exact ⟨hmark _ name ht, List.forall_mem_cons.2 ⟨ht, hearlier⟩⟩
  | called _ frame ih =>
    obtain ⟨ht, hearlier⟩ := ih (List.forall_mem_cons.1 hdeeds).2
    exact ⟨deep.trans ht (deep.push _ frame), List.forall_mem_cons.2 ⟨ht, hearlier⟩⟩
  | tried _ ih =>
    obtain ⟨ht, hearlier⟩ := ih (List.forall_mem_cons.1 hdeeds).2
    exact ⟨deep.trans ht (deep.onTrial _), List.forall_mem_cons.2 ⟨ht, hearlier⟩⟩

/-- In a session whose operations stay in their frames, the frames of the start stay below. -/
theorem Session.frames_suffix (h : Session e book fuel s deeds t)
    (hstays : ∀ (β : Type) (op : Operation ι V β) u, (u, .used op) ∈ deeds →
      op.StaysIn e book fuel u) : s.frames <:+ t.frames := by
  have deep : Deepens Balanced fun s t => s.frames <:+ t.frames :=
    { of := fun h => h.frames ▸ List.suffix_rfl
      trans := List.IsSuffix.trans
      push := fun _ _ => List.suffix_cons _ _
      onTrial := fun _ => List.suffix_rfl }
  refine (h.deepens (balanced_law e) deep List.suffix_rfl (fun _ _ => id) ?_ ?_).1
  · exact fun u v hu hv => State.suffix_restore hu hv.length_le
  · rintro ⟨u, deed⟩ hmem
    cases deed with
    | used op => exact (hstays _ op u hmem).ownSteps
    | tookErrors => exact id
    | _ => trivial

/-- In a session whose operations keep the errors, and in which none are taken away, the errors of
the start stay in front. -/
theorem Session.errors_prefix (h : Session e book fuel s deeds t)
    (htaken : ∀ u, (u, .tookErrors) ∉ deeds)
    (hkeeps : ∀ (β : Type) (op : Operation ι V β) u, (u, .used op) ∈ deeds →
      op.KeepsErrors e book fuel u s.errors.length) : s.errors <+: t.errors := by
  have deep : Deepens (LogStays s.errors) (LogStays s.errors) :=
    { of := id
      trans := (logStays_law e s.errors).trans
      push := fun _ _ => id
      onTrial := fun _ => id }
  refine (h.deepens (logStays_law e s.errors) deep id (fun _ _ => id) ?_ ?_).1 List.prefix_rfl
  · exact fun u v hu hv hs => State.isPrefix_restore (hu hs) (hv hs).length_le
  · rintro ⟨u, deed⟩ hmem
    cases deed with
    | used op => exact (hkeeps _ op u hmem).ownSteps
    | tookErrors => exact (htaken u hmem).elim
    | _ => trivial

/-- Going back to a snapshot brings back the position. It brings back the frames, if there were none
or if in what was used since no rule body goes back out of its own frame; and the errors, if there
were none or if none have been taken away since. -/
theorem Setting.snapshot_restored (e : Setting) (book : Book ι V) (fuel : Nat) {s t : State}
    {deeds : List (State × Deed ι V)} (h : Session e book fuel s deeds t) :
    (t.restore s.snapshot).position = s.position ∧
    ((s.frames = [] ∨ ∀ (β : Type) (op : Operation ι V β) u, (u, .used op) ∈ deeds →
        op.StaysIn e book fuel u) →
      (t.restore s.snapshot).frames = s.frames) ∧
    ((s.errors = [] ∨ (∀ u, (u, .tookErrors) ∉ deeds) ∧
        ∀ (β : Type) (op : Operation ι V β) u, (u, .used op) ∈ deeds →
          op.KeepsErrors e book fuel u s.errors.length) →
      (t.restore s.snapshot).errors = s.errors) := by
  refine ⟨rfl, fun hframes => ?_, fun herrors => ?_⟩
  · rw [State.restore_frames_iff]
    rcases hframes with hnil | hstays
    · exact hnil ▸ List.nil_suffix
    · exact h.frames_suffix hstays
  · rw [State.restore_errors_iff]
    rcases herrors with hnil | ⟨htaken, hkeeps⟩
    · exact hnil ▸ List.nil_prefix
    · exact h.errors_prefix htaken hkeeps

/-! ## Sample sessions -/

namespace Sample

/-- Bodies in which a call goes back to the place that its arguments return, which is where they
began. -/
def returning : Book CallRule Snapshot
  | .stmts => { name := "stmts", recovery := default, body := .subrule .stmt 1 .done }
  | .stmt => { name := "stmt", recovery := default, body := .subrule .call 1 .done }
  | .call =>
    { name := "call"
      recovery := default
      body := .consume 0 1 fun _ => .consume 3 1 fun _ => .subrule .args 1 fun
        | .ok place => .restore place (.done (.ok place))
        | .error error => .done (.error error) }
  | .args =>
    { name := "args"
      recovery := default
      body := .inspect fun _ s => .consume 0 1 fun r => .done (r.map fun _ => s.snapshot) }

/-- Without recovery, the place that a call of the arguments returns has one frame more than there
are, and as many errors as there are afterwards. -/
theorem args_returns {e : Setting} (hoff : e.config.recovery = false) {fuel occurrence : Nat}
    {s t : State} {place : Snapshot}
    (h : (e.call (Program.calleeOf e returning fuel .args) occurrence).Ends s (.ok place) t) :
    place.frameCount = s.frames.length + 1 ∧ place.errorCount = t.errors.length := by
  have hquiet t : e.recovers t = false := by simp [Setting.recovers, hoff]
  unfold Setting.call Setting.subrule at h
  split at h
  · cases (Action.ends_raise.1 h).1
  next id _ =>
    obtain ⟨t₁, hcalled, rfl⟩ := Setting.ends_inFrame.1 h
    have hbody := Setting.ends_of_ends_orResync (fun _ t _ => hquiet t) hcalled
    cases fuel with
    | zero => cases Action.not_ends_halt hbody
    | succ fuel =>
      let inner := s.push { rule := id, occurrence }
      have hconsume : ((e.consume 0 1).andThen fun r =>
          Action.ofResult (r.map fun _ => inner.snapshot)).Ends inner (.ok place) t₁ :=
        Program.ends_enter.1 hbody
      obtain ⟨r, t₂, hconsumed, hdone⟩ := Action.ends_andThen.1 hconsume
      obtain ⟨hplace, rfl⟩ := Action.ends_ofResult.1 hdone
      cases htoken : e.tokenOf? inner.position 0 with
      | none =>
        obtain ⟨rfl, -⟩ := (Setting.ends_consume_of_quiet htoken (hquiet inner)).1 hconsumed
        cases hplace
      | some token =>
        obtain ⟨rfl, rfl⟩ := (Setting.ends_consume_of_some htoken).1 hconsumed
        cases hplace
        exact ⟨rfl, rfl⟩

/-- Without recovery, no body goes back below the frames that it was started with, or to a place with
fewer errors than there are. -/
theorem returning_inside {e : Setting} (hoff : e.config.recovery = false) {fuel : Nat} {β : Type}
    {op : Operation CallRule Snapshot β} {rule : CallRule} {s t u : State} {place : Snapshot}
    {next : Program CallRule Snapshot Snapshot}
    (h : op.Inside e returning fuel s rule t (.restore place next, u)) :
    t.frames.length ≤ place.frameCount ∧ u.errors.length ≤ place.errorCount := by
  obtain ⟨_, _, _, _, -, -, hgoes⟩ := h
  have hconsume kind {s : State} {ran : Ran Token} (hrun : e.consume kind 1 s = .ok ran) :
      Balanced s ran.state := (balanced_law e).runLaw.consume kind 1 hrun
  cases rule with
  | stmts | stmt =>
    refine (hgoes.everywhere (P := Program.Onward) ?_).here.elim
    exact ⟨trivial, fun _ => trivial⟩
  | args =>
    refine (hgoes.everywhere (P := Program.Onward) ?_).here.elim
    exact ⟨trivial, fun _ _ => ⟨trivial, fun _ => trivial⟩⟩
  | call =>
    obtain hself | ⟨named, hnamed, hgoes⟩ := Program.GoesOn.of_use (.consume 0 1) hgoes
    · cases hself
    obtain hself | ⟨opened, hopened, hgoes⟩ := Program.GoesOn.of_use (.consume 3 1) hgoes
    · cases hself
    obtain hself | ⟨⟨result, v, events⟩, hcalled, hgoes⟩ :=
      Program.GoesOn.of_use (.subrule CallRule.args 1) hgoes
    · cases hself
    cases result with
    | error error => cases hgoes.of_done
    | ok returned =>
      obtain hself | hgoes := hgoes.of_restore
      · cases hself
        obtain ⟨hframes, herrors⟩ := args_returns hoff ⟨events, hcalled⟩
        have hdepth : opened.state.frames = t.frames :=
          (hconsume 3 hopened).frames.trans (hconsume 0 hnamed).frames
        rw [hframes, herrors, hdepth]
        exact ⟨Nat.le_succ _, Nat.le_refl _⟩
      · cases hgoes.of_done

theorem returning_takesNone (rule : CallRule) :
    (returning rule).body.Everywhere fun p => ∀ next, p ≠ .takeErrors next := by
  cases rule with
  | stmts | stmt => exact ⟨nofun, fun _ => nofun⟩
  | args => exact ⟨nofun, fun _ _ => ⟨nofun, fun _ => nofun⟩⟩
  | call =>
    refine ⟨nofun, fun _ => ⟨nofun, fun _ => ⟨nofun, fun r => ?_⟩⟩⟩
    cases r with
    | ok place => exact ⟨nofun, nofun⟩
    | error error => exact nofun

/-- The state in which the call of the sample is made, with an error behind it. -/
def beforeCallAgain : State := { beforeCall with errors := [.noViable "stmt" 0 "Ident"] }

/-- A call that has gone back to where its arguments began is followed by a token, and by the way back
to the end of the call. From there the snapshot brings back all that there was before the call. -/
theorem returning_call_restored : ∃ a, analysisOf calls = .ok a ∧ ∃ called taken,
    (orderly a).call (Program.calleeOf (orderly a) returning 2 .call) 1 beforeCallAgain =
      .ok called ∧ called.state.position = 2 ∧
    (orderly a).consume 0 1 called.state = .ok taken ∧ taken.state.position = 3 ∧
    let t := taken.state.restore called.state.snapshot
    t.position = 2 ∧ (t.restore beforeCallAgain.snapshot).position = beforeCallAgain.position ∧
    (t.restore beforeCallAgain.snapshot).frames = beforeCallAgain.frames ∧
    (t.restore beforeCallAgain.snapshot).errors = beforeCallAgain.errors := by
  have hruns : (analysisOf calls).toOption.any (fun a =>
      ((orderly a).call (Program.calleeOf (orderly a) returning 2 .call) 1
        beforeCallAgain).toOption.any fun called => called.state.position == 2 &&
          ((orderly a).consume 0 1 called.state).toOption.any (·.state.position == 3)) = true := by
    decide +kernel
  obtain ⟨a, ha, hruns⟩ := exists_ok_of_any hruns
  obtain ⟨called, hcalled, hruns⟩ := exists_ok_of_any hruns
  obtain ⟨htwo, hruns⟩ := Bool.and_eq_true_iff.1 hruns
  obtain ⟨taken, htaken, hthree⟩ := exists_ok_of_any hruns
  have hcall : (Operation.subrule .call 1 : Operation CallRule Snapshot Snapshot).run (orderly a)
      (Program.calleeOf (orderly a) returning 2) beforeCallAgain = .ok called := hcalled
  have hconsume : (Operation.consume 0 1 : Operation CallRule Snapshot Token).run (orderly a)
      (Program.calleeOf (orderly a) returning 2) called.state = .ok taken := htaken
  obtain ⟨hposition, hframes, herrors⟩ := Setting.snapshot_restored (orderly a) returning 2
    (.wentBack (.used (.used .start hcall) hconsume) (.head _) .before)
  refine ⟨a, ha, called, taken, hcalled, eq_of_beq htwo, htaken, eq_of_beq hthree, eq_of_beq htwo,
    hposition, hframes (.inr fun _ _ _ _ _ _ _ _ _ h => (returning_inside rfl h).1),
    herrors (.inr ⟨by simp, fun _ _ _ _ => ⟨?_, ?_⟩⟩)⟩
  · exact fun _ _ _ _ h => h.everywhere returning_takesNone _ rfl
  · exact fun _ _ _ _ _ h hcount => Nat.le_trans hcount (returning_inside rfl h).2

/-- Two names, each with a semicolon after it, parsed with recovery. -/
def namesOnly (a : Analysis) : Setting where
  analysis := a
  tokens := #[{ kind := 0, text := "f", offset := 0 }, { kind := 2, text := ";", offset := 1 },
    { kind := 0, text := "g", offset := 3 }, { kind := 2, text := ";", offset := 4 }]
  config := { recovery := true }

/-- The start of the rule of statements. -/
def inStmts : State where
  frames := [.root 0]

/-- The bodies of `callBodies`, but a statement goes back to a place that was put aside outside of
it. -/
def leaving : Book CallRule Nat
  | .stmt =>
    { callBodies .stmt with
      body := .inspect fun _ s =>
        match s.mark? "outside" with
        | some place => .restore place (.done (.ok 0))
        | none => .done (.ok 0) }
  | rule => callBodies rule

/-- A snapshot does not bring back everything. When errors are taken away after it, they stay away,
and an error that is recorded then takes their place. And when a rule body goes back to a later
snapshot that was taken outside of it, it gives up its own frame, so that a frame of the first
snapshot is gone once the body has ended. -/
theorem snapshot_not_restored : ∃ a, analysisOf calls = .ok a ∧
    (∃ first t deeds, (namesOnly a).consume 2 1 {} = .ok first ∧
      Session (namesOnly a) callBodies 1 first.state deeds t ∧
      (t.restore first.state.snapshot).errors ≠ first.state.errors) ∧
    ∃ t deeds, Session (namesOnly a) leaving 1 inStmts deeds t ∧
      (∀ u, (u, .tookErrors) ∉ deeds) ∧
      (t.restore inStmts.snapshot).frames ≠ inStmts.frames := by
  have hruns : (analysisOf calls).toOption.any (fun a =>
      ((namesOnly a).consume 2 1 {}).toOption.any (fun first =>
        ((namesOnly a).consume 2 1 { first.state with errors := [] }).toOption.any fun second =>
          decide ((second.state.restore first.state.snapshot).errors ≠ first.state.errors)) &&
      ((namesOnly a).call (Program.calleeOf (namesOnly a) leaving 1 .stmt) 1
        (inStmts.mark "outside")).toOption.any fun ran =>
          decide ((ran.state.restore inStmts.snapshot).frames ≠ inStmts.frames)) = true := by
    decide +kernel
  obtain ⟨a, ha, hruns⟩ := exists_ok_of_any hruns
  obtain ⟨htaken, hleft⟩ := Bool.and_eq_true_iff.1 hruns
  refine ⟨a, ha, ?_, ?_⟩
  · obtain ⟨first, hfirst, hruns⟩ := exists_ok_of_any htaken
    obtain ⟨second, hsecond, hdiffer⟩ := exists_ok_of_any hruns
    have hrun : (Operation.consume 2 1 : Operation CallRule Nat Token).run (namesOnly a)
        (Program.calleeOf (namesOnly a) callBodies 1) { first.state with errors := [] } =
          .ok second := hsecond
    exact ⟨first, _, _, hfirst, .used (.tookErrors .start) hrun, of_decide_eq_true hdiffer⟩
  · obtain ⟨ran, hran, hdiffer⟩ := exists_ok_of_any hleft
    have hrun : (Operation.subrule .stmt 1 : Operation CallRule Nat Nat).run (namesOnly a)
        (Program.calleeOf (namesOnly a) leaving 1) (inStmts.mark "outside") = .ok ran := hran
    exact ⟨_, _, .used (.marked .start "outside") hrun, by simp, of_decide_eq_true hdiffer⟩

end Sample

end Descent
