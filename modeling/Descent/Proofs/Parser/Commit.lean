import Descent.Proofs.Parser.Repetition

/-!
# A commit repeats its trial

A trial runs a rule without a caller and without recovery; the commit calls the rule from the
present one, perhaps with recovery. If bodies pass errors on and see no more of the state than the
position and the current rule, an accepted trial foretells its commit: same value, same end, no
error recorded (`Setting.commit_repeats_trial`). Inner trials and inner commits of the bodies repeat
along with them.
-/

namespace Descent

variable {α ι V : Type} {s s' : State}

/-- A body cannot tell the second state from the first one, in which a trial is running. -/
def Rehearses (s s' : State) : Prop :=
  0 < s.speculation ∧ s'.position = s.position ∧ s'.currentRule? = s.currentRule?

theorem rehearses_likeness (e : Setting) : Likeness e e Rehearses where
  analysis := rfl
  tokens := rfl
  quiet h := by simp [Setting.recovers, State.isSpeculating, h.1]
  position h := h.2.1
  currentRule? h := h.2.2
  kept h hk hk' hpos := by
    refine ⟨by simpa [hk.speculation] using h.1, hpos, ?_⟩
    simpa [State.currentRule?, hk.frames, hk'.frames] using h.2.2
  push h frame := ⟨h.1, h.2.1, rfl⟩
  trial h := ⟨Nat.succ_pos _, h.2.1, h.2.2⟩

namespace Program

/-- Of the state, the program reads at most the position and the current rule. -/
def ReadsPlace : Program ι V α → Prop
  | .inspect next => ∀ e ⦃s s'⦄, s'.position = s.position → s'.currentRule? = s.currentRule? →
    next e s = next e s'
  | _ => True

/-- A program that passes errors on and does not look beyond its place. -/
structure Plain (p : Program ι V α) : Prop where
  tidy : p.Tidy
  forwards : p.Forwards
  reads : p.ReadsPlace

theorem Plain.repeatable {p : Program ι V α} (h : p.Plain) (e : Setting) :
    p.Repeatable Rehearses e e where
  tidy := h.tidy
  reads := by
    cases p with
    | inspect next => exact fun s s' hs => h.reads e hs.2.1 hs.2.2
    | _ => trivial
  forwards _ _ _ _ := h.forwards

end Program

namespace Setting

variable {e : Setting} {book : Book ι V}

/-- What a rule without a caller gives in a trial, a call of the rule gives from the same place. -/
theorem call_repeats_invoke (hb : ∀ rule, (book rule).body.Everywhere Program.Plain) {fuel : Nat}
    {rule : ι} (occurrence : Nat) {t : State} {value : V} (hs : 0 < s.speculation)
    (hpos : s'.position = s.position)
    (h : (e.invoke (book rule).name (Program.enter e book fuel rule)).Ends s (.ok value) t) :
    ∃ t', (e.call (Program.calleeOf e book fuel rule) occurrence).Ends s' (.ok value) t' ∧
      t'.position = t.position ∧ s'.Kept t' := by
  obtain ⟨id, t₁, hid, hbody, rfl⟩ := exists_of_ends_invoke h
  -- the body runs in a frame without a caller, and then in one with; it sees the same rule in both
  have hrepeats := Program.enter_repeats (rehearses_likeness e)
    (fun rule => (hb rule).mono fun p hp => hp.repeatable e) fuel rule
  have halike : Rehearses (s.push (.root id)) (s'.push { rule := id, occurrence }) :=
    ⟨hs, hpos, rfl⟩
  obtain ⟨t', hbody', hend, hkept⟩ := (hrepeats halike hbody).2 fun _ => ⟨value, rfl⟩
  have hcall : (e.call (Program.calleeOf e book fuel rule) occurrence).Ends s' (.ok value)
      t'.pop := by
    unfold call subrule
    simp only [Program.calleeOf, Program.callee, hid]
    exact ends_inFrame.2 ⟨t', ends_orResync hbody' fun _ => ⟨value, rfl⟩, rfl⟩
  exact ⟨t'.pop, hcall, hend, hkept.pop⟩

/-- If a trial is accepted, the real call gives the very value that was accepted. It ends where the
trial ended, records no error and leaves the active rules as they were, with and without recovery;
the speculative call is committed to that value. -/
theorem commit_repeats_trial (e : Setting) (book : Book ι V)
    (hb : ∀ rule, (book rule).body.Everywhere Program.Plain) (fuel : Nat) (rule : ι)
    (occurrence : Nat) (accept : V → Bool) (s : State) (tried : Ran (Option Rejection))
    (ht : e.trial (Program.calleeOf e book fuel rule) accept s = .ok tried)
    (hr : tried.result = .ok none) :
    ∃ value inner real ran,
      e.invoke (book rule).name (Program.enter e book fuel rule)
        { s with speculation := s.speculation + 1 } = .ok inner ∧
      inner.result = .ok value ∧ accept value = true ∧
      e.call (Program.calleeOf e book fuel rule) occurrence tried.state = .ok real ∧
      real.result = .ok value ∧ real.state.position = inner.state.position ∧
      s.Kept real.state ∧
      e.speculate (Program.calleeOf e book fuel rule) occurrence accept s = .ok ran ∧
      ran.result = .ok (.committed value) ∧ ran.state = real.state := by
  have htrial := Action.ends_of_eq_ok ht
  have hkeeps : e.Keeps (Program.calleeOf e book fuel rule).body :=
    Program.enter_keeps (fun rule => (hb rule).mono fun p hp => hp.tidy) fuel rule
  have hback : s.Unmoved tried.state := trial_unmoved hkeeps htrial
  obtain ⟨r₁, t₁, hinner, hv, -⟩ := ends_trial.1 htrial
  obtain ⟨value, rfl, haccept⟩ := verdict_eq_none (hv.symm.trans hr)
  have hplace : tried.state.position = { s with speculation := s.speculation + 1 }.position :=
    hback.position
  obtain ⟨t', hcall, hpos, hkept⟩ :=
    call_repeats_invoke hb occurrence (Nat.succ_pos _) hplace hinner
  have hspec : (e.speculate (Program.calleeOf e book fuel rule) occurrence accept).Ends s
      (.ok (.committed value)) t' :=
    ends_speculate.2 (.inr (.inl ⟨_, _, hr ▸ htrial, hcall, rfl⟩))
  obtain ⟨inner, hfirst, hvalue, rfl⟩ := hinner.exists_ran
  obtain ⟨real, hreal, hvalue', rfl⟩ := hcall.exists_ran
  obtain ⟨ran, hran, hcommitted, hsame⟩ := hspec.exists_ran
  exact ⟨value, inner, real, ran, hfirst, hvalue, haccept, hreal, hvalue', hpos,
    hback.toKept.trans hkept, hran, hcommitted, hsame⟩

end Setting

/-! ## A sample commit -/

namespace Sample

/-- What comes after the first name of a path: another one if a dot is next. -/
def pathRest : Bool → Program PathRule Nat Nat
  | true => .consume 1 1 fun
    | .error error => .done (.error error)
    | .ok _ => .consume 0 2 fun r => .done (r.map fun _ => 2)
  | false => .done (.ok 1)

/-- Bodies that look ahead and pass errors on. The choice between the marks is gated. -/
def strict : Book PathRule Nat
  | .path =>
    { name := "path"
      recovery := 0
      body := .consume 0 1 fun
        | .error error => .done (.error error)
        | .ok _ => .inspect fun e s => pathRest ((e.cursor s).kind? == some 1) }
  | .assign => marked "assign" 2
  | .defaulted => marked "defaulted" 3
  | .stmt =>
    { name := "stmt"
      recovery := 0
      body := .choose
        [{ rule := .assign, occurrence := 1, gate := some fun _ => true },
         { rule := .defaulted, occurrence := 1, gate := none }] .done }

theorem pathRest_everywhere {P : Program PathRule Nat Nat → Prop} (hP : OfForwarding P)
    (dot : Bool) : (pathRest dot).Everywhere P := by
  cases dot with
  | false => exact hP.done _
  | true =>
    refine ⟨hP.use (.consume 1 1) _ fun _ => rfl, fun r => ?_⟩
    cases r with
    | error error => exact hP.done _
    | ok token => exact ⟨hP.use (.consume 0 2) _ fun _ => rfl, fun _ => hP.done _⟩

theorem strict_everywhere {P : Program PathRule Nat Nat → Prop} (hP : OfForwarding P)
    (hinspect : ∀ next, (∀ e ⦃s s' : State⦄, s'.position = s.position → next e s = next e s') →
      P (.inspect next)) (rule : PathRule) : (strict rule).body.Everywhere P := by
  cases rule with
  | path =>
    refine ⟨hP.use (.consume 0 1) _ fun _ => rfl, fun r => ?_⟩
    cases r with
    | error error => exact hP.done _
    | ok token =>
      refine ⟨hinspect _ fun e s s' hpos => ?_, fun e s => pathRest_everywhere hP _⟩
      simp [Setting.cursor, hpos]
  | assign | defaulted => exact marked_everywhere hP _ _
  | stmt => exact ⟨hP.choose _, fun _ => hP.done _⟩

theorem plain_ofForwarding {ι : Type} :
    OfForwarding (Program.Plain : Program ι Nat Nat → Prop) where
  done _ := ⟨trivial, trivial, trivial⟩
  use op next h :=
    ⟨(Program.traceless_use op next).tidy, Program.forwards_use.2 h, by cases op <;> trivial⟩

/-- The trial of a statement tries one mark in vain and commits to the other. The real call does so
again, and has nothing to recover from. -/
theorem strict_stmt_committed : ∃ a, analysisOf paths = .ok a ∧ ∃ tried ran,
    (dotted a).trial (Program.calleeOf (dotted a) strict 3 .stmt) (· == 2) underway = .ok tried ∧
    tried.result = .ok none ∧
    (dotted a).speculate (Program.calleeOf (dotted a) strict 3 .stmt) 1 (· == 2) underway =
      .ok ran ∧
    ran.result = .ok (.committed 2) ∧ underway.Kept ran.state := by
  have hruns : (analysisOf paths).toOption.any (fun a =>
      ((dotted a).trial (Program.calleeOf (dotted a) strict 3 .stmt) (· == 2) underway).toOption.any
        fun tried => tried.result.toOption.any (·.isNone)) = true := by decide +kernel
  obtain ⟨a, ha, hruns⟩ := exists_ok_of_any hruns
  obtain ⟨tried, htried, hresult⟩ := exists_ok_of_any hruns
  obtain ⟨verdict, hresult, hnone⟩ := exists_ok_of_any hresult
  obtain rfl := Option.isNone_iff_eq_none.1 hnone
  have hplain := strict_everywhere plain_ofForwarding fun next h =>
    ⟨trivial, trivial, fun e _ _ hpos _ => h e hpos⟩
  obtain ⟨value, inner, real, ran, -, -, hvalue, -, -, -, hkept, hran, hcommitted, hstate⟩ :=
    Setting.commit_repeats_trial (dotted a) strict hplain 3 .stmt 1 (· == 2) underway tried htried
      hresult
  obtain rfl : value = 2 := by simpa using hvalue
  exact ⟨a, ha, tried, ran, htried, hresult, hran, hcommitted, hstate ▸ hkept⟩

end Sample

end Descent
