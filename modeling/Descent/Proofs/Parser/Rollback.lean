import Descent.Proofs.Parser.Nesting
import Descent.Sample

/-!
# Trials leave no trace

A snapshot is three numbers, so going back to it is exact only if a trial has left alone what lies
below them. `Setting.Steady` is the invariant of all runs that makes it so: the frames and the
number of running trials are those of the start, errors are only added, and none is added where
recovery does not apply. It is a law of states (`Setting.steady_law`), so every run of programs that
neither take the errors away nor go back by themselves keeps it, however deep its rules and trials
nest and whatever the bodies do with errors (`Program.enter_keeps`).
-/

namespace Descent

variable {α β ι V : Type} {e : Setting} {s t u : State}

namespace State

/-- What a parse has gathered is the same; the place may be another. -/
structure Kept (s t : State) : Prop where
  errors : t.errors = s.errors
  frames : t.frames = s.frames
  speculation : t.speculation = s.speculation

/-- The parse is where it was, with all that it had gathered. -/
structure Unmoved (s t : State) : Prop extends Kept s t where
  position : t.position = s.position

theorem Kept.refl (s : State) : s.Kept s := ⟨rfl, rfl, rfl⟩

theorem Kept.trans (h : s.Kept t) (h' : t.Kept u) : s.Kept u :=
  ⟨h'.errors.trans h.errors, h'.frames.trans h.frames, h'.speculation.trans h.speculation⟩

theorem Kept.pop {frame : Frame} (h : (s.push frame).Kept t) : s.Kept t.pop :=
  ⟨h.errors, congrArg List.tail h.frames, h.speculation⟩

/-- Going back from a trial is exact if the trial has kept what was gathered. -/
theorem Kept.unmoved_backFrom (h : s.onTrial.Kept t) : s.Unmoved (s.backFrom t) where
  errors := by simp [backFrom, restore, snapshot, h.errors, onTrial]
  frames := by simp [backFrom, restore, snapshot, h.frames, onTrial]
  speculation := by simp [backFrom, restore, h.speculation, onTrial]
  position := rfl

end State

namespace Setting

/-- What every run keeps: the frames and the running trials are the same, errors are only added, and
only where recovery applies. -/
structure Steady (e : Setting) (s t : State) : Prop where
  frames : t.frames = s.frames
  speculation : t.speculation = s.speculation
  errors : s.errors <+: t.errors
  quiet : e.recovers s = false → t.errors = s.errors

namespace Steady

theorem of_kept (h : s.Kept t) : e.Steady s t :=
  ⟨h.frames, h.speculation, h.errors ▸ List.prefix_rfl, fun _ => h.errors⟩

theorem refl (e : Setting) (s : State) : e.Steady s s := of_kept (.refl s)

theorem recovers (h : e.Steady s t) : e.recovers t = e.recovers s := by
  simp [Setting.recovers, State.isSpeculating, h.speculation]

theorem trans (h : e.Steady s t) (h' : e.Steady t u) : e.Steady s u where
  frames := h'.frames.trans h.frames
  speculation := h'.speculation.trans h.speculation
  errors := h.errors.trans h'.errors
  quiet hq := (h'.quiet (h.recovers.trans hq)).trans (h.quiet hq)

theorem kept (h : e.Steady s t) (hq : e.recovers s = false) : s.Kept t :=
  ⟨h.quiet hq, h.frames, h.speculation⟩

end Steady

/-- An error is mended and recorded. -/
theorem Steady.mended {error : ParseError} {position : Nat} (h : e.recovers s = true) :
    e.Steady s (e.recordError error { s with position }) := by
  unfold recordError
  split
  · exact ⟨rfl, rfl, List.prefix_append .., by simp [h]⟩
  · exact .of_kept ⟨rfl, rfl, rfl⟩

/-- Recovery does not apply inside of a trial. -/
theorem recovers_onTrial (e : Setting) (s : State) : e.recovers s.onTrial = false := by
  simp [recovers, State.isSpeculating, State.onTrial]

theorem steady_law (e : Setting) : StateLaw e e.Steady where
  refl := .refl e
  trans := .trans
  moved _ _ := .of_kept ⟨rfl, rfl, rfl⟩
  mended := .mended
  frame h := ⟨congrArg List.tail h.frames, h.speculation, h.errors, h.quiet⟩
  trial h := .of_kept (h.kept (e.recovers_onTrial _)).unmoved_backFrom.toKept

/-- Wherever the action ends, what every run keeps has been kept. -/
def Keeps (e : Setting) (x : Action α) : Prop := x.Obeys (Leaves e.Steady)

theorem Keeps.steady {x : Action α} {r : Except ParseError α} (hx : e.Keeps x)
    (h : x.Ends s r t) : e.Steady s t := by
  obtain ⟨events, h⟩ := h
  exact hx h

/-- A trial of a rule whose body is steady ends where it began. -/
theorem trial_unmoved {callee : Callee V} {accept : V → Bool}
    {r : Except ParseError (Option Rejection)} (hb : e.Keeps callee.body)
    (h : (e.trial callee accept).Ends s r t) : s.Unmoved t := by
  obtain ⟨r₁, t₁, ⟨events, hi⟩, -, rfl⟩ := ends_trial.1 h
  have hinvoked : e.Steady s.onTrial t₁ := (steady_law e).runLaw.invoke (fun t _ => hb.obeysFrom t) hi
  exact (hinvoked.kept (e.recovers_onTrial s)).unmoved_backFrom

end Setting

theorem Operation.run_keeps {callee : ι → Callee V} (hb : ∀ rule, e.Keeps (callee rule).body)
    (op : Operation ι V β) : e.Keeps (op.run e callee) :=
  op.run_obeys (Setting.steady_law e).runLaw hb

/-- The body of a rule keeps what every run keeps, however deep the calls in it nest. -/
theorem Program.enter_keeps {book : Book ι V} (hb : ∀ rule, (book rule).body.Everywhere Tidy)
    (fuel : Nat) (rule : ι) : e.Keeps (enter e book fuel rule) :=
  (Setting.steady_law e).enter_obeys hb
    (fun _ s hp => hp.ownStep (fun _ _ => .of_kept ⟨rfl, rfl, rfl⟩) s) fuel rule

namespace Setting

/-- However rule bodies call, try and choose rules and whatever they do with errors: a gate leaves
the position, the errors, the active rules and the running trials as they were, and so does a
speculative call that is rolled back. -/
theorem rollback_total (e : Setting) (book : Book ι V)
    (hb : ∀ rule, (book rule).body.Everywhere Program.Tidy) (fuel : Nat) (rule : ι)
    (occurrence : Nat) (accept : V → Bool) (s : State) :
    (∀ ran, e.backtrack (Program.calleeOf e book fuel rule) accept s = .ok ran →
      s.Unmoved ran.state) ∧
    ∀ ran reason, e.speculate (Program.calleeOf e book fuel rule) occurrence accept s = .ok ran →
      ran.result = .ok (.rolledBack reason) → s.Unmoved ran.state := by
  have hk : e.Keeps (Program.calleeOf e book fuel rule).body := Program.enter_keeps hb fuel rule
  constructor
  · intro ran h
    obtain ⟨verdict, t₁, ht, hp⟩ | ⟨error, ht, -⟩ := Action.ends_bind.1 (Action.ends_of_eq_ok h)
    · rw [(Action.ends_pure.1 hp).2]
      exact trial_unmoved hk ht
    · exact trial_unmoved hk ht
  · intro ran reason h hr
    obtain ⟨why, ht, -⟩ | ⟨t₁, r₁, -, -, he⟩ | ⟨error, -, he⟩ :=
      ends_speculate.1 (Action.ends_of_eq_ok h)
    · exact trial_unmoved hk ht
    · rw [hr] at he
      cases r₁ <;> cases he
    · rw [hr] at he
      cases he

end Setting

/-! ## A sample parse -/

namespace Sample

/-- The rules of dotted paths before a mark. -/
inductive PathRule where
  | stmt | assign | defaulted | path

/-- A path before a mark. Its value is that of the path. -/
def marked (name : String) (mark : Terminal) : Handle PathRule Nat where
  name
  recovery := 0
  body := .subrule .path 1 fun
    | .error error => .done (.error error)
    | .ok length => .consume mark 1 fun r => .done (r.map fun _ => length)

/-- Bodies that try one token or one rule and make do with another if that fails. The value of a
path of at most two names is how many there are. -/
def lenient : Book PathRule Nat
  | .path =>
    { name := "path"
      recovery := 0
      body := .consume 0 1 fun
        | .error error => .done (.error error)
        | .ok _ => .consume 1 1 fun
          | .error _ => .done (.ok 1)
          | .ok _ => .consume 0 2 fun r => .done (r.map fun _ => 2) }
  | .assign => marked "assign" 2
  | .defaulted => marked "defaulted" 3
  | .stmt =>
    { name := "stmt"
      recovery := 0
      body := .backtrack .assign (fun _ => true) fun
        | .ok true => .subrule .assign 1 .done
        | _ => .subrule .defaulted 1 .done }

/-- The property holds of a program that ends, and of one that uses an operation and passes its error
on. -/
structure OfForwarding {ι : Type} (P : Program ι Nat Nat → Prop) : Prop where
  done (result : Except ParseError Nat) : P (.done result)
  use {β : Type} (op : Operation ι Nat β) (next : Except ParseError β → Program ι Nat Nat) :
    (∀ error, next (.error error) = .done (.error error)) → P (.use op next)

theorem OfForwarding.choose {ι : Type} {P : Program ι Nat Nat → Prop} (hP : OfForwarding P)
    (alternatives : List (Alternative ι Nat)) : P (.choose alternatives .done) :=
  hP.use (.choose alternatives) _ fun _ => rfl

theorem traceless_ofForwarding {ι : Type} :
    OfForwarding (Program.Traceless : Program ι Nat Nat → Prop) where
  done _ := trivial
  use op next _ := Program.traceless_use op next

theorem marked_everywhere {P : Program PathRule Nat Nat → Prop} (hP : OfForwarding P)
    (name : String) (mark : Terminal) : (marked name mark).body.Everywhere P := by
  refine ⟨hP.use (.subrule .path 1) _ fun _ => rfl, fun r => ?_⟩
  cases r with
  | error error => exact hP.done _
  | ok length => exact ⟨hP.use (.consume mark 1) _ fun _ => rfl, fun _ => hP.done _⟩

theorem lenient_everywhere {P : Program PathRule Nat Nat → Prop} (hdone : ∀ r, P (.done r))
    (huse : ∀ {β : Type} (op : Operation PathRule Nat β) next, P (.use op next))
    (rule : PathRule) : (lenient rule).body.Everywhere P := by
  cases rule with
  | path =>
    refine ⟨huse (.consume 0 1) _, fun r => ?_⟩
    cases r with
    | error error => exact hdone _
    | ok token =>
      refine ⟨huse (.consume 1 1) _, fun r => ?_⟩
      cases r with
      | error error => exact hdone _
      | ok token => exact ⟨huse (.consume 0 2) _, fun _ => hdone _⟩
  | assign | defaulted => exact marked_everywhere ⟨hdone, fun op next _ => huse op next⟩ _ _
  | stmt =>
    refine ⟨huse (.backtrack .assign fun _ => true) _, fun r => ?_⟩
    rcases r with error | _ | _
    · exact ⟨huse (.subrule .defaulted 1) _, fun _ => hdone _⟩
    · exact ⟨huse (.subrule .defaulted 1) _, fun _ => hdone _⟩
    · exact ⟨huse (.subrule .assign 1) _, fun _ => hdone _⟩

/-- Two names and a default mark, parsed with recovery. -/
def dotted (a : Analysis) : Setting where
  analysis := a
  tokens := #[{ kind := 0, text := "a", offset := 0 }, { kind := 1, text := ".", offset := 1 },
    { kind := 0, text := "b", offset := 2 }, { kind := 3, text := "!", offset := 3 }]
  config := { recovery := true }

/-- A parse inside of a rule, with an error behind it. -/
def underway : State where
  errors := [.noViable "stmt" 0 "Ident"]
  frames := [.root 0]

def analysisOf (d : Draft) : Except Failure Analysis := do (← d.build).analyze

theorem exists_ok_of_any {ε α : Type} {x : Except ε α} {p : α → Bool}
    (h : x.toOption.any p = true) : ∃ a, x = .ok a ∧ p a = true := by
  cases x with
  | error => cases h
  | ok a => exact ⟨a, rfl, h⟩

/-- A trial of four tokens with a failed trial in it is undone, and so is one that a gate
refuses. -/
theorem lenient_trials_undone : ∃ a, analysisOf paths = .ok a ∧
    (∃ ran, (dotted a).backtrack (Program.calleeOf (dotted a) lenient 3 .stmt) (· == 2) underway =
        .ok ran ∧ ran.result = .ok true ∧ underway.Unmoved ran.state) ∧
    ∃ ran reason,
      (dotted a).speculate (Program.calleeOf (dotted a) lenient 3 .stmt) 1 (· == 1) underway =
        .ok ran ∧ ran.result = .ok (.rolledBack reason) ∧ underway.Unmoved ran.state := by
  have hruns : (analysisOf paths).toOption.any (fun a =>
      let e := dotted a
      let stmt := Program.calleeOf e lenient 3 .stmt
      (e.backtrack stmt (· == 2) underway).toOption.any (fun ran => ran.result.toOption.any id) &&
      (e.speculate stmt 1 (· == 1) underway).toOption.any fun ran =>
        ran.result.toOption.any (·.committed?.isNone)) = true := by decide +kernel
  obtain ⟨a, ha, hruns⟩ := exists_ok_of_any hruns
  obtain ⟨hback, hspec⟩ := Bool.and_eq_true_iff.1 hruns
  have htidy := lenient_everywhere (P := Program.Tidy) (fun _ => trivial) fun op next =>
    (Program.traceless_use op next).tidy
  have htotal := Setting.rollback_total (dotted a) lenient htidy 3 .stmt 1
  refine ⟨a, ha, ?_, ?_⟩
  · obtain ⟨ran, hran, hresult⟩ := exists_ok_of_any hback
    obtain ⟨answer, hresult, rfl⟩ := exists_ok_of_any hresult
    exact ⟨ran, hran, hresult, (htotal _ underway).1 ran hran⟩
  · obtain ⟨ran, hran, hresult⟩ := exists_ok_of_any hspec
    obtain ⟨outcome, hresult, hnone⟩ := exists_ok_of_any hresult
    cases outcome with
    | committed value => cases hnone
    | rolledBack reason =>
      exact ⟨ran, reason, hran, hresult, (htotal _ underway).2 ran reason hran hresult⟩

end Sample

end Descent
