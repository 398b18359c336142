import Descent.Proofs.Parser.Commit

/-!
# Recovery leaves a valid parse alone

If a parse succeeds without recovery, it succeeds in the same way with recovery: same value, same
end, no error recorded, whatever the limit on errors is and whichever rules may be resynced
(`Setting.recovery_keeps_valid_parse`). Bodies have to pass errors on and may read all but the
configuration. The two runs repeat each other step by step, since without an error outside of trials
there is nothing to recover from, and inside of trials recovery does not apply.
-/

namespace Descent

variable {α ι V : Type} {e : Setting}

/-- Two parses under different configurations look alike as long as they are at the same place and
have gathered the same. -/
theorem unmoved_likeness (hoff : e.config.recovery = false) (c : Config) :
    Likeness e { e with config := c } State.Unmoved where
  analysis := rfl
  tokens := rfl
  quiet _ := by simp [Setting.recovers, hoff]
  position h := h.position
  currentRule? h := by simp [State.currentRule?, h.frames]
  kept h hk hk' hpos :=
    { errors := (hk'.errors.trans h.errors).trans hk.errors.symm
      frames := (hk'.frames.trans h.frames).trans hk.frames.symm
      speculation := (hk'.speculation.trans h.speculation).trans hk.speculation.symm
      position := hpos }
  push h frame := ⟨⟨h.errors, congrArg (frame :: ·) h.frames, h.speculation⟩, h.position⟩
  trial h := ⟨⟨h.errors, h.frames, congrArg (· + 1) h.speculation⟩, h.position⟩

namespace Program

/-- The program reads neither the configuration nor the places that were put aside. -/
def ReadsParse : Program ι V α → Prop
  | .inspect next => ∀ e c ⦃s s'⦄, s.Unmoved s' → next e s = next { e with config := c } s'
  | _ => True

/-- A program that passes errors on and does not look at the configuration. -/
structure Unconfigured (p : Program ι V α) : Prop where
  tidy : p.Tidy
  forwards : p.Forwards
  reads : p.ReadsParse

theorem Unconfigured.repeatable {p : Program ι V α} (h : p.Unconfigured) (e : Setting)
    (c : Config) : p.Repeatable State.Unmoved e { e with config := c } where
  tidy := h.tidy
  reads := by
    cases p with
    | inspect next => exact fun s s' hs => h.reads e c hs
    | _ => trivial
  forwards _ _ _ _ := h.forwards

end Program

namespace Setting

/-- A rule that is parsed without recovery, with or without a caller, is parsed in the same way
under every configuration: it gives the same value and ends at the same place, no error is recorded
and the active rules are as they were. -/
theorem recovery_keeps_valid_parse (e : Setting) (hoff : e.config.recovery = false) (c : Config)
    (book : Book ι V) (hb : ∀ rule, (book rule).body.Everywhere Program.Unconfigured) (fuel : Nat)
    (rule : ι) (occurrence : Nat) (s : State) (ran : Ran V) (value : V)
    (hvalue : ran.result = .ok value) :
    let e' := { e with config := c }
    (e.invoke (book rule).name (Program.enter e book fuel rule) s = .ok ran →
      ∃ ran', e'.invoke (book rule).name (Program.enter e' book fuel rule) s = .ok ran' ∧
        ran'.result = .ok value ∧ ran'.state.position = ran.state.position ∧
        s.Kept ran'.state) ∧
    (e.call (Program.calleeOf e book fuel rule) occurrence s = .ok ran →
      ∃ ran', e'.call (Program.calleeOf e' book fuel rule) occurrence s = .ok ran' ∧
        ran'.result = .ok value ∧ ran'.state.position = ran.state.position ∧
        s.Kept ran'.state) := by
  intro e'
  have hlike : Likeness e e' State.Unmoved := unmoved_likeness hoff c
  have hbody : Repeats State.Unmoved e' (Program.enter e book fuel rule)
      (Program.enter e' book fuel rule) :=
    Program.enter_repeats hlike (fun rule => (hb rule).mono fun p hp => hp.repeatable e c) fuel rule
  have hsame : s.Unmoved s := ⟨.refl s, rfl⟩
  have hrepeat {x x' : Action V} (hx : Repeats State.Unmoved e' x x') (hran : x s = .ok ran) :
      ∃ ran', x' s = .ok ran' ∧ ran'.result = .ok value ∧
        ran'.state.position = ran.state.position ∧ s.Kept ran'.state := by
    obtain ⟨-, hrep⟩ := hx hsame (Action.ends_of_eq_ok hran)
    obtain ⟨t', hends, hpos, hkept⟩ := hrep fun _ => ⟨value, hvalue⟩
    obtain ⟨ran', hran', hresult, rfl⟩ := hends.exists_ran
    exact ⟨ran', hran', hresult.trans hvalue, hpos, hkept⟩
  have hcall := hbody.subrule hlike (book rule).name (book rule).recovery occurrence
  exact ⟨hrepeat (hbody.invoke hlike _), hrepeat hcall⟩

end Setting

/-! ## A sample parse -/

namespace Sample

/-- Bodies for paths of one name. They look ahead by trials only, and pass errors on. -/
def brief : Book PathRule Nat
  | .path =>
    { name := "path"
      recovery := 0
      body := .consume 0 1 fun r => .done (r.map fun _ => 1) }
  | .assign => marked "assign" 2
  | .defaulted => marked "defaulted" 3
  | .stmt =>
    { name := "stmt"
      recovery := 0
      body := .choose
        [{ rule := .assign, occurrence := 1, gate := some fun _ => true },
         { rule := .defaulted, occurrence := 1, gate := none }] .done }

theorem brief_everywhere {P : Program PathRule Nat Nat → Prop} (hP : OfForwarding P)
    (rule : PathRule) : (brief rule).body.Everywhere P := by
  cases rule with
  | path => exact ⟨hP.use (.consume 0 1) _ fun _ => rfl, fun _ => hP.done _⟩
  | assign | defaulted => exact marked_everywhere hP _ _
  | stmt => exact ⟨hP.choose _, fun _ => hP.done _⟩

theorem unconfigured_ofForwarding {ι : Type} :
    OfForwarding (Program.Unconfigured : Program ι Nat Nat → Prop) where
  done _ := ⟨trivial, trivial, trivial⟩
  use op next h :=
    ⟨(Program.traceless_use op next).tidy, Program.forwards_use.2 h, by cases op <;> trivial⟩

/-- One name and a default mark. -/
def plainly (a : Analysis) (config : Config) : Setting where
  analysis := a
  tokens := #[{ kind := 0, text := "a", offset := 0 }, { kind := 3, text := "!", offset := 1 }]
  config

/-- Without recovery a statement tries one mark in vain and takes the other. With recovery it could
drop or make up tokens, which it does not. -/
theorem brief_stmt_unchanged : ∃ a, analysisOf paths = .ok a ∧ ∃ ran ran',
    (plainly a {}).call (Program.calleeOf (plainly a {}) brief 3 .stmt) 1 underway = .ok ran ∧
    ran.result = .ok 1 ∧
    (plainly a { recovery := true }).call
      (Program.calleeOf (plainly a { recovery := true }) brief 3 .stmt) 1 underway = .ok ran' ∧
    ran'.result = .ok 1 ∧ ran'.state.position = ran.state.position ∧
    underway.Kept ran'.state := by
  have hruns : (analysisOf paths).toOption.any (fun a =>
      ((plainly a {}).call (Program.calleeOf (plainly a {}) brief 3 .stmt) 1
        underway).toOption.any fun ran => ran.result.toOption.any (· == 1)) = true := by
    decide +kernel
  obtain ⟨a, ha, hruns⟩ := exists_ok_of_any hruns
  obtain ⟨ran, hran, hresult⟩ := exists_ok_of_any hruns
  obtain ⟨value, hresult, hvalue⟩ := exists_ok_of_any hresult
  obtain rfl : value = 1 := by simpa using hvalue
  obtain ⟨ran', hran', hresult', hpos, hkept⟩ :=
    (Setting.recovery_keeps_valid_parse (plainly a {}) rfl { recovery := true } brief
      (brief_everywhere unconfigured_ofForwarding) 3 .stmt 1 underway ran 1 hresult).2 hran
  exact ⟨a, ha, ran, ran', hran, hresult, hran', hresult', hpos, hkept⟩

end Sample

end Descent
