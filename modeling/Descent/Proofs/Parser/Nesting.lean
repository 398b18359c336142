import Descent.Proofs.Parser.RunLaws
import Mathlib.Logic.Relation

/-!
# What happens inside of operations

An operation runs rule bodies (`Operation.Starts`), and a rule body takes one step after the other
(`Program.Step`), each of which may be the use of a further operation. `Program.GoesOn` puts the
steps of one body together, `Within` the operations inside of each other to any depth, and
`Operation.Inside` says which bodies an operation comes to run and how far they come.

So it can be said of one run what rule bodies do in it by themselves (`Program.OwnStep`). If these
steps go along a law of states, then so does the operation (`StateLaw.run_along`), and all that is
reached inside of it lies deeper than its start (`Deepens.inside`). Bodies that take only such steps
in any run go along the law wherever they are run (`StateLaw.enter_obeys`).
-/

namespace Descent

variable {α β γ ι V : Type} {e : Setting} {book : Book ι V} {callee : ι → Callee V}
  {s t u : State} {R : State → State → Prop}

/-! ## Steps of programs -/

namespace Program

/-- One step of a program that is run in a state. -/
inductive Step (e : Setting) (callee : ι → Callee V) :
    Program ι V α × State → Program ι V α × State → Prop
  | use {β : Type} {op : Operation ι V β} {next : Except ParseError β → Program ι V α} {s : State}
      {ran : Ran β} (hrun : op.run e callee s = .ok ran) :
      Step e callee (use op next, s) (next ran.result, ran.state)
  | inspect {next : Setting → State → Program ι V α} {s : State} :
      Step e callee (.inspect next, s) (next e s, s)
  | takeErrors {next : List ParseError → Program ι V α} {s : State} :
      Step e callee (.takeErrors next, s) (next s.errors, { s with errors := [] })
  | mark {name : String} {next : Program ι V α} {s : State} :
      Step e callee (.mark name next, s) (next, s.mark name)
  | restore {place : Snapshot} {next : Program ι V α} {s : State} :
      Step e callee (.restore place next, s) (next, s.restore place)
  | recoveryValue {rule : ι} {next : V → Program ι V α} {s : State} :
      Step e callee (.recoveryValue rule next, s) (next (callee rule).recovery, s)

/-- A program that is run in a state comes to be another one in another state. -/
def GoesOn (e : Setting) (callee : ι → Callee V) :
    Program ι V α × State → Program ι V α × State → Prop :=
  Relation.ReflTransGen (Step e callee)

/-- A program that is run in `s` comes to use an operation in `t`. -/
def Reaches (e : Setting) (callee : ι → Callee V) (p : Program ι V α) (s : State)
    (op : Operation ι V β) (t : State) : Prop :=
  ∃ next, GoesOn e callee (p, s) (use op next, t)

theorem Reaches.of_eq {p : Program ι V α} {op : Operation ι V β}
    {next : Except ParseError β → Program ι V α} (h : p = use op next) :
    p.Reaches e callee s op s :=
  ⟨next, h ▸ .refl⟩

theorem Reaches.later {first : Operation ι V β} {next : Except ParseError β → Program ι V α}
    {op : Operation ι V γ} {ran : Ran β} (hfirst : first.run e callee s = .ok ran)
    (h : (next ran.result).Reaches e callee ran.state op t) :
    (use first next).Reaches e callee s op t := by
  obtain ⟨last, hlast⟩ := h
  exact ⟨last, .head (.use hfirst) hlast⟩

/-- The step that the program is about to take by itself, if it is, goes along the relation. -/
def OwnStep (R : State → State → Prop) : Program ι V α → State → Prop
  | .takeErrors _, s => R s { s with errors := [] }
  | .mark name _, s => R s (s.mark name)
  | .restore place _, s => R s (s.restore place)
  | _, _ => True

theorem Traceless.ownStep {p : Program ι V α} (h : p.Traceless) (s : State) : p.OwnStep R s := by
  cases p with
  | takeErrors | mark | restore => exact h.elim
  | _ => trivial

theorem Tidy.ownStep {p : Program ι V α} (h : p.Tidy) (hmark : ∀ s name, R s (s.mark name))
    (s : State) : p.OwnStep R s := by
  cases p with
  | takeErrors | restore => exact h.elim
  | mark => exact hmark _ _
  | _ => trivial

/-- A run is all steps up to the end of the program. -/
theorem goesOn_of_exec {enter : ι → Action V} {p : Program ι V α} {ran : Ran α}
    (h : p.exec e book enter s = .ok ran) :
    GoesOn e (Program.callee book enter) (p, s) (.done ran.result, ran.state) := by
  induction p using useInduction generalizing s ran with
  | done result =>
    cases h
    exact .refl
  | halt why => cases h
  | use op next ih =>
    rw [exec_use] at h
    obtain ⟨first, last, hfirst, hlast, rfl⟩ := Action.andThen_eq_ok.1 h
    have hrest := ih first.result hlast
    exact .head (.use hfirst) hrest
  | inspect next ih => exact .head .inspect (ih e s h)
  | takeErrors next ih => exact .head .takeErrors (ih s.errors h)
  | mark name next ih => exact .head .mark (ih h)
  | restore place next ih => exact .head .restore (ih h)
  | recoveryValue rule next ih =>
    obtain ⟨first, last, hfirst, hlast, rfl⟩ := Action.andThen_eq_ok.1 h
    cases hfirst
    have hrest := ih (book rule).recovery hlast
    exact .head .recoveryValue hrest

theorem Step.everywhere {P : Program ι V α → Prop} {x y : Program ι V α × State}
    (h : Step e callee x y) (hx : x.1.Everywhere P) : y.1.Everywhere P := by
  cases h with
  | use => exact (everywhere_use.1 hx).2 _
  | inspect => exact hx.2 _ _
  | takeErrors | recoveryValue => exact hx.2 _
  | mark | restore => exact hx.2

theorem GoesOn.everywhere {P : Program ι V α → Prop} {x y : Program ι V α × State}
    (h : GoesOn e callee x y) (hx : x.1.Everywhere P) : y.1.Everywhere P := by
  induction h with
  | refl => exact hx
  | tail _ hstep ih => exact hstep.everywhere ih

/-! What a program goes on with, read off its first step. -/

theorem GoesOn.of_done {result : Except ParseError α} {x : Program ι V α × State}
    (h : GoesOn e callee (.done result, s) x) : x = (.done result, s) := by
  obtain rfl | ⟨y, hstep, -⟩ := Relation.ReflTransGen.cases_head h
  · rfl
  · generalize hfirst : ((.done result, s) : Program ι V α × State) = first at hstep
    cases hstep with
    | @use _ op => cases op <;> cases hfirst
    | _ => cases hfirst

theorem GoesOn.of_use (op : Operation ι V β) {next : Except ParseError β → Program ι V α}
    {x : Program ι V α × State} (h : GoesOn e callee (use op next, s) x) :
    x = (use op next, s) ∨
      ∃ ran, op.run e callee s = .ok ran ∧ GoesOn e callee (next ran.result, ran.state) x := by
  obtain rfl | ⟨y, hstep, hrest⟩ := Relation.ReflTransGen.cases_head h
  · exact .inl rfl
  · generalize hfirst : (use op next, s) = first at hstep
    cases hstep with
    | @use _ op' _ _ ran hrun =>
      refine .inr ?_
      cases op <;> cases op' <;> cases hfirst <;> exact ⟨ran, hrun, hrest⟩
    | _ => cases op <;> cases hfirst

theorem GoesOn.of_inspect {next : Setting → State → Program ι V α} {x : Program ι V α × State}
    (h : GoesOn e callee (.inspect next, s) x) :
    x = (.inspect next, s) ∨ GoesOn e callee (next e s, s) x := by
  obtain rfl | ⟨y, hstep, hrest⟩ := Relation.ReflTransGen.cases_head h
  · exact .inl rfl
  · generalize hfirst : (Program.inspect next, s) = first at hstep
    cases hstep with
    | @use _ op => cases op <;> cases hfirst
    | inspect =>
      cases hfirst
      exact .inr hrest
    | _ => cases hfirst

theorem GoesOn.of_restore {place : Snapshot} {next : Program ι V α} {x : Program ι V α × State}
    (h : GoesOn e callee (.restore place next, s) x) :
    x = (.restore place next, s) ∨ GoesOn e callee (next, s.restore place) x := by
  obtain rfl | ⟨y, hstep, hrest⟩ := Relation.ReflTransGen.cases_head h
  · exact .inl rfl
  · generalize hfirst : (Program.restore place next, s) = first at hstep
    cases hstep with
    | @use _ op => cases op <;> cases hfirst
    | restore =>
      cases hfirst
      exact .inr hrest
    | _ => cases hfirst

theorem Everywhere.here {P : Program ι V α → Prop} {p : Program ι V α} (h : p.Everywhere P) :
    P p := by
  cases p with
  | done | halt => exact h
  | _ => exact h.1

end Program

open Program (GoesOn calleeOf enter)

/-- The steps of a program go along a law if the operations do that it uses, and what it does by
itself. -/
theorem StateLaw.goesOn (law : StateLaw e R) {x y : Program ι V α × State}
    (huse : ∀ ⦃β : Type⦄ ⦃op : Operation ι V β⦄ ⦃next t ran⦄, GoesOn e callee x (.use op next, t) →
      op.run e callee t = .ok ran → R t ran.state)
    (hown : ∀ ⦃q t⦄, GoesOn e callee x (q, t) → R x.2 t → q.OwnStep R t)
    (h : GoesOn e callee x y) : R x.2 y.2 := by
  induction h with
  | refl => exact law.refl _
  | tail hgoes hstep ih =>
    refine law.trans ih ?_
    cases hstep with
    | use hrun => exact huse hgoes hrun
    | inspect | recoveryValue => exact law.refl _
    | takeErrors | mark | restore => exact hown hgoes ih

theorem StateLaw.enter_obeys (law : StateLaw e R) {P : Program ι V V → Prop}
    (hb : ∀ rule, (book rule).body.Everywhere P) (hown : ∀ p s, P p → p.OwnStep R s) (fuel : Nat)
    (rule : ι) : (enter e book fuel rule).Obeys (Leaves R) := by
  induction fuel generalizing rule with
  | zero => exact fun s ran h => nomatch h
  | succ fuel ih =>
    intro s ran h
    obtain ⟨inner, hinner, rfl⟩ := Program.enter_run h
    refine law.goesOn (fun _ op _ _ _ _ hrun => op.run_obeys law.runLaw ih hrun)
      (fun q t hgoes _ => ?_) (Program.goesOn_of_exec hinner)
    exact hown q t (hgoes.everywhere (hb rule)).here

/-! ## Bodies inside of operations -/

/-- An operation that is used in a state comes to use another one, at any depth of rule bodies. -/
inductive Within (e : Setting) (book : Book ι V) : {β γ : Type} →
    Nat → Operation ι V β → State → Nat → Operation ι V γ → State → Prop
  | self {β : Type} {fuel : Nat} {op : Operation ι V β} {s : State} :
      Within e book fuel op s fuel op s
  | body {β γ δ : Type} {fuel fuel' : Nat} {op : Operation ι V β} {next : Operation ι V γ}
      {op' : Operation ι V δ} {s t u s' : State} {rule : ι}
      (hstarts : op.Starts e (Program.calleeOf e book (fuel + 1)) s rule t)
      (hreaches : (book rule).body.Reaches e (Program.calleeOf e book fuel) t next u)
      (hrest : Within e book fuel next u fuel' op' s') :
      Within e book (fuel + 1) op s fuel' op' s'

namespace Operation

/-- An operation that is used in `s` comes to run the body of `rule` from `t` on, and that body
comes to be `x.1` in `x.2`. -/
def Inside (e : Setting) (book : Book ι V) (fuel : Nat) (op : Operation ι V β) (s : State)
    (rule : ι) (t : State) (x : Program ι V V × State) : Prop :=
  ∃ (γ : Type) (fuel' : Nat) (op' : Operation ι V γ) (s' : State),
    Within e book fuel op s (fuel' + 1) op' s' ∧
    op'.Starts e (calleeOf e book (fuel' + 1)) s' rule t ∧
    GoesOn e (calleeOf e book fuel') ((book rule).body, t) x

variable {fuel : Nat} {op : Operation ι V β} {op' : Operation ι V γ} {rule rule' : ι}
  {next : Except ParseError γ → Program ι V V} {x : Program ι V V × State}

theorem inside_of_starts (hstarts : op.Starts e (calleeOf e book (fuel + 1)) s rule t)
    (hgoes : GoesOn e (calleeOf e book fuel) ((book rule).body, t) x) :
    op.Inside e book (fuel + 1) s rule t x :=
  ⟨β, fuel, op, s, .self, hstarts, hgoes⟩

theorem Inside.deeper {t' : State} (hstarts : op.Starts e (calleeOf e book (fuel + 1)) s rule t)
    (hgoes : GoesOn e (calleeOf e book fuel) ((book rule).body, t) (.use op' next, u))
    (h : op'.Inside e book fuel u rule' t' x) : op.Inside e book (fuel + 1) s rule' t' x := by
  obtain ⟨δ, fuel', inner, v, hwithin, hstarted, hbody⟩ := h
  exact ⟨δ, fuel', inner, v, .body hstarts ⟨next, hgoes⟩ hwithin, hstarted, hbody⟩

theorem Inside.everywhere {P : Program ι V V → Prop} (hb : ∀ rule, (book rule).body.Everywhere P)
    (h : op.Inside e book fuel s rule t x) : P x.1 := by
  obtain ⟨_, _, _, _, _, _, hgoes⟩ := h
  exact (hgoes.everywhere (hb rule)).here

/-- What the bodies inside of an operation do by themselves goes along a relation, as long as they
have come so far along it. -/
def OwnSteps (R : State → State → Prop) (e : Setting) (book : Book ι V) (fuel : Nat)
    (op : Operation ι V β) (s : State) : Prop :=
  ∀ ⦃rule t q u⦄, op.Inside e book fuel s rule t (q, u) → R t u → q.OwnStep R u

end Operation

namespace StateLaw

variable {fuel : Nat} {op : Operation ι V β} {rule : ι} {x : Program ι V V × State}

/-- A body inside of an operation goes along a law, given that operations do. -/
theorem goesOn_of_run (law : StateLaw e R) (hown : op.OwnSteps R e book (fuel + 1) s)
    (hrun : ∀ ⦃γ : Type⦄ ⦃op' : Operation ι V γ⦄ ⦃u ran⦄, op'.OwnSteps R e book fuel u →
      op'.run e (calleeOf e book fuel) u = .ok ran → R u ran.state)
    (hstarts : op.Starts e (calleeOf e book (fuel + 1)) s rule t)
    (hgoes : GoesOn e (calleeOf e book fuel) ((book rule).body, t) x) : R t x.2 := by
  refine law.goesOn (fun γ op' next u ran hused => hrun ?_) (fun q u hq => ?_) hgoes
  · exact fun rule' t' q v hinside => hown (hinside.deeper hstarts hused)
  · exact hown (Operation.inside_of_starts hstarts hq)

theorem started_obeysFrom (law : StateLaw e R) (hown : op.OwnSteps R e book fuel s)
    (hstarts : op.Starts e (calleeOf e book fuel) s rule t) :
    (calleeOf e book fuel rule).body.ObeysFrom (Leaves R) t := by
  induction fuel generalizing β op s rule t with
  | zero => exact fun inner hbody => by cases hbody
  | succ fuel ih =>
    intro inner hbody
    obtain ⟨ran, hran, rfl⟩ := Program.enter_run hbody
    refine law.goesOn_of_run hown (fun γ op' u ran hown' hrun => ?_) hstarts
      (Program.goesOn_of_exec hran)
    exact Operation.run_obeysFrom law.runLaw (fun rule t => ih hown') hrun

/-- An operation goes along a law if the bodies inside of it do by themselves. -/
theorem run_along (law : StateLaw e R) {ran : Ran β} (hown : op.OwnSteps R e book fuel s)
    (h : op.run e (calleeOf e book fuel) s = .ok ran) : R s ran.state :=
  Operation.run_obeysFrom law.runLaw (fun _ _ => law.started_obeysFrom hown) h

theorem body_along (law : StateLaw e R) (hown : op.OwnSteps R e book (fuel + 1) s)
    (hstarts : op.Starts e (calleeOf e book (fuel + 1)) s rule t)
    (hgoes : GoesOn e (calleeOf e book fuel) ((book rule).body, t) x) : R t x.2 :=
  law.goesOn_of_run hown (fun _ _ _ _ => law.run_along) hstarts hgoes

end StateLaw

/-! ## States inside of operations -/

/-- The relation holds where the other one does, and goes on into calls and trials. -/
structure Deepens (R S : State → State → Prop) : Prop where
  of {s t : State} : R s t → S s t
  trans {s t u : State} : S s t → S t u → S s u
  push (s : State) (frame : Frame) : S s (s.push frame)
  onTrial (s : State) : S s s.onTrial

namespace Deepens

variable {S : State → State → Prop} {fuel : Nat} {op : Operation ι V β} {rule : ι}
  {x : Program ι V V × State}

theorem activates (deep : Deepens R S) {callee : Callee V} {occurrence : Nat}
    (h : e.Activates callee occurrence s t) : S s t := by
  obtain ⟨id, -, rfl⟩ := h
  exact deep.push s _

theorem speculates (deep : Deepens R S) (law : StateLaw e R) {callee : Callee V} {occurrence : Nat}
    {accept : V → Bool} (hbody : ∀ t, e.Speculates callee occurrence accept s t →
      callee.body.ObeysFrom (Leaves R) t) (h : e.Speculates callee occurrence accept s t) :
    S s t := by
  cases h with
  | tried hcall => exact deep.trans (deep.onTrial s) (deep.activates hcall)
  | committed htrial _ hcall =>
    have hback := law.runLaw.obeysFrom_trial (fun t ht => hbody t (.tried ht)) accept htrial
    exact deep.trans (deep.of hback) (deep.activates hcall)

theorem attempts (deep : Deepens R S) (law : StateLaw e R) {alternatives : List (Alternative ι V)}
    (hbody : ∀ rule t, e.Attempts callee alternatives s rule t →
      (callee rule).body.ObeysFrom (Leaves R) t) (h : e.Attempts callee alternatives s rule t) :
    S s t := by
  induction h with
  | ungated _ hcall => exact deep.activates hcall
  | gated hgate hcall => exact deep.speculates law (fun t ht => hbody _ t (.gated hgate ht)) hcall
  | passed hgate hrun hrolledBack _ ih =>
    have hback := law.runLaw.speculate (fun t ht => hbody _ t (.gated hgate ht)) hrun
    refine deep.trans (deep.of hback) (ih fun rule t ht => ?_)
    exact hbody rule t (.passed hgate hrun hrolledBack ht)

/-- A body runs in a state that lies deeper than that in which the operation is used. -/
theorem starts (deep : Deepens R S) (law : StateLaw e R)
    (hbody : ∀ rule t, op.Starts e callee s rule t → (callee rule).body.ObeysFrom (Leaves R) t)
    (h : op.Starts e callee s rule t) : S s t := by
  cases op with
  | consume => exact h.elim
  | subrule | invoke => exact deep.activates h.2
  | backtrack => exact deep.trans (deep.onTrial s) (deep.activates h.2)
  | speculate => exact deep.speculates law (fun t ht => hbody _ t ⟨rfl, ht⟩) h.2
  | choose => exact deep.attempts law hbody h

/-- All that is reached inside of an operation lies deeper than its start. -/
theorem inside (deep : Deepens R S) (law : StateLaw e R) (hown : op.OwnSteps R e book fuel s)
    (h : op.Inside e book fuel s rule t x) : S s x.2 := by
  have hstarted {γ : Type} {fuel : Nat} {op : Operation ι V γ} {s t : State} {rule : ι}
      (hown : op.OwnSteps R e book fuel s) (h : op.Starts e (calleeOf e book fuel) s rule t) :
      S s t :=
    deep.starts law (fun _ _ => law.started_obeysFrom hown) h
  obtain ⟨γ, fuel', op', s', hwithin, hstarts, hgoes⟩ := h
  generalize hlast : fuel' + 1 = last at hwithin
  induction hwithin with
  | self =>
    cases hlast
    exact deep.trans (hstarted hown hstarts) (deep.of (law.body_along hown hstarts hgoes))
  | body hstarts' hreaches _ ih =>
    obtain ⟨next, hused⟩ := hreaches
    have hreached := deep.of (law.body_along hown hstarts' hused)
    refine deep.trans (deep.trans (hstarted hown hstarts') hreached) (ih ?_ hstarts hlast)
    exact fun _ _ _ _ hinside => hown (hinside.deeper hstarts' hused)

end Deepens

end Descent
