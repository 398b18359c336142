import Descent.Proofs.Follow.Reference
import Descent.Proofs.Parser.Rollback

/-!
# Rule bodies that follow their grammar

A parse agrees with the grammar if each token that is consumed and each rule that is called stands
in the body of the innermost active rule, under the same occurrence index. Whether it does is a
matter of the run, since a body may do one thing or another after each result. `Program.Conforms`
goes along with the run of a program, and `Program.BodyConforms` with that of a rule body and of all
that it calls, tries and chooses.

Bodies that are written after the grammar, rule by rule, conform in every run
(`Program.bodyConforms_of_written`), because operations leave the active rules as they were.
-/

namespace Descent

variable {α ι V : Type} {e : Setting} {s t : State}

/-- Wherever the action ends, the result and the state have the property. -/
def Action.Leads (x : Action α) (s : State) (P : Except ParseError α → State → Prop) : Prop :=
  ∀ ⦃r t⦄, x.Ends s r t → P r t

/-- The innermost active rule, if there is one, has the property. -/
def State.Innermost (s : State) (P : RuleId → Prop) : Prop :=
  ∀ enclosing, s.currentRule? = some enclosing → P enclosing

namespace Setting

/-- The grammar consumes the kind in a rule under this index, and not as the separator of an
optional body, which is never matched. -/
def HasToken (e : Setting) (enclosing : RuleId) (kind : Terminal) (occurrence : Nat) : Prop :=
  ∃ R, e.grammar.rules[enclosing]? = some R ∧ (kind, occurrence) ∈ R.body.terminals ∧
    (kind, occurrence) ∉ R.body.idleSeparators

/-- The grammar refers in a rule to the one of this name, under this index. -/
def HasReference (e : Setting) (enclosing : RuleId) (name : String) (occurrence : Nat) : Prop :=
  ∀ id, e.resolve name = .ok id →
    ∃ R, e.grammar.rules[enclosing]? = some R ∧ (id, occurrence) ∈ R.body.references

instance (e : Setting) (enclosing : RuleId) (kind : Terminal) (occurrence : Nat) :
    Decidable (e.HasToken enclosing kind occurrence) :=
  decidable_of_iff ((e.grammar.rules[enclosing]?).any fun R =>
      (kind, occurrence) ∈ R.body.terminals ∧ (kind, occurrence) ∉ R.body.idleSeparators) <| by
    unfold HasToken
    cases e.grammar.rules[enclosing]? <;> simp

instance (e : Setting) (enclosing : RuleId) (name : String) (occurrence : Nat) :
    Decidable (e.HasReference enclosing name occurrence) :=
  decidable_of_iff ((e.resolve name).toOption.all fun id =>
      (e.grammar.rules[enclosing]?).any fun R => (id, occurrence) ∈ R.body.references) <| by
    unfold HasReference
    cases e.resolve name <;> cases e.grammar.rules[enclosing]? <;> simp [Except.toOption]

/-! Each of the following says of an operation that it agrees with the grammar from a state on. What
the bodies that it runs need is given by `body`. -/

def RootConforms (e : Setting) (name : String) (body : State → Prop) (s : State) : Prop :=
  ∀ id, e.resolve name = .ok id → body (s.push (.root id))

def CallConforms (e : Setting) (name : String) (occurrence : Nat) (body : State → Prop)
    (s : State) : Prop :=
  s.Innermost (e.HasReference · name occurrence) ∧
    ∀ id, e.resolve name = .ok id → body (s.push { rule := id, occurrence })

def TrialConforms (e : Setting) (name : String) (body : State → Prop) (s : State) : Prop :=
  e.RootConforms name body { s with speculation := s.speculation + 1 }

/-- The trial conforms, and so does the real call if the trial is accepted. -/
def SpeculationConforms (e : Setting) (callee : Callee V) (occurrence : Nat) (accept : V → Bool)
    (body : State → Prop) (s : State) : Prop :=
  e.TrialConforms callee.name body s ∧ (e.trial callee accept).Leads s fun r t =>
    r = .ok none → e.CallConforms callee.name occurrence body t

/-- The alternatives conform up to the one that is taken. -/
def ChoiceConforms (e : Setting) (callee : ι → Callee V) (body : ι → State → Prop) :
    List (Alternative ι V) → State → Prop
  | [], _ => True
  | a :: alternatives, s =>
    match a.gate with
    | none => e.CallConforms (callee a.rule).name a.occurrence (body a.rule) s
    | some accept =>
      e.SpeculationConforms (callee a.rule) a.occurrence accept (body a.rule) s ∧
        (e.speculate (callee a.rule) a.occurrence accept).Leads s fun r t =>
          ∀ reason, r = .ok (.rolledBack reason) → e.ChoiceConforms callee body alternatives t

end Setting

namespace Program

/-- Run from a state, the program agrees with the grammar, given what the bodies need. -/
def Conforms (e : Setting) (book : Book ι V) (enter : ι → Action V) (body : ι → State → Prop) :
    Program ι V α → State → Prop
  | .done _, _ | .halt _, _ => True
  | .consume kind occurrence next, s =>
    s.Innermost (e.HasToken · kind occurrence) ∧
      (e.consume kind occurrence).Leads s fun r t => (next r).Conforms e book enter body t
  | .subrule rule occurrence next, s =>
    e.CallConforms (book rule).name occurrence (body rule) s ∧
      (e.call (callee book enter rule) occurrence).Leads s fun r t =>
        (next r).Conforms e book enter body t
  | .invoke rule next, s =>
    e.RootConforms (book rule).name (body rule) s ∧
      (e.invoke (book rule).name (enter rule)).Leads s fun r t =>
        (next r).Conforms e book enter body t
  | .backtrack rule accept next, s =>
    e.TrialConforms (book rule).name (body rule) s ∧
      (e.backtrack (callee book enter rule) accept).Leads s fun r t =>
        (next r).Conforms e book enter body t
  | .speculate rule occurrence accept next, s =>
    e.SpeculationConforms (callee book enter rule) occurrence accept (body rule) s ∧
      (e.speculate (callee book enter rule) occurrence accept).Leads s fun r t =>
        (next r).Conforms e book enter body t
  | .choose alternatives next, s =>
    e.ChoiceConforms (callee book enter) body alternatives s ∧
      (e.choose (callee book enter) alternatives).Leads s fun r t =>
        (next r).Conforms e book enter body t
  | .inspect next, s => (next e s).Conforms e book enter body s
  | .takeErrors next, s => (next s.errors).Conforms e book enter body { s with errors := [] }
  | .mark name next, s => next.Conforms e book enter body (s.mark name)
  | .restore place next, s => next.Conforms e book enter body (s.restore place)
  | .recoveryValue rule next, s => (next (book rule).recovery).Conforms e book enter body s

/-- The body of a rule agrees with the grammar, and so do all bodies that run inside of it. -/
def BodyConforms (e : Setting) (book : Book ι V) : Nat → ι → State → Prop
  | 0, _, _ => True
  | fuel + 1, rule, s =>
    (book rule).body.Conforms e book (enter e book fuel) (BodyConforms e book fuel) s

/-! ## Bodies written after the grammar -/

/-- The operation that the program is about to use stands in a rule of the grammar. -/
def StandsIn (e : Setting) (book : Book ι V) (enclosing : RuleId) : Program ι V α → Prop
  | .consume kind occurrence _ => e.HasToken enclosing kind occurrence
  | .subrule rule occurrence _ | .speculate rule occurrence _ _ =>
    e.HasReference enclosing (book rule).name occurrence
  | .choose alternatives _ =>
    ∀ a ∈ alternatives, e.HasReference enclosing (book a.rule).name a.occurrence
  | _ => True

/-- The program does what stands in a rule of the grammar, and leaves the active rules alone. -/
structure WrittenAfter (e : Setting) (book : Book ι V) (enclosing : RuleId)
    (p : Program ι V α) : Prop where
  tidy : p.Tidy
  stands : p.StandsIn e book enclosing

end Program

theorem Setting.Steady.currentRule? (h : e.Steady s t) : t.currentRule? = s.currentRule? := by
  rw [State.currentRule?, h.frames, State.currentRule?]

theorem State.innermost_of_eq {P : RuleId → Prop} {enclosing : RuleId}
    (hs : s.currentRule? = some enclosing) (h : P enclosing) : s.Innermost P := by
  intro id hid
  rw [hs] at hid
  cases hid
  exact h

namespace Setting

variable {enclosing : RuleId}

/-- After an operation the innermost rule is the same. -/
theorem Keeps.leads {x : Action α} (hx : e.Keeps x) (hs : s.currentRule? = some enclosing)
    {P : Except ParseError α → State → Prop}
    (h : ∀ r t, t.currentRule? = some enclosing → P r t) : x.Leads s P :=
  fun r t hends => h r t ((hx.steady hends).currentRule?.trans hs)

/-- The body agrees with the grammar whenever the rule of this name is the innermost one. -/
def Agrees (e : Setting) (name : String) (body : State → Prop) : Prop :=
  ∀ id t, e.resolve name = .ok id → t.currentRule? = some id → body t

theorem Agrees.callConforms {name : String} {occurrence : Nat} {body : State → Prop}
    (hbody : e.Agrees name body) (hs : s.currentRule? = some enclosing)
    (h : e.HasReference enclosing name occurrence) : e.CallConforms name occurrence body s :=
  ⟨State.innermost_of_eq hs h, fun id hid => hbody id _ hid rfl⟩

theorem Agrees.rootConforms {name : String} {body : State → Prop} (hbody : e.Agrees name body)
    (s : State) : e.RootConforms name body s :=
  fun id hid => hbody id _ hid rfl

theorem Agrees.speculationConforms {callee : Callee V} {occurrence : Nat} {accept : V → Bool}
    {body : State → Prop} (hbody : e.Agrees callee.name body) (hkeeps : e.Keeps callee.body)
    (hs : s.currentRule? = some enclosing) (h : e.HasReference enclosing callee.name occurrence) :
    e.SpeculationConforms callee occurrence accept body s := by
  refine ⟨hbody.rootConforms _, fun r t hends _ => hbody.callConforms ?_ h⟩
  have hsteady : e.Steady s t := .of_kept (trial_unmoved hkeeps hends).toKept
  rw [hsteady.currentRule?, hs]

theorem choiceConforms_of_hasReference {callee : ι → Callee V} {body : ι → State → Prop}
    {alternatives : List (Alternative ι V)}
    (hbody : ∀ rule, e.Agrees (callee rule).name (body rule))
    (hkeeps : ∀ rule, e.Keeps (callee rule).body) (hs : s.currentRule? = some enclosing)
    (h : ∀ a ∈ alternatives, e.HasReference enclosing (callee a.rule).name a.occurrence) :
    e.ChoiceConforms callee body alternatives s := by
  induction alternatives generalizing s with
  | nil => trivial
  | cons a alternatives ih =>
    obtain ⟨ha, h⟩ := List.forall_mem_cons.1 h
    unfold ChoiceConforms
    split
    next => exact (hbody _).callConforms hs ha
    next accept _ =>
      have hspeculate := Operation.run_keeps hkeeps (.speculate a.rule a.occurrence accept)
      refine ⟨(hbody _).speculationConforms (hkeeps _) hs ha, fun r t hends _ _ => ih ?_ h⟩
      rw [(hspeculate.steady hends).currentRule?, hs]

end Setting

namespace Program

variable {book : Book ι V} {enclosing : RuleId}

theorem conforms_of_written {enter : ι → Action V} {body : ι → State → Prop}
    (hkeeps : ∀ rule, e.Keeps (enter rule)) (hbody : ∀ rule, e.Agrees (book rule).name (body rule))
    {p : Program ι V α} (hp : p.Everywhere (WrittenAfter e book enclosing))
    (hs : s.currentRule? = some enclosing) : p.Conforms e book enter body s := by
  have hop {β : Type} (op : Operation ι V β) : e.Keeps (op.run e (callee book enter)) :=
    op.run_keeps hkeeps
  induction p generalizing s with
  | done result | halt why => trivial
  | consume kind occurrence next ih =>
    exact ⟨State.innermost_of_eq hs hp.1.stands,
      (hop (.consume kind occurrence)).leads hs fun r t ht => ih r (hp.2 r) ht⟩
  | subrule rule occurrence next ih =>
    exact ⟨(hbody rule).callConforms hs hp.1.stands,
      (hop (.subrule rule occurrence)).leads hs fun r t ht => ih r (hp.2 r) ht⟩
  | invoke rule next ih =>
    exact ⟨(hbody rule).rootConforms s,
      (hop (.invoke rule)).leads hs fun r t ht => ih r (hp.2 r) ht⟩
  | backtrack rule accept next ih =>
    exact ⟨(hbody rule).rootConforms _,
      (hop (.backtrack rule accept)).leads hs fun r t ht => ih r (hp.2 r) ht⟩
  | speculate rule occurrence accept next ih =>
    exact ⟨(hbody rule).speculationConforms (hkeeps rule) hs hp.1.stands,
      (hop (.speculate rule occurrence accept)).leads hs fun r t ht => ih r (hp.2 r) ht⟩
  | choose alternatives next ih =>
    exact ⟨Setting.choiceConforms_of_hasReference hbody hkeeps hs hp.1.stands,
      (hop (.choose alternatives)).leads hs fun r t ht => ih r (hp.2 r) ht⟩
  | inspect next ih => exact ih e s (hp.2 e s) hs
  | takeErrors next ih => exact hp.1.tidy.elim
  | mark name next ih => exact ih hp.2 hs
  | restore place next ih => exact hp.1.tidy.elim
  | recoveryValue rule next ih => exact ih _ (hp.2 _) hs

/-- If each body is written after the rule of its name, all of them agree with the grammar in every
run. -/
theorem bodyConforms_of_written
    (hb : ∀ rule id, e.resolve (book rule).name = .ok id →
      (book rule).body.Everywhere (WrittenAfter e book id))
    (htidy : ∀ rule, (book rule).body.Everywhere Tidy) (fuel : Nat) (rule : ι) :
    e.Agrees (book rule).name (BodyConforms e book fuel rule) := by
  induction fuel generalizing rule with
  | zero => exact fun _ _ _ _ => trivial
  | succ fuel ih =>
    exact fun id t hid ht => conforms_of_written (enter_keeps htidy fuel) ih (hb rule id hid) ht

end Program

end Descent
