import Descent.Parser.Recovery

/-!
# Speculation and gated choice

A trial runs a rule from the present place and always goes back there. A gate judges the value of
the trial. If it accepts, the rule is called again for real from the same place. A recognition error
in a trial is a rejection; a structural error goes to the caller. Trials nest, and recovery is off
while one is running: a trial has to fail rather than mend its input.
-/

namespace Descent

/-- Why a trial came to nothing. -/
inductive Rejection where
  /-- The trial succeeded, but the gate refused its value. -/
  | refused
  | failed (error : ParseError)
deriving DecidableEq, Repr, Inhabited

/-- The outcome of a speculative call. -/
inductive Speculation (V : Type) where
  /-- The value of the real call. -/
  | committed (value : V)
  | rolledBack (reason : Rejection)
deriving DecidableEq, Repr

namespace Speculation

/-- The value of the real call, if there was one. -/
def committed? {V : Type} : Speculation V → Option V
  | .committed value => some value
  | .rolledBack _ => none

end Speculation

/-- One alternative of a gated choice, which calls a rule. -/
structure Alternative (ι V : Type) where
  rule : ι
  occurrence : Nat
  /-- Judges the value of a trial. Without a gate the alternative is taken once it is reached. -/
  gate : Option (V → Bool)

/-- What a call needs to know of a rule. -/
structure Callee (V : Type) where
  name : String
  /-- The value of the rule where it failed and was resynced. -/
  recovery : V
  body : Action V

namespace Setting

variable {ι V : Type}

def judge (accept : V → Bool) (value : V) : Action (Option Rejection) := do
  Action.report (.judged (accept value))
  return if accept value then none else some .refused

/-- Runs a rule as a trial and goes back. Answers nothing if the gate accepts. -/
def trial (e : Setting) (callee : Callee V) (accept : V → Bool) : Action (Option Rejection) := do
  let start ← Action.getState
  Action.modify fun s => { s with speculation := s.speculation + 1 }
  let outcome ← (e.invoke callee.name callee.body).attempt
  Action.modify fun s => { s with speculation := s.speculation - 1 }
  Action.modify (·.restore start.snapshot)
  match outcome with
  | .ok value => judge accept value
  | .error error =>
    if error.isRecognition then return some (.failed error) else Action.fail error

/-- Whether a trial of a rule from here is accepted. The parse stays where it is. -/
def backtrack (e : Setting) (callee : Callee V) (accept : V → Bool) : Action Bool := do
  return (← e.trial callee accept).isNone

def call (e : Setting) (callee : Callee V) (occurrence : Nat) : Action V :=
  e.subrule callee.name callee.recovery occurrence callee.body

/-- Calls a rule if a trial of it is accepted. -/
def speculate (e : Setting) (callee : Callee V) (occurrence : Nat) (accept : V → Bool) :
    Action (Speculation V) := do
  match ← e.trial callee accept with
  | some reason => return .rolledBack reason
  | none => return .committed (← e.call callee occurrence)

/-- The kinds that the rules of some alternatives can start with. -/
def expectedOf (e : Setting) : List String → Except GrammarError TerminalSet
  | [] => .ok ∅
  | name :: names => do
    let id ← e.resolve name
    let rest ← e.expectedOf names
    return ((e.analysis.first.rules[id]?).getD {}).first ∪ rest

def currentRuleName (e : Setting) (s : State) : String :=
  match s.currentRule? with
  | some id => ((e.grammar.rules[id]?).map Rule.name).getD ""
  | none => "<top>"

/-- Fails because no alternative was accepted from a position. -/
def noViable {α : Type} (e : Setting) (names : List String) (position : Nat) : Action α := do
  match e.expectedOf names with
  | .error error => Action.raise error
  | .ok expected =>
    let s ← Action.getState
    Action.fail (.noViable (e.currentRuleName s) position
      (expected.expectedText e.grammar.registry))

/-- Takes the first alternative that has no gate or whose gate accepts a trial. -/
def firstAccepted (e : Setting) (callee : ι → Callee V) :
    List (Alternative ι V) → Action (Option V)
  | [] => return none
  | alternative :: alternatives => do
    match alternative.gate with
    | none => return some (← e.call (callee alternative.rule) alternative.occurrence)
    | some accept =>
      match ← e.speculate (callee alternative.rule) alternative.occurrence accept with
      | .committed value => return some value
      | .rolledBack _ => e.firstAccepted callee alternatives

/-- Tries alternatives in order, takes the first one accepted and no later one. -/
def choose (e : Setting) (callee : ι → Callee V) (alternatives : List (Alternative ι V)) :
    Action V := do
  let start ← Action.getState
  match ← e.firstAccepted callee alternatives with
  | some value => return value
  | none => e.noViable (alternatives.map fun a => (callee a.rule).name) start.position

end Setting

end Descent
