import Descent.Parser.State

/-!
# Actions on a parse

An action runs from a state and ends with a value or a parse error, in a new state, and reports
what happened on the way. An action can also halt, which ends the whole run: by a fault, because the
bound on nested rules is reached, or because a rule body gives up.
-/

namespace Descent

/-- Something that happened during a parse. -/
inductive Happening where
  /-- A rule body starts at a token position, with so many active rules. -/
  | entered (rule : String) (position depth : Nat)
  /-- A rule body ends, with so many errors recorded. -/
  | left (rule : String) (succeeded : Bool) (position errors : Nat)
  /-- A gate accepts or refuses the value of a trial. -/
  | judged (accepted : Bool)
  /-- The recovery value of a rule is asked for. -/
  | recovered (rule : String)
  /-- The token with this index is handed out. -/
  | took (index : Nat)
  /-- The token with this index is dropped in front of the expected one. -/
  | deleted (index : Nat)
  /-- The token with this index is skipped on the way to a resync point. -/
  | skipped (index : Nat)
  /-- A missing token is made up and handed out. -/
  | madeUp (token : Token)
  /-- An operation finds that the grammar and the rule bodies disagree. -/
  | raised (error : GrammarError)
deriving DecidableEq, Repr, Inhabited

/-- Something that happened, and how many trials were running then. -/
structure Event where
  speculation : Nat
  what : Happening
deriving DecidableEq, Repr, Inhabited

/-- Why a run has no end in the parser itself. -/
inductive Halt where
  | fault (fault : Fault)
  | outOfFuel
  | aborted (reason : String)
deriving DecidableEq, Repr, Inhabited

/-- The end of a run. -/
structure Ran (α : Type) where
  result : Except ParseError α
  state : State
  events : List Event := []

/-- A run from a state. -/
def Action (α : Type) := State → Except Halt (Ran α)

namespace Action

variable {α β : Type}

/-- Ends with a result and changes nothing. -/
def ofResult (result : Except ParseError α) : Action α := fun state => .ok { result, state }

/-- Runs an action and goes on with its result, be it a value or an error. -/
def andThen (x : Action α) (f : Except ParseError α → Action β) : Action β := fun s =>
  match x s with
  | .error h => .error h
  | .ok ran =>
    match f ran.result ran.state with
    | .error h => .error h
    | .ok next => .ok { next with events := ran.events ++ next.events }

/-- Runs an action and goes on with its value; an error ends the run. -/
def bind (x : Action α) (f : α → Action β) : Action β :=
  x.andThen fun
    | .ok a => f a
    | .error e => ofResult (.error e)

instance : Monad Action where
  pure a := ofResult (.ok a)
  bind := bind

def fail (e : ParseError) : Action α := ofResult (.error e)

def halt (h : Halt) : Action α := fun _ => .error h

instance : Inhabited (Action α) := ⟨halt .outOfFuel⟩

def getState : Action State := fun s => .ok { result := .ok s, state := s }

def modify (f : State → State) : Action Unit := fun s => .ok { result := .ok (), state := f s }

def reportAll (whats : List Happening) : Action Unit := fun s =>
  .ok { result := .ok (), state := s,
        events := whats.map ({ speculation := s.speculation, what := · }) }

def report (what : Happening) : Action Unit := reportAll [what]

/-- Hands out the token with an index, and goes past it. -/
def handOut (index : Nat) : Action Unit := fun s =>
  .ok {
    result := .ok ()
    state := { s with position := index + 1 }
    events := [{ speculation := s.speculation, what := .took index }] }

/-- Ends with the error that the grammar and the rule bodies disagree. -/
def raise (e : GrammarError) : Action α := do
  report (.raised e)
  fail (.structural e)

def attempt (x : Action α) : Action (Except ParseError α) :=
  x.andThen fun result => ofResult (.ok result)

/-- Uses a lookup in the analysis: a malformed key is a structural error. -/
def ofLookup : Except Failure α → Action α
  | .ok a => pure a
  | .error (.malformed e) => raise e
  | .error (.broken f) => halt (.fault f)

/-! ## Runs of compound actions -/

theorem andThen_eq_ok {x : Action α} {f : Except ParseError α → Action β} {s : State}
    {ran : Ran β} :
    x.andThen f s = .ok ran ↔ ∃ first next, x s = .ok first ∧
      f first.result first.state = .ok next ∧
      ran = { next with events := first.events ++ next.events } := by
  unfold andThen
  cases x s with
  | error h => simp
  | ok first =>
    dsimp only
    cases hf : f first.result first.state with
    | error h => simp [hf]
    | ok next => simp [hf, eq_comm]

end Action

end Descent
