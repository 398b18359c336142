import Descent.Parser.Speculation

/-!
# Rule bodies as programs

A rule body is a program over the operations of the parser. It sees the result of each operation, be
it a value or an error, and goes on as it likes. A book gives each rule its name, its body and its
recovery value, so that bodies can call each other.
-/

namespace Descent

/-- A program over the operations of the parser. Rules are named by `ι`, their values are of type
`V`, and the program ends with an `α` or an error. -/
inductive Program (ι V α : Type) where
  | done (result : Except ParseError α)
  | halt (why : Halt)
  | consume (kind : Terminal) (occurrence : Nat) (next : Except ParseError Token → Program ι V α)
  | subrule (rule : ι) (occurrence : Nat) (next : Except ParseError V → Program ι V α)
  | invoke (rule : ι) (next : Except ParseError V → Program ι V α)
  | backtrack (rule : ι) (accept : V → Bool) (next : Except ParseError Bool → Program ι V α)
  | speculate (rule : ι) (occurrence : Nat) (accept : V → Bool)
      (next : Except ParseError (Speculation V) → Program ι V α)
  | choose (alternatives : List (Alternative ι V)) (next : Except ParseError V → Program ι V α)
  /-- Reads the setting and the state. -/
  | inspect (next : Setting → State → Program ι V α)
  /-- Takes the recorded errors away. -/
  | takeErrors (next : List ParseError → Program ι V α)
  /-- Puts the present place aside under a name. -/
  | mark (name : String) (next : Program ι V α)
  /-- Goes back to a place. -/
  | restore (place : Snapshot) (next : Program ι V α)
  /-- Asks for the recovery value of a rule. -/
  | recoveryValue (rule : ι) (next : V → Program ι V α)

instance {ι V α : Type} : Inhabited (Program ι V α) := ⟨.halt .outOfFuel⟩

/-- What a rule is to a program. -/
structure Handle (ι V : Type) where
  name : String
  body : Program ι V V
  recovery : V

/-- The rules that programs can call. -/
abbrev Book (ι V : Type) := ι → Handle ι V

/-- A rule of this name as a developer sees it. -/
def Handle.debugText (name : String) : String := s!"RuleHandle({name})"

namespace Program

variable {ι V α : Type}

/-- The callee that a rule is, given how its body runs. -/
def callee (book : Book ι V) (enter : ι → Action V) (rule : ι) : Callee V where
  name := (book rule).name
  recovery := (book rule).recovery
  body := enter rule

/-- Runs a program, given how the body of a rule runs. -/
def exec (e : Setting) (book : Book ι V) (enter : ι → Action V) : Program ι V α → Action α
  | .done result => Action.ofResult result
  | .halt why => Action.halt why
  | .consume kind occurrence next =>
    (e.consume kind occurrence).andThen fun r => (next r).exec e book enter
  | .subrule rule occurrence next =>
    (e.call (callee book enter rule) occurrence).andThen fun r => (next r).exec e book enter
  | .invoke rule next =>
    (e.invoke (book rule).name (enter rule)).andThen fun r => (next r).exec e book enter
  | .backtrack rule accept next =>
    (e.backtrack (callee book enter rule) accept).andThen fun r => (next r).exec e book enter
  | .speculate rule occurrence accept next =>
    (e.speculate (callee book enter rule) occurrence accept).andThen fun r =>
      (next r).exec e book enter
  | .choose alternatives next =>
    (e.choose (callee book enter) alternatives).andThen fun r => (next r).exec e book enter
  | .inspect next => fun s => (next e s).exec e book enter s
  | .takeErrors next => fun s => (next s.errors).exec e book enter { s with errors := [] }
  | .mark name next => fun s => next.exec e book enter (s.mark name)
  | .restore place next => fun s => next.exec e book enter (s.restore place)
  | .recoveryValue rule next =>
    (Action.report (.recovered (book rule).name)).andThen fun _ =>
      (next (book rule).recovery).exec e book enter

/-- Runs the body of a rule; at most `fuel` bodies can be nested. -/
def enter (e : Setting) (book : Book ι V) : Nat → ι → Action V
  | 0, _ => Action.halt .outOfFuel
  | fuel + 1, rule => do
    let s ← Action.getState
    Action.report (.entered (book rule).name s.position s.frames.length)
    let result ← ((book rule).body.exec e book (enter e book fuel)).attempt
    let s ← Action.getState
    Action.report (.left (book rule).name result.isOk s.position s.errors.length)
    Action.ofResult result

/-- Runs a program in which at most `fuel` rule bodies are nested. -/
def run (e : Setting) (book : Book ι V) (fuel : Nat) (p : Program ι V α) : Action α :=
  p.exec e book (enter e book fuel)

end Program

end Descent
