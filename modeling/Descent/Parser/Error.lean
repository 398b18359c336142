import Descent.Failure
import Descent.Terminal.Basic

/-!
# Parse errors

Recognition errors are about the input; recovery and speculation deal with them. A structural error
says that the grammar and the rule bodies disagree. It is never recovered from.
-/

namespace Descent

/-- A kind together with its name in the grammar. -/
structure NamedKind where
  kind : Terminal
  name : String
deriving DecidableEq, Repr, Inhabited

/-- Why parsing failed. -/
inductive ParseError where
  /-- Another token was found than the expected one, or the end of the input. -/
  | mismatched (expected : NamedKind) (found : Option NamedKind) (position : Nat)
  /-- No alternative of a gated choice accepted the input. -/
  | noViable (rule : String) (position : Nat) (expected : String)
  | structural (error : GrammarError)
deriving DecidableEq, Repr, Inhabited

namespace ParseError

/-- Whether the error is about the input rather than the grammar. -/
def isRecognition : ParseError → Bool
  | .mismatched .. | .noViable .. => true
  | .structural _ => false

/-- The token position at which a recognition error was raised. -/
def position? : ParseError → Option Nat
  | .mismatched _ _ position | .noViable _ position _ => some position
  | .structural _ => none

/-- The sentence shown to the user. -/
def message : ParseError → String
  | .mismatched expected found position =>
    let foundText := match found with
      | some seen => s!"`{seen.name}`"
      | none => "end of input"
    s!"expected `{expected.name}`, found {foundText} at token {position}"
  | .noViable rule position expected =>
    s!"no viable alternative in rule `{rule}` at token {position}; expected {expected}"
  | .structural error => error.message

end ParseError

end Descent
