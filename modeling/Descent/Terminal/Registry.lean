import Descent.Terminal.Set

/-!
# Names of terminal kinds

A registry gives each terminal kind a name. Kinds are numbered as they are registered, names are
used once, and there is room for 128. A second table leads from names back to kinds. Names serve
messages only: the analyses work on kinds.
-/

namespace Descent

/-- The registered kinds. -/
structure Registry where
  /-- The names of the kinds, in registration order. -/
  names : Array String := #[]
  /-- The kinds by their names, newest first. -/
  byName : List (String × Terminal) := []
deriving DecidableEq, Repr, Inhabited

namespace Registry

def empty : Registry := {}

def size (r : Registry) : Nat := r.names.size

def kind? (r : Registry) (name : String) : Option Terminal := r.byName.lookup name

/-- The name of a kind; one that was never registered is unknown. -/
def name (r : Registry) (kind : Terminal) : String :=
  r.names.getD kind "<unknown>"

def kinds (r : Registry) : List Terminal :=
  (List.range r.size).filterMap Terminal.ofIndex?

/-- Adds a kind under a new name. A name that is taken is reported before a full registry is. -/
def register (r : Registry) (name : String) : Except GrammarError (Terminal × Registry) :=
  if (r.kind? name).isSome then .error (.duplicateTerminal name)
  else
    match Terminal.ofIndex? r.size with
    | none => .error (.tooManyTerminals Terminal.capacity)
    | some kind =>
      .ok (kind, { names := r.names.push name, byName := (name, kind) :: r.byName })

end Registry

/-- The members of a set as an enumeration for error messages: nothing, one name, two names joined
by "or", or a list whose last name follows a comma and "or". -/
def TerminalSet.expectedText (s : TerminalSet) (r : Registry) : String :=
  let quoted := s.toList.map fun kind => s!"`{r.name kind}`"
  match quoted with
  | [] => "nothing"
  | [only] => only
  | [first, second] => first ++ " or " ++ second
  | names => ", ".intercalate names.dropLast ++ ", or " ++ names.getLastD ""

end Descent
