import Descent.Grammar.Node

/-!
# Written rule bodies

A rule body as its author writes it: rules go by name, nodes have no numbers, and a leaf has an
occurrence index only where the author pinned one.
-/

namespace Descent

/-- A rule body as written. -/
inductive Expr where
  /-- A consumed token or a referenced rule; `pin` is the occurrence index asked for. -/
  | leaf (symbol : Symbol String) (pin : Option Nat)
  | group (shape : Shape) (items : List Expr)
  | loop (kind : Repetition) (body : Expr) (separator : Option Terminal)
deriving Repr

namespace Expr

instance : Inhabited Expr := ⟨.group .sequence []⟩

mutual

/-- The leaves of a written body in declaration order with their pinned indices; a separator comes
right after the body it separates and is never pinned. -/
def leaves : Expr → List (Symbol String × Option Nat)
  | .leaf symbol pin => [(symbol, pin)]
  | .group _ items => itemLeaves items
  | .loop _ body separator =>
    leaves body ++ (separator.map fun kind => (Symbol.terminal kind, none)).toList

/-- The leaves of several written bodies, one after the other. -/
def itemLeaves : List Expr → List (Symbol String × Option Nat)
  | [] => []
  | item :: items => leaves item ++ itemLeaves items

end

end Expr

end Descent
