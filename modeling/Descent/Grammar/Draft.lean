import Descent.Grammar.Builder

/-!
# Grammars in one piece

A draft holds all terminal names and rules of a grammar. Building it registers the terminals in
order, declares the rules in order and closes the grammar; the first failure ends it.
-/

namespace Descent

/-- A rule as written. -/
structure DraftRule where
  name : String
  body : Expr
  resync : Bool := true

/-- A grammar as written. -/
structure Draft where
  name : String
  terminals : List String
  rules : List DraftRule

namespace Draft

def registerAll : List String → Builder → Except Failure Builder
  | [], b => .ok b
  | name :: names, b =>
    match b.terminal name with
    | .ok (_, b) => registerAll names b
    | .error error => .error (.malformed error)

def declareAll : List DraftRule → Builder → Except Failure Builder
  | [], b => .ok b
  | r :: rules, b =>
    match Builder.rule r.name r.body r.resync b with
    | .ok _ b => declareAll rules b
    | .error failure _ => .error failure

def build (d : Draft) : Except Failure Grammar := do
  let b ← registerAll d.terminals { name := d.name }
  let b ← declareAll d.rules b
  match b.build with
  | .ok g => return g
  | .error error => throw (.malformed error)

end Draft

end Descent
