import Descent.Grammar.Node

/-!
# Grammars

A grammar is closed: its rules have their bodies, and nothing is added any more. It keeps the
registry of its terminal kinds, the table of its nodes by number, the table of its rules by number
and that of the numbers of its rules by name. Node numbers that belong to no rule body are possible, since a declaration that fails
leaves the nodes it had numbered behind.
-/

namespace Descent

/-- A declared rule. -/
structure Rule where
  name : String
  body : Node
  /-- Whether a failure inside the rule may be mended by skipping to what follows the rule. -/
  resync : Bool
deriving Inhabited

/-- A closed grammar. -/
structure Grammar where
  name : String
  registry : Registry
  /-- The node with each number, together with the tree below it. -/
  nodes : Array Node
  rules : Array Rule
  /-- The numbers of the rules by their names, newest first. -/
  byName : List (String × RuleId)
deriving Inhabited

namespace Grammar

def terminalName (g : Grammar) (kind : Terminal) : String := g.registry.name kind

/-- The node with a number that has to belong to the grammar. -/
def node (g : Grammar) (id : NodeId) : Except Fault Node :=
  match g.nodes[id]? with
  | some n => .ok n
  | none => .error (.nodeOutOfRange id)

/-- The rule with a number that has to belong to the grammar. -/
def rule (g : Grammar) (id : RuleId) : Except Fault Rule :=
  match g.rules[id]? with
  | some r => .ok r
  | none => .error (.ruleOutOfRange id)

/-- The name of a rule that has to belong to the grammar. -/
def ruleName (g : Grammar) (id : RuleId) : Except Fault String :=
  (g.rule id).map Rule.name

def ruleId? (g : Grammar) (name : String) : Option RuleId := g.byName.lookup name

def ruleIds (g : Grammar) : List RuleId := List.range g.rules.size

end Grammar

end Descent
