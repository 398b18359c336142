import Descent.Grammar.Basic

/-!
# What is left to match

At every leaf of a rule body there are two lists of what the rule may still match afterwards: the
siblings after the current node at its own nesting level, and the rest of every enclosing level,
innermost first. One after the other they are all that the enclosing rule may still match, read
like the items of a sequence. `Node.walk` visits the leaves of a tree in declaration order with
both lists at hand.
-/

namespace Descent

/-- One element of a rest. -/
inductive Entry where
  /-- A node that is matched next. -/
  | node (id : NodeId)
  /-- A further iteration of a repetition, which may be left out. It starts with the separator
  where there is one, otherwise with the body. -/
  | again (body : NodeId) (separator : Option NodeId)
deriving DecidableEq, Repr, Inhabited

/-- What is left to match, read from left to right. -/
abbrev Rest := List Entry

/-- A leaf as met on a walk, with the rest of its own level and of the levels around it. -/
structure Visit where
  symbol : Symbol RuleId
  occurrence : Nat
  current : Rest
  outer : Rest
deriving DecidableEq, Repr

namespace Visit

/-- Everything the rule may still match after the leaf. -/
def rest (v : Visit) : Rest := v.current ++ v.outer

end Visit

namespace Node

/-- Walks a repetition, given how its body and its separator are walked. After an iteration of a
repeating body comes a further iteration or the rest of the repetition; after a separator always
comes another body. The separator of an optional body is never matched, and not visited. -/
def walkLoop (kind : Repetition) (body : NodeId) (separator : Option NodeId)
    (walkBody walkSeparator : Rest → Rest → List Visit) (current outer : Rest) : List Visit :=
  if kind.repeats then
    let full := .again body separator :: (current ++ outer)
    walkBody [] full ++ walkSeparator [] (.node body :: full)
  else
    walkBody [] (current ++ outer)

def walkSeparator (separator : Option Separator) (current outer : Rest) : List Visit :=
  match separator with
  | none => []
  | some s => [{ symbol := .terminal s.kind, occurrence := s.occurrence, current, outer }]

mutual

/-- The leaves of a tree in declaration order, given the rest after the tree. -/
def walk : Node → Rest → Rest → List Visit
  | .leaf _ symbol occurrence, current, outer => [{ symbol, occurrence, current, outer }]
  | .group _ .alternation branches, current, outer => walkBranches branches (current ++ outer)
  | .group _ _ items, current, outer => walkItems items (current ++ outer)
  | .loop _ kind body separator, current, outer =>
    walkLoop kind body.id (separator.map Separator.id) (walk body) (walkSeparator separator)
      current outer

/-- Siblings in sequence: each sees the siblings after it as its own level's rest. -/
def walkItems : List Node → Rest → List Visit
  | [], _ => []
  | item :: items, outer =>
    walk item (items.map fun n => .node n.id) outer ++ walkItems items outer

/-- Branches of a choice: all of them see the same rest, which is that of an outer level. -/
def walkBranches : List Node → Rest → List Visit
  | [], _ => []
  | branch :: branches, outer => walk branch [] outer ++ walkBranches branches outer

end

/-- Walks a repetition whose separator can be any node. -/
def walkRepetition (kind : Repetition) (body : Node) (separator : Option Node)
    (current outer : Rest) : List Visit :=
  walkLoop kind body.id (separator.map Node.id) body.walk
    (fun current outer => (separator.map fun s => s.walk current outer).getD []) current outer

end Node

/-- Walks the body of a rule. Nothing is left to match after a body from the rule's own point of
view. -/
def Rule.walk (r : Rule) : List Visit := r.body.walk [] []

end Descent
