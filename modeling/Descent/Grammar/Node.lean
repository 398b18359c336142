import Descent.Terminal.Registry

/-!
# Nodes of rule bodies

A rule body is a tree of nodes. Each node has a number of its own, which names it in the memo of
FIRST sets and in follow computations: two equal subtrees at different places are different nodes.
A leaf consumes a token or refers to a rule, and carries the index that tells it from the other
leaves of the same rule with the same target. References go by rule number, so a recursive grammar
is a cycle among numbers and every tree is finite.
-/

namespace Descent

/-- The number of a rule: rules are numbered as they are first mentioned. -/
abbrev RuleId := Nat

/-- The number of a node: children are numbered before their parent. -/
abbrev NodeId := Nat

/-- What a leaf stands for: a token of some kind, or another rule. Rules are named in the way of
`ρ`: by a written name, or by number once names are resolved. -/
inductive Symbol (ρ : Type) where
  | terminal (kind : Terminal)
  | rule (target : ρ)
deriving DecidableEq, Repr

/-- How often the body of a repetition may match. -/
inductive Repetition where
  | optional
  | zeroOrMore
  | oneOrMore
deriving DecidableEq, Repr, Inhabited

namespace Repetition

/-- Whether the repetition as a whole can match no token. -/
def allowsEmpty : Repetition → Bool
  | .optional | .zeroOrMore => true
  | .oneOrMore => false

/-- Whether the body may run again after one iteration. -/
def repeats : Repetition → Bool
  | .optional => false
  | .zeroOrMore | .oneOrMore => true

end Repetition

/-- How the items of a group are put together. -/
inductive Shape where
  /-- One after the other, as written. -/
  | sequence
  /-- Ordered choice of one. -/
  | alternation
  /-- One after the other, spliced together from fragments; means the same as `sequence`. -/
  | flat
deriving DecidableEq, Repr, Inhabited

theorem Shape.sequence_ne : Shape.sequence ≠ .alternation := nofun

/-- The token between two iterations of a repetition, itself a numbered leaf. -/
structure Separator where
  id : NodeId
  kind : Terminal
  occurrence : Nat
deriving DecidableEq, Repr

/-- A numbered node of a rule body, with the subtree below it. -/
inductive Node where
  | leaf (id : NodeId) (symbol : Symbol RuleId) (occurrence : Nat)
  | group (id : NodeId) (shape : Shape) (items : List Node)
  | loop (id : NodeId) (kind : Repetition) (body : Node) (separator : Option Separator)
deriving Repr

namespace Node

def id : Node → NodeId
  | .leaf id .. | .group id .. | .loop id .. => id

end Node

instance : Inhabited Node := ⟨.group 0 .sequence []⟩

def Separator.node (s : Separator) : Node := .leaf s.id (.terminal s.kind) s.occurrence

namespace Node

/-- The nodes right below a node in declaration order, a separator after its body. -/
def children : Node → List Node
  | .leaf .. => []
  | .group _ _ items => items
  | .loop _ _ body separator => body :: (separator.map Separator.node).toList

mutual

/-- The leaves of a tree in declaration order, a separator right after its body. -/
def leaves : Node → List (Symbol RuleId × Nat)
  | .leaf _ symbol occurrence => [(symbol, occurrence)]
  | .group _ _ items => itemLeaves items
  | .loop _ _ body separator =>
    leaves body ++ (separator.map fun s => (Symbol.terminal s.kind, s.occurrence)).toList

def itemLeaves : List Node → List (Symbol RuleId × Nat)
  | [] => []
  | item :: items => leaves item ++ itemLeaves items

end

/-! ## Induction over trees -/

/-- What holds of a tree if it holds of the trees right below it, holds of every tree. -/
@[elab_as_elim, induction_eliminator]
theorem treeInduction {motive : Node → Prop}
    (leaf : ∀ id symbol occurrence, motive (.leaf id symbol occurrence))
    (group : ∀ id shape items, (∀ item ∈ items, motive item) → motive (.group id shape items))
    (loop : ∀ id kind body separator, motive body → motive (.loop id kind body separator)) :
    ∀ n : Node, motive n
  | .leaf id symbol occurrence => leaf id symbol occurrence
  | .group id shape items =>
    group id shape items fun item _ => treeInduction leaf group loop item
  | .loop id kind body separator =>
    loop id kind body separator (treeInduction leaf group loop body)

/-- The rule references in a tree, in declaration order, with their occurrence indices. -/
def references (n : Node) : List (RuleId × Nat) :=
  n.leaves.filterMap fun
    | (.rule target, occurrence) => some (target, occurrence)
    | (.terminal _, _) => none

/-- The consumed kinds in a tree, in declaration order, with their occurrence indices. -/
def terminals (n : Node) : List (Terminal × Nat) :=
  n.leaves.filterMap fun
    | (.terminal kind, occurrence) => some (kind, occurrence)
    | (.rule _, _) => none

end Node

end Descent
