import Descent.Grammar.Basic
import Descent.Grammar.Expr

/-!
# Building grammars

A builder collects terminal kinds and rules. Declaring a rule numbers the nodes of its body,
resolves the names in it and gives every leaf its occurrence index: the one its author pinned, or
else the next one after the largest index so far of the same target in the same rule.

A body may mention rules that are declared later, or the rule itself. Whether all mentioned rules
have got a body is checked once, by `build`. A declaration that fails leaves the names it
mentioned and the nodes it numbered behind, and the rule stays without a body.
-/

namespace Descent

/-- A mentioned rule; it has no definition while only references to it have been seen. -/
structure Slot where
  name : String
  definition : Option Rule
deriving Inhabited

namespace Slot

/-- The slot of a rule that gets its definition. -/
def define (slot : Slot) (definition : Rule) : Slot := { slot with definition := some definition }

end Slot

structure Builder where
  name : String
  registry : Registry := {}
  nodes : Array Node := #[]
  slots : Array Slot := #[]
  /-- The numbers of the mentioned rules by their names, newest first. -/
  byName : List (String × RuleId) := []
deriving Inhabited

namespace Builder

def terminal (name : String) (b : Builder) : Except GrammarError (Terminal × Builder) := do
  let (kind, registry) ← b.registry.register name
  return (kind, { b with registry })

def ruleId? (b : Builder) (name : String) : Option RuleId := b.byName.lookup name

/-- The number of a rule, which is mentioned from now on. -/
def declare (name : String) (b : Builder) : RuleId × Builder :=
  match b.ruleId? name with
  | some id => (id, b)
  | none =>
    let id := b.slots.size
    (id, { b with
      slots := b.slots.push { name, definition := none }
      byName := (name, id) :: b.byName })

/-- Gives the rule with a number its definition. -/
def define (b : Builder) (id : RuleId) (definition : Rule) : Builder :=
  { b with slots := b.slots.modify id (·.define definition) }

def isDefined (b : Builder) (id : RuleId) : Bool :=
  (b.slots[id]?.bind Slot.definition).isSome

def isDeclared (b : Builder) (name : String) : Bool :=
  (b.ruleId? name).any b.isDefined

/-- The names that are mentioned but have no body, in ascending order. -/
def missing (b : Builder) : List String :=
  let names := b.slots.toList.filterMap fun slot =>
    if slot.definition.isNone then some slot.name else none
  names.mergeSort fun x y => decide (x ≤ y)

/-- The name written for a leaf's target. -/
def targetName (b : Builder) : Symbol RuleId → String
  | .terminal kind => b.registry.name kind
  | .rule id => (b.slots[id]?.map Slot.name).getD ""

end Builder

/-! ## Occurrence indices -/

/-- The occurrence indices given out so far inside one rule, each with its target, newest first. -/
abbrev Claims := List (Symbol RuleId × Nat)

namespace Claims

/-- The indices given to one target, newest first. -/
def indices (claims : Claims) (target : Symbol RuleId) : List Nat :=
  (claims.filter (·.1 = target)).map Prod.snd

/-- The index an unpinned leaf gets: 1, or one more than the largest index of its target. Counting
past the largest index there is counts as a fault, as it is one where overflow is checked. -/
def next (claims : Claims) (target : Symbol RuleId) : Except Fault Nat :=
  match (claims.indices target).max? with
  | none => .ok 1
  | some largest =>
    if largest < maxOccurrence then .ok (largest + 1) else .error .occurrenceOverflow

end Claims

/-! ## Lowering -/

/-- The state in which one rule body is lowered. -/
structure Lowering where
  builder : Builder
  claims : Claims := []

namespace Lowering

/-- Lowering keeps what it has done when it fails. -/
abbrev LowerM := EStateM Failure Lowering

/-- Numbers a node and puts it into the table. -/
def number (node : NodeId → Node) : LowerM Node := do
  let s ← get
  let n := node s.builder.nodes.size
  set { s with builder.nodes := s.builder.nodes.push n }
  return n

def mention (name : String) : LowerM RuleId := do
  let s ← get
  let (id, builder) := s.builder.declare name
  set { s with builder }
  return id

/-- Gives a leaf its occurrence index inside the rule `enclosing`. -/
def claim (enclosing : String) (target : Symbol RuleId) (pin : Option Nat) : LowerM Nat := do
  let s ← get
  match pin with
  | none =>
    match s.claims.next target with
    | .error fault => throw (.broken fault)
    | .ok index =>
      set { s with claims := (target, index) :: s.claims }
      return index
  | some index =>
    if index = 0 then
      throw (.malformed (.zeroOccurrence enclosing (s.builder.targetName target)))
    if index ∈ s.claims.indices target then
      throw (.malformed (.duplicateOccurrence enclosing (s.builder.targetName target) index))
    set { s with claims := (target, index) :: s.claims }
    return index

def resolve : Symbol String → LowerM (Symbol RuleId)
  | .terminal kind => return .terminal kind
  | .rule name => return .rule (← mention name)

/-- The separator of a repetition, an unpinned leaf that comes after the body. -/
def separator (enclosing : String) (kind : Terminal) : LowerM Separator := do
  let occurrence ← claim enclosing (.terminal kind) none
  let leaf ← number (Node.leaf · (.terminal kind) occurrence)
  return { id := leaf.id, kind, occurrence }

mutual

/-- Lowers a written body: children before their parent, leaves in declaration order. -/
def lower (enclosing : String) : Expr → LowerM Node
  | .leaf symbol pin => do
    let target ← resolve symbol
    let occurrence ← claim enclosing target pin
    number (Node.leaf · target occurrence)
  | .group shape items => do
    let items ← lowerItems enclosing items
    number (Node.group · shape items)
  | .loop kind body none => do
    let body ← lower enclosing body
    number (Node.loop · kind body none)
  | .loop kind body (some sep) => do
    let body ← lower enclosing body
    let sep ← separator enclosing sep
    number (Node.loop · kind body (some sep))

def lowerItems (enclosing : String) : List Expr → LowerM (List Node)
  | [] => return []
  | item :: items => do
    let first ← lower enclosing item
    let rest ← lowerItems enclosing items
    return first :: rest

end

end Lowering

/-! ## Declaring rules and closing the grammar -/

namespace Builder

/-- Declares a rule. Its number is known before its body is lowered, so that the body may refer to
it. On failure the builder keeps the names mentioned and the nodes numbered so far. -/
def rule (name : String) (body : Expr) (resync : Bool) : EStateM Failure Builder RuleId := fun b =>
  let (id, declared) := b.declare name
  if declared.isDefined id then
    .error (.malformed (.duplicateRule declared.name name)) declared
  else
    match Lowering.lower name body { builder := declared } with
    | .error failure s => .error failure s.builder
    | .ok node s => .ok id (s.builder.define id { name, body := node, resync })

/-- Closes the grammar, if every mentioned rule has a body. -/
def build (b : Builder) : Except GrammarError Grammar :=
  if b.slots.all (·.definition.isSome) then
    let rules := b.slots.filterMap Slot.definition
    .ok { name := b.name, registry := b.registry, nodes := b.nodes, rules, byName := b.byName }
  else
    .error (.undeclaredRules b.name b.missing)

end Builder

end Descent
