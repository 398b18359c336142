import Descent.First.Search

/-!
# Asking for FIRST sets

One engine answers any number of questions about nodes, rules and rests, and what it remembers lives
on between them. Once every rule has been searched the engine is closed and its results are kept.
-/

namespace Descent

/-! ## Questions -/

namespace Engine

/-- FIRST set and nullability of a tree of the grammar. -/
def searchNode (g : Grammar) (n : Node) (e : Engine) : Info × Engine :=
  let found := Search.node (Search.rule g g.rules.size) n e
  (found.1.info, found.2)

/-- FIRST set and nullability of a rule of the grammar. -/
def searchRule (g : Grammar) (r : RuleId) (e : Engine) : Info × Engine :=
  let found := Search.rule g g.rules.size r e
  (found.1.info, found.2)

/-- FIRST set and nullability of a node that has to belong to the grammar. -/
def nodeInfo (g : Grammar) (id : NodeId) (e : Engine) : Except Fault (Info × Engine) := do
  let n ← g.node id
  return e.searchNode g n

/-- FIRST set and nullability of a rule that has to belong to the grammar. -/
def ruleInfo (g : Grammar) (r : RuleId) (e : Engine) : Except Fault (Info × Engine) := do
  let _ ← g.rule r
  return e.searchRule g r

/-- FIRST set and nullability of one element of a rest. -/
def entryInfo (g : Grammar) (entry : Entry) (e : Engine) : Except Fault (Info × Engine) :=
  match entry with
  | .node id => e.nodeInfo g id
  | .again body separator => do
    let (info, e) ← e.nodeInfo g (separator.getD body)
    return ({ info with nullable := true }, e)

/-- FIRST set and nullability of a rest, read up to the first element that is not nullable. -/
def restInfo (g : Grammar) : Rest → Engine → Except Fault (Info × Engine)
  | [], e => return ({ nullable := true }, e)
  | entry :: entries, e => do
    let (head, e) ← e.entryInfo g entry
    if head.nullable then
      let (tail, e) ← restInfo g entries e
      return ({ tail with first := head.first ∪ tail.first }, e)
    else
      return (head, e)

end Engine

/-- The FIRST set of a node, searched afresh. -/
def Grammar.firstOf (g : Grammar) (id : NodeId) : Except Fault TerminalSet := do
  let (info, _) ← Engine.nodeInfo g id {}
  return info.first

/-! ## Results -/

/-- What is known of FIRST sets once every rule has been searched. -/
structure FirstSets where
  memo : Std.TreeMap NodeId Info
  /-- For each rule, by number. -/
  rules : Array Info
  /-- The rules met again while active, in ascending order. -/
  approximated : List RuleId

namespace FirstSets

/-- What was found for a rule that has to belong to the grammar. -/
def rule (f : FirstSets) (r : RuleId) : Except Fault Info :=
  match f.rules[r]? with
  | some info => .ok info
  | none => .error (.ruleOutOfRange r)

end FirstSets

namespace Engine

def searchRules (g : Grammar) : List RuleId → Engine → List Info × Engine
  | [], e => ([], e)
  | r :: rs, e =>
    let head := e.searchRule g r
    let tail := searchRules g rs head.2
    (head.1 :: tail.1, tail.2)

/-- Searches every rule and closes the engine. -/
def finish (g : Grammar) (e : Engine) : FirstSets :=
  let found := e.searchRules g g.ruleIds
  { memo := found.2.memo
    rules := found.1.toArray
    approximated := found.2.approximated.mergeSort }

end Engine

end Descent
