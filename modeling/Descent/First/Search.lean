import Descent.Grammar.Walk
import Std.Data.TreeMap

/-!
# FIRST sets

The FIRST set of a node holds the terminal kinds that can be the first token matched by the node;
beside it stands whether the node is nullable, that is, can match no token at all.

The engine searches depth first and remembers what it found for each node. A rule that is met again
while its own body is being searched counts as not nullable and adds no kind. Such a rule is noted
as approximated, and every result that leaned on the cut is pending on the rule: it is remembered
only once no rule it is pending on is active any more.
-/

namespace Descent

/-- A FIRST set, and whether no token at all can be matched. -/
structure Info where
  first : TerminalSet := ∅
  nullable : Bool := false
deriving DecidableEq, Repr, Inhabited

/-- A search result, with the active rules at which the search was cut. -/
structure Scan where
  info : Info := {}
  pending : List RuleId := []
deriving DecidableEq, Repr, Inhabited

/-- The search state. -/
structure Engine where
  /-- What was found for nodes, by number. -/
  memo : Std.TreeMap NodeId Info := {}
  /-- The rules whose bodies are being searched, innermost first. -/
  active : List RuleId := []
  /-- The rules that were met again while active, in the order of their discovery. -/
  approximated : List RuleId := []

namespace Engine

def remember (e : Engine) (id : NodeId) (info : Info) : Engine :=
  { e with memo := e.memo.insert id info }

/-- Notes that a rule was met again while active. -/
def approximate (e : Engine) (r : RuleId) : Engine :=
  if r ∈ e.approximated then e else { e with approximated := e.approximated ++ [r] }

def enter (e : Engine) (r : RuleId) : Engine := { e with active := r :: e.active }

def leave (e : Engine) : Engine := { e with active := e.active.tail }

end Engine

namespace Scan

/-- The rules that either of two results is pending on. -/
def joinPending (a b : List RuleId) : List RuleId := a ++ b.filter (· ∉ a)

/-- The first of two items in a row, followed by the second. -/
def andThen (a b : Scan) : Scan where
  info := { first := a.info.first ∪ b.info.first, nullable := a.info.nullable && b.info.nullable }
  pending := joinPending a.pending b.pending

def orElse (a b : Scan) : Scan where
  info := { first := a.info.first ∪ b.info.first, nullable := a.info.nullable || b.info.nullable }
  pending := joinPending a.pending b.pending

/-- A result once the search of `r` has ended: it is no longer pending on `r`. -/
def settle (s : Scan) (r : RuleId) : Scan := { s with pending := s.pending.filter (· ≠ r) }

def loop (s : Scan) (kind : Repetition) : Scan :=
  { s with info.nullable := kind.allowsEmpty || s.info.nullable }

end Scan

/-- A search gives its result and the state that it leaves behind. -/
abbrev Search := Engine → Scan × Engine

namespace Search

/-- Remembers a result that is pending on nothing. -/
def keep (id : NodeId) (s : Scan) : Search := fun e =>
  (s, if s.pending.isEmpty then e.remember id s.info else e)

/-- What is remembered for a node, or else the outcome of a search. -/
def memoized (id : NodeId) (search : Search) : Search := fun e =>
  match e.memo[id]? with
  | some info => ({ info }, e)
  | none =>
    let found := search e
    keep id found.1 found.2

mutual

/-- Searches a tree, given how to search a referenced rule. -/
def node (enter : RuleId → Search) : Node → Search
  | .leaf id (.terminal kind) _ => memoized id fun e => ({ info.first := .single kind }, e)
  | .leaf id (.rule target) _ => memoized id (enter target)
  | .group id .alternation branches => memoized id (branchesOf enter branches)
  | .group id _ items => memoized id (itemsOf enter items)
  | .loop id kind body _ => memoized id fun e =>
    let found := node enter body e
    (found.1.loop kind, found.2)

/-- Searches items in a row, up to the first one that is not nullable. -/
def itemsOf (enter : RuleId → Search) : List Node → Search
  | [] => fun e => ({ info.nullable := true }, e)
  | item :: items => fun e =>
    let head := node enter item e
    if head.1.info.nullable then
      let tail := itemsOf enter items head.2
      (head.1.andThen tail.1, tail.2)
    else
      head

def branchesOf (enter : RuleId → Search) : List Node → Search
  | [] => fun e => ({}, e)
  | branch :: branches => fun e =>
    let head := node enter branch e
    let tail := branchesOf enter branches head.2
    (head.1.orElse tail.1, tail.2)

end

/-- Searches the body of a rule. At most `budget` further rules can become active; as many as the
grammar has rules is always enough, since no rule becomes active twice. -/
def rule (g : Grammar) (budget : Nat) (r : RuleId) : Search := fun e =>
  if r ∈ e.active then ({ pending := [r] }, e.approximate r)
  else
    match budget, g.rules[r]? with
    | budget + 1, some rule =>
      match e.memo[rule.body.id]? with
      | some info => ({ info }, e)
      | none =>
        let found := node (Search.rule g budget) rule.body (e.enter r)
        keep rule.body.id (found.1.settle r) found.2.leave
    | _, _ => ({}, e)

@[simp] theorem keep_active (id : NodeId) (s : Scan) (e : Engine) :
    (keep id s e).2.active = e.active := by
  unfold keep
  dsimp only
  split <;> rfl

@[simp] theorem approximate_active (e : Engine) (r : RuleId) :
    (e.approximate r).active = e.active := by
  unfold Engine.approximate
  split <;> rfl

end Search

end Descent
