import Descent.Follow.Basic

/-!
# Analysed grammars

A grammar together with all that is derived from it: FIRST sets and both follow tables.
-/

namespace Descent

/-- A grammar and what is derived from it. -/
structure Analysis where
  grammar : Grammar
  first : FirstSets
  /-- What may follow each rule reference inside its enclosing rule. -/
  follows : FollowTable
  /-- What may follow each consumed kind inside its enclosing rule. -/
  inRule : TerminalFollowTable

namespace Grammar

/-- Derives everything from a grammar, with one FIRST engine throughout. -/
def analyze (g : Grammar) : Except Failure Analysis := do
  let (follows, engine) ← Follow.betweenRules g {}
  let (inRule, engine) ← Follow.inRules g engine
  return { grammar := g, first := engine.finish g, follows, inRule }

end Grammar

namespace Analysis

/-- The FIRST set of a rule, which has to belong to the grammar. -/
def firstOfRule (a : Analysis) (r : RuleId) : Except Fault TerminalSet :=
  (a.first.rule r).map Info.first

/-- What may follow the `occurrence`-th reference to a rule inside another. -/
def ruleFollows (a : Analysis) (r : RuleId) (occurrence : Nat) (enclosing : RuleId) :
    Except Failure TerminalSet :=
  a.follows.lookup a.grammar { target := r, occurrence, enclosing }

/-- What may follow the `occurrence`-th consumption of a kind inside a rule. -/
def terminalFollows (a : Analysis) (kind : Terminal) (occurrence : Nat) (enclosing : RuleId) :
    Except Failure TerminalSet :=
  a.inRule.lookup a.grammar { target := kind, occurrence, enclosing }

end Analysis

end Descent
