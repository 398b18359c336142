import Descent.First.Query
import Descent.Follow.Table

/-!
# Follow sets

For every rule reference of a grammar, the kinds that may come right after it within the rule
around it: the FIRST set of the rest at that leaf. When a referenced rule fails, tokens are skipped
until one of these shows up. The same is computed for every consumed kind, and says when a missing
token may be made up.

Each rule is walked on its own, and the tables of the rules are put together.
-/

namespace Descent

namespace Follow

variable {τ : Type} [Ord τ] [KeyTarget τ]

/-- Asks the FIRST engine for the set that starts a rest. -/
def firstOfRest (g : Grammar) (rest : Rest) (e : Engine) : Except Failure (TerminalSet × Engine) :=
  match e.restInfo g rest with
  | .ok (info, e) => .ok (info.first, e)
  | .error fault => .error (.broken fault)

/-- Changes a table, or fails as the change does. -/
def update (t : Table τ) (change : EStateM Failure (Table τ) Unit) : Except Failure (Table τ) :=
  match change t with
  | .ok () t => .ok t
  | .error failure _ => .error failure

/-- Records the follow set of each visited leaf that `pick` selects. -/
def ofVisits (pick : Symbol RuleId → Option τ) (g : Grammar) (enclosing : RuleId) :
    List Visit → Table τ → Engine → Except Failure (Table τ × Engine)
  | [], t, e => return (t, e)
  | v :: visits, t, e =>
    match pick v.symbol with
    | none => ofVisits pick g enclosing visits t e
    | some target => do
      let (set, e) ← firstOfRest g v.rest e
      let key := { target, occurrence := v.occurrence, enclosing }
      let t ← update t (Table.record g key set)
      ofVisits pick g enclosing visits t e

/-- The follow sets of the selected leaves of one rule, which has to belong to the grammar. -/
def ofRule (pick : Symbol RuleId → Option τ) (g : Grammar) (r : RuleId) (e : Engine) :
    Except Failure (Table τ × Engine) :=
  match g.rule r with
  | .error fault => .error (.broken fault)
  | .ok rule => ofVisits pick g r rule.walk {} e

/-- The follow sets of the selected leaves of several rules. -/
def ofRules (pick : Symbol RuleId → Option τ) (g : Grammar) :
    List RuleId → Table τ → Engine → Except Failure (Table τ × Engine)
  | [], t, e => return (t, e)
  | r :: rs, t, e => do
    let (own, e) ← ofRule pick g r e
    let t ← update t (Table.merge g own)
    ofRules pick g rs t e

def references : Symbol RuleId → Option RuleId
  | .rule target => some target
  | .terminal _ => none

def consumptions : Symbol RuleId → Option Terminal
  | .terminal kind => some kind
  | .rule _ => none

/-- The follow sets of every rule reference in the grammar. -/
def betweenRules (g : Grammar) (e : Engine) : Except Failure (FollowTable × Engine) :=
  ofRules references g g.ruleIds {} e

/-- The follow sets of every consumed kind in the grammar. -/
def inRules (g : Grammar) (e : Engine) : Except Failure (TerminalFollowTable × Engine) :=
  ofRules consumptions g g.ruleIds {} e

end Follow

end Descent
