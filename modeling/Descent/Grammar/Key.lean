import Descent.Grammar.Basic

/-!
# Keys of the follow tables

A key names one leaf of a rule body: what it stands for, which of the leaves with that target it
is, and the rule around it. Keys are compared field by field in that order. The text of a key is
for messages only.
-/

namespace Descent

/-- One leaf: the `occurrence`-th one with this target inside the rule `enclosing`. -/
structure Key (τ : Type) where
  target : τ
  occurrence : Nat
  enclosing : RuleId
deriving DecidableEq, Repr, Inhabited

abbrev FollowKey := Key RuleId

abbrev TerminalKey := Key Terminal

namespace Key

variable {τ : Type}

instance [Ord τ] : Ord (Key τ) where
  compare := compareLex (compareOn Key.target)
    (compareLex (compareOn Key.occurrence) (compareOn Key.enclosing))

theorem compare_def [Ord τ] (a b : Key τ) :
    compare a b = (compare a.target b.target).then
      ((compare a.occurrence b.occurrence).then (compare a.enclosing b.enclosing)) := rfl

instance [Ord τ] [Std.TransOrd τ] : Std.TransOrd (Key τ) :=
  inferInstanceAs (Std.TransCmp (compareLex (compareOn Key.target)
    (compareLex (compareOn Key.occurrence) (compareOn Key.enclosing))))

instance [Ord τ] [Std.LawfulEqOrd τ] : Std.LawfulEqOrd (Key τ) where
  compare_self := by simp [compare_def]
  eq_of_compare {a b} h := by
    rw [compare_def, Ordering.then_eq_eq, Ordering.then_eq_eq] at h
    obtain ⟨target, occurrence, enclosing⟩ := h
    cases a
    cases b
    rw [Std.LawfulEqOrd.compare_eq_iff_eq] at target occurrence enclosing
    exact Key.mk.injEq .. ▸ ⟨target, occurrence, enclosing⟩

/-- What stands between the occurrence and the enclosing rule in the text of a key. -/
def inMark : String := "_~IN~_"

/-- The text of a key up to the name of the enclosing rule. -/
def textStem (target : String) (occurrence : Nat) : String :=
  target ++ toString occurrence ++ inMark

/-- The text of a key whose target has this name; the enclosing rule has to belong to the
grammar. -/
def textWith (g : Grammar) (target : String) (key : Key τ) : Except Fault String := do
  let enclosing ← g.ruleName key.enclosing
  return textStem target key.occurrence ++ enclosing

end Key

/-- Targets of keys that have a name in a grammar. -/
class KeyTarget (τ : Type) where
  /-- The target's name. -/
  nameIn : Grammar → τ → Except Fault String

instance : KeyTarget RuleId where
  nameIn := Grammar.ruleName

instance : KeyTarget Terminal where
  nameIn g kind := .ok (g.terminalName kind)

/-- The text of a key in messages. -/
def Key.text {τ : Type} [KeyTarget τ] (g : Grammar) (key : Key τ) : Except Fault String := do
  let target ← KeyTarget.nameIn g key.target
  key.textWith g target

/-- A rule number as a developer sees it. -/
def RuleId.debugText (id : RuleId) : String := s!"RuleId({id})"

/-- A key of the between-rules table as a developer sees it. -/
def FollowKey.debugText (key : FollowKey) : String :=
  "FollowKey \x7b rule: " ++ RuleId.debugText key.target ++ ", occurrence: " ++
    toString key.occurrence ++ ", enclosing: " ++ RuleId.debugText key.enclosing ++ " \x7d"

/-- A key of the in-rule table as a developer sees it. -/
def TerminalKey.debugText (key : TerminalKey) : String :=
  "TerminalKey \x7b terminal: " ++ Terminal.debugText key.target ++ ", occurrence: " ++
    toString key.occurrence ++ ", enclosing: " ++ RuleId.debugText key.enclosing ++ " \x7d"

end Descent
