import Descent.Analysis.Basic
import Descent.Parser.Error
import Descent.Token.Cursor

/-!
# The state of a parse

What does not change during a parse (the analysis, the tokens, the configuration) is its setting;
what changes is its state: the position, the recorded errors, the active rule frames and the number
of trials that are running. A snapshot is three numbers, which suffice to go back as long as what
lies below them has been left alone.
-/

namespace Descent

/-- What a parse is allowed to do. -/
structure Config where
  /-- Whether errors are recovered from. Otherwise the first recognition error goes to the
  caller. -/
  recovery : Bool := false
  /-- Errors beyond this many are still recovered from, but not recorded. -/
  maxErrors : Nat := 100
deriving DecidableEq, Repr, Inhabited

/-- What does not change during a parse. -/
structure Setting where
  analysis : Analysis
  tokens : Array Token
  config : Config

/-- One active rule. -/
structure Frame where
  rule : RuleId
  /-- Which reference of the rule below it this is, or 0 for a rule without a caller. -/
  occurrence : Nat
deriving DecidableEq, Repr, Inhabited

namespace Frame

/-- The frame of a rule without a caller: occurrence indices start at 1. -/
def root (rule : RuleId) : Frame := { rule, occurrence := 0 }

def isRoot (f : Frame) : Bool := f.occurrence == 0

end Frame

/-- A place to go back to. -/
structure Snapshot where
  position : Nat
  errorCount : Nat
  frameCount : Nat
deriving DecidableEq, Repr, Inhabited

/-- What changes during a parse. -/
structure State where
  position : Nat := 0
  /-- The errors recovered from, in the order of their recording. -/
  errors : List ParseError := []
  /-- The active rules, innermost first. -/
  frames : List Frame := []
  /-- How many trials are running. -/
  speculation : Nat := 0
  /-- Snapshots that rule bodies have put aside under a name, newest first. -/
  marks : List (String × Snapshot) := []
deriving DecidableEq, Repr, Inhabited

namespace State

def isSpeculating (s : State) : Bool := 0 < s.speculation

def currentRule? (s : State) : Option RuleId := s.frames.head?.map Frame.rule

def snapshot (s : State) : Snapshot where
  position := s.position
  errorCount := s.errors.length
  frameCount := s.frames.length

/-- Goes back to a place: later errors and inner frames are dropped. -/
def restore (s : State) (place : Snapshot) : State :=
  { s with
    position := place.position
    errors := s.errors.take place.errorCount
    frames := s.frames.drop (s.frames.length - place.frameCount) }

def push (s : State) (f : Frame) : State := { s with frames := f :: s.frames }

def pop (s : State) : State := { s with frames := s.frames.tail }

/-- Puts the present place aside under a name. -/
def mark (s : State) (name : String) : State :=
  { s with marks := (name, s.snapshot) :: s.marks }

/-- The place put aside last under a name. -/
def mark? (s : State) (name : String) : Option Snapshot := s.marks.lookup name

@[simp] theorem restore_snapshot (s : State) : s.restore s.snapshot = s := by
  simp [restore, snapshot]

@[simp] theorem pop_push (s : State) (f : Frame) : (s.push f).pop = s := rfl

end State

namespace Setting

def grammar (e : Setting) : Grammar := e.analysis.grammar

/-- The tokens as seen from a state's position. -/
def cursor (e : Setting) (s : State) : Cursor := { tokens := e.tokens, position := s.position }

/-- Recovery applies only outside of trials. -/
def recovers (e : Setting) (s : State) : Bool := e.config.recovery && !s.isSpeculating

def named (e : Setting) (kind : Terminal) : NamedKind :=
  { kind, name := e.grammar.terminalName kind }

/-- The error that another token is next than the expected one. -/
def mismatch (e : Setting) (s : State) (expected : Terminal) : ParseError :=
  .mismatched (e.named expected) ((e.cursor s).kind?.map e.named) s.position

def resolve (e : Setting) (name : String) : Except GrammarError RuleId :=
  match e.grammar.ruleId? name with
  | some id => .ok id
  | none => .error (.unknownRule e.grammar.name name)

end Setting

end Descent
