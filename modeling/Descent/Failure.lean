/-!
# Grammar errors and faults

Two kinds of trouble are kept apart. A `GrammarError` says that a grammar, or a lookup in what was
derived from it, is malformed; its author can read the message and mend the grammar. A `Fault`
says that a caller broke a precondition, such as passing an id that belongs to no grammar; there
is nothing to report but the fact. `Failure` is either of the two.
-/

namespace Descent

/-- A malformed grammar, or a lookup for something a grammar never declared. -/
inductive GrammarError where
  | duplicateRule (grammar name : String)
  | duplicateTerminal (name : String)
  /-- More kinds were registered than a grammar holds. -/
  | tooManyTerminals (limit : Nat)
  /-- A pinned occurrence index is 0; indices start at 1. -/
  | zeroOccurrence (enclosing target : String)
  | duplicateOccurrence (enclosing target : String) (occurrence : Nat)
  /-- The grammar was closed while these referenced rules had no body. -/
  | undeclaredRules (grammar : String) (missing : List String)
  | unknownRule (grammar name : String)
  /-- A follow key was recorded twice; `key` is its text. -/
  | duplicateKey (key : String)
  /-- A follow key was looked up that was never recorded; `key` is its text. -/
  | missingKey (key : String)
deriving DecidableEq, Repr, Inhabited

/-- The sentence shown to the grammar's author. -/
def GrammarError.message : GrammarError → String
  | .duplicateRule grammar name =>
    s!"rule `{name}` is declared more than once in grammar `{grammar}`"
  | .duplicateTerminal name => s!"terminal `{name}` is registered more than once"
  | .tooManyTerminals limit => s!"a grammar may declare at most {limit} terminal kinds"
  | .zeroOccurrence enclosing target =>
    s!"occurrence indices start at 1, but `{target}` in rule `{enclosing}` uses 0"
  | .duplicateOccurrence enclosing target occurrence =>
    s!"occurrence {occurrence} of `{target}` is claimed twice inside rule `{enclosing}`"
  | .undeclaredRules grammar missing =>
    s!"grammar `{grammar}` analyzed before these rules were declared: " ++ ", ".intercalate missing
  | .unknownRule grammar name => s!"grammar `{grammar}` has no rule named `{name}`"
  | .duplicateKey key => s!"follow key `{key}` recorded twice"
  | .missingKey key => s!"no follow set recorded for `{key}`"

/-- A broken precondition. -/
inductive Fault where
  | terminalOutOfRange (index : Nat)
  | nodeOutOfRange (id : Nat)
  | ruleOutOfRange (id : Nat)
  /-- No occurrence index is left after the largest one. -/
  | occurrenceOverflow
  | positionOutOfRange (position count : Nat)
  /-- A position or an offset does not fit in 64 bits. -/
  | addressOverflow
  /-- A grammar definition gave up instead of producing a grammar. -/
  | definitionAborted
deriving DecidableEq, Repr, Inhabited

/-- Why an operation gave no value. -/
inductive Failure where
  | malformed (error : GrammarError)
  | broken (fault : Fault)
deriving DecidableEq, Repr, Inhabited

/-- Positions, offsets and counts are 64-bit words: the first value that does not fit. -/
def addressLimit : Nat := 0x10000000000000000

/-- The largest occurrence index, a 32-bit word. -/
def maxOccurrence : Nat := 0xFFFFFFFF

end Descent
