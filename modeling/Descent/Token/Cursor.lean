import Descent.Token.Basic

/-!
# Cursors

A cursor is a place in a stream of tokens, which it never leaves: past the last token there is no
current token. Two scans look for the first token of a set. `findResync` looks without moving,
`synchronize` moves there.
-/

namespace Descent

/-- A place in a stream of tokens. -/
structure Cursor where
  tokens : Array Token
  position : Nat := 0
deriving Repr, Inhabited

namespace Cursor

def count (c : Cursor) : Nat := c.tokens.size

def current? (c : Cursor) : Option Token := c.tokens[c.position]?

def kind? (c : Cursor) : Option Terminal := c.current?.map Token.kind

/-- The kind of the token `n` places after the next one. -/
def ahead? (c : Cursor) (n : Nat) : Option Terminal := c.tokens[c.position + n]?.map Token.kind

/-- The kind of the token `n` places after the next one; the place has to be an address. -/
def peek (c : Cursor) (n : Nat) : Except Fault (Option Terminal) :=
  if c.position + n < addressLimit then .ok (c.ahead? n) else .error .addressOverflow

/-- The byte offset of the next token, or else of the end of the last one. -/
def offset (c : Cursor) : Except Fault Nat :=
  match c.current? with
  | some token => .ok token.offset
  | none =>
    match c.tokens.back? with
    | none => .ok 0
    | some last => last.endOffset

def check (c : Cursor) (kind : Terminal) : Bool := c.kind? == some kind

def atEnd (c : Cursor) : Bool := c.tokens.size ≤ c.position

/-- The next token, and the cursor after it. -/
def advance (c : Cursor) : Option Token × Cursor :=
  match c.current? with
  | some token => (some token, { c with position := c.position + 1 })
  | none => (none, c)

/-- Moves the cursor to a position, which has to be in the stream or at its end. -/
def seek (c : Cursor) (position : Nat) : Except Fault Cursor :=
  if position ≤ c.tokens.size then .ok { c with position }
  else .error (.positionOutOfRange position c.tokens.size)

def remaining (c : Cursor) : List Token := c.tokens.toList.drop c.position

/-- The first of the tokens whose kind is in the set: how many come before it, and its kind. -/
def scanFor (recovery : TerminalSet) : List Token → Option (Nat × Terminal)
  | [] => none
  | token :: tokens =>
    if recovery.contains token.kind then some (0, token.kind)
    else (scanFor recovery tokens).map fun (n, kind) => (n + 1, kind)

/-- Looks for the first token of a set that is left: how many tokens come before it, and its
kind. -/
def findResync (c : Cursor) (recovery : TerminalSet) : Option (Nat × Terminal) :=
  scanFor recovery c.remaining

/-- Skips at most `bound` tokens, up to the first one of a set. -/
def skipTo (recovery : TerminalSet) : Nat → Cursor → Option Nat × Cursor
  | 0, c => (none, c)
  | bound + 1, c =>
    match c.kind? with
    | none => (none, c)
    | some kind =>
      if recovery.contains kind then (some 0, c)
      else
        let (skipped, c) := skipTo recovery bound c.advance.2
        (skipped.map (· + 1), c)

/-- Moves to the first token of a set that is left and counts the skipped tokens. Where there is
none the cursor ends past the last token. -/
def synchronize (c : Cursor) (recovery : TerminalSet) : Option Nat × Cursor :=
  skipTo recovery (c.count + 1) c

end Cursor

end Descent
