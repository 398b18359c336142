import Descent.Terminal.Registry

/-!
# Tokens

A token has a kind, the text it was read from and the byte offset of that text. Streams of tokens
have no token for their end.
-/

namespace Descent

structure Token where
  kind : Terminal
  text : String
  /-- The byte offset of the token in the source. -/
  offset : Nat
deriving DecidableEq, Repr, Inhabited

namespace Token

/-- A token made up where one was missing. It has no text. -/
def madeUp (kind : Terminal) (offset : Nat) : Token := { kind, text := "", offset }

/-- The byte offset of the end of the token. -/
def endOffset (t : Token) : Except Fault Nat :=
  let last := t.offset + t.text.utf8ByteSize
  if last < addressLimit then .ok last else .error .addressOverflow

end Token

end Descent
