import Descent.Parser.Action

/-!
# Consuming tokens and calling rules, with recovery

A rule body consumes tokens and calls rules. Each active rule has a frame that tells which reference
of its caller it is; that is the key of what may follow it.

Where recovery applies, a token that does not match is mended by dropping it if the expected token
comes next, or else by making up the expected token if the present one may follow it. A called rule
that fails is mended by skipping to the first token that some active rule could go on from. If that
token may follow the failed rule itself, the rule ends with its recovery value; otherwise the error
goes on, and the caller gets its chance. Every error mended is recorded.
-/

namespace Descent

namespace Setting

/-- Records an error, unless as many as allowed are recorded already. -/
def recordError (e : Setting) (error : ParseError) (s : State) : State :=
  if s.errors.length < e.config.maxErrors then { s with errors := s.errors ++ [error] } else s

/-- Mends a mismatch by dropping the next token: the one after it is the expected one. -/
def dropToken (e : Setting) (s : State) (token : Token) (error : ParseError) : Action Token := do
  Action.report (.deleted s.position)
  Action.handOut (s.position + 1)
  Action.modify (e.recordError error)
  return token

/-- Mends a mismatch by making up the expected token, if the next one may follow it. -/
def makeUpToken (e : Setting) (s : State) (kind : Terminal) (occurrence : Nat)
    (error : ParseError) : Action Token :=
  match s.currentRule?, (e.cursor s).current? with
  | some rule, some current => do
    let follows ← Action.ofLookup (e.analysis.terminalFollows kind occurrence rule)
    if follows.contains current.kind then
      let token := Token.madeUp kind current.offset
      Action.modify (e.recordError error)
      Action.report (.madeUp token)
      return token
    else
      Action.fail error
  | _, _ => Action.fail error

/-- The token at an index, if it is of a kind. -/
def tokenOf? (e : Setting) (index : Nat) (kind : Terminal) : Option Token :=
  e.tokens[index]?.filter (·.kind = kind)

/-- Consumes a token of a kind, as the `occurrence`-th such consumption of the current rule. -/
def consume (e : Setting) (kind : Terminal) (occurrence : Nat) : Action Token := do
  let s ← Action.getState
  match e.tokenOf? s.position kind with
  | some token =>
    Action.handOut s.position
    return token
  | none =>
    let error := e.mismatch s kind
    if e.recovers s then
      match e.tokenOf? (s.position + 1) kind with
      | some token => e.dropToken s token error
      | none => e.makeUpToken s kind occurrence error
    else
      Action.fail error

/-- What may follow a frame inside the rule that called it. -/
def frameFollows (e : Setting) (frame caller : Frame) : Except Failure TerminalSet :=
  e.analysis.ruleFollows frame.rule frame.occurrence caller.rule

/-- What some active rule could go on from: all that may follow a frame that has a caller. Outer
frames are looked up before inner ones. -/
def resyncSet (e : Setting) : List Frame → Except Failure TerminalSet
  | frame :: caller :: frames => do
    let outer ← e.resyncSet (caller :: frames)
    if frame.isRoot then return outer
    let own ← e.frameFollows frame caller
    return outer ∪ own
  | _ => return ∅

/-- Whether failures of a rule may be mended by skipping. -/
def resyncs (e : Setting) (r : RuleId) : Bool := (e.grammar.rules[r]?).any Rule.resync

/-- The place at which the innermost rule can be resumed after a failure: how many tokens to skip,
and the kind found there. -/
def resumePoint (e : Setting) (s : State) : Except Failure (Option (Nat × Terminal)) :=
  match s.frames with
  | frame :: caller :: _ =>
    if frame.isRoot || !e.resyncs frame.rule then .ok none
    else do
      let own ← e.frameFollows frame caller
      let recovery ← e.resyncSet s.frames
      return ((e.cursor s).findResync recovery).filter fun (_, kind) => own.contains kind
  | _ => .ok none

def skipTo (e : Setting) (kind : Terminal) : Action Unit := do
  let s ← Action.getState
  let (_, moved) := (e.cursor s).synchronize (.single kind)
  Action.modify ({ · with position := moved.position })
  Action.reportAll ((List.range' s.position (moved.position - s.position)).map .skipped)

/-- Mends the failure of the innermost rule, or fails with its error. -/
def resync {V : Type} (e : Setting) (name : String) (recovery : V) (error : ParseError) :
    Action V := do
  match ← Action.ofLookup (e.resumePoint (← Action.getState)) with
  | none => Action.fail error
  | some (_, kind) =>
    e.skipTo kind
    Action.modify (e.recordError error)
    Action.report (.recovered name)
    return recovery

/-- Runs a rule body in a frame of its own, whatever comes of it. -/
def inFrame {V : Type} (frame : Frame) (body : Action V) : Action V := do
  Action.modify (·.push frame)
  let result ← body.attempt
  Action.modify State.pop
  Action.ofResult result

/-- Runs a rule without a caller. There is nothing to resume, so a failure is not mended. -/
def invoke {V : Type} (e : Setting) (name : String) (body : Action V) : Action V :=
  match e.resolve name with
  | .error error => Action.raise error
  | .ok id => inFrame (.root id) body

/-- Runs a rule body, and mends its failure where recovery applies. -/
def orResync {V : Type} (e : Setting) (name : String) (recovery : V) (body : Action V) :
    Action V :=
  body.andThen fun
    | .ok value => return value
    | .error error => do
      if error.isRecognition && e.recovers (← Action.getState) then e.resync name recovery error
      else Action.fail error

/-- Calls a rule, as the `occurrence`-th reference to it in the current rule. -/
def subrule {V : Type} (e : Setting) (name : String) (recovery : V) (occurrence : Nat)
    (body : Action V) : Action V :=
  match e.resolve name with
  | .error error => Action.raise error
  | .ok id => inFrame { rule := id, occurrence } (e.orResync name recovery body)

end Setting

end Descent
