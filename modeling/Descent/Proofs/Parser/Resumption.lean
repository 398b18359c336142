import Descent.Proofs.Parser.Rollback
import Descent.Proofs.Token.Scans

/-!
# Where a failed parse is resumed

When a rule body fails, each call around it looks for the first token that it or a call further out
could go on from, and mends the failure only if that token may follow the call itself. Each call
looks with its own set, but they all find the same token: what an inner call adds to the set cannot
come first, or the inner call would have mended the failure. So the innermost call that the token
may follow resumes there, and if there is no such token the error comes out of all of them
(`Setting.resync_resumes_innermost`).

`Setting.Stuck` is the situation while the error is on its way out. A call that does not mend the
failure leaves its caller stuck in the same way (`Stuck.step`), which is repeated up to the one that
does (`Stuck.resumes`) or to the outermost rule (`Stuck.surfaces`).
-/

namespace Descent

variable {V : Type}

/-- A call of a rule that has not ended yet. -/
structure ActiveCall (V : Type) where
  callee : Callee V
  id : RuleId
  occurrence : Nat
  /-- What may follow the call in the rule that made it. -/
  own : TerminalSet
  /-- The state in which the call was made. -/
  start : State

namespace ActiveCall

def frame (c : ActiveCall V) : Frame := { rule := c.id, occurrence := c.occurrence }

/-- The state in which the body starts. -/
def entry (c : ActiveCall V) : State := c.start.push c.frame

/-- The frames of calls, the innermost first, and of the rule that they are made from. -/
def stack (root : ActiveCall V) (calls : List (ActiveCall V)) : List Frame :=
  calls.map frame ++ [root.frame]

/-- The innermost of the calls, or the rule that they are made from if there is none. -/
def innermost (root : ActiveCall V) : List (ActiveCall V) → ActiveCall V
  | [] => root
  | c :: _ => c

/-- What may follow some call. -/
def owned (calls : List (ActiveCall V)) : TerminalSet :=
  calls.foldr (fun c set => set ∪ c.own) ∅

end ActiveCall

namespace Setting

open ActiveCall (stack innermost owned)

/-- If the call `c` fails, the body of `caller` ends with its error right away. -/
def PassesOn (e : Setting) (caller c : ActiveCall V) : Prop :=
  ∀ ⦃error t⦄, (e.call c.callee c.occurrence).Ends c.start (.error error) t →
    caller.callee.body.Ends caller.entry (.error error) t

/-- The call `c` is made from `caller`: it may be resynced, it is known what may follow it, and
`caller` passes its error on. -/
structure CalledBy (e : Setting) (c caller : ActiveCall V) : Prop where
  resolved : e.resolve c.callee.name = .ok c.id
  indexed : c.occurrence ≠ 0
  resyncs : e.resyncs c.id = true
  follows : e.frameFollows c.frame caller.frame = .ok c.own
  passes : e.PassesOn caller c

/-- Each call is made from the next one, and the last one from `root`. -/
inductive Nested (e : Setting) (root : ActiveCall V) : List (ActiveCall V) → Prop
  | nil : e.Nested root []
  | cons {c : ActiveCall V} {outer : List (ActiveCall V)}
      (hc : e.CalledBy c (innermost root outer)) (ho : e.Nested root outer) :
      e.Nested root (c :: outer)

/-- The innermost of the active bodies has failed outside of trials, with recovery. -/
structure Stuck (e : Setting) (root : ActiveCall V) (calls : List (ActiveCall V))
    (error : ParseError) (t : State) : Prop where
  nested : e.Nested root calls
  frames : t.frames = stack root calls
  recovers : e.recovers t = true
  recognition : error.isRecognition = true
  fails : (innermost root calls).callee.body.Ends (innermost root calls).entry (.error error) t

variable {e : Setting} {root c : ActiveCall V} {calls outer : List (ActiveCall V)}
  {error : ParseError} {s t u : State}

theorem stack_eq_cons (root : ActiveCall V) (calls : List (ActiveCall V)) :
    ∃ rest, stack root calls = (innermost root calls).frame :: rest := by
  cases calls with
  | nil => exact ⟨_, rfl⟩
  | cons c outer => exact ⟨_, rfl⟩

theorem CalledBy.isRoot {caller : ActiveCall V} (h : e.CalledBy c caller) :
    c.frame.isRoot = false := by
  simpa [ActiveCall.frame, Frame.isRoot] using h.indexed

theorem resyncSet_of_nested (h : e.Nested root calls) :
    e.resyncSet (stack root calls) = .ok (owned calls) := by
  induction h with
  | nil => rfl
  | @cons c outer hc _ ih =>
    obtain ⟨rest, hrest⟩ := stack_eq_cons root outer
    have hframes : stack root (c :: outer) = c.frame :: (innermost root outer).frame :: rest :=
      congrArg (c.frame :: ·) hrest
    rw [hrest] at ih
    simp only [hframes, resyncSet, ih, hc.isRoot, hc.follows]
    rfl

theorem Stuck.resumePoint (h : e.Stuck root (c :: outer) error t) :
    e.resumePoint t = .ok (((e.cursor t).findResync (owned (c :: outer))).filter
      fun (_, kind) => c.own.contains kind) := by
  cases h.nested with
  | cons hc ho =>
    obtain ⟨rest, hrest⟩ := stack_eq_cons root outer
    have hframes : t.frames = c.frame :: (innermost root outer).frame :: rest :=
      h.frames.trans (congrArg (c.frame :: ·) hrest)
    have hset : e.resyncSet (c.frame :: (innermost root outer).frame :: rest) =
        .ok (owned (c :: outer)) := by
      rw [← hframes, h.frames]
      exact resyncSet_of_nested h.nested
    have hresyncs : e.resyncs c.frame.rule = true := hc.resyncs
    simp only [Setting.resumePoint, hframes, hc.isRoot, hresyncs, hc.follows, hset]
    rfl

/-- A call of a rule whose body fails ends as its resync does. -/
theorem ends_call_of_fails {callee : Callee V} {occurrence : Nat} {id : RuleId}
    {r : Except ParseError V} (hid : e.resolve callee.name = .ok id)
    (hbody : callee.body.Ends (s.push { rule := id, occurrence }) (.error error) t)
    (herror : error.isRecognition = true) (hrecovers : e.recovers t = true)
    (hresync : (e.resync callee.name callee.recovery error).Ends t r u) :
    (e.call callee occurrence).Ends s r u.pop := by
  simp only [call, subrule, hid]
  refine ends_inFrame.2 ⟨u, Action.ends_andThen.2 ⟨_, t, hbody, ?_⟩, rfl⟩
  simpa [herror, hrecovers] using hresync

theorem ends_resync_of_none {name : String} {recovery : V} (h : e.resumePoint t = .ok none) :
    (e.resync name recovery error).Ends t (.error error) t := by
  rw [resync, Action.ends_getState_bind, h]
  simp [Action.ofLookup]

theorem ends_resync_of_some {name : String} {recovery : V} {n index : Nat} {token : Token}
    {set : TerminalSet} (h : e.resumePoint t = .ok (some (n, token.kind)))
    (hfirst : (e.cursor t).FirstIn set index token) :
    (e.resync name recovery error).Ends t (.ok recovery)
      (e.recordError error { t with position := index }) := by
  have hsync := Cursor.synchronize_of_firstIn hfirst.single
  rw [resync, Action.ends_getState_bind, h]
  simp only [Action.ofLookup, Action.ends_pure_bind]
  rw [Action.ends_bind_of_ends fun _ _ => ends_skipTo, hsync]
  simp

/-- A call that the first token found may not follow passes the error on, and its caller is stuck
in the same way. -/
theorem Stuck.step (h : e.Stuck root (c :: outer) error t)
    (hnot : ∀ index token, (e.cursor t).FirstIn (owned (c :: outer)) index token →
      token.kind ∉ c.own) :
    (e.call c.callee c.occurrence).Ends c.start (.error error) t.pop ∧
      e.Stuck root outer error t.pop := by
  cases h.nested with
  | cons hc ho =>
    have hnone : e.resumePoint t = .ok none := by
      rw [h.resumePoint, Option.filter_eq_none_iff.2]
      rintro ⟨n, kind⟩ hfound
      obtain ⟨token, hfirst, rfl⟩ := Cursor.findResync_eq_some_iff.1 hfound
      exact hnot _ token hfirst
    have hcall : (e.call c.callee c.occurrence).Ends c.start (.error error) t.pop :=
      ends_call_of_fails hc.resolved h.fails h.recognition h.recovers (ends_resync_of_none hnone)
    exact ⟨hcall, ho, congrArg List.tail h.frames, h.recovers, h.recognition, hc.passes hcall⟩

/-- A call that the first token found may follow is resumed there. -/
theorem Stuck.resume {index : Nat} {token : Token} (h : e.Stuck root (c :: outer) error t)
    (hfirst : (e.cursor t).FirstIn (owned (c :: outer)) index token) (hmem : token.kind ∈ c.own) :
    (e.call c.callee c.occurrence).Ends c.start (.ok c.callee.recovery)
      (e.recordError error { t with position := index }).pop := by
  cases h.nested with
  | cons hc ho =>
    have hcontains : c.own.contains token.kind = true := hmem
    have hsome : e.resumePoint t = .ok (some (index - t.position, token.kind)) := by
      rw [h.resumePoint, hfirst.findResync]
      simp [hcontains, cursor]
    exact ends_call_of_fails hc.resolved h.fails h.recognition h.recovers
      (ends_resync_of_some hsome hfirst)

theorem firstIn_outer {cursor : Cursor} {index : Nat} {token : Token}
    (h : cursor.FirstIn (owned (c :: outer)) index token) (hnot : token.kind ∉ c.own) :
    cursor.FirstIn (owned outer) index token where
  le := h.le
  found := h.found
  mem := (TerminalSet.mem_union.1 h.mem).resolve_right hnot
  first j earlier hle hlt hearlier hmem :=
    h.first j earlier hle hlt hearlier (TerminalSet.mem_union.2 (.inl hmem))

/-- A call fails with the error, and the state is that of the first failure but for the frames. -/
def Fails (e : Setting) (root : ActiveCall V) (error : ParseError) (t : State) (c : ActiveCall V)
    (outer : List (ActiveCall V)) : Prop :=
  (e.call c.callee c.occurrence).Ends c.start (.error error) { t with frames := stack root outer }

/-- A call ends with its recovery value on the token at `index`. The error is recorded if there is
room for it, and the frames are those around the call. -/
def ResumedAt (e : Setting) (root : ActiveCall V) (error : ParseError) (t : State) (index : Nat)
    (c : ActiveCall V) (outer : List (ActiveCall V)) : Prop :=
  (e.call c.callee c.occurrence).Ends c.start (.ok c.callee.recovery) { t with
    position := index
    errors := if t.errors.length < e.config.maxErrors then t.errors ++ [error] else t.errors
    frames := stack root outer }

theorem Stuck.resumes {index : Nat} {token : Token} (h : e.Stuck root calls error t)
    (hfirst : (e.cursor t).FirstIn (owned calls) index token) :
    ∃ inner c outer, calls = inner ++ c :: outer ∧ token.kind ∈ c.own ∧
      (∀ d ∈ inner, token.kind ∉ d.own) ∧
      (∀ before d after, inner = before ++ d :: after →
        e.Fails root error t d (after ++ c :: outer)) ∧
      e.ResumedAt root error t index c outer := by
  induction calls generalizing t with
  | nil => exact absurd hfirst.mem TerminalSet.not_mem_empty
  | cons c outer ih =>
    have htail : stack root outer = t.frames.tail := congrArg List.tail h.frames.symm
    by_cases hmem : token.kind ∈ c.own
    · refine ⟨[], c, outer, rfl, hmem, by simp, by simp, ?_⟩
      have hcall := h.resume hfirst hmem
      rw [recordError_eq] at hcall
      unfold ResumedAt
      rw [htail]
      exact hcall
    · obtain ⟨hcall, hstuck⟩ := h.step fun index' token' hfirst' => by
        rwa [(hfirst'.unique hfirst).2]
      have hfail : e.Fails root error t c outer := by
        unfold Fails
        rw [htail]
        exact hcall
      obtain ⟨inner, d, outer, rfl, hown, hinner, hfails, hresumed⟩ :=
        ih hstuck (firstIn_outer hfirst hmem)
      refine ⟨c :: inner, d, outer, rfl, hown, ?_, ?_, hresumed⟩
      · exact List.forall_mem_cons.2 ⟨hmem, hinner⟩
      · intro before d' after hsplit
        cases before with
        | nil =>
          cases hsplit
          exact hfail
        | cons _ before =>
          cases hsplit
          exact hfails before d' after rfl

/-- Where no token is left to resume at, the error comes out of every call. -/
theorem Stuck.surfaces (h : e.Stuck root calls error t)
    (hnone : ¬ ∃ index token, (e.cursor t).FirstIn (owned calls) index token) :
    e.Stuck root [] error { t with frames := stack root [] } := by
  induction calls generalizing t with
  | nil =>
    rw [← h.frames]
    exact h
  | cons c outer ih =>
    obtain ⟨-, hstuck⟩ := h.step fun index token hfirst => (hnone ⟨index, token, hfirst⟩).elim
    refine ih (t := t.pop) hstuck ?_
    rintro ⟨index, token, hfirst⟩
    apply hnone
    exact Cursor.exists_firstIn hfirst.le hfirst.found (TerminalSet.mem_union.2 (.inl hfirst.mem))

/-- When the innermost of nested calls fails, the first token is looked for that may follow one of
them. If there is one, the innermost call that it may follow ends there with its recovery value, and
the calls inside of it have failed with the error. If there is none, the error comes out of the
outermost rule, whether that was invoked or called as a rule without a caller; nothing is skipped
and nothing is recorded. -/
theorem resync_resumes_innermost (e : Setting) (root : ActiveCall V) (calls : List (ActiveCall V))
    (error : ParseError) (t : State) (hroot : e.resolve root.callee.name = .ok root.id)
    (hindex : root.occurrence = 0) (hstuck : e.Stuck root calls error t) :
    (∀ index token, (e.cursor t).FirstIn (owned calls) index token →
      ∃ inner c outer, calls = inner ++ c :: outer ∧ token.kind ∈ c.own ∧
        (∀ d ∈ inner, token.kind ∉ d.own) ∧
        (∀ before d after, inner = before ++ d :: after →
          e.Fails root error t d (after ++ c :: outer)) ∧
        e.ResumedAt root error t index c outer) ∧
    ((¬ ∃ index token, (e.cursor t).FirstIn (owned calls) index token) →
      (e.invoke root.callee.name root.callee.body).Ends root.start (.error error)
        { t with frames := [] } ∧
      (e.call root.callee 0).Ends root.start (.error error) { t with frames := [] }) := by
  refine ⟨fun index token hfirst => hstuck.resumes hfirst, fun hnone => ?_⟩
  have hout := hstuck.surfaces hnone
  have hentry : root.entry = root.start.push (.root root.id) := by
    simp [ActiveCall.entry, ActiveCall.frame, Frame.root, hindex]
  have hbody : root.callee.body.Ends (root.start.push (.root root.id)) (.error error)
      { t with frames := stack root [] } := hentry ▸ hout.fails
  constructor
  · simp only [invoke, hroot]
    exact ends_inFrame.2 ⟨_, hbody, rfl⟩
  · exact ends_call_of_fails hroot hbody hout.recognition hout.recovers (ends_resync_of_none rfl)

end Setting

/-! ## A sample parse -/

namespace Sample

/-- The rules of statements that are calls. -/
inductive CallRule where
  | stmts | stmt | call | args

/-- Bodies for one statement. They pass errors on. -/
def callBodies : Book CallRule Nat
  | .stmts => { name := "stmts", recovery := 0, body := .subrule .stmt 1 .done }
  | .stmt =>
    { name := "stmt"
      recovery := 1
      body := .subrule .call 1 fun
        | .error error => .done (.error error)
        | .ok value => .consume 2 1 fun r => .done (r.map fun _ => value) }
  | .call =>
    { name := "call"
      recovery := 2
      body := .consume 0 1 fun
        | .error error => .done (.error error)
        | .ok _ => .consume 3 1 fun
          | .error error => .done (.error error)
          | .ok _ => .subrule .args 1 fun
            | .error error => .done (.error error)
            | .ok value => .consume 4 1 fun r => .done (r.map fun _ => value) }
  | .args =>
    { name := "args", recovery := 3, body := .consume 0 1 fun r => .done (r.map fun _ => 4) }

theorem callBodies_everywhere {P : Program CallRule Nat Nat → Prop} (hP : OfForwarding P)
    (rule : CallRule) : (callBodies rule).body.Everywhere P := by
  have hlast kind (f : Token → Nat) :
      (Program.consume kind 1 fun r => .done (r.map f)).Everywhere P :=
    ⟨hP.use (.consume kind 1) _ fun _ => rfl, fun _ => hP.done _⟩
  cases rule with
  | stmts => exact ⟨hP.use (.subrule .stmt 1) _ fun _ => rfl, fun _ => hP.done _⟩
  | stmt =>
    refine ⟨hP.use (.subrule .call 1) _ fun _ => rfl, fun r => ?_⟩
    cases r with
    | error error => exact hP.done _
    | ok value => exact hlast 2 _
  | call =>
    refine ⟨hP.use (.consume 0 1) _ fun _ => rfl, fun r => ?_⟩
    cases r with
    | error error => exact hP.done _
    | ok token =>
      refine ⟨hP.use (.consume 3 1) _ fun _ => rfl, fun r => ?_⟩
      cases r with
      | error error => exact hP.done _
      | ok token =>
        refine ⟨hP.use (.subrule .args 1) _ fun _ => rfl, fun r => ?_⟩
        cases r with
        | error error => exact hP.done _
        | ok value => exact hlast 4 _
  | args => exact hlast 0 _

/-- A call whose arguments and closing parenthesis are missing. -/
def unclosed (a : Analysis) : Setting where
  analysis := a
  tokens := #[{ kind := 0, text := "f", offset := 0 }, { kind := 3, text := "(", offset := 1 },
    { kind := 2, text := ";", offset := 2 }]
  config := { recovery := true }

/-- The call of a rule that is active when the arguments turn out to be missing. -/
def active (a : Analysis) : CallRule → ActiveCall Nat
  | .stmts =>
    { callee := Program.calleeOf (unclosed a) callBodies 4 .stmts
      id := 0
      occurrence := 0
      own := ∅
      start := {} }
  | .stmt =>
    { callee := Program.calleeOf (unclosed a) callBodies 3 .stmt
      id := 1
      occurrence := 1
      own := .single 0
      start := { frames := [.root 0] } }
  | .call =>
    { callee := Program.calleeOf (unclosed a) callBodies 2 .call
      id := 2
      occurrence := 1
      own := .single 2
      start := { frames := [{ rule := 1, occurrence := 1 }, .root 0] } }
  | .args =>
    { callee := Program.calleeOf (unclosed a) callBodies 1 .args
      id := 3
      occurrence := 1
      own := .single 4
      start :=
        { position := 2
          frames := [{ rule := 2, occurrence := 1 }, { rule := 1, occurrence := 1 }, .root 0] } }

/-- The error that the first argument is missing. -/
def noArgument : ParseError :=
  .mismatched { kind := 0, name := "Ident" } (some { kind := 2, name := "Semi" }) 2

/-- The state in which it is found out. -/
def atSemi : State where
  position := 2
  frames := [{ rule := 3, occurrence := 1 }, { rule := 2, occurrence := 1 },
    { rule := 1, occurrence := 1 }, .root 0]

/-- The bodies of the sample go straight to the call that is active, and end if it fails. -/
theorem active_passesOn (a : Analysis) :
    (unclosed a).PassesOn (active a .call) (active a .args) ∧
    (unclosed a).PassesOn (active a .stmt) (active a .call) ∧
    (unclosed a).PassesOn (active a .stmts) (active a .stmt) := by
  refine ⟨fun error t h => ?_, fun error t h => ?_, fun error t h => ?_⟩
  · apply Program.ends_enter.2
    apply Program.ends_exec_consume rfl
    apply Program.ends_exec_consume rfl
    exact Action.ends_andThen.2 ⟨_, _, h, Action.ends_ofResult.2 ⟨rfl, rfl⟩⟩
  · apply Program.ends_enter.2
    exact Action.ends_andThen.2 ⟨_, _, h, Action.ends_ofResult.2 ⟨rfl, rfl⟩⟩
  · apply Program.ends_enter.2
    exact Action.ends_andThen.2 ⟨_, _, h, Action.ends_ofResult.2 ⟨rfl, rfl⟩⟩

/-- Whether a rule may be resynced and is followed in another one as the sample says. -/
def linked (a : Analysis) (rule caller : CallRule) : Bool :=
  let c := active a rule
  ((unclosed a).resolve c.callee.name).toOption.any (· == c.id) &&
  c.occurrence != 0 &&
  (unclosed a).resyncs c.id &&
  ((unclosed a).frameFollows c.frame (active a caller).frame).toOption.any (· == c.own)

theorem calledBy_of_linked {a : Analysis} {rule caller : CallRule} (h : linked a rule caller = true)
    (hpass : (unclosed a).PassesOn (active a caller) (active a rule)) :
    (unclosed a).CalledBy (active a rule) (active a caller) := by
  simp only [linked, Bool.and_eq_true] at h
  obtain ⟨⟨⟨hid, hindex⟩, hresyncs⟩, hown⟩ := h
  obtain ⟨id, hid, hsame⟩ := exists_ok_of_any hid
  obtain ⟨own, hown, hsame'⟩ := exists_ok_of_any hown
  exact
    { resolved := eq_of_beq hsame ▸ hid
      indexed := by simpa using hindex
      resyncs := hresyncs
      follows := eq_of_beq hsame' ▸ hown
      passes := hpass }

/-- Whether the arguments of the sample fail as it says. -/
def argumentsFail (a : Analysis) : Bool :=
  ((active a .args).callee.body (active a .args).entry).toOption.any fun ran =>
    ran.state == atSemi && match ran.result with
      | .ok _ => false
      | .error error => error == noArgument

theorem ends_of_argumentsFail {a : Analysis} (h : argumentsFail a = true) :
    (active a .args).callee.body.Ends (active a .args).entry (.error noArgument) atSemi := by
  obtain ⟨⟨result, state, events⟩, hran, hends⟩ := exists_ok_of_any h
  simp only [Bool.and_eq_true, beq_iff_eq] at hends
  obtain ⟨rfl, hresult⟩ := hends
  cases result with
  | ok value => cases hresult
  | error error =>
    obtain rfl : error = noArgument := by simpa using hresult
    exact ⟨events, hran⟩

/-- The arguments fail at the semicolon. It may not follow them, but it may follow the call, which
ends there with its recovery value. -/
theorem unclosed_call_resumed : ∃ a, analysisOf calls = .ok a ∧
    ((unclosed a).call (Program.calleeOf (unclosed a) callBodies 2 .call) 1).Ends
      { frames := [{ rule := 1, occurrence := 1 }, .root 0] } (.ok 2)
      { position := 2, errors := [noArgument],
        frames := [{ rule := 1, occurrence := 1 }, .root 0] } := by
  have hfacts : (analysisOf calls).toOption.any (fun a => linked a .args .call &&
      linked a .call .stmt && linked a .stmt .stmts && argumentsFail a &&
      ((unclosed a).resolve "stmts").toOption.any (· == 0)) = true := by
    decide +kernel
  obtain ⟨a, ha, hfacts⟩ := exists_ok_of_any hfacts
  simp only [Bool.and_eq_true] at hfacts
  obtain ⟨⟨⟨⟨hargs, hcall⟩, hstmt⟩, hfails⟩, hroot⟩ := hfacts
  obtain ⟨id, hroot, hid⟩ := exists_ok_of_any hroot
  obtain rfl : id = 0 := by simpa using hid
  obtain ⟨hpassCall, hpassStmt, hpassStmts⟩ := active_passesOn a
  have hstuck : (unclosed a).Stuck (active a .stmts)
      [active a .args, active a .call, active a .stmt] noArgument atSemi :=
    { nested := .cons (calledBy_of_linked hargs hpassCall) <|
        .cons (calledBy_of_linked hcall hpassStmt) <|
        .cons (calledBy_of_linked hstmt hpassStmts) .nil
      frames := rfl
      recovers := rfl
      recognition := rfl
      fails := ends_of_argumentsFail hfails }
  have hfirst : ((unclosed a).cursor atSemi).FirstIn
      (ActiveCall.owned [active a .args, active a .call, active a .stmt]) 2
      { kind := 2, text := ";", offset := 2 } :=
    { le := Nat.le_refl 2
      found := rfl
      mem := by simp [ActiveCall.owned, active]
      first := fun j earlier hle hlt => absurd hlt (Nat.not_lt.2 hle) }
  obtain ⟨inner, c, outer, hsplit, hmem, hinner, -, hresumed⟩ :=
    (Setting.resync_resumes_innermost (unclosed a) (active a .stmts)
      [active a .args, active a .call, active a .stmt] noArgument atSemi hroot rfl hstuck).1
      2 _ hfirst
  refine ⟨a, ha, ?_⟩
  match inner, hsplit with
  | [], hsplit =>
    cases hsplit
    simp [active] at hmem
  | [_], hsplit =>
    cases hsplit
    exact hresumed
  | _ :: d :: inner, hsplit =>
    obtain rfl : active a .call = d := (List.cons.inj (List.cons.inj hsplit).2).1
    simp [active] at hinner

end Sample

end Descent
