import Descent.Proofs.Parser.ErrorLog

/-!
# The contract of a call

A call runs a rule body in a frame of its own. Where the body does not fail, or fails in a way that
recovery is not for, the call ends as the body does. Otherwise it looks up what may follow the
frames, and resumes the rule or fails. `Setting.call_contract` says for each end of the body how the
call ends, and in which state.

The frames have to be those of the call when its body is through. This is so if no body inside of the
call goes back out of its own frame (`Operation.StaysIn`), since `Balanced` is a law of states.

What is looked up are the links between frames, the outermost first (`Frame.links`); the lookups
either all succeed and give the union of what may follow, or fail as the first one that fails does
(`Setting.resyncSet_outcome`).
-/

namespace Descent

variable {α β ι V : Type} {e : Setting} {s t : State}

/-! ## Bodies that stay in their frame -/

/-- The active rules and the running trials are those of the start. -/
structure Balanced (s t : State) : Prop where
  frames : t.frames = s.frames
  speculation : t.speculation = s.speculation

theorem balanced_law (e : Setting) : StateLaw e Balanced where
  refl _ := ⟨rfl, rfl⟩
  trans h h' := ⟨h'.frames.trans h.frames, h'.speculation.trans h.speculation⟩
  moved _ _ := ⟨rfl, rfl⟩
  mended _ := by
    rw [Setting.recordError_eq]
    exact ⟨rfl, rfl⟩
  frame h := ⟨congrArg List.tail h.frames, h.speculation⟩
  trial h := by
    refine ⟨?_, ?_⟩
    · simp [State.backFrom, State.restore, State.snapshot, h.frames, State.onTrial]
    · simp [State.backFrom, State.restore, h.speculation, State.onTrial]

namespace Operation

variable {book : Book ι V} {fuel : Nat} {op : Operation ι V β}

/-- No body that runs inside of the operation goes back to a place with fewer active rules than
there were when the body was started. It may go back to a place of its own, or to one that was taken
in what it has called. -/
def StaysIn (e : Setting) (book : Book ι V) (fuel : Nat) (op : Operation ι V β) (s : State) :
    Prop :=
  ∀ ⦃rule t place next u⦄, op.Inside e book fuel s rule t (.restore place next, u) →
    t.frames.length ≤ place.frameCount

/-- Where no body goes back by itself, all stay in their frames. -/
theorem staysIn_of_onward (hb : ∀ rule, (book rule).body.Everywhere Program.Onward)
    (op : Operation ι V β) (s : State) : op.StaysIn e book fuel s :=
  fun _ _ _ _ _ hinside => (hinside.everywhere hb).elim

theorem StaysIn.ownSteps (h : op.StaysIn e book fuel s) : op.OwnSteps Balanced e book fuel s := by
  intro rule t q u hinside hbalanced
  cases q with
  | takeErrors | mark => exact ⟨rfl, rfl⟩
  | restore place next =>
    -- the place has at least as many frames as there are now, so none is dropped
    have hplace : u.frames.length ≤ place.frameCount := hbalanced.frames ▸ h hinside
    exact ⟨by simp [State.restore, Nat.sub_eq_zero_of_le hplace], rfl⟩
  | _ => trivial

end Operation

/-! ## Links between frames -/

/-- The frames that are called from the next one, each with that one, the outermost first. A rule
without a caller is not called from the rule around it. -/
def Frame.links : List Frame → List (Frame × Frame)
  | frame :: caller :: outer =>
    links (caller :: outer) ++ if frame.isRoot then [] else [(frame, caller)]
  | _ => []

/-- The links in the order in which a failure in the innermost frame looks them up. -/
def Frame.lookups : List Frame → List (Frame × Frame)
  | frame :: caller :: outer => (frame, caller) :: links (frame :: caller :: outer)
  | _ => []

namespace Setting

open Descent.Frame (links lookups)

/-- A kind is among those that may follow a frame in the rule of its caller. -/
def MayFollow (e : Setting) (kind : Terminal) (link : Frame × Frame) : Prop :=
  ∃ set, e.frameFollows link.1 link.2 = .ok set ∧ kind ∈ set

/-- How the first lookup that fails does so. -/
def firstFailure (e : Setting) (looked : List (Frame × Frame)) : Option Failure :=
  looked.findSome? fun link => match e.frameFollows link.1 link.2 with
    | .ok _ => none
    | .error failure => some failure

/-- All active rules are rules of the grammar. -/
def Knows (e : Setting) (frames : List Frame) : Prop :=
  ∀ frame ∈ frames, frame.rule < e.grammar.rules.size

variable {frame caller : Frame} {outer frames : List Frame} {looked : List (Frame × Frame)}
  {error : ParseError} {index : Nat} {token : Token}

theorem firstFailure_eq_none_iff : e.firstFailure looked = none ↔
    ∀ link ∈ looked, ∃ set, e.frameFollows link.1 link.2 = .ok set := by
  unfold firstFailure
  rw [List.findSome?_eq_none_iff]
  refine forall₂_congr fun link _ => ?_
  cases e.frameFollows link.1 link.2 <;> simp

/-- The kinds to resync at are all that may follow some frame; a failure is that of the first lookup
that fails. -/
theorem resyncSet_outcome (e : Setting) (frames : List Frame) :
    (e.firstFailure (links frames) = none ∧ ∃ set, e.resyncSet frames = .ok set ∧
      ∀ kind, kind ∈ set ↔ ∃ link ∈ links frames, e.MayFollow kind link) ∨
    ∃ failure, e.firstFailure (links frames) = some failure ∧
      e.resyncSet frames = .error failure := by
  induction frames with
  | nil => exact .inl ⟨rfl, ∅, rfl, by simp [links]⟩
  | cons frame frames ih =>
    cases frames with
    | nil => exact .inl ⟨rfl, ∅, rfl, by simp [links]⟩
    | cons caller outer =>
      -- the outer frames are looked up first, so their failure wins over that of this one
      simp only [resyncSet, links, firstFailure, List.findSome?_append] at ih ⊢
      obtain ⟨hnone, set, hset, hunion⟩ | ⟨failure, hsome, hfailed⟩ := ih
      · rw [hnone, hset]
        cases hroot : frame.isRoot with
        | true => exact .inl ⟨rfl, set, rfl, by simpa using hunion⟩
        | false =>
          cases hown : e.frameFollows frame caller with
          | error failure => exact .inr ⟨failure, by simp [hown], rfl⟩
          | ok own =>
            refine .inl ⟨by simp [hown], set ∪ own, rfl, fun kind => ?_⟩
            simp [TerminalSet.mem_union, hunion, or_and_right, exists_or, MayFollow, hown]
      · rw [hsome, hfailed]
        exact .inr ⟨failure, by simp, rfl⟩

theorem Knows.exists_name (h : e.Knows frames) (hmem : frame ∈ frames) :
    ∃ name, e.grammar.ruleName frame.rule = .ok name := by
  simp [Grammar.ruleName, Grammar.rule, Array.getElem?_eq_getElem (h frame hmem), Except.map]

/-- The key of a link between rules of the grammar has a text. -/
theorem Knows.exists_text (h : e.Knows frames) (hframe : frame ∈ frames)
    (hcaller : caller ∈ frames) : ∃ text, Key.text e.grammar
      { target := frame.rule, occurrence := frame.occurrence, enclosing := caller.rule } =
      .ok text := by
  obtain ⟨target, htarget⟩ := h.exists_name hframe
  obtain ⟨enclosing, henclosing⟩ := h.exists_name hcaller
  refine ⟨Key.textStem target frame.occurrence ++ enclosing, ?_⟩
  simp only [Key.text, Key.textWith, KeyTarget.nameIn, htarget, henclosing]
  rfl

/-- Between rules of the grammar, a lookup can only fail because nothing is recorded. -/
theorem Knows.frameFollows (h : e.Knows frames) (hframe : frame ∈ frames)
    (hcaller : caller ∈ frames) : (∃ set, e.frameFollows frame caller = .ok set) ∨
      ∃ key, e.frameFollows frame caller = .error (.malformed (.missingKey key)) := by
  obtain ⟨text, htext⟩ := h.exists_text hframe hcaller
  unfold Setting.frameFollows Analysis.ruleFollows Table.lookup
  split
  next set _ => exact .inl ⟨set, rfl⟩
  next =>
    refine .inr ⟨text, ?_⟩
    rw [Table.keyError, ← grammar, htext]

theorem mem_links {link : Frame × Frame} (h : link ∈ links frames) :
    link.1 ∈ frames ∧ link.2 ∈ frames := by
  fun_induction links frames with
  | case1 frame caller outer ih =>
    obtain hmem | hmem := List.mem_append.1 h
    · exact ⟨.tail _ (ih hmem).1, .tail _ (ih hmem).2⟩
    · split at hmem
      · cases hmem
      · cases List.mem_singleton.1 hmem
        simp
  | case2 => cases h

theorem mem_lookups {link : Frame × Frame} (h : link ∈ lookups frames) :
    link.1 ∈ frames ∧ link.2 ∈ frames := by
  unfold lookups at h
  split at h
  next frame caller outer =>
    obtain rfl | hmem := List.mem_cons.1 h
    · simp
    · exact mem_links hmem
  next => cases h

/-- The first failure of a resync is a missing key. -/
theorem Knows.missingKey {failure : Failure} (h : e.Knows frames)
    (hfailed : e.firstFailure (lookups frames) = some failure) :
    ∃ key, failure = .malformed (.missingKey key) := by
  obtain ⟨link, hmem, hlink⟩ := List.exists_of_findSome?_eq_some hfailed
  obtain ⟨hframe, hcaller⟩ := mem_lookups hmem
  obtain ⟨set, hset⟩ | ⟨key, hkey⟩ := h.frameFollows hframe hcaller
  · simp [hset] at hlink
  · rw [hkey] at hlink
    exact ⟨key, (Option.some.inj hlink).symm⟩

/-! ## Where a failed rule is resumed -/

/-- A failure in the frame can be mended at all: the rule has a caller, is one of the references in
it, and may be resynced. -/
structure MayResync (e : Setting) (frame : Frame) (outer : List Frame) : Prop where
  called : outer ≠ []
  indexed : frame.occurrence ≠ 0
  resyncs : e.resyncs frame.rule = true

/-- After a failure at a position, the rule of the frame can be resumed at the token with an index.
All that may follow the links between the frames is known; the token is the first one from the
position on that may follow one of them, and it may follow the frame itself. -/
structure ResumableAt (e : Setting) (frame : Frame) (outer : List Frame) (position index : Nat)
    (token : Token) : Prop extends e.MayResync frame outer where
  known : ∀ link ∈ links (frame :: outer), ∃ set, e.frameFollows link.1 link.2 = .ok set
  first : ∃ union : TerminalSet,
    (∀ kind, kind ∈ union ↔ ∃ link ∈ links (frame :: outer), e.MayFollow kind link) ∧
    Cursor.FirstIn { tokens := e.tokens, position } union index token
  own : ∃ caller, outer.head? = some caller ∧ e.MayFollow token.kind (frame, caller)

/-- A failure in the frame is looked into, and the first lookup to fail misses this key. -/
structure MissesFirst (e : Setting) (frame : Frame) (outer : List Frame) (key : String) :
    Prop extends e.MayResync frame outer where
  missed : e.firstFailure (lookups (frame :: outer)) = some (.malformed (.missingKey key))

/-- How a call in the frame ends whose body has failed with a recognition error in `t`, where
recovery applies. -/
structure MendEnd (e : Setting) (recovery : V) (frame : Frame) (outer : List Frame)
    (error : ParseError) (t : State) (r : Except ParseError V) (u : State) : Prop where
  mends : r = .ok recovery ↔ ∃ index token, e.ResumableAt frame outer t.position index token
  /-- It ends on the token, and the error is recorded if there is room for it. -/
  resumed : ∀ index token, e.ResumableAt frame outer t.position index token →
    u = { t with
      position := index
      errors := if t.errors.length < e.config.maxErrors then t.errors ++ [error] else t.errors
      frames := outer }
  /-- It fails where the body did, and nothing is recorded. -/
  failed : (¬ ∃ index token, e.ResumableAt frame outer t.position index token) →
    u = { t with frames := outer } ∧
    (∀ key, e.MissesFirst frame outer key → r = .error (.structural (.missingKey key))) ∧
    ((¬ ∃ key, e.MissesFirst frame outer key) → r = .error error)

theorem resumePoint_of_not_mayResync (hframes : t.frames = frame :: outer)
    (h : ¬ e.MayResync frame outer) : e.resumePoint t = .ok none := by
  unfold resumePoint
  rw [hframes]
  cases outer with
  | nil => rfl
  | cons caller outer =>
    refine if_pos ?_
    by_contra hguard
    simp only [Bool.or_eq_true, Bool.not_eq_true', not_or, Bool.not_eq_true, Bool.not_eq_false]
      at hguard
    exact h ⟨by simp, by simpa [Frame.isRoot] using hguard.1, hguard.2⟩

/-- A rule that may be resynced is a rule of the grammar. -/
theorem MayResync.knows (h : e.MayResync frame outer) (houter : e.Knows outer) :
    e.Knows (frame :: outer) := by
  refine List.forall_mem_cons.2 ⟨?_, houter⟩
  obtain ⟨R, hR, -⟩ := (Option.any_eq_true ..).1 h.resyncs
  exact (Array.getElem?_eq_some_iff.1 hR).1

theorem MayResync.isRoot (h : e.MayResync frame outer) : frame.isRoot = false := by
  simpa [Frame.isRoot] using h.indexed

/-- The link of the innermost frame is looked up twice. -/
theorem MayResync.known_iff (h : e.MayResync frame (caller :: outer)) :
    e.firstFailure (lookups (frame :: caller :: outer)) = none ↔
      e.firstFailure (links (frame :: caller :: outer)) = none := by
  simp [firstFailure_eq_none_iff, lookups, links, h.isRoot, or_imp, forall_and]

/-- The place to resume at, if the lookups succeed, or the failure of the first one that does
not. -/
theorem MayResync.resumePoint (h : e.MayResync frame (caller :: outer))
    (hframes : t.frames = frame :: caller :: outer) :
    (∃ failure, e.firstFailure (lookups t.frames) = some failure ∧
      e.resumePoint t = .error failure) ∨
    ∃ own set, e.frameFollows frame caller = .ok own ∧
      e.firstFailure (links t.frames) = none ∧
      (∀ kind, kind ∈ set ↔ ∃ link ∈ links t.frames, e.MayFollow kind link) ∧
      e.resumePoint t = .ok (((e.cursor t).findResync set).filter fun (_, kind) =>
        own.contains kind) := by
  have hpoint : e.resumePoint t = (do
      let own ← e.frameFollows frame caller
      let set ← e.resyncSet t.frames
      return ((e.cursor t).findResync set).filter fun (_, kind) => own.contains kind) := by
    simp only [Setting.resumePoint, hframes, h.isRoot, h.resyncs]
    rfl
  rw [hpoint]
  cases hown : e.frameFollows frame caller with
  | error failure => exact .inl ⟨failure, by simp [hframes, lookups, firstFailure, hown], rfl⟩
  | ok own =>
    obtain ⟨hnone, set, hset, hunion⟩ | ⟨failure, hsome, hfailed⟩ := e.resyncSet_outcome t.frames
    · rw [hset]
      exact .inr ⟨own, set, rfl, hnone, hunion, rfl⟩
    · rw [hfailed]
      refine .inl ⟨failure, ?_, rfl⟩
      rw [hframes] at hsome ⊢
      simpa [lookups, firstFailure, hown] using hsome

/-- The union of what may follow the links is the same however it is given. -/
theorem ResumableAt.firstIn {set : TerminalSet}
    (h : e.ResumableAt frame outer t.position index token)
    (hunion : ∀ kind, kind ∈ set ↔ ∃ link ∈ links (frame :: outer), e.MayFollow kind link) :
    (e.cursor t).FirstIn set index token := by
  obtain ⟨union, hsame, hfirst⟩ := h.first
  have hmem kind : kind ∈ set ↔ kind ∈ union := (hunion kind).trans (hsame kind).symm
  exact
    { le := hfirst.le
      found := hfirst.found
      mem := (hmem _).2 hfirst.mem
      first := fun j earlier hle hlt hearlier hin =>
        hfirst.first j earlier hle hlt hearlier ((hmem _).1 hin) }

theorem ResumableAt.unique {index' : Nat} {token' : Token}
    (h : e.ResumableAt frame outer t.position index token)
    (h' : e.ResumableAt frame outer t.position index' token') : index = index' ∧ token = token' := by
  obtain ⟨union, hunion, -⟩ := h.first
  exact (h.firstIn hunion).unique (h'.firstIn hunion)

theorem ResumableAt.resumePoint (h : e.ResumableAt frame outer t.position index token)
    (hframes : t.frames = frame :: outer) :
    e.resumePoint t = .ok (some (index - t.position, token.kind)) := by
  obtain ⟨caller, outer, rfl⟩ := List.exists_cons_of_ne_nil h.called
  obtain ⟨failure, hfailed, -⟩ | ⟨own, set, hown, -, hunion, hpoint⟩ :=
    h.toMayResync.resumePoint hframes
  · have hnone := h.known_iff.2 (firstFailure_eq_none_iff.2 h.known)
    rw [hframes, hnone] at hfailed
    cases hfailed
  · rw [hframes] at hunion
    obtain ⟨_, hcaller, own', hown', hmem⟩ := h.own
    cases hcaller
    cases hown.symm.trans hown'
    have hcontains : own.contains token.kind = true := hmem
    rw [hpoint, (h.firstIn hunion).findResync]
    simp [hcontains, cursor]

/-- Where the rule cannot be resumed, there is nothing to resume at, or a lookup has failed. -/
theorem resumePoint_of_not_resumable (hframes : t.frames = frame :: outer)
    (hnot : ¬ ∃ index token, e.ResumableAt frame outer t.position index token) :
    (e.resumePoint t = .ok none ∧ ¬ ∃ key, e.MissesFirst frame outer key) ∨
    ∃ failure, e.MayResync frame outer ∧ e.firstFailure (lookups t.frames) = some failure ∧
      e.resumePoint t = .error failure := by
  by_cases hmay : e.MayResync frame outer
  case neg =>
    refine .inl ⟨resumePoint_of_not_mayResync hframes hmay, ?_⟩
    rintro ⟨key, h⟩
    exact hmay h.toMayResync
  case pos =>
    obtain ⟨caller, outer, rfl⟩ := List.exists_cons_of_ne_nil hmay.called
    obtain ⟨failure, hfailed, hpoint⟩ | ⟨own, set, hown, hknown, hunion, hpoint⟩ :=
      hmay.resumePoint hframes
    · exact .inr ⟨failure, hmay, hfailed, hpoint⟩
    · rw [hframes] at hknown hunion
      refine .inl ⟨?_, ?_⟩
      · rw [hpoint, Option.filter_eq_none_iff.2]
        rintro ⟨n, kind⟩ hfound hmem
        obtain ⟨token, hfirst, rfl⟩ := Cursor.findResync_eq_some_iff.1 hfound
        exact hnot ⟨_, token, hmay, firstFailure_eq_none_iff.1 hknown, ⟨set, hunion, hfirst⟩,
          caller, rfl, own, hown, hmem⟩
      · rintro ⟨key, h⟩
        cases h.missed.symm.trans (hmay.known_iff.2 hknown)

theorem ends_resync_of_error {name : String} {recovery : V} {missing : GrammarError}
    (h : e.resumePoint t = .error (.malformed missing)) :
    (e.resync name recovery error).Ends t (.error (.structural missing)) t := by
  rw [resync, Action.ends_getState_bind, h]
  exact Action.ends_bind.2 (.inr ⟨_, Action.ends_raise.2 ⟨rfl, rfl⟩, rfl⟩)

/-- The resync of a failure in the innermost frame ends, and it ends as a call should. -/
theorem exists_mendEnd (hframes : t.frames = frame :: outer) (hknows : e.Knows outer)
    (name : String) (recovery : V) (error : ParseError) :
    ∃ r u, (e.resync name recovery error).Ends t r u ∧
      e.MendEnd recovery frame outer error t r u.pop := by
  have hpop : t.pop = { t with frames := outer } := by simp [State.pop, hframes]
  by_cases hresumes : ∃ index token, e.ResumableAt frame outer t.position index token
  case pos =>
    obtain ⟨index, token, h⟩ := hresumes
    obtain ⟨union, -, hfirst⟩ := h.first
    refine ⟨_, _, ends_resync_of_some (h.resumePoint hframes) hfirst,
      iff_of_true rfl ⟨index, token, h⟩, ?_, fun hnot => (hnot ⟨index, token, h⟩).elim⟩
    intro index' token' h'
    obtain ⟨rfl, rfl⟩ := h.unique h'
    simp [recordError_eq, State.pop, hframes]
  case neg =>
    have hnever index token (h : e.ResumableAt frame outer t.position index token) :=
      hresumes ⟨index, token, h⟩
    obtain ⟨hnone, hfound⟩ | ⟨failure, hmay, hfailed, hpoint⟩ :=
      resumePoint_of_not_resumable hframes hresumes
    · refine ⟨_, _, ends_resync_of_none hnone, iff_of_false (by simp) hresumes,
        fun _ _ h => (hnever _ _ h).elim, fun _ => ⟨hpop, ?_, fun _ => rfl⟩⟩
      exact fun key h => (hfound ⟨key, h⟩).elim
    · rw [hframes] at hfailed
      obtain ⟨key, rfl⟩ := (hmay.knows hknows).missingKey hfailed
      refine ⟨_, _, ends_resync_of_error hpoint, iff_of_false (by simp) hresumes,
        fun _ _ h => (hnever _ _ h).elim, fun _ => ⟨hpop, fun key' h => ?_, fun h => ?_⟩⟩
      · cases hfailed.symm.trans h.missed
        rfl
      · exact (h ⟨key, hmay, hfailed⟩).elim

theorem MendEnd.frames_eq {recovery : V} {r : Except ParseError V} {u : State}
    (h : e.MendEnd recovery frame outer error t r u) : u.frames = outer := by
  by_cases hresumes : ∃ index token, e.ResumableAt frame outer t.position index token
  · obtain ⟨index, token, hresumes⟩ := hresumes
    rw [h.resumed index token hresumes]
  · rw [(h.failed hresumes).1]

/-! ## Calls -/

theorem recovers_iff : e.recovers s = true ↔ e.config.recovery = true ∧ s.speculation = 0 := by
  simp [recovers, State.isSpeculating]

/-- A call ends as its body does where there is no failure, or where recovery is not for it. -/
theorem ends_call_of_passes {callee : Callee V} {occurrence : Nat} {id : RuleId}
    {r : Except ParseError V} (hid : e.resolve callee.name = .ok id)
    (hbody : callee.body.Ends (s.push { rule := id, occurrence }) r t)
    (hpasses : ∀ error, r = .error error → error.isRecognition = true → e.recovers t = false) :
    (e.call callee occurrence).Ends s r t.pop := by
  simp only [call, subrule, hid]
  refine ends_inFrame.2 ⟨t, Action.ends_andThen.2 ⟨r, t, hbody, ?_⟩, rfl⟩
  cases r with
  | ok value => exact Action.ends_pure.2 ⟨rfl, rfl⟩
  | error error =>
    have hguard : (error.isRecognition && e.recovers t) = false := by
      cases hrecognition : error.isRecognition with
      | true => exact hpasses error rfl hrecognition
      | false => rfl
    simp only [Action.ends_getState_bind, hguard]
    exact Action.ends_fail.2 ⟨rfl, rfl⟩

/-- Whatever the body of a called rule ends with, the call ends and leaves the frames as they were.
Without a recognition error, without recovery and in a trial it ends as the body does. Otherwise the
rule is resumed at the first token from there on that may follow an active call, if all that may
follow them is known and the token may follow this one; or the call fails with the error, or with
that of the first lookup that fails, and nothing else has changed. -/
theorem call_contract (e : Setting) (book : Book ι V) (fuel : Nat) (rule : ι) (occurrence : Nat)
    (id : RuleId) (hid : e.resolve (book rule).name = .ok id) (s : State) (hs : e.Knows s.frames)
    (hstays : (Operation.subrule rule occurrence).StaysIn e book fuel s)
    (r : Except ParseError V) (t : State)
    (hbody : (Program.calleeOf e book fuel rule).body.Ends (s.push { rule := id, occurrence }) r t) :
    ∃ r' u, (e.call (Program.calleeOf e book fuel rule) occurrence).Ends s r' u ∧
      u.frames = s.frames ∧
      ((∃ value, r = .ok value) ∨ (∃ missing, r = .error (.structural missing)) ∨
        e.config.recovery = false ∨ 0 < s.speculation → r' = r ∧ u = { t with frames := s.frames }) ∧
      ∀ error, r = .error error → error.isRecognition = true → e.config.recovery = true →
        s.speculation = 0 →
        e.MendEnd (book rule).recovery { rule := id, occurrence } s.frames error t r' u := by
  obtain ⟨ran, hran, rfl, rfl⟩ := hbody.exists_ran
  have hbalanced : Balanced (s.push { rule := id, occurrence }) ran.state :=
    (balanced_law e).started_obeysFrom hstays.ownSteps ⟨rfl, id, hid, rfl⟩ hran
  have hframes : ran.state.frames = { rule := id, occurrence } :: s.frames := hbalanced.frames
  have hrecovers : e.recovers ran.state = e.recovers s := by
    simp [recovers, State.isSpeculating, hbalanced.speculation, State.push]
  have hpop : ran.state.pop = { ran.state with frames := s.frames } := by
    simp [State.pop, hframes]
  -- recovery is asked for after the body, but the trials that run are those of the start
  by_cases hmends : ∃ error, ran.result = .error error ∧ error.isRecognition = true ∧
      e.recovers s = true
  case pos =>
    obtain ⟨error, hresult, hrecognition, hrecovery⟩ := hmends
    obtain ⟨r', u, hresync, hend⟩ :=
      e.exists_mendEnd hframes hs (book rule).name (book rule).recovery error
    refine ⟨r', u.pop, ?_, hend.frames_eq, ?_, ?_⟩
    · exact ends_call_of_fails hid (hresult ▸ hbody) hrecognition (hrecovers.trans hrecovery) hresync
    · obtain ⟨hon, hidle⟩ := recovers_iff.1 hrecovery
      rw [hresult]
      rintro (⟨value, h⟩ | ⟨missing, h⟩ | hoff | htrial)
      · cases h
      · cases h
        cases hrecognition
      · cases hon.symm.trans hoff
      · omega
    · intro error' hresult' _ _ _
      cases hresult.symm.trans hresult'
      exact hend
  case neg =>
    refine ⟨ran.result, ran.state.pop, ?_, congrArg List.tail hframes, fun _ => ⟨rfl, hpop⟩, ?_⟩
    · refine ends_call_of_passes hid hbody fun error hresult hrecognition => ?_
      rw [hrecovers]
      exact Bool.eq_false_iff.2 fun hrecovery => hmends ⟨error, hresult, hrecognition, hrecovery⟩
    · intro error hresult hrecognition hon hidle
      exact (hmends ⟨error, hresult, hrecognition, recovers_iff.2 ⟨hon, hidle⟩⟩).elim

end Setting

/-! ## A sample parse -/

namespace Sample

/-- The bodies of `callBodies`, but that of the arguments goes back to its start before it fails. -/
def retreating : Book CallRule Nat
  | .args =>
    { callBodies .args with
      body := .inspect fun _ s => .consume 0 1 fun
        | .ok _ => .done (.ok 4)
        | .error error => .restore s.snapshot (.done (.error error)) }
  | rule => callBodies rule

/-- The places that the arguments go back to are those of their own starts. -/
theorem retreating_staysIn {e : Setting} {fuel : Nat} {β : Type} (op : Operation CallRule Nat β)
    (s : State) : op.StaysIn e retreating fuel s := by
  intro rule t place next u hinside
  obtain ⟨_, _, _, _, -, -, hgoes⟩ := hinside
  have hcalls rule : (callBodies rule).body.Everywhere Program.Onward :=
    (callBodies_everywhere traceless_ofForwarding rule).mono fun _ h => h.tidy.onward
  cases rule with
  | stmts => exact (hgoes.everywhere (hcalls .stmts)).here.elim
  | stmt => exact (hgoes.everywhere (hcalls .stmt)).here.elim
  | call => exact (hgoes.everywhere (hcalls .call)).here.elim
  | args =>
    obtain hself | hgoes := hgoes.of_inspect
    · cases hself
    obtain hself | ⟨⟨result, v, events⟩, -, hgoes⟩ :=
      Program.GoesOn.of_use (.consume 0 1) hgoes
    · cases hself
    cases result with
    | ok token => cases hgoes.of_done
    | error error =>
      obtain hself | hgoes := hgoes.of_restore
      · cases hself
        exact Nat.le_refl _
      · cases hgoes.of_done

/-- The state in which the call of the sample is made. -/
def beforeCall : State where
  frames := [{ rule := 1, occurrence := 1 }, .root 0]

/-- Whether the body of the call fails for the missing argument, and leaves its frame alone. -/
def callFails (a : Analysis) : Bool :=
  let body := (Program.calleeOf (unclosed a) retreating 2 .call).body
  (body (beforeCall.push { rule := 2, occurrence := 1 })).toOption.any fun ran =>
    ran.state == { atSemi with frames := { rule := 2, occurrence := 1 } :: beforeCall.frames } &&
      match ran.result with
      | .ok _ => false
      | .error error => error == noArgument

theorem ends_of_callFails {a : Analysis} (h : callFails a = true) :
    (Program.calleeOf (unclosed a) retreating 2 .call).body.Ends
      (beforeCall.push { rule := 2, occurrence := 1 }) (.error noArgument)
      { atSemi with frames := { rule := 2, occurrence := 1 } :: beforeCall.frames } := by
  obtain ⟨⟨result, state, events⟩, hran, hends⟩ := exists_ok_of_any h
  simp only [Bool.and_eq_true, beq_iff_eq] at hends
  obtain ⟨rfl, hresult⟩ := hends
  cases result with
  | ok value => cases hresult
  | error error =>
    obtain rfl : error = noArgument := by simpa using hresult
    exact ⟨events, hran⟩

/-- The semicolon is the first token that may follow the call or the statement, and it may follow the
call. -/
theorem call_resumable {a : Analysis}
    (hcall : (unclosed a).CalledBy (active a .call) (active a .stmt))
    (hstmt : (unclosed a).CalledBy (active a .stmt) (active a .stmts)) :
    (unclosed a).ResumableAt { rule := 2, occurrence := 1 } beforeCall.frames 2 2
      { kind := 2, text := ";", offset := 2 } := by
  have hlinks : Frame.links ({ rule := 2, occurrence := 1 } :: beforeCall.frames) =
      [((active a .stmt).frame, (active a .stmts).frame),
        ((active a .call).frame, (active a .stmt).frame)] := rfl
  refine ⟨⟨by simp [beforeCall], hcall.indexed, hcall.resyncs⟩, ?_, ?_, ?_⟩
  · simp [hlinks, hcall.follows, hstmt.follows]
  · refine ⟨(active a .stmt).own ∪ (active a .call).own, fun kind => ?_, Nat.le_refl 2, rfl,
      by simp [active], fun j earlier hle hlt => absurd hlt (Nat.not_lt.2 hle)⟩
    simp [hlinks, Setting.MayFollow, hcall.follows, hstmt.follows]
  · exact ⟨_, rfl, _, hcall.follows, by simp [active]⟩

/-- The call is resumed at the semicolon, although the arguments have gone back before they
failed. -/
theorem retreating_call_resumed : ∃ a, analysisOf calls = .ok a ∧
    ((unclosed a).call (Program.calleeOf (unclosed a) retreating 2 .call) 1).Ends beforeCall (.ok 2)
      { beforeCall with position := 2, errors := [noArgument] } := by
  have hfacts : (analysisOf calls).toOption.any (fun a =>
      linked a .call .stmt && linked a .stmt .stmts && callFails a &&
      decide (1 < (unclosed a).grammar.rules.size)) = true := by
    decide +kernel
  obtain ⟨a, ha, hfacts⟩ := exists_ok_of_any hfacts
  simp only [Bool.and_eq_true, decide_eq_true_eq] at hfacts
  obtain ⟨⟨⟨hcall, hstmt⟩, hfails⟩, hsize⟩ := hfacts
  obtain ⟨-, hpassStmt, hpassStmts⟩ := active_passesOn a
  have hcalled := calledBy_of_linked hcall hpassStmt
  have hresumable := call_resumable hcalled (calledBy_of_linked hstmt hpassStmts)
  have hknows : (unclosed a).Knows beforeCall.frames := by
    simp only [Setting.Knows, beforeCall, Frame.root, List.forall_mem_cons]
    exact ⟨hsize, Nat.zero_lt_of_lt hsize, List.forall_mem_nil _⟩
  obtain ⟨r, u, hends, -, -, hmends⟩ := Setting.call_contract (unclosed a) retreating 2 .call 1 2
    hcalled.resolved beforeCall hknows (retreating_staysIn _ _) _ _ (ends_of_callFails hfails)
  have hmend := hmends noArgument rfl rfl rfl rfl
  obtain rfl := hmend.mends.2 ⟨_, _, hresumable⟩
  obtain rfl := hmend.resumed _ _ hresumable
  exact ⟨a, ha, hends⟩

end Sample

end Descent
