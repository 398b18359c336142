import Descent.Proofs.Parser.Resumption
import Mathlib.Data.List.Basic

/-!
# Every token is accounted for

Outside of trials a parse only goes forward, and every token that it passes is handed out to a rule
body, dropped or skipped, once and in the order of the input (`Setting.tokens_accounted`). What a
trial does with tokens counts for nothing, since the parse goes back.

`Setting.Accounted` is the account of a run: it says so of the reports at the level of its start,
those of trials inside of it left out. Accounts add up (`Accounted.trans`), and they are a law of runs
(`Setting.accounts_law`), which goes through programs (`Program.exec_accounts`) to nested rule bodies
(`Program.enter_accounts`).
-/

namespace Descent

variable {α β ι V : Type} {e : Setting} {s s' t t' u : State} {events later : List Event}

namespace Happening

/-- The index of the token that the parse goes past. -/
def passed? : Happening → Option Nat
  | took index | deleted index | skipped index => some index
  | _ => none

/-- Whether this is done to mend the input. -/
def isRepair : Happening → Bool
  | deleted _ | skipped _ | madeUp _ => true
  | _ => false

end Happening

/-- What happened while exactly `level` trials were running. -/
def whatsAt (level : Nat) (events : List Event) : List Happening :=
  (events.filter (·.speculation = level)).map Event.what

@[simp] theorem whatsAt_append (level : Nat) (events later : List Event) :
    whatsAt level (events ++ later) = whatsAt level events ++ whatsAt level later := by
  simp [whatsAt]

@[simp] theorem whatsAt_reports (s : State) (whats : List Happening) :
    whatsAt s.speculation (s.reports whats) = whats := by
  simp [whatsAt, State.reports, List.filter_map, Function.comp_def]

theorem whatsAt_eq_nil {level : Nat} (h : ∀ event ∈ events, level < event.speculation) :
    whatsAt level events = [] := by
  simp only [whatsAt, List.map_eq_nil_iff, List.filter_eq_nil_iff, decide_eq_true_eq]
  exact fun event hmem => Nat.ne_of_gt (h event hmem)

namespace Setting

/-- The token that is handed out. -/
def handed? (e : Setting) : Happening → Option Token
  | .took index => e.tokens[index]?
  | .madeUp token => some token
  | _ => none

/-- The account of a run from `s` to `t`. -/
structure Accounted (e : Setting) (s t : State) (events : List Event) : Prop where
  speculation : t.speculation = s.speculation
  nested : ∀ event ∈ events, s.speculation ≤ event.speculation
  forward : s.position ≤ t.position
  inside : t.position ≤ e.tokens.size
  /-- The tokens passed are those from the start to the end, in order. -/
  passed : (whatsAt s.speculation events).filterMap Happening.passed? =
    List.range' s.position (t.position - s.position)
  /-- Nothing is mended where recovery does not apply. -/
  unmended : e.recovers s = false → ∀ what ∈ whatsAt s.speculation events, what.isRepair = false

namespace Accounted

/-- The account of a run that reports what it does itself. -/
theorem of_reports {whats : List Happening} (hspec : t.speculation = s.speculation)
    (hforward : s.position ≤ t.position) (hinside : t.position ≤ e.tokens.size)
    (hpassed : whats.filterMap Happening.passed? =
      List.range' s.position (t.position - s.position))
    (hunmended : e.recovers s = false → ∀ what ∈ whats, what.isRepair = false) :
    e.Accounted s t (s.reports whats) where
  speculation := hspec
  nested event hmem := by
    obtain ⟨what, -, rfl⟩ := List.mem_map.1 hmem
    exact Nat.le_refl _
  forward := hforward
  inside := hinside
  passed := by rw [whatsAt_reports, hpassed]
  unmended := by rwa [whatsAt_reports]

/-- The account of a run that stays in place. -/
theorem idle {whats : List Happening} (hinside : s.position ≤ e.tokens.size)
    (hwhats : ∀ what ∈ whats, what.passed? = none ∧ what.isRepair = false) :
    e.Accounted s s (s.reports whats) := by
  refine of_reports rfl (Nat.le_refl _) hinside ?_ fun _ what hmem => (hwhats what hmem).2
  rw [Nat.sub_self, List.range'_zero, List.filterMap_eq_nil_iff]
  exact fun what hmem => (hwhats what hmem).1

theorem refl (hinside : s.position ≤ e.tokens.size) : e.Accounted s s [] :=
  idle hinside (List.forall_mem_nil _)

theorem recovers (h : e.Accounted s t events) : e.recovers t = e.recovers s := by
  simp [Setting.recovers, State.isSpeculating, h.speculation]

/-- Accounts add up. -/
theorem trans (h : e.Accounted s t events) (h' : e.Accounted t u later) :
    e.Accounted s u (events ++ later) where
  speculation := h'.speculation.trans h.speculation
  nested event hmem := by
    rcases List.mem_append.1 hmem with hmem | hmem
    · exact h.nested event hmem
    · exact h.speculation ▸ h'.nested event hmem
  forward := Nat.le_trans h.forward h'.forward
  inside := h'.inside
  passed := by
    have hmid : t.position = s.position + (t.position - s.position) :=
      (Nat.add_sub_of_le h.forward).symm
    have hsum : u.position - s.position =
        t.position - s.position + (u.position - t.position) := by
      have := h.forward
      have := h'.forward
      omega
    have hlater := h'.passed
    rw [h.speculation] at hlater
    rw [whatsAt_append, List.filterMap_append, h.passed, hlater, hsum, ← List.range'_append_1,
      ← hmid]
  unmended hq what hmem := by
    have hlater := h'.unmended (h.recovers.trans hq)
    rw [h.speculation] at hlater
    rw [whatsAt_append] at hmem
    rcases List.mem_append.1 hmem with hmem | hmem
    · exact h.unmended hq what hmem
    · exact hlater what hmem

/-- An account is about positions and running trials only. -/
theorem congr (h : e.Accounted s t events) (hpos : s'.position = s.position)
    (hspec : s'.speculation = s.speculation) (hpos' : t'.position = t.position)
    (hspec' : t'.speculation = t.speculation) : e.Accounted s' t' events where
  speculation := by rw [hspec', h.speculation, hspec]
  nested := by rw [hspec]; exact h.nested
  forward := by rw [hpos, hpos']; exact h.forward
  inside := by rw [hpos']; exact h.inside
  passed := by rw [hspec, hpos, hpos']; exact h.passed
  unmended hq := by
    rw [hspec]
    refine h.unmended ?_
    simpa [Setting.recovers, State.isSpeculating, hspec] using hq

/-- A trial goes back to where it started, so that the account of the run inside of it comes to
nothing. -/
theorem of_trial {whats : List Happening} (hinside : s.position ≤ e.tokens.size)
    (h : e.Accounted s.onTrial u events)
    (hpos : t.position = s.position) (hspec : t.speculation = u.speculation - 1)
    (hwhats : ∀ what ∈ whats, what.passed? = none ∧ what.isRepair = false) :
    e.Accounted s t (events ++ t.reports whats) := by
  have hlevel : t.speculation = s.speculation := by
    rw [hspec, h.speculation]
    rfl
  have hgate : e.Accounted s t (s.reports whats) :=
    (idle hinside hwhats).congr rfl rfl hpos hlevel
  have hsame : t.reports whats = s.reports whats := by simp [State.reports, hlevel]
  have hnone : whatsAt s.speculation events = [] := whatsAt_eq_nil h.nested
  rw [hsame]
  refine ⟨hlevel, fun event hmem => ?_, hgate.forward, hgate.inside, ?_, ?_⟩
  · rcases List.mem_append.1 hmem with hmem | hmem
    · exact Nat.le_of_succ_le (h.nested event hmem)
    · exact hgate.nested event hmem
  · rw [whatsAt_append, hnone]
    exact hgate.passed
  · rw [whatsAt_append, hnone]
    exact hgate.unmended

end Accounted

/-- If the run starts inside of the stream, it has an account. -/
def Accounts (e : Setting) ⦃α : Type⦄ (s : State) (ran : Ran α) : Prop :=
  s.position ≤ e.tokens.size → e.Accounted s ran.state ran.events

/-! ## The operations -/

theorem lt_size_of_tokenOf? {index : Nat} {kind : Terminal} {token : Token}
    (h : e.tokenOf? index kind = some token) : index < e.tokens.size :=
  (Array.getElem?_eq_some_iff.1 (Option.filter_eq_some_iff.1 h).1).1

theorem Consumed.accounts {kind : Terminal} {occurrence : Nat} {ran : Ran Token}
    (h : e.Consumed kind occurrence s ran) : e.Accounts s ran := by
  intro hinside
  cases h with
  | took hnext =>
    exact .of_reports rfl (Nat.le_succ _) (lt_size_of_tokenOf? hnext) (by simp [Happening.passed?])
      (by simp [Happening.isRepair])
  | dropped hnext hrecovers hahead =>
    have htwo : s.position + 1 + 1 - s.position = 2 := by omega
    have hend : s.position + 1 + 1 ≤ e.tokens.size := lt_size_of_tokenOf? hahead
    refine .of_reports (by simp) (by simp; omega) (by simpa using hend) ?_ (by simp [hrecovers])
    rw [recordError_position, htwo]
    rfl
  | madeUp hnext hrecovers =>
    refine .of_reports (by simp) (by simp) (by simpa using hinside) ?_ (by simp [hrecovers])
    simp [Happening.passed?]
  | raised => exact .idle hinside (by simp [Happening.passed?, Happening.isRepair])
  | failed => exact .refl hinside

theorem skipEnd_bounds (kind : Terminal) (hinside : s.position ≤ e.tokens.size) :
    s.position ≤ e.skipEnd s kind ∧ e.skipEnd s kind ≤ e.tokens.size :=
  Cursor.skipTo_bounds (c := e.cursor s) _ _ hinside

theorem Resynced.accounts {name : String} {recovery : V} {error : ParseError} {ran : Ran V}
    (h : e.Resynced name recovery error s ran) (hrecovers : e.recovers s = true) :
    e.Accounts s ran := by
  intro hinside
  cases h with
  | @resumed count kind hpoint =>
    obtain ⟨hforward, hend⟩ := skipEnd_bounds kind hinside
    have hskip : e.Accounted s { s with position := e.skipEnd s kind }
        (s.reports ((List.range' s.position (e.skipEnd s kind - s.position)).map .skipped)) :=
      .of_reports rfl hforward hend (by simp [List.filterMap_map, Function.comp_def,
        Happening.passed?]) (by simp [hrecovers])
    have hrest : e.Accounted { s with position := e.skipEnd s kind }
        { s with position := e.skipEnd s kind } (s.reports [.recovered name]) :=
      .idle hend (by simp [Happening.passed?, Happening.isRepair])
    exact (hskip.trans hrest).congr rfl rfl (by simp) (by simp)
  | raised => exact .idle hinside (by simp [Happening.passed?, Happening.isRepair])
  | failed => exact .refl hinside

theorem judgement_idle {accept : V → Bool} {r : Except ParseError V} :
    ∀ what ∈ judgement accept r, what.passed? = none ∧ what.isRepair = false := by
  cases r with
  | ok value => exact List.forall_mem_singleton.2 ⟨rfl, rfl⟩
  | error error => exact List.forall_mem_nil _

theorem accounts_law (e : Setting) : RunLaw e e.Accounts where
  value _ _ hinside := .refl hinside
  error h _ := h
  bind h _ h' hinside := (h hinside).trans (h' (h hinside).inside)
  consumed h := h.accounts
  raised _ _ hinside := .idle hinside (List.forall_mem_singleton.2 ⟨rfl, rfl⟩)
  noViable _ _ _ hinside := .refl hinside
  frame h hinside := (h hinside).congr rfl rfl rfl rfl
  resynced h _ _ hrecovers h' hinside :=
    (h hinside).trans (h'.accounts hrecovers (h hinside).inside)
  trial _ h hinside := .of_trial hinside (h hinside) rfl rfl judgement_idle

end Setting

/-! ## Programs -/

namespace Program

variable {book : Book ι V}

theorem exec_accounts {enter : ι → Action V} (he : ∀ rule, (enter rule).Obeys e.Accounts)
    {p : Program ι V α} (hp : p.Everywhere Onward) : (p.exec e book enter).Obeys e.Accounts := by
  intro s ran h hinside
  induction p using useInduction generalizing s ran with
  | done result =>
    cases h
    exact .refl hinside
  | halt why => cases h
  | use op next ih =>
    rw [exec_use] at h
    obtain ⟨first, last, hfirst, hlast, rfl⟩ := Action.andThen_eq_ok.1 h
    have hop := op.run_obeys (Setting.accounts_law e) he hfirst hinside
    exact hop.trans (ih _ ((everywhere_use.1 hp).2 _) hlast hop.inside)
  | inspect next ih => exact ih e s (hp.2 e s) h hinside
  | takeErrors next ih =>
    have hrest := ih s.errors (hp.2 _) h hinside
    exact hrest.congr rfl rfl rfl rfl
  | mark name next ih =>
    have hrest := ih hp.2 h hinside
    exact hrest.congr rfl rfl rfl rfl
  -- going back is what an onward program does not do
  | restore place next ih => exact hp.1.elim
  | recoveryValue rule next ih =>
    obtain ⟨first, last, hfirst, hlast, rfl⟩ := Action.andThen_eq_ok.1 h
    cases hfirst
    have hreport : e.Accounted s s (s.reports [.recovered (book rule).name]) :=
      .idle hinside (List.forall_mem_singleton.2 ⟨rfl, rfl⟩)
    exact hreport.trans (ih _ (hp.2 _) hlast hinside)

/-- The body of a rule has an account, however deep the calls in it nest. -/
theorem enter_accounts (hb : ∀ rule, (book rule).body.Everywhere Onward) (fuel : Nat) (rule : ι) :
    (enter e book fuel rule).Obeys e.Accounts := by
  induction fuel generalizing rule with
  | zero => exact fun s ran h => nomatch h
  | succ fuel ih =>
    intro s ran h hinside
    obtain ⟨inner, hinner, rfl⟩ := enter_run h
    have hbody := exec_accounts ih (hb rule) hinner hinside
    have hentered : e.Accounted s s (s.reports [.entered (book rule).name s.position
        s.frames.length]) := .idle hinside (List.forall_mem_singleton.2 ⟨rfl, rfl⟩)
    have hleft : e.Accounted inner.state inner.state (inner.state.reports [.left (book rule).name
        inner.result.isOk inner.state.position inner.state.errors.length]) :=
      .idle hbody.inside (List.forall_mem_singleton.2 ⟨rfl, rfl⟩)
    exact hentered.trans (hbody.trans hleft)

end Program

/-! ## Tokens passed and tokens handed out -/

theorem filterMap_getElem?_range' (l : List α) (start count : Nat) :
    (List.range' start count).filterMap (l[·]?) = (l.drop start).take count := by
  induction count generalizing start with
  | zero => simp
  | succ count ih =>
    rw [List.range'_succ, List.filterMap_cons, ih]
    obtain hlt | hge := Nat.lt_or_ge start l.length
    · rw [List.getElem?_eq_getElem hlt, List.drop_eq_getElem_cons hlt, List.take_succ_cons]
    · rw [List.getElem?_eq_none hge, List.drop_eq_nil_of_le hge,
        List.drop_eq_nil_of_le (Nat.le_succ_of_le hge), List.take_nil, List.take_nil]

namespace Setting

/-- What comes of consuming a token of a kind from `s`. -/
structure HandsOut (e : Setting) (kind : Terminal) (s : State) (ran : Ran Token) : Prop where
  /-- The token that is returned is the one reported. -/
  reported : (whatsAt s.speculation ran.events).filterMap e.handed? = ran.result.toOption.toList
  sameKind : ∀ token, ran.result = .ok token → token.kind = kind
  /-- It is a token of the input, or one made up in front of the current one. -/
  origin : ∀ token, ran.result = .ok token →
    (∃ index, .took index ∈ whatsAt s.speculation ran.events ∧ e.tokens[index]? = some token) ∨
    ∃ current, e.tokens[s.position]? = some current ∧
      token = { kind, text := "", offset := current.offset }

/-- The ends in which a token of the input is handed out, be it after another one was dropped. -/
theorem handsOut_of_took {kind : Terminal} {index : Nat} {token : Token} {whats : List Happening}
    (hfound : e.tokenOf? index kind = some token) (htook : .took index ∈ whats)
    (hwhats : whats.filterMap e.handed? = [.took index].filterMap e.handed?) :
    e.HandsOut kind s { result := .ok token, state := t, events := s.reports whats } := by
  obtain ⟨hinput, hkind⟩ := Option.filter_eq_some_iff.1 hfound
  refine ⟨?_, fun returned h => ?_, fun returned h => .inl ⟨index, ?_, ?_⟩⟩
  · simp [hwhats, handed?, hinput, Except.toOption]
  · cases h
    exact of_decide_eq_true hkind
  · rwa [whatsAt_reports]
  · cases h
    exact hinput

theorem consume_handsOut {kind : Terminal} {occurrence : Nat} {ran : Ran Token}
    (h : e.consume kind occurrence s = .ok ran) : e.HandsOut kind s ran := by
  cases consumed_of_run h with
  | took hnext => exact handsOut_of_took hnext (by simp) rfl
  | dropped _ _ hahead => exact handsOut_of_took hahead (by simp) rfl
  | madeUp _ _ _ _ hcurrent =>
    refine ⟨by rw [whatsAt_reports]; rfl, fun token htoken => ?_, fun token htoken => .inr ?_⟩
    · cases htoken
      rfl
    · cases htoken
      exact ⟨_, hcurrent, rfl⟩
  | raised => exact ⟨by rw [whatsAt_reports]; rfl, nofun, nofun⟩
  | failed => exact ⟨rfl, nofun, nofun⟩

/-- Without repairs, the tokens handed out are the tokens passed. -/
theorem filterMap_handed? {whats : List Happening} (h : ∀ what ∈ whats, what.isRepair = false) :
    whats.filterMap e.handed? = (whats.filterMap Happening.passed?).filterMap (e.tokens[·]?) := by
  rw [List.filterMap_filterMap]
  refine List.filterMap_congr fun what hmem => ?_
  have hrepair := h what hmem
  cases what with
  | deleted | skipped | madeUp => cases hrepair
  | _ => rfl

theorem Accounted.handed (h : e.Accounted s t events) (hq : e.recovers s = false) :
    (whatsAt s.speculation events).filterMap e.handed? =
      (e.tokens.extract s.position t.position).toList := by
  have hlist := filterMap_getElem?_range' e.tokens.toList s.position (t.position - s.position)
  simp only [Array.getElem?_toList] at hlist
  rw [filterMap_handed? (h.unmended hq), h.passed, hlist, Array.toList_extract,
    List.extract_eq_take_drop]

/-- However rule bodies call, try and choose rules and whatever they do with errors, a rule that is
run outside of trials goes forward and accounts for every token between its start and its end, once
and in order: it is handed out, dropped or skipped. Without recovery all of them are handed out and
no others. What consuming hands out is of the kind asked for, and is a token of the input or one
without text that is made up at the offset of the current token. -/
theorem tokens_accounted (e : Setting) (book : Book ι V)
    (hb : ∀ rule, (book rule).body.Everywhere Program.Onward) (fuel : Nat) (rule : ι)
    (occurrence : Nat) (s : State) (hs : s.speculation = 0) (hinside : s.position ≤ e.tokens.size)
    (ran : Ran V)
    (h : e.invoke (book rule).name (Program.enter e book fuel rule) s = .ok ran ∨
      e.call (Program.calleeOf e book fuel rule) occurrence s = .ok ran) :
    (s.position ≤ ran.state.position ∧ ran.state.position ≤ e.tokens.size) ∧
    (whatsAt 0 ran.events).filterMap Happening.passed? =
      List.range' s.position (ran.state.position - s.position) ∧
    (e.config.recovery = false → (whatsAt 0 ran.events).filterMap e.handed? =
      (e.tokens.extract s.position ran.state.position).toList) ∧
    ∀ kind occurrence t consumed, e.consume kind occurrence t = .ok consumed →
      e.HandsOut kind t consumed := by
  have hop (op : Operation ι V V) : (op.run e (Program.calleeOf e book fuel)).Obeys e.Accounts :=
    op.run_obeys (accounts_law e) (Program.enter_accounts hb fuel)
  have haccount : e.Accounted s ran.state ran.events := by
    obtain h | h := h
    · exact hop (.invoke rule) h hinside
    · exact hop (.subrule rule occurrence) h hinside
  refine ⟨⟨haccount.forward, haccount.inside⟩, hs ▸ haccount.passed, fun hoff => ?_,
    fun kind occurrence t consumed => consume_handsOut⟩
  rw [← hs]
  exact haccount.handed (by simp [recovers, hoff])

end Setting

/-! ## A sample account -/

namespace Sample

/-- The bodies of `callBodies`, but a statement is preceded by a trial of its call. -/
def tentative : Book CallRule Nat
  | .stmts =>
    { name := "stmts"
      recovery := 0
      body := .backtrack .call (fun _ => true) fun _ => .subrule .stmt 1 .done }
  | rule => callBodies rule

theorem tentative_everywhere_onward (rule : CallRule) :
    (tentative rule).body.Everywhere Program.Onward := by
  have hcalls rule : (callBodies rule).body.Everywhere Program.Onward :=
    (callBodies_everywhere traceless_ofForwarding rule).mono fun _ h => h.tidy.onward
  cases rule with
  | stmts => exact ⟨trivial, fun _ => ⟨trivial, fun _ => trivial⟩⟩
  | stmt => exact hcalls .stmt
  | call => exact hcalls .call
  | args => exact hcalls .args

/-- A call with a name too many and without its arguments and closing parenthesis. -/
def garbled (a : Analysis) : Setting where
  analysis := a
  tokens := #[{ kind := 0, text := "f", offset := 0 }, { kind := 0, text := "g", offset := 2 },
    { kind := 3, text := "(", offset := 3 }, { kind := 1, text := ",", offset := 4 },
    { kind := 1, text := ",", offset := 5 }, { kind := 2, text := ";", offset := 6 }]
  config := { recovery := true }

/-- A call as it should be, parsed without recovery. -/
def orderly (a : Analysis) : Setting where
  analysis := a
  tokens := #[{ kind := 0, text := "f", offset := 0 }, { kind := 3, text := "(", offset := 1 },
    { kind := 0, text := "x", offset := 2 }, { kind := 4, text := ")", offset := 3 },
    { kind := 2, text := ";", offset := 4 }]
  config := {}

/-- One token of the garbled call is dropped, one is made up and two are skipped, and the six tokens
of the input add up. Of the orderly call all tokens are handed out. -/
theorem garbled_tokens_add_up : ∃ a, analysisOf calls = .ok a ∧
    (∃ ran,
      (garbled a).invoke "stmts" (Program.enter (garbled a) tentative 4 .stmts) {} = .ok ran ∧
      (whatsAt 0 ran.events).filterMap Happening.passed? = [0, 1, 2, 3, 4, 5]) ∧
    ∃ ran, (orderly a).call (Program.calleeOf (orderly a) tentative 4 .stmts) 1 {} = .ok ran ∧
      (whatsAt 0 ran.events).filterMap (orderly a).handed? = (orderly a).tokens.toList := by
  have hruns : (analysisOf calls).toOption.any (fun a =>
      ((garbled a).invoke "stmts" (Program.enter (garbled a) tentative 4 .stmts) {}).toOption.any
        (·.state.position == 6) &&
      ((orderly a).call (Program.calleeOf (orderly a) tentative 4 .stmts) 1 {}).toOption.any
        (·.state.position == 5)) = true := by decide +kernel
  obtain ⟨a, ha, hruns⟩ := exists_ok_of_any hruns
  obtain ⟨hgarbled, horderly⟩ := Bool.and_eq_true_iff.1 hruns
  refine ⟨a, ha, ?_, ?_⟩
  · obtain ⟨ran, hran, hend⟩ := exists_ok_of_any hgarbled
    obtain ⟨-, hpassed, -⟩ := Setting.tokens_accounted (garbled a) tentative
      tentative_everywhere_onward 4 .stmts 1 {} rfl (Nat.zero_le _) ran (.inl hran)
    rw [eq_of_beq hend] at hpassed
    exact ⟨ran, hran, hpassed⟩
  · obtain ⟨ran, hran, hend⟩ := exists_ok_of_any horderly
    obtain ⟨-, -, hhanded, -⟩ := Setting.tokens_accounted (orderly a) tentative
      tentative_everywhere_onward 4 .stmts 1 {} rfl (Nat.zero_le _) ran (.inr hran)
    have hall := hhanded rfl
    rw [eq_of_beq hend] at hall
    exact ⟨ran, hran, hall⟩

end Sample

end Descent
