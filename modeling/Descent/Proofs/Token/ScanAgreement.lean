import Descent.Proofs.Token.Scans

/-!
# The two scans agree

One scan looks ahead and stays where it is, the other one moves. Both are decided by the first token
of the set (`Cursor.FirstIn`): where there is one the first scan tells it and the second stops on
it, and where there is none the second runs to the end of the stream (`synchronize_of_none`).

`peekFor` and `skipCounting` are the scans with their arithmetic spelled out: every position and
every count has to be an address. In a stream with an address past its end they never fault, and
find what the scans find.
-/

namespace Descent

/-- The address after another one. -/
def addressAfter (n : Nat) : Except Fault Nat :=
  if n + 1 < addressLimit then .ok (n + 1) else .error .addressOverflow

theorem addressAfter_eq_ok {n m : Nat} :
    addressAfter n = .ok m ↔ n + 1 < addressLimit ∧ m = n + 1 := by
  unfold addressAfter
  split <;> simp [*, eq_comm]

theorem addressAfter_of_lt {n : Nat} (h : n + 1 < addressLimit) : addressAfter n = .ok (n + 1) :=
  if_pos h

namespace Cursor

variable {c : Cursor} {recovery : TerminalSet} {n bound count : Nat} {kind : Terminal}

/-! ## No token of the set -/

/-- No token from the cursor on has a kind in the set. -/
def NoneIn (c : Cursor) (recovery : TerminalSet) : Prop :=
  ∀ index token, c.position ≤ index → c.tokens[index]? = some token → token.kind ∉ recovery

theorem exists_firstIn_or_noneIn (c : Cursor) (recovery : TerminalSet) :
    (∃ index token, c.FirstIn recovery index token) ∨ c.NoneIn recovery := by
  by_cases h : ∃ index token, c.FirstIn recovery index token
  · exact .inl h
  · exact .inr fun index token hle hfound hmem => h (exists_firstIn hle hfound hmem)

theorem NoneIn.findResync (h : c.NoneIn recovery) : c.findResync recovery = none := by
  refine Option.eq_none_iff_forall_ne_some.2 fun found hfound => ?_
  obtain ⟨token, hfirst, -⟩ := findResync_eq_some_iff.1 hfound
  exact h _ token hfirst.le hfirst.found hfirst.mem

theorem kind?_eq_some_iff :
    c.kind? = some kind ↔ ∃ token, c.tokens[c.position]? = some token ∧ token.kind = kind := by
  simp [kind?, current?]

theorem lt_size_of_kind? (h : c.kind? = some kind) : c.position < c.tokens.size := by
  obtain ⟨token, hfound, -⟩ := kind?_eq_some_iff.1 h
  exact (Array.getElem?_eq_some_iff.1 hfound).1

theorem size_le_of_kind? (h : c.kind? = none) : c.tokens.size ≤ c.position := by
  simpa [kind?, current?] using h

theorem advance_of_kind? (h : c.kind? = some kind) :
    c.advance.2 = { c with position := c.position + 1 } := by
  obtain ⟨token, hfound, -⟩ := kind?_eq_some_iff.1 h
  simp [advance, current?, hfound]

theorem skipTo_of_none (h : c.NoneIn recovery) (hbound : c.tokens.size < c.position + bound) :
    skipTo recovery bound c = (none, { c with position := max c.position c.tokens.size }) := by
  induction bound generalizing c with
  | zero => rw [skipTo, Nat.max_eq_left (by omega)]
  | succ bound ih =>
    unfold skipTo
    split
    next hkind => rw [Nat.max_eq_left (size_le_of_kind? hkind)]
    next kind hkind =>
      have hsize := lt_size_of_kind? hkind
      obtain ⟨token, hfound, rfl⟩ := kind?_eq_some_iff.1 hkind
      have hnot : ¬ recovery.contains token.kind = true := h _ token (Nat.le_refl _) hfound
      have hnext : { c with position := c.position + 1 }.NoneIn recovery :=
        fun index token hle => h index token (Nat.le_of_succ_le hle)
      rw [if_neg hnot, advance_of_kind? hkind, ih hnext (by simp only; omega)]
      simp only [Option.map_none, Prod.mk.injEq, true_and]
      rw [Nat.max_eq_right hsize, Nat.max_eq_right (Nat.le_of_lt hsize)]

theorem synchronize_of_none (h : c.NoneIn recovery) :
    c.synchronize recovery = (none, { c with position := max c.position c.count }) :=
  skipTo_of_none h (by unfold count; omega)

/-- The second scan stops where the first one has looked. -/
theorem synchronize_eq_some_iff : (c.synchronize recovery).1 = some n ↔
    ∃ token, c.FirstIn recovery (c.position + n) token := by
  constructor
  · intro h
    obtain ⟨index, token, hfirst⟩ | hnone := c.exists_firstIn_or_noneIn recovery
    · rw [synchronize_of_firstIn hfirst] at h
      have hle := hfirst.le
      cases h
      exact ⟨token, by rwa [Nat.add_sub_of_le hle]⟩
    · rw [synchronize_of_none hnone] at h
      cases h
  · rintro ⟨token, hfirst⟩
    rw [synchronize_of_firstIn hfirst, Nat.add_sub_cancel_left]

/-! ## Addresses -/

theorem peek_eq_some (h : c.peek n = .ok (some kind)) :
    ∃ token, c.tokens[c.position + n]? = some token ∧ token.kind = kind := by
  unfold peek at h
  split at h
  · simpa [ahead?] using h
  · cases h

theorem peek_of_lt (h : c.position + n < addressLimit) : c.peek n = .ok (c.ahead? n) := if_pos h

/-- Peeks at one place after the other, from the `n`-th one ahead on, up to the first kind of a set.
Every count and every place has to be an address. -/
def peekFor (c : Cursor) (recovery : TerminalSet) (n : Nat) :
    Except Fault (Option (Nat × Terminal)) :=
  match _hnext : addressAfter n with
  | .error fault => .error fault
  | .ok next =>
    match _hpeek : c.peek n with
    | .error fault => .error fault
    | .ok none => .ok none
    | .ok (some kind) =>
      if recovery.contains kind then .ok (some (n, kind)) else c.peekFor recovery next
termination_by c.tokens.size - (c.position + n)
decreasing_by
  obtain ⟨token, hfound, -⟩ := peek_eq_some _hpeek
  have hsize := (Array.getElem?_eq_some_iff.1 hfound).1
  obtain ⟨-, rfl⟩ := addressAfter_eq_ok.1 _hnext
  omega

/-- Moves from one token to the next up to the first one of a set, having skipped so many tokens
already. Every count and every position has to be an address. -/
def skipCounting (recovery : TerminalSet) (count : Nat) (c : Cursor) :
    Except Fault (Option Nat × Cursor) :=
  match _hkind : c.kind? with
  | none => .ok (none, c)
  | some kind =>
    if recovery.contains kind then .ok (some count, c)
    else
      match _hposition : addressAfter c.position, addressAfter count with
      | .ok position, .ok count => skipCounting recovery count { c with position }
      | .error fault, _ | _, .error fault => .error fault
termination_by c.tokens.size - c.position
decreasing_by
  have hsize := lt_size_of_kind? _hkind
  obtain ⟨-, rfl⟩ := addressAfter_eq_ok.1 _hposition
  omega

/-- No place that is peeked at lies beyond the end of the stream, so none overflows. -/
theorem peekFor_eq (hplace : c.position + n ≤ c.tokens.size)
    (hfits : c.tokens.size + 1 < addressLimit) : c.peekFor recovery n =
      .ok ((scanFor recovery (c.remaining.drop n)).map fun found => (n + found.1, found.2)) := by
  fun_induction peekFor c recovery n with
  | case1 n fault hnext =>
    rw [addressAfter_of_lt (by omega)] at hnext
    cases hnext
  | case2 n next hnext fault hpeek =>
    rw [peek_of_lt (by omega)] at hpeek
    cases hpeek
  | case3 n next hnext hpeek =>
    rw [peek_of_lt (by omega)] at hpeek
    have hend : c.remaining.length ≤ n := by
      have hnone : c.tokens.size ≤ c.position + n := by simpa [ahead?] using hpeek
      simp [remaining]
      omega
    rw [List.drop_eq_nil_of_le hend]
    rfl
  | case4 n next hnext kind hpeek hmem =>
    obtain ⟨token, hfound, rfl⟩ := peek_eq_some hpeek
    rw [← getElem?_remaining] at hfound
    obtain ⟨hlt, rfl⟩ := List.getElem?_eq_some_iff.1 hfound
    rw [List.drop_eq_getElem_cons hlt, scanFor, if_pos hmem]
    rfl
  | case5 n next hnext kind hpeek hmem ih =>
    obtain ⟨token, hfound, rfl⟩ := peek_eq_some hpeek
    have hsize := (Array.getElem?_eq_some_iff.1 hfound).1
    obtain ⟨-, rfl⟩ := addressAfter_eq_ok.1 hnext
    rw [← getElem?_remaining] at hfound
    obtain ⟨hlt, rfl⟩ := List.getElem?_eq_some_iff.1 hfound
    rw [ih (by omega), List.drop_eq_getElem_cons hlt, scanFor, if_neg hmem, Option.map_map]
    congr 2
    funext found
    simp only [Function.comp_apply, Prod.mk.injEq, and_true]
    omega

/-- The cursor is moved only where there is a token, and no further than to the end. -/
theorem skipCounting_eq (hcount : count ≤ c.position) (hfits : c.tokens.size < addressLimit)
    (hbound : c.tokens.size < c.position + bound) : skipCounting recovery count c =
      .ok ((skipTo recovery bound c).1.map (count + ·), (skipTo recovery bound c).2) := by
  fun_induction skipCounting recovery count c generalizing bound with
  | case1 count c hkind =>
    cases bound <;> simp [skipTo, hkind]
  | case2 count c kind hkind hmem =>
    have hsize := lt_size_of_kind? hkind
    obtain ⟨bound, rfl⟩ := Nat.exists_eq_add_one_of_ne_zero (by omega : bound ≠ 0)
    simp [skipTo, hkind, hmem]
  | case3 count c kind hkind hmem position next hposition hnext ih =>
    have hsize := lt_size_of_kind? hkind
    obtain ⟨bound, rfl⟩ := Nat.exists_eq_add_one_of_ne_zero (by omega : bound ≠ 0)
    obtain ⟨-, rfl⟩ := addressAfter_eq_ok.1 hposition
    obtain ⟨-, rfl⟩ := addressAfter_eq_ok.1 hnext
    have hrest : c.tokens.size < c.position + 1 + bound := by omega
    rw [ih (by simp only; omega) hfits hrest, skipTo]
    simp only [hkind, if_neg hmem, advance_of_kind? hkind, Option.map_map]
    congr 3
    funext m
    simp only [Function.comp_apply]
    omega
  | case4 count c kind hkind hmem fault hposition =>
    have hsize := lt_size_of_kind? hkind
    rw [addressAfter_of_lt (by omega)] at hposition
    cases hposition
  | case5 count c kind hkind hmem fault hnext =>
    have hsize := lt_size_of_kind? hkind
    rw [addressAfter_of_lt (by omega)] at hnext
    cases hnext

/-- What one scan finds is where the other one stops. The first scan finds a token if and only if
the second one stops on that token, after as many tokens and with none of the set before it; it
finds nothing if and only if the second one runs to the end. To stop there the second scan may as
well look for the kind that the first one has found. And neither scan computes a number that is not
an address. -/
theorem scans_agree (c : Cursor) (recovery : TerminalSet) :
    (∀ n kind, c.findResync recovery = some (n, kind) ↔
      c.synchronize recovery = (some n, { c with position := c.position + n }) ∧
      (c.synchronize recovery).2.kind? = some kind ∧
      ∀ index token, c.position ≤ index → index < c.position + n →
        c.tokens[index]? = some token → token.kind ∉ recovery) ∧
    (c.findResync recovery = none ↔
      (c.synchronize recovery).1 = none ∧ (c.synchronize recovery).2.atEnd = true) ∧
    (∀ n kind, c.findResync recovery = some (n, kind) →
      c.synchronize (.single kind) = (some n, { c with position := c.position + n })) ∧
    (c.position ≤ c.count → c.count + 1 < addressLimit →
      (c.synchronize recovery).2.position ≤ c.count ∧
      c.peekFor recovery 0 = .ok (c.findResync recovery) ∧
      skipCounting recovery 0 c = .ok (c.synchronize recovery)) := by
  have hstops {n recovery token} (h : c.FirstIn recovery (c.position + n) token) :
      c.synchronize recovery = (some n, { c with position := c.position + n }) := by
    rw [synchronize_of_firstIn h, Nat.add_sub_cancel_left]
  refine ⟨fun n kind => ⟨fun h => ?_, fun h => ?_⟩, ⟨fun h => ?_, fun h => ?_⟩, fun n kind h => ?_,
    fun hplace hfits => ⟨?_, ?_, ?_⟩⟩
  · obtain ⟨token, hfirst, rfl⟩ := findResync_eq_some_iff.1 h
    have hstop := hstops hfirst
    exact ⟨hstop, by rw [hstop]; exact kind?_eq_some_iff.2 ⟨token, hfirst.found, rfl⟩, hfirst.first⟩
  · obtain ⟨hstop, hkind, -⟩ := h
    obtain ⟨token, hfirst⟩ := synchronize_eq_some_iff.1 (congrArg Prod.fst hstop)
    rw [hstop] at hkind
    obtain ⟨token', hfound, rfl⟩ := kind?_eq_some_iff.1 hkind
    cases hfirst.found.symm.trans hfound
    exact findResync_eq_some_iff.2 ⟨token, hfirst, rfl⟩
  · obtain ⟨index, token, hfirst⟩ | hnone := c.exists_firstIn_or_noneIn recovery
    · cases h.symm.trans hfirst.findResync
    · rw [synchronize_of_none hnone]
      exact ⟨rfl, decide_eq_true (Nat.le_max_right ..)⟩
  · obtain ⟨index, token, hfirst⟩ | hnone := c.exists_firstIn_or_noneIn recovery
    · rw [synchronize_of_firstIn hfirst] at h
      cases h.1
    · exact hnone.findResync
  · obtain ⟨token, hfirst, rfl⟩ := findResync_eq_some_iff.1 h
    exact hstops hfirst.single
  · exact (skipTo_bounds recovery _ hplace).2
  · rw [peekFor_eq hplace hfits]
    simp [findResync]
  · have hbound : c.tokens.size < c.position + (c.count + 1) := by
      unfold count
      omega
    rw [skipCounting_eq (Nat.zero_le _) (Nat.lt_of_succ_lt hfits) hbound]
    simp [synchronize]

/-- A cursor after the first of five tokens, with two commas ahead. -/
def afterFirst : Cursor where
  tokens := #[{ kind := 2, text := "a", offset := 0 }, { kind := 0, text := "b", offset := 2 },
    { kind := 1, text := ",", offset := 3 }, { kind := 2, text := "c", offset := 5 },
    { kind := 1, text := ",", offset := 6 }]
  position := 1

/-- The token before the cursor does not count, and of the two commas the first one does. -/
theorem afterFirst_scans_agree :
    afterFirst.findResync (.ofList [1, 2]) = some (1, 1) ∧
    afterFirst.synchronize (.ofList [1, 2]) = (some 1, { afterFirst with position := 2 }) ∧
    afterFirst.synchronize (.single 1) = (some 1, { afterFirst with position := 2 }) ∧
    afterFirst.peekFor (.ofList [1, 2]) 0 = .ok (some (1, 1)) ∧
    skipCounting (.ofList [1, 2]) 0 afterFirst =
      .ok (some 1, { afterFirst with position := 2 }) := by
  have hfound : afterFirst.findResync (.ofList [1, 2]) = some (1, 1) := by decide
  obtain ⟨hsome, -, hsingle, haddresses⟩ := scans_agree afterFirst (.ofList [1, 2])
  obtain ⟨hstop, -, -⟩ := (hsome 1 1).1 hfound
  obtain ⟨-, hpeek, hskip⟩ := haddresses (by decide) (by decide)
  exact ⟨hfound, hstop, hsingle 1 1 hfound, hpeek.trans (congrArg _ hfound),
    hskip.trans (congrArg _ hstop)⟩

end Cursor

end Descent
