import Descent.Token.Cursor

/-!
# What the scans find

Both scans look for the first token from the cursor on whose kind is in a set. `Cursor.FirstIn` says
which token that is, without a scan. `findResync` finds it (`findResync_eq_some_iff`), and
`synchronize` stops on it (`synchronize_of_firstIn`).
-/

namespace Descent.Cursor

variable {c : Cursor} {recovery : TerminalSet} {index n : Nat} {token : Token} {kind : Terminal}

/-- The token at `index` is the first one from the cursor on whose kind is in the set. -/
structure FirstIn (c : Cursor) (recovery : TerminalSet) (index : Nat) (token : Token) : Prop where
  le : c.position ≤ index
  found : c.tokens[index]? = some token
  mem : token.kind ∈ recovery
  first : ∀ j earlier, c.position ≤ j → j < index → c.tokens[j]? = some earlier →
    earlier.kind ∉ recovery

theorem exists_firstIn (hle : c.position ≤ index) (hfound : c.tokens[index]? = some token)
    (hmem : token.kind ∈ recovery) : ∃ index token, c.FirstIn recovery index token := by
  induction index using Nat.strongRecOn generalizing token with
  | ind index ih =>
    by_cases hbefore : ∃ j earlier, c.position ≤ j ∧ j < index ∧ c.tokens[j]? = some earlier ∧
        earlier.kind ∈ recovery
    · obtain ⟨j, earlier, hle', hlt, hfound', hmem'⟩ := hbefore
      exact ih j hlt hle' hfound' hmem'
    · refine ⟨index, token, hle, hfound, hmem, fun j earlier hle' hlt hfound' hmem' => ?_⟩
      exact hbefore ⟨j, earlier, hle', hlt, hfound', hmem'⟩

theorem FirstIn.unique {index' : Nat} {token' : Token} (h : c.FirstIn recovery index token)
    (h' : c.FirstIn recovery index' token') : index = index' ∧ token = token' := by
  have hle : index ≤ index' :=
    Nat.not_lt.1 fun hlt => h.first index' token' h'.le hlt h'.found h'.mem
  have hge : index' ≤ index :=
    Nat.not_lt.1 fun hlt => h'.first index token h.le hlt h.found h.mem
  obtain rfl := Nat.le_antisymm hle hge
  exact ⟨rfl, Option.some.inj (h.found.symm.trans h'.found)⟩

theorem scanFor_eq_some_iff {tokens : List Token} :
    scanFor recovery tokens = some (n, kind) ↔ ∃ token, tokens[n]? = some token ∧
      token.kind = kind ∧ kind ∈ recovery ∧
      ∀ j earlier, j < n → tokens[j]? = some earlier → earlier.kind ∉ recovery := by
  induction tokens generalizing n with
  | nil => simp [scanFor]
  | cons head tokens ih =>
    unfold scanFor
    split
    next hmem =>
      constructor
      · intro h
        cases h
        exact ⟨head, rfl, rfl, hmem, by simp⟩
      · rintro ⟨token, htoken, rfl, -, hfirst⟩
        cases n with
        | zero =>
          cases htoken
          rfl
        | succ n => exact absurd hmem (hfirst 0 head n.succ_pos rfl)
    next hmem =>
      cases n with
      | zero =>
        simp only [Option.map_eq_some_iff, Prod.exists, List.getElem?_cons_zero, Option.some.injEq]
        constructor
        · rintro ⟨m, kind, -, h⟩
          cases h
        · rintro ⟨token, rfl, rfl, hmem', -⟩
          exact absurd hmem' hmem
      | succ n =>
        refine Iff.trans (b := scanFor recovery tokens = some (n, kind)) (by simp) ?_
        rw [ih]
        refine exists_congr fun token => and_congr .rfl <| and_congr .rfl <| and_congr .rfl ?_
        constructor
        · intro hfirst j earlier hj hearlier
          cases j with
          | zero =>
            cases hearlier
            exact hmem
          | succ j => exact hfirst j earlier (by omega) hearlier
        · exact fun hfirst j earlier hj => hfirst (j + 1) earlier (by omega)

theorem getElem?_remaining (c : Cursor) (j : Nat) :
    c.remaining[j]? = c.tokens[c.position + j]? := by
  simp [remaining]

theorem findResync_eq_some_iff : c.findResync recovery = some (n, kind) ↔
    ∃ token, c.FirstIn recovery (c.position + n) token ∧ token.kind = kind := by
  unfold findResync
  simp only [scanFor_eq_some_iff, getElem?_remaining]
  refine exists_congr fun token => ?_
  constructor
  · rintro ⟨hfound, rfl, hmem, hfirst⟩
    refine ⟨⟨by omega, hfound, hmem, fun j earlier hle hlt hearlier => ?_⟩, rfl⟩
    obtain ⟨m, rfl⟩ := Nat.exists_eq_add_of_le hle
    exact hfirst m earlier (by omega) hearlier
  · rintro ⟨h, rfl⟩
    exact ⟨h.found, rfl, h.mem, fun j earlier hj => h.first _ earlier (by omega) (by omega)⟩

theorem FirstIn.findResync (h : c.FirstIn recovery index token) :
    c.findResync recovery = some (index - c.position, token.kind) := by
  refine findResync_eq_some_iff.2 ⟨token, ?_, rfl⟩
  rwa [Nat.add_sub_of_le h.le]

/-- The first token of a set is also the first one of its own kind. -/
theorem FirstIn.single (h : c.FirstIn recovery index token) :
    c.FirstIn (.single token.kind) index token where
  le := h.le
  found := h.found
  mem := TerminalSet.mem_single.2 rfl
  first j earlier hle hlt hearlier hmem := by
    apply h.first j earlier hle hlt hearlier
    rw [TerminalSet.mem_single.1 hmem]
    exact h.mem

theorem skipTo_of_firstIn {bound : Nat} (h : c.FirstIn recovery index token)
    (hbound : index < c.position + bound) :
    skipTo recovery bound c = (some (index - c.position), { c with position := index }) := by
  induction bound generalizing c with
  | zero => exact absurd hbound (Nat.not_lt.2 h.le)
  | succ bound ih =>
    obtain rfl | hlt := Nat.eq_or_lt_of_le h.le
    · have hmem : recovery.contains token.kind = true := h.mem
      simp [skipTo, kind?, current?, h.found, hmem]
    · -- tokens are left up to the first one of the set, so there is a current one
      have hsize : c.position < c.tokens.size :=
        Nat.lt_trans hlt (Array.getElem?_eq_some_iff.1 h.found).1
      have hcurrent : c.current? = some c.tokens[c.position] := Array.getElem?_eq_getElem hsize
      have hnot : recovery.contains c.tokens[c.position].kind = false :=
        Bool.eq_false_iff.2 (h.first _ _ (Nat.le_refl _) hlt hcurrent)
      have hnext : { c with position := c.position + 1 }.FirstIn recovery index token :=
        ⟨hlt, h.found, h.mem, fun j earlier hle => h.first j earlier (Nat.le_of_succ_le hle)⟩
      have hcount : index - (c.position + 1) + 1 = index - c.position := by omega
      simp [skipTo, kind?, advance, hcurrent, hnot, ih hnext (by simp only; omega), hcount]

/-- Skipping goes forward and does not leave the stream. -/
theorem skipTo_bounds (recovery : TerminalSet) (bound : Nat) (h : c.position ≤ c.tokens.size) :
    c.position ≤ (skipTo recovery bound c).2.position ∧
      (skipTo recovery bound c).2.position ≤ c.tokens.size := by
  induction bound generalizing c with
  | zero => exact ⟨Nat.le_refl _, h⟩
  | succ bound ih =>
    unfold skipTo
    split
    next => exact ⟨Nat.le_refl _, h⟩
    next kind hkind =>
      split
      next => exact ⟨Nat.le_refl _, h⟩
      next =>
        obtain ⟨token, hcurrent, -⟩ := Option.map_eq_some_iff.1 hkind
        have hsize : c.position < c.tokens.size := (Array.getElem?_eq_some_iff.1 hcurrent).1
        have hnext : c.advance.2 = { c with position := c.position + 1 } := by
          simp [advance, hcurrent]
        rw [hnext]
        obtain ⟨hle, hsize'⟩ := ih (c := { c with position := c.position + 1 }) hsize
        exact ⟨Nat.le_of_succ_le hle, hsize'⟩

theorem synchronize_of_firstIn (h : c.FirstIn recovery index token) :
    c.synchronize recovery = (some (index - c.position), { c with position := index }) := by
  have hsize := (Array.getElem?_eq_some_iff.1 h.found).1
  exact skipTo_of_firstIn h (by unfold count; omega)

end Descent.Cursor
