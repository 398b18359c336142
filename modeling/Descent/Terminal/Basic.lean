import Descent.Failure

/-!
# Terminal kinds

A terminal kind is a category of token, such as a number or an identifier. Kinds are numbered in
the order of their registration, and a grammar holds at most 128 of them.
-/

namespace Descent

/-- A category of token, given by its registration index. -/
abbrev Terminal := Fin 128

/-- Kinds can be written as numerals. -/
instance Terminal.neZero_capacity : @NeZero Nat Zero.ofOfNat0 128 := ⟨Nat.succ_ne_zero 127⟩

namespace Terminal

/-- How many kinds a grammar can hold. -/
def capacity : Nat := 128

/-- The kind with this index, if the index is below the capacity. -/
def ofIndex? (index : Nat) : Option Terminal :=
  if h : index < 128 then some ⟨index, h⟩ else none

/-- The kind with this index; an index past the capacity is the caller's fault. -/
def ofIndex (index : Nat) : Except Fault Terminal :=
  match ofIndex? index with
  | some kind => .ok kind
  | none => .error (.terminalOutOfRange index)

/-- The kind as a developer sees it. -/
def debugText (kind : Terminal) : String :=
  s!"TerminalKind({kind.val})"

theorem ofIndex?_eq_some {index : Nat} {kind : Terminal} :
    ofIndex? index = some kind ↔ kind.val = index := by
  unfold ofIndex?
  split
  · simp [Fin.ext_iff, eq_comm]
  · simp; omega

@[simp] theorem ofIndex?_val (kind : Terminal) : ofIndex? kind.val = some kind :=
  ofIndex?_eq_some.2 rfl

end Terminal

end Descent
