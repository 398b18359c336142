import Descent.Grammar.Key
import Std.Data.TreeMap

/-!
# Tables of follow sets

A table maps keys to sets of terminal kinds. A key is recorded once: recording it again replaces
the set, and is reported.
-/

namespace Descent

/-- A map from keys to sets of terminal kinds, in the order of the keys. -/
structure Table (τ : Type) [Ord τ] where
  entries : Std.TreeMap (Key τ) TerminalSet := {}

abbrev FollowTable := Table RuleId

abbrev TerminalFollowTable := Table Terminal

namespace Table

variable {τ : Type} [Ord τ]

def empty : Table τ := {}

instance : Inhabited (Table τ) := ⟨empty⟩

def get? (t : Table τ) (key : Key τ) : Option TerminalSet := t.entries[key]?

def size (t : Table τ) : Nat := t.entries.size

def isEmpty (t : Table τ) : Bool := t.entries.isEmpty

/-- The entries in the order of their keys. -/
def toList (t : Table τ) : List (Key τ × TerminalSet) := t.entries.toList

/-- Tables are equal if they have the same entries. -/
def beq [DecidableEq τ] (t u : Table τ) : Bool := t.toList == u.toList

variable [KeyTarget τ]

/-- The text of a key, which goes into an error. -/
def keyError (g : Grammar) (key : Key τ) (error : String → GrammarError) : Failure :=
  match key.text g with
  | .ok text => .malformed (error text)
  | .error fault => .broken fault

/-- The set recorded for a key that has to be there. -/
def lookup (g : Grammar) (t : Table τ) (key : Key τ) : Except Failure TerminalSet :=
  match t.get? key with
  | some set => .ok set
  | none => .error (keyError g key .missingKey)

/-- Records a set for a key. A key that was there gets the new set, and is reported. -/
def record (g : Grammar) (key : Key τ) (set : TerminalSet) : EStateM Failure (Table τ) Unit :=
  fun t =>
    let replaced : Table τ := ⟨t.entries.insert key set⟩
    if t.entries.contains key then .error (keyError g key .duplicateKey) replaced
    else .ok () replaced

/-- Records entries one after the other, up to the first key that was there. -/
def recordAll (g : Grammar) : List (Key τ × TerminalSet) → EStateM Failure (Table τ) Unit
  | [] => return
  | (key, set) :: entries => do
    record g key set
    recordAll g entries

/-- Records the entries of another table. -/
def merge (g : Grammar) (other : Table τ) : EStateM Failure (Table τ) Unit :=
  recordAll g other.toList

/-- The table that a change leaves behind, reported or not. -/
def after (change : EStateM Failure (Table τ) Unit) (t : Table τ) : Table τ :=
  match change t with
  | .ok _ t => t
  | .error _ t => t

theorem after_record (g : Grammar) (key : Key τ) (set : TerminalSet) (t : Table τ) :
    after (record g key set) t = ⟨t.entries.insert key set⟩ := by
  unfold after record
  dsimp only
  split <;> rename_i h <;> split at h <;> cases h <;> rfl

theorem get?_after_record [Std.TransOrd τ] [Std.LawfulEqOrd τ] [DecidableEq τ] (g : Grammar)
    (key k : Key τ) (set : TerminalSet) (t : Table τ) :
    (after (record g key set) t).get? k = if key = k then some set else t.get? k := by
  rw [after_record, get?, Std.TreeMap.getElem?_insert]
  by_cases h : key = k
  · simp [h]
  · rw [if_neg (fun c => h (Std.LawfulEqOrd.eq_of_compare c)), if_neg h]
    rfl

end Table

end Descent
