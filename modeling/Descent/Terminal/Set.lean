import Descent.Terminal.Basic

/-!
# Sets of terminal kinds

FIRST sets, follow sets and recovery sets are all sets of terminal kinds. A set is one word of 128
bits, bit `k` telling whether kind `k` is a member, so that membership, union and intersection are
single operations on words.
-/

namespace Descent

/-- A set of terminal kinds, one bit for each kind. -/
structure TerminalSet where
  bits : BitVec 128
deriving DecidableEq, Repr

namespace TerminalSet

def empty : TerminalSet := ⟨0#128⟩

instance : EmptyCollection TerminalSet := ⟨empty⟩

instance : Inhabited TerminalSet := ⟨empty⟩

/-- The set whose only member is `kind`. -/
def single (kind : Terminal) : TerminalSet := ⟨BitVec.twoPow 128 kind⟩

def contains (s : TerminalSet) (kind : Terminal) : Bool := s.bits.getLsb kind

instance : Membership Terminal TerminalSet := ⟨fun s kind => s.contains kind = true⟩

instance (kind : Terminal) (s : TerminalSet) : Decidable (kind ∈ s) :=
  inferInstanceAs (Decidable (s.contains kind = true))

def union (s t : TerminalSet) : TerminalSet := ⟨s.bits ||| t.bits⟩

instance : Union TerminalSet := ⟨union⟩

def inter (s t : TerminalSet) : TerminalSet := ⟨s.bits &&& t.bits⟩

instance : Inter TerminalSet := ⟨inter⟩

def insert (s : TerminalSet) (kind : Terminal) : TerminalSet := s ∪ single kind

def ofList (kinds : List Terminal) : TerminalSet := kinds.foldl insert ∅

def isSubset (s t : TerminalSet) : Bool := s.bits &&& ~~~ t.bits == 0#128

def isEmpty (s : TerminalSet) : Bool := s.bits == 0#128

/-- The number of bits that are set. -/
def size (s : TerminalSet) : Nat := s.bits.cpop.toNat

def toList (s : TerminalSet) : List Terminal := (List.finRange 128).filter s.contains

theorem ctz_lt {bits : BitVec 128} (h : bits ≠ 0#128) : bits.ctz.toNat < 128 :=
  BitVec.lt_def.1 (BitVec.ctz_lt_iff_ne_zero.2 h)

/-- The least member and the set without it: the lowest bit that is set, and the word with that bit
cleared. -/
def next? (s : TerminalSet) : Option (Terminal × TerminalSet) :=
  if h : s.bits = 0#128 then none
  else some (⟨s.bits.ctz.toNat, ctz_lt h⟩, ⟨s.bits &&& (s.bits - 1#128)⟩)

/-- Draws members in ascending order, at most `n` of them, and keeps the set of those left. -/
def draw : Nat → TerminalSet → List Terminal × TerminalSet
  | 0, s => ([], s)
  | n + 1, s =>
    match s.next? with
    | none => ([], s)
    | some (kind, rest) =>
      let (drawn, left) := draw n rest
      (kind :: drawn, left)

/-- The set as a developer sees it: the indices in ascending order. -/
def debugText (s : TerminalSet) : String :=
  "\x7b" ++ ", ".intercalate (s.toList.map fun kind => toString kind.val) ++ "\x7d"

/-! ## Membership -/

theorem mem_iff {s : TerminalSet} {kind : Terminal} : kind ∈ s ↔ s.contains kind = true :=
  .rfl

@[ext] theorem ext {s t : TerminalSet} (h : ∀ kind, s.contains kind = t.contains kind) :
    s = t := by
  cases s; cases t
  congr 1
  exact BitVec.eq_of_getLsbD_eq fun i hi => by
    simpa [contains, BitVec.getLsb_eq_getElem, BitVec.getLsbD_eq_getElem hi] using h ⟨i, hi⟩

@[simp] theorem contains_empty (kind : Terminal) : (∅ : TerminalSet).contains kind = false := by
  change (0#128).getLsb kind = false
  simp [BitVec.getLsb_eq_getElem]

@[simp] theorem contains_union (s t : TerminalSet) (kind : Terminal) :
    (s ∪ t).contains kind = (s.contains kind || t.contains kind) := by
  change (s.bits ||| t.bits).getLsb kind = _
  simp [contains, BitVec.getLsb_eq_getElem]

@[simp] theorem contains_inter (s t : TerminalSet) (kind : Terminal) :
    (s ∩ t).contains kind = (s.contains kind && t.contains kind) := by
  change (s.bits &&& t.bits).getLsb kind = _
  simp [contains, BitVec.getLsb_eq_getElem]

@[simp] theorem contains_single (a kind : Terminal) :
    (single a).contains kind = decide (a = kind) := by
  simp [single, contains, BitVec.getLsb_eq_getElem, BitVec.getElem_twoPow, Fin.ext_iff, eq_comm]

@[simp] theorem contains_insert (s : TerminalSet) (a kind : Terminal) :
    (s.insert a).contains kind = (s.contains kind || decide (a = kind)) := by
  simp [insert]

@[simp] theorem not_mem_empty {kind : Terminal} : kind ∉ (∅ : TerminalSet) := by
  simp [mem_iff]

@[simp] theorem mem_union {s t : TerminalSet} {kind : Terminal} :
    kind ∈ s ∪ t ↔ kind ∈ s ∨ kind ∈ t := by
  simp [mem_iff]

@[simp] theorem mem_single {a kind : Terminal} : kind ∈ single a ↔ kind = a := by
  simp [mem_iff, eq_comm]

theorem eq_of_mem_iff {s t : TerminalSet} (h : ∀ kind, kind ∈ s ↔ kind ∈ t) : s = t := by
  ext kind
  exact Bool.eq_iff_iff.2 (h kind)

@[simp] theorem mem_toList {s : TerminalSet} {kind : Terminal} :
    kind ∈ s.toList ↔ kind ∈ s := by
  simp [toList, mem_iff]

/-! ## Inclusion -/

instance : HasSubset TerminalSet := ⟨fun s t => ∀ ⦃kind⦄, kind ∈ s → kind ∈ t⟩

theorem Subset.refl (s : TerminalSet) : s ⊆ s := fun _ h => h

theorem Subset.antisymm {s t : TerminalSet} (h : s ⊆ t) (h' : t ⊆ s) : s = t :=
  eq_of_mem_iff fun _ => ⟨fun hs => h hs, fun ht => h' ht⟩

end TerminalSet

end Descent
