import Descent.Terminal.Set
import Mathlib.Algebra.Group.Nat.Defs
import Mathlib.Data.Finset.Basic
import Mathlib.Data.Finset.Dedup
import Mathlib.Data.List.Sort

/-!
# Words as finite sets of kinds

Every operation on sets of kinds is one on words of 128 bits. An `Assembly` says how a set is put
together by such operations, and which finite set is meant. The word that comes out has exactly the
bits of that set, and whatever is asked of the word is answered as for the set.

Members are drawn from the lowest bit up. A draw takes the lowest bit that is set, and clears it by
subtracting one, which borrows from that bit and from none above it (`getLsbD_clearLowest`). So each
draw hands out the least member and leaves the others (`next?_eq_some`), and the number of bits
that are set falls by one, down to the empty set.
-/

namespace Descent

namespace TerminalSet

variable {s t rest : TerminalSet} {kind j : Terminal} {kinds kinds' : List Terminal}

/-! ## Words -/

section Words

variable {w : Nat} {x : BitVec w}

/-- As a number, a word is its lowest bit that is set and a multiple of twice that bit. -/
theorem exists_toNat_eq (h : x ≠ 0#w) :
    ∃ high, x.toNat = 2 ^ (x.ctz.toNat + 1) * high + 2 ^ x.ctz.toNat := by
  have hlow : x.toNat % 2 ^ (x.ctz.toNat + 1) = 2 ^ x.ctz.toNat := by
    refine Nat.eq_of_testBit_eq fun i => ?_
    rw [Nat.testBit_mod_two_pow, Nat.testBit_two_pow, BitVec.testBit_toNat]
    rcases Nat.lt_trichotomy i x.ctz.toNat with hi | rfl | hi
    · simp [BitVec.getLsbD_false_of_lt_ctz hi, hi.ne']
    · simp [BitVec.getLsbD_true_ctz_of_ne_zero h]
    · simp [hi.ne, Nat.not_lt.2 (Nat.succ_le_of_lt hi)]
  exact ⟨x.toNat / 2 ^ (x.ctz.toNat + 1), by rw [← hlow, Nat.div_add_mod]⟩

/-- Subtracting one and keeping the common bits clears the lowest bit that is set, and no other. -/
theorem getLsbD_clearLowest (h : x ≠ 0#w) (i : Nat) :
    (x &&& (x - 1#w)).getLsbD i = (x.getLsbD i && decide (i ≠ x.ctz.toNat)) := by
  obtain ⟨high, hx⟩ := exists_toNat_eq h
  have hpos : 0 < 2 ^ x.ctz.toNat := Nat.two_pow_pos _
  have hlt : 2 ^ x.ctz.toNat < 2 ^ (x.ctz.toNat + 1) := Nat.pow_lt_pow_right (by decide) (by omega)
  have hone : (1#w).toNat = 1 := by
    have hw := x.isLt
    rw [BitVec.toNat_ofNat]
    exact Nat.mod_eq_of_lt (by omega)
  -- the word is not zero, so the subtraction does not wrap around
  have hsub : (x - 1#w).toNat = 2 ^ (x.ctz.toNat + 1) * high + (2 ^ x.ctz.toNat - 1) := by
    rw [BitVec.toNat_sub_of_le (BitVec.le_def.2 (by omega))]
    omega
  rw [BitVec.getLsbD_and, ← BitVec.testBit_toNat, ← BitVec.testBit_toNat, hsub, hx,
    Nat.testBit_two_pow_mul_add _ hlt, Nat.testBit_two_pow_mul_add _ (by omega)]
  split
  next hi =>
    rw [Nat.testBit_two_pow, Nat.testBit_two_pow_sub_one]
    by_cases heq : x.ctz.toNat = i <;> simp [heq]
  next hi =>
    have hne : i ≠ x.ctz.toNat := by omega
    simp [hne]

theorem cpopNatRec_eq_countP (x : BitVec w) (n : Nat) :
    x.cpopNatRec n 0 = (List.range n).countP x.getLsbD := by
  induction n with
  | zero => rfl
  | succ n ih =>
    rw [BitVec.cpopNatRec_succ, BitVec.cpopNatRec_add, ih, List.range_succ, List.countP_append]
    cases hbit : x.getLsbD n <;> simp [hbit]

end Words

/-! ## Asking a set -/

theorem contains_eq_getLsbD (s : TerminalSet) (kind : Terminal) :
    s.contains kind = s.bits.getLsbD kind := rfl

@[simp] theorem mem_inter : kind ∈ s ∩ t ↔ kind ∈ s ∧ kind ∈ t := by
  simp [mem_iff]

@[simp] theorem mem_insert : j ∈ s.insert kind ↔ j ∈ s ∨ j = kind := by
  simp [insert]

theorem eq_empty_iff : s = ∅ ↔ ∀ kind, kind ∉ s := by
  constructor
  · rintro rfl kind
    exact not_mem_empty
  · intro h
    exact eq_of_mem_iff fun kind => iff_of_false (h kind) not_mem_empty

theorem isEmpty_iff : s.isEmpty = true ↔ s = ∅ := by
  rcases s with ⟨bits⟩
  change (bits == 0#128) = true ↔ mk bits = mk 0#128
  rw [beq_iff_eq, mk.injEq]

theorem isSubset_iff : s.isSubset t = true ↔ s ⊆ t := by
  have hcontains (kind : Terminal) :
      contains ⟨s.bits &&& ~~~ t.bits⟩ kind = true ↔ kind ∈ s ∧ kind ∉ t := by
    simp [mem_iff, contains_eq_getLsbD]
  change isEmpty ⟨s.bits &&& ~~~ t.bits⟩ = true ↔ s ⊆ t
  rw [isEmpty_iff, eq_empty_iff]
  exact forall_congr' fun kind => by rw [mem_iff, hcontains, not_and_not_right]

theorem mem_foldl_insert : kind ∈ kinds.foldl insert s ↔ kind ∈ s ∨ kind ∈ kinds := by
  induction kinds generalizing s with
  | nil => simp
  | cons first kinds ih => simp [ih, or_assoc]

@[simp] theorem mem_ofList : kind ∈ ofList kinds ↔ kind ∈ kinds := by
  simp [ofList, mem_foldl_insert]

/-- A list gives a set by its members alone, however often and in which order it has them. -/
theorem ofList_eq_iff : ofList kinds = ofList kinds' ↔ ∀ kind, kind ∈ kinds ↔ kind ∈ kinds' := by
  constructor
  · intro h kind
    rw [← mem_ofList, h, mem_ofList]
  · intro h
    exact eq_of_mem_iff fun kind => by rw [mem_ofList, mem_ofList, h kind]

/-! ## Listing a set -/

theorem ofList_toList (s : TerminalSet) : ofList s.toList = s :=
  eq_of_mem_iff fun kind => by rw [mem_ofList, mem_toList]

theorem pairwise_toList (s : TerminalSet) : s.toList.Pairwise (· < ·) :=
  (List.pairwise_lt_finRange 128).filter _

/-- Lists in ascending order with the same members are equal. -/
theorem eq_toList (hkinds : kinds.Pairwise (· < ·)) (h : ∀ kind, kind ∈ kinds ↔ kind ∈ s) :
    kinds = s.toList :=
  hkinds.eq_of_mem_iff s.pairwise_toList fun kind => by rw [h kind, mem_toList]

/-- There are as many bits set as there are members. -/
theorem size_eq_length (s : TerminalSet) : s.size = s.toList.length := by
  have hrange : (List.finRange 128).map Fin.val = List.range 128 := List.map_coe_finRange_eq_range
  rw [size, BitVec.toNat_cpop, cpopNatRec_eq_countP, ← hrange, List.countP_map, toList,
    ← List.countP_eq_length_filter]
  rfl

/-! ## Drawing members -/

theorem next?_eq_none_iff : s.next? = none ↔ s = ∅ := by
  rw [← isEmpty_iff, isEmpty, beq_iff_eq, next?]
  split <;> simp [*]

/-- A draw hands out the least member and leaves the others. -/
theorem next?_eq_some (h : s.next? = some (kind, rest)) :
    kind ∈ s ∧ (∀ j ∈ s, kind ≤ j) ∧ ∀ j, j ∈ rest ↔ j ∈ s ∧ j ≠ kind := by
  unfold next? at h
  split at h
  next => cases h
  next hne =>
    cases h
    refine ⟨BitVec.getLsbD_true_ctz_of_ne_zero hne, fun j hj => ?_, fun j => ?_⟩
    · apply Nat.le_of_not_lt
      intro hlt
      cases (BitVec.getLsbD_false_of_lt_ctz hlt).symm.trans hj
    · rw [mem_iff, contains_eq_getLsbD, getLsbD_clearLowest hne, Bool.and_eq_true,
        decide_eq_true_iff, mem_iff, contains_eq_getLsbD, Ne, Ne, Fin.ext_iff]

theorem toList_of_next? (h : s.next? = some (kind, rest)) : s.toList = kind :: rest.toList := by
  obtain ⟨hmem, hleast, hrest⟩ := next?_eq_some h
  refine (eq_toList (List.pairwise_cons.2 ⟨fun j hj => ?_, rest.pairwise_toList⟩) fun j => ?_).symm
  · obtain ⟨hj, hne⟩ := (hrest j).1 (mem_toList.1 hj)
    exact lt_of_le_of_ne (hleast j hj) hne.symm
  · rw [List.mem_cons, mem_toList, hrest j]
    by_cases heq : j = kind <;> simp [heq, hmem]

theorem size_of_next? (h : s.next? = some (kind, rest)) : s.size = rest.size + 1 := by
  rw [size_eq_length, size_eq_length, toList_of_next? h, List.length_cons]

/-- Draws members until none is left. -/
def drain (s : TerminalSet) : List Terminal :=
  match _h : s.next? with
  | none => []
  | some (kind, rest) => kind :: rest.drain
termination_by s.size
decreasing_by
  have hsize := size_of_next? _h
  omega

theorem drain_eq_toList (s : TerminalSet) : s.drain = s.toList := by
  fun_induction drain s with
  | case1 s h =>
    rw [next?_eq_none_iff.1 h]
    rfl
  | case2 s kind rest h ih => rw [toList_of_next? h, ih]

theorem draw_eq (n : Nat) (s : TerminalSet) :
    (s.draw n).1 = s.toList.take n ∧ (s.draw n).2.toList = s.toList.drop n := by
  induction n generalizing s with
  | zero => exact ⟨rfl, rfl⟩
  | succ n ih =>
    unfold draw
    split
    next h =>
      rw [next?_eq_none_iff.1 h]
      exact ⟨rfl, rfl⟩
    next kind rest h =>
      obtain ⟨hdrawn, hleft⟩ := ih rest
      rw [toList_of_next? h]
      exact ⟨congrArg _ hdrawn, hleft⟩

/-- The highest bit is drawn last, and nothing is left after it. -/
example : (ofList [127, 0, 127]).draw 3 = ([0, 127], ∅) := by decide +kernel

/-! ## Sets put together -/

/-- How a set is put together. An operation that changes a set in place is the one that gives what
the set is afterwards. -/
inductive Assembly where
  | empty
  | single (kind : Terminal)
  | insert (a : Assembly) (kind : Terminal)
  | union (a b : Assembly)
  | inter (a b : Assembly)
  | ofList (kinds : List Terminal)

namespace Assembly

/-- The word that the operations lead to. -/
def result : Assembly → TerminalSet
  | .empty => ∅
  | .single kind => TerminalSet.single kind
  | .insert a kind => a.result.insert kind
  | .union a b => a.result ∪ b.result
  | .inter a b => a.result ∩ b.result
  | .ofList kinds => TerminalSet.ofList kinds

/-- The finite set that is meant. -/
def members : Assembly → Finset Terminal
  | .empty => ∅
  | .single kind => {kind}
  | .insert a kind => a.members ∪ {kind}
  | .union a b => a.members ∪ b.members
  | .inter a b => a.members ∩ b.members
  | .ofList kinds => kinds.toFinset

/-- Each operation on words does what is meant, and so do all of them in a row. -/
theorem mem_result_iff (a : Assembly) : kind ∈ a.result ↔ kind ∈ a.members := by
  induction a with
  | empty => exact iff_of_false not_mem_empty (Finset.notMem_empty kind)
  | single => rw [result, members, mem_single, Finset.mem_singleton]
  | insert a added ih => rw [result, members, mem_insert, ih, Finset.mem_union, Finset.mem_singleton]
  | union a b iha ihb => rw [result, members, mem_union, iha, ihb, Finset.mem_union]
  | inter a b iha ihb => rw [result, members, mem_inter, iha, ihb, Finset.mem_inter]
  | ofList kinds => rw [result, members, mem_ofList, List.mem_toFinset]

theorem result_eq_iff (a b : Assembly) : a.result = b.result ↔ a.members = b.members := by
  rw [Finset.ext_iff]
  constructor
  · intro h kind
    rw [← mem_result_iff, h, mem_result_iff]
  · intro h
    exact eq_of_mem_iff fun kind => by rw [mem_result_iff, mem_result_iff, h kind]

/-- A set that is put together by the operations is the finite set that is meant, whatever is asked.
Membership is that of the finite set. Drawing comes to an end and hands out the members in ascending
order; after any number of draws, as many bits are set as there are members still to come. There are
as many members as the size says, and the set they are collected into is the set itself; to collect
a list, only its members count. Emptiness, inclusion and equality are those of finite sets. -/
theorem assembled_as_meant (a : Assembly) :
    (∀ kind, a.result.contains kind = true ↔ kind ∈ a.members) ∧
    a.result.drain.Pairwise (· < ·) ∧ (∀ kind, kind ∈ a.result.drain ↔ kind ∈ a.members) ∧
    (∀ n, (a.result.draw n).1 = a.result.drain.take n ∧
      (a.result.draw n).2.drain = a.result.drain.drop n ∧
      (a.result.draw n).2.size = (a.result.drain.drop n).length) ∧
    a.result.size = a.result.drain.length ∧
    TerminalSet.ofList a.result.drain = a.result ∧
    (∀ kinds kinds', TerminalSet.ofList kinds = TerminalSet.ofList kinds' ↔
      ∀ kind, kind ∈ kinds ↔ kind ∈ kinds') ∧
    (a.result.isEmpty = true ↔ a.members = ∅) ∧
    ∀ b : Assembly, (a.result.isSubset b.result = true ↔ a.members ⊆ b.members) ∧
      ((a.result == b.result) = true ↔ a.members = b.members) := by
  simp only [drain_eq_toList]
  refine ⟨fun kind => a.mem_result_iff, a.result.pairwise_toList, fun kind => ?_, fun n => ?_,
    a.result.size_eq_length, a.result.ofList_toList, fun _ _ => ofList_eq_iff, ?_,
    fun b => ⟨?_, ?_⟩⟩
  · rw [mem_toList, mem_result_iff]
  · obtain ⟨hdrawn, hleft⟩ := draw_eq n a.result
    exact ⟨hdrawn, hleft, by rw [size_eq_length, hleft]⟩
  · exact isEmpty_iff.trans (a.result_eq_iff .empty)
  · rw [isSubset_iff]
    exact forall_congr' fun kind => by rw [mem_result_iff, mem_result_iff]
  · rw [beq_iff_eq, result_eq_iff]

end Assembly

end TerminalSet

end Descent
