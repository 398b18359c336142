import Descent.Proofs.Grammar.Histories

/-!
# Occurrence indices follow one law

The leaves of a written body get their indices in declaration order: a leaf has the index pinned for
it, or else one more than the largest index so far of its target (`Occurrence.numbered`). A leaf is
in trouble if it pins 0 or an index that its target has got already, or if no index is left for it
(`Occurrence.trouble?`). The law is about names and written leaves only; it knows neither rule
numbers nor the claims that lowering keeps.

Lowering follows the law (`Lowering.lower_assigns`): it fails at the first leaf in trouble, and
otherwise every leaf has the index that the law lists for it. Whether a declaration succeeds
therefore depends on its body alone, once its rule has none yet.
-/

namespace Descent

/-- A leaf as written: what it stands for, and the index pinned for it. -/
abbrev WrittenLeaf := Symbol String × Option Nat

/-- A leaf with its index. -/
abbrev IndexedLeaf := Symbol String × Nat

/-! ## The law -/

namespace Occurrence

/-- The indices of a target, in the order of its leaves. -/
def indices (target : Symbol String) (given : List IndexedLeaf) : List Nat :=
  (given.filter (·.1 = target)).map Prod.snd

/-- The largest index of a target, or 0 if it has none. -/
def largest (target : Symbol String) (given : List IndexedLeaf) : Nat :=
  (indices target given).max?.getD 0

/-- The index of a leaf after others have got theirs. -/
def indexAfter (given : List IndexedLeaf) (leaf : WrittenLeaf) : Nat :=
  leaf.2.getD (largest leaf.1 given + 1)

/-- The leaves with the indices that the law gives them. -/
def numbered (leaves : List WrittenLeaf) : List IndexedLeaf :=
  leaves.foldl (fun given leaf => given ++ [(leaf.1, indexAfter given leaf)]) []

/-- What can be wrong with a leaf. -/
inductive Trouble where
  /-- Its pinned index is 0. -/
  | zero (target : Symbol String)
  /-- Its pinned index is that of an earlier leaf with the same target. -/
  | taken (target : Symbol String) (index : Nat)
  /-- It comes after the last index that there is for its target. -/
  | exhausted
deriving DecidableEq, Repr

/-- What is wrong with a leaf after others have got their indices. -/
def trouble? (given : List IndexedLeaf) : WrittenLeaf → Option Trouble
  | (target, some index) =>
    if index = 0 then some (.zero target)
    else if (target, index) ∈ given then some (.taken target index)
    else none
  | (target, none) => if maxOccurrence ≤ largest target given then some .exhausted else none

/-- No leaf is in trouble after the leaves before it. -/
def Accepted (leaves : List WrittenLeaf) : Prop :=
  ∀ before leaf, before ++ [leaf] <+: leaves → trouble? (numbered before) leaf = none

/-- The first leaf in trouble, and what is wrong with it. -/
def FirstTrouble (leaves : List WrittenLeaf) (trouble : Trouble) : Prop :=
  ∃ before leaf, before ++ [leaf] <+: leaves ∧ Accepted before ∧
    trouble? (numbered before) leaf = some trouble

/-- The name of a target in messages. -/
def targetName (registry : Registry) : Symbol String → String
  | .terminal kind => registry.name kind
  | .rule nm => nm

/-- How a declaration of the rule `enclosing` fails because of a leaf. -/
def Trouble.failure (enclosing : String) (registry : Registry) : Trouble → Failure
  | .zero target => .malformed (.zeroOccurrence enclosing (targetName registry target))
  | .taken target index =>
    .malformed (.duplicateOccurrence enclosing (targetName registry target) index)
  | .exhausted => .broken .occurrenceOverflow

variable {given : List IndexedLeaf} {leaves : List WrittenLeaf} {leaf : WrittenLeaf}
  {target : Symbol String} {index : Nat}

theorem mem_indices : index ∈ indices target given ↔ (target, index) ∈ given := by
  simp [indices]

theorem le_largest (h : (target, index) ∈ given) : index ≤ largest target given := by
  have hmem := mem_indices.2 h
  unfold largest
  cases hmax : (indices target given).max? with
  | none =>
    rw [List.max?_eq_none_iff.1 hmax] at hmem
    cases hmem
  | some m => exact (List.max?_eq_some_iff.1 hmax).2 index hmem

theorem largest_mem (h : largest target given ≠ 0) : (target, largest target given) ∈ given := by
  unfold largest at h ⊢
  cases hmax : (indices target given).max? with
  | none => simp [hmax] at h
  | some m => exact mem_indices.1 (List.max?_eq_some_iff.1 hmax).1

theorem numbered_concat (leaves : List WrittenLeaf) (leaf : WrittenLeaf) :
    numbered (leaves ++ [leaf]) = numbered leaves ++ [(leaf.1, indexAfter (numbered leaves) leaf)] := by
  simp [numbered]

theorem accepted_nil : Accepted [] := by
  intro before leaf h
  simp at h

theorem Accepted.concat (h : Accepted leaves) (hleaf : trouble? (numbered leaves) leaf = none) :
    Accepted (leaves ++ [leaf]) := by
  intro before last hpre
  rcases List.prefix_concat_iff.1 hpre with heq | hpre
  · obtain ⟨rfl, hlast⟩ := List.append_inj' heq rfl
    rwa [List.singleton_inj.1 hlast]
  · exact h before last hpre

theorem Accepted.of_isPrefix (h : Accepted leaves) (hpre : leaves' <+: leaves) :
    Accepted leaves' :=
  fun before leaf hbefore => h before leaf (hbefore.trans hpre)

/-- A leaf that is not in trouble gets an index of its own, from 1 on. -/
theorem indexAfter_of_trouble?_eq_none (h : trouble? given leaf = none) :
    1 ≤ indexAfter given leaf ∧ (leaf.1, indexAfter given leaf) ∉ given := by
  obtain ⟨target, pin⟩ := leaf
  cases pin with
  | none =>
    refine ⟨Nat.succ_pos _, fun hmem => ?_⟩
    exact Nat.not_succ_le_self _ (le_largest hmem)
  | some index =>
    dsimp only [trouble?] at h
    split at h
    next => cases h
    next hzero =>
      split at h
      next => cases h
      next hnot => exact ⟨Nat.one_le_iff_ne_zero.2 hzero, hnot⟩

/-- Indices start at 1. -/
theorem Accepted.one_le (h : Accepted leaves) : ∀ leaf ∈ numbered leaves, 1 ≤ leaf.2 := by
  induction leaves using List.reverseRecOn with
  | nil => exact nofun
  | append_singleton leaves leaf ih =>
    rw [numbered_concat]
    refine List.forall_mem_append.2 ⟨ih (h.of_isPrefix (List.prefix_append ..)), ?_⟩
    rw [List.forall_mem_singleton]
    exact (indexAfter_of_trouble?_eq_none (h _ _ List.prefix_rfl)).1

theorem largest_of_indices (h : indices target given = List.range' 1 n) :
    largest target given = n := by
  have hmem {i : Nat} : (target, i) ∈ given ↔ 1 ≤ i ∧ i < 1 + n := by
    rw [← mem_indices, h, List.mem_range'_1]
  apply Nat.le_antisymm
  · by_cases hzero : largest target given = 0
    · omega
    · have hlt := hmem.1 (largest_mem hzero)
      omega
  · by_cases hn : n = 0
    · omega
    · exact le_largest (hmem.2 (by omega))

/-- Where nothing is pinned, the leaves of a target are counted from 1 on. -/
theorem indices_of_unpinned (h : ∀ leaf ∈ leaves, leaf.2 = none) (target : Symbol String) :
    indices target (numbered leaves) =
      List.range' 1 (indices target (numbered leaves)).length := by
  suffices hrange : ∃ n, indices target (numbered leaves) = List.range' 1 n by
    obtain ⟨n, hn⟩ := hrange
    rw [hn, List.length_range']
  induction leaves using List.reverseRecOn with
  | nil => exact ⟨0, rfl⟩
  | append_singleton leaves leaf ih =>
    obtain ⟨hleaves, hleaf⟩ := List.forall_mem_append.1 h
    obtain ⟨n, hn⟩ := ih hleaves
    obtain ⟨symbol, pin⟩ := leaf
    obtain rfl : pin = none := by simpa using hleaf
    rw [numbered_concat]
    unfold indices at hn ⊢
    rw [List.filter_append, List.map_append, hn]
    by_cases heq : symbol = target
    · subst heq
      refine ⟨n + 1, ?_⟩
      rw [List.range'_concat]
      simp [indexAfter, largest_of_indices hn, Nat.add_comm]
    · exact ⟨n, by simp [heq]⟩

theorem FirstTrouble.not_accepted (h : FirstTrouble leaves trouble) : ¬ Accepted leaves := by
  intro haccepted
  obtain ⟨before, leaf, hpre, -, htrouble⟩ := h
  rw [haccepted before leaf hpre] at htrouble
  cases htrouble

theorem FirstTrouble.unique (h : FirstTrouble leaves trouble)
    (h' : FirstTrouble leaves trouble') : trouble = trouble' := by
  -- of two leaves in trouble the later one does not come after accepted leaves only
  have hle {before before' : List WrittenLeaf} {leaf leaf' : WrittenLeaf}
      (hpre : before ++ [leaf] <+: leaves) (hpre' : before' ++ [leaf'] <+: leaves)
      (haccepted' : Accepted before') (htrouble : trouble? (numbered before) leaf ≠ none) :
      before'.length ≤ before.length := by
    by_contra hlt
    have hearlier : before ++ [leaf] <+: before' := by
      refine List.prefix_of_prefix_length_le hpre
        ((List.prefix_append before' [leaf']).trans hpre') ?_
      simp only [List.length_append, List.length_singleton]
      omega
    exact htrouble (haccepted' before leaf hearlier)
  obtain ⟨before, leaf, hpre, haccepted, htrouble⟩ := h
  obtain ⟨before', leaf', hpre', haccepted', htrouble'⟩ := h'
  have hlength : before.length = before'.length :=
    Nat.le_antisymm (hle hpre' hpre haccepted (by simp [htrouble']))
      (hle hpre hpre' haccepted' (by simp [htrouble]))
  have heq : before ++ [leaf] = before' ++ [leaf'] :=
    (List.prefix_of_prefix_length_le hpre hpre' (by simp [hlength])).eq_of_length
      (by simp [hlength])
  obtain ⟨rfl, hleaf⟩ := List.append_inj' heq rfl
  obtain rfl := List.singleton_inj.1 hleaf
  exact Option.some.inj (htrouble.symm.trans htrouble')

theorem accepted_iff : Accepted leaves ↔ ∀ i < leaves.length,
    leaves[i]?.bind (trouble? (numbered (leaves.take i))) = none := by
  constructor
  · intro h i hi
    rw [List.getElem?_eq_getElem hi]
    refine h _ _ ?_
    rw [List.take_concat_get' _ _ hi]
    exact List.take_prefix ..
  · rintro h before leaf ⟨after, rfl⟩
    simpa using h before.length (by simp)

instance decidableAccepted (leaves : List WrittenLeaf) : Decidable (Accepted leaves) :=
  decidable_of_iff _ accepted_iff.symm

end Occurrence

/-! ## Names and numbers of targets -/

namespace Builder

variable {b b' : Builder} {nm nm' : String} {r : RuleId} {symbol symbol' : Symbol String}
  {target target' : Symbol RuleId}

/-- The written target is resolved to this one: a name leads to the number, and is its name. -/
def Resolves (b : Builder) : Symbol String → Symbol RuleId → Prop
  | .terminal kind, .terminal kind' => kind = kind'
  | .rule nm, .rule r => b.ruleId? nm = some r ∧ b.names[r]? = some nm
  | _, _ => False

/-- Different targets are resolved to different ones, equal ones to equal ones. -/
theorem Resolves.eq_iff (h : b.Resolves symbol target) (h' : b.Resolves symbol' target') :
    target = target' ↔ symbol = symbol' := by
  match symbol, target, h, symbol', target', h' with
  | .terminal kind, .terminal _, rfl, .terminal kind', .terminal _, rfl => simp
  | .terminal kind, .terminal _, _, .rule nm, .rule r, _ => simp
  | .rule nm, .rule r, _, .terminal kind', .terminal _, _ => simp
  | .rule nm, .rule r, h, .rule nm', .rule r', h' =>
    simp only [Symbol.rule.injEq]
    constructor
    · rintro rfl
      exact Option.some.inj (h.2.symm.trans h'.2)
    · rintro rfl
      exact Option.some.inj (h.1.symm.trans h'.1)

theorem Resolves.extends (h : b.Resolves symbol target) (he : b.Extends b') :
    b'.Resolves symbol target := by
  match symbol, target, h with
  | .terminal _, .terminal _, h => exact h
  | .rule _, .rule _, h => exact ⟨he.numbers h.1, getElem?_of_isPrefix he.names h.2⟩

theorem Resolves.targetName (h : b.Resolves symbol target) :
    b.targetName target = Occurrence.targetName b.registry symbol := by
  match symbol, target, h with
  | .terminal _, .terminal _, rfl => rfl
  | .rule nm, .rule r, h =>
    have hname : b.slots[r]?.map Slot.name = some nm := by
      rw [← Array.getElem?_toList, ← List.getElem?_map]
      exact h.2
    simp [Builder.targetName, Occurrence.targetName, hname]

/-- The names that leaves mention are known now, and nothing else is new. -/
structure Mentions (b b' : Builder) (leaves : List WrittenLeaf) : Prop where
  names : ∀ nm, nm ∈ b'.names ↔ nm ∈ b.names ∨ .rule nm ∈ leaves.map Prod.fst
  registry : b'.registry = b.registry

theorem Mentions.of_names (hnames : b'.names = b.names) (hregistry : b'.registry = b.registry) :
    b.Mentions b' [] :=
  ⟨by simp [hnames], hregistry⟩

theorem Mentions.append {b'' : Builder} (h : b.Mentions b' leaves) (h' : b'.Mentions b'' more) :
    b.Mentions b'' (leaves ++ more) where
  names nm := by rw [h'.names, h.names, List.map_append, List.mem_append, or_assoc]
  registry := h'.registry.trans h.registry

theorem Indexed.declare_mentions (h : b.Indexed) (nm : String) (pin : Option Nat) :
    b.Mentions (b.declare nm).2 [(.rule nm, pin)] := by
  refine ⟨fun nm' => ?_, (b.declare_grows nm).registry⟩
  obtain ⟨r, hid, heq⟩ | ⟨-, heq⟩ := b.declare_cases nm
  · have hmem : nm ∈ b.names := List.mem_of_getElem? (h.ruleId?_eq_some.1 hid)
    simp only [heq, List.map_cons, List.map_nil, List.mem_singleton, Symbol.rule.injEq]
    exact ⟨.inl, fun h => h.elim id (· ▸ hmem)⟩
  · simp [heq, names]

end Builder

/-! ## Lowering follows the law -/

namespace Lowering

open Occurrence

variable {s : Lowering} {leaves earlier : List WrittenLeaf} {symbol : Symbol String}
  {target : Symbol RuleId}

/-- A claim is that of a leaf with its index. -/
def ClaimOf (b : Builder) (claim : Symbol RuleId × Nat) (leaf : IndexedLeaf) : Prop :=
  b.Resolves leaf.1 claim.1 ∧ claim.2 = leaf.2

/-- Names are in order, and the claims are those of the leaves, with the indices that the law gives
them. -/
structure Agrees (s : Lowering) (leaves : List WrittenLeaf) : Prop where
  indexed : s.builder.Indexed
  claims : List.Forall₂ (ClaimOf s.builder) s.claims (numbered leaves).reverse

theorem Agrees.grows {s' : Lowering} (h : s.Agrees leaves) (hg : s.builder.Grows s'.builder)
    (hclaims : s'.claims = s.claims) : s'.Agrees leaves where
  indexed := hg.indexed h.indexed
  claims := by
    rw [hclaims]
    exact h.claims.imp fun _ _ hclaim => ⟨hclaim.1.extends hg.extends, hclaim.2⟩

/-- A further leaf claims the index that the law gives it. -/
theorem Agrees.concat (h : s.Agrees leaves) (hr : s.builder.Resolves symbol target)
    (pin : Option Nat) : Agrees { s with
      claims := (target, indexAfter (numbered leaves) (symbol, pin)) :: s.claims }
        (leaves ++ [(symbol, pin)]) := by
  refine ⟨h.indexed, ?_⟩
  rw [numbered_concat, List.reverse_append]
  exact .cons ⟨hr, rfl⟩ h.claims

/-- The indices that a target has claimed are those of its leaves. -/
theorem indices_of_claims {claims : Claims} {given : List IndexedLeaf}
    (h : List.Forall₂ (ClaimOf b) claims given) (hr : b.Resolves symbol target) :
    claims.indices target = indices symbol given := by
  unfold Claims.indices indices
  induction h with
  | nil => rfl
  | @cons claim leaf claims given hclaim _ ih =>
    have hiff : claim.1 = target ↔ leaf.1 = symbol := hclaim.1.eq_iff hr
    by_cases heq : leaf.1 = symbol
    · rw [List.filter_cons_of_pos (by simpa using hiff.2 heq),
        List.filter_cons_of_pos (by simpa using heq), List.map_cons, List.map_cons, ih, hclaim.2]
    · rw [List.filter_cons_of_neg (by simpa using heq ∘ hiff.1),
        List.filter_cons_of_neg (by simpa using heq), ih]

theorem Agrees.mem_iff (h : s.Agrees leaves) (hr : s.builder.Resolves symbol target)
    {index : Nat} : (target, index) ∈ s.claims ↔ (symbol, index) ∈ numbered leaves := by
  rw [← mem_indices_iff, indices_of_claims h.claims hr, mem_indices, List.mem_reverse]

/-- The next index of a target is one more than its largest one by the law. -/
theorem next_eq {claims : Claims} {given : List IndexedLeaf}
    (h : ∀ index, (target, index) ∈ claims ↔ (symbol, index) ∈ given) :
    claims.next target = if maxOccurrence ≤ largest symbol given then .error .occurrenceOverflow
      else .ok (largest symbol given + 1) := by
  unfold Claims.next
  cases hmax : (claims.indices target).max? with
  | none =>
    have hzero : largest symbol given = 0 := by
      by_contra hne
      have hmem := mem_indices_iff.2 ((h _).2 (largest_mem hne))
      rw [List.max?_eq_none_iff.1 hmax] at hmem
      cases hmem
    rw [hzero]
    rfl
  | some m =>
    obtain ⟨hm, hle⟩ := List.max?_eq_some_iff.1 hmax
    have heq : m = largest symbol given := by
      apply Nat.le_antisymm
      · exact le_largest ((h m).1 (mem_indices_iff.1 hm))
      · by_cases hzero : largest symbol given = 0
        · omega
        · exact hle _ (mem_indices_iff.2 ((h _).2 (largest_mem hzero)))
    subst heq
    dsimp only
    split
    next hlt => rw [if_neg (Nat.not_le.2 hlt)]
    next hlt => rw [if_pos (Nat.not_lt.1 hlt)]

/-- A leaf gets the index that the law gives it, unless it is in trouble. -/
theorem claim_run (h : s.Agrees leaves) (hr : s.builder.Resolves symbol target)
    (enclosing : String) (pin : Option Nat) :
    claim enclosing target pin s =
      match trouble? (numbered leaves) (symbol, pin) with
      | some trouble => .error (trouble.failure enclosing s.builder.registry) s
      | none => .ok (indexAfter (numbered leaves) (symbol, pin)) { s with
          claims := (target, indexAfter (numbered leaves) (symbol, pin)) :: s.claims } := by
  cases pin with
  | none =>
    dsimp only [claim, bind, EStateM.bind, get, getThe, MonadStateOf.get, EStateM.get, trouble?]
    rw [next_eq fun _ => h.mem_iff hr]
    split <;> rfl
  | some index =>
    dsimp only [claim, bind, EStateM.bind, get, getThe, MonadStateOf.get, EStateM.get, trouble?]
    rw [hr.targetName]
    by_cases hzero : index = 0
    · rw [if_pos hzero, if_pos hzero]
      rfl
    rw [if_neg hzero, if_neg hzero]
    have hmem : index ∈ s.claims.indices target ↔ (symbol, index) ∈ numbered leaves :=
      mem_indices_iff.trans (h.mem_iff hr)
    by_cases htaken : (symbol, index) ∈ numbered leaves
    · rw [if_pos htaken, if_pos (hmem.2 htaken)]
      rfl
    · rw [if_neg htaken, if_neg (htaken ∘ hmem.1)]
      rfl

/-- Started from `s`, where earlier leaves have got their indices, the step gives these leaves
theirs or fails at the first one in trouble. It mentions the rules that it comes across. -/
def Assigns (s : Lowering) (m : LowerM α) (enclosing : String)
    (earlier leaves : List WrittenLeaf) : Prop :=
  match m s with
  | .ok _ s' => Accepted (earlier ++ leaves) ∧ s'.Agrees (earlier ++ leaves) ∧
      s.builder.Mentions s'.builder leaves
  | .error failure s' => ∃ before leaf trouble, before ++ [leaf] <+: leaves ∧
      Accepted (earlier ++ before) ∧ trouble? (numbered (earlier ++ before)) leaf = some trouble ∧
      failure = trouble.failure enclosing s.builder.registry ∧
      s.builder.Mentions s'.builder (before ++ [leaf])

variable {enclosing : String}

theorem Assigns.bind {m : LowerM α} {f : α → LowerM β} {more : List WrittenLeaf}
    (h : s.Assigns m enclosing earlier leaves)
    (hf : ∀ a (s' : Lowering), Accepted (earlier ++ leaves) → s'.Agrees (earlier ++ leaves) →
      s'.Assigns (f a) enclosing (earlier ++ leaves) more) :
    s.Assigns (m >>= f) enclosing earlier (leaves ++ more) := by
  change match EStateM.bind m f s with | .ok .. => _ | .error .. => _
  unfold Assigns at h
  unfold EStateM.bind
  cases hm : m s with
  | error failure s' =>
    rw [hm] at h
    obtain ⟨before, leaf, trouble, hpre, hfirst⟩ := h
    exact ⟨before, leaf, trouble, hpre.trans (List.prefix_append ..), hfirst⟩
  | ok a s' =>
    rw [hm] at h
    obtain ⟨haccepted, hagrees, hmentions⟩ := h
    have h' := hf a s' haccepted hagrees
    unfold Assigns at h'
    dsimp only
    cases hfa : f a s' with
    | ok b s'' =>
      rw [hfa] at h'
      obtain ⟨haccepted', hagrees', hmentions'⟩ := h'
      rw [List.append_assoc] at haccepted' hagrees'
      exact ⟨haccepted', hagrees', hmentions.append hmentions'⟩
    | error failure s'' =>
      rw [hfa] at h'
      obtain ⟨before, leaf, trouble, hpre, hbefore, htrouble, hfailure, hmentions'⟩ := h'
      rw [List.append_assoc] at hbefore htrouble
      refine ⟨leaves ++ before, leaf, trouble, ?_, hbefore, htrouble, ?_, ?_⟩
      · rw [List.append_assoc]
        exact (List.prefix_append_right_inj leaves).2 hpre
      · rwa [← hmentions.registry]
      · rw [List.append_assoc]
        exact hmentions.append hmentions'

/-- Whatever comes after the last leaf. -/
theorem Assigns.andThen {m : LowerM α} {f : α → LowerM β} (h : s.Assigns m enclosing earlier leaves)
    (hf : ∀ a (s' : Lowering), Accepted (earlier ++ leaves) → s'.Agrees (earlier ++ leaves) →
      s'.Assigns (f a) enclosing (earlier ++ leaves) []) :
    s.Assigns (m >>= f) enclosing earlier leaves := by
  have hbind := h.bind hf
  rwa [List.append_nil] at hbind

theorem Assigns.pure (h : Accepted earlier) (hs : s.Agrees earlier) (a : α) :
    s.Assigns (pure a) enclosing earlier [] := by
  rw [← List.append_nil earlier] at h hs
  exact ⟨h, hs, .of_names rfl rfl⟩

theorem number_assigns (h : Accepted earlier) (hs : s.Agrees earlier) (node : NodeId → Node) :
    s.Assigns (number node) enclosing earlier [] := by
  rw [← List.append_nil earlier] at h hs
  exact ⟨h, ⟨hs.indexed, hs.claims⟩, .of_names rfl rfl⟩

theorem Assigns.congr {m m' : LowerM α} (h : s.Assigns m' enclosing earlier leaves)
    (heq : m s = m' s) : s.Assigns m enclosing earlier leaves := by
  unfold Assigns at h ⊢
  rwa [heq]

/-- A leaf whose target is resolved. The step before it may have mentioned the target. -/
theorem claim_assigns (h : Accepted earlier) (hs : s.Agrees earlier) (hg : s.builder.Grows b)
    (hr : b.Resolves symbol target) (hmentions : s.builder.Mentions b [(symbol, pin)]) :
    s.Assigns (fun s => claim enclosing target pin { s with builder := b }) enclosing earlier
      [(symbol, pin)] := by
  have hagrees : Agrees { s with builder := b } earlier := hs.grows hg rfl
  unfold Assigns
  dsimp only
  rw [claim_run hagrees hr]
  cases htrouble : trouble? (numbered earlier) (symbol, pin) with
  | some trouble =>
    refine ⟨[], (symbol, pin), trouble, List.prefix_rfl, ?_, ?_, ?_, hmentions⟩
    · rwa [List.append_nil]
    · rwa [List.append_nil]
    · rw [← hmentions.registry]
  | none => exact ⟨h.concat htrouble, hagrees.concat hr pin, hmentions⟩

/-- A written target is resolved, and mentioned from now on. -/
theorem resolve_run (h : s.builder.Indexed) (symbol : Symbol String) : ∃ target b,
    resolve symbol s = .ok target { s with builder := b } ∧ s.builder.Grows b ∧
      b.Resolves symbol target ∧ ∀ pin, s.builder.Mentions b [(symbol, pin)] := by
  cases symbol with
  | terminal kind =>
    exact ⟨.terminal kind, s.builder, rfl, .refl _, rfl, fun pin => ⟨by simp, rfl⟩⟩
  | rule nm =>
    have hgrows := s.builder.declare_grows nm
    have hid := s.builder.ruleId?_declare nm
    have hname := (hgrows.indexed h).ruleId?_eq_some.1 hid
    exact ⟨.rule (s.builder.declare nm).1, (s.builder.declare nm).2, rfl, hgrows, ⟨hid, hname⟩,
      h.declare_mentions nm⟩

theorem separator_assigns (h : Accepted earlier) (hs : s.Agrees earlier) (kind : Terminal) :
    s.Assigns (separator enclosing kind) enclosing earlier [(.terminal kind, none)] := by
  have hresolves : s.builder.Resolves (.terminal kind) (.terminal kind) := rfl
  have hclaim : s.Assigns (claim enclosing (.terminal kind) none) enclosing earlier
      [(.terminal kind, none)] :=
    claim_assigns h hs (.refl _) hresolves ⟨by simp, rfl⟩
  refine hclaim.andThen fun occurrence s₁ h₁ hs₁ => ?_
  exact (number_assigns h₁ hs₁ _).andThen fun leaf s₂ h₂ hs₂ => .pure h₂ hs₂ _

mutual

/-- Lowering a body gives its leaves their indices by the law. -/
theorem lower_assigns (enclosing : String) : ∀ (e : Expr) {s : Lowering} {earlier},
    Accepted earlier → s.Agrees earlier →
    s.Assigns (lower enclosing e) enclosing earlier e.leaves
  | .leaf symbol pin, s, earlier, h, hs => by
    obtain ⟨target, b, hrun, hgrows, hresolves, hmentions⟩ := resolve_run hs.indexed symbol
    have hclaim : s.Assigns (fun s => claim enclosing target pin { s with builder := b }) enclosing
        earlier [(symbol, pin)] := claim_assigns h hs hgrows hresolves (hmentions pin)
    have hlower := hclaim.andThen fun occurrence s₁ h₁ hs₁ =>
      number_assigns h₁ hs₁ (Node.leaf · target occurrence)
    refine hlower.congr ?_
    unfold lower
    change EStateM.bind (resolve symbol) _ s = _
    unfold EStateM.bind
    rw [hrun]
    rfl
  | .group shape items, s, earlier, h, hs => by
    unfold lower Expr.leaves
    exact (lowerItems_assigns enclosing items h hs).andThen fun ns s₁ h₁ hs₁ =>
      number_assigns h₁ hs₁ _
  | .loop kind body none, s, earlier, h, hs => by
    unfold lower Expr.leaves
    exact (lower_assigns enclosing body h hs).bind fun n s₁ h₁ hs₁ => number_assigns h₁ hs₁ _
  | .loop kind body (some sep), s, earlier, h, hs => by
    unfold lower Expr.leaves
    refine (lower_assigns enclosing body h hs).bind fun n s₁ h₁ hs₁ => ?_
    exact (separator_assigns h₁ hs₁ sep).andThen fun leaf s₂ h₂ hs₂ => number_assigns h₂ hs₂ _

theorem lowerItems_assigns (enclosing : String) : ∀ (es : List Expr) {s : Lowering} {earlier},
    Accepted earlier → s.Agrees earlier →
    s.Assigns (lowerItems enclosing es) enclosing earlier (Expr.itemLeaves es)
  | [], s, earlier, h, hs => .pure h hs _
  | e :: es, s, earlier, h, hs => by
    unfold lowerItems Expr.itemLeaves
    refine (lower_assigns enclosing e h hs).bind fun n s₁ h₁ hs₁ => ?_
    exact (lowerItems_assigns enclosing es h₁ hs₁).andThen fun ns s₂ h₂ hs₂ => .pure h₂ hs₂ _

end

end Lowering

/-! ## Declarations -/

namespace Builder

open Occurrence Lowering

variable {b b' : Builder} {nm : String} {n : Node} {listed : List IndexedLeaf}

/-- The leaves of the tree are those that are listed, in that order and with these indices. -/
def Lists (b : Builder) (n : Node) (listed : List IndexedLeaf) : Prop :=
  List.Forall₂ (ClaimOf b) n.leaves listed

theorem Lists.extends (h : b.Lists n listed) (he : b.Extends b') : b'.Lists n listed :=
  h.imp fun _ _ hclaim => ⟨hclaim.1.extends he, hclaim.2⟩

/-- Every leaf of the tree is listed. -/
theorem Lists.exists_listed (h : b.Lists n listed) :
    ∀ leaf ∈ n.leaves, ∃ leaf' ∈ listed, ClaimOf b leaf leaf' := by
  unfold Lists at h
  generalize n.leaves = leaves at h
  induction h with
  | nil => exact List.forall_mem_nil _
  | cons hclaim _ ih =>
    refine List.forall_mem_cons.2 ⟨⟨_, List.mem_cons_self, hclaim⟩, fun leaf hleaf => ?_⟩
    obtain ⟨leaf', hleaf', hclaim'⟩ := ih leaf hleaf
    exact ⟨leaf', List.mem_cons_of_mem _ hleaf', hclaim'⟩

theorem Lists.one_le (h : b.Lists n (numbered leaves)) (hleaves : Accepted leaves) :
    ∀ leaf ∈ n.leaves, 1 ≤ leaf.2 := by
  intro leaf hleaf
  obtain ⟨leaf', hleaf', -, hindex⟩ := h.exists_listed leaf hleaf
  rw [hindex]
  exact hleaves.one_le leaf' hleaf'

/-- Where nothing is pinned, the leaves of a target are counted from 1 on. -/
theorem Lists.dense (h : b.Lists n (numbered leaves)) (hleaves : ∀ leaf ∈ leaves, leaf.2 = none)
    (target : Symbol RuleId) : Claims.indices n.leaves target =
      List.range' 1 (Claims.indices n.leaves target).length := by
  cases hindices : Claims.indices n.leaves target with
  | nil => rfl
  | cons index rest =>
    -- a target that has a leaf has a name
    have hmem : (target, index) ∈ n.leaves := mem_indices_iff.1 (hindices ▸ List.mem_cons_self)
    obtain ⟨leaf', -, hresolves, -⟩ := h.exists_listed _ hmem
    rw [← hindices, indices_of_claims h hresolves]
    exact indices_of_unpinned hleaves leaf'.1

/-- What a declaration of a rule without a body does: its body is listed by the law, or it fails at
the first leaf in trouble. It mentions the rule and those of its leaves that it came to. -/
theorem Reached.rule_outcome (hb : b.Reached) (hnew : b.isDeclared nm = false) (body : Expr)
    (resync : Bool) :
    match Builder.rule nm body resync b with
    | .ok r b' => Accepted body.leaves ∧
        (∃ n, b'.slots[r]? = some { name := nm, definition := some { name := nm, body := n, resync } } ∧
          b'.nodes[n.id]? = some n ∧ b'.Lists n (numbered body.leaves)) ∧
        b.Mentions b' ((.rule nm, none) :: body.leaves)
    | .error failure b' => ∃ before leaf trouble, before ++ [leaf] <+: body.leaves ∧
        Accepted before ∧ trouble? (numbered before) leaf = some trouble ∧
        failure = trouble.failure nm b.registry ∧
        b.Mentions b' ((.rule nm, none) :: (before ++ [leaf])) := by
  have hsound := hb.sound.declare nm
  have hmention := hb.sound.indexed.declare_mentions nm none
  have hassigns := lower_assigns nm body (s := { builder := (b.declare nm).2 }) accepted_nil
    ⟨hsound.indexed, .nil⟩
  have hleads := lower_leads nm body hsound.lowering
  rw [rule_of_undeclared hnew]
  unfold Assigns at hassigns
  unfold Leads at hleads
  cases hlower : lower nm body { builder := (b.declare nm).2 } with
  | error failure s =>
    rw [hlower] at hassigns
    obtain ⟨before, leaf, trouble, hpre, haccepted, htrouble, hfailure, hmentions⟩ := hassigns
    rw [hmention.registry] at hfailure
    exact ⟨before, leaf, trouble, hpre, haccepted, htrouble, hfailure,
      hmention.append hmentions⟩
  | ok n s =>
    rw [hlower] at hassigns hleads
    obtain ⟨haccepted, hagrees, hmentions⟩ := hassigns
    obtain ⟨hgrows, -, hhas, hclaims⟩ := hleads
    have hslot := hb.sound.indexed.exists_empty_slot hnew hgrows
    have hlists : s.builder.Lists n (numbered body.leaves) := by
      have hagreed := hagrees.claims
      rwa [hclaims, List.append_nil, List.forall₂_reverse_iff] at hagreed
    refine ⟨haccepted, ⟨n, ?_, hhas, hlists.extends (extends_define hslot rfl _)⟩, ?_⟩
    · rw [define_slot, if_pos rfl, hslot]
      rfl
    · have hfilled := hmention.append hmentions
      exact ⟨fun nm' => define_names s.builder .. ▸ hfilled.names nm', hfilled.registry⟩

/-- A declaration of a rule without a body succeeds if its body is accepted. -/
theorem Reached.rule_of_accepted (hb : b.Reached) (hnew : b.isDeclared nm = false)
    (haccepted : Accepted body.leaves) (resync : Bool) :
    ∃ r b', Builder.rule nm body resync b = .ok r b' := by
  have houtcome := hb.rule_outcome hnew body resync
  cases hrule : Builder.rule nm body resync b with
  | ok r b' => exact ⟨r, b', rfl⟩
  | error failure b' =>
    rw [hrule] at houtcome
    obtain ⟨before, leaf, trouble, hpre, -, htrouble, -⟩ := houtcome
    rw [haccepted before leaf hpre] at htrouble
    cases htrouble

/-- The body of every rule is listed by the law. -/
theorem Reached.lists_bodies (h : b.Reached) : ∀ (r : RuleId) (slot : Slot) (d : Rule),
    b.slots[r]? = some slot → slot.definition = some d →
      ∃ leaves, Accepted leaves ∧ b.Lists d.body (numbered leaves) := by
  refine h.callInduction ?_ ?_
  · exact fun nm r slot d hslot => by simp at hslot
  intro b c hb ih r slot d hslot hd
  rcases hb.body_cases c hslot hd with hold | ⟨nm, body, resync, rfl, hnew, hrule⟩
  · obtain ⟨leaves, haccepted, hlists⟩ := ih r slot d hold hd
    exact ⟨leaves, haccepted, hlists.extends (hb.after_extends c)⟩
  · have houtcome := hb.rule_outcome hnew body resync
    rw [hrule] at houtcome
    obtain ⟨haccepted, ⟨n, hn, -, hlists⟩, -⟩ := houtcome
    rw [hslot] at hn
    cases hn
    cases hd
    exact ⟨body.leaves, haccepted, hlists⟩

/-- Indices are given by the law. A declaration of a rule without a body fails because of the first
leaf in trouble, and otherwise lists its leaves with the indices of the law; if nothing is pinned,
the leaves of each target are counted from 1 on in every grammar that is built later. In a grammar
indices start at 1, and no two leaves of a rule have target and index in common. -/
theorem indices_by_law (hb : b.Reached) (hnew : b.isDeclared nm = false) (body : Expr)
    (resync : Bool) :
    (∀ failure, (∃ b', Builder.rule nm body resync b = .error failure b') ↔
      ∃ trouble, FirstTrouble body.leaves trouble ∧ failure = trouble.failure nm b.registry) ∧
    ((∃ r b', Builder.rule nm body resync b = .ok r b') ↔ Accepted body.leaves) ∧
    (∀ r b', Builder.rule nm body resync b = .ok r b' →
      (∃ n, b'.slots[r]? = some { name := nm, definition := some { name := nm, body := n, resync } } ∧
        b'.nodes[n.id]? = some n ∧ b'.Lists n (numbered body.leaves)) ∧
      ((∀ leaf ∈ body.leaves, leaf.2 = none) → ∀ calls g, (b'.afterAll calls).build = .ok g →
        ∃ R, g.rules[r]? = some R ∧ ∀ target, Claims.indices R.body.leaves target =
          List.range' 1 (Claims.indices R.body.leaves target).length)) ∧
    ∀ g : Grammar, g.Built → ∀ (r : RuleId) R, g.rules[r]? = some R →
      (∀ leaf ∈ R.body.leaves, 1 ≤ leaf.2) ∧ R.body.leaves.Nodup := by
  have houtcome := hb.rule_outcome hnew body resync
  refine ⟨fun failure => ⟨?_, ?_⟩, ⟨?_, ?_⟩, ?_, ?_⟩
  · rintro ⟨b', hrule⟩
    rw [hrule] at houtcome
    obtain ⟨before, leaf, trouble, hpre, haccepted, htrouble, hfailure, -⟩ := houtcome
    exact ⟨trouble, ⟨before, leaf, hpre, haccepted, htrouble⟩, hfailure⟩
  · rintro ⟨trouble, hfirst, rfl⟩
    cases hrule : Builder.rule nm body resync b with
    | ok r b' =>
      rw [hrule] at houtcome
      exact (hfirst.not_accepted houtcome.1).elim
    | error failure b' =>
      rw [hrule] at houtcome
      obtain ⟨before, leaf, trouble', hpre, haccepted, htrouble, rfl, -⟩ := houtcome
      obtain rfl := hfirst.unique ⟨before, leaf, hpre, haccepted, htrouble⟩
      exact ⟨b', rfl⟩
  · rintro ⟨r, b', hrule⟩
    rw [hrule] at houtcome
    exact houtcome.1
  · exact fun haccepted => hb.rule_of_accepted hnew haccepted resync
  · intro r b' hrule
    rw [hrule] at houtcome
    obtain ⟨-, ⟨n, hslot, hn, hlists⟩, -⟩ := houtcome
    refine ⟨⟨n, hslot, hn, hlists⟩, fun hunpinned calls g hbuild => ?_⟩
    exact ⟨_, (hb.ruleAdded hrule).rule_of_build hslot rfl hbuild, hlists.dense hunpinned⟩
  · intro g hg r R hR
    refine ⟨?_, hg.wellFormed.leaves hR⟩
    obtain ⟨b, hb, hbuild⟩ := hg
    obtain ⟨slot, hslot, hd⟩ := (build_eq_ok hbuild).2.2 hR
    obtain ⟨leaves, haccepted, hlists⟩ := hb.lists_bodies r slot _ hslot hd
    exact hlists.one_le haccepted

end Builder

namespace Sample

open Occurrence

/-- A builder with one kind and no rules. -/
def chains : Builder where
  name := "chains"
  registry := { names := #["Ident"], byName := [("Ident", 0)] }

theorem chains_reached : chains.Reached := by
  have hkinds : Draft.registerAll ["Ident"] { name := "chains" } = .ok chains := by cbv
  exact Draft.registerAll_reached (.start "chains") hkinds

/-- Names after which the same names may follow, with the same kind as separator. -/
def chain : Expr := .loop .zeroOrMore (row [token 0 none, token 0 none]) (some 0)

/-- Pinned indices below and above those that leaves get on their own. -/
def pinned : Expr := row [token 0 (some 3), rule "chain", chain, token 0 (some 2), rule "chain"]

/-- In `pinned` the chain gets the indices 4 to 6, so no other leaf may be pinned to 5. A chain alone
is counted from 1 on. -/
theorem chain_by_law : ∃ b : Builder, b.Reached ∧
    (∃ r b' n, Builder.rule "top" pinned true b = .ok r b' ∧ b'.nodes[n.id]? = some n ∧
      b'.Lists n [(.terminal 0, 3), (.rule "chain", 1), (.terminal 0, 4), (.terminal 0, 5),
        (.terminal 0, 6), (.terminal 0, 2), (.rule "chain", 2)]) ∧
    (∃ b', Builder.rule "top" (row [pinned, token 0 (some 5)]) true b =
      .error (.malformed (.duplicateOccurrence "top" "Ident" 5)) b') ∧
    ∃ r b' g R, Builder.rule "chain" chain true b = .ok r b' ∧ b'.build = .ok g ∧
      g.rules[r]? = some R ∧ Claims.indices R.body.leaves (.terminal 0) = [1, 2, 3] := by
  have hb := chains_reached
  have htop : chains.isDeclared "top" = false := by cbv
  have hchain : chains.isDeclared "chain" = false := by cbv
  refine ⟨_, hb, ?_, ?_, ?_⟩
  · obtain ⟨-, hok, hlists, -⟩ := Builder.indices_by_law hb htop pinned true
    obtain ⟨r, b', hrule⟩ := hok.2 (by decide)
    obtain ⟨⟨n, -, hn, hn'⟩, -⟩ := hlists r b' hrule
    exact ⟨r, b', n, hrule, hn, hn'⟩
  · obtain ⟨hfails, -⟩ := Builder.indices_by_law hb htop (row [pinned, token 0 (some 5)]) true
    exact (hfails _).2 ⟨.taken (.terminal 0) 5, ⟨pinned.leaves, _, List.prefix_rfl, by decide, rfl⟩,
      rfl⟩
  · obtain ⟨-, hok, hlists, -⟩ := Builder.indices_by_law hb hchain chain true
    obtain ⟨r, b', hrule⟩ := hok.2 (by decide)
    obtain ⟨-, hdense⟩ := hlists r b' hrule
    have hbuilds : (match Builder.rule "chain" chain true chains with
      | .ok r b' => b'.build.toOption.any fun g => g.rules[r]?.any fun R =>
          (Claims.indices R.body.leaves (.terminal 0)).length == 3
      | .error .. => false) = true := by
      decide +kernel
    rw [hrule] at hbuilds
    cases hbuild : b'.build with
    | error error => simp [hbuild, Except.toOption] at hbuilds
    | ok g =>
      obtain ⟨R, hR, hcounted⟩ := hdense (by decide) [] g hbuild
      simp only [hbuild, Except.toOption, Option.any_some, hR, beq_iff_eq] at hbuilds
      exact ⟨r, b', g, R, hrule, hbuild, hR, by rw [hcounted, hbuilds]; rfl⟩

end Sample

end Descent
