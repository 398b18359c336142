import Descent.Grammar.Builder
import Mathlib

/-!
# Lowering keeps the node table in order

Each step of lowering a rule body only adds nodes and names, keeps the node table in order, also
where it fails, and has claimed exactly the leaves of the trees it returned, no leaf twice. This is
said once for a step (`Lowering.Leads`) and carried through sequencing by `Lowering.Leads.bind`.
-/

namespace Descent

/-! ## Node tables -/

/-- Nodes stand in the table under their own numbers, with all nodes below them, and refer to
rules below `count`. -/
structure NodesWF (nodes : Array Node) (count : Nat) : Prop where
  numbered : ∀ {i : NodeId} {n : Node}, nodes[i]? = some n → n.id = i
  closed : ∀ {i : NodeId} {n : Node}, nodes[i]? = some n → ∀ c ∈ n.children, nodes[c.id]? = some c
  resolved : ∀ {i : NodeId} {j r o}, nodes[i]? = some (.leaf j (.rule r) o) → r < count

variable {nodes : Array Node} {count count' : Nat} {n : Node}

theorem NodesWF.mono (h : NodesWF nodes count) (hle : count ≤ count') : NodesWF nodes count' where
  numbered := h.numbered
  closed := h.closed
  resolved hn := Nat.lt_of_lt_of_le (h.resolved hn) hle

/-- A node whose children are in the table can be added under the next number. -/
theorem NodesWF.push (h : NodesWF nodes count) (hid : n.id = nodes.size)
    (hchildren : ∀ c ∈ n.children, nodes[c.id]? = some c)
    (hresolved : ∀ {j r o}, n = .leaf j (.rule r) o → r < count) :
    NodesWF (nodes.push n) count := by
  have hold {i : NodeId} {m : Node} (hm : nodes[i]? = some m) : (nodes.push n)[i]? = some m := by
    have hi : i < nodes.size := (Array.getElem?_eq_some_iff.1 hm).1
    rw [Array.getElem?_push, if_neg (Nat.ne_of_lt hi), hm]
  have hnew {i : NodeId} {m : Node} (hm : (nodes.push n)[i]? = some m) :
      i = nodes.size ∧ m = n ∨ nodes[i]? = some m := by
    rw [Array.getElem?_push] at hm
    split at hm
    next hi => exact .inl ⟨hi, (Option.some.inj hm).symm⟩
    next => exact .inr hm
  constructor
  · intro i m hm
    rcases hnew hm with ⟨rfl, rfl⟩ | hm
    · exact hid
    · exact h.numbered hm
  · intro i m hm c hc
    rcases hnew hm with ⟨rfl, rfl⟩ | hm
    · exact hold (hchildren c hc)
    · exact hold (h.closed hm c hc)
  · intro i j r o hm
    rcases hnew hm with ⟨rfl, hn⟩ | hm
    · exact hresolved hn.symm
    · exact h.resolved hm

/-! ## Names and numbers -/

/-- A table by names leads from each name to its place among the names, and to nothing else. -/
def Indexes (number : α → Nat) (byName : List (String × α)) (names : List String) : Prop :=
  ∀ nm a, byName.lookup nm = some a ↔ names[number a]? = some nm

namespace Indexes

variable {number : α → Nat} {byName : List (String × α)} {names : List String}

theorem lookup_cons_of_ne (byName : List (String × α)) {nm nm' : String} (a : α) (h : nm' ≠ nm) :
    ((nm, a) :: byName).lookup nm' = byName.lookup nm' := by
  rw [List.lookup_cons, beq_eq_false_iff_ne.2 h]

/-- A name that is not in the table yet can be added to both, under the next number. -/
theorem push (h : Indexes number byName names) (hinj : number.Injective)
    (hnew : byName.lookup nm = none) (ha : number a = names.length) :
    Indexes number ((nm, a) :: byName) (names ++ [nm]) := by
  intro nm' a'
  by_cases hnm : nm' = nm
  case neg =>
    rw [lookup_cons_of_ne byName a hnm, h nm' a', List.getElem?_append]
    split
    next => rfl
    next hlt => simp [List.getElem?_singleton, Nat.not_lt.1 hlt, Ne.symm hnm]
  case pos =>
    subst hnm
    rw [List.lookup_cons_self, Option.some_inj]
    constructor
    · rintro rfl
      simp [ha]
    · intro hfound
      have hlt : ¬ number a' < names.length := by
        intro hlt
        rw [List.getElem?_append_left hlt, ← h, hnew] at hfound
        cases hfound
      have hlast := (List.getElem?_eq_some_iff.1 hfound).1
      rw [List.length_append, List.length_singleton] at hlast
      exact hinj (by omega)

/-- Where every place has a number, no name is there twice. -/
theorem nodup (h : Indexes number byName names)
    (hnumber : ∀ i < names.length, ∃ a, number a = i) : names.Nodup := by
  refine List.nodup_iff_injective_getElem.2 ?_
  rintro ⟨i, hi⟩ ⟨j, hj⟩ (heq : names[i] = names[j])
  obtain ⟨a, rfl⟩ := hnumber i hi
  obtain ⟨a', rfl⟩ := hnumber j hj
  have ha := (h names[number a] a).2 (List.getElem?_eq_getElem hi)
  have ha' := (h names[number a] a').2 (heq ▸ List.getElem?_eq_getElem hj)
  cases ha.symm.trans ha'
  rfl

end Indexes

/-- The mentioned names, in the order of their numbers. -/
def Builder.names (b : Builder) : List String := b.slots.toList.map Slot.name

/-- A mentioned name and its number determine one another. -/
def Builder.Indexed (b : Builder) : Prop := Indexes id b.byName b.names

namespace Builder.Indexed

variable {b : Builder} {r : RuleId}

theorem ruleId?_eq_some (h : b.Indexed) : b.ruleId? nm = some r ↔ b.names[r]? = some nm := h nm r

theorem nodup (h : b.Indexed) : b.names.Nodup := Indexes.nodup h fun i _ => ⟨i, rfl⟩

theorem slot (h : b.Indexed) (hid : b.ruleId? nm = some r) :
    ∃ slot, b.slots[r]? = some slot ∧ slot.name = nm := by
  have hname := h.ruleId?_eq_some.1 hid
  rwa [names, List.getElem?_map, Array.getElem?_toList, Option.map_eq_some_iff] at hname

end Builder.Indexed

/-! ## Growing builders -/

/-- The second builder has the nodes and rules of the first, and maybe more nodes and more names
that have no body. Names keep their numbers, and no terminal kind is added. -/
structure Builder.Grows (b b' : Builder) : Prop where
  nodes : b.nodes.toList <+: b'.nodes.toList
  slots : ∃ added, b.slots.toList ++ added = b'.slots.toList ∧
    ∀ slot ∈ added, slot.definition = none
  numbers : ∀ {nm r}, b.ruleId? nm = some r → b'.ruleId? nm = some r
  indexed : b.Indexed → b'.Indexed
  registry : b'.registry = b.registry

namespace Builder.Grows

variable {b b' b'' : Builder} {i : Nat} {entry : Slot}

theorem refl (b : Builder) : b.Grows b :=
  ⟨List.prefix_refl _, ⟨[], List.append_nil _, nofun⟩, id, id, rfl⟩

theorem trans (h : b.Grows b') (h' : b'.Grows b'') : b.Grows b'' := by
  obtain ⟨added, hadded, hnone⟩ := h.slots
  obtain ⟨added', hadded', hnone'⟩ := h'.slots
  refine ⟨h.nodes.trans h'.nodes, ⟨added ++ added', ?_, ?_⟩, h'.numbers ∘ h.numbers,
    h'.indexed ∘ h.indexed, h'.registry.trans h.registry⟩
  · rw [← List.append_assoc, hadded, hadded']
  · exact List.forall_mem_append.2 ⟨hnone, hnone'⟩

theorem node (h : b.Grows b') (hn : b.nodes[i]? = some n) : b'.nodes[i]? = some n := by
  obtain ⟨rest, hrest⟩ := h.nodes
  rw [← Array.getElem?_toList] at hn ⊢
  rw [← hrest, List.getElem?_append_left (List.getElem?_eq_some_iff.1 hn).1, hn]

theorem slot (h : b.Grows b') (hs : b.slots[i]? = some entry) : b'.slots[i]? = some entry := by
  obtain ⟨added, hadded, -⟩ := h.slots
  rw [← Array.getElem?_toList] at hs ⊢
  rw [← hadded, List.getElem?_append_left (List.getElem?_eq_some_iff.1 hs).1, hs]

/-- Rules that have a body had it before. -/
theorem slot_of_defined (h : b.Grows b') (hs : b'.slots[i]? = some entry)
    (hd : entry.definition = some d) : b.slots[i]? = some entry := by
  obtain ⟨added, hadded, hnone⟩ := h.slots
  rw [← Array.getElem?_toList] at hs ⊢
  rw [← hadded] at hs
  rcases Nat.lt_or_ge i b.slots.toList.length with hi | hi
  · rwa [List.getElem?_append_left hi] at hs
  · rw [List.getElem?_append_right hi] at hs
    rw [hnone _ (List.mem_of_getElem? hs)] at hd
    cases hd

theorem slots_size_le (h : b.Grows b') : b.slots.size ≤ b'.slots.size := by
  obtain ⟨added, hadded, -⟩ := h.slots
  rw [← Array.length_toList, ← Array.length_toList, ← hadded]
  simp

end Builder.Grows

/-- What mentioning a rule can do: a name that is known leads to its number, and nothing changes; a
new name gets the next number, in both tables. -/
theorem Builder.declare_cases (nm : String) (b : Builder) :
    (∃ r, b.ruleId? nm = some r ∧ b.declare nm = (r, b)) ∨
      b.ruleId? nm = none ∧ b.declare nm = (b.slots.size, { b with
        slots := b.slots.push { name := nm, definition := none }
        byName := (nm, b.slots.size) :: b.byName }) := by
  unfold declare
  cases hid : b.ruleId? nm with
  | some r => exact .inl ⟨r, rfl, rfl⟩
  | none => exact .inr ⟨rfl, rfl⟩

/-- Mentioning a rule that is known changes nothing. -/
theorem Builder.declare_of_known {b : Builder} (h : b.ruleId? nm = some r) :
    b.declare nm = (r, b) := by
  simp only [declare, h]

theorem Builder.declare_grows (name : String) (b : Builder) : b.Grows (b.declare name).2 := by
  obtain ⟨r, -, heq⟩ | ⟨hnew, heq⟩ := b.declare_cases name
  · rw [heq]
    exact .refl b
  · rw [heq]
    constructor
    case nodes => exact List.prefix_refl _
    case slots => exact ⟨[{ name, definition := none }], by simp, by simp⟩
    case numbers =>
      intro nm r hid
      have hne : nm ≠ name := by
        rintro rfl
        cases hnew.symm.trans hid
      exact (Indexes.lookup_cons_of_ne b.byName _ hne).trans hid
    case indexed =>
      intro h
      have hpush := Indexes.push h Function.injective_id hnew
        (a := b.slots.size) (by simp [names])
      simpa [Indexed, names] using hpush
    case registry => rfl

theorem Builder.declare_nodes (name : String) (b : Builder) :
    (b.declare name).2.nodes = b.nodes := by
  obtain ⟨r, -, heq⟩ | ⟨-, heq⟩ := b.declare_cases name <;> rw [heq]

/-- A mentioned rule has a number under its name. -/
theorem Builder.ruleId?_declare (name : String) (b : Builder) :
    (b.declare name).2.ruleId? name = some (b.declare name).1 := by
  obtain ⟨r, hid, heq⟩ | ⟨-, heq⟩ := b.declare_cases name
  · rw [heq]
    exact hid
  · rw [heq]
    exact List.lookup_cons_self ..

/-- The slot that belongs to a name bears the name. -/
theorem Builder.Indexed.declare_slot {b : Builder} (h : b.Indexed) (nm : String) :
    ∃ slot, (b.declare nm).2.slots[(b.declare nm).1]? = some slot ∧ slot.name = nm :=
  ((b.declare_grows nm).indexed h).slot (b.ruleId?_declare nm)

theorem Builder.Indexed.declare_lt {b : Builder} (h : b.Indexed) (nm : String) :
    (b.declare nm).1 < (b.declare nm).2.slots.size := by
  obtain ⟨slot, hslot, -⟩ := h.declare_slot nm
  exact (Array.getElem?_eq_some_iff.1 hslot).1

/-! ## Lowering -/

namespace Lowering

/-- Nodes and names are in order, and no target has got an index twice. -/
structure Sound (s : Lowering) : Prop where
  nodes : NodesWF s.builder.nodes s.builder.slots.size
  indexed : s.builder.Indexed
  claims : s.claims.Nodup

/-- The tree stands in the node table. -/
def Has (s : Lowering) (n : Node) : Prop := s.builder.nodes[n.id]? = some n

/-- Started from `s`, the step adds to the builder and leaves a sound state, and where it succeeds
its result and the state it leaves satisfy `Q`. -/
def Leads (s : Lowering) (m : LowerM α) (Q : α → Lowering → Prop) : Prop :=
  match m s with
  | .ok a s' => s.builder.Grows s'.builder ∧ s'.Sound ∧ Q a s'
  | .error _ s' => s.builder.Grows s'.builder ∧ s'.Sound

variable {s s' : Lowering}

theorem Leads.pure (hs : s.Sound) (h : Q a s) : s.Leads (pure a) Q := ⟨.refl _, hs, h⟩

theorem Leads.imp {m : LowerM α} (h : s.Leads m P) (hPQ : ∀ a s', P a s' → Q a s') :
    s.Leads m Q := by
  unfold Leads at h ⊢
  split at h
  · exact ⟨h.1, h.2.1, hPQ _ _ h.2.2⟩
  · exact h

theorem Leads.bind {m : LowerM α} {f : α → LowerM β} (h : s.Leads m P)
    (hf : ∀ a s', s.builder.Grows s'.builder → s'.Sound → P a s' → s'.Leads (f a) Q) :
    s.Leads (m >>= f) Q := by
  change match EStateM.bind m f s with | .ok .. => _ | .error .. => _
  unfold Leads at h
  unfold EStateM.bind
  cases hm : m s with
  | error failure s' =>
    rw [hm] at h
    exact h
  | ok a s' =>
    rw [hm] at h
    obtain ⟨hgrows, hsound, hP⟩ := h
    have h' := hf a s' hgrows hsound hP
    unfold Leads at h'
    dsimp only
    cases hfa : f a s' <;> rw [hfa] at h' <;> exact ⟨hgrows.trans h'.1, h'.2⟩

theorem Has.grows (h : s.Has n) (hg : s.builder.Grows s'.builder) : s'.Has n := hg.node h

theorem number_leads {node : NodeId → Node} (hs : s.Sound) (hid : ∀ i, (node i).id = i)
    (hchildren : ∀ i, ∀ c ∈ (node i).children, s.Has c)
    (hresolved : ∀ {i j r o}, node i = .leaf j (.rule r) o → r < s.builder.slots.size) :
    s.Leads (number node) fun n s' =>
      s'.Has n ∧ s'.claims = s.claims ∧ n = node s.builder.nodes.size := by
  refine ⟨⟨by simp, ⟨[], List.append_nil _, nofun⟩, id, id, rfl⟩, ⟨?_, hs.indexed, hs.claims⟩, ?_,
    rfl, rfl⟩
  · exact hs.nodes.push (hid _) (hchildren _) hresolved
  · simp [Has, hid]

theorem mention_leads (hs : s.Sound) (name : String) :
    s.Leads (mention name) fun r s' => r < s'.builder.slots.size ∧ s'.claims = s.claims := by
  have hgrows := s.builder.declare_grows name
  refine ⟨hgrows, ⟨?_, hgrows.indexed hs.indexed, hs.claims⟩, hs.indexed.declare_lt name, rfl⟩
  have hnodes := hs.nodes.mono hgrows.slots_size_le
  rwa [← s.builder.declare_nodes name] at hnodes

theorem mem_indices_iff {claims : Claims} :
    index ∈ claims.indices target ↔ (target, index) ∈ claims := by
  simp [Claims.indices]

/-- The next index of a target is one that the target has not got yet. -/
theorem next_fresh {claims : Claims} (h : claims.next target = .ok index) :
    (target, index) ∉ claims := by
  rw [← mem_indices_iff]
  unfold Claims.next at h
  cases hmax : (claims.indices target).max? with
  | none => simp [List.max?_eq_none_iff.1 hmax]
  | some largest =>
    rw [hmax] at h
    obtain ⟨-, hle⟩ := List.max?_eq_some_iff.1 hmax
    dsimp only at h
    split at h
    · cases h
      exact fun hmem => Nat.not_succ_le_self _ (hle _ hmem)
    · cases h

/-- An index is given only to a target that has not got it yet; else the state stays. -/
theorem claim_cases (enclosing : String) (target : Symbol RuleId) (pin : Option Nat)
    (s : Lowering) :
    (∃ failure, claim enclosing target pin s = .error failure s) ∨
      ∃ index, (target, index) ∉ s.claims ∧ claim enclosing target pin s =
        .ok index { s with claims := (target, index) :: s.claims } := by
  cases pin with
  | none =>
    dsimp only [claim, bind, EStateM.bind, get, getThe, MonadStateOf.get, EStateM.get]
    cases hnext : s.claims.next target with
    | error fault => exact .inl ⟨.broken fault, rfl⟩
    | ok index => exact .inr ⟨index, next_fresh hnext, rfl⟩
  | some index =>
    dsimp only [claim, bind, EStateM.bind, get, getThe, MonadStateOf.get, EStateM.get]
    by_cases hzero : index = 0
    · rw [if_pos hzero]
      exact .inl ⟨_, rfl⟩
    rw [if_neg hzero]
    by_cases hmem : index ∈ s.claims.indices target
    · rw [if_pos hmem]
      exact .inl ⟨_, rfl⟩
    · rw [if_neg hmem]
      exact .inr ⟨index, fun h => hmem (mem_indices_iff.2 h), rfl⟩

theorem claim_leads (hs : s.Sound) (enclosing : String) (target : Symbol RuleId)
    (pin : Option Nat) : s.Leads (claim enclosing target pin) fun index s' =>
      s'.builder = s.builder ∧ s'.claims = (target, index) :: s.claims := by
  unfold Leads
  rcases claim_cases enclosing target pin s with ⟨failure, h⟩ | ⟨index, hnew, h⟩
  · rw [h]
    exact ⟨.refl _, hs⟩
  · rw [h]
    exact ⟨.refl _, ⟨hs.nodes, hs.indexed, List.nodup_cons.2 ⟨hnew, hs.claims⟩⟩, rfl, rfl⟩

theorem resolve_leads (hs : s.Sound) (symbol : Symbol String) :
    s.Leads (resolve symbol) fun target s' =>
      (∀ r, target = .rule r → r < s'.builder.slots.size) ∧ s'.claims = s.claims := by
  cases symbol with
  | terminal kind => exact .pure hs ⟨nofun, rfl⟩
  | rule name =>
    refine .bind (mention_leads hs name) fun r s' _ hs' ⟨hr, hclaims⟩ => .pure hs' ⟨?_, hclaims⟩
    rintro _ ⟨⟩
    exact hr

theorem separator_leads (hs : s.Sound) (enclosing : String) (kind : Terminal) :
    s.Leads (separator enclosing kind) fun sep s' =>
      s'.Has sep.node ∧ s'.claims = (.terminal sep.kind, sep.occurrence) :: s.claims := by
  refine .bind (claim_leads hs enclosing (.terminal kind) none)
    fun occurrence s₁ _ hs₁ ⟨_, hclaims⟩ => ?_
  refine .bind (number_leads hs₁ (fun _ => rfl) nofun nofun)
    fun leaf s₂ _ hs₂ ⟨hleaf, hclaims', hnode⟩ => .pure hs₂ ⟨?_, hclaims'.trans hclaims⟩
  subst hnode
  exact hleaf

mutual

/-- Lowering claims the leaves of the tree that it makes, the last one being the newest. -/
theorem lower_leads (enclosing : String) : ∀ (e : Expr) {s : Lowering}, s.Sound →
    s.Leads (lower enclosing e) fun n s' => s'.Has n ∧ s'.claims = n.leaves.reverse ++ s.claims
  | .leaf symbol pin, s, hs => by
    unfold lower
    refine .bind (resolve_leads hs symbol) fun target s₁ _ hs₁ ⟨htarget, hclaims₁⟩ => ?_
    refine .bind (claim_leads hs₁ enclosing target pin)
      fun occurrence s₂ _ hs₂ ⟨hbuilder, hclaims₂⟩ => ?_
    have hresolved {i j r o} (h : Node.leaf i target occurrence = .leaf j (.rule r) o) :
        r < s₂.builder.slots.size := by
      cases h
      exact hbuilder ▸ htarget r rfl
    refine .imp (number_leads hs₂ (fun _ => rfl) nofun hresolved) ?_
    rintro n s' ⟨hn, hclaims, rfl⟩
    exact ⟨hn, by rw [hclaims, hclaims₂, hclaims₁]; rfl⟩
  | .group shape items, s, hs => by
    unfold lower
    refine .bind (lowerItems_leads enclosing items hs) fun ns s₁ _ hs₁ ⟨hns, hclaims₁⟩ => ?_
    refine .imp (number_leads hs₁ (fun _ => rfl) (fun _ => hns) nofun) ?_
    rintro n s' ⟨hn, hclaims, rfl⟩
    exact ⟨hn, hclaims.trans hclaims₁⟩
  | .loop kind body none, s, hs => by
    unfold lower
    refine .bind (lower_leads enclosing body hs) fun b s₁ _ hs₁ ⟨hb, hclaims₁⟩ => ?_
    refine .imp (number_leads hs₁ (fun _ => rfl) (fun _ => List.forall_mem_singleton.2 hb) nofun) ?_
    rintro n s' ⟨hn, hclaims, rfl⟩
    exact ⟨hn, by simp [hclaims, hclaims₁, Node.leaves]⟩
  | .loop kind body (some sep), s, hs => by
    unfold lower
    refine .bind (lower_leads enclosing body hs) fun b s₁ _ hs₁ ⟨hb, hclaims₁⟩ => ?_
    refine .bind (separator_leads hs₁ enclosing sep) fun sep s₂ hg₂ hs₂ ⟨hsep, hclaims₂⟩ => ?_
    have hchildren : ∀ c ∈ [b, sep.node], s₂.Has c :=
      List.forall_mem_cons.2 ⟨hb.grows hg₂, List.forall_mem_singleton.2 hsep⟩
    refine .imp (number_leads hs₂ (fun _ => rfl) (fun _ => hchildren) nofun) ?_
    rintro n s' ⟨hn, hclaims, rfl⟩
    exact ⟨hn, by simp [hclaims, hclaims₂, hclaims₁, Node.leaves]⟩

theorem lowerItems_leads (enclosing : String) : ∀ (es : List Expr) {s : Lowering}, s.Sound →
    s.Leads (lowerItems enclosing es) fun ns s' =>
      (∀ n ∈ ns, s'.Has n) ∧ s'.claims = (Node.itemLeaves ns).reverse ++ s.claims
  | [], s, hs => .pure hs ⟨nofun, rfl⟩
  | e :: es, s, hs => by
    unfold lowerItems
    refine .bind (lower_leads enclosing e hs) fun n s₁ _ hs₁ ⟨hn, hclaims₁⟩ => ?_
    refine .bind (lowerItems_leads enclosing es hs₁) fun ns s₂ hg₂ hs₂ ⟨hns, hclaims₂⟩ => ?_
    refine .pure hs₂ ⟨List.forall_mem_cons.2 ⟨hn.grows hg₂, hns⟩, ?_⟩
    rw [hclaims₂, hclaims₁, Node.itemLeaves, List.reverse_append, List.append_assoc]

end

end Lowering

end Descent
