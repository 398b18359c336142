import Descent.Proofs.Grammar.WellFormed

/-!
# Rule bodies are roots

Lowering takes the trees it has made and puts them below a new node, each of them once. What is not
put below a node stays free of parents (`Unattached`), and that is where rule bodies come from: no
rule body is a child of a node of the table, not even of a node that a failed declaration left
behind, and no two rules have the same body (`Grammar.Built.rooted`).
-/

namespace Descent

/-- The numbers of all children in a table, of each node as many as it has. -/
def childIds (nodes : Array Node) : List NodeId :=
  nodes.toList.flatMap fun n => n.children.map Node.id

theorem mem_childIds {nodes : Array Node} {j : NodeId} (h : j ∈ childIds nodes) :
    ∃ (i : NodeId) (n : Node), nodes[i]? = some n ∧ ∃ c ∈ n.children, c.id = j := by
  obtain ⟨n, hn, hj⟩ := List.mem_flatMap.1 h
  obtain ⟨i, hi⟩ := List.mem_iff_getElem?.1 hn
  exact ⟨i, n, by rwa [← Array.getElem?_toList], List.mem_map.1 hj⟩

/-- The nodes with these numbers are in the table, and none of them is a child of another one
there. Children are numbered before their parents, and each of them is a child once. -/
structure Unattached (nodes : Array Node) (ids : List NodeId) : Prop where
  below : ∀ {i : NodeId} {n : Node}, nodes[i]? = some n → ∀ c ∈ n.children, c.id < i
  once : (childIds nodes).Nodup
  bound : ∀ i ∈ ids, i < nodes.size
  nodup : ids.Nodup
  apart : ∀ {i : NodeId} {n : Node}, nodes[i]? = some n → ∀ c ∈ n.children, c.id ∉ ids

namespace Unattached

variable {nodes : Array Node} {ids ids' : List NodeId} {n : Node}

theorem inside (h : Unattached nodes ids) {i : NodeId} (hn : nodes[i]? = some n) :
    ∀ c ∈ n.children, c.id < nodes.size :=
  fun c hc => (h.below hn c hc).trans (Array.getElem?_eq_some_iff.1 hn).1

theorem sublist (h : Unattached nodes ids) (hsub : List.Sublist ids' ids) :
    Unattached nodes ids' where
  below := h.below
  once := h.once
  bound i hi := h.bound i (hsub.subset hi)
  nodup := h.nodup.sublist hsub
  apart hn c hc hi := h.apart hn c hc (hsub.subset hi)

theorem once_push (h : Unattached nodes (ids ++ n.children.map Node.id)) :
    (childIds (nodes.push n)).Nodup := by
  have hpush : childIds (nodes.push n) = childIds nodes ++ n.children.map Node.id := by
    simp [childIds]
  rw [hpush]
  refine List.nodup_append.2 ⟨h.once, (List.nodup_append.1 h.nodup).2.1, ?_⟩
  rintro j hj _ hmem rfl
  obtain ⟨i, m, hm, c, hc, rfl⟩ := mem_childIds hj
  exact h.apart hm c hc (List.mem_append_right ids hmem)

/-- A new node takes its children from the free ones and is free itself. -/
theorem push (h : Unattached nodes (ids ++ n.children.map Node.id)) :
    Unattached (nodes.push n) (ids ++ [nodes.size]) := by
  obtain ⟨hids, -, hdisjoint⟩ := List.nodup_append.1 h.nodup
  have hchild : ∀ c ∈ n.children, c.id < nodes.size ∧ c.id ∉ ids := by
    intro c hc
    have hmem : c.id ∈ n.children.map Node.id := List.mem_map_of_mem hc
    exact ⟨h.bound _ (List.mem_append_right ids hmem), fun hi => hdisjoint _ hi _ hmem rfl⟩
  have hold : ∀ {i : NodeId} {m : Node}, (nodes.push n)[i]? = some m →
      ∀ c ∈ m.children, c.id < nodes.size ∧ c.id ∉ ids := by
    intro i m hm c hc
    rw [Array.getElem?_push] at hm
    split at hm
    · cases hm
      exact hchild c hc
    · exact ⟨h.inside hm c hc, fun hi => h.apart hm c hc (List.mem_append_left _ hi)⟩
  have hsize : nodes.size < (nodes.push n).size := by simp
  have hbound : ∀ i ∈ ids, i < nodes.size := fun i hi => h.bound i (List.mem_append_left _ hi)
  refine ⟨?_, h.once_push, ?_, ?_, ?_⟩
  · intro i m hm c hc
    rw [Array.getElem?_push] at hm
    split at hm
    next hi =>
      cases hm
      exact hi ▸ (hchild c hc).1
    next => exact h.below hm c hc
  · intro i hi
    rcases List.mem_append.1 hi with hi | hi
    · exact (hbound i hi).trans hsize
    · exact List.mem_singleton.1 hi ▸ hsize
  · refine List.nodup_append.2 ⟨hids, List.nodup_singleton _, fun i hi j hj => ?_⟩
    exact List.mem_singleton.1 hj ▸ (hbound i hi).ne
  · intro i m hm c hc hi
    obtain ⟨hlt, hnot⟩ := hold hm c hc
    rcases List.mem_append.1 hi with hi | hi
    · exact hnot hi
    · exact hlt.ne (List.mem_singleton.1 hi)

end Unattached

/-! ## Lowering -/

namespace Lowering

/-- Started from `s`, the step leaves these nodes free whatever comes of it, and where it succeeds
also those of its result. -/
def Frees (s : Lowering) (m : LowerM α) (ids : List NodeId) (new : α → List NodeId) : Prop :=
  match m s with
  | .ok a s' => Unattached s'.builder.nodes (ids ++ new a)
  | .error _ s' => Unattached s'.builder.nodes ids

variable {s : Lowering} {ids : List NodeId}

theorem Frees.pure (h : Unattached s.builder.nodes (ids ++ new a)) : s.Frees (pure a) ids new := h

theorem Frees.bind {m : LowerM α} {f : α → LowerM β} (h : s.Frees m ids new)
    (hf : ∀ a (s' : Lowering), Unattached s'.builder.nodes (ids ++ new a) →
      s'.Frees (f a) ids new') : s.Frees (m >>= f) ids new' := by
  change match EStateM.bind m f s with | .ok .. => _ | .error .. => _
  unfold Frees at h
  unfold EStateM.bind
  cases hm : m s with
  | error failure s' =>
    rw [hm] at h
    exact h
  | ok a s' =>
    rw [hm] at h
    exact hf a s' h

/-- More nodes may be known to be free. -/
theorem Frees.weaken {m : LowerM α} (h : s.Frees m (ids ++ more) new) :
    s.Frees m ids fun a => more ++ new a := by
  unfold Frees at h ⊢
  split at h
  · rwa [List.append_assoc] at h
  · exact h.sublist (List.sublist_append_left ids more)

theorem number_frees {node : NodeId → Node} (hid : ∀ i, (node i).id = i)
    (h : ∀ i, Unattached s.builder.nodes (ids ++ (node i).children.map Node.id)) :
    s.Frees (number node) ids fun n => [n.id] := by
  have hpush := (h s.builder.nodes.size).push
  change Unattached (s.builder.nodes.push _) (ids ++ [(node s.builder.nodes.size).id])
  rwa [hid]

theorem resolve_frees (h : Unattached s.builder.nodes ids) (symbol : Symbol String) :
    s.Frees (resolve symbol) ids fun _ => [] := by
  cases symbol with
  | terminal kind => exact .pure (by simpa using h)
  | rule name =>
    change Unattached (s.builder.declare name).2.nodes (ids ++ [])
    rwa [s.builder.declare_nodes name, List.append_nil]

theorem claim_frees (h : Unattached s.builder.nodes ids) (enclosing : String)
    (target : Symbol RuleId) (pin : Option Nat) :
    s.Frees (claim enclosing target pin) ids fun _ => [] := by
  unfold Frees
  rcases claim_cases enclosing target pin s with ⟨failure, hrun⟩ | ⟨index, -, hrun⟩
  · rw [hrun]
    exact h
  · rw [hrun]
    simpa using h

theorem separator_frees (h : Unattached s.builder.nodes ids) (enclosing : String)
    (kind : Terminal) : s.Frees (separator enclosing kind) ids fun sep => [sep.id] := by
  refine .bind (claim_frees h enclosing (.terminal kind) none) fun occurrence s₁ h₁ => ?_
  exact .bind (number_frees (fun _ => rfl) fun _ => h₁) fun leaf s₂ h₂ => .pure h₂

mutual

theorem lower_frees (enclosing : String) : ∀ (e : Expr) {s : Lowering} {ids : List NodeId},
    Unattached s.builder.nodes ids → s.Frees (lower enclosing e) ids fun n => [n.id]
  | .leaf symbol pin, s, ids, h => by
    unfold lower
    refine .bind (resolve_frees h symbol) fun target s₁ h₁ => ?_
    rw [List.append_nil] at h₁
    refine .bind (claim_frees h₁ enclosing target pin) fun occurrence s₂ h₂ => ?_
    exact number_frees (fun _ => rfl) fun _ => h₂
  | .group shape items, s, ids, h => by
    unfold lower
    refine .bind (lowerItems_frees enclosing items h) fun ns s₁ h₁ => ?_
    exact number_frees (fun _ => rfl) fun _ => h₁
  | .loop kind body none, s, ids, h => by
    unfold lower
    refine .bind (lower_frees enclosing body h) fun b s₁ h₁ => ?_
    exact number_frees (fun _ => rfl) fun _ => h₁
  | .loop kind body (some sep), s, ids, h => by
    unfold lower
    refine .bind (lower_frees enclosing body h) fun b s₁ h₁ => ?_
    refine .bind (separator_frees h₁ enclosing sep).weaken fun sep s₂ h₂ => ?_
    exact number_frees (fun _ => rfl) fun _ => h₂

theorem lowerItems_frees (enclosing : String) : ∀ (es : List Expr) {s : Lowering}
    {ids : List NodeId}, Unattached s.builder.nodes ids →
      s.Frees (lowerItems enclosing es) ids fun ns => ns.map Node.id
  | [], s, ids, h => .pure (by simpa using h)
  | e :: es, s, ids, h => by
    unfold lowerItems
    refine .bind (lower_frees enclosing e h) fun n s₁ h₁ => ?_
    exact .bind (lowerItems_frees enclosing es h₁).weaken fun ns s₂ h₂ => .pure h₂

end

end Lowering

/-! ## Builders and grammars -/

namespace Builder

/-- The bodies of rules are unattached, and no two rules have the same body. -/
structure Rooted (b : Builder) (ids : List NodeId) : Prop where
  free : Unattached b.nodes ids
  mem : ∀ {r : RuleId} {slot : Slot} {d}, b.slots[r]? = some slot → slot.definition = some d →
    d.body.id ∈ ids
  distinct : ∀ {r r' : RuleId} {slot slot' : Slot} {d d'}, b.slots[r]? = some slot →
    slot.definition = some d → b.slots[r']? = some slot' → slot'.definition = some d' →
    d.body.id = d'.body.id → r = r'

variable {b b' : Builder} {ids : List NodeId}

theorem Rooted.grows (h : b.Rooted ids) (hg : b.Grows b') (hfree : Unattached b'.nodes ids) :
    b'.Rooted ids where
  free := hfree
  mem hslot hd := h.mem (hg.slot_of_defined hslot hd) hd
  distinct hslot hd hslot' hd' :=
    h.distinct (hg.slot_of_defined hslot hd) hd (hg.slot_of_defined hslot' hd') hd'

theorem Rooted.declare (h : b.Rooted ids) (nm : String) : (b.declare nm).2.Rooted ids :=
  h.grows (b.declare_grows nm) (by rw [b.declare_nodes nm]; exact h.free)

/-- Filling a slot with a tree that is free and no body yet. -/
theorem Rooted.define (h : b.Rooted ids) (hfree : Unattached b.nodes (ids ++ [d.body.id])) :
    (b.define r d).Rooted (ids ++ [d.body.id]) := by
  have hnew : d.body.id ∉ ids := fun hmem =>
    (List.nodup_append.1 hfree.nodup).2.2 _ hmem _ (List.mem_singleton_self _) rfl
  refine ⟨hfree, fun hslot hd => ?_, fun hslot hd hslot' hd' heq => ?_⟩
  · rcases slot_define_cases hslot hd with ⟨-, rfl⟩ | hslot
    · exact List.mem_append_right _ (List.mem_singleton_self _)
    · exact List.mem_append_left _ (h.mem hslot hd)
  · rcases slot_define_cases hslot hd with ⟨rfl, rfl⟩ | hold <;>
      rcases slot_define_cases hslot' hd' with ⟨rfl, rfl⟩ | hold'
    · rfl
    · exact (hnew (heq ▸ h.mem hold' hd')).elim
    · exact (hnew (heq ▸ h.mem hold hd)).elim
    · exact h.distinct hold hd hold' hd' heq

/-- Every declaration, failed or not, leaves the rule bodies free. -/
theorem Rooted.rule (h : b.Rooted ids) (hs : b.Sound) (nm : String) (body : Expr)
    (resync : Bool) : match Builder.rule nm body resync b with
    | .ok _ b' | .error _ b' => ∃ ids, b'.Rooted ids := by
  have hd := h.declare nm
  have hgrows := (hs.declare nm).lower_grows nm body
  have hfrees := Lowering.lower_frees nm body (s := { builder := (b.declare nm).2 }) hd.free
  unfold Lowering.Frees at hfrees
  rcases rule_cases nm body resync b with ⟨failure, hrule⟩ | ⟨failure, s, hrun, hrule⟩ |
    ⟨node, s, hrun, hrule⟩
  · rw [hrule]
    exact ⟨ids, h⟩
  · rw [hrule]
    rw [hrun] at hgrows hfrees
    exact ⟨ids, hd.grows hgrows hfrees⟩
  · rw [hrule]
    rw [hrun] at hgrows hfrees
    have hfree := hfrees.sublist (List.sublist_append_left ids [node.id])
    exact ⟨ids ++ [node.id], (hd.grows hgrows hfree).define hfrees⟩

theorem Reached.rooted (h : b.Reached) : ∃ ids, b.Rooted ids := by
  refine h.invariant (I := fun b => ∃ ids, b.Rooted ids) ?_ ?_ ?_ ?_
  · exact fun nm => ⟨[], ⟨nofun, List.nodup_nil, nofun, List.nodup_nil, nofun⟩, nofun, nofun⟩
  · rintro b b' nm kind _ ⟨ids, ih⟩ hok
    obtain ⟨registry, -, rfl⟩ := terminal_eq_ok hok
    exact ⟨ids, ih.free, ih.mem, ih.distinct⟩
  · rintro b nm _ ⟨ids, ih⟩
    exact ⟨ids, ih.declare nm⟩
  · rintro b nm body resync hb ⟨ids, ih⟩
    exact ih.rule hb.sound nm body resync

end Builder

namespace Grammar

/-- No rule body is a child of a node, and no two rules have the same body. -/
structure Rooted (g : Grammar) : Prop where
  apart : ∀ {i : NodeId} {n : Node} {r : RuleId} {R : Rule}, g.nodes[i]? = some n →
    g.rules[r]? = some R → ∀ c ∈ n.children, c ≠ R.body
  distinct : ∀ {r r' : RuleId} {R R' : Rule}, g.rules[r]? = some R → g.rules[r']? = some R' →
    R.body = R'.body → r = r'

theorem Built.rooted {g : Grammar} (h : g.Built) : g.Rooted := by
  obtain ⟨b, hb, hbuild⟩ := h
  obtain ⟨hnodes, -, hrules⟩ := Builder.build_eq_ok hbuild
  obtain ⟨ids, hrooted⟩ := hb.rooted
  constructor
  · rintro i n r R hn hR c hc rfl
    obtain ⟨slot, hslot, hd⟩ := hrules hR
    exact hrooted.free.apart (hnodes ▸ hn) R.body hc (hrooted.mem hslot hd)
  · intro r r' R R' hR hR' heq
    obtain ⟨slot, hslot, hd⟩ := hrules hR
    obtain ⟨slot', hslot', hd'⟩ := hrules hR'
    exact hrooted.distinct hslot hd hslot' hd' (congrArg Node.id heq)

end Grammar

end Descent
