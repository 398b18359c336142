import Descent.Grammar.Draft
import Descent.Proofs.Grammar.Lowering

/-!
# Built grammars are well formed

`Builder.Reached` is the set of builders that some history of calls leads to, each of which may
succeed or fail, and `Grammar.Built` the set of grammars that such a builder closes to. Every
built grammar is well formed (`Grammar.Built.wellFormed`): its node table holds each node under its
own number together with all nodes below it, also below nodes of failed declarations; references
lead to rules of the grammar; and no two leaves of a rule body have both target and occurrence
index in common.
-/

namespace Descent

/-! ## Histories of a builder -/

namespace Builder

/-- The builders that some history of calls leads to. A call that fails may leave changes behind. -/
inductive Reached : Builder → Prop where
  | start (nm : String) : Reached { name := nm }
  | terminal : Reached b → Builder.terminal nm b = .ok (kind, b') → Reached b'
  | declare : Reached b → Reached (Builder.declare nm b).2
  | ruleAdded : Reached b → Builder.rule nm body resync b = .ok r b' → Reached b'
  | ruleFailed {failure : Failure} : Reached b → Builder.rule nm body resync b = .error failure b' →
    Reached b'

/-- Nodes and names are in order. A rule has the name of its slot, and its body stands in the node
table and has distinct leaves. -/
structure Sound (b : Builder) : Prop where
  nodes : NodesWF b.nodes b.slots.size
  indexed : b.Indexed
  titled : ∀ {r : RuleId} {slot : Slot} {d}, b.slots[r]? = some slot → slot.definition = some d →
    d.name = slot.name
  bodies : ∀ {r : RuleId} {slot : Slot} {d}, b.slots[r]? = some slot → slot.definition = some d →
    b.nodes[d.body.id]? = some d.body ∧ d.body.leaves.Nodup

variable {b b' : Builder} {r r' : RuleId} {slot : Slot} {d d' : Rule}

theorem Sound.grows (h : b.Sound) (hg : b.Grows b') (hnodes : NodesWF b'.nodes b'.slots.size) :
    b'.Sound where
  nodes := hnodes
  indexed := hg.indexed h.indexed
  titled hslot hd := h.titled (hg.slot_of_defined hslot hd) hd
  bodies hslot hd := by
    obtain ⟨hbody, hleaves⟩ := h.bodies (hg.slot_of_defined hslot hd) hd
    exact ⟨hg.node hbody, hleaves⟩

theorem Sound.declare (h : b.Sound) (nm : String) : (b.declare nm).2.Sound := by
  have hg := b.declare_grows nm
  refine h.grows hg ?_
  rw [b.declare_nodes nm]
  exact h.nodes.mono hg.slots_size_le

/-! ## Filling a slot -/

theorem define_slot (b : Builder) (r r' : RuleId) (d : Rule) :
    (b.define r d).slots[r']? =
      if r = r' then b.slots[r']?.map (·.define d) else b.slots[r']? :=
  Array.getElem?_modify

theorem define_slots_size (b : Builder) (r : RuleId) (d : Rule) :
    (b.define r d).slots.size = b.slots.size :=
  Array.size_modify

/-- Filling a slot leaves its name. -/
theorem define_names (b : Builder) (r : RuleId) (d : Rule) : (b.define r d).names = b.names := by
  refine List.ext_getElem? fun r' => ?_
  simp only [names, List.getElem?_map, Array.getElem?_toList, define_slot]
  split
  next => cases b.slots[r']? <;> rfl
  next => rfl

/-- A rule that has a body after a slot is filled is the one that has got it, or had it before. -/
theorem slot_define_cases (hslot : (b.define r d).slots[r']? = some slot)
    (hd : slot.definition = some d') : r' = r ∧ d' = d ∨ b.slots[r']? = some slot := by
  rw [define_slot] at hslot
  split at hslot
  next hr =>
    obtain ⟨old, -, rfl⟩ := Option.map_eq_some_iff.1 hslot
    cases hd
    exact .inl ⟨hr.symm, rfl⟩
  next => exact .inr hslot

/-- Filling the slot of a rule with a tree of the node table that has distinct leaves. -/
theorem Sound.define (h : b.Sound) (hslot : b.slots[r]? = some slot) (hname : slot.name = d.name)
    (hbody : b.nodes[d.body.id]? = some d.body) (hleaves : d.body.leaves.Nodup) :
    (b.define r d).Sound where
  nodes := by
    rw [define_slots_size]
    exact h.nodes
  indexed := by
    unfold Indexed
    rw [define_names]
    exact h.indexed
  titled {r' slot' d'} hslot' hd := by
    rcases slot_define_cases hslot' hd with ⟨rfl, rfl⟩ | hold
    · rw [define_slot, if_pos rfl, hslot] at hslot'
      cases hslot'
      exact hname.symm
    · exact h.titled hold hd
  bodies hslot' hd := by
    rcases slot_define_cases hslot' hd with ⟨rfl, rfl⟩ | hold
    · exact ⟨hbody, hleaves⟩
    · exact h.bodies hold hd

/-! ## Declarations -/

/-- A rule is declared if the slot that belongs to its name has a body. -/
theorem isDefined_declare (nm : String) (b : Builder) :
    (b.declare nm).2.isDefined (b.declare nm).1 = b.isDeclared nm := by
  obtain ⟨r, hid, heq⟩ | ⟨hnew, heq⟩ := b.declare_cases nm
  · simp [heq, isDeclared, hid]
  · simp [heq, isDeclared, hnew, isDefined]

/-- Mentioning a rule that is declared changes nothing. -/
theorem declare_of_declared (h : b.isDeclared nm = true) : (b.declare nm).2 = b := by
  obtain ⟨r, -, heq⟩ | ⟨hnew, -⟩ := b.declare_cases nm
  · rw [heq]
  · simp [isDeclared, hnew] at h

/-- A rule that is declared is refused, and the builder stays as it is. -/
theorem rule_of_declared (h : b.isDeclared nm = true) (body : Expr) (resync : Bool) :
    Builder.rule nm body resync b = .error (.malformed (.duplicateRule b.name nm)) b := by
  unfold Builder.rule
  dsimp only
  rw [if_pos (by rwa [isDefined_declare]), declare_of_declared h]

/-- A rule that has no body gets one if its body can be lowered. -/
theorem rule_of_undeclared (h : b.isDeclared nm = false) (body : Expr) (resync : Bool) :
    Builder.rule nm body resync b =
      match Lowering.lower nm body { builder := (b.declare nm).2 } with
      | .error failure s => .error failure s.builder
      | .ok node s => .ok (b.declare nm).1
          (s.builder.define (b.declare nm).1 { name := nm, body := node, resync }) := by
  have hempty : ¬ (b.declare nm).2.isDefined (b.declare nm).1 = true := by
    rw [isDefined_declare, h]
    exact Bool.false_ne_true
  unfold Builder.rule
  dsimp only
  refine (if_neg hempty).trans ?_
  cases Lowering.lower nm body { builder := (b.declare nm).2 } <;> rfl

/-- What a declaration can do: it refuses a name that has a body and leaves the builder alone; it
fails while lowering; or it fills the slot of its name. -/
theorem rule_cases (nm : String) (body : Expr) (resync : Bool) (b : Builder) :
    (∃ failure, Builder.rule nm body resync b = .error failure b) ∨
      (∃ failure s, Lowering.lower nm body { builder := (b.declare nm).2 } = .error failure s ∧
        Builder.rule nm body resync b = .error failure s.builder) ∨
      ∃ node s, Lowering.lower nm body { builder := (b.declare nm).2 } = .ok node s ∧
        Builder.rule nm body resync b = .ok (b.declare nm).1
          (s.builder.define (b.declare nm).1 { name := nm, body := node, resync }) := by
  cases hdeclared : b.isDeclared nm with
  | true => exact .inl ⟨_, rule_of_declared hdeclared body resync⟩
  | false =>
    rw [rule_of_undeclared hdeclared]
    cases h : Lowering.lower nm body { builder := (b.declare nm).2 } with
    | error failure s => exact .inr (.inl ⟨failure, s, rfl, rfl⟩)
    | ok node s => exact .inr (.inr ⟨node, s, rfl, rfl⟩)

theorem Sound.lowering (h : b.Sound) : Lowering.Sound { builder := b } :=
  ⟨h.nodes, h.indexed, List.nodup_nil⟩

/-- Lowering a body, whether it succeeds or fails, only adds to a builder. -/
theorem Sound.lower_grows (h : b.Sound) (nm : String) (body : Expr) :
    match Lowering.lower nm body { builder := b } with
    | .ok _ s | .error _ s => b.Grows s.builder := by
  have hleads := Lowering.lower_leads nm body h.lowering
  unfold Lowering.Leads at hleads
  split at hleads <;> rename_i hrun <;> rw [hrun] <;> exact hleads.1

/-- Lowering a body, whether it succeeds or fails, keeps a builder sound. -/
theorem Sound.lower (h : b.Sound) (nm : String) (body : Expr) :
    match Lowering.lower nm body { builder := b } with
    | .ok n s => s.builder.Sound ∧ s.builder.nodes[n.id]? = some n ∧ n.leaves.Nodup
    | .error _ s => s.builder.Sound := by
  have hleads := Lowering.lower_leads nm body h.lowering
  unfold Lowering.Leads at hleads
  split at hleads <;> rename_i hrun <;> rw [hrun]
  · obtain ⟨hg, hs', hn, hclaims⟩ := hleads
    refine ⟨h.grows hg hs'.nodes, hn, ?_⟩
    have hnodup := hs'.claims
    rwa [hclaims, List.append_nil, List.nodup_reverse] at hnodup
  · exact h.grows hleads.1 hleads.2.nodes

theorem Sound.rule (h : b.Sound) (nm : String) (body : Expr) (resync : Bool) :
    match Builder.rule nm body resync b with
    | .ok _ b' | .error _ b' => b'.Sound := by
  have hlower := (h.declare nm).lower nm body
  have hgrows := (h.declare nm).lower_grows nm body
  rcases rule_cases nm body resync b with ⟨failure, hrule⟩ | ⟨failure, s, hrun, hrule⟩ |
    ⟨node, s, hrun, hrule⟩
  · rw [hrule]
    exact h
  · rw [hrule]
    rw [hrun] at hlower
    exact hlower
  · rw [hrule]
    rw [hrun] at hlower hgrows
    obtain ⟨slot, hslot, hname⟩ := h.indexed.declare_slot nm
    exact hlower.1.define (hgrows.slot hslot) hname hlower.2.1 hlower.2.2

theorem terminal_eq_ok (h : b.terminal nm = .ok (kind, b')) :
    ∃ registry, b.registry.register nm = .ok (kind, registry) ∧ b' = { b with registry } := by
  unfold Builder.terminal at h
  cases hr : b.registry.register nm with
  | error error => simp [hr, bind, Except.bind] at h
  | ok added =>
    simp only [hr, bind, Except.bind, pure, Except.pure, Except.ok.injEq, Prod.mk.injEq] at h
    obtain ⟨rfl, rfl⟩ := h
    exact ⟨added.2, rfl, rfl⟩

/-- What holds at the start and is left by every call, failed or not, holds of every builder that is
reached. -/
theorem Reached.invariant {I : Builder → Prop} (start : ∀ nm, I { name := nm })
    (terminal : ∀ {b b' nm kind}, b.Reached → I b → Builder.terminal nm b = .ok (kind, b') → I b')
    (declare : ∀ {b} nm, b.Reached → I b → I (Builder.declare nm b).2)
    (rule : ∀ {b} nm body resync, b.Reached → I b → match Builder.rule nm body resync b with
      | .ok _ b' | .error _ b' => I b') (h : b.Reached) : I b := by
  induction h with
  | start nm => exact start nm
  | terminal hb hok ih => exact terminal hb ih hok
  | declare hb ih => exact declare _ hb ih
  | @ruleAdded _ nm body resync _ _ hb hok ih =>
    have hrule := rule nm body resync hb ih
    rwa [hok] at hrule
  | @ruleFailed _ nm body resync _ _ hb herr ih =>
    have hrule := rule nm body resync hb ih
    rwa [herr] at hrule

/-- Every reachable builder is sound. -/
theorem Reached.sound (h : b.Reached) : b.Sound := by
  refine h.invariant ?_ ?_ (fun nm _ ih => ih.declare nm)
    (fun nm body resync _ ih => ih.rule nm body resync)
  · exact fun nm => ⟨⟨nofun, nofun, nofun⟩, fun _ _ => by simp [names], nofun, nofun⟩
  · intro b b' nm kind _ ih hok
    obtain ⟨registry, -, rfl⟩ := terminal_eq_ok hok
    exact ⟨ih.nodes, ih.indexed, ih.titled, ih.bodies⟩

end Builder

/-! ## Built grammars -/

namespace Grammar

/-- The grammars that building ends with. -/
def Built (g : Grammar) : Prop := ∃ b : Builder, b.Reached ∧ b.build = .ok g

/-- The node table is in order, and the bodies of all rules stand in it, each with distinct
leaves. -/
structure WellFormed (g : Grammar) : Prop where
  nodes : NodesWF g.nodes g.rules.size
  bodies : ∀ {r : RuleId} {R : Rule}, g.rules[r]? = some R → g.nodes[R.body.id]? = some R.body
  leaves : ∀ {r : RuleId} {R : Rule}, g.rules[r]? = some R → R.body.leaves.Nodup

end Grammar

private theorem getElem?_filterMap_of_isSome {f : α → Option β} {l : List α}
    (h : ∀ a ∈ l, (f a).isSome) (i : Nat) : (l.filterMap f)[i]? = l[i]?.bind f := by
  induction l generalizing i with
  | nil => simp
  | cons a l ih =>
    obtain ⟨ha, hl⟩ := List.forall_mem_cons.1 h
    obtain ⟨b, hb⟩ := Option.isSome_iff_exists.1 ha
    rw [List.filterMap_cons_some hb]
    cases i with
    | zero => simp [hb]
    | succ i => simpa using ih hl i

/-- Closing a grammar keeps its nodes, and gives each rule the body in its slot. -/
theorem Builder.build_eq_ok {b : Builder} {g : Grammar} (h : b.build = .ok g) :
    g.nodes = b.nodes ∧ g.rules.size = b.slots.size ∧
      ∀ {r : RuleId} {R : Rule}, g.rules[r]? = some R → ∃ slot, b.slots[r]? = some slot ∧
        slot.definition = some R := by
  unfold Builder.build at h
  split at h
  next hall =>
    have hsome : ∀ slot ∈ b.slots.toList, slot.definition.isSome := by
      rwa [← Array.all_toList, List.all_eq_true] at hall
    cases h
    refine ⟨rfl, ?_, fun {r R} hR => ?_⟩
    · rw [← Array.length_toList, Array.toList_filterMap,
        List.filterMap_length_eq_length.2 hsome, Array.length_toList]
    · rw [← Array.getElem?_toList, Array.toList_filterMap, getElem?_filterMap_of_isSome hsome,
        Option.bind_eq_some_iff] at hR
      obtain ⟨slot, hslot, hR⟩ := hR
      exact ⟨slot, by rwa [← Array.getElem?_toList], hR⟩
  next => cases h

theorem Grammar.Built.wellFormed {g : Grammar} (h : g.Built) : g.WellFormed := by
  obtain ⟨b, hb, hbuild⟩ := h
  obtain ⟨hnodes, hsize, hrules⟩ := Builder.build_eq_ok hbuild
  have hsound := hb.sound
  refine ⟨hnodes ▸ hsize ▸ hsound.nodes, fun hR => ?_, fun hR => ?_⟩
  · obtain ⟨slot, hslot, hd⟩ := hrules hR
    exact hnodes ▸ (hsound.bodies hslot hd).1
  · obtain ⟨slot, hslot, hd⟩ := hrules hR
    exact (hsound.bodies hslot hd).2

/-! ## Grammars in one piece -/

namespace Draft

variable {b b' : Builder}

theorem registerAll_reached (hb : b.Reached) (h : registerAll names b = .ok b') : b'.Reached := by
  induction names generalizing b with
  | nil =>
    cases h
    exact hb
  | cons nm names ih =>
    rw [registerAll] at h
    split at h
    next hok => exact ih (hb.terminal hok) h
    next => cases h

theorem declareAll_reached (hb : b.Reached) (h : declareAll rs b = .ok b') : b'.Reached := by
  induction rs generalizing b with
  | nil =>
    cases h
    exact hb
  | cons R rs ih =>
    rw [declareAll] at h
    split at h
    next hok => exact ih (hb.ruleAdded hok) h
    next => cases h

theorem built {d : Draft} (h : d.build = .ok g) : g.Built := by
  unfold build at h
  cases hterminals : registerAll d.terminals { name := d.name } with
  | error failure => simp [hterminals, bind, Except.bind] at h
  | ok b =>
    cases hrules : declareAll d.rules b with
    | error failure => simp [hterminals, hrules, bind, Except.bind] at h
    | ok b' =>
      simp only [hterminals, hrules, bind, Except.bind] at h
      split at h
      next hbuild =>
        cases h
        exact ⟨b', declareAll_reached (registerAll_reached (.start _) hterminals) hrules, hbuild⟩
      next => cases h

end Draft

end Descent
