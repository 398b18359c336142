import Descent.Proofs.Grammar.Numbering

/-!
# Histories of a builder

A history is a list of calls, each of which may succeed or fail (`Builder.afterAll`). What a call
leaves extends what was there (`Builder.Extends`): nodes, names and kinds are added at the end, and a
rule that has a body keeps it. One call gives a body to one rule at most (`Builder.FillsOne`). So a
number that a name has got, the tree below a node and the body of a rule are the same after every
later history (`Reached.afterAll_extends`).

Whether a declaration is refused depends on nothing but whether its rule has a body
(`rule_of_declared`, `rule_of_undeclared`).
-/

namespace Descent

namespace Builder

/-! ## Calls -/

/-- A call that may change a builder. -/
inductive Call where
  | terminal (name : String)
  | declare (name : String)
  | rule (name : String) (body : Expr) (resync : Bool)

/-- The builder that a call leaves, whether it succeeds or fails. -/
def after (b : Builder) : Call → Builder
  | .terminal nm =>
    match b.terminal nm with
    | .ok (_, b') => b'
    | .error _ => b
  | .declare nm => (b.declare nm).2
  | .rule nm body resync =>
    match Builder.rule nm body resync b with
    | .ok _ b' | .error _ b' => b'

/-- The builder that calls leave, one after the other. -/
def afterAll (b : Builder) (calls : List Call) : Builder := calls.foldl after b

variable {b b' b'' : Builder} {nm : String}

theorem afterAll_concat (b : Builder) (calls : List Call) (c : Call) :
    b.afterAll (calls ++ [c]) = (b.afterAll calls).after c := by
  simp [afterAll]

theorem Reached.after (h : b.Reached) (c : Call) : (b.after c).Reached := by
  cases c with
  | terminal nm =>
    unfold Builder.after
    dsimp only
    split
    next hok => exact h.terminal hok
    next => exact h
  | declare nm => exact h.declare
  | rule nm body resync =>
    unfold Builder.after
    dsimp only
    split
    next hok => exact h.ruleAdded hok
    next herr => exact h.ruleFailed herr

theorem Reached.afterAll (h : b.Reached) (calls : List Call) : (b.afterAll calls).Reached := by
  induction calls generalizing b with
  | nil => exact h
  | cons c calls ih => exact ih (h.after c)

/-! ## What declarations do -/

theorem isDefined_of_slot (hslot : b.slots[r]? = some slot) :
    b.isDefined r = slot.definition.isSome := by
  simp [isDefined, hslot]

/-! ## What calls keep -/

/-- The second builder has all that the first one has: the nodes, names and kinds under the same
numbers, and the bodies of rules. -/
structure Extends (b b' : Builder) : Prop where
  nodes : b.nodes.toList <+: b'.nodes.toList
  names : b.names <+: b'.names
  numbers : ∀ {nm r}, b.ruleId? nm = some r → b'.ruleId? nm = some r
  kinds : b.registry.names.toList <+: b'.registry.names.toList
  kindsByName : ∀ {nm kind}, b.registry.kind? nm = some kind → b'.registry.kind? nm = some kind
  bodies : ∀ {r : RuleId} {slot : Slot} {d}, b.slots[r]? = some slot → slot.definition = some d →
    b'.slots[r]? = some slot

/-- A rule gets its body between the two builders. -/
def Fills (b b' : Builder) (r : RuleId) : Prop := b.isDefined r = false ∧ b'.isDefined r = true

/-- One rule at most gets its body between the two builders. -/
def FillsOne (b b' : Builder) : Prop := ∀ r r', b.Fills b' r → b.Fills b' r' → r = r'

namespace Extends

theorem refl (b : Builder) : b.Extends b :=
  ⟨List.prefix_rfl, List.prefix_rfl, id, List.prefix_rfl, id, fun hslot _ => hslot⟩

theorem trans (h : b.Extends b') (h' : b'.Extends b'') : b.Extends b'' where
  nodes := h.nodes.trans h'.nodes
  names := h.names.trans h'.names
  numbers := h'.numbers ∘ h.numbers
  kinds := h.kinds.trans h'.kinds
  kindsByName := h'.kindsByName ∘ h.kindsByName
  bodies hslot hd := h'.bodies (h.bodies hslot hd) hd

end Extends

/-- What stands in a list stands in the same place of a longer one. -/
theorem getElem?_of_isPrefix {l l' : List α} {i : Nat} (h : l <+: l') (hx : l[i]? = some x) :
    l'[i]? = some x := by
  obtain ⟨hi, rfl⟩ := List.getElem?_eq_some_iff.1 hx
  exact List.prefix_iff_getElem?.1 h i hi

namespace Extends

variable {r : RuleId}

theorem node (h : b.Extends b') {i : NodeId} {n : Node} (hn : b.nodes[i]? = some n) :
    b'.nodes[i]? = some n := by
  rw [← Array.getElem?_toList] at hn ⊢
  exact getElem?_of_isPrefix h.nodes hn

end Extends

theorem Grows.names_isPrefix (h : b.Grows b') : b.names <+: b'.names := by
  obtain ⟨added, hadded, -⟩ := h.slots
  exact ⟨added.map Slot.name, by simp [Builder.names, ← hadded]⟩

theorem Grows.extends (h : b.Grows b') : b.Extends b' where
  nodes := h.nodes
  names := h.names_isPrefix
  numbers := h.numbers
  kinds := h.registry ▸ List.prefix_rfl
  kindsByName := h.registry ▸ id
  bodies hslot _ := h.slot hslot

theorem isDefined_iff {r : RuleId} : b.isDefined r = true ↔
    ∃ slot d, b.slots[r]? = some slot ∧ slot.definition = some d := by
  unfold isDefined
  rw [Option.isSome_iff_exists]
  simp only [Option.bind_eq_some_iff]
  exact exists_comm

/-- Filling a slot that has no body keeps what is there. -/
theorem extends_define (hslot : b.slots[r]? = some slot) (hempty : slot.definition = none)
    (d : Rule) : b.Extends (b.define r d) where
  nodes := List.prefix_rfl
  names := define_names b r d ▸ List.prefix_rfl
  numbers := id
  kinds := List.prefix_rfl
  kindsByName := id
  bodies {r' slot' d'} hslot' hd := by
    have hne : r ≠ r' := by
      rintro rfl
      obtain rfl := Option.some.inj (hslot.symm.trans hslot')
      rw [hempty] at hd
      cases hd
    rwa [define_slot, if_neg hne]

/-- The slot that a declaration fills: it has the name of the rule and no body. -/
theorem Indexed.exists_empty_slot (hi : b.Indexed) (h : b.isDeclared nm = false)
    (hg : (b.declare nm).2.Grows b') :
    b'.slots[(b.declare nm).1]? = some { name := nm, definition := none } := by
  obtain ⟨⟨name, definition⟩, hslot, rfl⟩ := hi.declare_slot nm
  rw [← isDefined_declare, isDefined_of_slot hslot] at h
  obtain rfl : definition = none := by simpa using h
  exact hg.slot hslot

/-- Registering a kind adds its name after all others. -/
theorem extends_terminal (h : b.terminal nm = .ok (kind, b')) :
    b.Extends b' ∧ b'.slots = b.slots := by
  obtain ⟨registry, hregister, rfl⟩ := terminal_eq_ok h
  obtain ⟨hnew, -, rfl⟩ := Registry.register_eq_ok hregister
  refine ⟨⟨List.prefix_rfl, List.prefix_rfl, id, by simp, ?_, fun hslot _ => hslot⟩, rfl⟩
  intro nm' kind' hkind
  have hne : nm' ≠ nm := by
    rintro rfl
    cases hnew.symm.trans hkind
  exact (Indexes.lookup_cons_of_ne _ _ hne).trans hkind

/-- What a declaration of a rule without a body can do: it fails and has only added to the builder,
or it has added to the builder and fills the slot of the rule. -/
theorem Reached.rule_growth (h : b.Reached) (hnew : b.isDeclared nm = false) (body : Expr)
    (resync : Bool) :
    (∃ failure b', Builder.rule nm body resync b = .error failure b' ∧ b.Grows b') ∨
      ∃ grown node, b.Grows grown ∧
        grown.slots[(b.declare nm).1]? = some { name := nm, definition := none } ∧
        Builder.rule nm body resync b = .ok (b.declare nm).1
          (grown.define (b.declare nm).1 { name := nm, body := node, resync }) := by
  have hgrows := (h.sound.declare nm).lower_grows nm body
  rw [rule_of_undeclared hnew]
  cases hlower : Lowering.lower nm body { builder := (b.declare nm).2 } with
  | error failure s =>
    rw [hlower] at hgrows
    exact .inl ⟨failure, s.builder, rfl, (b.declare_grows nm).trans hgrows⟩
  | ok node s =>
    rw [hlower] at hgrows
    exact .inr ⟨s.builder, node, (b.declare_grows nm).trans hgrows,
      h.sound.indexed.exists_empty_slot hnew hgrows, rfl⟩

theorem after_of_ok (h : Builder.rule nm body resync b = .ok r b') :
    b.after (.rule nm body resync) = b' := by
  simp only [after, h]

theorem after_of_error {failure : Failure} (h : Builder.rule nm body resync b = .error failure b') :
    b.after (.rule nm body resync) = b' := by
  simp only [after, h]

/-- A call extends the builder. -/
theorem Reached.after_extends (h : b.Reached) (c : Call) : b.Extends (b.after c) := by
  cases c with
  | terminal nm =>
    unfold Builder.after
    dsimp only
    split
    next hok => exact (extends_terminal hok).1
    next => exact .refl b
  | declare nm => exact (b.declare_grows nm).extends
  | rule nm body resync =>
    cases hdeclared : b.isDeclared nm with
    | true =>
      rw [after_of_error (rule_of_declared hdeclared ..)]
      exact .refl b
    | false =>
      rcases h.rule_growth hdeclared body resync with ⟨failure, b', hrule, hgrows⟩ |
        ⟨grown, node, hgrows, hslot, hrule⟩
      · rw [after_of_error hrule]
        exact hgrows.extends
      · rw [after_of_ok hrule]
        exact hgrows.extends.trans (extends_define hslot rfl _)

/-- A rule that has a body after a call had it before, or the call has declared it. -/
theorem Reached.body_cases (h : b.Reached) (c : Call) (hslot : (b.after c).slots[r]? = some slot)
    (hd : slot.definition = some d) : b.slots[r]? = some slot ∨ ∃ nm body resync,
      c = .rule nm body resync ∧ b.isDeclared nm = false ∧
        Builder.rule nm body resync b = .ok r (b.after c) := by
  cases c with
  | terminal nm =>
    left
    unfold Builder.after at hslot
    dsimp only at hslot
    split at hslot
    next hok => exact (extends_terminal hok).2 ▸ hslot
    next => exact hslot
  | declare nm => exact .inl ((b.declare_grows nm).slot_of_defined hslot hd)
  | rule nm body resync =>
    cases hdeclared : b.isDeclared nm with
    | true =>
      rw [after_of_error (rule_of_declared hdeclared ..)] at hslot
      exact .inl hslot
    | false =>
      rcases h.rule_growth hdeclared body resync with ⟨failure, b', hrule, hgrows⟩ |
        ⟨grown, node, hgrows, -, hrule⟩
      · rw [after_of_error hrule] at hslot
        exact .inl (hgrows.slot_of_defined hslot hd)
      · rw [after_of_ok hrule] at hslot ⊢
        by_cases hr : (b.declare nm).1 = r
        · exact .inr ⟨nm, body, resync, rfl, hdeclared, hr ▸ hrule⟩
        · rw [define_slot, if_neg hr] at hslot
          exact .inl (hgrows.slot_of_defined hslot hd)

/-- A call gives a body to one rule at most. -/
theorem Reached.after_fillsOne (h : b.Reached) (c : Call) : b.FillsOne (b.after c) := by
  -- it is the rule that the call returns
  have hfilled {r} (hr : b.Fills (b.after c) r) : ∃ nm body resync, c = .rule nm body resync ∧
      Builder.rule nm body resync b = .ok r (b.after c) := by
    obtain ⟨hbefore, hafter⟩ := hr
    obtain ⟨slot, d, hslot, hd⟩ := isDefined_iff.1 hafter
    rcases h.body_cases c hslot hd with hslot | ⟨nm, body, resync, hc, -, hok⟩
    · rw [isDefined_iff.2 ⟨slot, d, hslot, hd⟩] at hbefore
      cases hbefore
    · exact ⟨nm, body, resync, hc, hok⟩
  intro r r' hr hr'
  obtain ⟨nm, body, resync, rfl, hok⟩ := hfilled hr
  obtain ⟨_, _, _, hc, hok'⟩ := hfilled hr'
  cases hc
  rw [hok] at hok'
  cases hok'
  rfl

/-- What holds at the start and is left by every call holds of every builder that is reached. -/
@[elab_as_elim]
theorem Reached.callInduction {I : Builder → Prop} {b : Builder} (h : b.Reached)
    (start : ∀ nm, I { name := nm }) (step : ∀ {b} c, b.Reached → I b → I (b.after c)) : I b := by
  refine h.invariant start ?_ (fun nm hb ih => step (.declare nm) hb ih) ?_
  · intro b b' nm kind hb ih hok
    have hstep := step (.terminal nm) hb ih
    simpa only [Builder.after, hok] using hstep
  · intro b nm body resync hb ih
    have hstep := step (.rule nm body resync) hb ih
    cases hrule : Builder.rule nm body resync b with
    | ok r b' => exact after_of_ok hrule ▸ hstep
    | error failure b' => exact after_of_error hrule ▸ hstep

theorem Reached.afterAll_extends (h : b.Reached) (calls : List Call) :
    b.Extends (b.afterAll calls) := by
  induction calls generalizing b with
  | nil => exact .refl b
  | cons c calls ih => exact (h.after_extends c).trans (ih (h.after c))

/-- A rule that has a body now has it in every grammar that is built later. -/
theorem Reached.rule_of_build {r : RuleId} (h : b.Reached) (hslot : b.slots[r]? = some slot)
    (hd : slot.definition = some d) (hbuild : (b.afterAll calls).build = .ok g) :
    g.rules[r]? = some d := by
  obtain ⟨-, hsize, hrules⟩ := build_eq_ok hbuild
  have hlater := (h.afterAll_extends calls).bodies hslot hd
  have hr : r < g.rules.size := hsize ▸ (Array.getElem?_eq_some_iff.1 hlater).1
  obtain ⟨slot', hslot', hd'⟩ := hrules (Array.getElem?_eq_getElem hr)
  obtain rfl := Option.some.inj (hlater.symm.trans hslot')
  rw [Array.getElem?_eq_getElem hr, ← hd', hd]

end Builder

end Descent
