import Descent.Proofs.Grammar.Roots
import Descent.Sample

/-!
# Numbers and names of built grammars

The tables of a built grammar fit together, whatever calls built it and whichever of them failed.
Its nodes form a forest that is numbered from the leaves up, with the rule bodies among the roots
(`Grammar.Forest`); names of rules and numbers of rules determine one another, and so do names of
terminal kinds and registered kinds. Names are kept twice, in the order of their numbers and in a
table by name. That the two agree is an invariant of builders (`Builder.Sound`) and of registries
(`Registry.Indexed`): an entry is added to both at once, under a name that was in neither.
-/

namespace Descent

/-! ## Registered kinds -/

namespace Registry

/-- A registered name and its kind determine one another, and there is a kind for each name. -/
structure Indexed (r : Registry) : Prop where
  kinds : Indexes Fin.val r.byName r.names.toList
  bounded : r.size ≤ Terminal.capacity

variable {r r' : Registry} {kind : Terminal}

/-- What registering a name can do: a name that is taken or a full registry is refused; a new name
gets the next kind, in both tables. -/
theorem register_eq_ok (h : r.register nm = .ok (kind, r')) :
    r.kind? nm = none ∧ kind.val = r.size ∧
      r' = { names := r.names.push nm, byName := (nm, kind) :: r.byName } := by
  unfold register at h
  split at h
  next => cases h
  next hnew =>
    split at h
    next => cases h
    next _ hroom =>
      cases h
      exact ⟨by simpa using hnew, Terminal.ofIndex?_eq_some.1 hroom, rfl⟩

theorem Indexed.register (h : r.Indexed) (hok : r.register nm = .ok (kind, r')) : r'.Indexed := by
  obtain ⟨hnew, hkind, rfl⟩ := register_eq_ok hok
  constructor
  · have hpush := h.kinds.push Fin.val_injective hnew hkind
    simpa using hpush
  · have hlt : r.size < Terminal.capacity := hkind ▸ kind.isLt
    simpa [size] using hlt

theorem Indexed.nodup (h : r.Indexed) : r.names.toList.Nodup := by
  refine h.kinds.nodup fun i hi => ?_
  have hlt : i < Terminal.capacity := Nat.lt_of_lt_of_le hi h.bounded
  exact ⟨⟨i, hlt⟩, rfl⟩

/-- A name stands for the registered kind that bears it. -/
theorem Indexed.kind?_eq_some (h : r.Indexed) :
    r.kind? nm = some kind ↔ kind.val < r.size ∧ r.name kind = nm := by
  rw [kind?, h.kinds, Array.getElem?_toList, Array.getElem?_eq_some_iff]
  unfold name size
  constructor
  · rintro ⟨hlt, rfl⟩
    exact ⟨hlt, by simp [Array.getD, hlt]⟩
  · rintro ⟨hlt, rfl⟩
    exact ⟨hlt, by simp [Array.getD, hlt]⟩

-- only the invariant keeps a registry from tables that contradict each other
example : ∃ r : Registry, r.kind? "Ident" = some 1 ∧ r.name 1 = "Comma" :=
  ⟨{ names := #["Ident", "Comma"], byName := [("Ident", 1)] }, by decide⟩

end Registry

/-! ## Names of rules -/

namespace Builder

variable {b b' : Builder} {g : Grammar}

/-- Declarations leave the registry alone, failed or not. -/
theorem Sound.rule_registry (h : b.Sound) (nm : String) (body : Expr) (resync : Bool) :
    match Builder.rule nm body resync b with
    | .ok _ b' | .error _ b' => b'.registry = b.registry := by
  have hdeclare := (b.declare_grows nm).registry
  have hgrows := (h.declare nm).lower_grows nm body
  rcases rule_cases nm body resync b with ⟨failure, hrule⟩ | ⟨failure, s, hrun, hrule⟩ |
    ⟨node, s, hrun, hrule⟩
  · rw [hrule]
  · rw [hrule]
    rw [hrun] at hgrows
    exact hgrows.registry.trans hdeclare
  · rw [hrule]
    rw [hrun] at hgrows
    exact hgrows.registry.trans hdeclare

theorem Reached.registry_indexed (h : b.Reached) : b.registry.Indexed := by
  refine h.invariant (I := fun b => b.registry.Indexed) ?_ ?_ ?_ ?_
  · exact fun nm => ⟨fun _ _ => by simp, Nat.zero_le _⟩
  · intro b b' nm kind _ ih hok
    obtain ⟨registry, hregister, rfl⟩ := terminal_eq_ok hok
    exact ih.register hregister
  · intro b nm _ ih
    rwa [(b.declare_grows nm).registry]
  · intro b nm body resync hb ih
    have hsame := hb.sound.rule_registry nm body resync
    cases hrule : Builder.rule nm body resync b with
    | ok _ b' | error _ b' =>
      rw [hrule] at hsame
      exact (hsame ▸ ih : b'.registry.Indexed)

end Builder

namespace Grammar

/-- The names of the rules, in the order of their numbers. -/
def ruleNames (g : Grammar) : List String := g.rules.toList.map Rule.name

variable {g : Grammar}

theorem ruleName_eq_ok : g.ruleName r = .ok nm ↔ g.ruleNames[r]? = some nm := by
  unfold ruleName rule ruleNames
  rw [List.getElem?_map, Array.getElem?_toList]
  cases g.rules[r]? <;> simp [Except.map]

end Grammar

/-- Closing a grammar keeps what leads from names to numbers, and the terminal kinds. -/
theorem Builder.build_tables {b : Builder} {g : Grammar} (h : b.build = .ok g) :
    g.byName = b.byName ∧ g.registry = b.registry := by
  unfold build at h
  split at h
  · cases h
    exact ⟨rfl, rfl⟩
  · cases h

/-- The rules of a closed grammar have the names that were mentioned. -/
theorem Builder.Sound.build_names {b : Builder} {g : Grammar} (hs : b.Sound)
    (h : b.build = .ok g) : g.ruleNames = b.names := by
  obtain ⟨-, hsize, hrules⟩ := build_eq_ok h
  refine List.ext_getElem (by simpa [Grammar.ruleNames, names] using hsize) fun r hr _ => ?_
  simp only [Grammar.ruleNames, List.length_map, Array.length_toList] at hr
  obtain ⟨slot, hslot, hd⟩ := hrules (Array.getElem?_eq_getElem hr)
  have hname := hs.titled hslot hd
  obtain ⟨hlt, rfl⟩ := Array.getElem?_eq_some_iff.1 hslot
  simpa [Grammar.ruleNames, names] using hname

/-! ## Built grammars -/

/-- In a flattening without duplicates, an entry stands in one place of one of the lists. -/
theorem position_unique {f : α → List β} {l : List α} {i i' k k' : Nat}
    (h : (l.flatMap f).Nodup) (ha : l[i]? = some a) (ha' : l[i']? = some a')
    (hk : (f a)[k]? = some x) (hk' : (f a')[k']? = some x) : i = i' ∧ k = k' := by
  obtain ⟨hnodup, hpairwise⟩ := List.nodup_flatMap.1 h
  rw [List.pairwise_iff_getElem] at hpairwise
  obtain ⟨hi, rfl⟩ := List.getElem?_eq_some_iff.1 ha
  obtain ⟨hi', rfl⟩ := List.getElem?_eq_some_iff.1 ha'
  rcases Nat.lt_trichotomy i i' with hlt | rfl | hlt
  · exact (hpairwise _ _ hi hi' hlt (List.mem_of_getElem? hk) (List.mem_of_getElem? hk')).elim
  · have hlen := (List.getElem?_eq_some_iff.1 hk).1
    exact ⟨rfl, (List.getElem?_inj hlen (hnodup _ (List.getElem_mem hi))).1 (hk.trans hk'.symm)⟩
  · exact (hpairwise _ _ hi' hi hlt (List.mem_of_getElem? hk') (List.mem_of_getElem? hk)).elim

namespace Grammar

/-- The nodes of a grammar form a forest that is numbered from the leaves up, in which the bodies
of the rules are roots. Nodes that failed declarations left behind are part of it. -/
structure Forest (g : Grammar) : Prop where
  numbered : ∀ {i : NodeId} {n : Node}, g.nodes[i]? = some n → n.id = i
  /-- Children stand in the table, before their parents. -/
  child : ∀ {i : NodeId} {n : Node}, g.nodes[i]? = some n → ∀ c ∈ n.children,
    c.id < i ∧ g.nodes[c.id]? = some c
  /-- A node is a child in one place of one node at most. -/
  place : ∀ {i i' : NodeId} {n n' : Node} {k k' : Nat} {c c' : Node}, g.nodes[i]? = some n →
    g.nodes[i']? = some n' → n.children[k]? = some c → n'.children[k']? = some c' →
    c.id = c'.id → i = i' ∧ k = k'
  body : ∀ {r : RuleId} {R : Rule}, g.rules[r]? = some R →
    R.body.id < g.nodes.size ∧ g.nodes[R.body.id]? = some R.body
  /-- The body of a rule is no child of a node. -/
  root : ∀ {i : NodeId} {n : Node} {r : RuleId} {R : Rule}, g.nodes[i]? = some n →
    g.rules[r]? = some R → ∀ c ∈ n.children, c.id ≠ R.body.id
  /-- A node is the body of one rule at most. -/
  owner : ∀ {r r' : RuleId} {R R' : Rule}, g.rules[r]? = some R → g.rules[r']? = some R' →
    R.body.id = R'.body.id → r = r'
  resolved : ∀ {i : NodeId} {j r o}, g.nodes[i]? = some (.leaf j (.rule r) o) → r < g.rules.size
  /-- The separator of a repetition is a leaf for a token. -/
  separator : ∀ {i : NodeId} {j kind body sep},
    g.nodes[i]? = some (.loop j kind body (some sep)) →
    g.nodes[sep.id]? = some (.leaf sep.id (.terminal sep.kind) sep.occurrence)

/-- The names of the rules are those that the builder knows; a name and a number of a rule determine
one another, and the numbers of rules are those below the number of rules. -/
structure RulesNamed (g : Grammar) (b : Builder) : Prop where
  interned : ∀ nm, g.ruleId? nm = b.ruleId? nm
  mentioned : ∀ {nm}, (∃ r, g.ruleId? nm = some r) ↔ nm ∈ b.names
  inverse : ∀ {nm r}, g.ruleId? nm = some r ↔ g.ruleName r = .ok nm
  numbers : ∀ {r}, r < g.rules.size ↔ ∃ nm, g.ruleName r = .ok nm

/-- The names of the terminal kinds are distinct, there are no more than kinds, and a name and a
registered kind determine one another. -/
structure KindsNamed (g : Grammar) : Prop where
  distinct : g.registry.names.toList.Nodup
  bounded : g.registry.size ≤ Terminal.capacity
  inverse : ∀ {nm} {kind : Terminal}, g.registry.kind? nm = some kind ↔
    kind.val < g.registry.size ∧ g.registry.name kind = nm

variable {g : Grammar}

theorem Built.forest (h : g.Built) : g.Forest := by
  have hwf := h.wellFormed
  have hrooted := h.rooted
  obtain ⟨b, hb, hbuild⟩ := h
  obtain ⟨ids, hfree⟩ : ∃ ids, Unattached g.nodes ids := by
    obtain ⟨ids, hids⟩ := hb.rooted
    exact ⟨ids, (Builder.build_eq_ok hbuild).1 ▸ hids.free⟩
  have hid (n : Node) {k : Nat} {c : Node} (hc : n.children[k]? = some c) :
      (n.children.map Node.id)[k]? = some c.id := by
    rw [List.getElem?_map, hc]
    rfl
  -- a number determines the tree that stands under it
  have htree {n n' : Node} (hn : g.nodes[n.id]? = some n) (hn' : g.nodes[n'.id]? = some n')
      (heq : n.id = n'.id) : n = n' := by
    rw [heq, hn'] at hn
    exact (Option.some.inj hn).symm
  constructor
  case numbered => exact hwf.nodes.numbered
  case child => exact fun hn c hc => ⟨hfree.below hn c hc, hwf.nodes.closed hn c hc⟩
  case place =>
    intro i i' n n' k k' c c' hn hn' hc hc' heq
    rw [← Array.getElem?_toList] at hn hn'
    exact position_unique hfree.once hn hn' (hid n hc) (heq ▸ hid n' hc')
  case body =>
    intro r R hR
    have hbody := hwf.bodies hR
    exact ⟨(Array.getElem?_eq_some_iff.1 hbody).1, hbody⟩
  case root =>
    intro i n r R hn hR c hc heq
    exact hrooted.apart hn hR c hc (htree (hwf.nodes.closed hn c hc) (hwf.bodies hR) heq)
  case owner =>
    intro r r' R R' hR hR' heq
    exact hrooted.distinct hR hR' (htree (hwf.bodies hR) (hwf.bodies hR') heq)
  case resolved => exact hwf.nodes.resolved
  case separator =>
    intro i j kind body sep hn
    exact hwf.nodes.closed hn sep.node (List.mem_cons_of_mem _ (by simp))

end Grammar

namespace Builder

variable {b : Builder} {g : Grammar}

theorem Sound.rulesNamed (h : b.Sound) (hbuild : b.build = .ok g) : g.RulesNamed b := by
  have hnames := h.build_names hbuild
  have hinterned nm : g.ruleId? nm = b.ruleId? nm := by
    rw [Grammar.ruleId?, (build_tables hbuild).1, ruleId?]
  constructor
  case interned => exact hinterned
  case mentioned =>
    intro nm
    simp only [hinterned, h.indexed.ruleId?_eq_some, List.mem_iff_getElem?]
  case inverse =>
    intro nm r
    rw [hinterned, h.indexed.ruleId?_eq_some, Grammar.ruleName_eq_ok, hnames]
  case numbers =>
    intro r
    simp only [Grammar.ruleName_eq_ok, ← Option.isSome_iff_exists]
    simp [Grammar.ruleNames]

theorem Reached.kindsNamed (h : b.Reached) (hbuild : b.build = .ok g) : g.KindsNamed := by
  have hregistry := h.registry_indexed
  rw [← (build_tables hbuild).2] at hregistry
  exact ⟨hregistry.nodup, hregistry.bounded, hregistry.kind?_eq_some⟩

/-- Every grammar that is built is in order: its nodes form a forest with the rule bodies among the
roots, and names and numbers determine one another. -/
theorem built_in_order (hb : b.Reached) (hbuild : b.build = .ok g) :
    g.Forest ∧ g.RulesNamed b ∧ g.KindsNamed :=
  ⟨Grammar.Built.forest ⟨b, hb, hbuild⟩, hb.sound.rulesNamed hbuild, hb.kindsNamed hbuild⟩

/-- The builder that a declaration leaves, whether it succeeds or fails. -/
def afterRule (b : Builder) (R : DraftRule) : Builder :=
  match Builder.rule R.name R.body R.resync b with
  | .ok _ b' | .error _ b' => b'

theorem Reached.afterRules (h : b.Reached) (rs : List DraftRule) :
    (rs.foldl afterRule b).Reached := by
  induction rs generalizing b with
  | nil => exact h
  | cons R rs ih =>
    refine ih ?_
    unfold afterRule
    split
    next hok => exact h.ruleAdded hok
    next herr => exact h.ruleFailed herr

end Builder

namespace Sample

def punctuation : Registry :=
  { names := #["Ident", "Comma", "Semi"], byName := [("Semi", 2), ("Comma", 1), ("Ident", 0)] }

/-- The first declaration fails at its last leaf, whose pinned index is taken; it is made anew after
a rule that it mentioned. The next declaration of the same rule is refused. -/
def mended : Builder :=
  let call := row [token 0 none, rule "args", rule "end"]
  [{ name := "call", body := row [rule "args", token 0 (some 1), token 0 (some 1)] },
    { name := "args", body := .loop .zeroOrMore (token 0 none) (some 1) },
    { name := "call", body := call }, { name := "call", body := call },
    { name := "end", body := token 2 none }].foldl Builder.afterRule
      (Builder.declare "end" { name := "mended", registry := punctuation }).2

/-- The two nodes of the failed declaration stay in the table, and the name it mentioned has the
number that it got there. -/
theorem mended_in_order : ∃ g, mended.Reached ∧ mended.build = .ok g ∧
    (g.nodes.size = 10 ∧ g.rules.size = 3 ∧ g.ruleId? "args" = some 2) ∧
    g.Forest ∧ g.RulesNamed mended ∧ g.KindsNamed := by
  have hkinds : Draft.registerAll ["Ident", "Comma", "Semi"] { name := "mended" } =
      .ok { name := "mended", registry := punctuation } := by
    cbv
  have hb : mended.Reached :=
    (Draft.registerAll_reached (.start "mended") hkinds).declare.afterRules _
  have hany : mended.build.toOption.any (fun g =>
      decide (g.nodes.size = 10 ∧ g.rules.size = 3 ∧ g.ruleId? "args" = some 2)) = true := by
    decide +kernel
  cases hbuild : mended.build with
  | error error =>
    rw [hbuild] at hany
    cases hany
  | ok g =>
    rw [hbuild] at hany
    exact ⟨g, hb, rfl, of_decide_eq_true hany, Builder.built_in_order hb hbuild⟩

end Sample

end Descent
