import Descent.Proofs.First.Exactness
import Mathlib.Data.List.Forall2

/-!
# What follows the leaves of a rule

`Node.follows` computes straight from a tree what may come after each of its leaves, given what may
come after the tree: items are looked at from right to left, branches see what follows the choice,
a repeating body also sees its next iteration, and a separator sees the body.

The walk over a tree collects rests instead, top down, and leaves it to the FIRST engine to read
them. Both say the same: along a walk every rest stands for a sequence of trees of the grammar, and
the exact FIRST set of that sequence is what `Node.follows` computes (`Grammar.walk_follows`).

The leaves for which something is computed are those that can be matched, which are all but the
separators of optional bodies (`Node.leaves_perm`).
-/

namespace Descent

/-- What starts a tree with this value, followed by something that starts with `after`. -/
def Info.before (info : Info) (after : TerminalSet) : TerminalSet :=
  if info.nullable then info.first ∪ after else info.first

namespace Node

/-- What starts a further iteration of a body with this value. -/
def againFirst (info : Info) : Option Separator → TerminalSet
  | some s => .single s.kind
  | none => info.first

/-- What starts several trees in a row, followed by something that starts with `after`. -/
def firstOfItems (rules : RuleId → Info) (items : List Node) (after : TerminalSet) : TerminalSet :=
  items.foldr (fun item after => (item.eval rules).before after) after

mutual

/-- The matched leaves of a tree, each with what may come after it, given the values of the rules
and what may come after the tree. -/
def follows (rules : RuleId → Info) :
    Node → TerminalSet → List ((Symbol RuleId × Nat) × TerminalSet)
  | .leaf _ symbol occurrence, after => [((symbol, occurrence), after)]
  | .group _ .alternation branches, after => followsBranches rules branches after
  | .group _ _ items, after => followsItems rules items after
  | .loop _ kind body separator, after =>
    if kind.repeats then
      let info := body.eval rules
      let again := againFirst info separator ∪ after
      follows rules body again ++ (separator.map fun s =>
        ((Symbol.terminal s.kind, s.occurrence), info.before again)).toList
    else
      follows rules body after

/-- The matched leaves of trees in a row: each tree sees the ones after it. -/
def followsItems (rules : RuleId → Info) :
    List Node → TerminalSet → List ((Symbol RuleId × Nat) × TerminalSet)
  | [], _ => []
  | item :: items, after =>
    follows rules item (firstOfItems rules items after) ++ followsItems rules items after

/-- The matched leaves of the branches of a choice. -/
def followsBranches (rules : RuleId → Info) :
    List Node → TerminalSet → List ((Symbol RuleId × Nat) × TerminalSet)
  | [], _ => []
  | branch :: branches, after => follows rules branch after ++ followsBranches rules branches after

end

mutual

/-- The separators of optional bodies in a tree, which are never matched. -/
def idleSeparators : Node → List (Terminal × Nat)
  | .leaf .. => []
  | .group _ _ items => idleSeparatorsOf items
  | .loop _ kind body separator =>
    idleSeparators body ++
      if kind.repeats then [] else (separator.map fun s => (s.kind, s.occurrence)).toList

/-- The separators of optional bodies in several trees. -/
def idleSeparatorsOf : List Node → List (Terminal × Nat)
  | [] => []
  | item :: items => idleSeparators item ++ idleSeparatorsOf items

end

/-! ## The leaves with an entry -/

private theorem append_append_perm {a a' b b' : List α} :
    (a ++ a' ++ (b ++ b')).Perm (a ++ b ++ (a' ++ b')) := by
  rw [List.append_assoc, List.append_assoc]
  exact .append_left a (List.perm_append_comm_assoc a' b b')

/-- A separator as a leaf. -/
def asLeaf (p : Terminal × Nat) : Symbol RuleId × Nat := (.terminal p.1, p.2)

theorem mem_references_iff {n : Node} : (r, o) ∈ n.references ↔ (.rule r, o) ∈ n.leaves := by
  simp only [references, List.mem_filterMap]
  constructor
  · rintro ⟨⟨_ | _, _⟩, hleaf, ⟨⟩⟩
    exact hleaf
  · exact fun hleaf => ⟨_, hleaf, rfl⟩

theorem mem_terminals_iff {n : Node} : (k, o) ∈ n.terminals ↔ (.terminal k, o) ∈ n.leaves := by
  simp only [terminals, List.mem_filterMap]
  constructor
  · rintro ⟨⟨_ | _, _⟩, hleaf, ⟨⟩⟩
    exact hleaf
  · exact fun hleaf => ⟨_, hleaf, rfl⟩

variable {rules : RuleId → Info}

theorem itemLeaves_perm (h : ∀ item ∈ items, ∀ after, item.leaves.Perm
      ((item.follows rules after).map Prod.fst ++ item.idleSeparators.map asLeaf)) (after) :
    (itemLeaves items).Perm
      ((followsItems rules items after).map Prod.fst ++ (idleSeparatorsOf items).map asLeaf) := by
  induction items with
  | nil => rfl
  | cons item items ih =>
    obtain ⟨hitem, hitems⟩ := List.forall_mem_cons.1 h
    rw [itemLeaves, followsItems, idleSeparatorsOf, List.map_append, List.map_append]
    exact ((hitem _).append (ih hitems)).trans append_append_perm

theorem branchLeaves_perm (h : ∀ branch ∈ branches, ∀ after, branch.leaves.Perm
      ((branch.follows rules after).map Prod.fst ++ branch.idleSeparators.map asLeaf)) (after) :
    (itemLeaves branches).Perm
      ((followsBranches rules branches after).map Prod.fst ++
        (idleSeparatorsOf branches).map asLeaf) := by
  induction branches with
  | nil => rfl
  | cons branch branches ih =>
    obtain ⟨hbranch, hbranches⟩ := List.forall_mem_cons.1 h
    rw [itemLeaves, followsBranches, idleSeparatorsOf, List.map_append, List.map_append]
    exact ((hbranch _).append (ih hbranches)).trans append_append_perm

/-- Something is computed for every leaf but the separators of optional bodies. -/
theorem leaves_perm (n : Node) (rules : RuleId → Info) (after : TerminalSet) : n.leaves.Perm
    ((n.follows rules after).map Prod.fst ++ n.idleSeparators.map asLeaf) := by
  induction n generalizing after with
  | leaf => rfl
  | group _ shape items ih =>
    cases shape with
    | alternation => exact branchLeaves_perm ih after
    | sequence | flat => exact itemLeaves_perm ih after
  | loop _ kind body separator ih =>
    rw [leaves, follows, idleSeparators]
    cases kind.repeats with
    | false =>
      refine ((ih after).append_right _).trans ?_
      cases separator <;> simp [asLeaf]
    | true =>
      refine ((ih (againFirst (body.eval rules) separator ∪ after)).append_right _).trans ?_
      cases separator with
      | none => simp
      | some s => simpa using (List.perm_append_singleton _ _).append_left _

end Node

namespace Grammar

variable {g : Grammar} {n : Node} {after : TerminalSet}

/-- The rest stands for trees of the grammar in a row, whose exact FIRST set is `after`. -/
def Reads (g : Grammar) (rest : Rest) (after : TerminalSet) : Prop :=
  ∃ items, rest.mapM g.entryTree? = some items ∧ (g.exact (.group 0 .sequence items)).first = after

theorem Reads.nil (g : Grammar) : g.Reads [] ∅ := ⟨[], rfl, rfl⟩

theorem Reads.cons (hentry : g.entryTree? entry = some m) (h : g.Reads rest after) :
    g.Reads (entry :: rest) ((g.exact m).before after) := by
  obtain ⟨items, hitems, rfl⟩ := h
  refine ⟨m :: items, by simp [hentry, hitems], ?_⟩
  rw [exact_cons, Info.before]
  split <;> rfl

theorem Reads.items {items : List Node} (h : g.Reads outer after)
    (hitems : ∀ item ∈ items, g.nodes[item.id]? = some item) :
    g.Reads (items.map (fun n => .node n.id) ++ outer)
      (Node.firstOfItems g.exactRule items after) := by
  induction items with
  | nil => exact h
  | cons item items ih =>
    obtain ⟨hitem, hitems⟩ := List.forall_mem_cons.1 hitems
    exact .cons hitem (ih hitems)

/-- The visit is of this leaf, and its rest stands for what follows the leaf. -/
structure Meets (g : Grammar) (v : Visit) (entry : (Symbol RuleId × Nat) × TerminalSet) : Prop where
  leaf : (v.symbol, v.occurrence) = entry.1
  rest : g.Reads v.rest entry.2

/-- Every walk over the tree meets what follows its leaves. -/
def WalksRight (g : Grammar) (n : Node) : Prop :=
  ∀ current outer after, g.Reads (current ++ outer) after →
    List.Forall₂ g.Meets (n.walk current outer) (n.follows g.exactRule after)

theorem walkItems_follows {items : List Node} (h : ∀ item ∈ items, g.WalksRight item)
    (hitems : ∀ item ∈ items, g.nodes[item.id]? = some item) (hreads : g.Reads outer after) :
    List.Forall₂ g.Meets (Node.walkItems items outer)
      (Node.followsItems g.exactRule items after) := by
  induction items with
  | nil => exact .nil
  | cons item items ih =>
    obtain ⟨hitem, hrest⟩ := List.forall_mem_cons.1 h
    obtain ⟨-, hitems⟩ := List.forall_mem_cons.1 hitems
    exact List.rel_append (hitem _ _ _ (hreads.items hitems)) (ih hrest hitems)

theorem walkBranches_follows {branches : List Node} (h : ∀ branch ∈ branches, g.WalksRight branch)
    (hreads : g.Reads outer after) :
    List.Forall₂ g.Meets (Node.walkBranches branches outer)
      (Node.followsBranches g.exactRule branches after) := by
  induction branches with
  | nil => exact .nil
  | cons branch branches ih =>
    obtain ⟨hbranch, hrest⟩ := List.forall_mem_cons.1 h
    exact List.rel_append (hbranch [] outer after hreads) (ih hrest)

/-- A further iteration starts with the separator or else with the body, or is left out. -/
theorem Reads.again (hbody : g.nodes[body.id]? = some body)
    (hseparator : ∀ s ∈ separator, g.nodes[s.id]? = some s.node) (h : g.Reads rest after) :
    g.Reads (.again body.id (separator.map Separator.id) :: rest)
      (Node.againFirst (g.exact body) separator ∪ after) := by
  cases separator with
  | none => exact .cons (m := .loop 0 .optional body none) (by simp [entryTree?, hbody]) h
  | some s =>
    have hs := hseparator s rfl
    exact .cons (m := .loop 0 .optional s.node none) (by simp [entryTree?, hs]) h

theorem walk_follows (hg : g.WellFormed) (hn : g.nodes[n.id]? = some n) : g.WalksRight n := by
  induction n with
  | leaf i symbol occurrence =>
    exact fun current outer after h => .cons ⟨rfl, h⟩ .nil
  | group i shape items ih =>
    have hitems : ∀ item ∈ items, g.nodes[item.id]? = some item := hg.nodes.closed hn
    have hall : ∀ item ∈ items, g.WalksRight item := fun item hi => ih item hi (hitems item hi)
    intro current outer after h
    cases shape with
    | alternation => exact walkBranches_follows hall h
    | sequence | flat => exact walkItems_follows hall hitems h
  | loop i kind body separator ih =>
    have hchildren := hg.nodes.closed hn
    have hbody : g.nodes[body.id]? = some body := hchildren body List.mem_cons_self
    have hseparator : ∀ s ∈ separator, g.nodes[s.id]? = some s.node := by
      rintro s rfl
      exact hchildren s.node (by simp [Node.children])
    intro current outer after h
    rw [Node.walk, Node.walkLoop, Node.follows]
    split
    · have hfull := h.again hbody hseparator
      refine List.rel_append (ih hbody [] _ _ hfull) ?_
      cases separator with
      | none => exact .nil
      | some s => exact .cons ⟨rfl, .cons (m := body) hbody hfull⟩ .nil
    · exact ih hbody [] _ _ h

end Grammar

end Descent
