import Descent.Proofs.Follow.Reference
import Descent.Proofs.Grammar.Numbering
import Mathlib.Logic.Relation

/-!
# Local rests

What a walk reports at a leaf is what the walked tree itself has left to match after the leaf, its
local rest, followed by all that was left after the tree. `Node.spots` computes the local rests from
the leaves up, where a walk hands rests down from the root: how a rest is divided into the rest of a
level and that of the levels around it plays no part in it, nor does the difference between a
sequence and a flat group.

The leaves of a tree are told apart by their numbers. Children are numbered below their parents and
have one parent only, so of two nodes above the same leaf one is above the other, and no leaf is
below two children of a node (`Grammar.Forest.children_apart`).
-/

namespace Descent

/-- A leaf of a tree, at its node. -/
structure Spot where
  id : NodeId
  symbol : Symbol RuleId
  occurrence : Nat
  /-- What the tree itself has left to match after the leaf. The separator of an optional body is
  never matched and has no such rest. -/
  after : Option Rest
deriving DecidableEq, Repr

/-- What a visit tells about its leaf. -/
def Visit.report (v : Visit) : (Symbol RuleId × Nat) × Rest := ((v.symbol, v.occurrence), v.rest)

namespace Spot

def leaf (s : Spot) : Symbol RuleId × Nat := (s.symbol, s.occurrence)

def node (s : Spot) : Node := .leaf s.id s.symbol s.occurrence

/-- Whether the leaf is never matched. -/
def idle (s : Spot) : Bool := s.after.isNone

/-- The leaf in a larger tree that has more left to match after this one. -/
def followedBy (rest : Rest) (s : Spot) : Spot := { s with after := s.after.map (· ++ rest) }

/-- What a walk tells about the leaf, if this is left to match after the tree. -/
def report? (rest : Rest) (s : Spot) : Option ((Symbol RuleId × Nat) × Rest) :=
  s.after.map fun own => (s.leaf, own ++ rest)

/-- The separator of a repetition as a leaf. -/
def ofSeparator (after : Option Rest) (s : Separator) : Spot :=
  { id := s.id, symbol := .terminal s.kind, occurrence := s.occurrence, after }

@[simp] theorem leaf_followedBy (rest : Rest) (s : Spot) : (s.followedBy rest).leaf = s.leaf := rfl

@[simp] theorem node_followedBy (rest : Rest) (s : Spot) : (s.followedBy rest).node = s.node := rfl

@[simp] theorem idle_followedBy (rest : Rest) (s : Spot) : (s.followedBy rest).idle = s.idle := by
  simp [idle, followedBy]

@[simp] theorem leaf_ofSeparator (after : Option Rest) (s : Separator) :
    (ofSeparator after s).leaf = (.terminal s.kind, s.occurrence) := rfl

@[simp] theorem node_ofSeparator (after : Option Rest) (s : Separator) :
    (ofSeparator after s).node = s.node := rfl

@[simp] theorem idle_ofSeparator (after : Option Rest) (s : Separator) :
    (ofSeparator after s).idle = after.isNone := rfl

@[simp] theorem report?_followedBy (own rest : Rest) (s : Spot) :
    (s.followedBy own).report? rest = s.report? (own ++ rest) := by
  simp [report?, followedBy, leaf, Function.comp_def]

end Spot

namespace Node

mutual

/-- The leaves of a tree in declaration order, each with what the tree has left to match after it. -/
def spots : Node → List Spot
  | .leaf id symbol occurrence => [{ id, symbol, occurrence, after := some [] }]
  | .group _ .alternation branches => branchSpots branches
  | .group _ _ items => itemSpots items
  | .loop _ kind body separator =>
    if kind.repeats then
      let again := [.again body.id (separator.map Separator.id)]
      (spots body).map (.followedBy again) ++
        (separator.map (.ofSeparator (some (.node body.id :: again)))).toList
    else
      spots body ++ (separator.map (.ofSeparator none)).toList

/-- The leaves of trees in a row: after each tree come the ones to its right. -/
def itemSpots : List Node → List Spot
  | [] => []
  | item :: items =>
    (spots item).map (.followedBy (items.map fun n => .node n.id)) ++ itemSpots items

/-- The leaves of the branches of a choice, of which nothing is left after a branch. -/
def branchSpots : List Node → List Spot
  | [] => []
  | branch :: branches => spots branch ++ branchSpots branches

end

/-! ## Walks -/

/-- Every walk over the tree reports the local rest at each leaf, followed by what is left after the
tree. -/
def ReportsLocally (n : Node) : Prop :=
  ∀ current outer, (n.walk current outer).map Visit.report =
    n.spots.filterMap (Spot.report? (current ++ outer))

theorem walkItems_reports {items : List Node} (h : ∀ item ∈ items, item.ReportsLocally)
    (outer : Rest) : (walkItems items outer).map Visit.report =
      (itemSpots items).filterMap (Spot.report? outer) := by
  induction items with
  | nil => rfl
  | cons item items ih =>
    obtain ⟨hitem, hitems⟩ := List.forall_mem_cons.1 h
    rw [walkItems, itemSpots, List.map_append, List.filterMap_append, hitem, ih hitems,
      List.filterMap_map]
    simp only [Function.comp_def, Spot.report?_followedBy]

theorem walkBranches_reports {branches : List Node}
    (h : ∀ branch ∈ branches, branch.ReportsLocally) (outer : Rest) :
    (walkBranches branches outer).map Visit.report =
      (branchSpots branches).filterMap (Spot.report? outer) := by
  induction branches with
  | nil => rfl
  | cons branch branches ih =>
    obtain ⟨hbranch, hbranches⟩ := List.forall_mem_cons.1 h
    rw [walkBranches, branchSpots, List.map_append, List.filterMap_append, hbranch, ih hbranches,
      List.nil_append]

theorem reportsLocally (n : Node) : n.ReportsLocally := by
  induction n with
  | leaf => exact fun current outer => rfl
  | group _ shape items ih =>
    intro current outer
    cases shape with
    | alternation => exact walkBranches_reports ih _
    | sequence | flat => exact walkItems_reports ih _
  | loop _ kind body separator ih =>
    intro current outer
    rw [walk, walkLoop, spots]
    cases kind.repeats with
    | true =>
      simp only [if_true, List.map_append, List.filterMap_append, List.filterMap_map,
        Function.comp_def, Spot.report?_followedBy]
      rw [ih]
      cases separator <;> rfl
    | false =>
      -- the separator is not visited, and it has no local rest to report
      simp only [Bool.false_eq_true, if_false, List.filterMap_append]
      rw [ih]
      cases separator <;> simp [Spot.report?, Spot.ofSeparator]

/-! ## The leaves of a tree -/

variable {f : Spot → Option β}

theorem itemSpots_filterMap (hf : ∀ rest s, f (s.followedBy rest) = f s) (items : List Node) :
    (itemSpots items).filterMap f = items.flatMap fun item => item.spots.filterMap f := by
  induction items with
  | nil => rfl
  | cons item items ih =>
    rw [itemSpots, List.filterMap_append, List.filterMap_map, ih, List.flatMap_cons]
    simp only [Function.comp_def, hf]

theorem branchSpots_filterMap (f : Spot → Option β) (branches : List Node) :
    (branchSpots branches).filterMap f = branches.flatMap fun branch => branch.spots.filterMap f := by
  induction branches with
  | nil => rfl
  | cons branch branches ih => rw [branchSpots, List.filterMap_append, ih, List.flatMap_cons]

/-- Apart from the rests, the leaves of a group are those of its items, whatever its shape. -/
theorem spots_group_filterMap (hf : ∀ rest s, f (s.followedBy rest) = f s) (i : NodeId)
    (shape : Shape) (items : List Node) : (Node.group i shape items).spots.filterMap f =
      items.flatMap fun item => item.spots.filterMap f := by
  cases shape with
  | alternation => exact branchSpots_filterMap f items
  | sequence | flat => exact itemSpots_filterMap hf items

theorem spots_group_map {f : Spot → β} (hf : ∀ rest s, f (s.followedBy rest) = f s) (i : NodeId)
    (shape : Shape) (items : List Node) : (Node.group i shape items).spots.map f =
      items.flatMap fun item => item.spots.map f := by
  simpa only [← List.filterMap_eq_map] using
    spots_group_filterMap (f := some ∘ f) (fun rest s => congrArg some (hf rest s)) i shape items

theorem itemLeaves_eq_flatMap (items : List Node) : itemLeaves items = items.flatMap leaves := by
  induction items with
  | nil => rfl
  | cons item items ih => rw [itemLeaves, ih, List.flatMap_cons]

theorem idleSeparatorsOf_eq_flatMap (items : List Node) :
    idleSeparatorsOf items = items.flatMap idleSeparators := by
  induction items with
  | nil => rfl
  | cons item items ih => rw [idleSeparatorsOf, ih, List.flatMap_cons]

theorem map_leaf_spots (n : Node) : n.spots.map Spot.leaf = n.leaves := by
  induction n with
  | leaf => rfl
  | group i shape items ih =>
    rw [spots_group_map Spot.leaf_followedBy, leaves, itemLeaves_eq_flatMap]
    exact List.flatMap_congr ih
  | loop i kind body separator ih =>
    rw [spots, leaves, ← ih]
    cases kind.repeats <;> cases separator <;> simp [Function.comp_def]

/-- The leaves that are never matched are the separators of optional bodies. -/
theorem map_leaf_idle (n : Node) :
    (n.spots.filter Spot.idle).map Spot.leaf = n.idleSeparators.map asLeaf := by
  rw [← List.filterMap_eq_map, List.filterMap_filter]
  induction n with
  | leaf => rfl
  | group i shape items ih =>
    rw [spots_group_filterMap (by simp), idleSeparators, idleSeparatorsOf_eq_flatMap,
      List.map_flatMap]
    exact List.flatMap_congr ih
  | loop i kind body separator ih =>
    rw [spots, idleSeparators, List.map_append, ← ih]
    cases kind.repeats <;> cases separator <;> simp [asLeaf]

/-- The leaf nodes of a tree, in declaration order. -/
def leafNodes (n : Node) : List Node := n.spots.map Spot.node

theorem leafNodes_leaf : (Node.leaf i symbol o).leafNodes = [.leaf i symbol o] := rfl

theorem leafNodes_group (i : NodeId) (shape : Shape) (items : List Node) :
    (Node.group i shape items).leafNodes = items.flatMap leafNodes :=
  spots_group_map Spot.node_followedBy i shape items

theorem leafNodes_loop (i : NodeId) (kind : Repetition) (body : Node)
    (separator : Option Separator) : (Node.loop i kind body separator).leafNodes =
      (Node.loop i kind body separator).children.flatMap leafNodes := by
  have hspots : (Node.loop i kind body separator).spots.map Spot.node =
      body.spots.map Spot.node ++ (separator.map Separator.node).toList := by
    rw [spots]
    cases kind.repeats <;> cases separator <;> simp [Function.comp_def]
  rw [leafNodes, hspots, children, List.flatMap_cons]
  cases separator <;> rfl

/-- What holds of a node if it holds of its children, holds of every node. -/
theorem childInduction {motive : Node → Prop}
    (step : ∀ n : Node, (∀ c ∈ n.children, motive c) → motive n) (n : Node) : motive n := by
  induction n with
  | leaf => exact step _ (List.forall_mem_nil _)
  | group i shape items ih => exact step _ ih
  | loop i kind body separator ih =>
    apply step
    rw [children, List.forall_mem_cons]
    refine ⟨ih, fun c hc => ?_⟩
    obtain ⟨s, -, rfl⟩ := Option.map_eq_some_iff.1 (Option.mem_toList.1 hc)
    exact step _ (List.forall_mem_nil _)

/-- A node is a leaf, or its leaves are those of its children. -/
theorem leafNodes_cases (n : Node) :
    (∃ i symbol o, n = .leaf i symbol o) ∨ n.leafNodes = n.children.flatMap leafNodes := by
  cases n with
  | leaf i symbol o => exact .inl ⟨i, symbol, o, rfl⟩
  | group i shape items => exact .inr (leafNodes_group i shape items)
  | loop i kind body separator => exact .inr (leafNodes_loop i kind body separator)

end Node

/-! ## Leaves below a node of a table -/

namespace Grammar

variable {g : Grammar} {i j k k' : NodeId} {n a b : Node}

/-- The node with the number `j` is a child of the one with the number `i`. -/
def ChildOf (g : Grammar) (j i : NodeId) : Prop :=
  ∃ n, g.nodes[i]? = some n ∧ ∃ c ∈ n.children, c.id = j

/-- The node with the number `j` is the one with the number `i` or one below it. -/
def Below (g : Grammar) : NodeId → NodeId → Prop := Relation.ReflTransGen g.ChildOf

theorem childOf_of_getElem? (hn : g.nodes[i]? = some n) (ha : n.children[k]? = some a) :
    g.ChildOf a.id i :=
  ⟨n, hn, a, List.mem_of_getElem? ha, rfl⟩

namespace Forest

theorem lt_of_childOf (hg : g.Forest) (h : g.ChildOf j i) : j < i := by
  obtain ⟨n, hn, c, hc, rfl⟩ := h
  exact (hg.child hn c hc).1

theorem le_of_below (hg : g.Forest) (h : g.Below j i) : j ≤ i := by
  induction h with
  | refl => exact Nat.le_refl j
  | tail _ hchild ih => exact Nat.le_of_lt (Nat.lt_of_le_of_lt ih (hg.lt_of_childOf hchild))

theorem parent_unique (hg : g.Forest) : Relator.RightUnique g.ChildOf := by
  rintro j i i' ⟨n, hn, c, hc, rfl⟩ ⟨n', hn', c', hc', heq⟩
  obtain ⟨k, hk⟩ := List.mem_iff_getElem?.1 hc
  obtain ⟨k', hk'⟩ := List.mem_iff_getElem?.1 hc'
  exact (hg.place hn hn' hk hk' heq.symm).1

/-- No child of a node is below another one. -/
theorem not_below_sibling (hg : g.Forest) (hn : g.nodes[i]? = some n)
    (ha : n.children[k]? = some a) (hb : n.children[k']? = some b) (hne : k ≠ k') :
    ¬ g.Below a.id b.id := by
  intro h
  rcases Relation.ReflTransGen.cases_head h with heq | ⟨p, hparent, hbelow⟩
  · exact hne (hg.place hn hn ha hb heq).2
  · cases hg.parent_unique hparent (childOf_of_getElem? hn ha)
    exact Nat.not_lt.2 (hg.le_of_below hbelow) (hg.lt_of_childOf (childOf_of_getElem? hn hb))

/-- No node is below two children of a node: of two nodes above the same one, one is above the
other. -/
theorem children_apart (hg : g.Forest) (hn : g.nodes[i]? = some n)
    (ha : n.children[k]? = some a) (hb : n.children[k']? = some b) (hne : k ≠ k')
    (hja : g.Below j a.id) : ¬ g.Below j b.id := by
  intro hjb
  rcases Relation.ReflTransGen.total_of_right_unique hg.parent_unique hja hjb with h | h
  · exact hg.not_below_sibling hn ha hb hne h
  · exact hg.not_below_sibling hn hb ha hne.symm h

theorem below_of_mem_leafNodes (hg : g.Forest) (hn : g.nodes[n.id]? = some n) {m : Node}
    (hm : m ∈ n.leafNodes) : g.Below m.id n.id ∧ g.nodes[m.id]? = some m := by
  induction n using Node.childInduction with
  | step n ih =>
    rcases n.leafNodes_cases with ⟨i, symbol, o, rfl⟩ | hchildren
    · rw [Node.leafNodes_leaf, List.mem_singleton] at hm
      subst hm
      exact ⟨.refl, hn⟩
    · rw [hchildren] at hm
      obtain ⟨c, hc, hm⟩ := List.mem_flatMap.1 hm
      obtain ⟨hbelow, hleaf⟩ := ih c hc (hg.child hn c hc).2 hm
      exact ⟨hbelow.tail ⟨n, hn, c, hc, rfl⟩, hleaf⟩

theorem mem_leafNodes_of_below (hg : g.Forest) (h : g.Below j i)
    (hj : g.nodes[j]? = some (.leaf j symbol o)) (hn : g.nodes[i]? = some n) :
    .leaf j symbol o ∈ n.leafNodes := by
  induction h generalizing n with
  | refl =>
    cases hj.symm.trans hn
    exact List.mem_singleton_self _
  | tail _ hchild ih =>
    obtain ⟨n', hn', c, hc, rfl⟩ := hchild
    cases hn.symm.trans hn'
    rcases n.leafNodes_cases with ⟨i, symbol, o, rfl⟩ | hchildren
    · cases hc
    · rw [hchildren]
      exact List.mem_flatMap.2 ⟨c, hc, ih (hg.child hn c hc).2⟩

/-- The leaves of a tree have different numbers. -/
theorem leafNodes_nodup (hg : g.Forest) (hn : g.nodes[n.id]? = some n) :
    (n.leafNodes.map Node.id).Nodup := by
  induction n using Node.childInduction with
  | step n ih =>
    rcases n.leafNodes_cases with ⟨i, symbol, o, rfl⟩ | hchildren
    · exact List.nodup_singleton _
    · rw [hchildren, List.map_flatMap, List.nodup_flatMap]
      refine ⟨fun c hc => ih c hc (hg.child hn c hc).2, ?_⟩
      rw [List.pairwise_iff_getElem]
      intro k k' hk hk' hlt
      have ha := List.getElem?_eq_getElem hk
      have hb := List.getElem?_eq_getElem hk'
      apply List.disjoint_left.2
      intro j hja hjb
      obtain ⟨m, hm, rfl⟩ := List.mem_map.1 hja
      obtain ⟨m', hm', heq⟩ := List.mem_map.1 hjb
      obtain ⟨hbelow, -⟩ := hg.below_of_mem_leafNodes (hg.child hn _ (List.getElem_mem hk)).2 hm
      obtain ⟨hbelow', -⟩ := hg.below_of_mem_leafNodes (hg.child hn _ (List.getElem_mem hk')).2 hm'
      exact hg.children_apart hn ha hb hlt.ne hbelow (heq ▸ hbelow')

end Forest

end Grammar

/-! ## Flat groups and sequences -/

namespace Node

/-- The second tree is the first one with some flat groups in it, or none, turned into sequences. -/
inductive Resequenced : Node → Node → Prop where
  | leaf (i : NodeId) (symbol : Symbol RuleId) (o : Nat) :
    Resequenced (.leaf i symbol o) (.leaf i symbol o)
  | group (i : NodeId) (shape : Shape) : List.Forall₂ Resequenced items items' →
    Resequenced (.group i shape items) (.group i shape items')
  | flat (i : NodeId) : List.Forall₂ Resequenced items items' →
    Resequenced (.group i .flat items) (.group i .sequence items')
  | loop (i : NodeId) (kind : Repetition) (separator : Option Separator) :
    Resequenced body body' → Resequenced (.loop i kind body separator) (.loop i kind body' separator)

variable {n m : Node} {items items' : List Node}

theorem Resequenced.refl (n : Node) : n.Resequenced n := by
  induction n with
  | leaf => exact .leaf ..
  | group i shape items ih => exact .group i shape (List.forall₂_same.2 ih)
  | loop i kind body separator ih => exact .loop i kind separator ih

theorem Resequenced.id_eq (h : Resequenced n m) : m.id = n.id := by
  cases h <;> rfl

/-- All walks over one tree are walks over the other. -/
def WalksAs (n m : Node) : Prop := ∀ current outer, m.walk current outer = n.walk current outer

theorem walkItems_resequenced (h : List.Forall₂ Resequenced items items')
    (ih : ∀ item ∈ items, ∀ {m}, item.Resequenced m → item.WalksAs m) (outer : Rest) :
    walkItems items' outer = walkItems items outer := by
  have hids {items items'} (h : List.Forall₂ Resequenced items items') :
      items'.map (fun n => Entry.node n.id) = items.map fun n => .node n.id := by
    induction h with
    | nil => rfl
    | cons hitem _ ih => rw [List.map_cons, List.map_cons, hitem.id_eq, ih]
  induction h with
  | nil => rfl
  | cons hitem hitems ihitems =>
    obtain ⟨hwalk, hwalks⟩ := List.forall_mem_cons.1 ih
    rw [walkItems, walkItems, hids hitems, hwalk hitem, ihitems hwalks]

theorem walkBranches_resequenced (h : List.Forall₂ Resequenced items items')
    (ih : ∀ item ∈ items, ∀ {m}, item.Resequenced m → item.WalksAs m) (outer : Rest) :
    walkBranches items' outer = walkBranches items outer := by
  induction h with
  | nil => rfl
  | cons hitem _ ihitems =>
    obtain ⟨hwalk, hwalks⟩ := List.forall_mem_cons.1 ih
    rw [walkBranches, walkBranches, hwalk hitem, ihitems hwalks]

theorem Resequenced.walksAs (h : Resequenced n m) : n.WalksAs m := by
  induction n generalizing m with
  | leaf =>
    cases h
    exact fun _ _ => rfl
  | group i shape items ih =>
    intro current outer
    cases h with
    | group _ _ hitems =>
      cases shape with
      | alternation => exact walkBranches_resequenced hitems ih _
      | sequence | flat => exact walkItems_resequenced hitems ih _
    | flat _ hitems => exact walkItems_resequenced hitems ih _
  | loop i kind body separator ih =>
    intro current outer
    cases h with
    | loop _ _ _ hbody =>
      have hwalk := funext fun current => funext fun outer => ih hbody current outer
      rw [walk, walk, hbody.id_eq, hwalk]

end Node

namespace Grammar

variable {g : Grammar} {i : NodeId} {n : Node}

theorem node_eq_ok : g.node i = .ok n ↔ g.nodes[i]? = some n := by
  unfold node
  cases g.nodes[i]? <;> simp

/-- Walks over a node of a built grammar report local rests, each followed by all that is left after
the node. The leaves of the node are those below it in the table, each of them once and in
declaration order, and a walk visits all of them but the separators of optional bodies. At each leaf
the rest of its level and that of the levels around it make up the local rest, which depends on the
node and the leaf alone, and the two rests that the walk was started with. So how these two were
divided makes no difference to what is reported, and turning flat groups into sequences makes none
at all. -/
theorem walks_report_locally (hg : g.Built) (hn : g.node i = .ok n) :
    n.spots.map Spot.leaf = n.leaves ∧ (n.spots.map Spot.id).Nodup ∧
    (∀ j symbol o, .leaf j symbol o ∈ n.spots.map Spot.node ↔
      g.Below j i ∧ g.node j = .ok (.leaf j symbol o)) ∧
    (n.spots.filter Spot.idle).map Spot.leaf = n.idleSeparators.map Node.asLeaf ∧
    (∀ current outer, (n.walk current outer).map Visit.report =
      n.spots.filterMap fun s => s.after.map fun own => (s.leaf, own ++ current ++ outer)) ∧
    (∀ current outer, (n.walk current outer).map Visit.report =
      (n.walk [] (current ++ outer)).map Visit.report) ∧
    ∀ m, n.Resequenced m → ∀ current outer, m.walk current outer = n.walk current outer := by
  have hforest := hg.forest
  rw [node_eq_ok] at hn
  obtain rfl := hforest.numbered hn
  refine ⟨n.map_leaf_spots, ?_, fun j symbol o => ?_, n.map_leaf_idle, fun current outer => ?_,
    fun current outer => ?_, fun m hm => hm.walksAs⟩
  · have hnodup := hforest.leafNodes_nodup hn
    rwa [Node.leafNodes, List.map_map] at hnodup
  · rw [node_eq_ok]
    exact ⟨hforest.below_of_mem_leafNodes hn,
      fun h => hforest.mem_leafNodes_of_below h.1 h.2 hn⟩
  · simp only [List.append_assoc]
    exact n.reportsLocally current outer
  · rw [n.reportsLocally, n.reportsLocally, List.nil_append]

/-- Items and cells between commas, and an end mark whose separator is never matched, spliced
together. -/
def tables : Draft where
  name := "tables"
  terminals := ["Comma", "Semi", "Item", "End"]
  rules :=
    [{ name := "table"
       body := .group .flat [
         .loop .zeroOrMore
           (.group .alternation [.leaf (.terminal 2) none, .leaf (.rule "cell") none]) (some 0),
         .loop .optional (.leaf (.terminal 3) none) (some 1)] },
     { name := "cell", body := .leaf (.terminal 2) none }]

/-- The body of a table, as a group of this shape. -/
def tableAs (shape : Shape) : Node :=
  .group 8 shape [
    .loop 4 .zeroOrMore (.group 2 .alternation [.leaf 0 (.terminal 2) 1, .leaf 1 (.rule 1) 1])
      (some { id := 3, kind := 0, occurrence := 1 }),
    .loop 7 .optional (.leaf 5 (.terminal 3) 1) (some { id := 6, kind := 1, occurrence := 1 })]

/-- The grammar of tables. -/
def tablesBuilt : Grammar :=
  let entry := .group 2 .alternation [.leaf 0 (.terminal 2) 1, .leaf 1 (.rule 1) 1]
  let comma := { id := 3, kind := 0, occurrence := 1 }
  let semi := { id := 6, kind := 1, occurrence := 1 }
  { name := "tables"
    registry :=
      { names := #["Comma", "Semi", "Item", "End"]
        byName := [("End", 3), ("Item", 2), ("Semi", 1), ("Comma", 0)] }
    nodes := #[.leaf 0 (.terminal 2) 1, .leaf 1 (.rule 1) 1, entry, comma.node,
      .loop 4 .zeroOrMore entry (some comma), .leaf 5 (.terminal 3) 1, semi.node,
      .loop 7 .optional (.leaf 5 (.terminal 3) 1) (some semi), tableAs .flat,
      .leaf 9 (.terminal 2) 1]
    rules := #[{ name := "table", body := tableAs .flat, resync := true },
      { name := "cell", body := .leaf 9 (.terminal 2) 1, resync := true }]
    byName := [("cell", 1), ("table", 0)] }

theorem tables_build : tables.build = .ok tablesBuilt := by cbv

theorem tableAs_resequenced : (tableAs .flat).Resequenced (tableAs .sequence) :=
  .flat 8 (List.forall₂_same.2 fun item _ => .refl item)

/-- A walk over a table, with two nodes left to match after it, reports the same whether the table
is a flat group or a sequence. It leaves out the separator of the end mark. -/
theorem tables_walked : tablesBuilt.node 8 = .ok (tableAs .flat) ∧
    ((tableAs .flat).walk [.node 9] [.node 0]).map Visit.report =
      [((.terminal 2, 1), [.again 2 (some 3), .node 7, .node 9, .node 0]),
        ((.rule 1, 1), [.again 2 (some 3), .node 7, .node 9, .node 0]),
        ((.terminal 0, 1), [.node 2, .again 2 (some 3), .node 7, .node 9, .node 0]),
        ((.terminal 3, 1), [.node 9, .node 0])] ∧
    (tableAs .sequence).walk [.node 9] [.node 0] = (tableAs .flat).walk [.node 9] [.node 0] := by
  have hnode : tablesBuilt.node 8 = .ok (tableAs .flat) := rfl
  obtain ⟨-, -, -, -, hreports, -, hsequence⟩ :=
    walks_report_locally (Draft.built tables_build) hnode
  exact ⟨hnode, hreports _ _, hsequence _ tableAs_resequenced _ _⟩

end Grammar

end Descent
