import Descent.Proofs.Grammar.Occurrences

/-!
# Reading a body back

A node table can be read from a number on: the node is looked up, and so are the nodes whose
numbers it has for its children (`Spells`). What is read is a written body in which every leaf has
an index. Lowering is faithful to this reading: it leaves the written body, with the indices of the
law filled in where the author pinned none (`Expr.filled`), and later calls do not change it.

The walk over a rule body keeps a stack of node numbers (`Grammar.Visits`). It comes to an end and
meets the leaves in declaration order.
-/

namespace Descent

/-! ## Written bodies with all indices -/

namespace Expr

open Occurrence

mutual

/-- The written body with the indices of the law for those that are missing, where earlier leaves
of the same rule have got theirs. -/
def filled (earlier : List WrittenLeaf) : Expr → Expr
  | .leaf symbol pin => .leaf symbol (some (indexAfter (numbered earlier) (symbol, pin)))
  | .group shape items => .group shape (filledItems earlier items)
  | .loop kind body separator => .loop kind (filled earlier body) separator

def filledItems (earlier : List WrittenLeaf) : List Expr → List Expr
  | [] => []
  | item :: items => filled earlier item :: filledItems (earlier ++ item.leaves) items

end

end Expr

/-! ## Reading the node table -/

/-- The target of a leaf has this name. -/
def SpellsSymbol (names : List String) : Symbol RuleId → Symbol String → Prop
  | .terminal kind, .terminal kind' => kind = kind'
  | .rule r, .rule nm => names[r]? = some nm
  | _, _ => False

/-- The separator of a repetition, if there is one, is the leaf of this kind. -/
def SpellsSeparator (nodes : Array Node) : Option Separator → Option Terminal → Prop
  | none, none => True
  | some sep, some kind => ∃ i o, nodes[sep.id]? = some (.leaf i (.terminal kind) o)
  | _, _ => False

mutual

/-- Reading the table from this number on gives the written body. Of the trees in the table only
the numbers of children are used. -/
inductive Spells (nodes : Array Node) (names : List String) : NodeId → Expr → Prop where
  | leaf : nodes[i]? = some (.leaf j target o) → SpellsSymbol names target symbol →
    Spells nodes names i (.leaf symbol (some o))
  | group : nodes[i]? = some (.group j shape items) →
    SpellsAll nodes names (items.map Node.id) es → Spells nodes names i (.group shape es)
  | loop : nodes[i]? = some (.loop j kind body separator) → Spells nodes names body.id e →
    SpellsSeparator nodes separator written → Spells nodes names i (.loop kind e written)

/-- Reading the table from each of these numbers on. -/
inductive SpellsAll (nodes : Array Node) (names : List String) : List NodeId → List Expr → Prop where
  | nil : SpellsAll nodes names [] []
  | cons : Spells nodes names i e → SpellsAll nodes names is es →
    SpellsAll nodes names (i :: is) (e :: es)

end

section Tables

variable {nodes nodes' : Array Node} {names names' : List String}

theorem SpellsSymbol.extends (h : SpellsSymbol names target symbol)
    (hnames : ∀ {r : RuleId} {nm}, names[r]? = some nm → names'[r]? = some nm) :
    SpellsSymbol names' target symbol := by
  match target, symbol, h with
  | .terminal _, .terminal _, h => exact h
  | .rule _, .rule _, h => exact hnames h

theorem SpellsSeparator.extends (h : SpellsSeparator nodes separator written)
    (hnodes : ∀ {i : NodeId} {n}, nodes[i]? = some n → nodes'[i]? = some n) :
    SpellsSeparator nodes' separator written := by
  match separator, written, h with
  | none, none, h => exact h
  | some sep, some kind, ⟨i, o, h⟩ => exact ⟨i, o, hnodes h⟩

mutual

/-- A table that has all that another one has reads the same. -/
theorem Spells.extends (hnodes : ∀ {i : NodeId} {n}, nodes[i]? = some n → nodes'[i]? = some n)
    (hnames : ∀ {r : RuleId} {nm}, names[r]? = some nm → names'[r]? = some nm) :
    ∀ (e : Expr) {i : NodeId}, Spells nodes names i e → Spells nodes' names' i e
  | .leaf .., _, .leaf hn hsymbol => .leaf (hnodes hn) (hsymbol.extends hnames)
  | .group _ es, _, .group hn hitems =>
    .group (hnodes hn) (SpellsAll.extends hnodes hnames es hitems)
  | .loop _ e _, _, .loop hn hbody hsep =>
    .loop (hnodes hn) (Spells.extends hnodes hnames e hbody) (hsep.extends hnodes)

theorem SpellsAll.extends (hnodes : ∀ {i : NodeId} {n}, nodes[i]? = some n → nodes'[i]? = some n)
    (hnames : ∀ {r : RuleId} {nm}, names[r]? = some nm → names'[r]? = some nm) :
    ∀ (es : List Expr) {is : List NodeId}, SpellsAll nodes names is es →
      SpellsAll nodes' names' is es
  | [], _, .nil => .nil
  | e :: es, _, .cons h hs =>
    .cons (Spells.extends hnodes hnames e h) (SpellsAll.extends hnodes hnames es hs)

end

theorem SpellsSymbol.unique (h : SpellsSymbol names target symbol)
    (h' : SpellsSymbol names target symbol') : symbol = symbol' := by
  match target, symbol, h, symbol', h' with
  | .terminal _, .terminal _, rfl, .terminal _, rfl => rfl
  | .rule _, .rule _, h, .rule _, h' => rw [Option.some.inj (h.symm.trans h')]

theorem SpellsSeparator.unique (h : SpellsSeparator nodes separator written)
    (h' : SpellsSeparator nodes separator written') : written = written' := by
  match separator, written, h, written', h' with
  | none, none, _, none, _ => rfl
  | some sep, some kind, ⟨i, o, h⟩, some kind', ⟨i', o', h'⟩ =>
    cases h.symm.trans h'
    rfl

mutual

/-- There is one way to read a table. -/
theorem Spells.unique : ∀ (e : Expr) {e' : Expr} {i : NodeId}, Spells nodes names i e →
    Spells nodes names i e' → e = e'
  | .leaf .., _, _, .leaf hn hsymbol, h' => by
    cases h' with
    | leaf hn' hsymbol' =>
      cases hn.symm.trans hn'
      rw [hsymbol.unique hsymbol']
    | group hn' _ => cases hn.symm.trans hn'
    | loop hn' _ _ => cases hn.symm.trans hn'
  | .group _ es, _, _, .group hn hitems, h' => by
    cases h' with
    | leaf hn' _ => cases hn.symm.trans hn'
    | group hn' hitems' =>
      cases hn.symm.trans hn'
      rw [SpellsAll.unique es hitems hitems']
    | loop hn' _ _ => cases hn.symm.trans hn'
  | .loop _ e _, _, _, .loop hn hbody hsep, h' => by
    cases h' with
    | leaf hn' _ => cases hn.symm.trans hn'
    | group hn' _ => cases hn.symm.trans hn'
    | loop hn' hbody' hsep' =>
      cases hn.symm.trans hn'
      rw [Spells.unique e hbody hbody', hsep.unique hsep']

theorem SpellsAll.unique : ∀ (es : List Expr) {es' : List Expr} {is : List NodeId},
    SpellsAll nodes names is es → SpellsAll nodes names is es' → es = es'
  | [], _, _, .nil, .nil => rfl
  | e :: es, _, _, .cons h hs, .cons h' hs' => by
    rw [Spells.unique e h h', SpellsAll.unique es hs hs']

end

end Tables

/-! ## Lowering is faithful -/

namespace Lowering

open Occurrence

variable {s s' : Lowering} {earlier : List WrittenLeaf} {symbol : Symbol String}
  {target : Symbol RuleId}

/-- Reading the table of the builder from this number on gives the written body. -/
def Reads (s : Lowering) (i : NodeId) (e : Expr) : Prop :=
  Spells s.builder.nodes s.builder.names i e

def ReadsAll (s : Lowering) (is : List NodeId) (es : List Expr) : Prop :=
  SpellsAll s.builder.nodes s.builder.names is es

theorem Reads.grows (h : s.Reads i e) (hg : s.builder.Grows s'.builder) : s'.Reads i e :=
  Spells.extends hg.node (Builder.getElem?_of_isPrefix hg.names_isPrefix) e h

theorem ReadsAll.grows (h : s.ReadsAll is es) (hg : s.builder.Grows s'.builder) :
    s'.ReadsAll is es :=
  SpellsAll.extends hg.node (Builder.getElem?_of_isPrefix hg.names_isPrefix) es h

theorem spellsSymbol_of_resolves {b : Builder} (h : b.Resolves symbol target) :
    SpellsSymbol b.names target symbol := by
  match symbol, target, h with
  | .terminal _, .terminal _, h => exact h.symm
  | .rule _, .rule _, h => exact h.2

theorem Leads.grows {m : LowerM α} (h : s.Leads m Q) :
    s.Leads m fun a s' => s.builder.Grows s'.builder ∧ Q a s' := by
  unfold Leads at h ⊢
  split at h
  · exact ⟨h.1, h.2.1, h.1, h.2.2⟩
  · exact h

theorem resolve_resolves (hs : s.Sound) (symbol : Symbol String) :
    s.Leads (resolve symbol) fun target s' => s'.builder.Resolves symbol target ∧
      (∀ r, target = .rule r → r < s'.builder.slots.size) ∧ s'.claims = s.claims := by
  have hleads := resolve_leads hs symbol
  obtain ⟨target, b, hrun, -, hresolves, -⟩ := resolve_run hs.indexed symbol
  unfold Leads at hleads ⊢
  rw [hrun] at hleads ⊢
  exact ⟨hleads.1, hleads.2.1, hresolves, hleads.2.2⟩

/-- A leaf gets its index by the law, or none. -/
theorem claim_agrees (hs : s.Sound) (ha : s.Agrees earlier)
    (hr : s.builder.Resolves symbol target) (enclosing : String) (pin : Option Nat) :
    s.Leads (claim enclosing target pin) fun index s' => s'.builder = s.builder ∧
      s'.Agrees (earlier ++ [(symbol, pin)]) ∧
      index = indexAfter (numbered earlier) (symbol, pin) := by
  have hleads := claim_leads hs enclosing target pin
  unfold Leads at hleads ⊢
  rw [claim_run ha hr] at hleads ⊢
  cases htrouble : trouble? (numbered earlier) (symbol, pin) with
  | some trouble =>
    rw [htrouble] at hleads
    exact hleads
  | none =>
    rw [htrouble] at hleads
    exact ⟨hleads.1, hleads.2.1, rfl, ha.concat hr pin, rfl⟩

theorem number_agrees {node : NodeId → Node} (hs : s.Sound) (ha : s.Agrees earlier)
    (hid : ∀ i, (node i).id = i) (hchildren : ∀ i, ∀ c ∈ (node i).children, s.Has c)
    (hresolved : ∀ {i j r o}, node i = .leaf j (.rule r) o → r < s.builder.slots.size) :
    s.Leads (number node) fun n s' => s.builder.Grows s'.builder ∧ s'.Has n ∧ s'.Agrees earlier ∧
      n = node s.builder.nodes.size := by
  refine .imp (number_leads hs hid hchildren hresolved).grows ?_
  rintro n s' ⟨hgrows, hn, hclaims, hnode⟩
  exact ⟨hgrows, hn, ha.grows hgrows hclaims, hnode⟩

theorem separator_reads (hs : s.Sound) (ha : s.Agrees earlier) (enclosing : String)
    (kind : Terminal) :
    s.Leads (separator enclosing kind) fun sep s' => s'.Has sep.node ∧
      s'.Agrees (earlier ++ [(.terminal kind, none)]) ∧
      SpellsSeparator s'.builder.nodes (some sep) (some kind) := by
  have hresolves : s.builder.Resolves (.terminal kind) (.terminal kind) := rfl
  refine .bind (claim_agrees hs ha hresolves enclosing none)
    fun occurrence s₁ _ hs₁ ⟨_, ha₁, _⟩ => ?_
  refine .bind (number_agrees hs₁ ha₁ (fun _ => rfl) nofun nofun)
    fun leaf s₂ _ hs₂ ⟨_, hleaf, ha₂, hnode⟩ => .pure hs₂ ?_
  subst hnode
  exact ⟨hleaf, ha₂, _, _, hleaf⟩

mutual

/-- Lowering leaves a tree that reads like the written body, with the indices of the law. -/
theorem lower_reads (enclosing : String) : ∀ (e : Expr) {s : Lowering} {earlier},
    s.Sound → s.Agrees earlier → s.Leads (lower enclosing e) fun n s' => s'.Has n ∧
      s'.Agrees (earlier ++ e.leaves) ∧ s'.Reads n.id (e.filled earlier)
  | .leaf symbol pin, s, earlier, hs, ha => by
    unfold lower
    refine .bind (resolve_resolves hs symbol)
      fun target s₁ hg₁ hs₁ ⟨hresolves, htarget, hclaims₁⟩ => ?_
    have ha₁ := ha.grows hg₁ hclaims₁
    refine .bind (claim_agrees hs₁ ha₁ hresolves enclosing pin)
      fun occurrence s₂ _ hs₂ ⟨hbuilder, ha₂, hindex⟩ => ?_
    rw [← hbuilder] at hresolves htarget
    have hresolved {i j r o} (h : Node.leaf i target occurrence = .leaf j (.rule r) o) :
        r < s₂.builder.slots.size := by
      cases h
      exact htarget r rfl
    refine .imp (number_agrees hs₂ ha₂ (fun _ => rfl) nofun hresolved) ?_
    rintro n s' ⟨hg, hn, ha', rfl⟩
    refine ⟨hn, ha', ?_⟩
    rw [Expr.filled, ← hindex]
    exact .leaf hn (spellsSymbol_of_resolves (hresolves.extends hg.extends))
  | .group shape items, s, earlier, hs, ha => by
    unfold lower
    refine .bind (lowerItems_reads enclosing items hs ha)
      fun ns s₁ _ hs₁ ⟨hns, ha₁, hreads⟩ => ?_
    refine .imp (number_agrees hs₁ ha₁ (fun _ => rfl) (fun _ => hns) nofun) ?_
    rintro n s' ⟨hg, hn, ha', rfl⟩
    exact ⟨hn, ha', .group hn (hreads.grows hg)⟩
  | .loop kind body none, s, earlier, hs, ha => by
    unfold lower
    refine .bind (lower_reads enclosing body hs ha) fun b s₁ _ hs₁ ⟨hb, ha₁, hreads⟩ => ?_
    refine .imp (number_agrees hs₁ ha₁ (fun _ => rfl)
      (fun _ => List.forall_mem_singleton.2 hb) nofun) ?_
    rintro n s' ⟨hg, hn, ha', rfl⟩
    refine ⟨hn, ?_, .loop hn (hreads.grows hg) trivial⟩
    simpa only [Expr.leaves, Option.map_none, Option.toList_none, List.append_nil] using ha'
  | .loop kind body (some sep), s, earlier, hs, ha => by
    unfold lower
    refine .bind (lower_reads enclosing body hs ha) fun b s₁ _ hs₁ ⟨hb, ha₁, hreads⟩ => ?_
    refine .bind (separator_reads hs₁ ha₁ enclosing sep)
      fun leaf s₂ hg₂ hs₂ ⟨hleaf, ha₂, hsep⟩ => ?_
    have hchildren : ∀ c ∈ [b, leaf.node], s₂.Has c :=
      List.forall_mem_cons.2 ⟨hb.grows hg₂, List.forall_mem_singleton.2 hleaf⟩
    refine .imp (number_agrees hs₂ ha₂ (fun _ => rfl) (fun _ => hchildren) nofun) ?_
    rintro n s' ⟨hg, hn, ha', rfl⟩
    refine ⟨hn, ?_, .loop hn (hreads.grows (hg₂.trans hg)) (hsep.extends hg.node)⟩
    rwa [List.append_assoc] at ha'

theorem lowerItems_reads (enclosing : String) : ∀ (es : List Expr) {s : Lowering} {earlier},
    s.Sound → s.Agrees earlier → s.Leads (lowerItems enclosing es) fun ns s' =>
      (∀ n ∈ ns, s'.Has n) ∧ s'.Agrees (earlier ++ Expr.itemLeaves es) ∧
      s'.ReadsAll (ns.map Node.id) (Expr.filledItems earlier es)
  | [], s, earlier, hs, ha =>
    .pure hs ⟨List.forall_mem_nil _, by rwa [Expr.itemLeaves, List.append_nil], .nil⟩
  | e :: es, s, earlier, hs, ha => by
    unfold lowerItems
    refine .bind (lower_reads enclosing e hs ha) fun n s₁ _ hs₁ ⟨hn, ha₁, hreads⟩ => ?_
    refine .bind (lowerItems_reads enclosing es hs₁ ha₁)
      fun ns s₂ hg₂ hs₂ ⟨hns, ha₂, hreads₂⟩ => ?_
    refine .pure hs₂ ⟨List.forall_mem_cons.2 ⟨hn.grows hg₂, hns⟩, ?_,
      .cons (hreads.grows hg₂) hreads₂⟩
    rwa [List.append_assoc] at ha₂

end

end Lowering

/-! ## The walk over a body -/

/-- The rules that leaves refer to, with their indices. -/
def referencesAmong (leaves : List (Symbol ρ × Nat)) : List (ρ × Nat) :=
  leaves.filterMap fun
    | (.rule target, occurrence) => some (target, occurrence)
    | (.terminal _, _) => none

/-- The kinds that leaves consume, with their indices. -/
def terminalsAmong (leaves : List (Symbol ρ × Nat)) : List (Terminal × Nat) :=
  leaves.filterMap fun
    | (.terminal kind, occurrence) => some (kind, occurrence)
    | (.rule _, _) => none

theorem Node.references_eq (n : Node) : n.references = referencesAmong n.leaves := by
  refine List.filterMap_congr fun leaf _ => ?_
  obtain ⟨_ | _, _⟩ := leaf <;> rfl

theorem Node.terminals_eq (n : Node) : n.terminals = terminalsAmong n.leaves := by
  refine List.filterMap_congr fun leaf _ => ?_
  obtain ⟨_ | _, _⟩ := leaf <;> rfl

/-- What a node is as a leaf, if it is one. -/
def Node.leaf? : Node → Option (Symbol RuleId × Nat)
  | .leaf _ symbol occurrence => some (symbol, occurrence)
  | .group .. | .loop .. => none

namespace Grammar

/-- The walk with these numbers on its stack, the next one first, ends and visits these nodes: the
next one is looked up, and the numbers of its children take its place on the stack. -/
inductive Visits (g : Grammar) : List NodeId → List Node → Prop where
  | done : Visits g [] []
  | turn : g.node i = .ok n → Visits g (n.children.map Node.id ++ stack) visited →
    Visits g (i :: stack) (n :: visited)

/-- Wherever the walk has these numbers on its stack, it comes to what is below them on the stack
and has met these leaves. -/
def Passes (g : Grammar) (ids : List NodeId) (leaves : List (Symbol RuleId × Nat)) : Prop :=
  ∀ stack rest, g.Visits stack rest → ∃ visited, g.Visits (ids ++ stack) (visited ++ rest) ∧
    visited.filterMap Node.leaf? = leaves

variable {g : Grammar} {stack ids ids' : List NodeId} {visited visited' : List Node} {n : Node}
  {leaves leaves' : List (Symbol RuleId × Nat)}

theorem Visits.unique (h : g.Visits stack visited) (h' : g.Visits stack visited') :
    visited = visited' := by
  induction h generalizing visited' with
  | done =>
    cases h'
    rfl
  | turn hn _ ih =>
    cases h' with
    | turn hn' hrest =>
      cases hn.symm.trans hn'
      rw [ih hrest]

theorem Passes.nil : g.Passes [] [] := fun _ _ h => ⟨[], h, rfl⟩

theorem Passes.append (h : g.Passes ids leaves) (h' : g.Passes ids' leaves') :
    g.Passes (ids ++ ids') (leaves ++ leaves') := by
  intro stack rest hstack
  obtain ⟨visited', hvisits', hleaves'⟩ := h' stack rest hstack
  obtain ⟨visited, hvisits, hleaves⟩ := h _ _ hvisits'
  refine ⟨visited ++ visited', ?_, by rw [List.filterMap_append, hleaves, hleaves']⟩
  rwa [List.append_assoc, List.append_assoc]

/-- One turn: after the node its children are met. -/
theorem Passes.turn (hn : g.nodes[n.id]? = some n) (h : g.Passes (n.children.map Node.id) leaves) :
    g.Passes [n.id] (n.leaf?.toList ++ leaves) := by
  intro stack rest hstack
  obtain ⟨visited, hvisits, hleaves⟩ := h stack rest hstack
  have hnode : g.node n.id = .ok n := by simp only [node, hn]
  refine ⟨n :: visited, .turn hnode hvisits, ?_⟩
  cases hleaf : n.leaf? with
  | none => rw [List.filterMap_cons_none hleaf, hleaves]; rfl
  | some leaf => rw [List.filterMap_cons_some hleaf, hleaves]; rfl

theorem Passes.items {items : List Node} (h : ∀ item ∈ items, g.Passes [item.id] item.leaves) :
    g.Passes (items.map Node.id) (Node.itemLeaves items) := by
  induction items with
  | nil => exact .nil
  | cons item items ih =>
    obtain ⟨hitem, hitems⟩ := List.forall_mem_cons.1 h
    exact hitem.append (ih hitems)

/-- The walk over a tree of the table meets its leaves in declaration order. -/
theorem Passes.tree (hclosed : ∀ {i : NodeId} {n : Node}, g.nodes[i]? = some n →
    ∀ c ∈ n.children, g.nodes[c.id]? = some c) (n : Node) (hn : g.nodes[n.id]? = some n) :
    g.Passes [n.id] n.leaves := by
  induction n with
  | leaf id symbol occurrence => exact .turn hn .nil
  | group id shape items ih =>
    exact .turn hn (.items fun item hitem => ih item hitem (hclosed hn item hitem))
  | loop id kind body separator ih =>
    obtain ⟨hbody, hseparator⟩ := List.forall_mem_cons.1 (hclosed hn)
    have hpasses := ih hbody
    cases separator with
    | none => exact .turn hn (hpasses.append .nil)
    | some sep =>
      have hsep : g.Passes [sep.node.id] [(.terminal sep.kind, sep.occurrence)] :=
        .turn (hseparator sep.node List.mem_cons_self) .nil
      exact .turn hn (hpasses.append hsep)

end Grammar

/-! ## Declared bodies -/

namespace Builder

open Occurrence

variable {b : Builder} {n : Node} {listed : List IndexedLeaf}

theorem Lists.references (h : b.Lists n listed) : List.Forall₂
    (fun reference written => b.names[reference.1]? = some written.1 ∧ reference.2 = written.2)
    n.references (referencesAmong listed) := by
  refine List.rel_filterMap ?_ h
  rintro ⟨target, index⟩ ⟨symbol, index'⟩ ⟨hresolves, hindex⟩
  match symbol, target, hresolves with
  | .terminal _, .terminal _, _ => exact .none
  | .rule _, .rule _, hresolves => exact .some ⟨hresolves.2, hindex⟩

theorem Lists.terminals (h : b.Lists n listed) : n.terminals = terminalsAmong listed := by
  rw [← List.forall₂_eq_eq_eq]
  refine List.rel_filterMap ?_ h
  rintro ⟨target, index⟩ ⟨symbol, index'⟩ ⟨hresolves, hindex⟩
  match symbol, target, hresolves with
  | .terminal _, .terminal _, hkind => exact .some (Prod.ext hkind.symm hindex)
  | .rule _, .rule _, _ => exact .none

theorem isDeclared_of_ok (h : Builder.rule nm body resync b = .ok r b') :
    b.isDeclared nm = false := by
  by_contra hdeclared
  rw [rule_of_declared (by simpa using hdeclared)] at h
  cases h

/-- The body in the slot that a declaration has filled reads like the written one. -/
theorem Reached.rule_reads (hb : b.Reached) (hrule : Builder.rule nm body resync b = .ok r b') :
    ∃ n, b'.slots[r]? = some { name := nm, definition := some { name := nm, body := n, resync } } ∧
      b'.Lists n (numbered body.leaves) ∧ Spells b'.nodes b'.names n.id (body.filled []) := by
  have hnew := isDeclared_of_ok hrule
  have houtcome := hb.rule_outcome hnew body resync
  rw [hrule] at houtcome
  obtain ⟨-, ⟨n, hslot, -, hlists⟩, -⟩ := houtcome
  refine ⟨n, hslot, hlists, ?_⟩
  have hsound := hb.sound.declare nm
  have hempty : Lowering.Agrees { builder := (b.declare nm).2 } [] := ⟨hsound.indexed, .nil⟩
  have hreads := Lowering.lower_reads nm body hsound.lowering hempty
  rw [rule_of_undeclared hnew] at hrule
  unfold Lowering.Leads at hreads
  cases hlower : Lowering.lower nm body { builder := (b.declare nm).2 } with
  | error failure s =>
    rw [hlower] at hrule
    cases hrule
  | ok node s =>
    rw [hlower] at hrule hreads
    cases hrule
    obtain ⟨hgrows, -, -, -, hreads⟩ := hreads
    rw [define_slot, if_pos rfl, hb.sound.indexed.exists_empty_slot hnew hgrows] at hslot
    cases hslot
    rw [define_names]
    exact hreads

/-- A declared body is kept as written, and for good. In every grammar that is built later, reading
the node table from the body of the rule gives the written body with the missing indices filled in
and nothing else; the walk over the body ends, and its references and terminals are those of the
written leaves in declaration order. -/
theorem declared_as_written (hb : b.Reached) (hrule : Builder.rule nm body resync b = .ok r b')
    (hbuild : (b'.afterAll calls).build = .ok g) : ∃ R visited, g.rule r = .ok R ∧
      R.name = nm ∧ R.resync = resync ∧
      (∀ e, Spells g.nodes g.ruleNames R.body.id e ↔ e = body.filled []) ∧
      (∀ nodes, g.Visits [R.body.id] nodes ↔ nodes = visited) ∧
      R.body.references = referencesAmong (visited.filterMap Node.leaf?) ∧
      R.body.terminals = terminalsAmong (visited.filterMap Node.leaf?) ∧
      List.Forall₂ (fun reference written => g.ruleName reference.1 = .ok written.1 ∧
        reference.2 = written.2) R.body.references (referencesAmong (numbered body.leaves)) ∧
      R.body.terminals = terminalsAmong (numbered body.leaves) := by
  have hb' := hb.ruleAdded hrule
  have hextends := hb'.afterAll_extends calls
  obtain ⟨n, hslot, hlists, hreads⟩ := hb.rule_reads hrule
  have hR := hb'.rule_of_build hslot rfl hbuild
  obtain ⟨hnodes, -⟩ := build_eq_ok hbuild
  have hnames := (hb'.afterAll calls).sound.build_names hbuild
  have hwf := Grammar.Built.wellFormed ⟨_, hb'.afterAll calls, hbuild⟩
  obtain ⟨visited, hvisits, hleaves⟩ :=
    Grammar.Passes.tree hwf.nodes.closed n (hwf.bodies hR) [] [] .done
  simp only [List.append_nil] at hvisits
  have hspells : Spells g.nodes g.ruleNames n.id (body.filled []) := by
    rw [hnodes, hnames]
    exact Spells.extends hextends.node (getElem?_of_isPrefix hextends.names) _ hreads
  refine ⟨{ name := nm, body := n, resync }, visited, by simp only [Grammar.rule, hR], rfl, rfl,
    fun e => ⟨fun he => Spells.unique e he hspells, ?_⟩,
    fun nodes => ⟨fun hnodes => hnodes.unique hvisits, ?_⟩, ?_, ?_, ?_, hlists.terminals⟩
  · rintro rfl
    exact hspells
  · rintro rfl
    exact hvisits
  · rw [hleaves, Node.references_eq]
  · rw [hleaves, Node.terminals_eq]
  · refine (hlists.extends hextends).references.imp ?_
    rintro reference written ⟨hname, hindex⟩
    exact ⟨Grammar.ruleName_eq_ok.2 (hnames ▸ hname), hindex⟩

end Builder

namespace Sample

/-- After `pinned` comes a declaration that is refused and one that fails half-way. -/
def later : List Builder.Call :=
  [.rule "top" chain false, .rule "chain" (row [chain, rule "top", token 0 (some 0)]) true,
    .rule "chain" chain true]

/-- The chain in `pinned` has got the indices 4 and 5, and 6 for its separator, and later calls
leave it alone. -/
theorem pinned_as_written : ∃ r b' g R, Builder.rule "top" pinned true chains = .ok r b' ∧
    (b'.afterAll later).build = .ok g ∧ g.rule r = .ok R ∧ R.name = "top" ∧ R.resync = true ∧
    (∀ e, Spells g.nodes g.ruleNames R.body.id e ↔ e = row [token 0 (some 3),
      .leaf (.rule "chain") (some 1),
      .loop .zeroOrMore (row [token 0 (some 4), token 0 (some 5)]) (some 0), token 0 (some 2),
      .leaf (.rule "chain") (some 2)]) ∧
    R.body.terminals = [(0, 3), (0, 4), (0, 5), (0, 6), (0, 2)] := by
  have hb := chains_reached
  have hnew : chains.isDeclared "top" = false := by cbv
  have haccepted : Occurrence.Accepted pinned.leaves := by decide
  obtain ⟨r, b', hrule⟩ := hb.rule_of_accepted hnew haccepted true
  have hbuilds : (b'.afterAll later).build.toOption.isSome = true := by
    rw [← Builder.after_of_ok hrule]
    decide +kernel
  cases hbuild : (b'.afterAll later).build with
  | error error => simp [hbuild, Except.toOption] at hbuilds
  | ok g =>
    obtain ⟨R, -, hR, hname, hresync, hreads, -, -, -, -, hterminals⟩ :=
      Builder.declared_as_written hb hrule hbuild
    exact ⟨r, b', g, R, hrule, hbuild, hR, hname, hresync, hreads, hterminals⟩

end Sample

end Descent
