import Descent.Proofs.First.Exactness

/-!
# First tokens of matches

The FIRST equations take a repetition to start with whatever its body starts with. Seen from the
matches of a tree this leaves one gap: where the body of a separated repetition has an empty match,
the separator can be the first token. `Grammar.Overlooks g k` says that `k` is such a separator. It
is the only gap: every other first token of a match is a kind that the equations give
(`Derives.starts`). So the FIRST sets of a grammar without left recursion hold the first tokens of
all matches if and only if no separator is overlooked.
-/

namespace Descent

namespace Grammar

/-- The kind separates the iterations of a repetition whose body has an empty match, but is not in
the FIRST set of that body. -/
def Overlooks (g : Grammar) (k : Terminal) : Prop :=
  ∃ (i : NodeId) (kind : Repetition) (body : Node) (separator : Separator),
    g.nodes[i]? = some (.loop i kind body (some separator)) ∧ kind.repeats = true ∧
      separator.kind = k ∧ g.Derives body [] ∧ k ∉ (g.exact body).first

variable {g : Grammar} {e : Engine} {i : NodeId} {n body : Node} {kind : Repetition}
  {separator : Separator} {k : Terminal} {u v : List Terminal}

/-! ## From matches to first kinds -/

theorem starts_of_not_overlooks (hk : ¬ g.Overlooks k)
    (hn : g.nodes[i]? = some (.loop i kind body (some separator))) (hrep : kind.repeats = true)
    (hsep : separator.kind = k) (hbody : g.Nullable [] body) : g.Starts [] body k := by
  by_contra hstarts
  refine hk ⟨i, kind, body, separator, hn, hrep, hsep, nullable_iff_derives.1 hbody, ?_⟩
  exact fun hmem => hstarts (mem_exact_first_iff.1 hmem)

/-- The first token of two strings in a row is that of the first one, or of the second one if the
first is empty. -/
theorem head?_append_cases (h : (u ++ v).head? = some k) :
    u.head? = some k ∨ u = [] ∧ v.head? = some k := by
  rw [List.head?_append, Option.or_eq_some_iff] at h
  exact h.imp_right (.imp_left List.head?_eq_none_iff.1)

mutual

/-- A kind that stands first in a match and is not overlooked starts the tree. -/
theorem Derives.starts (hg : g.WellFormed) (hk : ¬ g.Overlooks k) :
    ∀ {n : Node} {w : List Terminal}, g.Derives n w → g.nodes[n.id]? = some n →
      w.head? = some k → g.Starts [] n k
  | _, _, .token, _, hw => by
    cases hw
    exact .token
  | _, _, .reference hrule h, _, hw =>
    .reference List.not_mem_nil hrule (h.starts hg hk (hg.bodies hrule) hw)
  | _, _, .row hs h, hn, hw =>
    ((alike_row Shape.sequence_ne hs).starts [] k).1 (h.starts hg hk (hg.nodes.closed hn) hw)
  | _, _, .branch hb h, hn, hw => .branch hb (h.starts hg hk (hg.nodes.closed hn _ hb) hw)
  | _, _, .skip _, _, hw => by cases hw
  | _, _, .once h, hn, hw =>
    .loop (h.starts hg hk (hg.nodes.closed hn _ List.mem_cons_self) hw)
  | _, _, .repeated hrep h, hn, hw => by
    have hbody := hg.nodes.closed hn _ List.mem_cons_self
    rcases h.starts hg hk hbody hw with hstarts | ⟨separator, rfl, hsep, hnull⟩
    · exact .loop hstarts
    · exact .loop (starts_of_not_overlooks hk hn hrep hsep hnull)

theorem DerivesRow.starts (hg : g.WellFormed) (hk : ¬ g.Overlooks k) :
    ∀ {items : List Node} {w : List Terminal}, g.DerivesRow items w →
      (∀ item ∈ items, g.nodes[item.id]? = some item) → w.head? = some k →
      g.Starts [] (.group 0 .sequence items) k
  | _, _, .nil, _, hw => by cases hw
  | _, _, .cons h hrest, hn, hw => by
    obtain ⟨hitem, hitems⟩ := List.forall_mem_cons.1 hn
    rw [starts_cons_iff (j := 0) Shape.sequence_ne]
    rcases head?_append_cases hw with hw | ⟨hnil, hw⟩
    · exact .inl (h.starts hg hk hitem hw)
    · exact .inr ⟨h.nullable hnil, hrest.starts hg hk hitems hw⟩

/-- A match of several iterations starts like the body, or with the separator after an empty
iteration. -/
theorem DerivesLoop.starts (hg : g.WellFormed) (hk : ¬ g.Overlooks k) :
    ∀ {body : Node} {separator : Option Separator} {w : List Terminal},
      g.DerivesLoop body separator w → g.nodes[body.id]? = some body → w.head? = some k →
      g.Starts [] body k ∨ ∃ s, separator = some s ∧ s.kind = k ∧ g.Nullable [] body
  | _, _, _, .last h, hn, hw => .inl (h.starts hg hk hn hw)
  | _, separator, _, .more h hrest, hn, hw => by
    have hlater := hrest.starts hg hk hn
    rw [List.append_assoc] at hw
    rcases head?_append_cases hw with hw | ⟨hnil, hw⟩
    · exact .inl (h.starts hg hk hn hw)
    · cases separator with
      | none => exact hlater hw
      | some s => exact .inr ⟨s, rfl, Option.some.inj hw, h.nullable hnil⟩

end

/-- An overlooked separator stands first in a match of its repetition, and is not in the FIRST set
of it. -/
theorem Overlooks.missed (h : g.Overlooks k) : ∃ (i : NodeId) (n : Node),
    g.nodes[i]? = some n ∧ g.Derives n [k] ∧ k ∉ (g.exact n).first := by
  obtain ⟨i, kind, body, separator, hn, hrep, rfl, hbody, hmem⟩ := h
  exact ⟨i, _, hn, .repeated hrep (.more hbody (.last hbody)), hmem⟩

/-! ## The engine and the matches -/

/-- The engine answers the question for the node, and the kind is in its answer. -/
def Finds (g : Grammar) (e : Engine) (i : NodeId) (k : Terminal) : Prop :=
  ∃ info e', e.nodeInfo g i = .ok (info, e') ∧ k ∈ info.first

theorem tame_of_not_leftRecursive (hl : ∀ r, ¬ g.LeftRecursive r) : g.Tame :=
  fun r hr => (hl r hr).elim

/-- In a tame grammar the engine finds the kinds that the FIRST equations give. -/
theorem Ready.finds_iff (he : g.Ready e) (hg : g.WellFormed) (ht : g.Tame)
    (hn : g.nodes[i]? = some n) : g.Finds e i k ↔ k ∈ (g.exact n).first := by
  obtain ⟨info, e', hq, hfits⟩ := (he.nodeInfo hg i).fits hn
  rw [← hfits.tame ht]
  constructor
  · rintro ⟨info', e'', hq', hk⟩
    cases hq.symm.trans hq'
    exact hk
  · intro hk
    exact ⟨info, e', hq, hk⟩

/-- In a built grammar without left recursion, and whatever was asked before: a kind is found for
every node that has a match starting with it, if and only if the kind is not an overlooked
separator. -/
theorem first_tokens_found_iff (hg : g.Built) (hl : ∀ r, ¬ g.LeftRecursive r) (he : g.Asked e)
    (k : Terminal) :
    (∀ (i : NodeId) n w, g.nodes[i]? = some n → g.Derives n (k :: w) → g.Finds e i k) ↔
      ¬ g.Overlooks k := by
  have hwf := hg.wellFormed
  have hready := he.ready hwf
  have ht := tame_of_not_leftRecursive hl
  constructor
  · intro hfinds hover
    obtain ⟨i, n, hn, hderives, hmem⟩ := hover.missed
    exact hmem ((hready.finds_iff hwf ht hn).1 (hfinds i n [] hn hderives))
  · intro hover i n w hn hderives
    have hstarts := hderives.starts hwf hover (hwf.nodes.numbered hn ▸ hn) rfl
    exact (hready.finds_iff hwf ht hn).2 (mem_exact_first_iff.2 hstarts)

/-- Records with an optional sign and at least one field. -/
def records : Draft where
  name := "records"
  terminals := ["Sign", "Field", "Comma"]
  rules :=
    [{ name := "record"
       body := .group .sequence
         [.loop .optional (.leaf (.terminal 0) none) none, .leaf (.rule "fields") none] },
     { name := "fields", body := .loop .oneOrMore (.leaf (.terminal 1) none) (some 2) }]

/-- The body of the rule of records. -/
def recordBody : Node :=
  .group 3 .sequence [.loop 1 .optional (.leaf 0 (.terminal 0) 1) none, .leaf 2 (.rule 1) 1]

/-- The body of the rule of fields. -/
def fieldsBody : Node :=
  .loop 6 .oneOrMore (.leaf 4 (.terminal 1) 1) (some { id := 5, kind := 2, occurrence := 1 })

/-- The grammar of records. -/
def recordsBuilt : Grammar where
  name := "records"
  registry :=
    { names := #["Sign", "Field", "Comma"], byName := [("Comma", 2), ("Field", 1), ("Sign", 0)] }
  nodes := #[.leaf 0 (.terminal 0) 1, .loop 1 .optional (.leaf 0 (.terminal 0) 1) none,
    .leaf 2 (.rule 1) 1, recordBody, .leaf 4 (.terminal 1) 1, .leaf 5 (.terminal 2) 1, fieldsBody]
  rules := #[{ name := "record", body := recordBody, resync := true },
    { name := "fields", body := fieldsBody, resync := true }]
  byName := [("fields", 1), ("record", 0)]

theorem records_build : records.build = .ok recordsBuilt := by cbv

/-- The fields refer to no rule, and a record to fields only. -/
theorem records_leftEdge (h : recordsBuilt.LeftEdge r r') : r = 0 ∧ r' = 1 := by
  obtain ⟨R, hR, hleft⟩ := h
  match r, hR with
  | 0, hR =>
    cases hR
    cases hleft with
    | @row _ _ front item back _ _ _ hitems _ hleft =>
      have hmem : item ∈ front ++ item :: back := List.mem_append_right _ List.mem_cons_self
      rw [← hitems] at hmem
      rcases List.mem_pair.1 hmem with rfl | rfl
      · cases hleft with
        | loop hleft => cases hleft
      · cases hleft
        exact ⟨rfl, rfl⟩
  | 1, hR =>
    cases hR
    cases hleft with
    | loop hleft => cases hleft

theorem records_not_leftRecursive (r : RuleId) : ¬ recordsBuilt.LeftRecursive r := by
  intro h
  obtain ⟨r', hfirst, -⟩ := Relation.TransGen.head'_iff.1 h
  obtain ⟨r'', -, hlast⟩ := Relation.TransGen.tail'_iff.1 h
  have hzero := (records_leftEdge hfirst).1
  have hone := (records_leftEdge hlast).2
  exact Nat.zero_ne_one (hzero.symm.trans hone)

/-- The only separator stands between fields, which are not empty. -/
theorem records_not_overlooks (k : Terminal) : ¬ recordsBuilt.Overlooks k := by
  rintro ⟨i, kind, body, separator, hn, -, -, hbody, -⟩
  match i, hn with
  | 6, hn =>
    cases hn
    cases hbody

/-- A record can start with its first field, which the engine finds. -/
theorem records_field_found : (∀ r, ¬ recordsBuilt.LeftRecursive r) ∧
    recordsBuilt.Derives recordBody [1, 2, 1] ∧ recordsBuilt.Finds {} 3 1 := by
  have hfield : recordsBuilt.Derives (.leaf 4 (.terminal 1) 1) [1] := .token
  have hfields : recordsBuilt.Derives fieldsBody [1, 2, 1] :=
    .repeated rfl (.more hfield (.last hfield))
  have hrest : recordsBuilt.DerivesRow [.leaf 2 (.rule 1) 1] ([1, 2, 1] ++ []) :=
    .cons (.reference rfl hfields) .nil
  have hrecord : recordsBuilt.Derives recordBody [1, 2, 1] :=
    .row Shape.sequence_ne (.cons (.skip rfl) hrest)
  refine ⟨records_not_leftRecursive, hrecord, ?_⟩
  exact (first_tokens_found_iff (Draft.built records_build) records_not_leftRecursive .fresh 1).2
    (records_not_overlooks 1) 3 recordBody [2, 1] rfl hrecord

/-- Rows of items, where an item may be left out. -/
def gaps : Draft where
  name := "gaps"
  terminals := ["Item", "Comma"]
  rules :=
    [{ name := "row"
       body := .loop .zeroOrMore (.loop .optional (.leaf (.terminal 0) none) none) (some 1) }]

/-- The body of the rule of rows with gaps. -/
def gapsBody : Node :=
  .loop 3 .zeroOrMore (.loop 1 .optional (.leaf 0 (.terminal 0) 1) none)
    (some { id := 2, kind := 1, occurrence := 1 })

/-- The grammar of rows with gaps. -/
def gapsBuilt : Grammar where
  name := "gaps"
  registry := { names := #["Item", "Comma"], byName := [("Comma", 1), ("Item", 0)] }
  nodes := #[.leaf 0 (.terminal 0) 1, .loop 1 .optional (.leaf 0 (.terminal 0) 1) none,
    .leaf 2 (.terminal 1) 1, gapsBody]
  rules := #[{ name := "row", body := gapsBody, resync := true }]
  byName := [("row", 0)]

theorem gaps_build : gaps.build = .ok gapsBuilt := by cbv

theorem gaps_not_leftRecursive (r : RuleId) : ¬ gapsBuilt.LeftRecursive r := by
  intro h
  obtain ⟨r', ⟨R, hR, hleft⟩, -⟩ := Relation.TransGen.head'_iff.1 h
  match r, hR with
  | 0, hR =>
    cases hR
    -- the only leaf of the body is a token
    cases hleft with
    | loop hleft => cases hleft with
      | loop hleft => cases hleft

/-- A row of two gaps is a comma, which the engine does not find. -/
theorem gaps_comma_missed : gapsBuilt.Built ∧ (∀ r, ¬ gapsBuilt.LeftRecursive r) ∧
    gapsBuilt.nodes[3]? = some gapsBody ∧ gapsBuilt.Derives gapsBody [1] ∧
    gapsBuilt.firstOf 3 = .ok (.single 0) ∧ ¬ gapsBuilt.Finds {} 3 1 := by
  have hgap : gapsBuilt.Derives (.loop 1 .optional (.leaf 0 (.terminal 0) 1) none) [] := .skip rfl
  have hfirst : gapsBuilt.firstOf 3 = .ok (.single 0) := by cbv
  refine ⟨Draft.built gaps_build, gaps_not_leftRecursive, rfl, ?_, hfirst, ?_⟩
  · exact .repeated rfl (.more hgap (.last hgap))
  · rintro ⟨info, e, hq, hk⟩
    rw [firstOf, hq] at hfirst
    have hset : info.first = .single 0 := Except.ok.inj hfirst
    rw [hset] at hk
    revert hk
    decide

end Grammar

end Descent
