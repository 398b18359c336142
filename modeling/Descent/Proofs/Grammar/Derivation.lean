import Descent.Grammar.Basic

/-!
# What a node matches

`Grammar.Derives g n w` says that the node `n` can match the tokens `w`. From it come the two
questions that the FIRST engine answers: whether a node has an empty match, and which kinds can
stand first in a match.

Both are asked here relative to a list of rules that a match must not enter (`Grammar.Nullable`,
`Grammar.Starts`). With nothing to avoid they are the plain questions. A rule never has to be
entered below itself: `Nullable.cut` and `Starts.cut` turn a match into one that avoids one more
rule, at the price of starting over at the body of that rule. This is why a search that stops at
rules in progress loses nothing.
-/

namespace Descent

namespace Grammar

mutual

/-- The tree can match the tokens. -/
inductive Derives (g : Grammar) : Node → List Terminal → Prop where
  | token : Derives g (.leaf i (.terminal kind) occurrence) [kind]
  | reference : g.rules[r]? = some R → Derives g R.body w →
    Derives g (.leaf i (.rule r) occurrence) w
  | row : shape ≠ .alternation → DerivesRow g items w → Derives g (.group i shape items) w
  | branch : branch ∈ branches → Derives g branch w →
    Derives g (.group i .alternation branches) w
  | skip : kind.allowsEmpty = true → Derives g (.loop i kind body separator) []
  | once : Derives g body w → Derives g (.loop i kind body separator) w
  | repeated : kind.repeats = true → DerivesLoop g body separator w →
    Derives g (.loop i kind body separator) w

/-- The trees, one after the other, can match the tokens. -/
inductive DerivesRow (g : Grammar) : List Node → List Terminal → Prop where
  | nil : DerivesRow g [] []
  | cons : Derives g item u → DerivesRow g items v → DerivesRow g (item :: items) (u ++ v)

/-- The tokens are one or more matches of the body, with a separator between any two of them. -/
inductive DerivesLoop (g : Grammar) : Node → Option Separator → List Terminal → Prop where
  | last : Derives g body w → DerivesLoop g body separator w
  | more : Derives g body u → DerivesLoop g body separator v →
    DerivesLoop g body separator (u ++ (separator.map Separator.kind).toList ++ v)

end

/-- The tree has an empty match that enters no rule of `avoid`. -/
inductive Nullable (g : Grammar) (avoid : List RuleId) : Node → Prop where
  | reference : r ∉ avoid → g.rules[r]? = some R → Nullable g avoid R.body →
    Nullable g avoid (.leaf i (.rule r) occurrence)
  | row : shape ≠ .alternation → (∀ item ∈ items, Nullable g avoid item) →
    Nullable g avoid (.group i shape items)
  | branch : branch ∈ branches → Nullable g avoid branch →
    Nullable g avoid (.group i .alternation branches)
  | skip : kind.allowsEmpty = true → Nullable g avoid (.loop i kind body separator)
  | once : Nullable g avoid body → Nullable g avoid (.loop i kind body separator)

/-- The kind stands first in a match of the tree, and no rule of `avoid` is entered on the way to
it. What stands before it in a row is matched empty, in any way. -/
inductive Starts (g : Grammar) (avoid : List RuleId) : Node → Terminal → Prop where
  | token : Starts g avoid (.leaf i (.terminal kind) occurrence) kind
  | reference : r ∉ avoid → g.rules[r]? = some R → Starts g avoid R.body k →
    Starts g avoid (.leaf i (.rule r) occurrence) k
  | row : shape ≠ .alternation → items = front ++ item :: back →
    (∀ before ∈ front, Nullable g [] before) → Starts g avoid item k →
    Starts g avoid (.group i shape items) k
  | branch : branch ∈ branches → Starts g avoid branch k →
    Starts g avoid (.group i .alternation branches) k
  | loop : Starts g avoid body k → Starts g avoid (.loop i kind body separator) k

variable {g : Grammar} {avoid avoid' : List RuleId}

/-! ## Empty matches -/

theorem not_nullable_token : ¬ g.Nullable avoid (.leaf i (.terminal kind) occurrence) := nofun

theorem nullable_reference_iff : g.Nullable avoid (.leaf i (.rule r) occurrence) ↔
    r ∉ avoid ∧ ∃ R, g.rules[r]? = some R ∧ g.Nullable avoid R.body := by
  constructor
  · rintro (⟨hr, hrule, h⟩ | _)
    exact ⟨hr, _, hrule, h⟩
  · intro ⟨hr, R, hrule, h⟩
    exact .reference hr hrule h

theorem nullable_row_iff (hs : shape ≠ .alternation) :
    g.Nullable avoid (.group i shape items) ↔ ∀ item ∈ items, g.Nullable avoid item := by
  constructor
  · intro h
    cases h with
    | row _ h => exact h
    | branch => exact (hs rfl).elim
  · exact .row hs

theorem nullable_choice_iff : g.Nullable avoid (.group i .alternation branches) ↔
    ∃ branch ∈ branches, g.Nullable avoid branch := by
  constructor
  · intro h
    cases h with
    | row hs _ => exact (hs rfl).elim
    | branch hb h => exact ⟨_, hb, h⟩
  · intro ⟨branch, hb, h⟩
    exact .branch hb h

theorem nullable_loop_iff : g.Nullable avoid (.loop i kind body separator) ↔
    kind.allowsEmpty = true ∨ g.Nullable avoid body := by
  constructor
  · intro h
    cases h with
    | skip hk => exact .inl hk
    | once h => exact .inr h
  · intro h
    rcases h with hk | h
    · exact .skip hk
    · exact .once h

theorem Nullable.mono (h : g.Nullable avoid n) (hsub : avoid' ⊆ avoid) : g.Nullable avoid' n := by
  induction h with
  | reference hr hrule _ ih => exact .reference (fun hr' => hr (hsub hr')) hrule ih
  | row hs _ ih => exact .row hs ih
  | branch hb _ ih => exact .branch hb ih
  | skip hk => exact .skip hk
  | once _ ih => exact .once ih

/-- An empty match either avoids one more rule, or enters it and so shows an empty match of the
rule's body that does not enter it again. -/
theorem Nullable.cut (h : g.Nullable avoid n) (hrule : g.rules[r]? = some R) :
    g.Nullable (r :: avoid) n ∨ g.Nullable (r :: avoid) R.body := by
  induction h with
  | @reference r' R' _ _ hr' hrule' _ ih =>
    rcases ih with ih | ih
    · by_cases hrr : r' = r
      · subst hrr
        cases hrule.symm.trans hrule'
        exact .inr ih
      · exact .inl (.reference (by simp [hrr, hr']) hrule' ih)
    · exact .inr ih
  | @row shape items _ hs _ ih =>
    by_cases hall : ∀ item ∈ items, g.Nullable (r :: avoid) item
    · exact .inl (.row hs hall)
    · simp only [Classical.not_forall] at hall
      obtain ⟨item, hmem, hitem⟩ := hall
      exact .inr ((ih item hmem).resolve_left hitem)
  | branch hb _ ih => exact ih.imp_left (.branch hb)
  | skip hk => exact .inl (.skip hk)
  | once _ ih => exact ih.imp_left .once

/-- The body of a rule has an empty match that avoids the rule itself if it has any. -/
theorem Nullable.avoid_self (h : g.Nullable avoid R.body) (hrule : g.rules[r]? = some R) :
    g.Nullable (r :: avoid) R.body :=
  (h.cut hrule).elim id id

/-! ## First kinds -/

theorem starts_token_iff : g.Starts avoid (.leaf i (.terminal kind) occurrence) k ↔ k = kind := by
  constructor
  · rintro ⟨⟩
    rfl
  · rintro rfl
    exact .token

theorem starts_reference_iff : g.Starts avoid (.leaf i (.rule r) occurrence) k ↔
    r ∉ avoid ∧ ∃ R, g.rules[r]? = some R ∧ g.Starts avoid R.body k := by
  constructor
  · rintro (_ | ⟨hr, hrule, h⟩)
    exact ⟨hr, _, hrule, h⟩
  · intro ⟨hr, R, hrule, h⟩
    exact .reference hr hrule h

theorem starts_choice_iff : g.Starts avoid (.group i .alternation branches) k ↔
    ∃ branch ∈ branches, g.Starts avoid branch k := by
  constructor
  · intro h
    cases h with
    | row hs => exact (hs rfl).elim
    | branch hb h => exact ⟨_, hb, h⟩
  · intro ⟨branch, hb, h⟩
    exact .branch hb h

theorem starts_loop_iff : g.Starts avoid (.loop i kind body separator) k ↔
    g.Starts avoid body k := by
  constructor
  · rintro ⟨⟩
    assumption
  · exact .loop

theorem not_starts_nil (hs : shape ≠ .alternation) : ¬ g.Starts avoid (.group i shape []) k := by
  intro h
  cases h with
  | row _ hitems => simp at hitems
  | branch => exact hs rfl

/-- A row starts with what its first item starts with, and, where that has an empty match, with
what the other items start with. -/
theorem starts_cons_iff (hs : shape ≠ .alternation) :
    g.Starts avoid (.group i shape (item :: items)) k ↔
      g.Starts avoid item k ∨ g.Nullable [] item ∧ g.Starts avoid (.group j shape items) k := by
  constructor
  · intro h
    cases h with
    | @row _ _ front _ _ _ _ _ hitems hfront h =>
      cases front with
      | nil =>
        cases hitems
        exact .inl h
      | cons before front =>
        cases hitems
        exact .inr ⟨hfront _ List.mem_cons_self,
          .row hs rfl (fun n hn => hfront n (List.mem_cons_of_mem _ hn)) h⟩
    | branch => exact (hs rfl).elim
  · intro h
    rcases h with h | ⟨hitem, h⟩
    · exact .row hs (List.nil_append _).symm (by simp) h
    · cases h with
      | row _ hitems hfront h =>
        exact .row hs (congrArg (item :: ·) hitems) (List.forall_mem_cons.2 ⟨hitem, hfront⟩) h
      | branch => exact (hs rfl).elim

theorem Starts.mono (h : g.Starts avoid n k) (hsub : avoid' ⊆ avoid) : g.Starts avoid' n k := by
  induction h with
  | token => exact .token
  | reference hr hrule _ ih => exact .reference (fun hr' => hr (hsub hr')) hrule ih
  | row hs hitems hfront _ ih => exact .row hs hitems hfront ih
  | branch hb _ ih => exact .branch hb ih
  | loop _ ih => exact .loop ih

/-- The way to a first kind either avoids one more rule, or its last part does, from the body of
that rule on. -/
theorem Starts.cut (h : g.Starts avoid n k) (hrule : g.rules[r]? = some R) :
    g.Starts (r :: avoid) n k ∨ g.Starts (r :: avoid) R.body k := by
  induction h with
  | token => exact .inl .token
  | @reference r' R' _ _ _ hr' hrule' _ ih =>
    rcases ih with ih | ih
    · by_cases hrr : r' = r
      · subst hrr
        cases hrule.symm.trans hrule'
        exact .inr ih
      · exact .inl (.reference (by simp [hrr, hr']) hrule' ih)
    · exact .inr ih
  | row hs hitems hfront _ ih => exact ih.imp_left (.row hs hitems hfront)
  | branch hb _ ih => exact ih.imp_left (.branch hb)
  | loop _ ih => exact ih.imp_left .loop

/-- Whatever the body of a rule starts with, it starts with on a way that avoids the rule. -/
theorem Starts.avoid_self (h : g.Starts avoid R.body k) (hrule : g.rules[r]? = some R) :
    g.Starts (r :: avoid) R.body k :=
  (h.cut hrule).elim id id

/-! ## Empty matches are empty derivations -/

mutual

theorem Derives.nullable : ∀ {n : Node} {w : List Terminal}, g.Derives n w → w = [] →
    g.Nullable [] n
  | _, _, .reference hrule h, hw => .reference List.not_mem_nil hrule (h.nullable hw)
  | _, _, .row hs h, hw => .row hs (h.nullable hw)
  | _, _, .branch hb h, hw => .branch hb (h.nullable hw)
  | _, _, .skip hk, _ => .skip hk
  | _, _, .once h, hw => .once (h.nullable hw)
  | _, _, .repeated _ h, hw => .once (h.nullable hw)

theorem DerivesRow.nullable : ∀ {items : List Node} {w : List Terminal}, g.DerivesRow items w →
    w = [] → ∀ item ∈ items, g.Nullable [] item
  | _, _, .nil, _ => by simp
  | _, _, .cons h hs, hw => by
    obtain ⟨hu, hv⟩ := List.append_eq_nil_iff.1 hw
    exact List.forall_mem_cons.2 ⟨h.nullable hu, hs.nullable hv⟩

theorem DerivesLoop.nullable : ∀ {body : Node} {separator : Option Separator} {w : List Terminal},
    g.DerivesLoop body separator w → w = [] → g.Nullable [] body
  | _, _, _, .last h, hw => h.nullable hw
  | _, _, _, .more h _, hw => by
    rw [List.append_assoc] at hw
    exact h.nullable (List.append_eq_nil_iff.1 hw).1

end

theorem DerivesRow.of_forall : ∀ {items : List Node}, (∀ item ∈ items, g.Derives item []) →
    g.DerivesRow items []
  | [], _ => .nil
  | _ :: _, h =>
    .cons (h _ List.mem_cons_self) (.of_forall fun n hn => h n (List.mem_cons_of_mem _ hn))

/-- The plain question for an empty match is the question for a derivation of no tokens. -/
theorem nullable_iff_derives : g.Nullable [] n ↔ g.Derives n [] := by
  constructor
  · intro h
    induction h with
    | reference _ hrule _ ih => exact .reference hrule ih
    | row hs _ ih => exact .row hs (.of_forall ih)
    | branch hb _ ih => exact .branch hb ih
    | skip hk => exact .skip hk
    | once _ ih => exact .once ih
  · exact fun h => h.nullable rfl

end Grammar

end Descent
