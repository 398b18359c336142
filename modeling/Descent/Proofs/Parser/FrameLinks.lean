import Descent.Proofs.Follow.Exactness
import Descent.Proofs.Parser.Conformance

/-!
# Frames with their follow keys

The analysis of a built grammar has recorded what may follow each leaf that can be matched
(`Setting.covered_of_built`). The lookups of a resync go by the frames: each frame but the outermost
one is that of a rule without a caller, or what may follow it in the rule below is recorded. This is
`Setting.Linked`. Frames stay linked when inner ones are taken away, when a rule without a caller
starts, and when a call that agrees with the grammar is made (`Linked.call`); and as long as they
are linked, no lookup of a resync fails (`Linked.resumePoint`).
-/

namespace Descent

variable {e : Setting} {s : State}

/-! ## Keys of the analysis -/

namespace Grammar

variable {g : Grammar}

theorem analyze_grammar {a : Analysis} (h : g.analyze = .ok a) : a.grammar = g := by
  unfold analyze at h
  cases hfollows : Follow.betweenRules g {} with
  | error failure => simp [hfollows, bind, Except.bind] at h
  | ok first =>
    cases hinRule : Follow.inRules g first.2 with
    | error failure => simp [hfollows, hinRule, bind, Except.bind] at h
    | ok second =>
      simp only [hfollows, hinRule, bind, Except.bind] at h
      cases h
      rfl

/-- A table that holds the entries of all rules has what was computed for a leaf. -/
theorem lookup_of_isSome {τ : Type} [Ord τ] [Std.TransOrd τ] [Std.LawfulEqOrd τ] [KeyTarget τ]
    {pick : Symbol RuleId → Option τ} {symbolOf : τ → Symbol RuleId} {t : Table τ} {key : Key τ}
    (hg : g.WellFormed) (hpick : Follow.Selects pick symbolOf)
    (ht : Follow.Holds g t (g.ruleIds.flatMap (Follow.exactEntries pick g)))
    (h : (g.exactFollow? key.enclosing (symbolOf key.target, key.occurrence)).isSome)
    (g' : Grammar) : ∃ set, t.lookup g' key = .ok set := by
  obtain ⟨set, hset⟩ := Option.isSome_iff_exists.1 h
  obtain ⟨set', hget, -⟩ := ht.get? ((mem_allEntries_iff hg hpick).2 hset)
  exact ⟨set', by rw [Table.lookup, hget]⟩

end Grammar

namespace Setting

/-- The analysis has recorded what may follow the leaves of its grammar that can be matched. -/
structure Covered (e : Setting) : Prop where
  references : ∀ {enclosing : RuleId} {R : Rule} {id : RuleId} {occurrence : Nat},
    e.grammar.rules[enclosing]? = some R → (id, occurrence) ∈ R.body.references →
    ∃ set, e.analysis.ruleFollows id occurrence enclosing = .ok set
  tokens : ∀ {enclosing : RuleId} {kind : Terminal} {occurrence : Nat},
    e.HasToken enclosing kind occurrence →
    ∃ set, e.analysis.terminalFollows kind occurrence enclosing = .ok set

theorem covered_of_built {g : Grammar} (hg : g.Built) (ha : g.analyze = .ok e.analysis) :
    e.Covered := by
  have hwf := hg.wellFormed
  obtain ⟨a, ha', hfollows, hinRule⟩ := Grammar.analyze_holds hwf
  obtain rfl : a = e.analysis := Except.ok.inj (ha'.symm.trans ha)
  obtain rfl : e.grammar = g := Grammar.analyze_grammar ha
  constructor
  · intro enclosing R id occurrence hrule hmem
    exact Grammar.lookup_of_isSome hwf Follow.references_selects hfollows
      ((Grammar.reference_isSome_iff hwf).2 ⟨R, hrule, hmem⟩) _
  · rintro enclosing kind occurrence ⟨R, hrule, hmem, hidle⟩
    exact Grammar.lookup_of_isSome hwf Follow.consumptions_selects hinRule
      ((Grammar.consumption_isSome_iff hwf).2 ⟨R, hrule, hmem, hidle⟩) _

/-! ## Linked frames -/

/-- Each frame that has a caller is that of a rule without one, or it is recorded what may follow it
there. -/
def Linked (e : Setting) : List Frame → Prop
  | frame :: caller :: frames =>
    (frame.isRoot = true ∨ ∃ set, e.frameFollows frame caller = .ok set) ∧
      e.Linked (caller :: frames)
  | _ => True

variable {frame : Frame} {frames : List Frame}

theorem Linked.tail (h : e.Linked frames) : e.Linked frames.tail := by
  match frames, h with
  | [], _ | [_], _ => trivial
  | _ :: _ :: _, h => exact h.2

theorem Linked.drop (h : e.Linked frames) (n : Nat) : e.Linked (frames.drop n) := by
  induction n generalizing frames with
  | zero => exact h
  | succ n ih =>
    cases frames with
    | nil => trivial
    | cons frame frames => exact ih h.tail

theorem Linked.root (h : e.Linked frames) (id : RuleId) : e.Linked (.root id :: frames) := by
  cases frames with
  | nil => trivial
  | cons caller frames => exact ⟨.inl rfl, h⟩

/-- A call that stands in the innermost rule is linked to it. -/
theorem Linked.call {name : String} {occurrence : Nat} {id : RuleId} (h : e.Linked s.frames)
    (hcovered : e.Covered) (hinner : s.Innermost (e.HasReference · name occurrence))
    (hid : e.resolve name = .ok id) : e.Linked ({ rule := id, occurrence } :: s.frames) := by
  cases hframes : s.frames with
  | nil => trivial
  | cons caller frames =>
    obtain ⟨R, hrule, hmem⟩ := hinner caller.rule (by simp [State.currentRule?, hframes]) id hid
    exact ⟨.inr (hcovered.references hrule hmem), hframes ▸ h⟩

theorem Linked.frameFollows {caller : Frame} (h : e.Linked (frame :: caller :: frames))
    (hroot : frame.isRoot = false) : ∃ own, e.frameFollows frame caller = .ok own := by
  apply h.1.resolve_left
  rw [hroot]
  exact Bool.false_ne_true

theorem Linked.resyncSet (h : e.Linked frames) : ∃ set, e.resyncSet frames = .ok set := by
  induction frames with
  | nil => exact ⟨∅, rfl⟩
  | cons frame frames ih =>
    cases frames with
    | nil => exact ⟨∅, rfl⟩
    | cons caller frames =>
      obtain ⟨outer, houter⟩ := ih h.tail
      unfold Setting.resyncSet
      rw [houter]
      cases hroot : frame.isRoot with
      | true => exact ⟨outer, rfl⟩
      | false =>
        obtain ⟨own, hown⟩ := h.frameFollows hroot
        rw [hown]
        exact ⟨outer ∪ own, rfl⟩

theorem Linked.resumePoint (h : e.Linked s.frames) : ∃ point, e.resumePoint s = .ok point := by
  obtain ⟨set, hset⟩ := h.resyncSet
  unfold Setting.resumePoint
  split
  next frame caller frames hframes =>
    split
    next => exact ⟨none, rfl⟩
    next hskip =>
      have hroot : frame.isRoot = false := by
        cases hr : frame.isRoot with
        | true => simp [hr] at hskip
        | false => rfl
      obtain ⟨own, hown⟩ := (hframes ▸ h).frameFollows hroot
      rw [hown, hset]
      exact ⟨_, rfl⟩
  next => exact ⟨none, rfl⟩

end Setting

end Descent
