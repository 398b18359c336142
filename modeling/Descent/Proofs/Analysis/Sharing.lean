import Mathlib.Data.Set.Card
import Descent.Proofs.Analysis.Stages
import Descent.Sample

/-!
# One analysis for each identity

A cache publishes at most one analysis for an identity and shares it with every call, whatever the
builds do in the meantime: they may ask for the same identity again, fail, or give up. This is said
of every stage of every job (`Job.Stage.WriteOnce`, `Job.analyses_shared`). The invariant behind it
is kept by each step: the publications are numbered (`Cache.Numbered`), and the log of calls agrees
with the cache (`Job.Stage.Logged`).
-/

namespace Descent

/-- The publications of the cache are numbered in the order they were made. -/
structure Cache.Numbered (c : Cache) : Prop where
  count : {id | c.standing id = .analyzed}.encard = c.analyses
  serial_lt : ∀ {id entry}, c.get? id = some entry → entry.serial < c.analyses
  serial_inj : ∀ {id id' entry entry'}, c.get? id = some entry → c.get? id' = some entry' →
    entry.serial = entry'.serial → id = id'

namespace Cache.Numbered

variable {c c' : Cache} {id : Identity}

theorem empty : Numbered {} where
  count := by simp [standing, progress?]
  serial_lt h := nomatch h
  serial_inj h := nomatch h

/-- Only publications matter. -/
theorem congr (h : c.Numbered) (hget : ∀ id, c'.get? id = c.get? id)
    (hanalyses : c'.analyses = c.analyses) : c'.Numbered where
  count := by simpa only [standing_eq_analyzed_iff, hget, hanalyses] using h.count
  serial_lt hentry := by
    rw [hanalyses]
    exact h.serial_lt (hget _ ▸ hentry)
  serial_inj hentry hentry' := h.serial_inj (hget _ ▸ hentry) (hget _ ▸ hentry')

theorem publish (h : c.Numbered) (hnone : c.get? id = none) (analysis : Analysis) :
    (c.publish id analysis).2.Numbered := by
  obtain ⟨-, hprogress, -, hanalyses⟩ := publish_of_none hnone analysis
  have hself : (c.publish id analysis).2.get? id = some { serial := c.analyses, analysis } := by
    rw [get?_eq_some_iff, hprogress, Function.update_self]
  have hother {id'} (hid : id' ≠ id) : (c.publish id analysis).2.get? id' = c.get? id' :=
    get?_congr (by rw [hprogress, Function.update_of_ne hid])
  constructor
  · have hset : {id' | (c.publish id analysis).2.standing id' = .analyzed} =
        insert id {id' | c.standing id' = .analyzed} := by
      ext id'
      simp only [Set.mem_ofPred_eq, Set.mem_insert_iff, standing_eq_analyzed_iff]
      by_cases hid : id' = id
      · simp [hid, hself]
      · simp [hid, hother hid]
    have hnew : id ∉ {id' | c.standing id' = .analyzed} := by
      simp [standing_eq_analyzed_iff, hnone]
    rw [hset, Set.encard_insert_of_notMem hnew, h.count, hanalyses, Nat.cast_add, Nat.cast_one]
  · intro id' entry hentry
    rw [hanalyses]
    by_cases hid : id' = id
    · subst hid
      cases hself.symm.trans hentry
      exact Nat.lt_succ_self _
    · exact Nat.lt_succ_of_lt (h.serial_lt (hother hid ▸ hentry))
  · intro id₁ id₂ entry₁ entry₂ h₁ h₂ hserial
    -- the new number is larger than those before
    by_cases hid₁ : id₁ = id <;> by_cases hid₂ : id₂ = id
    · rw [hid₁, hid₂]
    · subst hid₁
      cases hself.symm.trans h₁
      exact absurd hserial (Nat.ne_of_gt (h.serial_lt (hother hid₂ ▸ h₂)))
    · subst hid₂
      cases hself.symm.trans h₂
      exact absurd hserial (Nat.ne_of_lt (h.serial_lt (hother hid₁ ▸ h₁)))
    · exact h.serial_inj (hother hid₁ ▸ h₁) (hother hid₂ ▸ h₂) hserial

theorem concludes {result : Except Failure Published} (h : c.Numbered)
    (hend : c.Concludes id result c') : c'.Numbered := by
  cases hend with
  | failed failure => exact h.congr (get?_abandon c id) (analyses_abandon c id)
  | adopted _ => exact h
  | published hnone analysis => exact h.publish hnone analysis

end Cache.Numbered

namespace Job

variable {ν : Type}

namespace Turn

/-- The analysis that the call returns, if it has one. -/
def returned? : Turn → Option Published
  | .answered _ entry | .ended _ (.ok entry) => some entry
  | .started _ | .ended _ (.error _) => none

/-- Whether the call is answered without running its build. -/
def isAnswered : Turn → Bool
  | .answered .. => true
  | .started _ | .ended .. => false

end Turn

namespace Stage

variable {s t : Stage ν}

/-- The log agrees with the cache, and marks are only there for calls in flight. -/
structure Logged (s : Stage ν) : Prop where
  returned : ∀ turn ∈ s.log, ∀ entry, turn.returned? = some entry →
    s.cache.get? turn.id = some entry
  hits : s.cache.hits = s.log.countP Turn.isAnswered
  marked : ∀ id, s.cache.standing id = .analyzing → id ∈ s.inFlight

theorem Step.numbered (h : s.Step t) (hs : s.cache.Numbered) : t.cache.Numbered := by
  cases h with
  | look => exact hs
  | hit _ => exact hs.congr (fun _ => rfl) rfl
  | miss _ => exact hs.congr (Cache.get?_start _ _) (Cache.analyses_start _ _)
  | conclude h => exact hs.concludes (Cache.concludes_of_conclude h)

theorem Step.returned (h : s.Step t) (hs : s.Logged) : ∀ turn ∈ t.log, ∀ entry,
    turn.returned? = some entry → t.cache.get? turn.id = some entry := by
  -- what was logged before is still published
  have hold : ∀ turn ∈ s.log, ∀ entry, turn.returned? = some entry →
      t.cache.get? turn.id = some entry :=
    fun turn hturn entry hentry => h.get?_mono (hs.returned turn hturn entry hentry)
  cases h with
  | look => exact hold
  | hit hget => exact List.forall_mem_cons.2 ⟨fun entry hentry => hentry ▸ hget, hold⟩
  | miss _ => exact List.forall_mem_cons.2 ⟨nofun, hold⟩
  | @conclude _ _ _ _ _ _ _ result _ h =>
    refine List.forall_mem_cons.2 ⟨fun entry hentry => ?_, hold⟩
    cases result with
    | error failure => cases hentry
    | ok published =>
      cases hentry
      exact (Cache.concludes_of_conclude h).get?_self

theorem Step.marked (h : s.Step t) (hs : s.Logged) :
    ∀ id, t.cache.standing id = .analyzing → id ∈ t.inFlight := by
  intro id hid
  cases h with
  | look | hit _ => exact hs.marked id hid
  | @miss started _ _ _ c _ _ =>
    by_cases hsame : id = started
    · exact List.mem_cons.2 (.inl hsame)
    · rw [Cache.standing_start_of_ne hsame] at hid
      exact List.mem_cons_of_mem _ (hs.marked id hid)
  | @conclude _ _ ended _ _ _ _ _ _ h =>
    have hend := Cache.concludes_of_conclude h
    by_cases hsame : id = ended
    · subst hsame
      exact absurd hid hend.standing_self
    · rw [Cache.standing_congr (hend.progress?_of_ne hsame)] at hid
      exact (List.mem_cons.1 (hs.marked id hid)).resolve_left hsame

theorem Step.logged (h : s.Step t) (hs : s.Logged) : t.Logged where
  returned := h.returned hs
  marked := h.marked hs
  hits := by
    have hhits := hs.hits
    cases h with
    | look => exact hhits
    | hit _ =>
      rw [List.countP_cons_of_pos rfl]
      exact congrArg (· + 1) hhits
    | miss _ =>
      rw [List.countP_cons_of_neg Bool.false_ne_true, Cache.hits_start]
      exact hhits
    | conclude h =>
      rw [List.countP_cons_of_neg Bool.false_ne_true, (Cache.concludes_of_conclude h).hits_eq]
      exact hhits

theorem first_logged (job : Job ν) : (first job).Logged where
  returned := nofun
  hits := rfl
  marked _ h := nomatch h

/-- Every stage of a job has its publications numbered, and its log agrees with its cache. -/
theorem Reaches.invariant {job : Job ν} (h : (first job).Reaches s) :
    s.cache.Numbered ∧ s.Logged := by
  induction h with
  | refl => exact ⟨.empty, first_logged job⟩
  | tail _ step ih => exact ⟨step.numbered ih.1, step.logged ih.2⟩

/-- The cache is written once for each identity, and shares what is written. -/
structure WriteOnce (s : Stage ν) : Prop where
  /-- Once there is an analysis it stays the same for ever. -/
  stays : ∀ {t id entry}, s.Reaches t → s.cache.get? id = some entry →
    t.cache.get? id = some entry
  /-- A call that has just returned an analysis has returned the one that is there. -/
  returned : ∀ {turn entry}, turn ∈ s.log → turn.returned? = some entry →
    s.cache.get? turn.id = some entry
  /-- All calls for an identity that return an analysis return the same one. -/
  same : ∀ {turn turn' entry entry'}, turn ∈ s.log → turn' ∈ s.log → turn.id = turn'.id →
    turn.returned? = some entry → turn'.returned? = some entry' → entry = entry'
  /-- No two identities have the same publication. -/
  distinct : ∀ {id id' entry entry'}, s.cache.get? id = some entry →
    s.cache.get? id' = some entry' → entry.serial = entry'.serial → id = id'
  /-- A build starts only if there is no analysis. -/
  built : ∀ {t id}, s.Step t → t.log = .started id :: s.log → s.cache.get? id = none
  analyses : {id | s.cache.standing id = .analyzed}.encard = s.cache.analyses
  hits : s.cache.hits = s.log.countP Turn.isAnswered
  /-- A call that fails publishes nothing. -/
  failed : ∀ {t id failure}, s.Step t → t.log = .ended id (.error failure) :: s.log →
    t.cache.get? = s.cache.get? ∧ t.cache.analyses = s.cache.analyses
  /-- No mark is left once all calls have returned. -/
  idle : s.flights = [] → ∀ id, s.cache.standing id ≠ .analyzing

theorem Step.built {id : Identity} (h : s.Step t) (hlog : t.log = .started id :: s.log) :
    s.cache.get? id = none := by
  cases h with
  | look => exact absurd hlog.symm (List.cons_ne_self _ _)
  | miss h =>
    cases hlog
    exact h
  | hit _ | conclude _ => cases hlog

theorem Step.failed {id : Identity} {failure : Failure} (h : s.Step t)
    (hlog : t.log = .ended id (.error failure) :: s.log) :
    t.cache.get? = s.cache.get? ∧ t.cache.analyses = s.cache.analyses := by
  cases h with
  | look => exact absurd hlog.symm (List.cons_ne_self _ _)
  | conclude h =>
    cases hlog
    cases Cache.concludes_of_conclude h
    exact ⟨funext (Cache.get?_abandon _ _), Cache.analyses_abandon _ _⟩
  | hit _ | miss _ => cases hlog

end Stage

/-- However the builds of a job use the cache and however they end, its steps lead to the end of its
run, and at every stage the cache is written once for each identity and shares what is written. -/
theorem analyses_shared (job : Job ν) :
    (∃ log, (Stage.first job).Reaches
      ⟨.finish (job.run {}).1.1 (job.run {}).1.2, [], (job.run {}).2, log⟩) ∧
    ∀ s, (Stage.first job).Reaches s → s.WriteOnce := by
  refine ⟨Stage.reaches_run job [] {} [], fun s hs => ?_⟩
  obtain ⟨hnumbered, hlogged⟩ := hs.invariant
  exact {
    stays := fun ht => ht.get?_mono
    returned := fun hturn => hlogged.returned _ hturn _
    same := fun {turn turn' entry entry'} hturn hturn' hid hentry hentry' => by
      have h := hlogged.returned turn hturn entry hentry
      have h' := hlogged.returned turn' hturn' entry' hentry'
      rw [hid, h'] at h
      exact (Option.some.inj h).symm
    distinct := hnumbered.serial_inj
    built := Stage.Step.built
    analyses := hnumbered.count
    hits := hlogged.hits
    failed := Stage.Step.failed
    idle := fun hidle id hid => by
      have hmem := hlogged.marked id hid
      rw [Stage.inFlight, hidle] at hmem
      cases hmem }

end Job

/-! ## A sample job -/

namespace Sample

/-- The identity that the sample jobs ask for. -/
def shared : Identity := { number := 0, name := "paths" }

/-- A build that asks for its own identity twice, first in vain and then with success, and ends with
a grammar of its own. After that the identity is asked for once more. -/
def rivals : Job Unit :=
  .ensure shared
    (.ensure shared (.finish incomplete.build ()) fun _ _ =>
      .ensure shared (.finish paths.build ()) fun _ _ => .finish calls.build ())
    fun _ _ => .ensure shared (.finish calls.build ()) fun _ _ => .finish paths.build ()

/-- Of three builds one is published, the outer one adopts it, and the last call is a hit. -/
theorem rivals_share : ∃ s, (Job.Stage.first rivals).Reaches s ∧
    s.log.countP Job.Turn.isAnswered = 1 ∧
    {id | s.cache.standing id = .analyzed}.encard = 1 ∧
    ∀ id, s.cache.standing id ≠ .analyzing := by
  have hrun : (rivals.run {}).2.hits = 1 ∧ (rivals.run {}).2.analyses = 1 := by decide +kernel
  obtain ⟨⟨log, hreach⟩, honce⟩ := Job.analyses_shared rivals
  have hend := honce _ hreach
  refine ⟨_, hreach, ?_, ?_, hend.idle rfl⟩
  · rw [← hend.hits, hrun.1]
  · rw [hend.analyses, hrun.2, Nat.cast_one]

end Sample

end Descent
