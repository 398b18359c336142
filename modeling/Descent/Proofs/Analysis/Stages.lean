import Mathlib.Logic.Function.Basic
import Mathlib.Logic.Relation
import Descent.Analysis.Cache

/-!
# Jobs step by step

`Job.run` says where a job ends. To speak of the moments in between, its run is taken apart here. A
`Job.Stage` holds what is left of the job, the calls in flight, the cache, and what has become of
the calls so far; `Stage.Step` goes from one stage to the next. The steps lead to where the run ends
(`Stage.reaches_run`).

What an operation does to a cache is said for the view that callers have of it, `get?` and
`standing`. Each operation changes that view at one identity at most, and `Cache.Concludes` lists
the three ways in which a call can end.
-/

namespace Descent

namespace Cache

variable {c : Cache} {id id' : Identity}

theorem progress?_added (c : Cache) (id : Identity) (p : Progress) :
    { c with slots := (id, p) :: c.slots }.progress? =
      Function.update c.progress? id (some p) := by
  funext id'
  by_cases hid : id = id'
  · subst hid
    simp [progress?]
  · simp [progress?, hid, Ne.symm hid]

theorem progress?_erased (c : Cache) (id : Identity) :
    { c with slots := c.slots.filter (·.1 ≠ id) }.progress? =
      Function.update c.progress? id none := by
  funext id'
  have hfind : (c.slots.filter (·.1 ≠ id)).find? (·.1 = id') =
      if id' = id then none else c.slots.find? (·.1 = id') := by
    rw [List.find?_filter]
    split
    · simp_all
    · congr 1
      funext slot
      by_cases hslot : slot.1 = id' <;> simp_all
  rw [progress?, hfind]
  by_cases hid : id' = id
  · simp [hid]
  · simp [hid, progress?]

theorem progress?_start (c : Cache) (id : Identity) : (c.start id).progress? =
    Function.update c.progress? id (some ((c.progress? id).getD .analyzing)) := by
  unfold start
  split
  next h => rw [progress?_added, h, Option.getD_none]
  next p h => rw [h, Option.getD_some, ← h, Function.update_eq_self]

theorem progress?_abandon (c : Cache) (id : Identity) : (c.abandon id).progress? =
    Function.update c.progress? id ((c.get? id).map .analyzed) := by
  unfold abandon get?
  split
  next h => rw [progress?_erased, h, Option.map_none]
  next h =>
    cases hp : c.progress? id with
    | none => exact (hp ▸ Function.update_eq_self id c.progress?).symm
    | some p =>
      cases p with
      | analyzing => exact absurd hp h
      | analyzed entry => exact (hp ▸ Function.update_eq_self id c.progress?).symm

theorem publish_of_some {entry : Published} (h : c.get? id = some entry) (analysis : Analysis) :
    c.publish id analysis = (entry, c) := by
  simp [publish, h]

theorem publish_of_none (h : c.get? id = none) (analysis : Analysis) :
    (c.publish id analysis).1 = { serial := c.analyses, analysis } ∧
    (c.publish id analysis).2.progress? =
      Function.update c.progress? id (some (.analyzed { serial := c.analyses, analysis })) ∧
    (c.publish id analysis).2.hits = c.hits ∧
    (c.publish id analysis).2.analyses = c.analyses + 1 := by
  simp only [publish, h, true_and, and_true]
  have hadded := progress?_added { c with slots := c.slots.filter (·.1 ≠ id) } id
    (.analyzed { serial := c.analyses, analysis })
  rw [progress?_erased, Function.update_idem] at hadded
  exact hadded

/-! ## What callers see -/

theorem get?_eq_some_iff {entry : Published} :
    c.get? id = some entry ↔ c.progress? id = some (.analyzed entry) := by
  unfold get?
  split <;> simp_all

theorem get?_congr {c' : Cache} (h : c'.progress? id = c.progress? id) :
    c'.get? id = c.get? id := by
  simp [get?, h]

theorem standing_congr {c' : Cache} (h : c'.progress? id = c.progress? id) :
    c'.standing id = c.standing id := by
  simp [standing, h]

theorem standing_eq_analyzed_iff : c.standing id = .analyzed ↔ ∃ entry, c.get? id = some entry := by
  unfold standing get?
  split <;> simp_all

@[simp] theorem get?_start (c : Cache) (id id' : Identity) :
    (c.start id).get? id' = c.get? id' := by
  by_cases hid : id' = id
  · subst hid
    unfold get?
    rw [progress?_start, Function.update_self]
    cases c.progress? id' with
    | none => rfl
    | some p => rfl
  · exact get?_congr (by rw [progress?_start, Function.update_of_ne hid])

@[simp] theorem get?_abandon (c : Cache) (id id' : Identity) :
    (c.abandon id).get? id' = c.get? id' := by
  by_cases hid : id' = id
  · subst hid
    apply Option.ext
    intro entry
    rw [get?_eq_some_iff, progress?_abandon, Function.update_self]
    simp
  · exact get?_congr (by rw [progress?_abandon, Function.update_of_ne hid])

theorem standing_start_self (h : c.get? id = none) : (c.start id).standing id = .analyzing := by
  unfold standing
  rw [progress?_start, Function.update_self]
  cases hp : c.progress? id with
  | none => rfl
  | some p =>
    cases p with
    | analyzing => rfl
    | analyzed entry => rw [get?_eq_some_iff.2 hp] at h; cases h

theorem standing_start_of_ne (h : id' ≠ id) : (c.start id).standing id' = c.standing id' :=
  standing_congr (by rw [progress?_start, Function.update_of_ne h])

theorem standing_abandon_self (c : Cache) (id : Identity) :
    (c.abandon id).standing id ≠ .analyzing := by
  unfold standing
  rw [progress?_abandon, Function.update_self]
  cases c.get? id <;> simp

@[simp] theorem hits_start (c : Cache) (id : Identity) : (c.start id).hits = c.hits := by
  unfold start
  split <;> rfl

@[simp] theorem analyses_start (c : Cache) (id : Identity) :
    (c.start id).analyses = c.analyses := by
  unfold start
  split <;> rfl

@[simp] theorem hits_abandon (c : Cache) (id : Identity) : (c.abandon id).hits = c.hits := by
  unfold abandon
  split <;> rfl

@[simp] theorem analyses_abandon (c : Cache) (id : Identity) :
    (c.abandon id).analyses = c.analyses := by
  unfold abandon
  split <;> rfl

/-! ## Ends of calls -/

/-- How a call whose build ran can end: it fails and takes the mark away, it adopts what was
published in the meantime, or it publishes. -/
inductive Concludes (c : Cache) (id : Identity) : Except Failure Published → Cache → Prop
  | failed (failure : Failure) : Concludes c id (.error failure) (c.abandon id)
  | adopted {entry : Published} (h : c.get? id = some entry) : Concludes c id (.ok entry) c
  | published (h : c.get? id = none) (analysis : Analysis) :
    Concludes c id (.ok { serial := c.analyses, analysis }) (c.publish id analysis).2

theorem concludes_of_conclude {built : Except Failure Grammar} {result : Except Failure Published}
    {c' : Cache} (h : c.conclude id built = (result, c')) : c.Concludes id result c' := by
  unfold conclude at h
  split at h
  next failure _ =>
    cases h
    exact .failed failure
  next analysis _ =>
    cases hget : c.get? id with
    | some entry =>
      rw [publish_of_some hget] at h
      cases h
      exact .adopted hget
    | none =>
      obtain ⟨rfl, rfl⟩ := Prod.mk.inj h
      rw [(publish_of_none hget analysis).1]
      exact .published hget analysis

/-- The end of a call leaves the progress of other identities alone. -/
theorem Concludes.progress?_of_ne {result : Except Failure Published} {c' : Cache}
    (h : c.Concludes id result c') (hid : id' ≠ id) : c'.progress? id' = c.progress? id' := by
  cases h with
  | failed failure => rw [progress?_abandon, Function.update_of_ne hid]
  | adopted _ => rfl
  | published hget analysis => rw [(publish_of_none hget analysis).2.1, Function.update_of_ne hid]

/-- A call that ends with an analysis ends with the one that is published. -/
theorem Concludes.get?_self {entry : Published} {c' : Cache} (h : c.Concludes id (.ok entry) c') :
    c'.get? id = some entry := by
  cases h with
  | adopted hget => exact hget
  | published hget analysis =>
    rw [get?_eq_some_iff, (publish_of_none hget analysis).2.1, Function.update_self]

/-- No call leaves its own mark behind. -/
theorem Concludes.standing_self {result : Except Failure Published} {c' : Cache}
    (h : c.Concludes id result c') : c'.standing id ≠ .analyzing := by
  cases result with
  | error failure =>
    cases h
    exact standing_abandon_self c id
  | ok entry =>
    rw [standing_eq_analyzed_iff.2 ⟨entry, h.get?_self⟩]
    exact Standing.noConfusion

theorem Concludes.hits_eq {result : Except Failure Published} {c' : Cache}
    (h : c.Concludes id result c') : c'.hits = c.hits := by
  cases h with
  | failed failure => exact hits_abandon c id
  | adopted _ => rfl
  | published hget analysis => exact (publish_of_none hget analysis).2.2.1

/-- What is published stays. -/
theorem Concludes.get?_mono {result : Except Failure Published} {c' : Cache} {entry : Published}
    (h : c.Concludes id result c') (hget : c.get? id' = some entry) :
    c'.get? id' = some entry := by
  by_cases hid : id' = id
  · subst hid
    cases h with
    | failed failure => rwa [get?_abandon]
    | adopted _ => exact hget
    | published hnone _ => rw [hget] at hnone; cases hnone
  · rwa [get?_congr (h.progress?_of_ne hid)]

end Cache

namespace Job

variable {ν : Type}

/-- A call in flight: whose analysis it is for, and how its caller goes on. -/
structure Flight (ν : Type) where
  id : Identity
  next : Except Failure Published → Option ν → Job ν

/-- What becomes of a call. -/
inductive Turn where
  /-- It is answered with what is there. -/
  | answered (id : Identity) (entry : Published)
  /-- It finds nothing, and its build starts. -/
  | started (id : Identity)
  /-- Its build is over, and it ends. -/
  | ended (id : Identity) (result : Except Failure Published)

/-- The identity that the call is for. -/
def Turn.id : Turn → Identity
  | .answered id _ | .started id | .ended id _ => id

/-- The job in the middle of its run. -/
structure Stage (ν : Type) where
  /-- What is left of the innermost job. -/
  job : Job ν
  /-- The calls in flight, innermost first. -/
  flights : List (Flight ν) := []
  cache : Cache := {}
  /-- What has become of calls so far, newest first. -/
  log : List Turn := []

namespace Stage

/-- The identities with a call in flight. -/
def inFlight (s : Stage ν) : List Identity := s.flights.map Flight.id

/-- One step of a run: the job looks at the cache, makes a call, or ends the innermost call. -/
inductive Step : Stage ν → Stage ν → Prop
  | look {next flights c log} : Step ⟨.inspect next, flights, c, log⟩ ⟨next c, flights, c, log⟩
  | hit {id build next flights c log entry} (h : c.get? id = some entry) :
    Step ⟨.ensure id build next, flights, c, log⟩
      ⟨next (.ok entry) none, flights, c.hit, .answered id entry :: log⟩
  | miss {id build next flights c log} (h : c.get? id = none) :
    Step ⟨.ensure id build next, flights, c, log⟩
      ⟨build, ⟨id, next⟩ :: flights, c.start id, .started id :: log⟩
  | conclude {built notes id next flights c log result c'}
    (h : c.conclude id built = (result, c')) :
    Step ⟨.finish built notes, ⟨id, next⟩ :: flights, c, log⟩
      ⟨next result (some notes), flights, c', .ended id result :: log⟩

/-- Some steps lead from one stage to the other. -/
def Reaches (s t : Stage ν) : Prop := Relation.ReflTransGen Step s t

/-- The steps of a job lead to the end of its run, and leave the calls around it in flight. -/
theorem reaches_run (job : Job ν) (flights : List (Flight ν)) (c : Cache) (log : List Turn) :
    ∃ log', Reaches ⟨job, flights, c, log⟩
      ⟨.finish (job.run c).1.1 (job.run c).1.2, flights, (job.run c).2, log'⟩ := by
  induction job generalizing flights c log with
  | finish built notes => exact ⟨log, .refl⟩
  | inspect next ih =>
    obtain ⟨log', h⟩ := ih c flights c log
    exact ⟨log', .head .look h⟩
  | ensure id build next ihBuild ihNext =>
    unfold run Cache.ensure
    cases hget : c.get? id with
    | some entry =>
      obtain ⟨log', h⟩ := ihNext (.ok entry) none flights c.hit (.answered id entry :: log)
      exact ⟨log', .head (.hit hget) h⟩
    | none =>
      obtain ⟨inner, hbuild⟩ := ihBuild (⟨id, next⟩ :: flights) (c.start id) (.started id :: log)
      generalize build.run (c.start id) = ran at hbuild ⊢
      obtain ⟨⟨built, notes⟩, c₁⟩ := ran
      obtain ⟨log', hnext⟩ := ihNext (c₁.conclude id built).1 (some notes) flights
        (c₁.conclude id built).2 (.ended id (c₁.conclude id built).1 :: inner)
      exact ⟨log', .head (.miss hget) (hbuild.trans (.head (.conclude rfl) hnext))⟩

/-- The first stage of a job, with a new cache. -/
def first (job : Job ν) : Stage ν := { job }

variable {s t : Stage ν}

theorem Step.get?_mono {id : Identity} {entry : Published} (h : s.Step t)
    (hget : s.cache.get? id = some entry) : t.cache.get? id = some entry := by
  cases h with
  | look | hit _ => exact hget
  | miss _ => rwa [Cache.get?_start]
  | conclude h => exact (Cache.concludes_of_conclude h).get?_mono hget

/-- A published analysis stays, whatever the job goes on with. -/
theorem Reaches.get?_mono {id : Identity} {entry : Published} (h : s.Reaches t)
    (hget : s.cache.get? id = some entry) : t.cache.get? id = some entry := by
  induction h with
  | refl => exact hget
  | tail _ step ih => exact step.get?_mono ih

end Stage

end Job

end Descent
