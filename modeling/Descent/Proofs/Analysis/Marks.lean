import Descent.Proofs.Analysis.Sharing

/-!
# The mark of a call in flight

An identity is marked from when a call for it finds nothing until the call ends. There is one mark
for an identity, though, and a build may ask for its own identity again. If that inner call fails,
it takes the mark away, and the outer call goes on without. So the identity stands as not analysed
while it is being analysed, and this is the only way to get there (`Job.unmarked_in_flight_iff`):
the standing of an identity with a call in flight can be told from what became last of the calls for
it (`Job.Stage.Told`).
-/

namespace Descent

namespace Job

variable {ν : Type}

/-- How an identity can stand after a turn of a call for it. -/
def Turn.Leaves : Turn → Standing → Prop
  | .started _, standing => standing = .analyzing
  | .answered .., standing | .ended _ (.ok _), standing => standing = .analyzed
  | .ended _ (.error _), standing => standing ≠ .analyzing

namespace Stage

variable {s t : Stage ν} {id : Identity}

/-- What became last of the calls for an identity. -/
def lastTurn? (s : Stage ν) (id : Identity) : Option Turn := s.log.find? (·.id = id)

/-- Each identity stands as the last turn of a call for it has left it, and a call in flight has had
a turn. -/
structure Told (s : Stage ν) : Prop where
  leaves : ∀ {id turn}, s.lastTurn? id = some turn → turn.Leaves (s.cache.standing id)
  begun : ∀ {id}, id ∈ s.inFlight → ∃ turn, s.lastTurn? id = some turn

theorem lastTurn?_of_eq {turn : Turn} (hlog : t.log = turn :: s.log) :
    t.lastTurn? turn.id = some turn := by
  simp [lastTurn?, hlog]

theorem lastTurn?_of_ne {turn : Turn} (hlog : t.log = turn :: s.log) (hid : id ≠ turn.id) :
    t.lastTurn? id = s.lastTurn? id := by
  simp [lastTurn?, hlog, Ne.symm hid]

/-- A turn tells how its own identity stands and leaves the others alone. -/
theorem Told.turn {turn : Turn} (hs : s.Told) (hlog : t.log = turn :: s.log)
    (hself : turn.Leaves (t.cache.standing turn.id))
    (hother : ∀ id, id ≠ turn.id → t.cache.standing id = s.cache.standing id)
    (hflight : ∀ id, id ∈ t.inFlight → id = turn.id ∨ id ∈ s.inFlight) : t.Told := by
  constructor
  · intro id last hlast
    by_cases hid : id = turn.id
    · subst hid
      rw [lastTurn?_of_eq hlog] at hlast
      cases hlast
      exact hself
    · rw [lastTurn?_of_ne hlog hid] at hlast
      rw [hother id hid]
      exact hs.leaves hlast
  · intro id hmem
    by_cases hid : id = turn.id
    · exact ⟨turn, hid ▸ lastTurn?_of_eq hlog⟩
    · rw [lastTurn?_of_ne hlog hid]
      exact hs.begun ((hflight id hmem).resolve_left hid)

theorem Step.told (h : s.Step t) (hs : s.Told) : t.Told := by
  cases h with
  | look => exact ⟨hs.leaves, hs.begun⟩
  | hit hget =>
    exact hs.turn rfl (Cache.standing_eq_analyzed_iff.2 ⟨_, hget⟩) (fun _ _ => rfl)
      fun _ hmem => .inr hmem
  | miss hget =>
    exact hs.turn rfl (Cache.standing_start_self hget)
      (fun _ hid => Cache.standing_start_of_ne hid) fun _ hmem => List.mem_cons.1 hmem
  | @conclude _ _ id _ _ _ _ result _ h =>
    have hend := Cache.concludes_of_conclude h
    refine hs.turn rfl ?_ (fun _ hid => Cache.standing_congr (hend.progress?_of_ne hid))
      fun _ hmem => .inr (List.mem_cons_of_mem id hmem)
    cases result with
    | error failure => exact hend.standing_self
    | ok entry => exact Cache.standing_eq_analyzed_iff.2 ⟨entry, hend.get?_self⟩

theorem Reaches.told {job : Job ν} (h : (first job).Reaches s) : s.Told := by
  induction h with
  | refl => exact ⟨nofun, nofun⟩
  | tail _ step ih => exact step.told ih

end Stage

/-- A mark is only there for a call in flight. And an identity with a call in flight stands as not
analysed exactly from when a call for it that was made inside has failed, with nothing published,
until the next call for it is made. -/
theorem unmarked_in_flight_iff {job : Job ν} {s : Stage ν} (hs : (Stage.first job).Reaches s)
    (id : Identity) :
    (s.cache.standing id = .analyzing → id ∈ s.inFlight) ∧
    (id ∈ s.inFlight → (s.cache.standing id = .notAnalyzed ↔ s.cache.get? id = none ∧
      ∃ failure, s.lastTurn? id = some (.ended id (.error failure)))) := by
  refine ⟨hs.invariant.2.marked id, fun hid => ?_⟩
  obtain ⟨turn, hturn⟩ := hs.told.begun hid
  have hleaves := hs.told.leaves hturn
  have hanalyzed := @Cache.standing_eq_analyzed_iff s.cache id
  have hsame : turn.id = id := by simpa using List.find?_some hturn
  constructor
  · intro hstanding
    rw [hstanding] at hleaves hanalyzed
    refine ⟨Option.eq_none_iff_forall_ne_some.2 fun entry hentry => ?_, ?_⟩
    · cases hanalyzed.2 ⟨entry, hentry⟩
    · match turn, hleaves with
      | .ended _ (.error failure), _ => exact ⟨failure, hsame ▸ hturn⟩
  · rintro ⟨hnone, failure, hlast⟩
    cases hturn.symm.trans hlast
    cases hstanding : s.cache.standing id with
    | notAnalyzed => rfl
    | analyzing => exact absurd hstanding hleaves
    | analyzed =>
      obtain ⟨entry, hentry⟩ := hanalyzed.1 hstanding
      rw [hnone] at hentry
      cases hentry

end Job

/-! ## A sample job -/

namespace Sample

/-- A build that asks for its own identity in vain before it ends with a grammar. -/
def retried : Job Unit :=
  .ensure shared (.ensure shared (.finish incomplete.build ()) fun _ _ => .finish paths.build ())
    fun _ _ => .finish paths.build ()

/-- Both calls of the sample are in flight. -/
def bothInFlight : Job.Stage Unit where
  job := .finish incomplete.build ()
  flights := List.replicate 2 ⟨shared, fun _ _ => .finish paths.build ()⟩
  cache := (({} : Cache).start shared).start shared
  log := [.started shared, .started shared]

theorem retried_reaches_both : (Job.Stage.first retried).Reaches bothInFlight :=
  .head (.miss rfl) (.head (.miss (Cache.get?_start _ _ _)) .refl)

/-- As long as neither call has failed, the identity is marked. -/
theorem both_marked : (Job.Stage.first retried).Reaches bothInFlight ∧
    shared ∈ bothInFlight.inFlight ∧ bothInFlight.cache.standing shared ≠ .notAnalyzed := by
  have hmem : shared ∈ bothInFlight.inFlight := List.mem_cons_self
  refine ⟨retried_reaches_both, hmem, fun hstanding => ?_⟩
  obtain ⟨-, failure, hlast⟩ :=
    ((Job.unmarked_in_flight_iff retried_reaches_both shared).2 hmem).1 hstanding
  cases hlast

/-- Once the inner call has failed the identity stands as not analysed, though the outer call is in
flight. -/
theorem outer_unmarked : ∃ s, (Job.Stage.first retried).Reaches s ∧ shared ∈ s.inFlight ∧
    s.cache.standing shared = .notAnalyzed := by
  refine ⟨_, retried_reaches_both.tail (.conclude rfl), List.mem_cons_self, ?_⟩
  decide +kernel

end Sample

end Descent
