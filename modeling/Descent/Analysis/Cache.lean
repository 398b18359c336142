import Descent.Analysis.Basic

/-!
# Sharing analyses

A cache keeps one analysis for each grammar identity. The first call that needs an identity builds
the grammar and analyses it; every later call is answered with the analysis published then. A
build is itself a job that may use the same cache, for the same identity or for others. An attempt
that fails publishes nothing, and takes away the mark that the identity is being analysed.
-/

namespace Descent

/-- The identity of a grammar. Different grammars may go by the same name. -/
structure Identity where
  number : Nat
  name : String
deriving DecidableEq, Repr, Inhabited

/-- The identity as a developer sees it. -/
def Identity.debugText (id : Identity) : String := s!"GrammarId({id.name})"

/-- A published analysis. No two publications of a cache have the same serial number. -/
structure Published where
  serial : Nat
  analysis : Analysis

/-- How far an identity has come, if it was ever asked for. -/
inductive Progress where
  | analyzing
  | analyzed (entry : Published)

inductive Standing where
  | notAnalyzed
  | analyzing
  | analyzed
deriving DecidableEq, Repr, Inhabited

/-- One analysis for each identity. -/
structure Cache where
  /-- The progress of the identities asked for, each of which stands here once. -/
  slots : List (Identity × Progress) := []
  /-- How many calls were answered with what was there. -/
  hits : Nat := 0
  /-- How many analyses were published. -/
  analyses : Nat := 0

namespace Cache

instance : Inhabited Cache := ⟨{}⟩

def progress? (c : Cache) (id : Identity) : Option Progress :=
  (c.slots.find? (·.1 = id)).map Prod.snd

def standing (c : Cache) (id : Identity) : Standing :=
  match c.progress? id with
  | none => .notAnalyzed
  | some .analyzing => .analyzing
  | some (.analyzed _) => .analyzed

def get? (c : Cache) (id : Identity) : Option Published :=
  match c.progress? id with
  | some (.analyzed entry) => some entry
  | _ => none

/-- Counts a call that was answered with what was there. -/
def hit (c : Cache) : Cache := { c with hits := c.hits + 1 }

/-- Marks an identity as being analysed, unless it is marked already. -/
def start (c : Cache) (id : Identity) : Cache :=
  match c.progress? id with
  | none => { c with slots := (id, .analyzing) :: c.slots }
  | some _ => c

/-- Takes away the mark of an identity that is being analysed. -/
def abandon (c : Cache) (id : Identity) : Cache :=
  match c.progress? id with
  | some .analyzing => { c with slots := c.slots.filter (·.1 ≠ id) }
  | _ => c

/-- Publishes an analysis, unless one was published in the meantime, and answers the one there. -/
def publish (c : Cache) (id : Identity) (analysis : Analysis) : Published × Cache :=
  match c.get? id with
  | some entry => (entry, c)
  | none =>
    let entry := { serial := c.analyses, analysis }
    (entry, { c with
      slots := (id, .analyzed entry) :: c.slots.filter (·.1 ≠ id)
      analyses := c.analyses + 1 })

/-- Ends an attempt to analyse an identity with what its build gave. -/
def conclude (c : Cache) (id : Identity) (built : Except Failure Grammar) :
    Except Failure Published × Cache :=
  match built.bind Grammar.analyze with
  | .error failure => (.error failure, c.abandon id)
  | .ok analysis =>
    let published := c.publish id analysis
    (.ok published.1, published.2)

/-- Answers the analysis of an identity. The build runs only if there is none, and may use the
cache; what it notes is handed on. -/
def ensure {ν : Type} (id : Identity) (build : Cache → (Except Failure Grammar × ν) × Cache)
    (c : Cache) : (Except Failure Published × Option ν) × Cache :=
  match c.get? id with
  | some entry => ((.ok entry, none), c.hit)
  | none =>
    let ((built, notes), c) := build (c.start id)
    let (result, c) := c.conclude id built
    ((result, some notes), c)

end Cache

/-- What can be done with a cache: look at it, ask for analyses, whose builds are jobs of the same
kind, and end with a grammar or a failure and with notes for the caller. -/
inductive Job (ν : Type) where
  | finish (grammar : Except Failure Grammar) (notes : ν)
  | inspect (next : Cache → Job ν)
  | ensure (id : Identity) (build : Job ν) (next : Except Failure Published → Option ν → Job ν)

namespace Job

variable {ν : Type}

instance [Inhabited ν] : Inhabited (Job ν) :=
  ⟨.finish (.error (.broken .definitionAborted)) default⟩

def run : Job ν → Cache → (Except Failure Grammar × ν) × Cache
  | .finish grammar notes, c => ((grammar, notes), c)
  | .inspect next, c => (next c).run c
  | .ensure id build next, c =>
    let ((result, notes), c) := c.ensure id build.run
    (next result notes).run c

end Job

end Descent
