import Mathlib.Data.List.AList

/-!
The shutdown job of a component: shutting down the nodes of a realm in dependency order.

A hash map is an association list and a hash set is a list without duplicates, each in the order
in which it happens to be iterated.  The outstanding futures complete in the order that a schedule
picks; whether a shutdown fails is given for each node.  A function that returns an `Option` of its
result returns `none` where the code panics.  The events of a run are logged.
-/
namespace Smos.Component.Shutdown

variable {R E : Type*} [DecidableEq R]

abbrev Refs (R : Type*) : Type _ := {refs : List R // refs.Nodup}

def Refs.remove (refs : Refs R) (ref : R) : Refs R := ⟨refs.1.erase ref, refs.2.erase ref⟩

abbrev DependencyMap (R : Type*) : Type _ := AList fun _ : R => Refs R

structure ShutdownInfo (R : Type*) where
  ref : R
  dependents : Refs R

structure ShutdownJob (R : Type*) where
  targetToSources : AList fun _ : R => List R
  sourceToTargets : AList fun _ : R => ShutdownInfo R

def addSource (targetToSources : AList fun _ : R => List R) (provider consumer : R) :
    AList fun _ : R => List R :=
  targetToSources.insert consumer ((targetToSources.lookup consumer).getD [] ++ [provider])

def ShutdownJob.new (dependencyMap : DependencyMap R) : ShutdownJob R :=
  let sourceToTargets : AList fun _ : R => ShutdownInfo R :=
    dependencyMap.entries.foldl
      (fun map entry => map.insert entry.1 { ref := entry.1, dependents := entry.2 }) ∅
  let targetToSources : AList fun _ : R => List R :=
    sourceToTargets.entries.foldl
      (fun map provider => provider.2.dependents.1.foldl
        (fun map consumer => addSource map provider.2.ref consumer) map) ∅
  { targetToSources := targetToSources, sourceToTargets := sourceToTargets }

def takeReady : List R → (AList fun _ : R => ShutdownInfo R) → List (ShutdownInfo R) →
    Option ((AList fun _ : R => ShutdownInfo R) × List (ShutdownInfo R))
  | [], sourceToTargets, stopTargets => some (sourceToTargets, stopTargets)
  | componentRef :: keys, sourceToTargets, stopTargets =>
    match sourceToTargets.lookup componentRef with
    | none => none
    | some info =>
      if info.dependents.1 = [] then
        takeReady keys (sourceToTargets.erase componentRef) (stopTargets ++ [info])
      else takeReady keys sourceToTargets stopTargets

/-- Removes a stopped component from the dependents of its sources and moves those sources to the
stop targets that have no dependents left. -/
def release (componentRef : R) : List R → (AList fun _ : R => ShutdownInfo R) →
    List (ShutdownInfo R) →
    Option ((AList fun _ : R => ShutdownInfo R) × List (ShutdownInfo R))
  | [], sourceToTargets, stopTargets => some (sourceToTargets, stopTargets)
  | source :: sources, sourceToTargets, stopTargets =>
    match sourceToTargets.lookup source with
    | none => none
    | some info =>
      let info := { info with dependents := info.dependents.remove componentRef }
      if info.dependents.1 = [] then
        release componentRef sources (sourceToTargets.erase source) (stopTargets ++ [info])
      else release componentRef sources (sourceToTargets.insert source info) stopTargets

inductive Event (R : Type*) where
  | started (ref : R)
  | completed (ref : R)
deriving DecidableEq

def Event.ref : Event R → R
  | .started ref => ref
  | .completed ref => ref

structure Execution (R : Type*) where
  job : ShutdownJob R
  stopTargets : List (ShutdownInfo R)
  futs : List (ShutdownInfo R)
  log : List (Event R)

def Execution.start (x : Execution R) : Execution R :=
  { x with
    stopTargets := []
    futs := x.futs ++ x.stopTargets
    log := x.log ++ x.stopTargets.map fun info => .started info.ref }

def ShutdownJob.finish (job : ShutdownJob R) (componentRef : R) :
    Option (ShutdownJob R × List (ShutdownInfo R)) :=
  match job.targetToSources.lookup componentRef with
  | none => some (job, [])
  | some sources =>
    match release componentRef sources job.sourceToTargets [] with
    | none => none
    | some (sourceToTargets, stopTargets) =>
      some ({ targetToSources := job.targetToSources.erase componentRef
              sourceToTargets := sourceToTargets }, stopTargets)

def Execution.select (fails : R → Option E) (choice : ℕ) (x : Execution R) :
    Option (Except E (Execution R)) :=
  let index := choice % x.futs.length
  match x.futs[index]? with
  -- there is no future to select from
  | none => none
  | some info =>
    match fails info.ref with
    | some e => some (.error e)
    | none =>
      match x.job.finish info.ref with
      | none => none
      | some (job, stopTargets) =>
        some (.ok
          { job := job
            stopTargets := stopTargets
            futs := x.futs.eraseIdx index
            log := x.log ++ [.completed info.ref] })

def Execution.loop (fails : R → Option E) (schedule : ℕ → ℕ) :
    ℕ → ℕ → Execution R → Option (Except E (Execution R))
  | 0, _, _ => none
  | fuel + 1, round, x =>
    if x.stopTargets.isEmpty && x.futs.isEmpty then some (.ok x)
    else
      match x.start.select fails (schedule round) with
      | none => none
      | some (.error e) => some (.error e)
      | some (.ok x) => x.loop fails schedule fuel (round + 1)

/-- Shuts down every node; the result of a run that returns `Ok` is its log. -/
def ShutdownJob.execute (fails : R → Option E) (schedule : ℕ → ℕ) (fuel : ℕ)
    (job : ShutdownJob R) : Option (Except E (List (Event R))) :=
  match takeReady job.sourceToTargets.keys job.sourceToTargets [] with
  | none => none
  | some (sourceToTargets, stopTargets) =>
    let x : Execution R :=
      { job := { job with sourceToTargets := sourceToTargets }
        stopTargets := stopTargets
        futs := []
        log := [] }
    match x.loop fails schedule fuel 0 with
    | none => none
    | some (.error e) => some (.error e)
    | some (.ok x) => if x.job.sourceToTargets.keys = [] then some (.ok x.log) else none

end Smos.Component.Shutdown
