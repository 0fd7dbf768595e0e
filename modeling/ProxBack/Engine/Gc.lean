import ProxBack.Engine.ChunkStore

/-! Garbage collection as a program of calls: two walks with a snapshot of the
index between them, then the deletions, then the reconcile of the index. -/
namespace ProxBack.Engine
open Lib Prog

structure GCResult where
  manifestsScanned : Nat
  chunksScanned : Nat
  chunksDeleted : Nat
  bytesFreed : Nat
  indexRowsDropped : Nat
  chunksSkippedRecent : Nat
  bytesSkippedRecent : Nat
deriving DecidableEq, Repr

def GCResult.zero : GCResult := ⟨0, 0, 0, 0, 0, 0, 0⟩

/-- `Time.Sub`: the difference of two instants, saturated to an `int64`. -/
def Time.sub (t u : Time) : Int := max (-2 ^ 63) (min (2 ^ 63 - 1) (t - u))

def chunkAge (e : Engine) (now : Time) (sha : Sha) (indexed : FinMap Sha Time)
    (o : Object) : Option Int :=
  if e.gcGrace ≤ 0 then none
  else
    let fallback := if o.lastModified ≠ 0 then some (Time.sub now o.lastModified) else none
    match indexed.lookup sha with
    | some ts => if ts ≠ 0 then some (Time.sub now ts) else fallback
    | none => fallback

def spared (e : Engine) (now : Time) (indexed : FinMap Sha Time) (o : Object) : Bool :=
  match e.chunkAge now o.sha indexed o with
  | some age => age < e.gcGrace
  | none => false

/-- What the second walk has gathered: the counters, the hashes it has seen and
the objects it will delete. -/
structure Sweep where
  res : GCResult
  present : List Sha
  doomed : List Object

def gcVisit (e : Engine) (now : Time) (indexed : FinMap Sha Time) (referenced : List Sha)
    (acc : Sweep) (o : Object) : Sweep :=
  let res := { acc.res with chunksScanned := acc.res.chunksScanned + 1 }
  let present := o.sha :: acc.present
  if o.sha ∈ referenced then ⟨res, present, acc.doomed⟩
  else if e.spared now indexed o then
    ⟨{ res with
      chunksSkippedRecent := res.chunksSkippedRecent + 1
      bytesSkippedRecent := res.bytesSkippedRecent + o.size }, present, acc.doomed⟩
  else ⟨res, present, acc.doomed ++ [o]⟩

/-- The walk over `manifests/`, gathering the hashes in use. A manifest that is
gone by the time it is read is not an error; one that does not decode is. -/
def gcManifests : List ManifestKey → GCResult → List Sha →
    EngineM (GCResult × Except Err (List Sha))
  | [], res, referenced => .ret (res, .ok referenced)
  | key :: rest, res, referenced =>
    .call (.getManifest key) fun
    | .error err =>
      if err = .notFound then gcManifests rest res referenced else .ret (res, .error err)
    | .ok none => .ret (res, .error (.gcDecode key.kind.text key.sourceID key.backupID))
    | .ok (some m) =>
      gcManifests rest { res with manifestsScanned := res.manifestsScanned + 1 }
        (m.hashes ++ referenced)

def gcDelete : List Object → GCResult → EngineM (GCResult × Option Err)
  | [], res => .ret (res, none)
  | o :: rest, res =>
    .call (.delete o.sha) fun
    | .error err => .ret (res, some err)
    | .ok () =>
      .call (.deleteChunk o.sha) fun
      | .error err => .ret (res, some (.gcChunkIndex err))
      | .ok () =>
        gcDelete rest { res with
          chunksDeleted := res.chunksDeleted + 1
          bytesFreed := res.bytesFreed + o.size }

def gcReconcile (present : List Sha) : List Sha → GCResult → EngineM (GCResult × Option Err)
  | [], res => .ret (res, none)
  | sha :: rest, res =>
    if sha ∈ present then gcReconcile present rest res
    else
      .call (.deleteChunk sha) fun
      | .error err => .ret (res, some (.gcChunkIndex err))
      | .ok () =>
        gcReconcile present rest { res with indexRowsDropped := res.indexRowsDropped + 1 }

def gcCollect (indexed : FinMap Sha Time) (acc : Sweep) : EngineM (GCResult × Option Err) :=
  gcDelete acc.doomed acc.res >>= fun
  | (res, some err) => .ret (res, some err)
  | (res, none) => gcReconcile acc.present indexed.keys res

def gcSweep (e : Engine) (referenced : List Sha) (res : GCResult) :
    EngineM (GCResult × Option Err) :=
  .call .chunkAddedAt fun
  | .error err => .ret (res, some (.gcChunkIndex err))
  | .ok indexed =>
    .call .now fun now =>
    .call .walkChunks fun
    | .error err => .ret (res, some err)
    | .ok shas =>
      forChunks (fun acc o => .ret (e.gcVisit now indexed referenced acc o, none))
        shas ⟨res, [], []⟩ >>= fun
      | (acc, some err) => .ret (acc.res, some err)
      | (acc, none) => gcCollect indexed acc

def gc (e : Engine) : EngineM (GCResult × Option Err) :=
  .call .walkManifests fun
  | .error err => .ret (.zero, some err)
  | .ok keys => gcManifests keys .zero [] >>= fun
    | (res, .error err) => .ret (res, some err)
    | (res, .ok referenced) => e.gcSweep referenced res

end ProxBack.Engine
