import ProxBack.Engine.Target

/-! The engine's operations on single chunks and manifests, as programs of calls
in the order the source makes them. -/
namespace ProxBack.Engine
open Lib Prog

abbrev EngineM (α : Type) := Prog Call Reply α

def putChunk (e : Engine) (sha : Sha) (data : Bytes) : EngineM (Except Err Nat) :=
  .call (.hasChunk sha) fun
  | .error err => .ret (.error (.chunkIndex err))
  | .ok true => .ret (.ok 0)
  | .ok false =>
    .call (.head sha) fun
    | .error err => .ret (.error err)
    | .ok (some _) =>
      .call (.addChunk sha data.length) fun
      | .error err => .ret (.error (.chunkIndex err))
      | .ok () => .ret (.ok 0)
    | .ok none =>
      .call (.waitUpload (e.body data).length) fun
      | .error err => .ret (.error (.rateLimit err))
      | .ok () =>
        .call (.put sha (e.body data)) fun
        | .error err => .ret (.error err)
        | .ok () =>
          .call (.addChunk sha data.length) fun
          | .error err => .ret (.error (.chunkIndex err))
          | .ok () => .ret (.ok (e.body data).length)

def hasChunk (sha : Sha) : EngineM (Except Err Bool) :=
  .call (.hasChunk sha) fun
  | .error err => .ret (.error (.chunkIndex err))
  | .ok true => .ret (.ok true)
  | .ok false =>
    .call (.head sha) fun
    | .error err => .ret (.error err)
    | .ok none => .ret (.ok false)
    | .ok (some size) =>
      -- The raw size is not known without a download; the stored one is recorded.
      .call (.addChunk sha size) fun
      | .error err => .ret (.error (.chunkIndex err))
      | .ok () => .ret (.ok true)

def readChunk (e : Engine) (ch : Chunk) : EngineM (Except Err Bytes) :=
  .call (.getBytes ch.sha256) fun
  | .error err => .ret (.error err)
  | .ok stored =>
    let data := decodeChunk e.zstd stored
    if e.hash data ≠ ch.sha256 then
      .ret (.error (.hashMismatch ch.sha256 (e.hash data)))
    else if ch.size ≠ 0 ∧ data.length ≠ ch.size then
      .ret (.error (.chunkLength ch.sha256 data.length ch.size))
    else .ret (.ok data)

def writeManifest (m : Manifest) : EngineM (Except Err Unit) :=
  let m := if m.chunkSize = 0 then { m with chunkSize := Engine.chunkSize } else m
  .call (.putManifest m.key m) .ret

def deleteManifest (key : ManifestKey) : EngineM (Except Err Unit) :=
  .call (.deleteManifest key) .ret

/-- A walk over `chunks/`: each listed key is visited unless it is gone by then,
and the first error ends the walk with what the visits have gathered. -/
def forChunks {α : Type} (visit : α → Object → EngineM (α × Option Err)) :
    List Sha → α → EngineM (α × Option Err)
  | [], acc => .ret (acc, none)
  | sha :: rest, acc =>
    .call (.walkChunk sha) fun
    | .error err => .ret (acc, some err)
    | .ok none => forChunks visit rest acc
    | .ok (some o) => visit acc o >>= fun
      | (acc, some err) => .ret (acc, some err)
      | (acc, none) => forChunks visit rest acc

def syncVisit (n : Nat) (o : Object) : EngineM (Nat × Option Err) :=
  .call (.addChunk o.sha o.size) fun
  | .error err => .ret (n, some (.syncChunkIndex err))
  | .ok () => .ret (n + 1, none)

def syncChunkIndex : EngineM (Except Err Nat) :=
  .call .walkChunks fun
  | .error err => .ret (.error err)
  | .ok shas => forChunks syncVisit shas 0 >>= fun
    | (_, some err) => .ret (.error err)
    | (n, none) => .ret (.ok n)

-- A restore adds two effects to the engine's calls: it looks at its context
-- before every chunk, and it writes to the caller.
inductive RestoreCall where
  | engine (c : Call)
  | ctxErr
  | write (data : Bytes)

abbrev RestoreReply : RestoreCall → Type
  | .engine c => Reply c
  | .ctxErr => Option Fault
  | .write _ => Except Err Unit

abbrev RestoreM (α : Type) := Prog RestoreCall RestoreReply α

def liftRestore {α : Type} (p : EngineM α) : RestoreM α :=
  p.lift .engine fun _ r => r

/-- The loop of `RestoreDisk` over the remaining chunks: the bytes written and
the session's counters so far are its accumulators. -/
def restoreChunks (e : Engine) (name : String) :
    List Chunk → Nat → Stats → RestoreM (Except Err Nat × Stats)
  | [], written, st => .ret (.ok written, st)
  | ch :: rest, written, st =>
    .call .ctxErr fun
    | some f => .ret (.error (.fault f), st)
    | none => liftRestore (e.readChunk ch) >>= fun
      | .error err => .ret (.error (.restore name err), st)
      | .ok data =>
        .call (.write data) fun
        | .error err => .ret (.error (.restoreWrite name err), st)
        | .ok () =>
          e.restoreChunks name rest (written + data.length) (st.record data.length 0)

def restoreDisk (e : Engine) (dm : DiskManifest) (st : Stats) :
    RestoreM (Except Err Unit × Stats) :=
  e.restoreChunks dm.name dm.chunks 0 st >>= fun
  | (.error err, st) => .ret (.error err, st)
  | (.ok written, st) =>
    if dm.sizeBytes ≠ 0 ∧ written ≠ dm.sizeBytes then
      .ret (.error (.restoreSize dm.name written dm.sizeBytes), st)
    else .ret (.ok (), st)

end ProxBack.Engine
