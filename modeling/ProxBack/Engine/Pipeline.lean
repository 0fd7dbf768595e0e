import ProxBack.Engine.Coalesce
import ProxBack.Engine.Reader

/-! `BackupStream`: one reader that fills buffers and hands them to a pool of
workers over an unbuffered channel, and the call that waits for all of them. -/
namespace ProxBack.Engine
open Lib Prog

structure ChunkUnit where
  seq : Nat
  buf : Nat
  n : Nat
deriving DecidableEq

/-- Where `readChunks` stands. `getTry`, `getAlloc` and `getWait` are the three
parts of `bufPool.get`. -/
inductive Reader where
  | head
  | getTry
  | getAlloc
  | getWait
  | filling (buf : Nat)
  | sending (u : ChunkUnit) (err : Option Err)
  | deciding (err : Option Err)
  | finished (err : Option Err)

inductive Worker where
  | idle
  | taken (u : ChunkUnit)
  | storing (u : ChunkUnit) (c : StoreCall)
  | failing (u : ChunkUnit) (err : Err)
  | placing (u : ChunkUnit) (sha : Sha) (uploaded : Nat)
  | recording (u : ChunkUnit) (uploaded : Nat)
  | recycling (u : ChunkUnit)
  | exited

/-- A running `BackupStream` with `w` workers. `caller` is the state of the context
it was given and `ctx` that of the one derived from it; `mem` holds the contents
of the read buffers. -/
structure Pipeline (w : Nat) where
  caller : Option Fault
  ctx : Option Fault
  script : List ReadReply
  seq : Nat
  reader : Reader
  allocated : Nat
  free : List Nat
  mem : Nat → Bytes
  closed : Bool
  workers : Fin w → Worker
  shared : Shared
  chunks : List Chunk
  firstErr : Option Err
  stats : Stats
  result : Option (Except Err DiskManifest)

/-- `place`: grow the slice up to `seq` and set that entry. -/
def place (chunks : List Chunk) (seq : Nat) (c : Chunk) : List Chunk :=
  (chunks ++ List.replicate (seq + 1 - chunks.length) Chunk.zero).set seq c

def sumChunks (name : String) : List Chunk → Nat → Int → Except Err Int
  | [], _, size => .ok size
  | c :: rest, i, size =>
    if c.sha256 = "" then .error (.neverStored name i)
    else sumChunks name rest (i + 1) (size + c.size)

/-- What `BackupStream` returns once every worker is gone. -/
def streamResult (name : String) (firstErr readErr : Option Err) (chunks : List Chunk) :
    Except Err DiskManifest :=
  match firstErr, readErr with
  | some err, _ => .error err
  | none, some err => .error err
  | none, none =>
    match sumChunks name chunks 0 0 with
    | .error err => .error err
    | .ok size => .ok ⟨name, size, chunks⟩

inductive PipelineAction (w : Nat) where
  | callerEnds (f : Fault)
  | read
  | readCanceled
  | handOff (i : Fin w)
  | worker (i : Fin w) (m : StoreMove)
  | close
  | finish

namespace Pipeline

variable {w : Nat}

/-- `bufPool.put`: the free list never takes more than its capacity. -/
def putBuf (s : Pipeline w) (buf : Nat) : List Nat :=
  if s.free.length < w + 1 then s.free ++ [buf] else s.free

def unitData (s : Pipeline w) (u : ChunkUnit) : Bytes := (s.mem u.buf).take u.n

def setWorker (s : Pipeline w) (i : Fin w) (wk : Worker) : Pipeline w :=
  { s with workers := Function.update s.workers i wk }

def readStep (name : String) (s : Pipeline w) : Option (Pipeline w) :=
  match s.reader with
  | .head =>
    match s.ctx with
    | some f => some { s with reader := .finished (some (.fault f)) }
    | none => some { s with reader := .getTry }
  | .getTry =>
    match s.free with
    | b :: rest => some { s with free := rest, reader := .filling b }
    | [] => some { s with reader := .getAlloc }
  | .getAlloc =>
    if s.allocated < w + 1 then
      some { s with allocated := s.allocated + 1, reader := .filling s.allocated }
    else some { s with reader := .getWait }
  | .getWait =>
    match s.free with
    | b :: rest => some { s with free := rest, reader := .filling b }
    | [] => none
  | .filling b =>
    let out := readFull s.script chunkSize
    let s := { s with
      script := out.2.2
      mem := Function.update s.mem b (out.1 ++ (s.mem b).drop out.1.length) }
    if out.1.length > 0 then
      some { s with reader := .sending ⟨s.seq, b, out.1.length⟩ out.2.1 }
    else some { s with free := s.putBuf b, reader := .deciding out.2.1 }
  | .deciding none => some { s with reader := .head }
  | .deciding (some err) => some { s with reader := .finished (endErr name err) }
  | _ => none

/-- The `ctx.Done()` branch of the reader's two selects. -/
def readCancel (s : Pipeline w) : Option (Pipeline w) :=
  match s.ctx, s.reader with
  | some f, .getWait => some { s with reader := .finished (some (.fault f)) }
  | some f, .sending u _ =>
    some { s with free := s.putBuf u.buf, reader := .finished (some (.fault f)) }
  | _, _ => none

def workerStep (e : Engine) (name : String) (s : Pipeline w) (i : Fin w) (m : StoreMove) :
    Option (Pipeline w) :=
  match s.workers i with
  | .idle => if s.closed then some (s.setWorker i .exited) else none
  | .taken u =>
    match s.ctx with
    | some _ => some (s.setWorker i (.recycling u))
    | none =>
      let data := s.unitData u
      some (s.setWorker i (.storing u ⟨e.hash data, data, .entering⟩))
  | .storing u ⟨_, _, .returned (.error err)⟩ =>
    some (s.setWorker i (.failing u (.storeChunk u.seq name err)))
  | .storing u ⟨sha, _, .returned (.ok uploaded)⟩ =>
    some (s.setWorker i (.placing u sha uploaded))
  | .storing u c =>
    (storeStep e c.sha c.data s.ctx m s.shared c.st).map fun out =>
      { s.setWorker i (.storing u { c with st := out.2 }) with shared := out.1 }
  | .failing u err =>
    match s.firstErr with
    | some _ => some (s.setWorker i (.recycling u))
    | none =>
      some { s.setWorker i (.recycling u) with
        firstErr := some err
        ctx := s.ctx.or (some .canceled) }
  | .placing u sha uploaded =>
    some { s.setWorker i (.recording u uploaded) with chunks := place s.chunks u.seq ⟨sha, u.n⟩ }
  | .recording u uploaded =>
    some { s.setWorker i (.recycling u) with stats := s.stats.record u.n uploaded }
  | .recycling u => some { s.setWorker i .idle with free := s.putBuf u.buf }
  | .exited => none

instance (wk : Worker) : Decidable (wk = .exited) :=
  match wk with
  | .exited => isTrue rfl
  | .idle | .taken _ | .storing _ _ | .failing _ _ | .placing _ _ _ | .recording _ _
  | .recycling _ => isFalse nofun

def step (e : Engine) (name : String) : PipelineAction w → Pipeline w → Option (Pipeline w)
  | .callerEnds f, s =>
    match s.caller with
    | none => some { s with caller := some f, ctx := s.ctx.or (some f) }
    | some _ => none
  | .read, s => s.readStep name
  | .readCanceled, s => s.readCancel
  | .handOff i, s =>
    match s.reader, s.workers i with
    | .sending u err, .idle =>
      some { s.setWorker i (.taken u) with seq := s.seq + 1, reader := .deciding err }
    | _, _ => none
  | .worker i m, s => s.workerStep e name i m
  | .close, s =>
    match s.reader with
    | .finished _ => if s.closed then none else some { s with closed := true }
    | _ => none
  | .finish, s =>
    match s.reader, s.result with
    | .finished err, none =>
      if s.closed ∧ ∀ i, s.workers i = .exited then
        some { s with result := some (streamResult name s.firstErr err s.chunks) }
      else none
    | _, _ => none

def initial (caller : Option Fault) (script : List ReadReply) (t : Target) (st : Stats) :
    Pipeline w where
  caller := caller
  ctx := caller
  script := script
  seq := 0
  reader := .head
  allocated := 0
  free := []
  mem := fun _ => List.replicate chunkSize 0
  closed := false
  workers := fun _ => .idle
  shared := ⟨t, ∅, 0, fun _ => none⟩
  chunks := []
  firstErr := none
  stats := st
  result := none

end Pipeline

/-- `BackupStream` of a stream called `name`, on an engine with `w` workers. -/
def backupStream (e : Engine) (w : Nat) (name : String) :
    System (Pipeline w) (PipelineAction w) where
  step := Pipeline.step e name

end ProxBack.Engine
