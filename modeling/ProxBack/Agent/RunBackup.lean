import ProxBack.Engine.Reader
import ProxBack.Lib.Prog

/-! What an agent does with a backup dispatch: the estimate, the archive that is written
into a pipe, the chunks read out of it and uploaded, and the completion of the run. -/
namespace ProxBack.Agent.Upload
open Lib Prog Engine

def streamName : String := "files.tar"

structure Dispatch where
  runID : String
  paths : List String
  excludePaths : List String
  preScript : String
  postScript : String
  chunkSize : Int
deriving DecidableEq, Repr

inductive Err where
  | noPaths
  | estimate (f : Fault)
  | ctx (f : Fault)
  | upload (f : Fault)
  | readTar (err : Engine.Err)
  | writeTar (err : Engine.Err)
  | complete (f : Fault)
deriving DecidableEq

/-- What `writeTar` leaves: the reader's end of the pipe, and its own error. -/
structure Tar where
  reader : List ReadReply
  err : Option Engine.Err

inductive Call where
  | estimateSize (paths excludePaths : List String)
  | writeTar (paths excludePaths : List String)
  | ctxErr
  | uploadChunk (runID : String) (sha : Sha) (data : Bytes) (total : Nat)
  | complete (runID : String) (disks : List DiskManifest)
  | fail (runID : String) (err : Err)

abbrev Reply : Call → Type
  | .estimateSize _ _ => Except Fault Nat
  | .writeTar _ _ => Tar
  | .ctxErr => Option Fault
  | .uploadChunk _ _ _ _ => Option Fault
  | .complete _ _ => Option Fault
  | .fail _ _ => Option Fault

abbrev UploadM (α : Type) := Prog Call Reply α

def Dispatch.size (d : Dispatch) : Nat :=
  if d.chunkSize ≤ 0 then Engine.chunkSize else d.chunkSize.toNat

theorem Dispatch.size_pos (d : Dispatch) : 0 < d.size := by
  unfold size
  split
  · exact chunkSize_pos
  · omega

def addChunk (stream : DiskManifest) (sha : Sha) (data : Bytes) : DiskManifest :=
  { stream with
    sizeBytes := stream.sizeBytes + data.length
    chunks := stream.chunks ++ [⟨sha, data.length⟩] }

section
variable (sha256 : Bytes → Sha)

def uploadLoop (d : Dispatch) (total : Nat) (reader : List ReadReply) (stream : DiskManifest) :
    UploadM (Except Err DiskManifest) :=
  .call .ctxErr fun
  | some f => .ret (.error (.ctx f))
  | none =>
    let out := readFull reader d.size
    let next (stream : DiskManifest) : UploadM (Except Err DiskManifest) :=
      match _ : out.2.1 with
      | none => uploadLoop d total out.2.2 stream
      | some err => if err.isEOF then .ret (.ok stream) else .ret (.error (.readTar err))
    if out.1 = [] then next stream
    else
      .call (.uploadChunk d.runID (sha256 out.1) out.1 total) fun
      | some f => .ret (.error (.upload f))
      | none => next (addChunk stream (sha256 out.1) out.1)
termination_by pendingBytes reader
decreasing_by
  have hfull : (readFull reader d.size).1.length = d.size := readFull_full ‹_›
  have htotal := (readLoop_spec reader d.size).2.2
  rw [← readFull_fst, ← readFull_rest, hfull] at htotal
  have hpos := d.size_pos
  show pendingBytes (readFull reader d.size).2.2 < pendingBytes reader
  omega

def runBackup (d : Dispatch) : UploadM (Option Err) :=
  if d.paths = [] then .ret (some .noPaths)
  else
    .call (.estimateSize d.paths d.excludePaths) fun
    | .error f => .ret (some (.estimate f))
    | .ok total =>
      .call (.writeTar d.paths d.excludePaths) fun tar =>
      uploadLoop sha256 d total tar.reader ⟨streamName, 0, []⟩ >>= fun
      | .error err => .ret (some err)
      | .ok stream =>
        -- A writer that stopped with an error the reader took for the end.
        match tar.err with
        | some err => .ret (some (.writeTar err))
        | none =>
          .call (.complete d.runID [stream]) fun
          | some f => .ret (some (.complete f))
          | none => .ret none

def collect (d : Dispatch) : UploadM Unit :=
  runBackup sha256 d >>= fun
  | none => .ret ()
  | some err => if d.runID = "" then .ret () else .call (.fail d.runID err) fun _ => .ret ()

theorem uploadLoop_single {d : Dispatch} {data : Bytes} (hne : data ≠ [])
    (hlt : data.length < d.size) (total : Nat) (stream : DiskManifest) :
    uploadLoop sha256 d total [⟨data, some .eof⟩] stream =
      .call .ctxErr fun
      | some f => .ret (.error (.ctx f))
      | none => .call (.uploadChunk d.runID (sha256 data) data total) fun
        | some f => .ret (.error (.upload f))
        | none => .ret (.ok (addChunk stream (sha256 data) data)) := by
  have hread : readFull [⟨data, some .eof⟩] d.size = (data, some .unexpectedEOF, []) := by
    have hpos := d.size_pos
    have hloop : readLoop [⟨data, some .eof⟩] d.size = (data, some .eof, []) := by
      rw [readLoop, if_neg (by omega), if_neg (by simpa using hlt.le), if_neg (by simpa using hlt.ne)]
    rw [readFull, hloop, if_pos ⟨hne, rfl⟩]
  have hcall : ∀ {a b : Bytes} {k l : Option Fault → UploadM (Except Err DiskManifest)}, a = b →
      k = l → (.call (.uploadChunk d.runID (sha256 a) a total) k :
        UploadM (Except Err DiskManifest)) = .call (.uploadChunk d.runID (sha256 b) b total) l := by
    rintro a b k l rfl rfl
    rfl
  rw [uploadLoop]
  congr 1
  funext r
  cases r with
  | some f => rfl
  | none =>
    dsimp only
    rw [if_neg (by rw [hread]; exact hne)]
    refine hcall (by rw [hread]) (funext fun r => ?_)
    cases r with
    | some f => rfl
    | none =>
      dsimp only
      split
      · rename_i herr
        rw [hread] at herr
        cases herr
      · rename_i err herr
        rw [hread] at herr ⊢
        cases herr
        rfl

end

end ProxBack.Agent.Upload
