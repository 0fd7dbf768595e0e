import Mathlib.Data.List.Basic
import Mathlib.Data.List.Infix
import Mathlib.Algebra.Order.Ring.Nat
import Mathlib.Algebra.Order.Ring.Int

/-! The engine's data: chunks, manifests, progress counters, the errors it
returns, and the stored form of a chunk. SHA-256 and zstd are parameters. -/
namespace ProxBack.Engine

abbrev Bytes := List UInt8

abbrev Sha := String

/-- Nanoseconds since the zero `time.Time`, so that `IsZero` is equality with 0. -/
abbrev Time := Int

def chunkSize : Nat := 4 <<< 20

theorem chunkSize_pos : 0 < chunkSize := by decide

/-- What a call to storage, to a database or to a context can fail with. A
missing object is an answer and not a failure, so it is not among them. -/
inductive Fault where
  | canceled
  | deadlineExceeded
  | other (code : Nat)
deriving DecidableEq, Repr

inductive Err where
  | fault (f : Fault)
  | notFound
  | eof
  | unexpectedEOF
  | chunkIndex (err : Err)
  | rateLimit (err : Err)
  | storeChunk (seq : Nat) (name : String) (err : Err)
  | readStream (name : String) (err : Err)
  | neverStored (name : String) (seq : Nat)
  | hashMismatch (expected got : Sha)
  | chunkLength (sha : Sha) (got : Nat) (want : Int)
  | restore (name : String) (err : Err)
  | restoreWrite (name : String) (err : Err)
  | restoreSize (name : String) (wrote : Nat) (want : Int)
  | gcDecode (kind sourceID backupID : String)
  | gcChunkIndex (err : Err)
  | syncChunkIndex (err : Err)
deriving DecidableEq, Repr

structure Chunk where
  sha256 : Sha
  size : Int
deriving DecidableEq, Repr

/-- The zero value the chunk slice is padded with while workers finish out of
order. -/
def Chunk.zero : Chunk := ⟨"", 0⟩

structure DiskManifest where
  name : String
  sizeBytes : Int
  chunks : List Chunk
deriving DecidableEq, Repr

inductive SourceKind where
  | vm
  | agent
deriving DecidableEq, Repr

def SourceKind.text : SourceKind → String
  | .vm => "vm"
  | .agent => "agent"

inductive BackupKind where
  | full
  | incremental
deriving DecidableEq, Repr

def kind (parentID : String) : BackupKind :=
  if parentID = "" then .full else .incremental

structure Manifest where
  backupID : String
  jobID : String
  jobName : String
  runID : String
  sourceKind : SourceKind
  sourceID : String
  sourceName : String
  targetID : String
  createdAt : Time
  kind : BackupKind
  parentID : String
  sizeBytes : Int
  uploadedBytes : Nat
  chunkSize : Nat
  disks : List DiskManifest
deriving DecidableEq, Repr

def Manifest.hashes (m : Manifest) : List Sha :=
  m.disks.flatMap fun d => d.chunks.map Chunk.sha256

structure Stats where
  bytesProcessed : Nat
  bytesUploaded : Nat
  bytesDeduped : Nat
  chunksTotal : Nat
  chunksUploaded : Nat
  chunksDeduped : Nat
deriving DecidableEq, Repr

def Stats.zero : Stats := ⟨0, 0, 0, 0, 0, 0⟩

/-- `Session.record`: account for one processed chunk. -/
def Stats.record (st : Stats) (size uploaded : Nat) : Stats :=
  let st := { st with
    bytesProcessed := st.bytesProcessed + size
    chunksTotal := st.chunksTotal + 1 }
  if uploaded > 0 then
    { st with
      bytesUploaded := st.bytesUploaded + uploaded
      chunksUploaded := st.chunksUploaded + 1 }
  else
    { st with
      bytesDeduped := st.bytesDeduped + size
      chunksDeduped := st.chunksDeduped + 1 }

-- The stored form of a chunk. The reader sniffs it from the first four
-- bytes; nothing in the manifest or the index records it.
/-- The process-wide zstd encoder and decoder. Either may be missing, when it
could not be built. -/
structure Zstd where
  encoder : Option (Bytes → Bytes)
  decoder : Option (Bytes → Option Bytes)

def Zstd.Lawful (z : Zstd) : Prop :=
  ∀ enc, z.encoder = some enc →
    ∃ dec, z.decoder = some dec ∧ ∀ raw, raw.length ≤ chunkSize → dec (enc raw) = some raw

/-- The bytes of `PBZ1`. -/
def chunkMagic : Bytes := [0x50, 0x42, 0x5A, 0x31]

/-- The form a raw chunk is stored in when compression is on: the magic and a
zstd frame, or the raw bytes when that would not be shorter. -/
def compressChunk (z : Zstd) (raw : Bytes) : Bytes :=
  match z.encoder with
  | none => raw
  | some enc =>
    let out := chunkMagic ++ enc raw
    if out.length ≥ raw.length then raw else out

/-- Turn a stored object back into raw bytes. A frame that does not decode is
taken to be raw data that happens to start with the magic. -/
def decodeChunk (z : Zstd) (stored : Bytes) : Bytes :=
  if chunkMagic.isPrefixOf stored then
    match z.decoder with
    | none => stored
    | some dec =>
      match dec (stored.drop chunkMagic.length) with
      | none => stored
      | some out => out
  else stored

/-- What the reader makes of a chunk stored raw: it comes back unchanged unless
it carries the magic and the rest of it decodes to something else. -/
theorem decodeChunk_eq_self_iff (z : Zstd) (raw : Bytes) :
    decodeChunk z raw = raw ↔
      ∀ dec out, chunkMagic <+: raw → z.decoder = some dec →
        dec (raw.drop chunkMagic.length) = some out → out = raw := by
  unfold decodeChunk
  by_cases hmagic : chunkMagic <+: raw
  · rw [if_pos (List.isPrefixOf_iff_prefix.mpr hmagic)]
    cases hdec : z.decoder with
    | none => simp
    | some dec =>
      cases hout : dec (raw.drop chunkMagic.length) with
      | none =>
        simp only [hout]
        refine iff_of_true trivial fun _ _ _ heq h => ?_
        cases heq
        rw [hout] at h
        cases h
      | some out =>
        simp only [hout]
        refine ⟨fun h _ _ _ heq h' => ?_, fun h => h dec out hmagic rfl hout⟩
        cases heq
        rw [hout] at h'
        cases h'
        exact h
  · rw [if_neg (fun h => hmagic (List.isPrefixOf_iff_prefix.mp h))]
    simp [hmagic]

theorem decodeChunk_frame {z : Zstd} (hz : z.Lawful) {enc : Bytes → Bytes}
    (henc : z.encoder = some enc) {raw : Bytes} (hraw : raw.length ≤ chunkSize) :
    decodeChunk z (chunkMagic ++ enc raw) = raw := by
  obtain ⟨dec, hdec, hinv⟩ := hz enc henc
  have hprefix : chunkMagic.isPrefixOf (chunkMagic ++ enc raw) = true :=
    List.isPrefixOf_iff_prefix.mpr (List.prefix_append _ _)
  unfold decodeChunk
  rw [if_pos hprefix, hdec]
  simp only [List.drop_left, hinv raw hraw]

theorem compressChunk_cases (z : Zstd) (raw : Bytes) :
    compressChunk z raw = raw ∨
      ∃ enc, z.encoder = some enc ∧ compressChunk z raw = chunkMagic ++ enc raw ∧
        (chunkMagic ++ enc raw).length < raw.length := by
  unfold compressChunk
  cases henc : z.encoder with
  | none => exact .inl rfl
  | some enc =>
    simp only
    split
    · exact .inl rfl
    · rename_i hlen
      exact .inr ⟨enc, rfl, rfl, not_le.mp hlen⟩

theorem compressChunk_ne_nil (z : Zstd) {raw : Bytes} (hraw : raw ≠ []) :
    compressChunk z raw ≠ [] := by
  rcases compressChunk_cases z raw with h | ⟨enc, _, h, _⟩ <;> rw [h]
  · exact hraw
  · simp [chunkMagic]

structure Options where
  uploadConcurrency : Int
  compression : String
  gcGrace : Int

def defaultUploadConcurrency : Nat := 4
def maxUploadConcurrency : Nat := 16

def defaultGCGrace : Int := 24 * 3600 * 1000000000

end ProxBack.Engine

/-- An engine bound to one target: its normalised options, and the two
functions it takes from outside. -/
structure ProxBack.Engine where
  hash : ProxBack.Engine.Bytes → ProxBack.Engine.Sha
  zstd : ProxBack.Engine.Zstd
  workers : Nat
  compress : Bool
  gcGrace : Int

namespace ProxBack.Engine

def newWithOptions (hash : Bytes → Sha) (zstd : Zstd) (opts : Options) : Engine where
  hash := hash
  zstd := zstd
  workers :=
    if opts.uploadConcurrency < 1 then defaultUploadConcurrency
    else min opts.uploadConcurrency.toNat maxUploadConcurrency
  compress := opts.compression ≠ "off"
  gcGrace :=
    if opts.gcGrace = 0 then defaultGCGrace
    else if opts.gcGrace < 0 then 0
    else opts.gcGrace

/-- Whatever the settings say, an engine runs one to sixteen workers and never
has a negative grace window. -/
theorem newWithOptions_normalised (hash : Bytes → Sha) (zstd : Zstd) (opts : Options) :
    1 ≤ (newWithOptions hash zstd opts).workers ∧
      (newWithOptions hash zstd opts).workers ≤ 16 ∧
      0 ≤ (newWithOptions hash zstd opts).gcGrace := by
  simp only [newWithOptions, defaultUploadConcurrency, maxUploadConcurrency,
    defaultGCGrace]
  refine ⟨?_, ?_, ?_⟩ <;> split <;> omega

def body (e : Engine) (data : Bytes) : Bytes :=
  if e.compress then compressChunk e.zstd data else data

theorem body_ne_nil (e : Engine) {data : Bytes} (hdata : data ≠ []) :
    e.body data ≠ [] := by
  unfold body
  split
  · exact compressChunk_ne_nil e.zstd hdata
  · exact hdata

end ProxBack.Engine
