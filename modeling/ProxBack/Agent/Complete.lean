import ProxBack.Engine.RoundTrip
import Mathlib.Data.Finmap

/-! What an agent declares when it completes a backup, and what a restore later makes of
it. Sizes are the `int64` of the request's JSON: they may be zero, negative, or wrong. -/
namespace ProxBack.Agent
open Lib Prog Engine

structure Chunk where
  sha256 : Sha
  size : Int64
deriving DecidableEq

structure DiskManifest where
  name : String
  sizeBytes : Int64
  chunks : List Chunk
deriving DecidableEq

inductive Err where
  | unauthorized
  | unknownRun
  | agentBusy
  | engine (err : Engine.Err)
  | notBackupRun (runID : String)
  | notRestoreRun (runID : String)
  | noStreams
  | missingChunk (runID : String) (sha : Sha)
  | agentFailed (message : String)
deriving DecidableEq

section Complete

variable {m : Type → Type} [Monad m] (hasChunk : Sha → m (Except Engine.Err Bool))

/-- The inner loop of `Complete`: every chunk is on the target; their declared sizes add up. -/
def checkChunks (runID : String) : List Chunk → Int64 → m (Except Err Int64)
  | [], size => pure (.ok size)
  | c :: rest, size => do
    match ← hasChunk c.sha256 with
    | .error err => pure (.error (.engine err))
    | .ok false => pure (.error (.missingChunk runID c.sha256))
    | .ok true => checkChunks runID rest (size + c.size)

/-- A stream as `Complete` hands it on, given the sum of its declared chunk sizes. -/
def DiskManifest.filled (d : DiskManifest) (size : Int64) : DiskManifest :=
  { d with
    name := if d.name = "" then "files.tar" else d.name
    sizeBytes := if d.sizeBytes = 0 then size else d.sizeBytes }

def checkDisks (runID : String) : List DiskManifest → m (Except Err (List DiskManifest))
  | [] => pure (.ok [])
  | d :: rest => do
    match ← checkChunks hasChunk runID d.chunks 0 with
    | .error err => pure (.error err)
    | .ok size =>
      match ← checkDisks runID rest with
      | .error err => pure (.error err)
      | .ok disks => pure (.ok (d.filled size :: disks))

/-- `Complete` of a backup run, up to the result it finishes the run with. -/
def complete (runID : String) (disks : List DiskManifest) :
    m (Except Err (List DiskManifest)) :=
  if disks = [] then pure (.error .noStreams) else checkDisks hasChunk runID disks

end Complete

inductive RestoreErr where
  | ctx (f : Fault)
  | read (name : String) (err : Engine.Err)
  | chunkLength (name : String) (sha : Sha) (got want : Int64)
  | write (name : String) (err : Engine.Err)
  | size (name : String) (wrote want : Int64)
deriving DecidableEq

def readChunk (e : Engine) (name : String) (ch : Chunk) : EngineM (Except RestoreErr Bytes) :=
  .call (.getBytes ch.sha256) fun
  | .error err => .ret (.error (.read name err))
  | .ok stored =>
    let data := decodeChunk e.zstd stored
    if e.hash data ≠ ch.sha256 then
      .ret (.error (.read name (.hashMismatch ch.sha256 (e.hash data))))
    else if ch.size ≠ 0 ∧ Int64.ofNat data.length ≠ ch.size then
      .ret (.error (.chunkLength name ch.sha256 (.ofNat data.length) ch.size))
    else .ret (.ok data)

def restoreChunks (e : Engine) (name : String) :
    List Chunk → Int64 → RestoreM (Except RestoreErr Int64)
  | [], written => .ret (.ok written)
  | ch :: rest, written =>
    .call .ctxErr fun
    | some f => .ret (.error (.ctx f))
    | none => liftRestore (readChunk e name ch) >>= fun
      | .error err => .ret (.error err)
      | .ok data =>
        .call (.write data) fun
        | .error err => .ret (.error (.write name err))
        | .ok () => restoreChunks e name rest (written + .ofNat data.length)

def restoreDisk (e : Engine) (dm : DiskManifest) : RestoreM (Except RestoreErr Unit) :=
  restoreChunks e dm.name dm.chunks 0 >>= fun
  | .error err => .ret (.error err)
  | .ok written =>
    if dm.sizeBytes ≠ 0 ∧ written ≠ dm.sizeBytes then
      .ret (.error (.size dm.name written dm.sizeBytes))
    else .ret (.ok ())

def storedLength (e : Engine) (t : Target) (sha : Sha) : Int64 :=
  match t.chunks.lookup sha with
  | none => 0
  | some o => .ofNat (decodeChunk e.zstd o.data).length

def DiskManifest.declared (d : DiskManifest) : Int64 := (d.chunks.map Chunk.size).sum

def DiskManifest.stored (e : Engine) (t : Target) (d : DiskManifest) : Int64 :=
  (d.chunks.map fun c => storedLength e t c.sha256).sum

theorem hasChunk_wp {t : Target} (ht : t.Sound) (sha : Sha) :
    Wp Target.machine.T (fun _ _ => True)
      (fun r t' => t'.chunks = t.chunks ∧ t'.Sound ∧ (r = .ok true → t.Present sha))
      (Engine.hasChunk sha) t := by
  refine ⟨trivial, ?_⟩
  rintro (err | indexed) t₁ h₁
  · cases T_reads h₁ trivial
    exact ⟨rfl, ht, nofun⟩
  cases T_reads h₁ trivial
  cases indexed with
  | true => exact ⟨rfl, ht, fun _ => ht sha ((T_hasChunk h₁).mp rfl)⟩
  | false =>
    refine ⟨trivial, ?_⟩
    rintro (err | size) t₂ h₂
    · cases T_reads h₂ trivial
      exact ⟨rfl, ht, nofun⟩
    cases T_reads h₂ trivial
    cases size with
    | none => exact ⟨rfl, ht, nofun⟩
    | some size =>
      have hpresent := T_head_some h₂
      refine ⟨trivial, ?_⟩
      rintro r t₃ ⟨x, hx⟩
      have hkept : t₃.chunks = t.chunks ∧ t₃.Sound := by
        rw [← (Prod.mk.inj hx).2]
        refine x.outcome_of (P := fun t' => t'.chunks = t.chunks ∧ t'.Sound) ⟨rfl, ht⟩ ⟨rfl, ?_⟩
        intro a ha
        rw [Target.present_addRow]
        rcases (Target.indexed_addRow t a sha size x.clock).mp ha with rfl | ha
        · exact hpresent
        · exact ht a ha
      cases r with
      | error err => exact ⟨hkept.1, hkept.2, nofun⟩
      | ok _ => exact ⟨hkept.1, hkept.2, fun _ => hpresent⟩

theorem present_congr {t t' : Target} (h : t'.chunks = t.chunks) (sha : Sha) :
    t'.Present sha ↔ t.Present sha := by rw [Target.Present, Target.Present, h]

theorem checkChunks_wp (runID : String) (cs : List Chunk) {t : Target} (ht : t.Sound)
    (size : Int64) :
    Wp Target.machine.T (fun _ _ => True)
      (fun r t' => t'.chunks = t.chunks ∧ t'.Sound ∧ ∀ total, r = .ok total →
        total = size + (cs.map Chunk.size).sum ∧ ∀ c ∈ cs, t.Present c.sha256)
      (checkChunks Engine.hasChunk runID cs size) t := by
  induction cs generalizing t size with
  | nil =>
    refine ⟨rfl, ht, ?_⟩
    rintro total ⟨⟩
    exact ⟨(Int64.add_zero size).symm, nofun⟩
  | cons c rest ih =>
    refine (wp_bind _ _ t).mpr ((hasChunk_wp ht c.sha256).post_mono ?_)
    rintro (err | present) t₁ ⟨hchunks, hsound, hpresent⟩
    · exact ⟨hchunks, hsound, nofun⟩
    cases present with
    | false => exact ⟨hchunks, hsound, nofun⟩
    | true =>
      refine (ih hsound (size + c.size)).post_mono ?_
      rintro r t₂ ⟨hchunks₂, hsound₂, hok⟩
      refine ⟨hchunks₂.trans hchunks, hsound₂, fun total htotal => ?_⟩
      obtain ⟨hsum, hrest⟩ := hok total htotal
      refine ⟨by rw [hsum, List.map_cons, List.sum_cons, Int64.add_assoc], ?_⟩
      refine List.forall_mem_cons.mpr ⟨hpresent rfl, fun c hc => ?_⟩
      exact (present_congr hchunks _).mp (hrest c hc)

def AllPresent (t : Target) (ds : List DiskManifest) : Prop :=
  ∀ d ∈ ds, ∀ c ∈ d.chunks, t.Present c.sha256

theorem checkDisks_wp (runID : String) (ds : List DiskManifest) {t : Target} (ht : t.Sound) :
    Wp Target.machine.T (fun _ _ => True)
      (fun r t' => t'.chunks = t.chunks ∧ t'.Sound ∧ ∀ disks, r = .ok disks →
        disks = ds.map (fun d => d.filled d.declared) ∧ AllPresent t ds)
      (checkDisks Engine.hasChunk runID ds) t := by
  induction ds generalizing t with
  | nil =>
    refine ⟨rfl, ht, ?_⟩
    rintro disks ⟨⟩
    exact ⟨rfl, nofun⟩
  | cons d rest ih =>
    refine (wp_bind _ _ t).mpr ((checkChunks_wp runID d.chunks ht 0).post_mono ?_)
    rintro (err | size) t₁ ⟨hchunks, hsound, hsize⟩
    · exact ⟨hchunks, hsound, nofun⟩
    obtain ⟨hsum, hpresent⟩ := hsize size rfl
    refine (wp_bind _ _ t₁).mpr ((ih hsound).post_mono ?_)
    rintro (err | disks) t₂ ⟨hchunks₂, hsound₂, hok⟩
    · exact ⟨hchunks₂.trans hchunks, hsound₂, nofun⟩
    refine ⟨hchunks₂.trans hchunks, hsound₂, ?_⟩
    rintro disks' ⟨⟩
    obtain ⟨hdisks, hall⟩ := hok disks rfl
    have hdeclared : size = d.declared := hsum.trans (Int64.zero_add _)
    refine ⟨by rw [hdisks, hdeclared, List.map_cons], List.forall_mem_cons.mpr ⟨hpresent, ?_⟩⟩
    exact fun d hd c hc => (present_congr hchunks _).mp (hall d hd c hc)

theorem complete_wp (runID : String) (ds : List DiskManifest) {t : Target} (ht : t.Sound) :
    Wp Target.machine.T (fun _ _ => True)
      (fun r t' => t'.chunks = t.chunks ∧ t'.Sound ∧ ∀ disks, r = .ok disks →
        disks = ds.map (fun d => d.filled d.declared) ∧ AllPresent t ds)
      (complete Engine.hasChunk runID ds) t := by
  unfold complete
  split
  · exact ⟨rfl, ht, nofun⟩
  · exact checkDisks_wp runID ds ht

def Decodes (e : Engine) (t : Target) : Prop :=
  ∀ sha o, t.chunks.lookup sha = some o → e.hash (decodeChunk e.zstd o.data) = sha

def Chunk.SizeOk (e : Engine) (t : Target) (c : Chunk) : Prop :=
  c.size = 0 ∨ c.size = storedLength e t c.sha256

def Restores (e : Engine) (t : Target) (d : DiskManifest) : Prop :=
  (run restoreAlone (restoreDisk e d) (t, [])).1 = .ok ()

section Restore

variable {e : Engine} {t : Target} (hdecodes : Decodes e t)
include hdecodes

theorem run_readChunk (name : String) {c : Chunk} (hc : t.Present c.sha256) (out : Bytes) :
    (c.SizeOk e t → ∃ data,
      run restoreAlone (liftRestore (readChunk e name c)) (t, out) = (.ok data, (t, out)) ∧
      Int64.ofNat data.length = storedLength e t c.sha256) ∧
    (¬ c.SizeOk e t → ∃ err,
      run restoreAlone (liftRestore (readChunk e name c)) (t, out) = (.error err, (t, out))) := by
  obtain ⟨o, ho⟩ := Option.isSome_iff_exists.mp hc
  have hget : Target.exec (.getBytes c.sha256) .fine t = (.ok o.data, t) := by
    simp only [Target.exec, ho]
    rfl
  have hlen : storedLength e t c.sha256 = .ofNat (decodeChunk e.zstd o.data).length := by
    rw [storedLength, ho]
  have hhash := hdecodes _ o ho
  simp only [readChunk, liftRestore, lift, run_call, restoreAlone, hget, hhash, ne_eq,
    not_true_eq_false, if_false, Chunk.SizeOk, hlen]
  constructor
  · intro hsize
    have hpass : ¬ (¬ c.size = 0 ∧ ¬ Int64.ofNat (decodeChunk e.zstd o.data).length = c.size) := by
      rintro ⟨hzero, hdiff⟩
      exact hdiff (hsize.resolve_left hzero).symm
    rw [if_neg hpass]
    exact ⟨_, rfl, rfl⟩
  · intro hsize
    rw [not_or] at hsize
    rw [if_pos ⟨hsize.1, fun heq => hsize.2 heq.symm⟩]
    exact ⟨_, rfl⟩

theorem run_restoreChunks (name : String) {cs : List Chunk}
    (hcs : ∀ c ∈ cs, t.Present c.sha256) (written : Int64) (out : Bytes) :
    ((∀ c ∈ cs, c.SizeOk e t) →
      (run restoreAlone (restoreChunks e name cs written) (t, out)).1 =
        .ok (written + (cs.map fun c => storedLength e t c.sha256).sum)) ∧
    ((∃ c ∈ cs, ¬ c.SizeOk e t) → ∃ err,
      (run restoreAlone (restoreChunks e name cs written) (t, out)).1 = .error err) := by
  induction cs generalizing written out with
  | nil =>
    refine ⟨fun _ => ?_, by simp⟩
    simp [restoreChunks, Int64.add_zero]
  | cons c rest ih =>
    obtain ⟨hok, hbad⟩ := run_readChunk hdecodes name (hcs c List.mem_cons_self) out
    have hrest := fun d (hd : d ∈ rest) => hcs d (List.mem_cons_of_mem c hd)
    rw [restoreChunks, run_call]
    simp only [restoreAlone]
    rw [run_bind]
    by_cases hsize : c.SizeOk e t
    · obtain ⟨data, hread, hlen⟩ := hok hsize
      rw [hread]
      simp only [run_call, restoreAlone]
      obtain ⟨ihok, ihbad⟩ := ih hrest (written + .ofNat data.length) (out ++ data)
      constructor
      · intro hall
        rw [ihok fun d hd => hall d (List.mem_cons_of_mem c hd), hlen, List.map_cons,
          List.sum_cons, Int64.add_assoc]
      · rintro ⟨d, hd, hdbad⟩
        rcases List.mem_cons.mp hd with rfl | hd
        · exact absurd hsize hdbad
        · exact ihbad ⟨d, hd, hdbad⟩
    · obtain ⟨err, hread⟩ := hbad hsize
      rw [hread]
      exact ⟨fun hall => absurd (hall c List.mem_cons_self) hsize, fun _ => ⟨err, rfl⟩⟩

theorem restores_iff {d : DiskManifest} (hd : ∀ c ∈ d.chunks, t.Present c.sha256) :
    Restores e t d ↔
      (∀ c ∈ d.chunks, c.SizeOk e t) ∧ (d.sizeBytes = 0 ∨ d.sizeBytes = d.stored e t) := by
  obtain ⟨hok, hbad⟩ := run_restoreChunks hdecodes d.name hd 0 []
  unfold Restores restoreDisk
  rw [run_bind]
  by_cases hall : ∀ c ∈ d.chunks, c.SizeOk e t
  · rw [hok hall, Int64.zero_add, and_iff_right hall]
    simp only [← DiskManifest.stored.eq_1]
    split
    · rename_i hsize
      refine iff_of_false (by simp) ?_
      rw [not_or]
      exact ⟨hsize.1, fun heq => hsize.2 heq.symm⟩
    · rename_i hsize
      refine iff_of_true (by simp) ?_
      by_contra hno
      rw [not_or] at hno
      exact hsize ⟨hno.1, fun heq => hno.2 heq.symm⟩
  · push Not at hall
    obtain ⟨err, herr⟩ := hbad hall
    rw [herr]
    refine iff_of_false (by simp) fun h => ?_
    obtain ⟨c, hc, hcbad⟩ := hall
    exact hcbad (h.1 c hc)

end Restore

/-- What a request must declare about a stream for the restore point to be usable: every
chunk size and the total are zero or true. A total of zero stands for the sum of the
declared chunk sizes. -/
def DiskManifest.Honest (e : Engine) (t : Target) (d : DiskManifest) : Prop :=
  (∀ c ∈ d.chunks, c.SizeOk e t) ∧
    let total := if d.sizeBytes = 0 then d.declared else d.sizeBytes
    total = 0 ∨ total = d.stored e t

theorem restores_filled_iff {e : Engine} {t t' : Target} (hchunks : t'.chunks = t.chunks)
    (hdecodes : Decodes e t) {d : DiskManifest} (hd : ∀ c ∈ d.chunks, t.Present c.sha256) :
    Restores e t' (d.filled d.declared) ↔ d.Honest e t := by
  have hdecodes' : Decodes e t' := by
    unfold Decodes
    rw [hchunks]
    exact hdecodes
  have hd' : ∀ c ∈ (d.filled d.declared).chunks, t'.Present c.sha256 := fun c hc =>
    (present_congr hchunks _).mpr (hd c hc)
  rw [restores_iff hdecodes' hd']
  simp only [DiskManifest.Honest, DiskManifest.filled, DiskManifest.stored, Chunk.SizeOk,
    storedLength, hchunks]

/-- A completion that was accepted can be restored exactly when its streams are honest. -/
theorem completed_restores_iff {e : Engine} {t t' : Target} (hsound : t.Sound)
    (hdecodes : Decodes e t) {runID : String} {ds disks : List DiskManifest}
    {es : List Target.machine.Event}
    (h : Steps Target.machine (complete Engine.hasChunk runID ds) t es (.ret (.ok disks)) t') :
    (∀ d ∈ disks, Restores e t' d) ↔ ∀ d ∈ ds, d.Honest e t := by
  obtain ⟨hchunks, -, hok⟩ := (complete_wp runID ds hsound).steps h
  obtain ⟨rfl, hpresent⟩ := hok disks rfl
  rw [List.forall_mem_map]
  refine forall_congr' fun d => imp_congr_right fun hd => ?_
  exact restores_filled_iff hchunks hdecodes (hpresent d hd)

def byteTarget : Target where
  chunks := AList.singleton byteSha ⟨[7], 0⟩
  manifests := ∅
  index := AList.singleton byteSha ⟨1, 0⟩

theorem byteTarget_lookup {sha : Sha} {o : ChunkObject}
    (h : byteTarget.chunks.lookup sha = some o) : sha = byteSha ∧ o = ⟨[7], 0⟩ := by
  have hmem := AList.mem_lookup_iff.mp h
  simpa [byteTarget, AList.singleton] using hmem

theorem byteTarget_sound : byteTarget.Sound := by
  intro sha hsha
  obtain ⟨row, hrow⟩ := Option.isSome_iff_exists.mp hsha
  have hmem := List.mem_singleton.mp (AList.mem_lookup_iff.mp hrow)
  cases hmem
  rfl

theorem byteTarget_decodes : Decodes rawEngine byteTarget := by
  intro sha o h
  obtain ⟨rfl, rfl⟩ := byteTarget_lookup h
  rfl

def byteDisks (size : Int64) : List DiskManifest := [⟨"", 0, [⟨byteSha, size⟩]⟩]

theorem byteDisks_accepted (size : Int64) :
    Steps Target.machine (complete Engine.hasChunk "run" (byteDisks size)) byteTarget
      [(.hasChunk byteSha, .fine)] (.ret (.ok [⟨"files.tar", 0 + size, [⟨byteSha, size⟩]⟩]))
      byteTarget := by
  show Steps Target.machine (Prog.call (.hasChunk byteSha) _) _ _ _ _
  exact .cons (M := Target.machine) Choice.fine .nil

theorem completed_restores_byte :
    Restores rawEngine byteTarget ⟨"files.tar", 0 + 1, [⟨byteSha, 1⟩]⟩ := by
  refine (completed_restores_iff byteTarget_sound byteTarget_decodes (byteDisks_accepted 1)).mpr ?_ _
    (List.mem_singleton.mpr rfl)
  intro d hd
  cases List.mem_singleton.mp hd
  refine ⟨fun c hc => ?_, .inr rfl⟩
  cases List.mem_singleton.mp hc
  exact .inr rfl

/-- One byte declared as two: the completion is accepted, and every restore of it fails. -/
theorem completed_wrong_size :
    ¬ ∀ (e : Engine) (t t' : Target) (runID : String) (ds disks : List DiskManifest)
      (es : List Target.machine.Event), t.Sound → Decodes e t →
      Steps Target.machine (complete Engine.hasChunk runID ds) t es (.ret (.ok disks)) t' →
      ∀ d ∈ disks, Restores e t' d := by
  intro hclaim
  have hrestores : Restores rawEngine byteTarget ⟨"files.tar", 0 + 2, [⟨byteSha, 2⟩]⟩ :=
    hclaim rawEngine byteTarget byteTarget "run" (byteDisks 2) _ _ byteTarget_sound
      byteTarget_decodes (byteDisks_accepted 2) _ (List.mem_singleton.mpr rfl)
  have hfails : (run restoreAlone (restoreDisk rawEngine
      ⟨"files.tar", 0 + 2, [⟨byteSha, 2⟩]⟩) (byteTarget, [])).1 =
        .error (.chunkLength "files.tar" byteSha 1 2) := rfl
  rw [Restores, hfails] at hrestores
  cases hrestores

end ProxBack.Agent
