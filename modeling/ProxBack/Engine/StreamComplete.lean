import ProxBack.Engine.PipelineSafe

/-! When `BackupStream` returns a manifest, the manifest is complete, provided no
worker gave up the last unit of the stream because the context had ended. -/
namespace ProxBack.Engine
open Lib Prog

theorem sumChunks_ok {name : String} {chunks : List Chunk} {i : Nat} {size total : Int}
    (h : sumChunks name chunks i size = .ok total) :
    (∀ c ∈ chunks, c.sha256 ≠ "") ∧ total = size + (chunks.map Chunk.size).sum := by
  induction chunks generalizing i size with
  | nil =>
    cases h
    simp
  | cons c rest ih =>
    unfold sumChunks at h
    split at h
    · cases h
    · rename_i hsha
      obtain ⟨hall, htotal⟩ := ih h
      constructor
      · intro d hd
        rcases List.mem_cons.mp hd with rfl | hd
        · exact hsha
        · exact hall d hd
      · rw [htotal, List.map_cons, List.sum_cons]
        omega

@[grind =]
theorem sumChunks_eq {name : String} {chunks : List Chunk} (h : ∀ c ∈ chunks, c.sha256 ≠ "")
    (i : Nat) (size : Int) : sumChunks name chunks i size = .ok (size + (chunks.map Chunk.size).sum) := by
  induction chunks generalizing i size with
  | nil => exact congrArg _ (Int.add_zero size).symm
  | cons c rest ih =>
    rw [sumChunks, if_neg (h c List.mem_cons_self),
      ih (fun d hd => h d (List.mem_cons_of_mem c hd)), List.map_cons, List.sum_cons,
      Int.add_assoc]

@[grind =]
theorem streamResult_eq {name : String} {chunks : List Chunk} (h : ∀ c ∈ chunks, c.sha256 ≠ "") :
    streamResult name none none chunks = .ok ⟨name, (chunks.map Chunk.size).sum, chunks⟩ := by
  rw [streamResult, sumChunks_eq h, Int.zero_add]

theorem streamResult_ok {name : String} {firstErr readErr : Option Err} {chunks : List Chunk}
    {dm : DiskManifest} (h : streamResult name firstErr readErr chunks = .ok dm) :
    firstErr = none ∧ readErr = none ∧ dm.name = name ∧ dm.chunks = chunks ∧
      (∀ c ∈ chunks, c.sha256 ≠ "") ∧ dm.sizeBytes = (chunks.map Chunk.size).sum := by
  unfold streamResult at h
  split at h
  · cases h
  · cases h
  · split at h
    · cases h
    · rename_i size hsum
      cases h
      obtain ⟨hall, hsize⟩ := sumChunks_ok hsum
      rw [Int.zero_add] at hsize
      exact ⟨rfl, rfl, rfl, rfl, hall, hsize⟩

def IsLast (name : String) (script : List ReadReply) (k : Nat) : Prop :=
  k + 1 = (unitsOf name script).1.length

namespace Pipeline

variable {w : Nat} {stale : Sha → Prop} {e : Engine} {name : String} {script : List ReadReply}
  {owner : Nat → Sha} {acct : Fin w → Acct} {s : Pipeline w} {K : Nat → Prop}

/-- Once every worker is gone and nothing failed, a unit that may not be skipped
has its entry. -/
theorem Sane.placed (h : s.Sane stale K e name script owner acct)
    (hfirst : s.firstErr = none) (hall : ∀ i, s.workers i = .exited) {k : Nat} (hk : K k)
    (hlt : k < s.seq) :
    ∃ d, (unitsOf name script).1[k]? = some d ∧ s.chunks[k]? = some (chunkOf e d) := by
  rcases h.tracked k hk hlt with hf | ⟨i, hi⟩ | hplaced
  · exact absurd hfirst hf
  · rw [hall i] at hi
    cases hi
  · exact hplaced

theorem Sane.complete (h : s.Sane stale K e name script owner acct)
    (hlast : ∀ k, IsLast name script k → K k) {dm : DiskManifest}
    (hres : s.result = some (.ok dm)) :
    (unitsOf name script).2 = none ∧ dm.name = name ∧
      dm.chunks = (unitsOf name script).1.map (chunkOf e) ∧
      (∀ d ∈ (unitsOf name script).1, s.shared.target.Stored stale (e.hash d)) ∧
      dm.sizeBytes = (unitsOf name script).1.flatten.length := by
  obtain ⟨err, hr, heq, hall⟩ := h.result _ hres
  obtain ⟨hfirst, rfl, hname, hchunks, hne, hsize⟩ := streamResult_ok heq.symm
  obtain ⟨hseq, hend⟩ := h.reading.finished hr nofun
  have hlen : s.chunks.length = (unitsOf name script).1.length := by
    have hle := h.length_le
    rw [hseq] at hle
    apply Nat.le_antisymm hle
    by_cases hzero : (unitsOf name script).1.length = 0
    · omega
    · obtain ⟨k, hk⟩ := Nat.exists_eq_succ_of_ne_zero hzero
      have hlast' : IsLast name script k := hk.symm
      obtain ⟨d, -, hc⟩ := h.placed hfirst hall (hlast k hlast') (by rw [hseq, hk]; omega)
      have hlt := (List.getElem?_eq_some_iff.mp hc).1
      omega
  have hentry : ∀ (k : Nat) (c : Chunk), s.chunks[k]? = some c →
      ∃ d, (unitsOf name script).1[k]? = some d ∧ c = chunkOf e d ∧
        s.shared.target.Stored stale (e.hash d) := by
    intro k c hc
    rcases h.entry k c hc with rfl | hentry
    · exact absurd rfl (hne _ (List.mem_of_getElem? hc))
    · exact hentry
  have hmap : s.chunks = (unitsOf name script).1.map (chunkOf e) := by
    apply List.ext_getElem?
    intro k
    rw [List.getElem?_map]
    cases hc : s.chunks[k]? with
    | none =>
      have hge := List.getElem?_eq_none_iff.mp hc
      rw [List.getElem?_eq_none_iff.mpr (by omega)]
      rfl
    | some c =>
      obtain ⟨d, hd, hcd, -⟩ := hentry k c hc
      rw [hd, hcd]
      rfl
  refine ⟨hend, hname, hchunks.trans hmap, ?_, ?_⟩
  · intro d hd
    obtain ⟨k, hk⟩ := List.getElem?_of_mem hd
    have hc : s.chunks[k]? = some (chunkOf e d) := by
      rw [hmap, List.getElem?_map, hk]
      rfl
    obtain ⟨d', hd', -, hstored⟩ := hentry k _ hc
    rw [hk] at hd'
    cases hd'
    exact hstored
  · rw [hsize, hmap, sum_sizes]

end Pipeline

/-- In every run that does not skip the last unit, on a target where the rows of
the stream's chunks had their objects, a nil error means a complete manifest
whose chunks are all there. -/
theorem backupStream_complete {w : Nat} {e : Engine} {name : String} {script : List ReadReply}
    {caller : Option Fault} {t : Target} {st : Stats} {acts : List (PipelineAction w)}
    {s : Pipeline w} {dm : DiskManifest}
    (ht : ∀ d ∈ (unitsOf name script).1, t.Indexed (e.hash d) → t.Present (e.hash d))
    (hrun : (backupStream e w name).Run (fun s a => ¬ s.Skips (IsLast name script) a)
      (.initial caller script t st) acts s)
    (hres : s.result = some (.ok dm)) :
    (unitsOf name script).2 = none ∧
      dm.chunks = (unitsOf name script).1.map (fun d => ⟨e.hash d, d.length⟩) ∧
      (∀ d ∈ (unitsOf name script).1, s.shared.target.Present (e.hash d)) ∧
      dm.sizeBytes = (unitsOf name script).1.flatten.length := by
  obtain ⟨owner, acct, hsane⟩ := Pipeline.sane_run t.soundBut_self hrun
  obtain ⟨hend, -, hchunks, hstored, hsize⟩ := hsane.complete (fun _ => id) hres
  refine ⟨hend, hchunks, ?_, ?_⟩
  · intro d hd
    rcases (hstored d hd).2 with hpresent | ⟨hidx, hmiss⟩
    · exact hpresent
    · exact absurd (ht d hd hidx) hmiss
  · exact hsize

theorem Pipeline.not_skips {w : Nat} {s : Pipeline w} {K : Nat → Prop} {a : PipelineAction w}
    (h : s.ctx = none) : ¬ s.Skips K a := by
  rintro ⟨_, _, _, _, _, hctx, _⟩
  exact hctx h

def byteSha : Sha := "ca358758f6d27e6cf45272937977a748fd88391db679ceda7dc7bf1f005ee879"

def byteEngine : Engine :=
  newWithOptions (fun _ => byteSha) ⟨none, none⟩ ⟨1, "off", 0⟩

def byteScript : List ReadReply := [⟨[7], some .eof⟩]

def byteStart : Pipeline 1 := .initial none byteScript ⟨∅, ∅, ∅⟩ .zero

theorem byteScript_units : unitsOf "scsi0" byteScript = ([[7]], none) := by
  have hread : readFull byteScript chunkSize = ([7], some .unexpectedEOF, []) := rfl
  rw [unitsOf_eq_of_err hread]
  rfl

def byteActs : List (PipelineAction 1) :=
  List.replicate 4 .read ++ [.handOff 0] ++ List.replicate 13 (.worker 0 (.go .fine)) ++
    [.read, .close, .worker 0 (.go .fine), .finish]

def byteCancel : List (PipelineAction 1) :=
  List.replicate 4 .read ++ [.handOff 0, .callerEnds .canceled] ++
    List.replicate 2 (.worker 0 (.go .fine)) ++ [.read, .close, .worker 0 (.go .fine), .finish]

/-- A stream of a full unit and one byte more. -/
def fullUnit : Bytes := List.replicate chunkSize 0

def twoScript : List ReadReply := ⟨fullUnit, none⟩ :: byteScript

def twoStart : Pipeline 2 := .initial none twoScript ⟨∅, ∅, ∅⟩ .zero

@[simp] theorem fullUnit_length : fullUnit.length = chunkSize := List.length_replicate ..

theorem fullUnit_ne : fullUnit ≠ [] :=
  List.ne_nil_of_length_pos (by rw [fullUnit_length]; exact chunkSize_pos)

theorem twoScript_read : readFull twoScript chunkSize = (fullUnit, none, byteScript) := by
  have hpos := chunkSize_pos
  have hlen := fullUnit_length
  have hloop : readLoop twoScript chunkSize = (fullUnit, none, byteScript) := by
    unfold twoScript readLoop
    rw [if_neg (by omega), if_neg (by dsimp only; omega), if_pos hlen]
  unfold readFull
  rw [hloop]
  rfl

theorem twoScript_units : unitsOf "scsi0" twoScript = ([fullUnit, [7]], none) := by
  rw [unitsOf_eq_of_ok twoScript_read, byteScript_units]

/-- The first unit is on its way. -/
def twoSent : Pipeline 2 :=
  { twoStart with
    script := byteScript
    mem := Function.update twoStart.mem 0 (fullUnit ++ (twoStart.mem 0).drop chunkSize)
    reader := .sending ⟨0, 0, chunkSize⟩ none
    allocated := 1 }

def twoReads : List (PipelineAction 2) := List.replicate 3 .read ++ [.read]

theorem two_sent (e : Engine) : (backupStream e 2 "scsi0").follow twoReads twoStart = some twoSent := by
  have hfilling : (backupStream e 2 "scsi0").follow (List.replicate 3 .read) twoStart =
      some { twoStart with reader := .filling 0, allocated := 1 } := rfl
  have hfilled := Pipeline.readStep_fill (s := { twoStart with reader := .filling 0, allocated := 1 })
    "scsi0" rfl twoScript_read fullUnit_ne
  have hread : ∀ s : Pipeline 2, (backupStream e 2 "scsi0").step .read s = s.readStep "scsi0" := fun _ => rfl
  have happend := System.follow_append (M := backupStream e 2 "scsi0") (List.replicate 3 .read)
    [.read] twoStart
  rw [fullUnit_length] at hfilled
  rw [hfilling, Option.bind_some, System.follow_singleton, hread, hfilled] at happend
  exact happend

def zeroSha : Sha := "bb9f8df61474d25e71fa00722318cd387396ca1736605e1248821cc0de3d3af8"

/-- An engine that tells the two units apart. -/
def twoEngine : Engine :=
  newWithOptions (fun d => if d.head? = some 7 then byteSha else zeroSha) ⟨none, none⟩ ⟨2, "off", 0⟩

def firstOfTwo : Fin 2 := ⟨0, Nat.two_pos⟩

def secondOfTwo : Fin 2 := ⟨1, Nat.one_lt_two⟩

/-- Both workers store a unit, one step of the first after one of the second. -/
def twoActs : List (PipelineAction 2) :=
  .handOff firstOfTwo :: List.replicate 5 .read ++ [.handOff secondOfTwo] ++
    (List.replicate 13
      [.worker secondOfTwo (.go .fine), .worker firstOfTwo (.go .fine)]).flatten ++
    [.read, .close, .worker firstOfTwo (.go .fine), .worker secondOfTwo (.go .fine), .finish]

theorem two_stored : ∃ s dm, (backupStream twoEngine 2 "scsi0").follow twoActs twoSent = some s ∧
    s.result = some (.ok dm) ∧
    ((backupStream twoEngine 2 "scsi0").trail twoActs twoSent).all (·.1.ctx.isNone) = true :=
  ⟨_, _, rfl, rfl, rfl⟩

theorem twoEngine_hash : twoEngine.hash fullUnit = zeroSha ∧ twoEngine.hash [7] = byteSha := by
  refine ⟨?_, rfl⟩
  have hhead : fullUnit.head? = some 0 := by
    rw [fullUnit, List.head?_replicate, if_neg chunkSize_pos.ne']
  change (if fullUnit.head? = some 7 then byteSha else zeroSha) = zeroSha
  rw [hhead]
  rfl

theorem backupStream_complete_two : ∃ (s : Pipeline 2) (dm : DiskManifest),
    s.result = some (.ok dm) ∧ dm.chunks = [⟨zeroSha, chunkSize⟩, ⟨byteSha, 1⟩] ∧
      s.shared.target.Present zeroSha ∧ s.shared.target.Present byteSha := by
  obtain ⟨s, dm, hfollow, hres, htrail⟩ := two_stored
  have hctx : ∀ (s : Pipeline 2) (a : PipelineAction 2), s.ctx.isNone = true →
      ¬ s.Skips (IsLast "scsi0" twoScript) a :=
    fun s a h => Pipeline.not_skips (Option.isNone_iff_eq_none.mp h)
  have hrun : (backupStream twoEngine 2 "scsi0").Run
      (fun s a => ¬ s.Skips (IsLast "scsi0" twoScript) a) twoStart
      (twoReads ++ twoActs) s := by
    refine (System.run_of_follow (fun a ha s => ?_) (two_sent twoEngine)).trans
      (System.run_of_trail hctx hfollow htrail)
    have hread : a = .read := by simpa [twoReads] using ha
    subst hread
    rintro ⟨_, _, _, heq, -⟩
    cases heq
  have hindex : ∀ d ∈ (unitsOf "scsi0" twoScript).1, Target.Indexed ⟨∅, ∅, ∅⟩ (twoEngine.hash d) →
      Target.Present ⟨∅, ∅, ∅⟩ (twoEngine.hash d) := fun d _ h => nomatch h
  obtain ⟨-, hchunks, hpresent, -⟩ := backupStream_complete hindex hrun hres
  rw [twoScript_units] at hchunks hpresent
  obtain ⟨hfull, hbyte⟩ := twoEngine_hash
  refine ⟨s, dm, hres, ?_, ?_, ?_⟩
  · rw [hchunks, List.map_cons, List.map_cons, hfull, hbyte, fullUnit_length]
    rfl
  · rw [← hfull]
    exact hpresent fullUnit List.mem_cons_self
  · rw [← hbyte]
    exact hpresent [7] (List.mem_cons_of_mem _ List.mem_cons_self)

theorem byte_canceled : ∃ s, (backupStream byteEngine 1 "scsi0").follow byteCancel byteStart =
    some s ∧ s.result = some (.ok ⟨"scsi0", 0, []⟩) := ⟨_, rfl, rfl⟩

/-- The worker that took the only unit finds the context ended and drops it, the
reader has seen the end of the stream, and the call succeeds with no chunk. -/
theorem backupStream_incomplete :
    ¬ ∀ (w : Nat) (e : Engine) (name : String) (script : List ReadReply) (caller : Option Fault)
      (t : Target) (st : Stats) (acts : List (PipelineAction w)) (s : Pipeline w)
      (dm : DiskManifest), t.Sound →
      (backupStream e w name).Run (fun _ _ => True) (.initial caller script t st) acts s →
      s.result = some (.ok dm) →
      dm.chunks = (unitsOf name script).1.map (fun d => ⟨e.hash d, d.length⟩) := by
  intro hall
  obtain ⟨s, hfollow, hres⟩ := byte_canceled
  have hchunks := hall 1 byteEngine "scsi0" byteScript none ⟨∅, ∅, ∅⟩ .zero byteCancel s _
    (fun _ h => nomatch h) (System.run_of_follow (fun _ _ _ => trivial) hfollow) hres
  rw [byteScript_units] at hchunks
  cases hchunks

end ProxBack.Engine
