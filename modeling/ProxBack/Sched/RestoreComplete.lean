import ProxBack.Agent.Unpack
import ProxBack.Engine.StreamComplete
import ProxBack.Sched.Restore

/-! A restore that reports success has brought all of its data to where it was to go: the
disks of a machine to their importer, the files of an agent to its disk. -/
namespace ProxBack.Sched.Restore
open Lib Prog Engine

/-- In every interleaving, a restore of a machine that returns nil has had every disk of
the manifest read in full by an importer that answered with success, the error of a
bad chunk is the one it returns, and so is the importer's where the goroutine met none
before the pipe was closed. An agent reports completion only when every entry of the
tar stream is unpacked, but for the entries it passes over. -/
theorem restore_complete (e : Engine) :
    (∀ (man : Manifest) (spec : Option VMRestoreTarget) (plan : RestorePlan) (log : List Event)
        (res : Option Err), Logs (restoreVM man spec plan) log (.ret res) → Behaves e log →
      (res = none → ∀ disk ∈ man.disks, Imported e log disk) ∧
        (∀ (via : Via) (disk : DiskManifest) (r : Transferred) (err : Engine.Err),
          ⟨.transfer via disk, r⟩ ∈ log → BadChunk err →
          r.restoreErr = some (.restore disk.name err) →
          res = some (.engine (.restore disk.name err))) ∧
        ∀ (via : Via) (disk : DiskManifest) (r : Transferred) (ierr : ImportErr),
          ⟨.transfer via disk, r⟩ ∈ log →
          (∀ err, r.restoreErr = some err → isClosedPipe err = true) →
          r.answer.err = some ierr → res = some (via.wrap man.sourceName ierr)) ∧
      ∀ (fmt : Agent.Tar.Format) (paths : Agent.Tar.Paths) (runID destPath : String)
        (disks : List DiskManifest) (full : Bytes) (log : List Agent.Tar.Event)
        (q : Agent.Tar.UnpackM (Option Agent.Tar.UnpackErr)) (r : Except Fault Nat),
        Logs (Agent.Tar.runRestore fmt paths runID destPath) log q →
        (∀ body, ⟨.restoreStream runID, .ok (200, body)⟩ ∈ log →
          Agent.Tar.Served e disks full body) →
        ⟨.complete runID, r⟩ ∈ log →
        ∃ absDest, ⟨.abs destPath, .ok absDest⟩ ∈ log ∧
          ∀ it ∈ (Agent.Tar.items fmt [] ⟨full, none⟩).1,
            Agent.Tar.Ignored paths it ∨ Agent.Tar.Extracted paths absDest log it := by
  constructor
  · intro man spec plan log res hlog hb
    have htells := restoreVM_logs hlog
    refine ⟨fun hres disk hd => (htells.done hres disk hd).imported hb, ?_, ?_⟩
    · intro via disk r err hmem hbad hr
      exact htells.failed _ ⟨via, disk, r, hmem, transferErr_engine hr (hbad.not_closedPipe disk.name)⟩
    · intro via disk r ierr hmem hpipe hierr
      exact htells.failed _ ⟨via, disk, r, hmem, transferErr_import hpipe hierr⟩
  · intro fmt paths runID destPath disks full log q r hlog hserved hdone
    exact Agent.Tar.completed_unpacked hlog hserved hdone

def halfTarget : Target := Target.putObject ⟨∅, ∅, ∅⟩ byteSha [7] 0

def lostSha : Sha := "beead77994cf573341ec17b58bbf7eb34d2711c993c1d976b128b3188dc1829a"

def wholeDisk : DiskManifest := ⟨"scsi0", 1, [⟨byteSha, 1⟩]⟩

def halfDisk : DiskManifest := ⟨"scsi0", 2, [⟨byteSha, 1⟩, ⟨lostSha, 1⟩]⟩

def answerFrom (t : Target) : (c : RestoreCall) → RestoreReply c
  | .engine c => (Target.exec c .fine t).1
  | .ctxErr => none
  | .write _ => .ok ()

def manifestOf (disk : DiskManifest) : Manifest where
  backupID := "b1"
  jobID := "j1"
  jobName := "nightly"
  runID := "r1"
  sourceKind := .vm
  sourceID := "h1_100"
  sourceName := "web"
  targetID := "t1"
  createdAt := 1
  kind := .full
  parentID := ""
  sizeBytes := disk.sizeBytes
  uploadedBytes := disk.sizeBytes.toNat
  chunkSize := Engine.chunkSize
  disks := [disk]

def wholeActs : List TransferAction :=
  let go := .restore (answerFrom halfTarget)
  [go, go, go, .read 4096, go, go, .answer (.status 200), .close, .receive]

def hastyActs : List TransferAction :=
  let go := .restore (answerFrom halfTarget)
  [go, go, go, .answer (.status 500), .close, .broken, go, go, .receive]

theorem whole_transferred : ∃ s, transfer.follow wholeActs (.initial byteEngine wholeDisk .zero) =
    some s ∧ s.caller = .returned (.status 200) none ∧ s.consumed = [7] :=
  ⟨_, rfl, rfl, rfl⟩

theorem hasty_transferred : ∃ s, transfer.follow hastyActs (.initial byteEngine halfDisk .zero) =
    some s ∧ s.caller = .returned (.status 500)
      (some (.restoreWrite "scsi0" (.fault closedPipe))) ∧ s.consumed = [] :=
  ⟨_, rfl, rfl, rfl⟩

def oneDiskLog (disk : DiskManifest) (r : Transferred) : List Event :=
  [⟨.pveHostByID "h1", .ok ⟨"h1"⟩⟩, ⟨.pveClient ⟨"h1"⟩, .ok ()⟩, ⟨.ctxErr, none⟩,
    ⟨.transfer (.host "pve1" 100) disk, r⟩]

theorem oneDiskLog_behaves {e : Engine} {disk : DiskManifest} {r : Transferred}
    (h : Transfers e disk r) : Behaves e (oneDiskLog disk r) := by
  intro via disk' r' hmem
  simp only [oneDiskLog, List.mem_cons, List.not_mem_nil, or_false] at hmem
  rcases hmem with hmem | hmem | hmem | hmem
  · cases hmem
  · cases hmem
  · cases hmem
  · cases hmem
    exact h

def dirSha : Sha := "a8109ac5e2301481ea23393f72b717f8d2405ef7244e757d65a4421f9755ca7e"

def linkSha : Sha := "c67456481266a664d1bddc19f0d41f914dc1e8105747c8a2f6dcc6082393e869"

def dirTar : Bytes :=
  Agent.Tar.headerBlock "d" "0000755" "006111" 53 "" ++ List.replicate 1024 0

def linkTar : Bytes :=
  Agent.Tar.headerBlock "link" "0000777" "007464" 50 "file" ++ List.replicate 1024 0

def dirItem : Agent.Tar.Item := ⟨⟨"d", .dir, 0o755, 0, 62135596800 * 10 ^ 9⟩, [], none⟩

def linkItem : Agent.Tar.Item := ⟨⟨"link", .other '2', 0o777, 0, 62135596800 * 10 ^ 9⟩, [], none⟩

theorem tar_blocks :
    Agent.Tar.next Agent.Tar.ustar [] ⟨dirTar, none⟩ = .entry dirItem ⟨List.replicate 1024 0, none⟩ ∧
    Agent.Tar.next Agent.Tar.ustar [] ⟨linkTar, none⟩ = .entry linkItem ⟨List.replicate 1024 0, none⟩ ∧
    Agent.Tar.next Agent.Tar.ustar [] ⟨List.replicate 1024 0, none⟩ = .ended .eof ∧
    chunkMagic.isPrefixOf dirTar = false ∧ chunkMagic.isPrefixOf linkTar = false ∧
    ∀ name ∈ ["d", "link"], Agent.Tar.unixPaths.clean name = name ∧
      Agent.Tar.unixPaths.join "/restore" name = "/restore/" ++ name ∧
      ¬ (Agent.Tar.unixPaths.isAbs name ∨ name = ".." ∨
        Agent.Tar.hasPrefix name (".." ++ Agent.Tar.unixPaths.separator)) ∧
      Agent.Tar.hasPrefix ("/restore/" ++ name) ("/restore" ++ Agent.Tar.unixPaths.separator) = true := by
  decide +kernel

theorem items_dirTar : Agent.Tar.items Agent.Tar.ustar [] ⟨dirTar, none⟩ = ([dirItem], .eof) := by
  obtain ⟨hentry, -, hend, -⟩ := tar_blocks
  rw [Agent.Tar.items_entry hentry, Agent.Tar.items_ended hend]

theorem items_linkTar :
    Agent.Tar.items Agent.Tar.ustar [] ⟨linkTar, none⟩ = ([linkItem], .eof) := by
  obtain ⟨-, hentry, hend, -⟩ := tar_blocks
  rw [Agent.Tar.items_entry hentry, Agent.Tar.items_ended hend]

def tarEngine (sha : Sha) : Engine := newWithOptions (fun _ => sha) ⟨none, none⟩ ⟨1, "off", 0⟩

def tarDisk (sha : Sha) : DiskManifest := ⟨"files.tar", 0, [⟨sha, 0⟩]⟩

theorem tar_served (sha : Sha) {tar : Bytes} (h : chunkMagic.isPrefixOf tar = false) :
    Agent.Tar.Served (tarEngine sha) [tarDisk sha] tar ⟨tar, none⟩ := by
  have hdecode : decodeChunk ⟨none, none⟩ tar = tar := by simp [decodeChunk, h]
  have hread : Logs (liftRestore ((tarEngine sha).readChunk ⟨sha, 0⟩))
      [⟨.engine (.getBytes sha), .ok tar⟩] (.ret (.ok tar)) := by
    refine .cons _ ?_
    simp only [tarEngine, newWithOptions, hdecode, ne_eq, not_true_eq_false, false_and, if_false]
    exact .nil
  let log : List (Σ c, RestoreReply c) :=
    ⟨.ctxErr, none⟩ :: ([⟨.engine (.getBytes sha), .ok tar⟩] ++ [⟨.write tar, .ok ()⟩])
  have hchunks : Logs ((tarEngine sha).restoreChunks "files.tar" [⟨sha, 0⟩] 0 .zero) log
      (.ret (.ok (0 + tar.length), Stats.zero.record tar.length 0)) := by
    refine .cons _ ?_
    refine (hread.bind _).trans ?_
    exact .cons _ .nil
  have hdisk : Logs ((tarEngine sha).restoreDisk (tarDisk sha) .zero) log
      (.ret (.ok (), Stats.zero.record tar.length 0)) := hchunks.bind _
  have hstream : Logs (Agent.Tar.restoreStream (tarEngine sha) [tarDisk sha] .zero) log
      (.ret (none, Stats.zero.record tar.length 0)) := hdisk.bind _
  exact .inl ⟨_, _, _, hstream, by simp [log, wrote], rfl⟩

def agentLog (tar : Bytes) (unpacked : List Agent.Tar.Event) : List Agent.Tar.Event :=
  [⟨.restoreStream "run1", .ok (200, ⟨tar, none⟩)⟩, ⟨.mkdirAll "/restore" 0o755, .ok ()⟩,
    ⟨.abs "/restore", .ok "/restore"⟩] ++ unpacked ++ [⟨.complete "run1", .ok 200⟩]

theorem agentLog_served {sha : Sha} {tar : Bytes} {unpacked : List Agent.Tar.Event}
    (h : chunkMagic.isPrefixOf tar = false)
    (hquiet : ∀ ev ∈ unpacked, ev.1.Unpacks) (body : Agent.Tar.Body)
    (hbody : ⟨.restoreStream "run1", .ok (200, body)⟩ ∈ agentLog tar unpacked) :
    Agent.Tar.Served (tarEngine sha) [tarDisk sha] tar body := by
  simp only [agentLog, List.mem_append, List.mem_cons, List.not_mem_nil, or_false] at hbody
  rcases hbody with ((hbody | hbody | hbody) | hbody) | hbody
  · cases hbody
    exact tar_served sha h
  · cases hbody
  · cases hbody
  · exact absurd (hquiet _ hbody) id
  · cases hbody

theorem run_of_acts {acts : List TransferAction} {s t : Transfer}
    (h : transfer.follow acts s = some t) : transfer.Run (fun _ _ => True) s acts t :=
  System.run_of_follow (fun _ _ _ => trivial) h

def restoredWhole : Transferred := ⟨.status 200, none, [7]⟩

def refusedHalf : Transferred :=
  ⟨.status 500, some (.restoreWrite "scsi0" (.fault closedPipe)), []⟩

theorem whole_transfers : Transfers byteEngine wholeDisk restoredWhole := by
  obtain ⟨s, hfollow, hcaller, hconsumed⟩ := whole_transferred
  exact ⟨_, _, s, run_of_acts hfollow, hcaller, hconsumed⟩

theorem half_transfers : Transfers byteEngine halfDisk refusedHalf := by
  obtain ⟨s, hfollow, hcaller, hconsumed⟩ := hasty_transferred
  exact ⟨_, _, s, run_of_acts hfollow, hcaller, hconsumed⟩

def toHost : Option VMRestoreTarget := some ⟨"h1", 0⟩

def toNode : RestorePlan := ⟨"", "pve1", 100⟩

theorem dir_extracted : Logs (Agent.Tar.extractEntry Agent.Tar.unixPaths "/restore" dirItem)
    [⟨.mkdirAll "/restore/d" 0o755, .ok ()⟩] (.ret none) := by
  obtain ⟨-, -, -, -, -, hpaths⟩ := tar_blocks
  obtain ⟨hclean, hjoin, habs, hbelow⟩ := hpaths "d" List.mem_cons_self
  have hname : dirItem.header.name = "d" := rfl
  have hdot : ¬ "d" = "." := by decide
  rw [Agent.Tar.extractEntry, hname]
  simp only [hclean, hjoin, hdot, habs, hbelow, not_true_eq_false, if_false]
  exact .cons _ .nil

theorem link_ignored : Logs (Agent.Tar.extractEntry Agent.Tar.unixPaths "/restore" linkItem) []
    (.ret none) := by
  obtain ⟨-, -, -, -, -, hpaths⟩ := tar_blocks
  obtain ⟨hclean, hjoin, habs, hbelow⟩ := hpaths "link" (List.mem_cons_of_mem _ List.mem_cons_self)
  have hname : linkItem.header.name = "link" := rfl
  have hdot : ¬ "link" = "." := by decide
  rw [Agent.Tar.extractEntry, hname]
  simp only [hclean, hjoin, hdot, habs, hbelow, not_true_eq_false, if_false]
  exact .nil

theorem agentLog_logs {tar : Bytes} {it : Agent.Tar.Item} {unpacked : List Agent.Tar.Event}
    (hitems : Agent.Tar.items Agent.Tar.ustar [] ⟨tar, none⟩ = ([it], .eof))
    (h : Logs (Agent.Tar.extractEntry Agent.Tar.unixPaths "/restore" it) unpacked (.ret none)) :
    Logs (Agent.Tar.runRestore Agent.Tar.ustar Agent.Tar.unixPaths "run1" "/restore")
      (agentLog tar unpacked) (.ret none) := by
  have hloop : Logs (Agent.Tar.extractLoop Agent.Tar.unixPaths "/restore" [it] .eof) unpacked
      (.ret none) := h.bind _
  have htar : Logs (Agent.Tar.extractTar Agent.Tar.ustar Agent.Tar.unixPaths ⟨tar, none⟩ "/restore")
      ([⟨.mkdirAll "/restore" 0o755, .ok ()⟩, ⟨.abs "/restore", .ok "/restore"⟩] ++ unpacked)
      (.ret none) := by
    rw [Agent.Tar.extractTar, hitems]
    exact .cons _ (.cons _ hloop)
  have hdest : ¬ "/restore" = "" := by decide
  rw [Agent.Tar.runRestore, if_neg hdest]
  refine .cons _ ?_
  refine (htar.bind _).trans ?_
  exact .cons _ .nil

/-- A machine of one disk, and an agent that unpacks a directory. -/
theorem restore_complete_whole :
    Imported byteEngine (oneDiskLog wholeDisk restoredWhole) wholeDisk ∧
      ∃ absDest, Agent.Tar.Extracted Agent.Tar.unixPaths absDest
        (agentLog dirTar [⟨.mkdirAll "/restore/d" 0o755, .ok ()⟩]) dirItem := by
  have hlog : Logs (restoreVM (manifestOf wholeDisk) toHost toNode)
      (oneDiskLog wholeDisk restoredWhole) (.ret none) :=
    .cons _ (.cons _ (.cons _ (.cons _ .nil)))
  have hvm := (restore_complete byteEngine).1 _ _ _ _ _ hlog (oneDiskLog_behaves whole_transfers)
  obtain ⟨-, -, -, hmagic, -, hpaths⟩ := tar_blocks
  obtain ⟨absDest, -, hall⟩ := (restore_complete (tarEngine dirSha)).2 Agent.Tar.ustar
    Agent.Tar.unixPaths "run1" "/restore" [tarDisk dirSha] dirTar _ _ (.ok 200)
    (agentLog_logs items_dirTar dir_extracted) (agentLog_served hmagic (by simp [Agent.Tar.Call.Unpacks]))
    (List.mem_append_right _ (.head _))
  refine ⟨hvm.1 rfl wholeDisk (.head _), absDest, ?_⟩
  rw [items_dirTar] at hall
  refine (hall dirItem (.head _)).resolve_left ?_
  rintro (hdot | ⟨flag, hflag⟩)
  · have hclean : Agent.Tar.unixPaths.clean "d" = "d" := (hpaths "d" List.mem_cons_self).1
    exact absurd (hclean.symm.trans hdot) (by decide)
  · cases hflag

/-- A disk of which a chunk is missing, and whose restore reports the importer's failure;
and a symbolic link that a completed restore did not unpack. -/
theorem importer_first_and_link_lost :
    (lostSha ∈ halfDisk.chunks.map Chunk.sha256 ∧ halfTarget.chunks.lookup lostSha = none ∧
      (∃ s, transfer.follow hastyActs (.initial byteEngine halfDisk .zero) = some s ∧
        s.caller = .returned refusedHalf.answer refusedHalf.restoreErr ∧
        s.consumed = refusedHalf.consumed) ∧
      Behaves byteEngine (oneDiskLog halfDisk refusedHalf) ∧
      Logs (restoreVM (manifestOf halfDisk) toHost toNode) (oneDiskLog halfDisk refusedHalf)
        (.ret (some (.importDisk (.api 500))))) ∧
    Logs (Agent.Tar.runRestore Agent.Tar.ustar Agent.Tar.unixPaths "run1" "/restore")
      (agentLog linkTar []) (.ret none) ∧
    (∀ body, ⟨.restoreStream "run1", .ok (200, body)⟩ ∈ agentLog linkTar [] →
      Agent.Tar.Served (tarEngine linkSha) [tarDisk linkSha] linkTar body) ∧
    linkItem ∈ (Agent.Tar.items Agent.Tar.ustar [] ⟨linkTar, none⟩).1 ∧
    ∀ absDest, ¬ Agent.Tar.Extracted Agent.Tar.unixPaths absDest (agentLog linkTar []) linkItem := by
  obtain ⟨-, -, -, -, hmagic, -⟩ := tar_blocks
  refine ⟨⟨by decide, rfl, hasty_transferred, oneDiskLog_behaves half_transfers, ?_⟩,
    agentLog_logs items_linkTar link_ignored, agentLog_served hmagic nofun, ?_, fun _ => id⟩
  · exact .cons _ (.cons _ (.cons _ (.cons _ .nil)))
  · rw [items_linkTar]
    exact .head _

end ProxBack.Sched.Restore
