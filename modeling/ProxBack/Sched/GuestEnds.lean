import ProxBack.Sched.Guest

/-! Which unclean ends of a guest's streams keep it from becoming a restore point. The
helper's stream is read through an `errTrackingReader`, the disks' are not. -/
namespace ProxBack.Sched.Guest
open Lib Prog Engine Store

abbrev Event := Σ c : Call, Reply c

/-- Every `BackupStream` in the log came out as one of its runs does. -/
def Behaves (e : Engine) (w : Nat) (log : List Event) : Prop :=
  ∀ name script r, ⟨.backupStream name script, r⟩ ∈ log → Streams e w name script r

/-- A stream of the guest was opened, and `script` is what its reader says. -/
inductive Opened (script : List ReadReply) : Event → Prop where
  | disk (disk : String) : Opened script ⟨.exportDisk disk, .ok script⟩
  | guest : Opened script ⟨.exportGuest, .ok script⟩

theorem Opened.opens {script : List ReadReply} {ev : Event} (h : Opened script ev) :
    ev.1.Opens := by
  cases h <;> trivial

variable {e : Engine} {w : Nat} {log : List Event}

theorem Behaves.of_subset {log' : List Event} (h : Behaves e w log)
    (hsub : ∀ ev ∈ log', ev ∈ log) : Behaves e w log' :=
  fun name script r hr => h name script r (hsub _ hr)

theorem exportLoop_stored {node : String} {disks : List String} {out ds : List DiskManifest}
    (hlog : Logs (exportLoop node disks out) log (.ret (.ok ds))) (hb : Behaves e w log)
    {script : List ReadReply} (hopen : ∃ ev ∈ log, Opened script ev) :
    ∃ name r dm, Streams e w name script r ∧ r.result = .ok dm := by
  obtain ⟨ev, hev, hopened⟩ := hopen
  induction disks generalizing out log with
  | nil =>
    obtain ⟨rfl, -⟩ := hlog.of_ret
    cases hev
  | cons disk rest ih =>
    obtain ⟨err | script', log, rfl, hlog₁⟩ := hlog.of_call
    · cases hlog₁.of_ret.2
    obtain ⟨r, log, rfl, hlog₂⟩ := hlog₁.of_call
    obtain ⟨closeErr, log, rfl, hlog₃⟩ := hlog₂.of_call
    cases hres : r.result with
    | error err =>
      rw [hres] at hlog₃
      cases hlog₃.of_ret.2
    | ok dm =>
      rw [hres] at hlog₃
      have htail := hb.of_subset fun ev h => .tail _ (.tail _ (.tail _ h))
      cases hev with
      | head =>
        cases hopened
        exact ⟨disk, r, dm, hb _ _ _ (.tail _ (.head _)), hres⟩
      | tail _ hev =>
        cases hev with
        | head => cases hopened
        | tail _ hev =>
          cases hev with
          | head => cases hopened
          | tail _ hev => exact ih hlog₃ htail hev

theorem backupViaHelper_stored {p : VmPlan} {ds : List DiskManifest}
    (hlog : Logs (backupViaHelper p) log (.ret (.ok ds))) (hb : Behaves e w log)
    {script : List ReadReply} (hopen : ∃ ev ∈ log, Opened script ev) :
    ∃ name r dm, Streams e w name script r ∧ r.result = .ok dm ∧
      errTrackingReader script r.left = none := by
  obtain ⟨ev, hev, hopened⟩ := hopen
  obtain ⟨f | script', log, rfl, hlog₁⟩ := hlog.of_call
  · cases hlog₁.of_ret.2
  obtain ⟨r, log, rfl, hlog₂⟩ := hlog₁.of_call
  obtain ⟨closeErr, log, rfl, hlog₃⟩ := hlog₂.of_call
  cases hres : r.result with
  | error err =>
    rw [hres] at hlog₃
    cases hlog₃.of_ret.2
  | ok dm =>
    rw [hres] at hlog₃
    cases htracked : errTrackingReader script' r.left with
    | some err =>
      simp only [htracked] at hlog₃
      cases hlog₃.of_ret.2
    | none =>
      have hnil : log = [] := by
        simp only [htracked] at hlog₃
        split at hlog₃ <;> exact hlog₃.of_ret.1
      subst hnil
      cases hev with
      | head =>
        cases hopened
        exact ⟨_, r, dm, hb _ _ _ (.tail _ (.head _)), hres, htracked⟩
      | tail _ hev =>
        cases hev with
        | head => cases hopened
        | tail _ hev =>
          cases hev with
          | head => cases hopened
          | tail _ hev => cases hev

theorem exportDisks_loop {p : VmPlan} {res : Except Err (List DiskManifest)}
    (hlog : Logs (exportDisks p) log (.ret res)) :
    ∃ log₁ log₂, log = log₁ ++ log₂ ∧ Logs (exportLoop p.node p.disks []) log₁ (.ret res) ∧
      ∀ ev ∈ log₂, ¬ ev.1.Opens := by
  obtain ⟨out, log₁, log₂, rfl, hloop, hrest⟩ := hlog.of_bind_ret
  obtain ⟨f | upid, log₂, rfl, hrest₁⟩ := hrest.of_call
  · obtain ⟨rfl, hout⟩ := hrest₁.of_ret
    cases hout
    exact ⟨log₁, _, rfl, hloop, by simp [Call.Opens]⟩
  · obtain ⟨waited, log₂, rfl, hrest₂⟩ := hrest₁.of_call
    obtain ⟨rfl, hout⟩ := hrest₂.of_ret
    cases hout
    exact ⟨log₁, _, rfl, hloop, by simp [Call.Opens]⟩

/-- What became a restore point was stored, and where a helper sent it, its reader saw
no unclean end. -/
theorem exported_stored {p : VmPlan} {ds : List DiskManifest}
    (hlog : Logs (exported p) log (.ret (.ok ds))) (hb : Behaves e w log)
    {script : List ReadReply} (hopen : ∃ ev ∈ log, Opened script ev) :
    ∃ name r dm, Streams e w name script r ∧ r.result = .ok dm ∧
      (p.helper = true → errTrackingReader script r.left = none) ∧
      (p.helper = false → p.disks ≠ []) := by
  cases hhelper : p.helper with
  | true =>
    rw [exported, if_pos hhelper] at hlog
    obtain ⟨name, r, dm, hstreams, hres, htracked⟩ := backupViaHelper_stored hlog hb hopen
    exact ⟨name, r, dm, hstreams, hres, fun _ => htracked, nofun⟩
  | false =>
    rw [exported, if_neg (by simp [hhelper])] at hlog
    obtain ⟨f | upid, log, rfl, hlog₁⟩ := hlog.of_call
    · cases hlog₁.of_ret.2
    obtain ⟨f | ⟨⟩, log, rfl, hlog₂⟩ := hlog₁.of_call
    · cases hlog₂.of_ret.2
    obtain ⟨log₁, log₂, rfl, hloop, hquiet⟩ := exportDisks_loop hlog₂
    obtain ⟨ev, hev, hopened⟩ := hopen
    have hmem : ev ∈ log₁ := by
      cases hev with
      | head => cases hopened
      | tail _ hev =>
        cases hev with
        | head => cases hopened
        | tail _ hev =>
          rcases List.mem_append.mp hev with hev | hev
          · exact hev
          · exact absurd hopened.opens (hquiet ev hev)
    have hb₁ : Behaves e w log₁ :=
      hb.of_subset fun ev h => .tail _ (.tail _ (List.mem_append_left _ h))
    obtain ⟨name, r, dm, hstreams, hres⟩ := exportLoop_stored hloop hb₁ ⟨ev, hmem, hopened⟩
    refine ⟨name, r, dm, hstreams, hres, nofun, fun _ hnil => ?_⟩
    rw [hnil] at hloop
    obtain ⟨rfl, -⟩ := hloop.of_ret
    cases hmem

/-- Some stream of the guest ended with `err`. -/
def EndedWith (err : Engine.Err) (log : List Event) : Prop :=
  ∃ script, EndsWith err script ∧ ∃ ev ∈ log, Opened script ev

def Recorded (log : List Event) : Prop := ∃ ev ∈ log, ev.1.Records

variable {job : Job} {runID : String} {p : VmPlan} {before : Stats} {err : Engine.Err}

theorem recorded_exported {q : GuestM (Option Err)}
    (hlog : Logs (backupOneVM job runID p before) log q) (hrec : Recorded log) :
    ∃ ds log₁ log₂, log = ⟨.sched (.script .pre), .ok ()⟩ :: (log₁ ++ log₂) ∧
      Logs (exported p) log₁ (.ret (.ok ds)) ∧ ∀ ev ∈ log₂, ¬ ev.1.Opens := by
  obtain ⟨ev, hev, hrecords⟩ := hrec
  cases hlog with
  | nil => cases hev
  | @cons _ _ log _ r hlog =>
    rcases r with f | ⟨⟩
    · obtain ⟨rfl, -⟩ := hlog.of_ret
      rw [List.mem_singleton] at hev
      subst hev
      cases hrecords
    cases hev with
    | head => cases hrecords
    | tail _ hev =>
      rcases hlog.of_bind with ⟨q', hq⟩ | ⟨err | ds, log₁, log₂, rfl, hexp, hrest⟩
      · exact absurd hrecords ((exported_calls p).logs hq ev hev)
      · obtain ⟨rfl, -⟩ := hrest.of_ret
        rw [List.append_nil] at hev
        exact absurd hrecords ((exported_calls p).logs hexp ev hev)
      · exact ⟨ds, log₁, log₂, rfl, hexp, (record_calls job runID p before ds).logs hrest⟩

/-- A recorded guest whose stream ended uncleanly was exported disk by disk, and its
stream was truncated. -/
theorem recorded_truncated {q : GuestM (Option Err)} (hend : err.isEnd = false)
    (hlog : Logs (backupOneVM job runID p before) log q) (hb : Behaves e w log)
    (hended : EndedWith err log) (hrec : Recorded log) :
    p.helper = false ∧ p.disks ≠ [] ∧ err.isEOF = true := by
  obtain ⟨ds, log₁, log₂, rfl, hexp, hquiet⟩ := recorded_exported hlog hrec
  obtain ⟨script, hends, ev, hev, hopened⟩ := hended
  have hmem : ev ∈ log₁ := by
    cases hev with
    | head => cases hopened
    | tail _ hev =>
      rcases List.mem_append.mp hev with hev | hev
      · exact hev
      · exact absurd hopened.opens (hquiet ev hev)
  have hb₁ : Behaves e w log₁ := hb.of_subset fun ev h => .tail _ (List.mem_append_left _ h)
  obtain ⟨name, r, dm, hstreams, hres, hhelper, hdisks⟩ :=
    exported_stored hexp hb₁ ⟨ev, hmem, hopened⟩
  have hfalse : p.helper = false := by
    rw [← Bool.not_eq_true]
    intro htrue
    have htracked := hstreams.tracked hres hends hend
    rw [hhelper htrue] at htracked
    cases htracked
  exact ⟨hfalse, hdisks hfalse, hstreams.isEOF hres hends⟩

/-- A one-byte stream that ends with `err`. -/
def byteThen (err : Engine.Err) : List ReadReply := [⟨[7], some err⟩, ⟨[], some err⟩]

theorem byteThen_endsWith (err : Engine.Err) : EndsWith err (byteThen err) :=
  ⟨[], [], [7], rfl, nofun⟩

theorem exists_exportLoop (hw : 0 < w) (hhash : ∀ d, e.hash d ≠ "") (heof : err.isEOF = true)
    (node : String) (disks : List String) (out : List DiskManifest) :
    ∃ log ds, Logs (exportLoop node disks out) log (.ret (.ok ds)) ∧ Behaves e w log ∧
      (disks ≠ [] → ∃ ev ∈ log, Opened (byteThen err) ev) := by
  induction disks generalizing out with
  | nil => exact ⟨[], out, .nil, nofun, fun h => absurd rfl h⟩
  | cons disk rest ih =>
    have haccepted : (unitsOf disk (byteThen err)).2 = none := by
      rw [unitsOf_endsWith disk (byteThen_endsWith err), endErr, if_pos heof]
    obtain ⟨r, dm, hstreams, hres⟩ := exists_streams hw hhash haccepted
    obtain ⟨log, ds, hlog, hb, -⟩ := ih (out ++ [dm])
    refine ⟨⟨.exportDisk disk, .ok (byteThen err)⟩ :: ⟨.backupStream disk (byteThen err), r⟩ ::
      ⟨.close, none⟩ :: log, ds, .cons _ (.cons _ (.cons _ ?_)), ?_, fun _ =>
        ⟨_, .head _, .disk disk⟩⟩
    · rw [hres]
      exact hlog
    · intro name script r' hr'
      cases hr' with
      | tail _ hr' =>
        cases hr' with
        | head => exact hstreams
        | tail _ hr' =>
          cases hr' with
          | tail _ hr' => exact hb name script r' hr'

theorem exists_exported (hw : 0 < w) (hhash : ∀ d, e.hash d ≠ "") (heof : err.isEOF = true)
    (hhelper : p.helper = false) (hdisks : p.disks ≠ []) :
    ∃ log ds, Logs (exported p) log (.ret (.ok ds)) ∧ Behaves e w log ∧ EndedWith err log := by
  obtain ⟨log, ds, hlog, hb, hopen⟩ := exists_exportLoop hw hhash heof p.node p.disks []
  have hdone : Logs (exportDisks p) (log ++ [⟨.deleteSnapshot, .error .canceled⟩])
      (.ret (.ok ds)) := (hlog.bind _).trans (.cons _ .nil)
  refine ⟨⟨.createSnapshot, .ok ""⟩ :: ⟨.waitTask "", .ok ()⟩ ::
    (log ++ [⟨.deleteSnapshot, .error .canceled⟩]), ds, ?_, ?_, ?_⟩
  · rw [exported, if_neg (by simp [hhelper])]
    exact .cons _ (.cons _ hdone)
  · intro name script r hr
    simp only [List.mem_cons, List.mem_append, List.not_mem_nil, or_false] at hr
    rcases hr with hr | hr | hr | hr
    · cases hr
    · cases hr
    · exact hb name script r hr
    · cases hr
  · obtain ⟨ev, hev, hopened⟩ := hopen hdisks
    exact ⟨_, byteThen_endsWith err, ev, .tail _ (.tail _ (List.mem_append_left _ hev)), hopened⟩

/-- The calls that make a restore point of what was exported, when nothing goes wrong. -/
def recordLog (job : Job) (man : Manifest) (b : Backup) : List Event :=
  [⟨.stats, .zero⟩,
    ⟨.sched (.latestBackupForSource .vm man.sourceID job.targetID), .error .notFound⟩,
    ⟨.sched .newID, man.backupID⟩, ⟨.sched .now, man.createdAt⟩,
    ⟨.sched (.engine job.targetID (.putManifest man.key man)), .ok ()⟩,
    ⟨.sched (.createBackup b), .ok ()⟩]

theorem exists_record (job : Job) (runID : String) (p : VmPlan) (before : Stats)
    (ds : List DiskManifest) :
    ∃ man b q, Logs (record job runID p before ds) (recordLog job man b) q := by
  let plan := Plan.byWorkers p.sourceID p.name p.sourceID_ne
  let man := newManifest job runID .vm plan ds (0 - before.bytesUploaded) "" "" 0
  exact ⟨man, newBackup man p.sourceID_ne, _,
    .cons _ (.cons _ (.cons _ (.cons _ (.cons _ (.cons _ .nil)))))⟩

theorem exists_recorded (hw : 0 < w) (hhash : ∀ d, e.hash d ≠ "") (heof : err.isEOF = true)
    (hhelper : p.helper = false) (hdisks : p.disks ≠ []) (job : Job) (runID : String)
    (before : Stats) :
    ∃ log q, Logs (backupOneVM job runID p before) log q ∧ Behaves e w log ∧ EndedWith err log ∧
      ∃ b : Backup, ⟨.sched (.createBackup b), .ok ()⟩ ∈ log := by
  obtain ⟨log, ds, hlog, hb, script, hends, ev, hev, hopened⟩ :=
    exists_exported hw hhash heof hhelper hdisks
  obtain ⟨man, b, q, hlog'⟩ := exists_record job runID p before ds
  refine ⟨⟨.sched (.script .pre), .ok ()⟩ :: (log ++ recordLog job man b), q,
    .cons _ ((hlog.bind _).trans hlog'), ?_, ?_, b,
    .tail _ (List.mem_append_right _ (by simp [recordLog]))⟩
  · intro name script r hr
    rcases List.mem_append.mp (List.mem_of_ne_of_mem (by simp) hr) with hr | hr
    · exact hb name script r hr
    · simp [recordLog] at hr
  · exact ⟨script, hends, ev, .tail _ (List.mem_append_left _ hev), hopened⟩

/-- A stream that ended uncleanly keeps its guest from being recorded in every run,
exactly where a helper sent it, there is no disk to export, or the error is not one that
the chunking reader takes for an end. -/
theorem unclean_never_recorded (hw : 0 < w) (hhash : ∀ d, e.hash d ≠ "")
    (hend : err.isEnd = false) (job : Job) (runID : String) (p : VmPlan) (before : Stats) :
    (∀ log q, Logs (backupOneVM job runID p before) log q → Behaves e w log →
        EndedWith err log → ¬ Recorded log) ↔
      p.helper = true ∨ p.disks = [] ∨ err.isEOF = false := by
  constructor
  · intro h
    by_contra hnot
    push Not at hnot
    obtain ⟨hhelper, hdisks, heof⟩ := hnot
    obtain ⟨log, q, hlog, hb, hended, b, hcreate⟩ := exists_recorded hw hhash
      (by simpa using heof) (by simpa using hhelper) hdisks job runID before
    exact h log q hlog hb hended ⟨_, hcreate, trivial⟩
  · intro hcond log q hlog hb hended hrec
    obtain ⟨hhelper, hdisks, heof⟩ := recorded_truncated hend hlog hb hended hrec
    rcases hcond with h | h | h
    · rw [hhelper] at h
      cases h
    · exact hdisks h
    · rw [heof] at h
      cases h

def nightly : Job := ⟨"job1", "nightly", .vm, "t1", ⟨1, 0, 0, 0, 0⟩⟩

def oneDisk : VmPlan := ⟨"pve1", "web", "h1_100", ["scsi0"], false, by decide⟩

def oneArchive : VmPlan := { oneDisk with helper := true }

theorem byteEngine_hash_ne (d : Bytes) : byteEngine.hash d ≠ "" := by
  show byteSha ≠ ""
  decide

/-- The archive of the same guest can be cut off as well, and is then not recorded. -/
theorem unclean_never_recorded_archive :
    (∃ log q, Logs (backupOneVM nightly "run1" oneArchive .zero) log q ∧
      Behaves byteEngine 1 log ∧ EndedWith .unexpectedEOF log) ∧
    ∀ log q, Logs (backupOneVM nightly "run1" oneArchive .zero) log q → Behaves byteEngine 1 log →
      EndedWith .unexpectedEOF log → ¬ Recorded log := by
  constructor
  · refine ⟨[⟨.sched (.script .pre), .ok ()⟩, ⟨.exportGuest, .ok (byteThen .unexpectedEOF)⟩], _,
      .cons _ (.cons _ .nil), ?_, ?_⟩
    · intro name script r hr
      simp at hr
    · exact ⟨_, byteThen_endsWith _, _, .tail _ (.head _), .guest⟩
  · exact (unclean_never_recorded Nat.zero_lt_one byteEngine_hash_ne rfl nightly "run1" oneArchive
      .zero).mpr (.inl rfl)

/-- Its disk becomes a restore point of one byte. -/
theorem truncated_disk_recorded :
    ¬ ∀ log q, Logs (backupOneVM nightly "run1" oneDisk .zero) log q → Behaves byteEngine 1 log →
      EndedWith .unexpectedEOF log → ¬ Recorded log := by
  intro h
  have heof : Engine.Err.unexpectedEOF.isEOF = true := rfl
  have hdisks : oneDisk.disks ≠ [] := List.cons_ne_nil "scsi0" []
  obtain ⟨log, q, hlog, hb, hended, b, hcreate⟩ := exists_recorded Nat.zero_lt_one
    byteEngine_hash_ne heof rfl hdisks nightly "run1" .zero
  exact h log q hlog hb hended ⟨_, hcreate, trivial⟩

end ProxBack.Sched.Guest
