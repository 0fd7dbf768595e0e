import ProxBack.Engine.FirstFailure
import ProxBack.Sched.History

/-! A run of a backup job that nobody cancels: whatever fails in it, what it returns is no
cancellation, so it is finished as failed, after as many attempts as its policy has. -/
namespace ProxBack.Sched.Execute
open Lib Text Prog Engine
open Guest (VmPlan)
open Execute.History (runStatus)
open Store (JobSource RunControl)

section Errors
variable {ε α : Type}

def Clean (canceled : ε → Bool) (res : Except ε α) : Prop :=
  ∀ err, res = .error err → canceled err = false

def Quiet (canceled : ε → Bool) (res : Option ε) : Prop := ∀ err, res = some err → canceled err = false

variable {canceled : ε → Bool}

theorem clean_ok (a : α) : Clean canceled (.ok a : Except ε α) := nofun

theorem clean_error {err : ε} (h : canceled err = false) : Clean canceled (.error err : Except ε α) := by
  intro err' heq
  cases heq
  exact h

theorem quiet_none : Quiet canceled none := nofun

theorem quiet_some {err : ε} (h : canceled err = false) : Quiet canceled (some err) := by
  intro err' heq
  cases heq
  exact h

@[grind =]
theorem engineCanceled_of {err : Engine.Err} (h : err.isCanceled = false) : engineCanceled err = false := by
  induction err with
  | fault f =>
    cases f with
    | canceled => cases h
    | deadlineExceeded => rfl
    | other code => rfl
  | chunkIndex err ih => exact ih h
  | rateLimit err ih => exact ih h
  | storeChunk seq name err ih => exact ih h
  | readStream name err ih => exact ih h
  | restore name err ih => exact ih h
  | restoreWrite name err ih => exact ih h
  | gcChunkIndex err ih => exact ih h
  | _ => rfl

end Errors

/-- An outcome of `BackupStream` under a context that was not canceled. -/
def OwnStream (e : Engine) (name : String) (script : List ReadReply) (r : Streamed) : Prop :=
  OwnReads script ∧ ∃ caller t st acts, ∃ s : Pipeline e.workers,
    (backupStream e e.workers name).Run Pipeline.OwnErrors (.initial caller script t st) acts s ∧
      s.caller ≠ some .canceled ∧ s.result = some r.result ∧ s.script = r.left

def OwnSched : (c : Sched.Call) → Sched.Reply c → Prop
  | .engine _ c, r => c.Own r
  | .jobByID _, r | .listBackups _, r | .backupByID _, r | .latestBackupForSource _ _ _, r
  | .createBackup _, r | .clearBackupParent _, r | .deleteBackup _, r | .openTarget _, r =>
    Clean storeCanceled r
  | .script _, r => Clean faultCanceled r
  | .exported, r => Clean engineCanceled r
  | .ctxErr, r => r ≠ some .canceled
  | .newID, _ | .now, _ | .markTargetActive _, _ | .markTargetIdle _, _ | .targetIdle _, _ => True

def OwnGuest (e : Engine) : (c : Guest.Call) → Guest.Reply c → Prop
  | .sched c, r => OwnSched c r
  | .createSnapshot, r | .deleteSnapshot, r | .waitTask _, r | .exportGuest, r => Clean faultCanceled r
  | .exportDisk _, r => Clean exportCanceled r
  | .backupStream name script, r => OwnStream e name script r
  | .close, _ | .stats, _ => True

def Own (e : Engine) : (c : Call) → Reply c → Prop
  | .guest c, r => OwnGuest e c r
  | .listCachedVMs, r | .findNodeForVM _ _, r | .config _ _ _, r | .helperForNode _ _, r
  | .runBackup _ _, r => Clean faultCanceled r
  | .pveHost _, r | .cachedVM _ _, r | .agentByID _, r => Clean storeCanceled r
  | .runCtxErr, r | .retryWait _, r => r ≠ some .canceled
  | .planSources _, _ | .beginSource _, _ | .finishSource _ _, _ => True

section
variable {e : Engine} {lower : Char → Char}

@[grind =] theorem faultCanceled_of {f : Fault} (h : f ≠ .canceled) : faultCanceled f = false := by
  cases f with
  | canceled => exact absurd rfl h
  | deadlineExceeded => rfl
  | other code => rfl

theorem OwnStream.clean (hhash : ∀ d, e.hash d ≠ "") {name : String} {script : List ReadReply}
    {r : Streamed} (h : OwnStream e name script r) : Clean engineCanceled r.result := by
  obtain ⟨hscript, caller, t, st, acts, s, hrun, hcaller, hres, -⟩ := h
  intro err herr
  rw [herr] at hres
  exact engineCanceled_of ((Pipeline.failed_run hhash hscript hrun hres).1 hcaller)

theorem quiet_errTracking {script left : List ReadReply} (h : OwnReads script) :
    Quiet engineCanceled (errTrackingReader script left) := by
  have hfold : ∀ (l : List ReadReply) (tracked : Option Engine.Err), (∀ r ∈ l, r ∈ script) →
      Quiet engineCanceled tracked → Quiet engineCanceled (l.foldl errTrackingRead tracked) := by
    intro l
    induction l with
    | nil => exact fun _ _ => id
    | cons r l ih =>
      intro tracked hl htracked
      refine ih _ (fun r' hr' => hl r' (List.mem_cons_of_mem r hr')) ?_
      unfold errTrackingRead
      split
      · rename_i err hr
        split
        · exact quiet_none
        · exact quiet_some (engineCanceled_of (h r (hl r List.mem_cons_self) err hr))
      · exact htracked
  exact hfold _ none (fun r hr => List.mem_of_mem_take hr) quiet_none

theorem onTarget_own {α : Type} {Q : α → Prop} {targetID : String} {p : EngineM α}
    (h : Under Engine.Call.Own Q p) : Under OwnSched Q (onTarget targetID p) := h.lift fun _ _ => id

theorem writeManifest_own (man : Manifest) : Under Engine.Call.Own Uncanceled (writeManifest man) :=
  fun _ h => h

theorem deleteManifest_own (key : ManifestKey) : Under Engine.Call.Own Uncanceled (deleteManifest key) :=
  fun _ h => h

theorem pruneLoop_own (targetID : String) (list : List Store.Backup) (ds : List Store.RetentionDecision) :
    Under OwnSched (Quiet schedCanceled) (pruneLoop targetID list ds) := by
  induction ds with
  | nil => exact quiet_none
  | cons d ds ih =>
    unfold pruneLoop
    split
    · exact ih
    refine (onTarget_own (deleteManifest_own _)).bind ?_
    rintro (err | ⟨⟩) hmanifest
    · exact quiet_some (engineCanceled_of (hmanifest err rfl))
    rintro (err | ⟨⟩) hparent
    · exact quiet_some (hparent err rfl)
    rintro (err | ⟨⟩) hrow
    · dsimp only
      split
      · exact ih
      · exact quiet_some (hrow err rfl)
    · exact ih

theorem applyRetention_own (targetID : String) (policy : Store.RetentionPolicy) (sourceKind : SourceKind)
    (sourceID : String) :
    Under OwnSched (Quiet schedCanceled) (applyRetention targetID policy sourceKind sourceID) := by
  unfold applyRetention
  split
  · exact quiet_none
  rintro (err | list) hlist
  · exact quiet_some (hlist err rfl)
  dsimp only
  split
  · exact quiet_none
  split
  · exact quiet_none
  split
  · exact quiet_none
  · exact pruneLoop_own _ _ _

theorem parentFor_own (sourceKind : SourceKind) (sourceID targetID : String) :
    Under OwnSched (Clean schedCanceled) (parentFor sourceKind sourceID targetID) := by
  rintro (err | prev) hprev
  · dsimp only
    split
    · exact clean_ok _
    · exact clean_error (hprev err rfl)
  · exact clean_ok _

theorem recordBackup_own {job : Job} {runID : String} {sourceKind : SourceKind} {p : Plan}
    {out : Exported} {rest : SchedM (Option Sched.Err)}
    (hrest : Under OwnSched (Quiet schedCanceled) rest) :
    Under OwnSched (Quiet schedCanceled) (recordBackup job runID sourceKind p out rest) := by
  refine (parentFor_own _ _ _).bind ?_
  rintro (err | parentID) hparent
  · exact quiet_some (hparent err rfl)
  intro backupID _ createdAt _
  refine (onTarget_own (writeManifest_own _)).bind ?_
  rintro (err | ⟨⟩) hmanifest
  · exact quiet_some (engineCanceled_of (hmanifest err rfl))
  rintro (err | ⟨⟩) hrow
  · exact quiet_some (hrow err rfl)
  · exact hrest

theorem sched_own {α : Type} {Q : α → Prop} {p : SchedM α} (h : Under OwnSched Q p) :
    Under (OwnGuest e) Q (Guest.sched p) := h.lift fun _ _ => id

theorem backupViaHelper_own (hhash : ∀ d, e.hash d ≠ "") (p : VmPlan) :
    Under (OwnGuest e) (Clean guestCanceled) (Guest.backupViaHelper p) := by
  rintro (f | script) hexport
  · exact clean_error (hexport f rfl)
  intro out hout _ _
  have hscript : OwnReads script := hout.1
  have hresult := OwnStream.clean hhash hout
  dsimp only
  split
  · rename_i err herr
    exact clean_error (hresult err herr)
  split
  · rename_i err herr
    exact clean_error (quiet_errTracking hscript err herr)
  split
  · exact clean_error rfl
  · exact clean_ok _

@[grind =]
theorem mapExportError_own {err : Guest.ExportFault} (node : String) (h : exportCanceled err = false) :
    guestCanceled (Guest.mapExportError err node) = false := by
  unfold Guest.mapExportError
  split
  · exact h
  split
  · exact h
  · exact h

theorem exportLoop_own (hhash : ∀ d, e.hash d ≠ "") (node : String) (disks : List String)
    (done : List DiskManifest) :
    Under (OwnGuest e) (Clean guestCanceled) (Guest.exportLoop node disks done) := by
  induction disks generalizing done with
  | nil => exact clean_ok _
  | cons disk rest ih =>
    rintro (err | script) hexport
    · exact clean_error (mapExportError_own node (hexport err rfl))
    intro out hout _ _
    have hresult := OwnStream.clean hhash hout
    dsimp only
    split
    · rename_i err herr
      exact clean_error (hresult err herr)
    · exact ih _

theorem exported_own (hhash : ∀ d, e.hash d ≠ "") (p : VmPlan) :
    Under (OwnGuest e) (Clean guestCanceled) (Guest.exported p) := by
  unfold Guest.exported
  split
  · exact backupViaHelper_own hhash p
  rintro (f | upid) hsnapshot
  · exact clean_error (hsnapshot f rfl)
  rintro (f | ⟨⟩) hwait
  · exact clean_error (hwait f rfl)
  refine (exportLoop_own hhash _ _ _).bind fun out hout => ?_
  rintro (f | upid) _
  · exact hout
  · exact fun _ _ => hout

theorem record_own (job : Job) (runID : String) (p : VmPlan) (before : Stats) (disks : List DiskManifest) :
    Under (OwnGuest e) (Quiet guestCanceled) (Guest.record job runID p before disks) := by
  intro after _
  refine (sched_own (recordBackup_own ?_)).bind fun res hres => ?_
  · rintro (f | ⟨⟩) hscript
    · exact quiet_some (hscript f rfl)
    · exact applyRetention_own _ _ _ _
  · intro err heq
    obtain ⟨err', rfl, rfl⟩ := Option.map_eq_some_iff.mp heq
    exact hres err' rfl

theorem backupOneVM_own (hhash : ∀ d, e.hash d ≠ "") (job : Job) (runID : String) (p : VmPlan)
    (before : Stats) :
    Under (OwnGuest e) (Quiet guestCanceled) (Guest.backupOneVM job runID p before) := by
  rintro (f | ⟨⟩) hscript
  · exact quiet_some (hscript f rfl)
  refine (exported_own hhash p).bind ?_
  rintro (err | disks) hexported
  · exact quiet_some (hexported err rfl)
  · exact record_own job runID p before disks

theorem applyDiskExclusions_own (disks : List DiskInfo) (exclude : List String) (name : String) :
    Clean Err.canceled (applyDiskExclusions lower disks exclude name) := by
  unfold applyDiskExclusions
  split
  · exact clean_ok _
  dsimp only
  split
  · exact clean_error rfl
  · exact clean_ok _

theorem planGuest_own (policy : RunControl) (src : JobSource) (name node : String) :
    Under (Own e) (Clean Err.canceled) (planGuest lower policy src name node) := by
  rintro (f | cfg) hconfig
  · exact clean_error (hconfig f rfl)
  dsimp only
  split
  · exact clean_error rfl
  split
  · rename_i err herr
    exact clean_error (applyDiskExclusions_own _ _ _ err herr)
  rintro (f | helper) hhelper
  · exact clean_error (hhelper f rfl)
  dsimp only
  split
  · exact clean_error rfl
  · exact clean_ok _

theorem planSource_own (policy : RunControl) (src : JobSource) :
    Under (Own e) (Clean Err.canceled) (planSource lower policy src) := by
  have hnamed : ∀ name node : String, Under (Own e) (Clean Err.canceled)
      (planNode lower policy src name node) := by
    intro name node
    unfold planNode
    split
    · exact planGuest_own _ _ _ _
    rintro (f | node) hnode
    · exact clean_error (hnode f rfl)
    · exact planGuest_own _ _ _ _
  rintro (err | v) _
  · exact hnamed _ _
  · exact hnamed _ _

theorem planLoop_own (policy : RunControl) (sources : List JobSource) (known : List String)
    (plans : List VmPlan) :
    Under (Own e) (Clean Err.canceled) (planLoop lower policy sources known plans) := by
  induction sources generalizing known plans with
  | nil => exact clean_ok _
  | cons src rest ih =>
    have hgo : ∀ known, Under (Own e) (Clean Err.canceled)
        (planSource lower policy src >>= planNext lower policy rest known plans) := by
      refine fun known => (planSource_own policy src).bind ?_
      rintro (err | p) hplan
      · exact clean_error (hplan err rfl)
      · exact ih _ _
    unfold planLoop
    split
    · exact clean_error rfl
    dsimp only
    split
    · exact hgo known
    rintro (err | host) hhost
    · exact clean_error (hhost err rfl)
    · exact hgo _

theorem resolveTagFilter_own (tagFilter : String) :
    Under (Own e) (Clean Err.canceled) (resolveTagFilter lower tagFilter) := by
  rintro (f | vms) hlist
  · exact clean_error (hlist f rfl)
  dsimp only
  split
  · exact clean_error rfl
  · exact clean_ok _

theorem planVMJob_own (j : BackupJob) : Under (Own e) (Clean Err.canceled) (planVMJob lower j) := by
  have hstart : ∀ sources : List JobSource, Under (Own e) (Clean Err.canceled)
      (if sources = [] then .ret (.error (.plan .noSources))
        else planLoop lower j.policy sources [] []) := by
    intro sources
    split
    · exact clean_error rfl
    · exact planLoop_own _ _ _ _
  unfold planVMJob
  dsimp only
  split
  · refine (resolveTagFilter_own _).bind ?_
    rintro (err | sources) hresolved
    · exact clean_error (hresolved err rfl)
    · exact hstart sources
  · exact hstart j.sources

theorem guest_own {α : Type} {Q : α → Prop} {p : Guest.GuestM α} (h : Under (OwnGuest e) Q p) :
    Under (Own e) Q (guest p) := h.lift fun _ _ => id

theorem backupLoop_own (hhash : ∀ d, e.hash d ≠ "") (job : Job) (runID : String) (i : Nat)
    (plans : List VmPlan) :
    Under (Own e) (Quiet Err.canceled) (backupLoop job runID i plans) := by
  induction plans generalizing i with
  | nil => exact quiet_none
  | cons p rest ih =>
    rintro (- | f) hctx
    swap
    · exact quiet_some (faultCanceled_of fun hf => hctx (congrArg some hf))
    intro before _ _ _
    refine (guest_own (backupOneVM_own hhash job runID p before)).bind fun res hres _ _ => ?_
    cases res with
    | some err => exact quiet_some (hres err rfl)
    | none => exact ih _

theorem backupVMJob_own (hhash : ∀ d, e.hash d ≠ "") (j : BackupJob) (runID : String) :
    Under (Own e) (Quiet Err.canceled) (backupVMJob lower j runID) := by
  refine (planVMJob_own j).bind ?_
  rintro (err | plans) hplan
  · exact quiet_some (hplan err rfl)
  · exact fun _ _ => backupLoop_own hhash _ _ _ _

theorem backupAgent_own (job : Job) (runID agentID hostname : String) (hid : agentID ≠ "")
    (paths : List String) :
    Under (Own e) (Quiet Err.canceled) (backupAgent job runID agentID hostname hid paths) := by
  rintro (f | disks) hrun
  · exact quiet_some (hrun f rfl)
  intro snapshot _
  refine (guest_own (sched_own (recordBackup_own (applyRetention_own _ _ _ _)))).bind fun res hres => ?_
  intro err heq
  obtain ⟨err', rfl, rfl⟩ := Option.map_eq_some_iff.mp heq
  exact hres err' rfl

theorem backupAgentJob_own (j : BackupJob) (runID : String) :
    Under (Own e) (Quiet Err.canceled) (backupAgentJob j runID) := by
  unfold backupAgentJob
  split
  · exact quiet_some rfl
  split
  · exact quiet_some rfl
  rintro (err | agent) hagent
  · exact quiet_some (hagent err rfl)
  dsimp only
  split
  · exact quiet_some rfl
  split
  · exact quiet_some rfl
  split
  · exact quiet_some rfl
  intro _ _ _ _
  exact (backupAgent_own _ _ _ _ _ _).bind fun res hres _ _ => hres

theorem endAttempt_own {runErr : Option Err} (h : Quiet Err.canceled runErr) (targetID : String) :
    Under (Own e) (Quiet Err.canceled) (endAttempt e targetID runErr) := by
  intro idle _
  dsimp only
  split
  · exact h
  rintro (- | f) _
  · exact (Under.of_all (Q := fun _ => True) _ fun _ => trivial).bind fun _ _ => h
  · exact h

theorem backupAttempt_own (hhash : ∀ d, e.hash d ≠ "") (j : BackupJob) (runID : String) :
    Under (Own e) (Quiet Err.canceled) (backupAttempt lower e j runID) := by
  rintro (err | ⟨⟩) hopen
  · exact quiet_some (hopen err rfl)
  intro _ _
  have hjob : Under (Own e) (Quiet Err.canceled) (backupJob lower j runID) := by
    unfold backupJob
    split
    · exact backupVMJob_own hhash j runID
    · exact backupAgentJob_own j runID
  exact hjob.bind fun res hres => endAttempt_own hres _

/-- Attempts in a row, each but the first after a wait that followed a failure, the last of which
ends as told. -/
inductive Attempts (attempt : ExecM (Option Err)) (delay : Int) : Nat → Option Err → List Event → Prop
  | last {res log} (h : Logs attempt log (.ret res)) : Attempts attempt delay 1 res log
  | again {n res err log rest} (h : Logs attempt log (.ret (some err)))
      (hrest : Attempts attempt delay n res rest) :
      Attempts attempt delay (n + 1) res
        (log ++ ⟨.runCtxErr, none⟩ :: ⟨.retryWait delay, none⟩ :: rest)

def Live : (c : Call) → Reply c → Prop
  | .runCtxErr, r | .retryWait _, r => r = none
  | _, _ => True

/-- What the attempts of a loop with `n` of them left come to. -/
def Spent (attempt : ExecM (Option Err)) (delay : Int) (n : Nat) (log : List Event) :
    Option (Option Err) → Prop
  | none => ∃ k, k ≤ n ∧ Attempts attempt delay k none log
  | some none => False
  | some (some err) => err.canceled = false ∧
      ∃ log', log = log' ++ [⟨.runCtxErr, none⟩] ∧ Attempts attempt delay n (some err) log'

variable {attempt : ExecM (Option Err)} {delay : Int} {n : Nat} {log : List Event}

theorem tryLoop_spent (hattempt : Under (Own e) (Quiet Err.canceled) attempt) (hn : 0 < n)
    {res : Option (Option Err)} (hlog : Logs (tryLoop delay attempt n) log (.ret res))
    (hown : ∀ ev ∈ log, Own e ev.1 ev.2) (hlive : ∀ ev ∈ log, Live ev.1 ev.2) :
    Spent attempt delay n log res := by
  induction n generalizing log with
  | zero => exact absurd hn (lt_irrefl 0)
  | succ n ih =>
    obtain ⟨out, log₁, log₂, rfl, hfirst, hrest⟩ := hlog.of_bind_ret
    have hquiet := hattempt.logs (fun ev hev => hown ev (List.mem_append_left _ hev)) hfirst
    cases out with
    | none =>
      obtain ⟨rfl, hres⟩ := hrest.of_ret
      cases hres
      rw [List.append_nil]
      exact ⟨1, by omega, .last hfirst⟩
    | some err =>
      obtain ⟨ctx, log₂, rfl, hrest₁⟩ := hrest.of_call
      have hctx : ctx = none := hlive ⟨.runCtxErr, ctx⟩ (by simp)
      subst hctx
      have herr : err.canceled = false := hquiet err rfl
      rw [if_neg (by simp [herr])] at hrest₁
      split at hrest₁
      · rename_i hzero
        subst hzero
        obtain ⟨rfl, hres⟩ := hrest₁.of_ret
        cases hres
        exact ⟨herr, log₁, rfl, .last hfirst⟩
      rename_i hmore
      obtain ⟨cut, log₃, rfl, hrest₂⟩ := hrest₁.of_call
      have hcut : cut = none := hlive ⟨.retryWait delay, cut⟩ (by simp)
      subst hcut
      have hmem : ∀ ev ∈ log₃, ev ∈ log₁ ++ ⟨.runCtxErr, none⟩ :: ⟨.retryWait delay, none⟩ :: log₃ :=
        fun ev hev => List.mem_append_right _ (.tail _ (.tail _ hev))
      have hspent := ih (by omega) hrest₂ (fun ev hev => hown ev (hmem ev hev))
        fun ev hev => hlive ev (hmem ev hev)
      match res, hspent with
      | none, ⟨k, hk, htries⟩ => exact ⟨k + 1, by omega, .again hfirst htries⟩
      | some (some err'), ⟨herr', log', hlog', htries⟩ =>
        refine ⟨herr', _, ?_, .again hfirst htries⟩
        rw [hlog', List.append_assoc]
        rfl

theorem tryLoop_own (hattempt : Under (Own e) (Quiet Err.canceled) attempt) (n : Nat) :
    Under (Own e) (fun res => ∀ err, res = some err → Quiet Err.canceled err)
      (tryLoop delay attempt n) := by
  induction n with
  | zero =>
    rintro _ ⟨⟩
    exact quiet_none
  | succ n ih =>
    refine hattempt.bind ?_
    rintro (- | err) hquiet
    · exact nofun
    have hleft : ∀ err', some (some err) = some err' → Quiet Err.canceled err' := by
      rintro _ ⟨⟩
      exact hquiet
    intro ctx _
    dsimp only
    split
    · exact hleft
    split
    · exact hleft
    rintro (- | f) _
    · exact ih
    · exact hleft

theorem executeBackup_own (hhash : ∀ d, e.hash d ≠ "") (j : BackupJob) (runID : String) :
    Under (Own e) (Quiet Err.canceled) (executeBackup lower e j runID) := by
  refine (tryLoop_own (backupAttempt_own hhash j runID) _).bind ?_
  rintro (- | err) hquiet
  · exact quiet_none
  dsimp only
  split
  · intro ctx _
    dsimp only
    split
    · exact quiet_some rfl
    · exact hquiet err rfl
  · exact hquiet err rfl

variable {j : BackupJob} {runID : String} {res : Option Err}

theorem executeBackup_attempts (hhash : ∀ d, e.hash d ≠ "") (hretry : 0 ≤ j.policy.retryCount)
    (hlog : Logs (executeBackup lower e j runID) log (.ret res))
    (hown : ∀ ev ∈ log, Own e ev.1 ev.2) (hlive : ∀ ev ∈ log, Live ev.1 ev.2) :
    ∃ k log' tail, log = log' ++ tail ∧ (∀ ev ∈ tail, ev = ⟨.runCtxErr, none⟩) ∧
      Attempts (backupAttempt lower e j runID) j.policy.normalized.retryDelayMinutes k res log' ∧
      (k : Int) ≤ j.policy.retryCount + 1 ∧ (res ≠ none → (k : Int) = j.policy.retryCount + 1) := by
  obtain ⟨out, log₁, log₂, rfl, hloop, hrest⟩ := hlog.of_bind_ret
  rw [retryCount_normalized] at hloop
  have hspent := tryLoop_spent (backupAttempt_own hhash j runID) (by omega) hloop
    (fun ev hev => hown ev (List.mem_append_left _ hev))
    fun ev hev => hlive ev (List.mem_append_left _ hev)
  match out, hspent with
  | none, ⟨k, hk, htries⟩ =>
    obtain ⟨rfl, hres⟩ := hrest.of_ret
    cases hres
    exact ⟨k, log₁, [], rfl, List.forall_mem_nil _, htries, by omega, fun hne => absurd rfl hne⟩
  | some (some err), ⟨_, log', hlog', htries⟩ =>
    subst hlog'
    have hcount : (((j.policy.retryCount + 1).toNat : Nat) : Int) = j.policy.retryCount + 1 := by omega
    dsimp only at hrest
    split at hrest
    · obtain ⟨ctx, log₂, rfl, hrest₁⟩ := hrest.of_call
      have hctx : ctx = none := hlive ⟨.runCtxErr, ctx⟩ (by simp)
      subst hctx
      rw [if_neg nofun] at hrest₁
      obtain ⟨rfl, hres⟩ := hrest₁.of_ret
      cases hres
      refine ⟨_, log', [⟨.runCtxErr, none⟩, ⟨.runCtxErr, none⟩], by simp, by simp, htries, hcount.le, ?_⟩
      exact fun _ => hcount
    · obtain ⟨rfl, hres⟩ := hrest.of_ret
      cases hres
      refine ⟨_, log', [⟨.runCtxErr, none⟩], by simp, by simp, htries, hcount.le, fun _ => hcount⟩

end

/-- A stream that fails while its caller waits reports the first failure that came to be
reported, or the error of the stream when no store failed, and never a cancellation that nobody
asked for. So a run that nobody cancels and that fails is finished as failed, after all the
attempts its policy has. -/
theorem failures_reported {e : Engine} (hhash : ∀ d, e.hash d ≠ "") :
    (∀ (w : Nat) (name : String) (script : List ReadReply) (caller : Option Fault) (t : Target)
      (st : Stats) (acts : List (PipelineAction w)) (s : Pipeline w) (err : Engine.Err),
      OwnReads script →
      (backupStream e w name).Run Pipeline.OwnErrors (.initial caller script t st) acts s →
      s.result = some (.error err) →
      (s.caller ≠ some .canceled → err.isCanceled = false) ∧
        (s.caller = none → Pipeline.FirstFailure name script
          ((backupStream e w name).trail acts (.initial caller script t st)) err)) ∧
    ∀ (lower : Char → Char) (j : BackupJob) (runID : String) (log : List Event) (res : Option Err),
      0 ≤ j.policy.retryCount → Logs (executeBackup lower e j runID) log (.ret res) →
      (∀ ev ∈ log, Own e ev.1 ev.2) →
      (res ≠ none → runStatus res = .failed) ∧
        ((∀ ev ∈ log, Live ev.1 ev.2) →
          ∃ k log' tail, log = log' ++ tail ∧ (∀ ev ∈ tail, ev = ⟨.runCtxErr, none⟩) ∧
            Attempts (backupAttempt lower e j runID) j.policy.normalized.retryDelayMinutes k res log' ∧
            (k : Int) ≤ j.policy.retryCount + 1 ∧ (res ≠ none → (k : Int) = j.policy.retryCount + 1)) := by
  refine ⟨fun w name script caller t st acts s err hscript hrun hres =>
    Pipeline.failed_run hhash hscript hrun hres, ?_⟩
  intro lower j runID log res hretry hlog hown
  refine ⟨fun hne => ?_, fun hlive => executeBackup_attempts hhash hretry hlog hown hlive⟩
  obtain ⟨err, rfl⟩ := Option.ne_none_iff_exists'.mp hne
  have hquiet := (executeBackup_own hhash j runID).logs hown hlog
  unfold runStatus
  dsimp only
  rw [hquiet err rfl]
  rfl

def Choice.failing (code : Nat) : Engine.Choice := { fault := some (.other code) }

def failStore {w : Nat} (i : Fin w) (code : Nat) : List (PipelineAction w) :=
  List.replicate 2 (.worker i (.go .fine)) ++ [.worker i (.go (Choice.failing code))] ++
    List.replicate 3 (.worker i (.go .fine))

def soleWorker : Fin 1 := ⟨0, Nat.one_pos⟩

def byteFails : List (PipelineAction 1) :=
  List.replicate 4 .read ++ [.handOff soleWorker] ++ failStore soleWorker 7 ++
    List.replicate 2 (.worker soleWorker (.go .fine)) ++
      [.read, .close, .worker soleWorker (.go .fine), .finish]

def byteErr : Engine.Err := .storeChunk 0 "scsi0" (.chunkIndex (.fault (.other 7)))

theorem byte_failed : ∃ s, (backupStream byteEngine 1 "scsi0").follow byteFails byteStart = some s ∧
    s.caller = none ∧ s.result = some (.error byteErr) ∧ s.script = [] := ⟨_, rfl, rfl, rfl, rfl⟩

def Frank {w : Nat} : PipelineAction w → Bool
  | .worker _ (.go x) => decide (x.fault ≠ some .canceled)
  | _ => true

theorem ownErrors_of_frank {w : Nat} {acts : List (PipelineAction w)} (h : acts.all Frank = true) :
    ∀ a ∈ acts, ∀ s : Pipeline w, s.OwnErrors a := by
  intro a ha s
  have hfrank := List.all_eq_true.mp h a ha
  unfold Pipeline.OwnErrors
  split
  · rename_i x
    exact fun hfault => absurd hfault (of_decide_eq_true hfrank)
  · trivial

theorem ownReads_byteScript : OwnReads byteScript := by
  intro r hr err herr
  cases List.mem_singleton.mp hr
  cases herr
  rfl

theorem byteEngine_hash (d : Bytes) : byteEngine.hash d ≠ "" := by
  show byteSha ≠ ""
  decide

theorem byte_ownStream : OwnStream byteEngine "scsi0" byteScript ⟨.error byteErr, []⟩ := by
  obtain ⟨s, hfollow, hcaller, hres, hscript⟩ := byte_failed
  refine ⟨ownReads_byteScript, none, ⟨∅, ∅, ∅⟩, .zero, byteFails, s, ?_, ?_, hres, hscript⟩
  · exact System.run_of_follow (ownErrors_of_frank rfl) hfollow
  · rw [hcaller]
    exact nofun

def ledger : BackupJob where
  job := ⟨"job1", "ledger", .vm, "t1", ⟨7, 0, 0, 0, 0⟩⟩
  sources := [⟨"pve1", 101, "db", "", []⟩]
  tagFilter := ""
  policy := ⟨[], 1, 5, 0⟩

def unstoredLog : List Event :=
  [⟨.guest (.sched (.openTarget "t1")), .ok ()⟩, ⟨.guest (.sched (.markTargetActive "t1")), ()⟩,
    ⟨.pveHost "pve1", .ok ""⟩,
    ⟨.cachedVM "pve1" 101, .ok ⟨"pve1", "", 101, "db", "pve", []⟩⟩,
    ⟨.config "pve1" "pve" 101, .ok ⟨"db", [⟨"scsi0", 1⟩]⟩⟩, ⟨.helperForNode "pve1" "pve", .ok false⟩,
    ⟨.planSources [⟨0, .vm, vmSourceID "pve1" 101⟩], ()⟩,
    ⟨.guest (.sched .ctxErr), none⟩, ⟨.guest .stats, .zero⟩, ⟨.beginSource 0, ()⟩,
    ⟨.guest (.sched (.script .pre)), .ok ()⟩,
    ⟨.guest .createSnapshot, .ok "UPID"⟩, ⟨.guest (.waitTask "UPID"), .ok ()⟩,
    ⟨.guest (.exportDisk "scsi0"), .ok byteScript⟩,
    ⟨.guest (.backupStream "scsi0" byteScript), ⟨.error byteErr, []⟩⟩, ⟨.guest .close, none⟩,
    ⟨.guest .deleteSnapshot, .ok "UPID"⟩, ⟨.guest (.waitTask "UPID"), .ok ()⟩,
    ⟨.finishSource 0 .failed, ()⟩, ⟨.guest (.sched (.markTargetIdle "t1")), true⟩]

def unstoredErr : Err := .guest (.sched (.engine byteErr))

def twiceLog : List Event :=
  unstoredLog ++ ⟨.runCtxErr, none⟩ :: ⟨.retryWait 5, none⟩ :: unstoredLog ++ [⟨.runCtxErr, none⟩]

theorem unstoredLog_logs :
    Logs (backupAttempt Char.toLower byteEngine ledger "run1") unstoredLog (.ret (some unstoredErr)) := by
  repeat refine .cons _ ?_
  exact .nil

theorem twiceLog_logs :
    Logs (executeBackup Char.toLower byteEngine ledger "run1") twiceLog (.ret (some unstoredErr)) := by
  have hsecond : Logs (tryLoop 5 (backupAttempt Char.toLower byteEngine ledger "run1") 1)
      (unstoredLog ++ [⟨.runCtxErr, none⟩]) (.ret (some (some unstoredErr))) :=
    (unstoredLog_logs.bind _).trans (.cons _ .nil)
  have hboth : Logs (tryLoop 5 (backupAttempt Char.toLower byteEngine ledger "run1") 2) twiceLog
      (.ret (some (some unstoredErr))) :=
    (unstoredLog_logs.bind _).trans (.cons _ (.cons _ hsecond))
  exact hboth.bind _

theorem twiceLog_own : (∀ ev ∈ twiceLog, Own byteEngine ev.1 ev.2) ∧ ∀ ev ∈ twiceLog, Live ev.1 ev.2 := by
  have hlive : (none : Option Fault) ≠ some .canceled := nofun
  constructor
  · repeat
      refine List.forall_mem_cons.mpr
        ⟨by first | exact trivial | exact hlive | exact clean_ok _ | exact byte_ownStream, ?_⟩
    exact List.forall_mem_nil _
  · repeat refine List.forall_mem_cons.mpr ⟨by first | exact trivial | exact rfl, ?_⟩
    exact List.forall_mem_nil _

/-- The store's failure is what the stream returns, and the run fails after two attempts. -/
theorem unstored_reported :
    (∃ s, (backupStream byteEngine 1 "scsi0").follow byteFails byteStart = some s ∧
      s.result = some (.error byteErr) ∧ Pipeline.FirstFailure "scsi0" byteScript
        ((backupStream byteEngine 1 "scsi0").trail byteFails byteStart) byteErr) ∧
      runStatus (some unstoredErr) = .failed ∧
      ∃ log tail, twiceLog = log ++ tail ∧
        Attempts (backupAttempt Char.toLower byteEngine ledger "run1") 5 2 (some unstoredErr) log := by
  obtain ⟨hstream, hrun⟩ := failures_reported (e := byteEngine) byteEngine_hash
  obtain ⟨s, hfollow, hcaller, hres, -⟩ := byte_failed
  obtain ⟨hown, hlive⟩ := twiceLog_own
  obtain ⟨hstatus, htries⟩ := hrun Char.toLower ledger "run1" twiceLog _ (by decide) twiceLog_logs hown
  refine ⟨⟨s, hfollow, hres, ?_⟩, hstatus nofun, ?_⟩
  · exact (hstream 1 "scsi0" byteScript none ⟨∅, ∅, ∅⟩ .zero byteFails s byteErr ownReads_byteScript
      (System.run_of_follow (ownErrors_of_frank rfl) hfollow) hres).2 hcaller
  · obtain ⟨k, log, tail, heq, -, hattempts, -, hall⟩ := htries hlive
    have hk : (k : Int) = 2 := hall nofun
    obtain rfl : k = 2 := by omega
    exact ⟨log, tail, heq, hattempts⟩

-- Two stores that fail at the same time: the one that fails first is not the first to be
-- reported.
def raceActs : List (PipelineAction 2) :=
  .handOff firstOfTwo :: List.replicate 5 .read ++ [.handOff secondOfTwo] ++
    failStore firstOfTwo 1 ++ failStore secondOfTwo 2 ++
    List.replicate 2 (.worker secondOfTwo (.go .fine)) ++
    List.replicate 2 (.worker firstOfTwo (.go .fine)) ++
    [.read, .close, .worker firstOfTwo (.go .fine), .worker secondOfTwo (.go .fine), .finish]

theorem race_failed : ∃ s, (backupStream byteEngine 2 "scsi0").follow raceActs twoSent = some s ∧
    s.caller = none ∧
    s.result = some (.error (.storeChunk 1 "scsi0" (.chunkIndex (.fault (.other 2))))) ∧
    (Pipeline.failures ((backupStream byteEngine 2 "scsi0").trail raceActs twoSent)).head? =
      some (⟨0, 0, chunkSize⟩, .chunkIndex (.fault (.other 1))) := ⟨_, rfl, rfl, rfl, rfl⟩

/-- The store of the first unit returns its error before that of the second, whose worker is the
first to take the lock. -/
theorem later_failure_reported :
    ¬ ∀ (w : Nat) (e : Engine) (name : String) (script : List ReadReply) (t : Target) (st : Stats)
      (acts : List (PipelineAction w)) (s : Pipeline w) (err cause : Engine.Err) (u : ChunkUnit),
      (∀ d, e.hash d ≠ "") → OwnReads script →
      (backupStream e w name).Run Pipeline.OwnErrors (.initial none script t st) acts s →
      s.caller = none → s.result = some (.error err) →
      (Pipeline.failures ((backupStream e w name).trail acts (.initial none script t st))).head? =
        some (u, cause) → err = .storeChunk u.seq name cause := by
  intro hall
  obtain ⟨s, hfollow, hcaller, hres, hfirst⟩ := race_failed
  have hrun : (backupStream byteEngine 2 "scsi0").Run Pipeline.OwnErrors twoStart
      (twoReads ++ raceActs) s := by
    refine (System.run_of_follow (ownErrors_of_frank ?_) (two_sent byteEngine)).trans
      (System.run_of_follow (ownErrors_of_frank ?_) hfollow)
    · rfl
    · rfl
  have hreads : OwnReads twoScript := by
    intro r hr err herr
    rcases List.mem_cons.mp hr with rfl | hr
    · cases herr
    · exact ownReads_byteScript r hr err herr
  have hquiet : Pipeline.failures ((backupStream byteEngine 2 "scsi0").trail
      twoReads twoStart) = [] := by
    refine List.filterMap_eq_nil_iff.mpr ?_
    rintro ⟨s, a⟩ hx
    have ha : a ∈ twoReads := System.mem_of_mem_trail hx
    have hread : a = .read := by simpa [twoReads] using ha
    rw [hread]
    rfl
  have htrail : (Pipeline.failures ((backupStream byteEngine 2 "scsi0").trail
      (twoReads ++ raceActs) twoStart)).head? =
      some (⟨0, 0, chunkSize⟩, .chunkIndex (.fault (.other 1))) := by
    rw [System.trail_append _ (two_sent byteEngine), Pipeline.failures, List.filterMap_append]
    rw [Pipeline.failures] at hquiet
    rw [hquiet]
    exact hfirst
  have heq := hall 2 byteEngine "scsi0" twoScript _ _ _ s _ _ _ byteEngine_hash hreads hrun hcaller
    hres htrail
  cases heq

end ProxBack.Sched.Execute
