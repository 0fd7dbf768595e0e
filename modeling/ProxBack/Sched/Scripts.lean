import ProxBack.Agent.RunBackup
import ProxBack.Sched.Execute

/-! An attempt at a backup job with the scripts of its policy: those of a guest are run
by the helper of its node, those of an agent's machine travel with the dispatch. -/
namespace ProxBack.Sched.Scripts
open Lib Text Prog Engine Store Execute
open Guest (VmPlan)

structure DataPolicy where
  preScript : String
  postScript : String
  excludePaths : List String
deriving DecidableEq, Repr

def DataPolicy.script (s : DataPolicy) : Phase → String
  | .pre => s.preScript
  | .post => s.postScript

inductive Exit where
  | code (n : Nat)
  | timedOut
  | notStarted
deriving DecidableEq, Repr

/-- What becomes of a request to a helper: no answer, a helper that knows no scripts, one
that refuses the request, or one that takes it. -/
inductive Arrival where
  | unreachable (f : Fault)
  | tooOld
  | unauthorized
  | badRequest
  | taken
deriving DecidableEq, Repr

/-- The calls of an attempt: those that move no script, the request to a helper, the shell
that runs a script, the answer's way back, and what the agent does. -/
inductive Call where
  | exec (c : Execute.Call)
  | postScript (phase : Phase)
  | shell (phase : Phase) (script : String)
  | readResponse
  | collected (agentID : String)
  | agent (c : Agent.Upload.Call)
  | agentResult (agentID : String)

abbrev Reply : Call → Type
  | .exec c => Execute.Reply c
  | .postScript _ => Arrival
  | .shell _ _ => Except Exit Unit
  | .readResponse => Option Fault
  | .collected _ => Bool
  | .agent c => Agent.Upload.Reply c
  | .agentResult _ => Except Fault (List DiskManifest)

abbrev ScriptM (α : Type) := Prog Call Reply α

def exec {α : Type} (p : ExecM α) : ScriptM α := p.lift .exec fun _ r => r

structure ScriptResponse where
  ok : Bool
deriving DecidableEq, Repr

structure Response where
  status : Nat
  body : Option ScriptResponse
deriving DecidableEq, Repr

def writeErr (status : Nat) : Response := ⟨status, some ⟨false⟩⟩

def handleScript (phase : Phase) (script : String) : ScriptM Response :=
  if trimSpace script.toList = [] then .ret (writeErr 400)
  else
    .call (.shell phase script) fun
    -- The failure is in the body: what the script said has to get through.
    | .error _ => .ret ⟨200, some ⟨false⟩⟩
    | .ok () => .ret ⟨200, some ⟨true⟩⟩

def answered (phase : Phase) (script : String) : Arrival → ScriptM Response
  | .unreachable _ | .tooOld => .ret ⟨404, none⟩
  | .unauthorized => .ret (writeErr 401)
  | .badRequest => .ret (writeErr 400)
  | .taken => handleScript phase script

inductive ScriptErr where
  | needsHelper
  | transport (f : Fault)
  | tooOld
  | undecoded (status : Nat)
  | failed (status : Nat)
deriving DecidableEq, Repr

/-- What is left of the error in the chain that `errors.Is` follows. -/
def ScriptErr.fault : ScriptErr → Fault
  | .transport f => f
  | .needsHelper => .other 0
  | .tooOld => .other 404
  | .undecoded status | .failed status => .other status

def decodeResponse (resp : Response) : Except ScriptErr Unit :=
  if resp.status = 404 ∨ resp.status = 405 then .error .tooOld
  else
    match resp.body with
    | none => .error (.undecoded resp.status)
    | some out =>
      if resp.status ≠ 200 ∨ ¬ out.ok then .error (.failed resp.status) else .ok ()

def runHelperScript (phase : Phase) (script : String) : ScriptM (Except ScriptErr Unit) :=
  .call (.postScript phase) fun
  | .unreachable f => .ret (.error (.transport f))
  | a =>
    answered phase script a >>= fun resp =>
    .call .readResponse fun
    | some f => .ret (.error (.transport f))
    | none => .ret (decodeResponse resp)

def runVMScript (s : DataPolicy) (p : VmPlan) (phase : Phase) :
    ScriptM (Except ScriptErr Unit) :=
  if s.script phase = "" then .ret (.ok ())
  else if ¬ p.helper then .ret (.error .needsHelper)
  else runHelperScript phase (s.script phase)

def onGuest (s : DataPolicy) (p : VmPlan) : (c : Guest.Call) → ScriptM (Guest.Reply c)
  | .sched (.script phase) =>
    runVMScript s p phase >>= fun
    | .error err => .ret (.error err.fault)
    | .ok () => .ret (.ok ())
  | c => .call (.exec (.guest c)) .ret

def backupOneVM (s : DataPolicy) (job : Job) (runID : String) (p : VmPlan) (before : Stats) :
    ScriptM (Option Guest.Err) :=
  (Guest.backupOneVM job runID p before).interp (onGuest s p)

def dispatch (s : DataPolicy) (runID : String) (paths : List String) : Agent.Upload.Dispatch where
  runID := runID
  paths := paths
  excludePaths := s.excludePaths
  preScript := s.preScript
  postScript := s.postScript
  chunkSize := Engine.chunkSize

section
variable (sha256 : Bytes → Sha)

/-- `RunBackup` of the agents' manager: the agent's work if it collects the dispatch, and
what the wait for it ends with. -/
def runBackup (s : DataPolicy) (runID agentID : String) (paths : List String) :
    ScriptM (Except Fault (List DiskManifest)) :=
  .call (.collected agentID) fun
  | false => .call (.agentResult agentID) .ret
  | true =>
    ((Agent.Upload.collect sha256 (dispatch s runID paths)).lift .agent fun _ r => r) >>= fun _ =>
    .call (.agentResult agentID) .ret

def onAgent (s : DataPolicy) (runID : String) : (c : Execute.Call) → ScriptM (Execute.Reply c)
  | .runBackup agentID paths => runBackup sha256 s runID agentID paths
  | c => .call (.exec c) .ret

def backupAgentJob (s : DataPolicy) (j : BackupJob) (runID : String) :
    ScriptM (Option Execute.Err) :=
  (Execute.backupAgentJob j runID).interp (onAgent sha256 s runID)

variable (lower : Char → Char)

/-- The loop of `backupVMJob`. -/
def backupLoop (s : DataPolicy) (job : Job) (runID : String) :
    Nat → List VmPlan → ScriptM (Option Execute.Err)
  | _, [] => .ret none
  | i, p :: rest =>
    .call (.exec (.guest (.sched .ctxErr))) fun
    | some f => .ret (some (.guest (.sched (.ctx f))))
    | none =>
      .call (.exec (.guest .stats)) fun before =>
      .call (.exec (.beginSource i)) fun () =>
      backupOneVM s job runID p before >>= fun res =>
      .call (.exec (.finishSource i (sourceOutcome (res.map .guest)))) fun () =>
      match res with
      | some err => .ret (some (.guest err))
      | none => backupLoop s job runID (i + 1) rest

def backupVMJob (s : DataPolicy) (j : BackupJob) (runID : String) :
    ScriptM (Option Execute.Err) :=
  exec (planVMJob lower j) >>= fun
  | .error err => .ret (some err)
  | .ok plans =>
    .call (.exec (.planSources (plannedRows plans))) fun () => backupLoop s j.job runID 0 plans

def backupJob (s : DataPolicy) (j : BackupJob) (runID : String) : ScriptM (Option Execute.Err) :=
  match j.job.kind with
  | .vm => backupVMJob lower s j runID
  | .agent => backupAgentJob sha256 s j runID

def backupAttempt (s : DataPolicy) (e : Engine) (j : BackupJob) (runID : String) :
    ScriptM (Option Execute.Err) :=
  .call (.exec (.guest (.sched (.openTarget j.job.targetID)))) fun
  | .error err => .ret (some (.guest (.sched (.loadTarget err))))
  | .ok () =>
    .call (.exec (.guest (.sched (.markTargetActive j.job.targetID)))) fun () =>
    backupJob sha256 lower s j runID >>= fun err =>
      exec (Execute.endAttempt e j.job.targetID err)

end

variable {sha256 : Bytes → Sha} {lower : Char → Char} {s : DataPolicy} {e : Engine}
  {j : BackupJob} {runID : String} {a : Option Execute.Err}

theorem returns_exec {α : Type} {p : ExecM α} {a : α} : (exec p).Returns a ↔ p.Returns a :=
  @returns_lift _ _ _ Call Reply .exec (fun _ r => r) (fun _ r => ⟨r, rfl⟩) _ _

theorem returns_guest {α : Type} {p : Guest.GuestM α} {a : α} :
    (guest p).Returns a ↔ p.Returns a :=
  @returns_lift _ _ _ Execute.Call Execute.Reply .guest (fun _ r => r) (fun _ r => ⟨r, rfl⟩) _ _

theorem backupLoop_returns {job : Job} {i : Nat} {plans : List VmPlan}
    (h : (backupLoop s job runID i plans).Returns a) :
    (Execute.backupLoop job runID i plans).Returns a := by
  induction plans generalizing i with
  | nil => exact h
  | cons p rest ih =>
    obtain ⟨- | f, hctx⟩ := h
    · obtain ⟨before, ⟨⟩, hone⟩ := hctx
      obtain ⟨res, hres, ⟨⟩, hrest⟩ := returns_bind.mp hone
      have hguest : (guest (Guest.backupOneVM job runID p before)).Returns res :=
        returns_guest.mpr hres.of_interp
      refine ⟨none, before, (), returns_bind.mpr ⟨res, hguest, (), ?_⟩⟩
      cases res with
      | some err => exact hrest
      | none => exact ih hrest
    · exact ⟨some f, hctx⟩

/-- Every end of an attempt with its scripts is one of the attempt that knows of them only
what they reply. -/
theorem backupAttempt_returns (h : (backupAttempt sha256 lower s e j runID).Returns a) :
    (Execute.backupAttempt lower e j runID).Returns a := by
  obtain ⟨err | ⟨⟩, hopen⟩ := h
  · exact ⟨.error err, hopen⟩
  obtain ⟨⟨⟩, hrun⟩ := hopen
  obtain ⟨err, hjob, hend⟩ := returns_bind.mp hrun
  refine ⟨.ok (), (), returns_bind.mpr ⟨err, ?_, returns_exec.mp hend⟩⟩
  unfold backupJob at hjob
  unfold Execute.backupJob
  cases hkind : j.job.kind with
  | agent =>
    rw [hkind] at hjob
    exact hjob.of_interp
  | vm =>
    rw [hkind] at hjob
    obtain ⟨plans, hplan, hrest⟩ := returns_bind.mp hjob
    refine returns_bind.mpr ⟨plans, returns_exec.mp hplan, ?_⟩
    cases plans with
    | error err => exact hrest
    | ok plans =>
      obtain ⟨⟨⟩, hloop⟩ := hrest
      exact ⟨(), backupLoop_returns hloop⟩

end ProxBack.Sched.Scripts
