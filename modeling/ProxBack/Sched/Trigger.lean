import ProxBack.Sched.RunRows
import ProxBack.Store.Backups
import ProxBack.Store.Clock

/-! The requests that start backup runs: by an operator, by a schedule, or to run again the
job of an earlier run. Each is several statements of the database, and the requests, the
runs they start and everything else the server does interleave. -/
namespace ProxBack.Sched.Trigger
open Lib
open Engine (Time Fault)
open Store (BackupWindow JobRun)

inductive Origin where
  | manual
  | scheduled
deriving DecidableEq, Repr

inductive Err where
  | store (err : Store.Err)
  | outsideWindow (name note : String)
  | alreadyRunning
  | noJob
deriving DecidableEq

structure JobInfo where
  name : String
  window : Option BackupWindow
deriving DecidableEq, Repr

def windowCheck (window : Option BackupWindow) (origin : Origin) (now : Nat) : Bool × String :=
  match window with
  | none => (true, "")
  | some w =>
    if w.contains now then (true, "")
    else if origin = .manual then
      (true, "started outside the backup window (" ++ w.text ++ ") — a manual run is always allowed")
    else (false, "outside the backup window (" ++ w.text ++ ")")

/-- The statement a request makes next. `c` is its call in the scheduler, which is made once
the job was found not to be running. -/
inductive Phase where
  | retrying (runID : String)
  | loading (jobID : String) (origin : Origin)
  | checking (jobID : String)
  | creating (jobID : String) (c : Nat)
  | launching (runID : String) (c : Nat)
  | answered (res : Except Err String)
deriving DecidableEq

/-- `found` is whether the request found its job running; no operation reads it. -/
structure Request where
  phase : Phase
  found : Bool
deriving DecidableEq

/-- `jobOf` is the column `job_id` of the runs; restores and verifications have none. -/
structure State where
  srv : RunRows.State
  jobs : FinMap String JobInfo
  jobOf : FinMap String String
  requests : List Request

inductive Action where
  | triggerJob (jobID : String)
  | triggerScheduledJob (jobID : String)
  | retryRun (runID : String)
  | runByID (i : Nat) (fault : Option Fault)
  | jobByID (i : Nat) (fault : Option Fault) (now : Nat)
  | hasRunningRun (i : Nat) (fault : Option Fault)
  | createRun (i : Nat) (res : Except Fault String)
  | launch (i : Nat)
  | saveJob (jobID : String) (job : JobInfo)
  | deleteJob (jobID : String)
  | server (a : RunRows.Action)

namespace State

def initial (now : Time) : State := { srv := .initial now, jobs := ∅, jobOf := ∅, requests := [] }

/-- The column `job_id` of a run. -/
def jobID (w : State) (runID : String) : String := (w.jobOf.lookup runID).getD ""

def running (w : State) (jobID runID : String) : Bool :=
  match w.srv.rows.lookup runID with
  | none => false
  | some row => row.status = .running ∧ w.jobID runID = jobID

def hasRunningRun (w : State) (jobID : String) : Bool := w.srv.rows.keys.any (w.running jobID)

def set (w : State) (i : Nat) (q : Request) : State := { w with requests := w.requests.set i q }

def request (w : State) (phase : Phase) : State :=
  { w with requests := w.requests ++ [⟨phase, false⟩] }

def answer (w : State) (i : Nat) (res : Except Err String) : State :=
  w.set i ⟨.answered res, false⟩

def owns (w : State) (c : Nat) : Bool :=
  w.requests.any fun q =>
    match q.phase with
    | .creating _ c' | .launching _ c' => c' = c
    | _ => false

/-- What the server does beside the requests: the steps of their own calls are theirs, and
the other runs that it creates are not backups. -/
def beside (w : State) : RunRows.Action → Bool
  | .life (.create c _) st => ¬ w.owns c ∧ st.kind ≠ .backup
  | .life (.launch c) _ => ¬ w.owns c
  | _ => true

def made (a : Lifecycle.Action) : RunRows.Action := .life a ⟨true, 0, .backup⟩

def storeErr (op : String) (f : Fault) : Except Err String := .error (.store (.failed op f))

def advance (cfg : Agent.Config) (w : State) (i : Nat) (q : Request) : Action → Option State
  | .runByID _ fault =>
    match q.phase, fault with
    | .retrying _, some f => some (w.answer i (storeErr "scan job run" f))
    | .retrying runID, none =>
      match w.srv.rows.lookup runID with
      | none => some (w.answer i (.error (.store .notFound)))
      | some _ =>
        if w.jobID runID = "" then some (w.answer i (.error .noJob))
        else some (w.set i ⟨.loading (w.jobID runID) .manual, false⟩)
    | _, _ => none
  | .jobByID _ fault now =>
    match q.phase, fault with
    | .loading _ _, some f => some (w.answer i (storeErr "scan job" f))
    | .loading jobID origin, none =>
      match w.jobs.lookup jobID with
      | none => some (w.answer i (.error (.store .notFound)))
      | some job =>
        match windowCheck job.window origin now with
        | (false, note) => some (w.answer i (.error (.outsideWindow job.name note)))
        | (true, _) => some (w.set i ⟨.checking jobID, false⟩)
    | _, _ => none
  | .hasRunningRun _ fault =>
    match q.phase, fault with
    | .checking _, some f => some (w.answer i (storeErr "check running run" f))
    | .checking jobID, none =>
      if w.hasRunningRun jobID then some (w.set i ⟨.answered (.error .alreadyRunning), true⟩)
      else
        (w.srv.step cfg (made .trigger)).map fun srv =>
          { w with srv }.set i ⟨.creating jobID w.srv.life.calls.length, false⟩
    | _, _ => none
  | .createRun _ res =>
    match q.phase, res with
    | .creating _ c, .error f =>
      (w.srv.step cfg (made (.create c none))).map fun srv =>
        { w with srv }.answer i (storeErr "create job run" f)
    | .creating jobID c, .ok runID =>
      (w.srv.step cfg (made (.create c (some runID)))).map fun srv =>
        { w with srv, jobOf := w.jobOf.insert runID jobID }.set i ⟨.launching runID c, false⟩
    | _, _ => none
  | .launch _ =>
    match q.phase with
    | .launching runID c =>
      (w.srv.step cfg (made (.launch c))).map fun srv => { w with srv }.answer i (.ok runID)
    | _ => none
  | _ => none

def step (cfg : Agent.Config) (a : Action) (w : State) : Option State :=
  match a with
  | .triggerJob jobID => some (w.request (.loading jobID .manual))
  | .triggerScheduledJob jobID => some (w.request (.loading jobID .scheduled))
  | .retryRun runID => some (w.request (.retrying runID))
  | .saveJob jobID job =>
    -- a job without an id is given one
    if jobID = "" then none else some { w with jobs := w.jobs.insert jobID job }
  | .deleteJob jobID => some { w with jobs := w.jobs.erase jobID }
  | .server a =>
    if w.beside a then
      (w.srv.step cfg a).map fun srv =>
        { w with
          srv
          requests := match a with
            | .restart _ => []
            | _ => w.requests }
    else none
  | .runByID i _ | .jobByID i _ _ | .hasRunningRun i _ | .createRun i _ | .launch i =>
    match w.requests[i]? with
    | none => none
    | some q => w.advance cfg i q a

end State

def system (cfg : Agent.Config) : System State Action := ⟨State.step cfg⟩

end ProxBack.Sched.Trigger
