import ProxBack.Sched.Gate
import ProxBack.Store.Runs

/-! The life of a run in the scheduler: the calls that create it, the goroutine `launch`
starts for it with its deferred calls, cancellation and shutdown. Every critical section
of `mu` is one step, and so is every statement of the database and every call of the gate.
The counters of a launch are a history that no operation reads. -/
namespace ProxBack.Sched
open Lib
open Engine (Stats)
open Store (JobRun RunKind Verdict)

/-- The error a run's body returns: its text, and whether it is `context.Canceled`. -/
structure RunErr where
  canceled : Bool
  text : String
deriving DecidableEq, Repr

structure Outcome where
  stats : Option Stats
  err : Option RunErr
deriving DecidableEq

def contextCanceled : RunErr := ⟨true, "context canceled"⟩

namespace Lifecycle

inductive CallPhase where
  | creating
  | releasing
  | recording
  | launching
  | refused
  | launched (k : Nat)
deriving DecidableEq, Repr

/-- A call of `Verify`, with the backup it is about, or of one of the other triggers. -/
structure Call where
  backup : Option String
  run : Option String
  phase : CallPhase
deriving DecidableEq, Repr

/-- Where the goroutine of a run is. From `loading` to `writing` it is inside `finish`;
from `releasing` on it is in its deferred calls. -/
inductive Phase where
  | registered
  | spawned
  | acquiring (call : Nat)
  | givingBack (call : Nat)
  | starting
  | running
  | ended (out : Outcome)
  | loading (out : Outcome)
  | closing (v : Verdict)
  | writing (v : Verdict) (pct : ℚ)
  | releasing
  | unlisting
  | announcing
  | canceling
  | exiting
  | done
deriving DecidableEq

/-- `slot` is the call of `Acquire` that returned nil, if one did: `Release` is then among
the deferred calls. -/
structure Launch where
  runID : String
  onDone : Option String
  caller : Nat
  phase : Phase
  slot : Option Nat
  finishes : Nat
  releases : Nat
  dones : Nat
deriving DecidableEq

/-- `firing` are the cancel functions that `Cancel` has looked up and not called yet. -/
structure State where
  gate : Gate.State
  stopped : Bool
  created : List String
  cancels : FinMap String Nat
  monitors : FinMap String Nat
  verifying : FinMap String String
  calls : List Call
  launches : List Launch
  firing : List Nat

inductive Action where
  | trigger
  | verify (backupID : String)
  | create (c : Nat) (runID : Option String)
  | release (c : Nat)
  | record (c : Nat)
  | launch (c : Nat)
  | spawn (k : Nat)
  | acquire (k : Nat)
  | receive (k : Nat)
  | abort (k : Nat)
  | giveBack (k : Nat)
  | start (k : Nat)
  | returns (k : Nat) (out : Outcome)
  | panics (k : Nat) (text : String)
  | finish (k : Nat)
  | load (k : Nat) (cur : Option JobRun)
  | readPct (k : Nat) (pct : ℚ)
  | write (k : Nat)
  | unwind (k : Nat)
  | cancel (runID : String)
  | fire (k : Nat)
  | stop
  | setConcurrency (n : Int)

def Action.goroutine : Action → Option Nat
  | .spawn k | .acquire k | .receive k | .abort k | .giveBack k | .start k | .returns k _
  | .panics k _ | .finish k | .load k _ | .readPct k _ | .write k | .unwind k => some k
  | _ => none

def defaultConcurrency : Int := 2

def maxConcurrency : Int := 64

def clamp (n : Int) : Int :=
  let n := if n ≤ 0 then defaultConcurrency else n
  if n > maxConcurrency then maxConcurrency else n

/-- What `finish` makes of the row and the outcome. -/
def verdict (cur : JobRun) (out : Outcome) : Verdict :=
  let processed := match out.stats with
    | none => cur.bytesProcessed
    | some st => st.bytesProcessed
  let uploaded := match out.stats with
    | none => cur.bytesUploaded
    | some st => st.bytesUploaded
  let dedupRatio :=
    if cur.kind = .restore ∨ cur.kind = .verify then 0
    else Store.reductionPct processed uploaded / 100
  match out.err with
  | none => { status := .success, processed, uploaded, dedupRatio, error := "" }
  | some err =>
    if err.canceled then { status := .canceled, processed, uploaded, dedupRatio, error := "canceled" }
    else { status := .failed, processed, uploaded, dedupRatio, error := err.text }

namespace State

def initial : State :=
  { gate := .initial defaultConcurrency, stopped := false, created := [], cancels := ∅,
    monitors := ∅, verifying := ∅, calls := [], launches := [], firing := [] }

def setCall (s : State) (c : Nat) (call : Call) : State := { s with calls := s.calls.set c call }

def setLaunch (s : State) (k : Nat) (l : Launch) : State :=
  { s with launches := s.launches.set k l }

section
variable (s : State) (k : Nat) (l : Launch)

@[simp] theorem gate_setLaunch : (s.setLaunch k l).gate = s.gate := rfl
@[simp] theorem created_setLaunch : (s.setLaunch k l).created = s.created := rfl
@[simp] theorem cancels_setLaunch : (s.setLaunch k l).cancels = s.cancels := rfl
@[simp] theorem monitors_setLaunch : (s.setLaunch k l).monitors = s.monitors := rfl
@[simp] theorem verifying_setLaunch : (s.setLaunch k l).verifying = s.verifying := rfl
@[simp] theorem calls_setLaunch : (s.setLaunch k l).calls = s.calls := rfl

end

/-- A call of the gate made by the goroutine of launch `k`. -/
def gateCall (s : State) (a : Gate.Action) (k : Nat) (f : Gate.State → Launch) : Option State :=
  (Gate.State.step a s.gate).map fun g => { s with gate := g }.setLaunch k (f g)

/-- The first critical section of `Verify`. -/
def verify (s : State) (backupID : String) : State :=
  match s.verifying.lookup backupID with
  | some _ => { s with calls := s.calls ++ [⟨some backupID, none, .refused⟩] }
  | none =>
    { s with
      verifying := s.verifying.insert backupID ""
      calls := s.calls ++ [⟨some backupID, none, .creating⟩] }

/-- `CreateRun`: the id of a row is its primary key. -/
def create (s : State) (c : Nat) (call : Call) : Option String → Option State
  | none =>
    some (s.setCall c { call with
      phase := if call.backup.isSome then .releasing else .refused })
  | some runID =>
    if runID ∈ s.created then none
    else
      let phase := if call.backup.isSome then .recording else .launching
      some ({ s with created := runID :: s.created }.setCall c { call with run := some runID, phase })

/-- `launch`, up to the start of its goroutine. -/
def launch (s : State) (c : Nat) (call : Call) (runID : String) : State :=
  let k := s.launches.length
  let l : Launch :=
    { runID, onDone := call.backup, caller := c, phase := .registered, slot := none, finishes := 0,
      releases := 0, dones := 0 }
  -- a context derived from one that has ended has ended too
  let gate := if s.stopped then { s.gate with done := k :: s.gate.done } else s.gate
  { s with
    gate
    cancels := s.cancels.insert runID k
    monitors := s.monitors.insert runID k
    calls := s.calls.set c { call with phase := .launched k }
    launches := s.launches ++ [l] }

def stepCall (s : State) (c : Nat) (call : Call) : Action → Option State
  | .create _ runID => if call.phase = .creating then s.create c call runID else none
  | .release _ =>
    if call.phase = .releasing then
      call.backup.map fun b =>
        { s with verifying := s.verifying.erase b }.setCall c { call with phase := .refused }
    else none
  | .record _ =>
    match call.phase, call.backup, call.run with
    | .recording, some b, some runID =>
      some ({ s with verifying := s.verifying.insert b runID }.setCall c
        { call with phase := .launching })
    | _, _, _ => none
  | .launch _ => if call.phase = .launching then call.run.map (s.launch c call) else none
  | _ => none

/-- Where the goroutine goes on when `finish` returns. -/
def afterFinish (l : Launch) : Phase := if l.slot.isSome then .releasing else .unlisting

def unwind (s : State) (k : Nat) (l : Launch) : Option State :=
  match l.phase, l.slot with
  | .releasing, some i =>
    s.gateCall (.release i) k fun _ => { l with phase := .unlisting, releases := l.releases + 1 }
  | .unlisting, _ =>
    some ({ s with cancels := s.cancels.erase l.runID }.setLaunch k
      { l with phase := .announcing })
  | .announcing, _ =>
    match l.onDone with
    | none => some (s.setLaunch k { l with phase := .canceling })
    | some b =>
      some ({ s with verifying := s.verifying.erase b }.setLaunch k
        { l with phase := .canceling, dones := l.dones + 1 })
  | .canceling, _ =>
    some ({ s with gate := { s.gate with done := k :: s.gate.done } }.setLaunch k
      { l with phase := .exiting })
  | .exiting, _ => some (s.setLaunch k { l with phase := .done })
  | _, _ => none

def stepLaunch (s : State) (k : Nat) (l : Launch) : Action → Option State
  | .spawn _ => if l.phase = .registered then some (s.setLaunch k { l with phase := .spawned }) else none
  | .acquire _ =>
    if l.phase = .spawned then
      s.gateCall (.acquire k) k fun g =>
        let i := s.gate.callers.length
        if g.phaseOf i = some .holding then { l with phase := .starting, slot := some i }
        else { l with phase := .acquiring i }
    else none
  | .receive _ =>
    match l.phase with
    | .acquiring i => s.gateCall (.receive i) k fun _ => { l with phase := .starting, slot := some i }
    | _ => none
  | .abort _ =>
    match l.phase with
    | .acquiring i =>
      s.gateCall (.abort i) k fun g =>
        if g.phaseOf i = some .givingBack then { l with phase := .givingBack i }
        else { l with phase := .ended ⟨none, some contextCanceled⟩ }
    | _ => none
  | .giveBack _ =>
    match l.phase with
    | .givingBack i =>
      s.gateCall (.giveBack i) k fun _ => { l with phase := .ended ⟨none, some contextCanceled⟩ }
    | _ => none
  | .start _ => if l.phase = .starting then some (s.setLaunch k { l with phase := .running }) else none
  | .returns _ out =>
    if l.phase = .running then some (s.setLaunch k { l with phase := .ended out }) else none
  | .panics _ text =>
    if l.phase = .running then
      some (s.setLaunch k { l with phase := .ended ⟨none, some ⟨false, "internal error: " ++ text⟩⟩ })
    else none
  | .finish _ =>
    match l.phase with
    | .ended out =>
      some ({ s with monitors := s.monitors.erase l.runID }.setLaunch k
        { l with phase := .loading out, finishes := l.finishes + 1 })
    | _ => none
  | .load _ cur =>
    match l.phase, cur with
    | .loading _, none => some (s.setLaunch k { l with phase := afterFinish l })
    | .loading out, some cur =>
      let v := verdict cur out
      let phase := if v.status = .success then .writing v 100 else .closing v
      some (s.setLaunch k { l with phase })
    | _, _ => none
  | .readPct _ pct =>
    match l.phase with
    | .closing v => some (s.setLaunch k { l with phase := .writing v pct })
    | _ => none
  | .write _ =>
    match l.phase with
    | .writing _ _ => some (s.setLaunch k { l with phase := afterFinish l })
    | _ => none
  | .unwind _ => s.unwind k l
  | _ => none

/-- `Cancel`, and the calls it looks up. -/
def cancel (s : State) (runID : String) : State :=
  match s.cancels.lookup runID with
  | none => s
  | some k => { s with firing := k :: s.firing }

/-- `Stop`: the base context ends, and every run's context with it. -/
def stop (s : State) : State :=
  { s with
    stopped := true
    gate := { s.gate with done := List.range s.launches.length ++ s.gate.done } }

def step (a : Action) (s : State) : Option State :=
  match a with
  | .trigger => some { s with calls := s.calls ++ [⟨none, none, .creating⟩] }
  | .verify backupID => some (s.verify backupID)
  | .cancel runID => some (s.cancel runID)
  | .fire k =>
    if k ∈ s.firing then
      some { s with
        firing := s.firing.erase k
        gate := { s.gate with done := k :: s.gate.done } }
    else none
  | .stop => some s.stop
  | .setConcurrency n => some { s with gate := s.gate.wake (Gate.setLimit (clamp n)) }
  | .create c _ | .release c | .record c | .launch c =>
    match s.calls[c]? with
    | none => none
    | some call => s.stepCall c call a
  | .spawn k | .acquire k | .receive k | .abort k | .giveBack k | .start k | .returns k _
  | .panics k _ | .finish k | .load k _ | .readPct k _ | .write k | .unwind k =>
    match s.launches[k]? with
    | none => none
    | some l => s.stepLaunch k l a

end State

def system : System State Action := ⟨State.step⟩

end Lifecycle

end ProxBack.Sched
