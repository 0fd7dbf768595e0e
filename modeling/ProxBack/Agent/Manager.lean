import ProxBack.Agent.Complete
import ProxBack.Engine.Session
import ProxBack.Lib.System

/-! The agent manager. Every critical section of `mu` is one step, and so is every
`select` of a waiter and every call of a handler that leaves the manager. A call of
`RunBackup` or `RunRestore` is an attempt, known by its number; `attempt`, `origin`,
`exit`, `sends`, `handed` and `accepted` are a history that no operation reads. -/
namespace ProxBack.Agent
open Lib Engine

inductive DispatchType where
  | backup
  | restore
  | update
deriving DecidableEq, Repr

structure Dispatch where
  runID : String
  type : DispatchType
deriving DecidableEq, Repr

structure Queued where
  dispatch : Dispatch
  attempt : Option Nat
deriving DecidableEq, Repr

structure Result where
  disks : List DiskManifest
  stats : Stats
  err : Option Err
  origin : Option Nat
deriving DecidableEq

inductive WaitErr where
  | ctx (f : Fault)
  | pickupTimeout
  | stalled (silent : Time)
deriving DecidableEq, Repr

/-- Where a call of `wait` is: its first `select`, the loop around the second, a branch
that is about to abandon the run, or back with its caller. -/
inductive Waiter where
  | awaiting (deadline : Time)
  | polling
  | abandoning (why : WaitErr)
  | received (res : Result)
  | gaveUp (why : WaitErr)
deriving DecidableEq

def Waiter.Returned : Waiter → Prop
  | .received _ | .gaveUp _ => True
  | _ => False

instance : DecidablePred Waiter.Returned := fun w =>
  match w with
  | .received _ | .gaveUp _ => inferInstanceAs (Decidable True)
  | .awaiting _ | .polling | .abandoning _ => inferInstanceAs (Decidable False)

/-- How an attempt left the active table: by `finish`, called in a handler, or by
`abandon`, called by a waiter. -/
inductive Exit where
  | finished (handler : Nat)
  | abandoned (waiter : Nat)
deriving DecidableEq, Repr

structure RunState where
  dispatch : Dispatch
  agentID : String
  sess : Option Session
  manifest : Bool
  done : Option Result
  closed : Bool
  picked : Bool
  progress : Time
  ctx : Option Fault
  waiter : Waiter
  sends : Nat
  exit : Option Exit
deriving DecidableEq

inductive Body where
  | chunk (size : Nat) (totalBytes : Int)
  | complete (disks : List DiskManifest)
  | fail (message : String)
  | stream
deriving DecidableEq

/-- A request of an agent. `origin` is the attempt whose dispatch it was working on. -/
structure Message where
  runID : String
  agentID : String
  body : Body
  origin : Option Nat
deriving DecidableEq

/-- Where a handler is. A number is the run state that `takeRun` gave it. -/
inductive Phase where
  | chunkTook (rs : Nat)
  | storing (rs : Nat)
  | recording (rs : Nat) (size uploaded : Nat)
  | emitting (rs : Nat) (uploaded : Nat) (snap : Snapshot)
  | noting (uploaded : Nat)
  | streamTook (rs : Nat)
  | streaming (rs : Nat)
  | completeTook (rs : Nat)
  | finishing (res : Result)
  | sending (rs : Nat) (res : Result)
  | answered (ans : Except Err Unit)
deriving DecidableEq

structure Handler where
  msg : Message
  phase : Phase
deriving DecidableEq

structure Handover where
  agentID : String
  attempt : Nat
  live : Bool
deriving DecidableEq, Repr

structure Acceptance where
  origin : Option Nat
  attempt : Nat
deriving DecidableEq, Repr

structure Manager where
  now : Time
  pending : String → List Queued
  active : FinMap String Nat
  runs : List RunState
  handlers : List Handler
  handed : List Handover
  accepted : List Acceptance

structure Config where
  pickupTimeout : Time
  stallTimeout : Time

namespace Manager

def initial (now : Time) : Manager :=
  { now, pending := fun _ => [], active := ∅, runs := [], handlers := [], handed := [],
    accepted := [] }

def modifyRun (m : Manager) (i : Nat) (f : RunState → RunState) : Manager :=
  { m with runs := m.runs.modify i f }

def setPhase (m : Manager) (h : Nat) (p : Phase) : Manager :=
  { m with handlers := m.handlers.modify h fun x => { x with phase := p } }

def setWaiter (m : Manager) (i : Nat) (w : Waiter) : Manager :=
  m.modifyRun i fun rs => { rs with waiter := w }

def accept (m : Manager) (msg : Message) (attempt : Nat) : Manager :=
  { m with accepted := m.accepted ++ [⟨msg.origin, attempt⟩] }

def enqueue (m : Manager) (agentID : String) (d : Dispatch) (rs : RunState) : Manager :=
  let n := m.runs.length
  { m with
    runs := m.runs ++ [{ rs with picked := false, progress := m.now }]
    active := m.active.insert d.runID n
    pending := Function.update m.pending agentID (m.pending agentID ++ [⟨d, some n⟩]) }

/-- `RunBackup` and `RunRestore`, up to the first `select` of `wait`. -/
def start (cfg : Config) (m : Manager) (agentID : String) (d : Dispatch) (sess : Option Session)
    (manifest : Bool) : Manager :=
  m.enqueue agentID d
    { dispatch := d, agentID, sess, manifest, done := none, closed := false, picked := false,
      progress := 0, ctx := none, waiter := .awaiting (m.now + cfg.pickupTimeout), sends := 0,
      exit := none }

def pickUp (m : Manager) (q : Queued) : Manager :=
  match m.active.lookup q.dispatch.runID with
  | some i => m.modifyRun i fun rs => { rs with picked := true, progress := m.now }
  | none => m

def handover (m : Manager) (agentID : String) (q : Queued) : Option Handover :=
  q.attempt.map fun i => ⟨agentID, i, m.active.lookup q.dispatch.runID = some i⟩

/-- `Heartbeat`, once the heartbeat is recorded: the whole queue goes out. -/
def heartbeat (m : Manager) (agentID : String) : Manager :=
  let q := m.pending agentID
  let m' := q.foldl pickUp { m with pending := Function.update m.pending agentID [] }
  { m' with handed := m.handed ++ q.filterMap (m.handover agentID) }

def busyLocked (m : Manager) (agentID : String) : Bool :=
  m.active.entries.any fun e =>
    match m.runs[e.2]? with
    | some rs => rs.agentID = agentID ∧ rs.closed = false
    | none => false

def queueUpdate (m : Manager) (agentID : String) (d : Dispatch) : Except Err Manager :=
  if m.busyLocked agentID then .error .agentBusy
  else
    let kept := (m.pending agentID).filter fun q => q.dispatch.type ≠ .update
    .ok { m with
      pending := Function.update m.pending agentID
        (kept ++ [⟨{ d with type := .update }, none⟩]) }

def takeRun (m : Manager) (runID agentID : String) : Except Err Nat :=
  match m.active.lookup runID with
  | none => .error .unknownRun
  | some i =>
    match m.runs[i]? with
    | none => .error .unknownRun
    | some rs => if rs.agentID ≠ agentID then .error .unauthorized else .ok i

def noteProgress (m : Manager) (msg : Message) : Manager :=
  match m.active.lookup msg.runID with
  | some i => (m.modifyRun i fun rs => { rs with progress := m.now }).accept msg i
  | none => m

def sinceProgress (m : Manager) (runID : String) : Option Time :=
  match m.active.lookup runID with
  | some i => m.runs[i]?.map fun rs => m.now - rs.progress
  | none => none

def close (m : Manager) (runID : String) (i : Nat) (exit : Exit) : Manager :=
  { m with active := m.active.erase runID }.modifyRun i fun rs =>
    { rs with closed := true, exit := some exit }

/-- The critical section of `finish`; the result is still to be sent. -/
def finish (m : Manager) (h : Nat) (msg : Message) (res : Result) : Manager :=
  match m.active.lookup msg.runID with
  | none => m.setPhase h (.answered (.ok ()))
  | some i =>
    match m.runs[i]? with
    | none => m.setPhase h (.answered (.ok ()))
    | some rs =>
      if rs.closed then m.setPhase h (.answered (.ok ()))
      else ((m.close msg.runID i (.finished h)).accept msg i).setPhase h (.sending i res)

def abandon (m : Manager) (runID : String) (waiter : Nat) : Manager :=
  match m.active.lookup runID with
  | some i => m.close runID i (.abandoned waiter)
  | none => m

end Manager

end ProxBack.Agent
