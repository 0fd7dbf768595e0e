import ProxBack.Sched.Lifecycle
import ProxBack.Agent.Effects

/-! The rows of the runs with all that writes them: the scheduler, the goroutines of the
bodies with their progress callbacks, the handlers of the agents' requests, an operator who
deletes, and a restart of the server. Every statement may fail. -/
namespace ProxBack.Sched
open Lib
open Agent (Manager Handler)
open Engine (Time Snapshot)
open Store (RunTable JobRun RunKind)

namespace RunRows

/-- A goroutine of a run's body inside a call of the run's session, with the snapshot it
has taken and not written yet. -/
structure Worker where
  launch : Nat
  snap : Option Snapshot
deriving DecidableEq

structure State where
  life : Lifecycle.State
  ex : Manager
  rows : RunTable
  workers : List Worker

/-- What the database makes of a statement: whether it takes effect, the time it writes and
the kind a new row gets. -/
structure Statement where
  ok : Bool
  now : Time
  kind : RunKind

inductive Action where
  | life (a : Lifecycle.Action) (st : Statement)
  | agent (a : Agent.Action) (ok : Bool)
  | enter (k : Nat)
  | snapshot (i : Nat) (snap : Snapshot)
  | emit (i : Nat) (ok : Bool)
  | leave (i : Nat)
  | delete (runID : String)
  | restart (now : Time)

namespace State

def initial (now : Time) : State :=
  { life := .initial, ex := .initial now, rows := ∅, workers := [] }

def runOf (w : State) (k : Nat) : Option String := w.life.launches[k]?.map Lifecycle.Launch.runID

def runs (w : State) (runID : String) : Bool :=
  w.life.launches.any fun l => l.runID = runID ∧ l.phase = .running

def returned (w : State) (k : Nat) : Bool :=
  match w.runOf k with
  | none => true
  | some r => w.ex.Free r

/-- What a step of the scheduler finds: a body returns when its goroutines are joined;
`RunByID` and the first statement of `FinishRun` answer with what is in the table, or fail.
A body that panics joins nothing. -/
def allows (w : State) : Lifecycle.Action → Bool
  | .returns k _ => (w.workers.all fun x => x.launch ≠ k) ∧ w.returned k
  | .panics k _ => w.returned k
  | .load k cur => cur = none ∨ cur = (w.runOf k).bind w.rows.lookup
  | .readPct k pct => pct = 0 ∨ some pct = (w.runOf k).map w.rows.progressPct
  | _ => true

def written (w : State) (st : Statement) : Lifecycle.Action → RunTable
  | .create _ (some r) => w.rows.createRun r st.kind
  | .start k =>
    match w.runOf k with
    | none => w.rows
    | some r => if st.ok then w.rows.setRunStep r "Starting" else w.rows
  | .write k =>
    match w.life.launches[k]? with
    | none => w.rows
    | some l =>
      match l.phase with
      | .writing v pct => if st.ok then w.rows.finishRun l.runID v pct st.now else w.rows
      | _ => w.rows
  | _ => w.rows

def reported (w : State) : Agent.Action → Option (String × Snapshot)
  | .handle h .silent =>
    match w.ex.handlers[h]? with
    | some ⟨_, .emitting rs _ snap⟩ => w.ex.runs[rs]?.map fun x => (x.dispatch.runID, snap)
    | _ => none
  | _ => none

def sends (w : State) : Agent.Action → Bool
  | .start _ d _ _ => w.runs d.runID
  | _ => true

def progress (w : State) (ok : Bool) : Option (String × Snapshot) → RunTable
  | none => w.rows
  | some (runID, snap) => if ok then w.rows.updateRunProgress runID snap else w.rows

def step (cfg : Agent.Config) (a : Action) (w : State) : Option State :=
  match a with
  | .life a st =>
    if w.allows a then
      (Lifecycle.State.step a w.life).map fun life => { w with life, rows := w.written st a }
    else none
  | .agent a ok =>
    if w.sends a then
      (w.ex.step cfg a).map fun ex => { w with ex, rows := w.progress ok (w.reported a) }
    else none
  | .enter k =>
    match w.life.launches[k]? with
    | none => none
    | some l =>
      if l.phase = .running then some { w with workers := w.workers ++ [⟨k, none⟩] } else none
  | .snapshot i snap =>
    match w.workers[i]? with
    | some ⟨k, none⟩ => some { w with workers := w.workers.set i ⟨k, some snap⟩ }
    | _ => none
  | .emit i ok =>
    match w.workers[i]? with
    | some ⟨k, some snap⟩ =>
      some { w with
        workers := w.workers.set i ⟨k, none⟩
        rows := w.progress ok ((w.runOf k).map fun r => (r, snap)) }
    | _ => none
  | .leave i =>
    match w.workers[i]? with
    | some ⟨_, none⟩ => some { w with workers := w.workers.eraseIdx i }
    | _ => none
  | .delete runID => some { w with rows := w.rows.deleteJobRun runID }
  | .restart now =>
    some
      { life := { Lifecycle.State.initial with created := w.life.created }
        ex := .initial now
        rows := w.rows.markOrphanRunsFailed now
        workers := [] }

end State

def system (cfg : Agent.Config) : System State Action := ⟨State.step cfg⟩

end RunRows

end ProxBack.Sched
