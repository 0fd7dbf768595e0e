import ProxBack.Agent.Manager

/-! The agent manager as a system: attempts that wait, agents that poll, and handlers of
their requests, in any interleaving. -/
namespace ProxBack.Agent
open Lib Engine

/-- The branches of a waiter's `select`s, and the call of `abandon` behind three of them. -/
inductive Branch where
  | done
  | ctxDone
  | pickup
  | picked
  | tick
  | abandon
deriving DecidableEq, Repr

inductive Reply where
  | silent
  | stored (uploaded : Except Engine.Err Nat)
  | checked (answers : List (Except Engine.Err Bool))
  | wrote (size : Nat)
  | ended (err : Option Engine.Err)
deriving DecidableEq

inductive Action where
  | start (agentID : String) (d : Dispatch) (sess : Option Session) (manifest : Bool)
  | cancel (i : Nat) (f : Fault)
  | elapse (d : Nat)
  | heartbeat (agentID : String)
  | queueUpdate (agentID : String) (d : Dispatch)
  | wait (i : Nat) (b : Branch)
  | request (msg : Message)
  | handle (h : Nat) (r : Reply)

/-- The answers `HasChunk` gives to one call of `Complete`, one after the other. -/
def nextAnswer (_ : Sha) : StateM (List (Except Engine.Err Bool)) (Except Engine.Err Bool)
  | [] => (.error (.fault .canceled), [])
  | ans :: rest => (ans, rest)

namespace Manager

/-- The start of a handler: `takeRun`, then on to the handler's own work. -/
def request (m : Manager) (msg : Message) : Manager :=
  let phase := match m.takeRun msg.runID msg.agentID with
    | .error err => .answered (.error err)
    | .ok rs =>
      match msg.body with
      | .chunk _ _ => .chunkTook rs
      | .complete _ => .completeTook rs
      | .fail message =>
        let message := if message = "" then "agent reported failure" else message
        .finishing ⟨[], .zero, some (.agentFailed message), msg.origin⟩
      | .stream => .streamTook rs
  { m with handlers := m.handlers ++ [⟨msg, phase⟩] }

def typeOf (m : Manager) (i : Nat) : Option DispatchType :=
  m.runs[i]?.map fun rs => rs.dispatch.type

def statsOf (m : Manager) (i : Nat) : Stats :=
  match m.runs[i]?.bind RunState.sess with
  | none => .zero
  | some sess => sess.stats

/-- `SetTotal`, when the agent sent a total. -/
def setTotal (m : Manager) (i : Nat) (totalBytes : Int) : Manager :=
  if totalBytes > 0 then
    m.modifyRun i fun rs => { rs with sess := rs.sess.map fun sess => sess.setTotal totalBytes }
  else m

def afterRecord (msg : Message) (rs uploaded : Nat) : Phase :=
  match msg.body with
  | .stream => .streaming rs
  | _ => .noting uploaded

/-- `RecordChunk`: count the chunk and, now and then, report. -/
def record (m : Manager) (h : Nat) (msg : Message) (rs size uploaded : Nat) : Manager :=
  match m.runs[rs]?.bind RunState.sess with
  | none => m.setPhase h (afterRecord msg rs uploaded)
  | some sess =>
    let recorded := sess.record size uploaded m.now
    let m := m.modifyRun rs fun x => { x with sess := some recorded.1 }
    match recorded.2 with
    | none => m.setPhase h (afterRecord msg rs uploaded)
    | some snap => m.setPhase h (.emitting rs uploaded snap)

/-- `Complete`, between `takeRun` and `finish`. -/
def completed (m : Manager) (msg : Message) (rs : Nat)
    (answers : List (Except Engine.Err Bool)) : Phase :=
  if m.typeOf rs = some .restore then .finishing ⟨[], m.statsOf rs, none, msg.origin⟩
  else
    match msg.body with
    | .complete disks =>
      match (complete nextAnswer msg.runID disks answers).1 with
      | .error err => .answered (.error err)
      | .ok disks => .finishing ⟨disks, m.statsOf rs, none, msg.origin⟩
    | _ => .answered (.ok ())

def handle (m : Manager) (h : Nat) (r : Reply) : Option Manager :=
  match m.handlers[h]? with
  | none => none
  | some ⟨msg, phase⟩ =>
    match phase, r with
    | .chunkTook rs, .silent =>
      if m.typeOf rs ≠ some .backup then
        some (m.setPhase h (.answered (.error (.notBackupRun msg.runID))))
      else
        match msg.body with
        | .chunk _ totalBytes =>
          some (((m.setTotal rs totalBytes).accept msg rs).setPhase h (.storing rs))
        | _ => none
    | .storing rs, .stored uploaded =>
      match uploaded, msg.body with
      | .error err, _ => some (m.setPhase h (.answered (.error (.engine err))))
      | .ok n, .chunk size _ => some (m.setPhase h (.recording rs size n))
      | .ok _, _ => none
    | .recording rs size uploaded, .silent => some (m.record h msg rs size uploaded)
    | .emitting rs uploaded _, .silent => some (m.setPhase h (afterRecord msg rs uploaded))
    | .noting _, .silent => some ((m.noteProgress msg).setPhase h (.answered (.ok ())))
    | .streamTook rs, .silent =>
      if m.typeOf rs = some .restore ∧ (m.runs[rs]?.any RunState.manifest) then
        some (m.setPhase h (.streaming rs))
      else some (m.setPhase h (.answered (.error (.notRestoreRun msg.runID))))
    | .streaming rs, .wrote size =>
      some ((if size > 0 then m.noteProgress msg else m).setPhase h (.recording rs size 0))
    | .streaming _, .ended none => some (m.setPhase h (.answered (.ok ())))
    | .streaming _, .ended (some err) => some (m.setPhase h (.answered (.error (.engine err))))
    | .completeTook rs, .checked answers => some (m.setPhase h (m.completed msg rs answers))
    | .finishing res, .silent => some (m.finish h msg res)
    | .sending rs res, .silent =>
      -- the channel has room for one result
      match m.runs[rs]?.bind RunState.done with
      | none =>
        some ((m.modifyRun rs fun x => { x with done := some res, sends := x.sends + 1 }).setPhase h
          (.answered (.ok ())))
      | some _ => none
    | _, _ => none

/-- One step of the waiter of attempt `i`. -/
def wait (cfg : Config) (m : Manager) (i : Nat) (b : Branch) : Option Manager :=
  match m.runs[i]? with
  | none => none
  | some rs =>
    match rs.waiter, b with
    | .awaiting _, .done | .polling, .done =>
      rs.done.map fun res => m.modifyRun i fun x => { x with done := none, waiter := .received res }
    | .awaiting _, .ctxDone | .polling, .ctxDone =>
      rs.ctx.map fun f => m.setWaiter i (.abandoning (.ctx f))
    | .awaiting deadline, .pickup =>
      if deadline ≤ m.now then some (m.setWaiter i (.abandoning .pickupTimeout)) else none
    | .awaiting _, .picked => if rs.picked then some (m.setWaiter i .polling) else none
    | .polling, .tick =>
      match m.sinceProgress rs.dispatch.runID with
      | none => some m
      | some silent =>
        if silent ≥ cfg.stallTimeout then some (m.setWaiter i (.abandoning (.stalled silent)))
        else some m
    | .abandoning why, .abandon =>
      some ((m.abandon rs.dispatch.runID i).setWaiter i (.gaveUp why))
    | _, _ => none

/-- An attempt of a run begins when every earlier one has returned: the attempts of a run
are made one after the other by the goroutine of the run. -/
def Free (m : Manager) (runID : String) : Prop :=
  ∀ rs ∈ m.runs, rs.dispatch.runID = runID → rs.waiter.Returned

instance (m : Manager) (runID : String) : Decidable (m.Free runID) :=
  inferInstanceAs (Decidable (∀ rs ∈ m.runs, _))

def step (cfg : Config) : Action → Manager → Option Manager
  | .start agentID d sess manifest, m =>
    if d.type ≠ .update ∧ m.Free d.runID then some (m.start cfg agentID d sess manifest) else none
  | .cancel i f, m => some (m.modifyRun i fun rs => { rs with ctx := some f })
  | .elapse d, m => some { m with now := m.now + d }
  | .heartbeat agentID, m => some (m.heartbeat agentID)
  | .queueUpdate agentID d, m =>
    match m.queueUpdate agentID d with
    | .error _ => some m
    | .ok m => some m
  | .wait i b, m => m.wait cfg i b
  | .request msg, m => some (m.request msg)
  | .handle h r, m => m.handle h r

end Manager

def exchange (cfg : Config) : System Manager Action := ⟨Manager.step cfg⟩

end ProxBack.Agent
