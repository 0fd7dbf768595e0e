import ProxBack.Agent.Exchange

/-! What one step of the exchange can do, said once. Each step is one of the operations
of the manager, a waiter's move, or a handler's; what a state knows of an attempt apart
from its progress is its core. -/
namespace ProxBack.Agent
open Lib Engine

def Phase.held : Phase → Option Nat
  | .chunkTook rs | .storing rs | .recording rs _ _ | .emitting rs _ _ | .streamTook rs
  | .streaming rs | .completeTook rs => some rs
  | .noting _ | .finishing _ | .sending _ _ | .answered _ => none

def Body.Ends : Body → Prop
  | .complete _ | .fail _ => True
  | .chunk _ _ | .stream => False

/-- What a handler's phase says about its request, when `O` are the attempts that belong
to it. -/
def Phase.Fits (O : Nat → Prop) (msg : Message) : Phase → Prop
  | .chunkTook rs | .storing rs | .recording rs _ _ | .emitting rs _ _ | .streamTook rs
  | .streaming rs => O rs ∧ ¬ msg.body.Ends
  | .completeTook rs => O rs ∧ ∃ disks, msg.body = .complete disks
  | .finishing res => (∃ rs, O rs) ∧ msg.body.Ends ∧ res.origin = msg.origin
  | .sending _ res => (∃ rs, O rs) ∧ msg.body.Ends ∧ res.origin = msg.origin
  | .noting _ => (∃ rs, O rs) ∧ ¬ msg.body.Ends
  | .answered _ => True

theorem Body.ends_complete {b : Body} (h : ∃ disks, b = .complete disks) : b.Ends := by
  obtain ⟨disks, rfl⟩ := h
  trivial

def Phase.Sends : Phase → Prop
  | .sending _ _ => True
  | _ => False

/-- A waiter in one of its two `select`s. -/
def Waiter.Waits : Waiter → Prop
  | .awaiting _ | .polling => True
  | _ => False

theorem Waiter.Waits.not_returned {w : Waiter} (h : w.Waits) : ¬ w.Returned := by
  cases w <;> simp_all [Waiter.Waits, Waiter.Returned]

structure Phase.Moves (msg : Message) (old new : Phase) : Prop where
  fits : ∀ O, old.Fits O msg → new.Fits O msg
  held : ∀ rs, new.held = some rs → old.held = some rs
  old : ¬ old.Sends
  new : ¬ new.Sends

inductive Effect (cfg : Config) (m : Manager) : Action → Manager → Prop where
  | start {agentID d sess manifest} (htype : d.type ≠ .update) (hfree : m.Free d.runID) :
      Effect cfg m (.start agentID d sess manifest) (m.start cfg agentID d sess manifest)
  | cancel {i f} :
      Effect cfg m (.cancel i f) (m.modifyRun i fun rs => { rs with ctx := some f })
  | elapse {d} : Effect cfg m (.elapse d) { m with now := m.now + d }
  | heartbeat {agentID} : Effect cfg m (.heartbeat agentID) (m.heartbeat agentID)
  | busy {agentID d} : Effect cfg m (.queueUpdate agentID d) m
  | update {agentID d m'} (h : m.queueUpdate agentID d = .ok m') :
      Effect cfg m (.queueUpdate agentID d) m'
  | receive {i rs res} (hrs : m.runs[i]? = some rs) (hw : rs.waiter.Waits)
      (hdone : rs.done = some res) :
      Effect cfg m (.wait i .done)
        (m.modifyRun i fun x => { x with done := none, waiter := .received res })
  | choose {i rs b w} (hrs : m.runs[i]? = some rs) (hw : rs.waiter.Waits) (hnew : ¬ w.Returned)
      (hb : b ≠ .abandon) : Effect cfg m (.wait i b) (m.setWaiter i w)
  | idle {i} : Effect cfg m (.wait i .tick) m
  | abandon {i rs why} (hrs : m.runs[i]? = some rs) (hw : rs.waiter = .abandoning why) :
      Effect cfg m (.wait i .abandon)
        ((m.abandon rs.dispatch.runID i).setWaiter i (.gaveUp why))
  | request {msg} : Effect cfg m (.request msg) (m.request msg)
  | move {h r x p} (hx : m.handlers[h]? = some x) (hp : x.phase.Moves x.msg p)
      (hok : ∀ O, x.phase.Fits O x.msg → p = .answered (.ok ()) → ¬ x.msg.body.Ends) :
      Effect cfg m (.handle h r) (m.setPhase h p)
  | total {h x rs size totalBytes} (hx : m.handlers[h]? = some x) (hph : x.phase = .chunkTook rs)
      (hbody : x.msg.body = .chunk size totalBytes) :
      Effect cfg m (.handle h .silent)
        (((m.setTotal rs totalBytes).accept x.msg rs).setPhase h (.storing rs))
  | record {h x rs size uploaded} (hx : m.handlers[h]? = some x)
      (hph : x.phase = .recording rs size uploaded) :
      Effect cfg m (.handle h .silent) (m.record h x.msg rs size uploaded)
  | note {h x uploaded} (hx : m.handlers[h]? = some x) (hph : x.phase = .noting uploaded) :
      Effect cfg m (.handle h .silent)
        ((m.noteProgress x.msg).setPhase h (.answered (.ok ())))
  | wrote {h x rs size} (hx : m.handlers[h]? = some x) (hph : x.phase = .streaming rs) :
      Effect cfg m (.handle h (.wrote size))
        ((m.noteProgress x.msg).setPhase h (.recording rs size 0))
  | finish {h x res} (hx : m.handlers[h]? = some x) (hph : x.phase = .finishing res) :
      Effect cfg m (.handle h .silent) (m.finish h x.msg res)
  | send {h x rs res} (hx : m.handlers[h]? = some x) (hph : x.phase = .sending rs res)
      (hroom : m.runs[rs]?.bind RunState.done = none) :
      Effect cfg m (.handle h .silent)
        ((m.modifyRun rs fun x => { x with done := some res, sends := x.sends + 1 }).setPhase h
          (.answered (.ok ())))

theorem moves_answered (msg : Message) {old : Phase} (h : ¬ old.Sends)
    (ans : Except Err Unit) : old.Moves msg (.answered ans) :=
  ⟨fun _ _ => trivial, nofun, h, not_false⟩

theorem moves_afterRecord (msg : Message) {old : Phase} {rs uploaded : Nat}
    (hheld : old.held = some rs) (hfits : ∀ O, old.Fits O msg → O rs ∧ ¬ msg.body.Ends)
    (h : ¬ old.Sends) : old.Moves msg (Manager.afterRecord msg rs uploaded) := by
  unfold Manager.afterRecord
  split
  · exact ⟨hfits, fun _ heq => heq ▸ hheld, h, not_false⟩
  · exact ⟨fun O ho => ⟨⟨rs, (hfits O ho).1⟩, (hfits O ho).2⟩, nofun, h, not_false⟩

theorem moves_completed (m : Manager) (msg : Message) (rs : Nat)
    (answers : List (Except Engine.Err Bool)) :
    (Phase.completeTook rs).Moves msg (m.completed msg rs answers) := by
  have hfinishing : ∀ disks stats,
      (Phase.completeTook rs).Moves msg (.finishing ⟨disks, stats, none, msg.origin⟩) :=
    fun _ _ => ⟨fun _ ho => ⟨⟨rs, ho.1⟩, Body.ends_complete ho.2, rfl⟩, nofun, not_false, not_false⟩
  unfold Manager.completed
  split
  · exact hfinishing _ _
  · split
    · split
      · exact moves_answered msg (by exact not_false) _
      · exact hfinishing _ _
    · exact moves_answered msg (by exact not_false) _

theorem completed_not_ok (m : Manager) {msg : Message} (rs : Nat)
    (answers : List (Except Engine.Err Bool)) (hbody : ∃ disks, msg.body = .complete disks) :
    m.completed msg rs answers ≠ .answered (.ok ()) := by
  obtain ⟨disks, hbody⟩ := hbody
  unfold Manager.completed
  rw [hbody]
  dsimp only
  split
  · simp
  · split <;> simp

theorem handle_effect {cfg : Config} {m m' : Manager} {h : Nat} {r : Reply}
    (hstep : m.handle h r = some m') : Effect cfg m (.handle h r) m' := by
  unfold Manager.handle at hstep
  split at hstep
  · cases hstep
  rename_i msg phase hx
  split at hstep
  · -- AcceptChunk after takeRun
    split at hstep
    · cases hstep
      exact .move hx (moves_answered msg (by exact not_false) _) (by simp)
    · split at hstep
      · cases hstep
        rename_i hbody
        exact .total hx rfl hbody
      · cases hstep
  · split at hstep
    · cases hstep
      exact .move hx (moves_answered msg (by exact not_false) _) (by simp)
    · cases hstep
      exact .move hx ⟨fun _ ho => ho, fun _ heq => heq, not_false, not_false⟩ (by simp)
    · cases hstep
  · cases hstep
    exact .record hx rfl
  · cases hstep
    exact .move hx (moves_afterRecord msg rfl (fun _ ho => ho) (by exact not_false))
      fun _ ho _ => ho.2
  · cases hstep
    exact .note hx rfl
  · split at hstep
    · cases hstep
      exact .move hx ⟨fun _ ho => ho, fun _ heq => heq, not_false, not_false⟩ (by simp)
    · cases hstep
      exact .move hx (moves_answered msg (by exact not_false) _) (by simp)
  · rename_i rs size
    cases hstep
    split
    · exact .wrote hx rfl
    · exact .move hx ⟨fun _ ho => ho, fun _ heq => heq, not_false, not_false⟩ (by simp)
  · cases hstep
    exact .move hx (moves_answered msg (by exact not_false) _) fun _ ho _ => ho.2
  · cases hstep
    exact .move hx (moves_answered msg (by exact not_false) _) (by simp)
  · cases hstep
    exact .move hx (moves_completed m msg _ _) fun _ ho heq => absurd heq (completed_not_ok m _ _ ho.2)
  · cases hstep
    exact .finish hx rfl
  · split at hstep
    · cases hstep
      rename_i hroom
      exact .send hx rfl hroom
    · cases hstep
  · cases hstep

theorem wait_effect {cfg : Config} {m m' : Manager} {i : Nat} {b : Branch}
    (hstep : m.wait cfg i b = some m') : Effect cfg m (.wait i b) m' := by
  unfold Manager.wait at hstep
  split at hstep
  · cases hstep
  rename_i rs hrs
  split at hstep
  · rename_i hw
    obtain ⟨res, hdone, rfl⟩ := Option.map_eq_some_iff.mp hstep
    exact .receive hrs (hw ▸ trivial) hdone
  · rename_i hw
    obtain ⟨res, hdone, rfl⟩ := Option.map_eq_some_iff.mp hstep
    exact .receive hrs (hw ▸ trivial) hdone
  · rename_i hw
    obtain ⟨f, -, rfl⟩ := Option.map_eq_some_iff.mp hstep
    exact .choose hrs (hw ▸ trivial) not_false nofun
  · rename_i hw
    obtain ⟨f, -, rfl⟩ := Option.map_eq_some_iff.mp hstep
    exact .choose hrs (hw ▸ trivial) not_false nofun
  · rename_i hw
    obtain ⟨-, heq⟩ := Option.ite_none_right_eq_some.mp hstep
    cases heq
    exact .choose hrs (hw ▸ trivial) not_false nofun
  · rename_i hw
    obtain ⟨-, heq⟩ := Option.ite_none_right_eq_some.mp hstep
    cases heq
    exact .choose hrs (hw ▸ trivial) not_false nofun
  · rename_i hw
    split at hstep
    · cases hstep
      exact .idle
    · split at hstep
      · cases hstep
        exact .choose hrs (hw ▸ trivial) not_false nofun
      · cases hstep
        exact .idle
  · rename_i why hw
    cases hstep
    exact .abandon hrs hw
  · cases hstep

theorem step_effect {cfg : Config} {a : Action} {m m' : Manager}
    (hstep : Manager.step cfg a m = some m') : Effect cfg m a m' := by
  cases a with
  | start agentID d sess manifest =>
    obtain ⟨⟨htype, hfree⟩, heq⟩ := Option.ite_none_right_eq_some.mp hstep
    cases heq
    exact .start htype hfree
  | cancel i f =>
    cases hstep
    exact .cancel
  | elapse d =>
    cases hstep
    exact .elapse
  | heartbeat agentID =>
    cases hstep
    exact .heartbeat
  | queueUpdate agentID d =>
    simp only [Manager.step] at hstep
    split at hstep
    · cases hstep
      exact .busy
    · cases hstep
      rename_i hok
      exact .update hok
  | wait i b => exact wait_effect hstep
  | request msg =>
    cases hstep
    exact .request
  | handle h r => exact handle_effect hstep

end ProxBack.Agent
