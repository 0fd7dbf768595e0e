import ProxBack.Agent.Effects

/-! An attempt without its progress, and what each operation of the manager does to it,
to the active table and to the handlers. -/
namespace ProxBack.Agent
open Lib Engine

structure Core where
  dispatch : Dispatch
  agentID : String
  done : Option Result
  closed : Bool
  waiter : Waiter
  sends : Nat
  exit : Option Exit

def RunState.core (rs : RunState) : Core :=
  ⟨rs.dispatch, rs.agentID, rs.done, rs.closed, rs.waiter, rs.sends, rs.exit⟩

namespace Manager

def core (m : Manager) (i : Nat) : Option Core := m.runs[i]?.map RunState.core

theorem core_eq {m : Manager} {i : Nat} {rs : RunState} (h : m.runs[i]? = some rs) :
    m.core i = some rs.core := by rw [core, h, Option.map_some]

theorem getElem?_modify_ite {α : Type} (l : List α) (i j : Nat) (f : α → α) :
    (l.modify i f)[j]? = if i = j then l[j]?.map f else l[j]? := by
  rw [List.getElem?_modify]
  split <;> cases l[j]? <;> simp

theorem core_modifyRun (m : Manager) (i j : Nat) {f : RunState → RunState} {g : Core → Core}
    (hf : ∀ rs, (f rs).core = g rs.core) :
    (m.modifyRun i f).core j = if i = j then (m.core j).map g else m.core j := by
  simp only [core, modifyRun, getElem?_modify_ite]
  split
  · cases m.runs[j]? with
    | none => rfl
    | some rs => exact congrArg some (hf rs)
  · rfl

theorem core_modifyRun_at {m : Manager} {i : Nat} {c : Core} {f : RunState → RunState}
    {g : Core → Core} (hc : m.core i = some c) (hf : ∀ rs, (f rs).core = g rs.core) (j : Nat) :
    (m.modifyRun i f).core j = if i = j then some (g c) else m.core j := by
  rw [core_modifyRun m i j hf]
  by_cases h : i = j
  · rw [if_pos h, if_pos h, ← h, hc, Option.map_some]
  · rw [if_neg h, if_neg h]

@[grind =] theorem core_modifyRun_same (m : Manager) (i j : Nat) {f : RunState → RunState}
    (hf : ∀ rs, (f rs).core = rs.core) : (m.modifyRun i f).core j = m.core j := by
  rw [core_modifyRun m i j (g := id) hf]
  split
  · exact congrFun Option.map_id _
  · rfl

@[simp] theorem core_setPhase (m : Manager) (h j : Nat) (p : Phase) :
    (m.setPhase h p).core j = m.core j := rfl

@[simp] theorem core_accept (m : Manager) (msg : Message) (i j : Nat) :
    (m.accept msg i).core j = m.core j := rfl

@[simp] theorem core_setTotal (m : Manager) (i j : Nat) (n : Int) :
    (m.setTotal i n).core j = m.core j := by
  unfold setTotal
  split
  · exact core_modifyRun_same m i j fun _ => rfl
  · rfl

@[simp] theorem core_noteProgress (m : Manager) (msg : Message) (j : Nat) :
    (m.noteProgress msg).core j = m.core j := by
  unfold noteProgress
  split
  · exact core_modifyRun_same m _ j fun _ => rfl
  · rfl

@[simp] theorem core_record (m : Manager) (h : Nat) (msg : Message) (rs size uploaded j : Nat) :
    (m.record h msg rs size uploaded).core j = m.core j := by
  unfold record
  split
  · rfl
  · dsimp only
    split <;> exact core_modifyRun_same m rs j fun _ => rfl

@[grind =]
theorem core_pickUp (m : Manager) (q : Queued) (j : Nat) : (m.pickUp q).core j = m.core j := by
  unfold pickUp
  split
  · exact core_modifyRun_same m _ j fun _ => rfl
  · rfl

@[simp] theorem active_pickUp (m : Manager) (q : Queued) : (m.pickUp q).active = m.active := by
  unfold pickUp
  split <;> rfl

theorem foldl_pickUp (q : List Queued) (m : Manager) :
    (∀ j, (q.foldl pickUp m).core j = m.core j) ∧ (q.foldl pickUp m).active = m.active ∧
      (q.foldl pickUp m).handlers = m.handlers ∧ (q.foldl pickUp m).pending = m.pending ∧
      (q.foldl pickUp m).accepted = m.accepted := by
  induction q generalizing m with
  | nil => exact ⟨fun _ => rfl, rfl, rfl, rfl, rfl⟩
  | cons e q ih =>
    obtain ⟨hcore, hactive, hhandlers, hpending, haccepted⟩ := ih (m.pickUp e)
    have hkeep : (m.pickUp e).handlers = m.handlers ∧ (m.pickUp e).pending = m.pending ∧
        (m.pickUp e).accepted = m.accepted := by
      unfold pickUp
      split <;> exact ⟨rfl, rfl, rfl⟩
    exact ⟨fun j => (hcore j).trans (core_pickUp m e j), hactive.trans (active_pickUp m e),
      hhandlers.trans hkeep.1, hpending.trans hkeep.2.1, haccepted.trans hkeep.2.2⟩

@[simp] theorem core_heartbeat (m : Manager) (agentID : String) (j : Nat) :
    (m.heartbeat agentID).core j = m.core j := (foldl_pickUp _ _).1 j

@[simp] theorem active_heartbeat (m : Manager) (agentID : String) :
    (m.heartbeat agentID).active = m.active := (foldl_pickUp _ _).2.1

@[simp] theorem handlers_heartbeat (m : Manager) (agentID : String) :
    (m.heartbeat agentID).handlers = m.handlers := (foldl_pickUp _ _).2.2.1

@[simp] theorem pending_heartbeat (m : Manager) (agentID : String) :
    (m.heartbeat agentID).pending = Function.update m.pending agentID [] :=
  (foldl_pickUp _ _).2.2.2.1

theorem core_start (cfg : Config) (m : Manager) (agentID : String) (d : Dispatch)
    (sess : Option Session) (manifest : Bool) (j : Nat) :
    (m.start cfg agentID d sess manifest).core j =
      if j = m.runs.length then
        some ⟨d, agentID, none, false, .awaiting (m.now + cfg.pickupTimeout), 0, none⟩
      else m.core j := by
  simp only [core, start, enqueue, List.getElem?_append]
  by_cases h : j = m.runs.length
  · subst h
    simp [RunState.core]
  · rw [if_neg h]
    split
    · rfl
    · rename_i hge
      have hout : m.runs.length < j := by omega
      rw [List.getElem?_eq_none (by simp only [List.length_singleton]; omega),
        List.getElem?_eq_none (by omega)]

@[simp] theorem core_none (m : Manager) : m.core m.runs.length = none := by simp [core]

theorem core_close (m : Manager) (runID : String) (i j : Nat) (exit : Exit) :
    (m.close runID i exit).core j =
      if i = j then (m.core j).map fun c => { c with closed := true, exit := some exit }
      else m.core j :=
  core_modifyRun _ i j fun _ => rfl

@[simp] theorem core_setWaiter (m : Manager) (i j : Nat) (w : Waiter) :
    (m.setWaiter i w).core j =
      if i = j then (m.core j).map fun c => { c with waiter := w } else m.core j :=
  core_modifyRun m i j fun _ => rfl

@[simp] theorem handlers_setPhase (m : Manager) (h k : Nat) (p : Phase) :
    (m.setPhase h p).handlers[k]? =
      if h = k then m.handlers[k]?.map fun x => { x with phase := p } else m.handlers[k]? := by
  simp only [setPhase, getElem?_modify_ite]

theorem setPhase_congr {m m' : Manager} (h : m'.handlers = m.handlers) (k : Nat) (p : Phase) :
    (m'.setPhase k p).handlers = (m.setPhase k p).handlers := by simp only [setPhase, h]

@[simp] theorem active_setPhase (m : Manager) (h : Nat) (p : Phase) :
    (m.setPhase h p).active = m.active := rfl

@[simp] theorem active_setTotal (m : Manager) (i : Nat) (n : Int) :
    (m.setTotal i n).active = m.active := by
  unfold setTotal
  split <;> rfl

@[simp] theorem handlers_setTotal (m : Manager) (i : Nat) (n : Int) :
    (m.setTotal i n).handlers = m.handlers := by
  unfold setTotal
  split <;> rfl

@[simp] theorem active_noteProgress (m : Manager) (msg : Message) :
    (m.noteProgress msg).active = m.active := by
  unfold noteProgress
  split <;> rfl

@[simp] theorem handlers_noteProgress (m : Manager) (msg : Message) :
    (m.noteProgress msg).handlers = m.handlers := by
  unfold noteProgress
  split <;> rfl

@[simp] theorem active_record (m : Manager) (h : Nat) (msg : Message) (rs size uploaded : Nat) :
    (m.record h msg rs size uploaded).active = m.active := by
  unfold record
  split
  · rfl
  · dsimp only
    split <;> rfl

theorem handlers_record (m : Manager) (h : Nat) (msg : Message) (rs size uploaded : Nat) :
    ∃ p, (p = afterRecord msg rs uploaded ∨ ∃ snap, p = .emitting rs uploaded snap) ∧
      (m.record h msg rs size uploaded).handlers = (m.setPhase h p).handlers := by
  unfold record
  split
  · exact ⟨_, .inl rfl, rfl⟩
  · dsimp only
    split
    · exact ⟨_, .inl rfl, rfl⟩
    · exact ⟨_, .inr ⟨_, rfl⟩, rfl⟩

/-- The attempts a request is about, if it comes from the agent they were given to. -/
def Owner (m : Manager) (msg : Message) (i : Nat) : Prop :=
  ∃ c, m.core i = some c ∧ c.dispatch.runID = msg.runID ∧ c.agentID = msg.agentID

end Manager

end ProxBack.Agent
