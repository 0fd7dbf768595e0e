import Mathlib.Data.List.Nodup
import Mathlib.Data.List.Perm.Basic
import ProxBack.Lib.System

/-! The resizable concurrency gate. Everything between `mu.Lock` and `mu.Unlock` is one
step; a call of `Acquire` that finds the gate full is a second step in its `select` and,
when it was cancelled against a grant, a third one in `Release`. -/
namespace ProxBack.Sched
open Lib

structure Gate where
  limit : Nat
  active : Nat
  waiters : List Nat
  deriving DecidableEq, Repr

namespace Gate

structure Grant where
  who : Nat
  active : Nat
  limit : Nat
  deriving DecidableEq, Repr

def atLeastOne (n : Int) : Nat := if n < 1 then 1 else n.toNat

def newGate (limit : Int) : Gate := { limit := atLeastOne limit, active := 0, waiters := [] }

def wakeFrom (limit : Nat) : Nat → List Nat → Gate × List Grant
  | active, [] => ({ limit, active, waiters := [] }, [])
  | active, ch :: waiters =>
    if active < limit then
      let woken := wakeFrom limit (active + 1) waiters
      (woken.1, { who := ch, active, limit } :: woken.2)
    else ({ limit, active, waiters := ch :: waiters }, [])

def wakeLocked (g : Gate) : Gate × List Grant := wakeFrom g.limit g.active g.waiters

def setLimit (n : Int) (g : Gate) : Gate × List Grant :=
  wakeLocked { g with limit := atLeastOne n }

def release (g : Gate) : Gate × List Grant :=
  wakeLocked { g with active := if 0 < g.active then g.active - 1 else g.active }

/-- `Acquire` up to its `select`: a slot, or a place at the end of the queue. -/
def enter (ch : Nat) (g : Gate) : Gate × List Grant :=
  if g.active < g.limit then
    ({ g with active := g.active + 1 }, [{ who := ch, active := g.active, limit := g.limit }])
  else ({ g with waiters := g.waiters ++ [ch] }, [])

/-- `Acquire` after `ctx.Done`: leave the queue, or find that the slot was granted. -/
def withdraw (ch : Nat) (g : Gate) : Gate × Bool :=
  if ch ∈ g.waiters then ({ g with waiters := g.waiters.erase ch }, false) else (g, true)

/-- Where a call of `Acquire` is. `holding` has returned nil, `failed` an error. -/
inductive Phase where
  | select
  | givingBack
  | holding
  | released
  | failed
  deriving DecidableEq, Repr

structure Caller where
  ctx : Nat
  phase : Phase
  deriving DecidableEq, Repr

/-- The gate with its callers, in the order they arrived. `grants` is the history of
slots handed out. -/
structure State where
  gate : Gate
  callers : List Caller
  closed : List Nat
  done : List Nat
  grants : List Grant
  deriving DecidableEq, Repr

inductive Action where
  | acquire (ctx : Nat)
  | receive (i : Nat)
  | cancel (ctx : Nat)
  | abort (i : Nat)
  | giveBack (i : Nat)
  | release (i : Nat)
  | setLimit (n : Int)
  deriving DecidableEq, Repr

namespace State

def initial (limit : Int) : State :=
  { gate := newGate limit, callers := [], closed := [], done := [], grants := [] }

def phaseOf (s : State) (i : Nat) : Option Phase := s.callers[i]?.map Caller.phase

def setPhase (s : State) (i : Nat) (p : Phase) : State :=
  { s with callers := s.callers.modify i fun c => { c with phase := p } }

def wake (s : State) (f : Gate → Gate × List Grant) : State :=
  { s with
    gate := (f s.gate).1
    closed := s.closed ++ (f s.gate).2.map Grant.who
    grants := s.grants ++ (f s.gate).2 }

def enter (s : State) (ctx : Nat) : State :=
  let entered := s.gate.enter s.callers.length
  { s with
    gate := entered.1
    callers := s.callers ++
      [{ ctx, phase := if s.gate.active < s.gate.limit then .holding else .select }]
    grants := s.grants ++ entered.2 }

def withdraw (s : State) (i : Nat) : State :=
  let left := s.gate.withdraw i
  { s with gate := left.1 }.setPhase i (if left.2 then .givingBack else .failed)

def step : Action → State → Option State
  | .acquire ctx, s => some (s.enter ctx)
  | .receive i, s =>
    if s.phaseOf i = some .select ∧ i ∈ s.closed then some (s.setPhase i .holding) else none
  | .cancel ctx, s => some { s with done := ctx :: s.done }
  | .abort i, s =>
    match s.callers[i]? with
    | some ⟨ctx, .select⟩ => if ctx ∈ s.done then some (s.withdraw i) else none
    | _ => none
  | .giveBack i, s =>
    if s.phaseOf i = some .givingBack then some ((s.wake Gate.release).setPhase i .failed)
    else none
  | .release i, s =>
    if s.phaseOf i = some .holding then some ((s.wake Gate.release).setPhase i .released)
    else none
  | .setLimit n, s => some (s.wake (Gate.setLimit n))

def holders (s : State) : List Nat :=
  (List.range s.callers.length).filter fun i => s.phaseOf i = some .holding

def granted (s : State) : List Nat :=
  (List.range s.callers.length).filter fun i =>
    s.phaseOf i = some .givingBack ∨ (s.phaseOf i = some .select ∧ i ∈ s.closed)

end State

def system : System State Action := ⟨State.step⟩

def lastLimit (limit : Int) : List Action → Int
  | [] => limit
  | .setLimit n :: as => lastLimit n as
  | _ :: as => lastLimit limit as

structure Woken (g : Gate) (woken : Gate × List Grant) : Prop where
  limit : woken.1.limit = g.limit
  active : woken.1.active = g.active + woken.2.length
  waiters : g.waiters = woken.2.map Grant.who ++ woken.1.waiters
  room : ∀ x ∈ woken.2, x.active < x.limit
  full : woken.1.waiters ≠ [] → woken.1.limit ≤ woken.1.active

theorem wakeFrom_woken (limit active : Nat) (waiters : List Nat) :
    Woken { limit, active, waiters } (wakeFrom limit active waiters) := by
  induction waiters generalizing active with
  | nil => exact ⟨rfl, rfl, rfl, nofun, fun h => absurd rfl h⟩
  | cons ch waiters ih =>
    rw [wakeFrom]
    split
    · rename_i hroom
      have h := ih (active + 1)
      exact
        { limit := h.limit
          active := by simp only [h.active, List.length_cons]; omega
          waiters := by simpa using h.waiters
          room := List.forall_mem_cons.mpr ⟨hroom, h.room⟩
          full := h.full }
    · rename_i hfull
      exact ⟨rfl, rfl, rfl, nofun, fun _ => Nat.le_of_not_lt hfull⟩

theorem wakeLocked_woken (g : Gate) : Woken g g.wakeLocked := wakeFrom_woken _ _ _

@[simp] theorem atLeastOne_eq (n : Int) : (atLeastOne n : Int) = max 1 n := by
  unfold atLeastOne
  split <;> omega

namespace State

@[simp] theorem phaseOf_setPhase (s : State) (i j : Nat) (p : Phase) :
    (s.setPhase i p).phaseOf j =
      if i = j then (s.phaseOf j).map fun _ => p else s.phaseOf j := by
  simp only [phaseOf, setPhase, List.getElem?_modify]
  split
  · cases s.callers[j]? <;> rfl
  · simp

@[simp] theorem phaseOf_wake (s : State) (f : Gate → Gate × List Grant) (j : Nat) :
    (s.wake f).phaseOf j = s.phaseOf j := rfl

theorem phaseOf_enter (s : State) (ctx j : Nat) :
    (s.enter ctx).phaseOf j =
      if j = s.callers.length then
        some (if s.gate.active < s.gate.limit then .holding else .select)
      else s.phaseOf j := by
  simp only [phaseOf, enter, List.getElem?_append]
  grind

theorem lt_of_phaseOf {s : State} {i : Nat} {p : Phase} (h : s.phaseOf i = some p) :
    i < s.callers.length := by
  unfold phaseOf at h
  grind

def moved : Action → Option Nat
  | .receive i | .abort i | .giveBack i | .release i => some i
  | .acquire _ | .cancel _ | .setLimit _ => none

theorem phaseOf_step {s t : State} {a : Action} (hstep : step a s = some t) {j : Nat}
    (hj : j < s.callers.length) (hne : moved a ≠ some j) : t.phaseOf j = s.phaseOf j := by
  have hother : ∀ {i : Nat} (s' : State) (p : Phase), moved a = some i → s'.callers = s.callers →
      (s'.setPhase i p).phaseOf j = s.phaseOf j := by
    intro i s' p hi hcallers
    have hij : i ≠ j := fun h => hne (h ▸ hi)
    rw [phaseOf_setPhase, if_neg hij, phaseOf, phaseOf, hcallers]
  cases a with
  | acquire ctx =>
    cases hstep
    rw [phaseOf_enter, if_neg (Nat.ne_of_lt hj)]
  | receive i =>
    obtain ⟨-, heq⟩ := Option.ite_none_right_eq_some.mp hstep
    cases heq
    exact hother s .holding rfl rfl
  | cancel ctx =>
    cases hstep
    rfl
  | abort i =>
    simp only [State.step] at hstep
    split at hstep
    · obtain ⟨-, heq⟩ := Option.ite_none_right_eq_some.mp hstep
      cases heq
      exact hother { s with gate := (s.gate.withdraw i).1 } _ rfl rfl
    · cases hstep
  | giveBack i =>
    obtain ⟨-, heq⟩ := Option.ite_none_right_eq_some.mp hstep
    cases heq
    exact hother (s.wake Gate.release) _ rfl rfl
  | release i =>
    obtain ⟨-, heq⟩ := Option.ite_none_right_eq_some.mp hstep
    cases heq
    exact hother (s.wake Gate.release) _ rfl rfl
  | setLimit n =>
    cases hstep
    rfl

/-- The context a call of `Acquire` was made with. -/
def ctxOf (s : State) (i : Nat) : Option Nat := s.callers[i]?.map Caller.ctx

theorem lt_of_ctxOf {s : State} {i ctx : Nat} (h : s.ctxOf i = some ctx) : i < s.callers.length := by
  obtain ⟨c, hc, -⟩ := Option.map_eq_some_iff.mp h
  exact (List.getElem?_eq_some_iff.mp hc).1

@[simp] theorem ctxOf_setPhase (s : State) (i j : Nat) (p : Phase) :
    (s.setPhase i p).ctxOf j = s.ctxOf j := by
  simp only [ctxOf, setPhase, List.getElem?_modify]
  cases s.callers[j]? with
  | none => rfl
  | some c =>
    simp only [Option.map_some]
    split <;> rfl

theorem ctxOf_enter (s : State) (ctx j : Nat) :
    (s.enter ctx).ctxOf j = if j = s.callers.length then some ctx else s.ctxOf j := by
  simp only [ctxOf, enter, List.getElem?_append]
  grind

theorem ctxOf_step {s t : State} {a : Action} (hstep : step a s = some t) {j ctx : Nat}
    (hj : s.ctxOf j = some ctx) : t.ctxOf j = some ctx := by
  cases a with
  | acquire ctx =>
    cases hstep
    rw [ctxOf_enter, if_neg (Nat.ne_of_lt (lt_of_ctxOf hj)), hj]
  | abort i =>
    simp only [State.step] at hstep
    split at hstep
    · obtain ⟨-, heq⟩ := Option.ite_none_right_eq_some.mp hstep
      cases heq
      exact (ctxOf_setPhase ..).trans hj
    · cases hstep
  | cancel ctx =>
    cases hstep
    exact hj
  | setLimit n =>
    cases hstep
    exact hj
  | receive i | giveBack i | release i =>
    obtain ⟨-, heq⟩ := Option.ite_none_right_eq_some.mp hstep
    cases heq
    exact (ctxOf_setPhase ..).trans hj

theorem phaseOf_moved {s t : State} {a : Action} {i : Nat} (hstep : step a s = some t)
    (hi : moved a = some i) :
    match a with
    | .receive _ => t.phaseOf i = some .holding
    | .abort _ => t.phaseOf i = some .givingBack ∨ t.phaseOf i = some .failed
    | .giveBack _ => t.phaseOf i = some .failed
    | .release _ => t.phaseOf i = some .released
    | _ => False := by
  cases a with
  | acquire ctx => cases hi
  | cancel ctx => cases hi
  | setLimit n => cases hi
  | receive j =>
    cases hi
    obtain ⟨h, heq⟩ := Option.ite_none_right_eq_some.mp hstep
    cases heq
    simp [h.1]
  | abort j =>
    cases hi
    simp only [State.step] at hstep
    split at hstep
    · rename_i ctx hcaller
      obtain ⟨-, heq⟩ := Option.ite_none_right_eq_some.mp hstep
      cases heq
      have hphase : ({ s with gate := (s.gate.withdraw i).1 } : State).phaseOf i = some .select := by
        simp [phaseOf, hcaller]
      dsimp only
      rw [withdraw, phaseOf_setPhase, if_pos rfl, hphase, Option.map_some]
      split
      · exact .inl rfl
      · exact .inr rfl
    · cases hstep
  | giveBack j =>
    cases hi
    obtain ⟨h, heq⟩ := Option.ite_none_right_eq_some.mp hstep
    cases heq
    simp [h]
  | release j =>
    cases hi
    obtain ⟨h, heq⟩ := Option.ite_none_right_eq_some.mp hstep
    cases heq
    simp [h]

/-- Call `i` has a slot: it holds it, or was granted it and has not returned. -/
def HasSlot (s : State) (i : Nat) : Prop :=
  s.phaseOf i = some .holding ∨ s.phaseOf i = some .givingBack ∨
    (s.phaseOf i = some .select ∧ i ∈ s.closed)

def Counted (s : State) (active : Nat) : Prop :=
  ∃ slots : List Nat, slots.Nodup ∧ slots.length = active ∧ ∀ i, i ∈ slots ↔ s.HasSlot i

/-- What holds of the gate between two critical sections, and inside one before the
waiters are woken. -/
structure Orderly (s : State) : Prop where
  sorted : s.gate.waiters.Pairwise (· < ·)
  waiting : ∀ i ∈ s.gate.waiters, s.phaseOf i = some .select ∧ i ∉ s.closed
  queued : ∀ i, s.phaseOf i = some .select → i ∈ s.gate.waiters ∨ i ∈ s.closed
  counted : s.Counted s.gate.active
  order : (s.grants.map Grant.who).Pairwise (· < ·)
  ahead : ∀ x ∈ s.grants, ∀ i ∈ s.gate.waiters, x.who < i
  arrived : ∀ x ∈ s.grants, x.who < s.callers.length
  closed : ∀ i ∈ s.closed, i ∈ s.grants.map Grant.who
  logged : ∀ i, s.HasSlot i → i ∈ s.grants.map Grant.who
  room : ∀ x ∈ s.grants, x.active < x.limit

structure Sound (s : State) : Prop extends s.Orderly where
  full : s.gate.waiters ≠ [] → s.gate.limit ≤ s.gate.active

theorem sound_initial (limit : Int) : (initial limit).Sound where
  sorted := List.Pairwise.nil
  waiting := nofun
  queued := by simp [initial, phaseOf]
  counted := ⟨[], List.nodup_nil, rfl, by simp [initial, HasSlot, phaseOf]⟩
  order := List.Pairwise.nil
  ahead := nofun
  arrived := nofun
  closed := nofun
  logged := by simp [initial, HasSlot, phaseOf]
  room := nofun
  full := fun h => absurd rfl h

theorem counted_length {s : State} {n : Nat} (h : s.Counted n) : n = s.holders.length + s.granted.length := by
  obtain ⟨slots, hnodup, rfl, hmem⟩ := h
  have hdisjoint : (s.holders ++ s.granted).Nodup := by
    refine List.nodup_append'.mpr ⟨List.nodup_range.filter _, List.nodup_range.filter _, ?_⟩
    intro i hholder hgranted
    simp only [holders, granted, List.mem_filter, decide_eq_true_eq] at hholder hgranted
    rw [hholder.2] at hgranted
    simp at hgranted
  have hperm : slots.Perm (s.holders ++ s.granted) := by
    refine (List.perm_ext_iff_of_nodup hnodup hdisjoint).mpr fun i => ?_
    rw [hmem i]
    have hlt : ∀ p, s.phaseOf i = some p → i < s.callers.length := fun p => lt_of_phaseOf
    simp only [HasSlot, holders, granted, List.mem_append, List.mem_filter, List.mem_range,
      decide_eq_true_eq]
    grind
  rw [hperm.length_eq, List.length_append]

theorem Counted.congr {s t : State} {n : Nat} (h : s.Counted n)
    (hslot : ∀ i, t.HasSlot i ↔ s.HasSlot i) : t.Counted n := by
  obtain ⟨slots, hnodup, hlen, hmem⟩ := h
  exact ⟨slots, hnodup, hlen, fun i => (hmem i).trans (hslot i).symm⟩

theorem Counted.add {s t : State} {n i : Nat} (h : s.Counted n) (hi : ¬ s.HasSlot i)
    (hslot : ∀ j, t.HasSlot j ↔ j = i ∨ s.HasSlot j) : t.Counted (n + 1) := by
  obtain ⟨slots, hnodup, hlen, hmem⟩ := h
  refine ⟨i :: slots, List.nodup_cons.mpr ⟨fun h => hi ((hmem i).mp h), hnodup⟩, ?_, ?_⟩
  · rw [List.length_cons, hlen]
  · intro j
    rw [List.mem_cons, hmem, hslot]

theorem Counted.drop {s t : State} {n i : Nat} (h : s.Counted n) (hi : s.HasSlot i)
    (hslot : ∀ j, t.HasSlot j ↔ j ≠ i ∧ s.HasSlot j) : 0 < n ∧ t.Counted (n - 1) := by
  obtain ⟨slots, hnodup, rfl, hmem⟩ := h
  have hin : i ∈ slots := (hmem i).mpr hi
  refine ⟨List.length_pos_of_mem hin, slots.erase i, hnodup.erase i, ?_, ?_⟩
  · exact List.length_erase_of_mem hin
  · intro j
    rw [hnodup.mem_erase_iff, hmem, hslot]

theorem Counted.grant {s t : State} {n : Nat} {whos : List Nat} (h : s.Counted n)
    (hnew : whos.Nodup) (hnone : ∀ i ∈ whos, ¬ s.HasSlot i)
    (hslot : ∀ j, t.HasSlot j ↔ j ∈ whos ∨ s.HasSlot j) : t.Counted (n + whos.length) := by
  obtain ⟨slots, hnodup, rfl, hmem⟩ := h
  refine ⟨whos ++ slots, List.nodup_append'.mpr ⟨hnew, hnodup, ?_⟩, ?_, ?_⟩
  · intro i hi hin
    exact hnone i hi ((hmem i).mp hin)
  · rw [List.length_append, Nat.add_comm]
  · intro j
    rw [List.mem_append, hmem, hslot]

theorem Orderly.wake {s : State} (h : s.Orderly) : (s.wake wakeLocked).Sound := by
  have hwoken := wakeLocked_woken s.gate
  generalize hw : s.gate.wakeLocked = woken at hwoken
  have hsplit : (woken.2.map Grant.who ++ woken.1.waiters).Pairwise (· < ·) :=
    hwoken.waiters ▸ h.sorted
  obtain ⟨hwhos, hsorted, hcross⟩ := List.pairwise_append.mp hsplit
  have hleft : ∀ i ∈ woken.2.map Grant.who, i ∈ s.gate.waiters := fun i hi =>
    hwoken.waiters ▸ List.mem_append_left _ hi
  have hright : ∀ i ∈ woken.1.waiters, i ∈ s.gate.waiters := fun i hi =>
    hwoken.waiters ▸ List.mem_append_right _ hi
  have hdef : s.wake wakeLocked =
      { s with
        gate := woken.1
        closed := s.closed ++ woken.2.map Grant.who
        grants := s.grants ++ woken.2 } := by
    rw [State.wake, hw]
  have hphase : ∀ i, (s.wake wakeLocked).phaseOf i = s.phaseOf i := fun _ => rfl
  rw [hdef] at hphase ⊢
  exact
    { sorted := hsorted
      waiting := by
        intro i hi
        refine ⟨(h.waiting i (hright i hi)).1, ?_⟩
        rw [List.mem_append, not_or]
        exact ⟨(h.waiting i (hright i hi)).2, fun hwho => Nat.lt_irrefl i (hcross i hwho i hi)⟩
      queued := by
        intro i hi
        rcases h.queued i hi with hin | hin
        · rw [hwoken.waiters, List.mem_append] at hin
          exact hin.symm.imp id (List.mem_append_right _)
        · exact .inr (List.mem_append_left _ hin)
      counted := by
        have hcount : woken.1.active = s.gate.active + (woken.2.map Grant.who).length := by
          rw [hwoken.active, List.length_map]
        rw [hcount]
        refine h.counted.grant (hwhos.imp Nat.ne_of_lt) ?_ ?_
        · intro i hi
          have hwait := h.waiting i (hleft i hi)
          simp [HasSlot, hwait.1, hwait.2]
        · intro j
          have hwait : j ∈ woken.2.map Grant.who → s.phaseOf j = some .select := fun hj =>
            (h.waiting j (hleft j hj)).1
          simp only [HasSlot, hphase, List.mem_append]
          tauto
      order := by
        rw [List.map_append]
        refine List.pairwise_append.mpr ⟨h.order, hwhos, ?_⟩
        intro i hi j hj
        obtain ⟨x, hx, rfl⟩ := List.mem_map.mp hi
        exact h.ahead x hx j (hleft j hj)
      ahead := by
        intro x hx i hi
        rcases List.mem_append.mp hx with hx | hx
        · exact h.ahead x hx i (hright i hi)
        · exact hcross x.who (List.mem_map_of_mem hx) i hi
      arrived := by
        intro x hx
        rcases List.mem_append.mp hx with hx | hx
        · exact h.arrived x hx
        · exact lt_of_phaseOf (h.waiting _ (hleft _ (List.mem_map_of_mem hx))).1
      closed := by
        intro i hi
        rw [List.map_append, List.mem_append]
        exact (List.mem_append.mp hi).imp (h.closed i) id
      logged := by
        intro i hi
        rw [List.map_append, List.mem_append]
        simp only [HasSlot, hphase, List.mem_append] at hi
        have hlog := h.logged i
        simp only [HasSlot] at hlog
        tauto
      room := by
        intro x hx
        exact (List.mem_append.mp hx).elim (h.room x) (hwoken.room x)
      full := hwoken.full }

theorem Sound.enter {s : State} (h : s.Sound) (ctx : Nat) : (s.enter ctx).Sound := by
  have hphase := phaseOf_enter s ctx
  have hnew : s.phaseOf s.callers.length = none := by simp [phaseOf]
  have hold : ∀ i p, s.phaseOf i = some p → i ≠ s.callers.length := by
    rintro i p hi rfl
    rw [hnew] at hi
    cases hi
  have hunclosed : s.callers.length ∉ s.closed := by
    intro hin
    obtain ⟨x, hx, hwho⟩ := List.mem_map.mp (h.closed _ hin)
    exact absurd (h.arrived x hx) (by omega)
  have hfree : ¬ s.HasSlot s.callers.length := by simp [HasSlot, hnew]
  by_cases hroom : s.gate.active < s.gate.limit
  · have hempty : s.gate.waiters = [] := by
      by_contra hne
      exact absurd (h.full hne) (by omega)
    have hdef : s.enter ctx =
        { s with
          gate := { s.gate with active := s.gate.active + 1 }
          callers := s.callers ++ [{ ctx, phase := .holding }]
          grants := s.grants ++
            [{ who := s.callers.length, active := s.gate.active, limit := s.gate.limit }] } := by
      simp [State.enter, Gate.enter, hroom]
    simp only [if_pos hroom] at hphase
    rw [hdef] at hphase ⊢
    exact
      { sorted := h.sorted
        waiting := by simp [hempty]
        queued := by
          intro i hi
          rw [hphase] at hi
          split at hi
          · cases hi
          · exact h.queued i hi
        counted := by
          refine h.counted.add hfree fun j => ?_
          simp only [HasSlot, hphase]
          by_cases hj : j = s.callers.length
          · simp [hj]
          · simp [hj]
        order := by
          rw [List.map_append]
          refine List.pairwise_append.mpr ⟨h.order, List.pairwise_singleton _ _, ?_⟩
          intro i hi j hj
          obtain ⟨x, hx, rfl⟩ := List.mem_map.mp hi
          cases List.mem_singleton.mp hj
          exact h.arrived x hx
        ahead := by simp [hempty]
        arrived := by
          intro x hx
          rw [List.length_append, List.length_singleton]
          rcases List.mem_append.mp hx with hx | hx
          · exact Nat.lt_succ_of_lt (h.arrived x hx)
          · cases List.mem_singleton.mp hx
            exact Nat.lt_succ_self _
        closed := by
          intro i hi
          rw [List.map_append]
          exact List.mem_append_left _ (h.closed i hi)
        logged := by
          intro i hi
          rw [List.map_append, List.mem_append]
          by_cases hlast : i = s.callers.length
          · exact .inr (List.mem_singleton.mpr hlast)
          · simp only [HasSlot, hphase, if_neg hlast] at hi
            exact .inl (h.logged i hi)
        room := by
          intro x hx
          rcases List.mem_append.mp hx with hx | hx
          · exact h.room x hx
          · cases List.mem_singleton.mp hx
            exact hroom
        full := fun hne => absurd hempty hne }
  · have hdef : s.enter ctx =
        { s with
          gate := { s.gate with waiters := s.gate.waiters ++ [s.callers.length] }
          callers := s.callers ++ [{ ctx, phase := .select }] } := by
      simp [State.enter, Gate.enter, hroom]
    simp only [if_neg hroom] at hphase
    rw [hdef] at hphase ⊢
    exact
      { sorted := by
          refine List.pairwise_append.mpr ⟨h.sorted, List.pairwise_singleton _ _, ?_⟩
          intro i hi j hj
          cases List.mem_singleton.mp hj
          exact lt_of_phaseOf (h.waiting i hi).1
        waiting := by
          intro i hi
          rw [hphase]
          rcases List.mem_append.mp hi with hi | hi
          · have hwait := h.waiting i hi
            rw [if_neg (hold i _ hwait.1)]
            exact hwait
          · cases List.mem_singleton.mp hi
            exact ⟨if_pos rfl, hunclosed⟩
        queued := by
          intro i hi
          rw [hphase] at hi
          split at hi
          · rename_i hlast
            exact .inl (List.mem_append_right _ (List.mem_singleton.mpr hlast))
          · exact (h.queued i hi).imp (List.mem_append_left _) id
        counted := by
          refine h.counted.congr fun j => ?_
          simp only [HasSlot, hphase]
          by_cases hj : j = s.callers.length
          · simp [hj, hnew, hunclosed]
          · simp [hj]
        order := h.order
        ahead := by
          intro x hx i hi
          rcases List.mem_append.mp hi with hi | hi
          · exact h.ahead x hx i hi
          · cases List.mem_singleton.mp hi
            exact h.arrived x hx
        arrived := by
          intro x hx
          rw [List.length_append, List.length_singleton]
          exact Nat.lt_succ_of_lt (h.arrived x hx)
        closed := h.closed
        logged := by
          intro i hi
          by_cases hlast : i = s.callers.length
          · simp [HasSlot, hphase, hlast, hunclosed] at hi
          · simp only [HasSlot, hphase, if_neg hlast] at hi
            exact h.logged i hi
        room := h.room
        full := fun _ => Nat.le_of_not_lt hroom }

def setActive (s : State) (n : Nat) : State := { s with gate := { s.gate with active := n } }

@[simp] theorem phaseOf_setActive (s : State) (n j : Nat) :
    (s.setActive n).phaseOf j = s.phaseOf j := rfl

theorem Orderly.not_mem_waiters {s : State} {i : Nat} (h : s.Orderly) (hslot : s.HasSlot i) :
    i ∉ s.gate.waiters := by
  intro hin
  have hwait := h.waiting i hin
  simp [HasSlot, hwait.1, hwait.2] at hslot

theorem Orderly.setPhase {s : State} {i n : Nat} {p : Phase} (h : s.Orderly)
    (hslot : s.HasSlot i) (hp : p ≠ .select)
    (hcount : ((s.setActive n).setPhase i p).Counted n) :
    ((s.setActive n).setPhase i p).Orderly where
  sorted := h.sorted
  waiting := by
    intro j hj
    have hne : i ≠ j := by
      rintro rfl
      exact h.not_mem_waiters hslot hj
    rw [phaseOf_setPhase, if_neg hne]
    exact h.waiting j hj
  queued := by
    intro j hj
    rw [phaseOf_setPhase] at hj
    split at hj
    · obtain ⟨_, _, hsel⟩ := Option.map_eq_some_iff.mp hj
      exact absurd hsel hp
    · exact h.queued j hj
  counted := hcount
  order := h.order
  ahead := h.ahead
  arrived := by
    intro x hx
    simp only [State.setPhase, List.length_modify]
    exact h.arrived x hx
  closed := h.closed
  logged := by
    intro j hj
    by_cases hne : i = j
    · exact hne ▸ h.logged i hslot
    · simp only [HasSlot, phaseOf_setPhase, phaseOf_setActive, if_neg hne] at hj
      exact h.logged j hj
  room := h.room

theorem Sound.keep {s : State} {i : Nat} {p : Phase} (h : s.Sound) (hslot : s.HasSlot i)
    (hp : p = .holding ∨ p = .givingBack) : (s.setPhase i p).Sound := by
  obtain ⟨q, hq⟩ : ∃ q, s.phaseOf i = some q := by
    rcases hslot with hi | hi | hi
    exacts [⟨_, hi⟩, ⟨_, hi⟩, ⟨_, hi.1⟩]
  have hkeeps : (s.setPhase i p).HasSlot i := by
    simp only [HasSlot, phaseOf_setPhase, if_true, hq, Option.map_some, Option.some.injEq]
    tauto
  have hcount : (s.setPhase i p).Counted s.gate.active := by
    refine h.counted.congr fun j => ?_
    by_cases hj : i = j
    · subst hj
      simp [hkeeps, hslot]
    · simp only [HasSlot, phaseOf_setPhase, if_neg hj]
      rfl
  have hsel : p ≠ .select := by rcases hp with rfl | rfl <;> simp
  exact
    { h.toOrderly.setPhase hslot hsel hcount with
      full := h.full }

theorem Sound.free {s : State} {i : Nat} {p : Phase} (h : s.Sound) (hslot : s.HasSlot i)
    (hp : p = .released ∨ p = .failed) :
    ((s.wake Gate.release).setPhase i p).Sound := by
  obtain ⟨q, hq⟩ : ∃ q, s.phaseOf i = some q := by
    rcases hslot with hi | hi | hi
    exacts [⟨_, hi⟩, ⟨_, hi⟩, ⟨_, hi.1⟩]
  have hsel : p ≠ .select := by rcases hp with rfl | rfl <;> simp
  have hdrop : 0 < s.gate.active ∧
      ((s.setActive (s.gate.active - 1)).setPhase i p).Counted (s.gate.active - 1) := by
    refine h.counted.drop hslot fun j => ?_
    by_cases hj : i = j
    · subst hj
      rcases hp with rfl | rfl <;> simp [HasSlot, hq]
    · simp only [HasSlot, phaseOf_setPhase, phaseOf_setActive, if_neg hj]
      simp only [ne_eq, Ne.symm hj, not_false_eq_true, true_and]
      rfl
  have hdef : (s.wake Gate.release).setPhase i p =
      ((s.setActive (s.gate.active - 1)).setPhase i p).wake wakeLocked := by
    simp only [State.wake, Gate.release, if_pos hdrop.1]
    rfl
  rw [hdef]
  exact (h.toOrderly.setPhase hslot hsel hdrop.2).wake

theorem Sound.setLimit {s : State} (h : s.Sound) (n : Int) : (s.wake (Gate.setLimit n)).Sound := by
  have horderly : { s with gate := { s.gate with limit := atLeastOne n } }.Orderly :=
    { h.toOrderly with }
  exact horderly.wake

theorem Sound.leave {s : State} {i : Nat} (h : s.Sound) (hi : i ∈ s.gate.waiters) :
    ({ s with gate := { s.gate with waiters := s.gate.waiters.erase i } }.setPhase i
      .failed).Sound := by
  have hnodup : s.gate.waiters.Nodup := h.sorted.imp Nat.ne_of_lt
  have hwait := h.waiting i hi
  have hsub : ∀ j ∈ s.gate.waiters.erase i, j ∈ s.gate.waiters := fun j => List.mem_of_mem_erase
  have hphase : ∀ j, i ≠ j →
      ({ s with gate := { s.gate with waiters := s.gate.waiters.erase i } }.setPhase i
        .failed).phaseOf j = s.phaseOf j := by
    intro j hj
    rw [phaseOf_setPhase, if_neg hj]
    rfl
  have hself :
      ({ s with gate := { s.gate with waiters := s.gate.waiters.erase i } }.setPhase i
        .failed).phaseOf i = some .failed := by
    rw [phaseOf_setPhase, if_pos rfl]
    exact Option.map_eq_some_iff.mpr ⟨_, hwait.1, rfl⟩
  exact
    { sorted := h.sorted.sublist List.erase_sublist
      waiting := by
        intro j hj
        have hne : i ≠ j := by
          rintro rfl
          exact hnodup.not_mem_erase hj
        rw [hphase j hne]
        exact h.waiting j (hsub j hj)
      queued := by
        intro j hj
        by_cases hne : i = j
        · subst hne
          rw [hself] at hj
          cases hj
        · rw [hphase j hne] at hj
          refine (h.queued j hj).imp (fun hin => ?_) id
          exact (List.mem_erase_of_ne (Ne.symm hne)).mpr hin
      counted := by
        refine h.counted.congr fun j => ?_
        by_cases hne : i = j
        · subst hne
          simp [HasSlot, hself, hwait.1, hwait.2]
        · simp only [HasSlot, hphase j hne]
          rfl
      order := h.order
      ahead := fun x hx j hj => h.ahead x hx j (hsub j hj)
      arrived := by
        intro x hx
        simp only [State.setPhase, List.length_modify]
        exact h.arrived x hx
      closed := h.closed
      logged := by
        intro j hj
        by_cases hne : i = j
        · subst hne
          simp [HasSlot, hself] at hj
        · simp only [HasSlot, hphase j hne] at hj
          exact h.logged j hj
      room := h.room
      full := by
        intro hne
        refine h.full ?_
        intro hnil
        simp [State.setPhase, hnil] at hne }

theorem Sound.withdraw {s : State} {i : Nat} (h : s.Sound) (hi : s.phaseOf i = some .select) :
    (s.withdraw i).Sound := by
  by_cases hin : i ∈ s.gate.waiters
  · have hdef : s.withdraw i =
        { s with gate := { s.gate with waiters := s.gate.waiters.erase i } }.setPhase i .failed := by
      simp [State.withdraw, Gate.withdraw, hin]
    rw [hdef]
    exact h.leave hin
  · have hdef : s.withdraw i = s.setPhase i .givingBack := by
      simp [State.withdraw, Gate.withdraw, hin]
    rw [hdef]
    -- not in the queue any more: the grant came first
    have hclosed := (h.queued i hi).resolve_left hin
    exact h.keep (.inr (.inr ⟨hi, hclosed⟩)) (.inr rfl)

theorem Sound.step {s t : State} (a : Action) (h : s.Sound) (hstep : step a s = some t) :
    t.Sound := by
  cases a with
  | acquire ctx =>
    cases hstep
    exact h.enter ctx
  | receive i =>
    simp only [State.step, Option.ite_none_right_eq_some, Option.some.injEq] at hstep
    obtain ⟨hi, rfl⟩ := hstep
    exact h.keep (.inr (.inr hi)) (.inl rfl)
  | cancel ctx =>
    cases hstep
    exact { h with }
  | abort i =>
    simp only [State.step] at hstep
    split at hstep
    · rename_i ctx hcaller
      simp only [Option.ite_none_right_eq_some, Option.some.injEq] at hstep
      obtain ⟨_, rfl⟩ := hstep
      exact h.withdraw (by simp [phaseOf, hcaller])
    · cases hstep
  | giveBack i =>
    simp only [State.step, Option.ite_none_right_eq_some, Option.some.injEq] at hstep
    obtain ⟨hi, rfl⟩ := hstep
    exact h.free (.inr (.inl hi)) (.inr rfl)
  | release i =>
    simp only [State.step, Option.ite_none_right_eq_some, Option.some.injEq] at hstep
    obtain ⟨hi, rfl⟩ := hstep
    exact h.free (.inl hi) (.inl rfl)
  | setLimit n =>
    cases hstep
    exact h.setLimit n

theorem limit_step {s t : State} {a : Action} (hstep : step a s = some t) :
    t.gate.limit = match a with
      | .setLimit n => atLeastOne n
      | _ => s.gate.limit := by
  have hrelease : s.gate.release.1.limit = s.gate.limit := (wakeLocked_woken _).limit
  cases a with
  | acquire ctx =>
    cases hstep
    show (s.gate.enter s.callers.length).1.limit = s.gate.limit
    unfold Gate.enter
    split <;> rfl
  | receive i =>
    obtain ⟨-, heq⟩ := Option.ite_none_right_eq_some.mp hstep
    cases heq
    rfl
  | cancel ctx =>
    cases hstep
    rfl
  | abort i =>
    simp only [State.step] at hstep
    split at hstep
    · obtain ⟨-, heq⟩ := Option.ite_none_right_eq_some.mp hstep
      cases heq
      show (s.gate.withdraw i).1.limit = s.gate.limit
      unfold Gate.withdraw
      split <;> rfl
    · cases hstep
  | giveBack i | release i =>
    obtain ⟨-, heq⟩ := Option.ite_none_right_eq_some.mp hstep
    cases heq
    exact hrelease
  | setLimit n =>
    cases hstep
    exact (wakeLocked_woken _).limit

theorem limit_run {ok : State → Action → Prop} {as : List Action} {s t : State} {n : Int}
    (h : system.Run ok s as t) (hs : s.gate.limit = atLeastOne n) :
    t.gate.limit = atLeastOne (lastLimit n as) := by
  induction h generalizing n with
  | nil => exact hs
  | @cons s a s₁ as t _ hstep _ ih =>
    have hlimit := limit_step hstep
    cases a with
    | setLimit m => exact ih hlimit
    | acquire | receive | cancel | abort | giveBack | release => exact ih (hlimit.trans hs)

theorem Sound.run {limit : Int} {as : List Action} {s : State}
    (h : system.Run (fun _ _ => True) (initial limit) as s) : s.Sound :=
  h.invariant (fun a _ _ hs _ hstep => hs.step a hstep) (sound_initial limit)

end State

/-- The gate over any run: its limit is the one set last, slots are counted, given out while
there is room and in arrival order, no waiter sleeps beside a free slot, and a failed call
keeps nothing. -/
theorem slots_conserved (limit : Int) (as : List Action) (s : State)
    (h : system.Run (fun _ _ => True) (.initial limit) as s) :
    (s.gate.limit : Int) = max 1 (lastLimit limit as) ∧
    s.gate.active = s.holders.length + s.granted.length ∧
    (∀ i, i ∈ s.holders ∨ i ∈ s.granted → i ∈ s.grants.map Grant.who) ∧
    (∀ x ∈ s.grants, x.active < x.limit) ∧
    (s.gate.waiters ≠ [] → s.gate.limit ≤ s.gate.active) ∧
    (s.grants.map Grant.who).Pairwise (· < ·) ∧
    (∀ x ∈ s.grants, ∀ i ∈ s.gate.waiters, x.who < i) ∧
    (∀ i, s.phaseOf i = some .failed →
      i ∉ s.gate.waiters ∧ i ∉ s.holders ∧ i ∉ s.granted) := by
  have hs := State.Sound.run h
  refine ⟨?_, State.counted_length hs.counted, ?_, hs.room, hs.full, hs.order, hs.ahead, ?_⟩
  · rw [State.limit_run h rfl]
    exact atLeastOne_eq _
  · intro i hi
    refine hs.logged i ?_
    simp only [State.holders, State.granted, List.mem_filter, decide_eq_true_eq] at hi
    unfold State.HasSlot
    tauto
  · intro i hi
    refine ⟨fun hin => ?_, ?_, ?_⟩
    · have hwait := (hs.waiting i hin).1
      rw [hi] at hwait
      cases hwait
    · simp [State.holders, hi]
    · simp [State.granted, hi]

/-- A raised limit grants the second caller a slot, but it is cancelled at once: the slot goes
to the third. -/
def crossedGrant : List Action :=
  [.acquire 0, .acquire 1, .acquire 2, .cancel 1, .setLimit 2, .abort 1, .giveBack 1, .receive 2]

theorem slots_conserved_crossedGrant :
    ∃ s, system.follow crossedGrant (.initial 1) = some s ∧ s.holders = [0, 2] ∧
      s.phaseOf 1 = some .failed ∧ (s.gate.limit : Int) = max 1 (lastLimit 1 crossedGrant) ∧
      s.gate.active = s.holders.length + s.granted.length := by
  obtain ⟨s, hfollow, hholders, hfailed⟩ : ∃ s, system.follow crossedGrant (.initial 1) = some s ∧
      s.holders = [0, 2] ∧ s.phaseOf 1 = some .failed := ⟨_, rfl, by decide, by decide⟩
  have hsafe := slots_conserved 1 crossedGrant s (System.run_of_follow (fun _ _ _ => trivial) hfollow)
  exact ⟨s, hfollow, hholders, hfailed, hsafe.1, hsafe.2.1⟩

end Gate

end ProxBack.Sched
