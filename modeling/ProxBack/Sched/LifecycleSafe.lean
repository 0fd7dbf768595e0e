import ProxBack.Lib.Lists
import ProxBack.Sched.Lifecycle

/-! Every launched run is finished once and cleans up after itself: its entries in the
tables are there exactly while its goroutine has not reached the call that removes them. -/
namespace ProxBack.Sched.Lifecycle
open Lib

def Phase.rank : Phase → Nat
  | .registered => 0
  | .spawned => 1
  | .acquiring _ => 2
  | .givingBack _ => 3
  | .starting => 4
  | .running => 5
  | .ended _ => 6
  | .loading _ => 7
  | .closing _ => 8
  | .writing _ _ => 9
  | .releasing => 10
  | .unlisting => 11
  | .announcing => 12
  | .canceling => 13
  | .exiting => 14
  | .done => 15

/-- `finish` has not been called yet. -/
def Phase.Monitored (p : Phase) : Prop := p.rank ≤ 6

/-- The deferred call that takes the run out of `cancels` is still to come. -/
def Phase.Listed (p : Phase) : Prop := p.rank ≤ 11

/-- `onDone` is still to come. -/
def Phase.Unannounced (p : Phase) : Prop := p.rank ≤ 12

instance (p : Phase) : Decidable p.Monitored := inferInstanceAs (Decidable (_ ≤ _))
instance (p : Phase) : Decidable p.Listed := inferInstanceAs (Decidable (_ ≤ _))
instance (p : Phase) : Decidable p.Unannounced := inferInstanceAs (Decidable (_ ≤ _))

/-- The call of `Acquire` a goroutine is in, or came back from with a slot. -/
def Launch.claim (l : Launch) : Option Nat :=
  match l.phase with
  | .acquiring i | .givingBack i => some i
  | _ => l.slot

def Launch.AtGate (l : Launch) (g : Gate.State) : Prop :=
  match l.phase with
  | .registered | .spawned => l.slot = none
  | .acquiring i => l.slot = none ∧ g.phaseOf i = some .select
  | .givingBack i => l.slot = none ∧ g.phaseOf i = some .givingBack
  | .starting | .running | .releasing => ∃ i, l.slot = some i ∧ g.phaseOf i = some .holding
  | .ended _ | .loading _ | .closing _ | .writing _ _ =>
    ∀ i, l.slot = some i → g.phaseOf i = some .holding
  | .unlisting | .announcing | .canceling | .exiting | .done =>
    ∀ i, l.slot = some i → g.phaseOf i = some .released

structure Launch.Counted (l : Launch) : Prop where
  finishes : l.finishes = if l.phase.Monitored then 0 else 1
  releases : l.releases = if l.slot = none ∨ l.phase.rank ≤ 10 then 0 else 1
  dones : l.dones = if l.onDone = none ∨ l.phase.Unannounced then 0 else 1

/-- A verification of `b` that was let through and whose reservation is not given back. -/
def State.Busy (s : State) (b : String) (c : Nat) : Prop :=
  ∃ call, s.calls[c]? = some call ∧ call.backup = some b ∧
    match call.phase with
    | .creating | .releasing | .recording | .launching => True
    | .refused => False
    | .launched k => ∃ l, s.launches[k]? = some l ∧ l.phase.Unannounced

structure Kept (s : State) : Prop where
  gate : ∀ (k : Nat) (l : Launch), s.launches[k]? = some l → l.AtGate s.gate
  counted : ∀ (k : Nat) (l : Launch), s.launches[k]? = some l → l.Counted
  claimed : ∀ (k : Nat) (l : Launch) i, s.launches[k]? = some l → l.claim = some i →
    s.gate.ctxOf i = some k
  caller : ∀ (k : Nat) (l : Launch), s.launches[k]? = some l →
    s.calls[l.caller]? = some ⟨l.onDone, some l.runID, .launched k⟩
  launched : ∀ (c : Nat) (call : Call) k, s.calls[c]? = some call → call.phase = .launched k →
    ∃ l, s.launches[k]? = some l ∧ l.caller = c
  ids : ∀ (c d : Nat) (x y : Call) r, s.calls[c]? = some x → s.calls[d]? = some y →
    x.run = some r → y.run = some r → c = d
  created : ∀ (c : Nat) (x : Call) r, s.calls[c]? = some x → x.run = some r → r ∈ s.created
  fresh : ∀ (c : Nat) (x : Call), s.calls[c]? = some x → x.phase = .creating → x.run = none
  cancels : ∀ r k, s.cancels.lookup r = some k ↔
    ∃ l, s.launches[k]? = some l ∧ l.runID = r ∧ l.phase.Listed
  monitors : ∀ r k, s.monitors.lookup r = some k ↔
    ∃ l, s.launches[k]? = some l ∧ l.runID = r ∧ l.phase.Monitored
  busy : ∀ b, s.verifying.lookup b ≠ none ↔ ∃ c, s.Busy b c
  single : ∀ b c d, s.Busy b c → s.Busy b d → c = d

theorem kept_initial (created : List String) : Kept { State.initial with created } := by
  have hlaunch : ∀ (k : Nat) (l : Launch), State.initial.launches[k]? ≠ some l := by
    simp [State.initial]
  have hcall : ∀ (c : Nat) (x : Call), State.initial.calls[c]? ≠ some x := by simp [State.initial]
  have hbusy : ∀ b c, ¬ ({ State.initial with created } : State).Busy b c :=
    fun b c ⟨x, hx, _⟩ => hcall c x hx
  exact
    { gate := fun k l hl => absurd hl (hlaunch k l)
      counted := fun k l hl => absurd hl (hlaunch k l)
      claimed := fun k l _ hl => absurd hl (hlaunch k l)
      caller := fun k l hl => absurd hl (hlaunch k l)
      launched := fun c x _ hx => absurd hx (hcall c x)
      ids := fun c _ x _ _ hx => absurd hx (hcall c x)
      created := fun c x _ hx => absurd hx (hcall c x)
      fresh := fun c x hx => absurd hx (hcall c x)
      cancels := fun r k =>
        ⟨fun h => by simp [State.initial] at h, fun ⟨l, hl, _⟩ => absurd hl (hlaunch k l)⟩
      monitors := fun r k =>
        ⟨fun h => by simp [State.initial] at h, fun ⟨l, hl, _⟩ => absurd hl (hlaunch k l)⟩
      busy := fun b =>
        ⟨fun h => absurd (by simp [State.initial]) h, fun ⟨c, hc⟩ => absurd hc (hbusy b c)⟩
      single := fun b c _ hc => absurd hc (hbusy b c) }

theorem Launch.AtGate.congr {l : Launch} {g g' : Gate.State} (h : l.AtGate g)
    (hsame : ∀ i, l.claim = some i → g'.phaseOf i = g.phaseOf i) : l.AtGate g' := by
  obtain ⟨runID, onDone, caller, phase, slot, finishes, releases, dones⟩ := l
  cases phase with
  | registered | spawned => exact h
  | acquiring i | givingBack i => exact ⟨h.1, (hsame i rfl).trans h.2⟩
  | starting | running | releasing =>
    obtain ⟨i, hi, hg⟩ := h
    exact ⟨i, hi, (hsame i hi).trans hg⟩
  | ended | loading | closing | writing | unlisting | announcing | canceling | exiting | done =>
    exact fun i hi => (hsame i hi).trans (h i hi)

/-- A step of the goroutine of launch `k`, as far as the gate is concerned. -/
structure Passed (k : Nat) (l' : Launch) (g g' : Gate.State) : Prop where
  atGate : l'.AtGate g'
  frame : ∀ i j, g.ctxOf i = some j → j ≠ k → g'.phaseOf i = g.phaseOf i
  ctx : ∀ i j, g.ctxOf i = some j → g'.ctxOf i = some j
  claim : ∀ i, l'.claim = some i → g'.ctxOf i = some k

/-- A step of the goroutine of launch `k`. -/
structure Moved (s s' : State) (k : Nat) (l l' : Launch) : Prop
    extends Passed k l' s.gate s'.gate where
  before : s.launches[k]? = some l
  launches : s'.launches = s.launches.set k l'
  calls : s'.calls = s.calls
  created : s'.created = s.created
  runID : l'.runID = l.runID
  onDone : l'.onDone = l.onDone
  caller : l'.caller = l.caller
  rank : l.phase.rank < l'.phase.rank
  counted : l'.Counted
  cancels : ∀ r, s'.cancels.lookup r =
    if r = l.runID ∧ l.phase.Listed ∧ ¬ l'.phase.Listed then none else s.cancels.lookup r
  monitors : ∀ r, s'.monitors.lookup r =
    if r = l.runID ∧ l.phase.Monitored ∧ ¬ l'.phase.Monitored then none
    else s.monitors.lookup r
  verifying : ∀ b, s'.verifying.lookup b =
    if l.onDone = some b ∧ l.phase.Unannounced ∧ ¬ l'.phase.Unannounced then none
    else s.verifying.lookup b

variable {s s' : State} {k : Nat} {l l' : Launch}

theorem Moved.get (q : Moved s s' k l l') (j : Nat) :
    s'.launches[j]? = if k = j then some l' else s.launches[j]? := by
  rw [q.launches, getElem?_set_of q.before]

theorem Moved.split (q : Moved s s' k l l') {j : Nat} {x : Launch} (hx : s'.launches[j]? = some x) :
    (j = k ∧ x = l') ∨ j ≠ k ∧ s.launches[j]? = some x := by
  rw [q.get] at hx
  split at hx
  · rename_i heq
    cases hx
    exact .inl ⟨heq.symm, rfl⟩
  · rename_i hne
    exact .inr ⟨fun h => hne h.symm, hx⟩

theorem Kept.sameRun (h : Kept s) {i j : Nat} {x y : Launch} (hx : s.launches[i]? = some x)
    (hy : s.launches[j]? = some y) (hrun : x.runID = y.runID) : i = j := by
  have hcx := h.caller i x hx
  have hcy := h.caller j y hy
  have hcaller := h.ids _ _ _ _ x.runID hcx hcy rfl (congrArg some hrun.symm)
  rw [hcaller, hcy] at hcx
  exact (CallPhase.launched.inj (congrArg Call.phase (Option.some.inj hcx))).symm

theorem Moved.table (h : Kept s) (q : Moved s s' k l l') {P : Phase → Prop} [DecidablePred P]
    (hmono : P l'.phase → P l.phase) {table table' : FinMap String Nat}
    (hold : ∀ r i, table.lookup r = some i ↔
      ∃ x, s.launches[i]? = some x ∧ x.runID = r ∧ P x.phase)
    (hnew : ∀ r, table'.lookup r =
      if r = l.runID ∧ P l.phase ∧ ¬ P l'.phase then none else table.lookup r) (r : String)
    (i : Nat) :
    table'.lookup r = some i ↔ ∃ x, s'.launches[i]? = some x ∧ x.runID = r ∧ P x.phase := by
  rw [hnew]
  constructor
  · intro hlook
    split at hlook
    · cases hlook
    rename_i hkeep
    obtain ⟨x, hx, hr, hp⟩ := (hold r i).mp hlook
    by_cases hk : k = i
    · subst hk
      rw [q.before] at hx
      cases hx
      refine ⟨l', by rw [q.get, if_pos rfl], q.runID.trans hr, ?_⟩
      by_contra hnp
      exact hkeep ⟨hr.symm, hp, hnp⟩
    · exact ⟨x, by rw [q.get, if_neg hk, hx], hr, hp⟩
  · rintro ⟨x, hx, hr, hp⟩
    rcases q.split hx with ⟨rfl, rfl⟩ | ⟨hne, hx⟩
    · rw [if_neg fun hout => hout.2.2 hp]
      exact (hold r i).mpr ⟨l, q.before, q.runID.symm.trans hr, hmono hp⟩
    · rw [if_neg fun hout => hne (h.sameRun hx q.before (hr.trans hout.1))]
      exact (hold r i).mpr ⟨x, hx, hr, hp⟩

theorem Moved.busy (h : Kept s) (q : Moved s s' k l l') (b : String) (c : Nat) :
    s'.Busy b c ↔ s.Busy b c ∧ ¬ (c = l.caller ∧ l.phase.Unannounced ∧ ¬ l'.phase.Unannounced) := by
  have hback : l'.phase.Unannounced → l.phase.Unannounced := fun hu =>
    Nat.le_trans (Nat.le_of_lt q.rank) hu
  have hcaller := h.caller k l q.before
  constructor
  · rintro ⟨call, hcall, hb, hphase⟩
    rw [q.calls] at hcall
    have hlaunch : ∀ j, call.phase = .launched j → ∃ x, s'.launches[j]? = some x ∧
        x.phase.Unannounced := by
      intro j hj
      rw [hj] at hphase
      exact hphase
    refine ⟨⟨call, hcall, hb, ?_⟩, ?_⟩
    · cases hj : call.phase with
      | launched j =>
        obtain ⟨x, hx, hu⟩ := hlaunch j hj
        rcases q.split hx with ⟨rfl, rfl⟩ | ⟨-, hx⟩
        · exact ⟨l, q.before, hback hu⟩
        · exact ⟨x, hx, hu⟩
      | _ =>
        rw [hj] at hphase
        exact hphase
    · rintro ⟨rfl, -, hnu⟩
      rw [hcaller] at hcall
      cases hcall
      obtain ⟨x, hx, hu⟩ := hlaunch k rfl
      rw [q.get, if_pos rfl] at hx
      cases hx
      exact hnu hu
  · rintro ⟨⟨call, hcall, hb, hphase⟩, hkeep⟩
    refine ⟨call, by rw [q.calls, hcall], hb, ?_⟩
    cases hj : call.phase with
    | launched j =>
      rw [hj] at hphase
      obtain ⟨x, hx, hu⟩ := hphase
      by_cases hk : k = j
      · subst hk
        rw [q.before] at hx
        cases hx
        refine ⟨l', by rw [q.get, if_pos rfl], ?_⟩
        obtain ⟨y, hy, hc⟩ := h.launched c call k hcall hj
        rw [q.before] at hy
        cases hy
        by_contra hnu
        exact hkeep ⟨hc.symm, hu, hnu⟩
      · exact ⟨x, by rw [q.get, if_neg hk, hx], hu⟩
    | _ =>
      rw [hj] at hphase
      exact hphase

theorem Kept.moved (h : Kept s) (q : Moved s s' k l l') : Kept s' where
  gate := by
    intro j x hx
    rcases q.split hx with ⟨rfl, rfl⟩ | ⟨hne, hx⟩
    · exact q.atGate
    · exact (h.gate j x hx).congr fun i hi => q.frame i j (h.claimed j x i hx hi) hne
  counted := by
    intro j x hx
    rcases q.split hx with ⟨rfl, rfl⟩ | ⟨-, hx⟩
    · exact q.counted
    · exact h.counted j x hx
  claimed := by
    intro j x i hx hi
    rcases q.split hx with ⟨rfl, rfl⟩ | ⟨-, hx⟩
    · exact q.claim i hi
    · exact q.ctx i j (h.claimed j x i hx hi)
  caller := by
    intro j x hx
    rw [q.calls]
    rcases q.split hx with ⟨rfl, rfl⟩ | ⟨-, hx⟩
    · rw [q.caller, q.onDone, q.runID]
      exact h.caller j l q.before
    · exact h.caller j x hx
  launched := by
    intro c call j hcall hj
    rw [q.calls] at hcall
    obtain ⟨x, hx, hc⟩ := h.launched c call j hcall hj
    by_cases hk : k = j
    · subst hk
      rw [q.before] at hx
      cases hx
      exact ⟨l', by rw [q.get, if_pos rfl], q.caller.trans hc⟩
    · exact ⟨x, by rw [q.get, if_neg hk, hx], hc⟩
  ids := by
    rw [q.calls]
    exact h.ids
  created := by
    rw [q.calls, q.created]
    exact h.created
  fresh := by
    rw [q.calls]
    exact h.fresh
  cancels := q.table h (Nat.le_trans (Nat.le_of_lt q.rank)) h.cancels q.cancels
  monitors := q.table h (Nat.le_trans (Nat.le_of_lt q.rank)) h.monitors q.monitors
  busy := by
    intro b
    rw [q.verifying]
    split
    · rename_i hout
      refine ⟨fun hne => absurd rfl hne, fun ⟨c, hc⟩ => ?_⟩
      obtain ⟨hc, hkeep⟩ := (q.busy h b c).mp hc
      have howner : s.Busy b l.caller :=
        ⟨_, h.caller k l q.before, hout.1, l, q.before, hout.2.1⟩
      exact absurd ⟨h.single b c _ hc howner, hout.2⟩ hkeep
    · rename_i hkeep
      rw [h.busy b]
      refine ⟨fun ⟨c, hc⟩ => ⟨c, (q.busy h b c).mpr ⟨hc, ?_⟩⟩,
        fun ⟨c, hc⟩ => ⟨c, ((q.busy h b c).mp hc).1⟩⟩
      rintro ⟨rfl, hu, hnu⟩
      obtain ⟨call, hcall, hb, -⟩ := hc
      rw [h.caller k l q.before] at hcall
      cases hcall
      exact hkeep ⟨hb, hu, hnu⟩
  single := fun b c d hc hd =>
    h.single b c d ((q.busy h b c).mp hc).1 ((q.busy h b d).mp hd).1

theorem Launch.Counted.congr (h : l.Counted) (hfinishes : l'.finishes = l.finishes)
    (hreleases : l'.releases = l.releases) (hdones : l'.dones = l.dones)
    (hon : l'.onDone = l.onDone) (hmon : l'.phase.Monitored ↔ l.phase.Monitored)
    (hrel : (l'.slot = none ∨ l'.phase.rank ≤ 10) ↔ l.slot = none ∨ l.phase.rank ≤ 10)
    (hun : (l.onDone = none ∨ l'.phase.Unannounced) ↔ l.onDone = none ∨ l.phase.Unannounced) :
    l'.Counted where
  finishes := by rw [hfinishes, h.finishes, if_congr hmon rfl rfl]
  releases := by rw [hreleases, h.releases, if_congr hrel rfl rfl]
  dones := by rw [hdones, h.dones, hon, if_congr hun rfl rfl]

theorem passed_beside {g' : Gate.State} (h : Kept s) (hl : s.launches[k]? = some l)
    (hcallers : g'.callers = s.gate.callers) (hclaim : l'.claim = l.claim)
    (hgate : l'.AtGate s.gate) : Passed k l' s.gate g' := by
  have hphase : ∀ i, g'.phaseOf i = s.gate.phaseOf i := fun i => by
    rw [Gate.State.phaseOf, Gate.State.phaseOf, hcallers]
  have hctx : ∀ i, g'.ctxOf i = s.gate.ctxOf i := fun i => by
    rw [Gate.State.ctxOf, Gate.State.ctxOf, hcallers]
  exact
    { atGate := hgate.congr fun i _ => hphase i
      frame := fun i _ _ _ => hphase i
      ctx := fun i _ hi => (hctx i).trans hi
      claim := fun i hi => (hctx i).trans (h.claimed k l i hl (hclaim ▸ hi)) }

theorem passed_through {g' : Gate.State} {a : Gate.Action} (h : Kept s)
    (hl : s.launches[k]? = some l) (hstep : Gate.State.step a s.gate = some g')
    (hmoved : Gate.State.moved a = l.claim) (hclaim : ∀ i, l'.claim = some i → l.claim = some i)
    (hgate : l'.AtGate g') : Passed k l' s.gate g' where
  atGate := hgate
  frame := by
    intro i j hi hne
    refine Gate.State.phaseOf_step hstep (Gate.State.lt_of_ctxOf hi) fun hmine => hne ?_
    exact Option.some.inj (hi.symm.trans (h.claimed k l i hl (hmoved ▸ hmine)))
  ctx := fun i _ hi => Gate.State.ctxOf_step hstep hi
  claim := fun i hi => Gate.State.ctxOf_step hstep (h.claimed k l i hl (hclaim i hi))

theorem moved_still {g : Gate.State} (hl : s.launches[k]? = some l)
    (hpassed : Passed k l' s.gate g) (hcounted : l'.Counted)
    (hid : l'.runID = l.runID ∧ l'.onDone = l.onDone ∧ l'.caller = l.caller)
    (hrank : l.phase.rank < l'.phase.rank) (hmon : l.phase.Monitored → l'.phase.Monitored)
    (hlist : l.phase.Listed → l'.phase.Listed)
    (hun : l.onDone = none ∨ (l.phase.Unannounced → l'.phase.Unannounced)) :
    Moved s ({ s with gate := g }.setLaunch k l') k l l' where
  toPassed := hpassed
  before := hl
  launches := rfl
  calls := rfl
  created := rfl
  runID := hid.1
  onDone := hid.2.1
  caller := hid.2.2
  rank := hrank
  counted := hcounted
  cancels := fun r => (if_neg fun h => h.2.2 (hlist h.2.1)).symm
  monitors := fun r => (if_neg fun h => h.2.2 (hmon h.2.1)).symm
  verifying := by
    refine fun b => (if_neg fun h => ?_).symm
    rcases hun with hnone | hun
    · rw [hnone] at h
      cases h.1
    · exact h.2.2 (hun h.2.1)

/-- What a goroutine leaves behind between two phases changes no table and no counter. -/
structure Launch.Quiet (l : Launch) (p : Phase) : Prop where
  rank : l.phase.rank < p.rank
  mon : l.phase.Monitored → p.Monitored
  list : l.phase.Listed → p.Listed
  rel : l.slot = none ∨ (l.phase.rank ≤ 10 → p.rank ≤ 10)
  un : l.onDone = none ∨ (l.phase.Unannounced → p.Unannounced)

theorem moved_on (h : Kept s) (hl : s.launches[k]? = some l) {p : Phase} (hquiet : l.Quiet p)
    (hgate : ({ l with phase := p } : Launch).AtGate s.gate)
    (hclaim : ({ l with phase := p } : Launch).claim = l.claim) :
    Moved s (s.setLaunch k { l with phase := p }) k l { l with phase := p } := by
  obtain ⟨hrank, hmon, hlist, hrel, hun⟩ := hquiet
  have hle := Nat.le_of_lt hrank
  refine moved_still hl (passed_beside h hl rfl hclaim hgate) ?_ ⟨rfl, rfl, rfl⟩ hrank hmon hlist hun
  refine (h.counted k l hl).congr rfl rfl rfl rfl ⟨Nat.le_trans hle, hmon⟩ ?_ ?_
  · exact ⟨Or.imp_right (Nat.le_trans hle), fun hor => hrel.elim .inl fun himp => hor.imp_right himp⟩
  · exact ⟨Or.imp_right (Nat.le_trans hle), fun hor => hun.elim .inl fun himp => hor.imp_right himp⟩

theorem moved_ended (h : Kept s) (hl : s.launches[k]? = some l) (hp : l.phase = .running)
    (out : Outcome) :
    Moved s (s.setLaunch k { l with phase := .ended out }) k l { l with phase := .ended out } := by
  have hgate := h.gate k l hl
  rw [Launch.AtGate, hp] at hgate
  obtain ⟨i, hslot, hholds⟩ := hgate
  refine moved_on h hl ?_ ?_ (by simp [Launch.claim, hp])
  · constructor <;> simp [hp, Phase.Monitored, Phase.Listed, Phase.Unannounced, Phase.rank]
  · intro j hj
    cases hslot.symm.trans hj
    exact hholds

theorem moved_afterFinish (h : Kept s) (hl : s.launches[k]? = some l)
    (hphase : 7 ≤ l.phase.rank ∧ l.phase.rank ≤ 9) :
    Moved s (s.setLaunch k { l with phase := State.afterFinish l }) k l
      { l with phase := State.afterFinish l } := by
  have hgate := h.gate k l hl
  obtain ⟨hlow, hhigh⟩ := hphase
  have hmon : ¬ l.phase.Monitored := Nat.not_le.mpr hlow
  rcases Option.eq_none_or_eq_some l.slot with hslot | ⟨i, hslot⟩
  · have hafter : State.afterFinish l = .unlisting := by simp [State.afterFinish, hslot]
    rw [hafter]
    refine moved_on h hl ?_ ?_ ?_
    · exact ⟨Nat.lt_of_le_of_lt hhigh (by decide), fun hm => absurd hm hmon, fun _ => by decide,
        .inl hslot, .inr fun _ => by decide⟩
    · intro i hi
      cases hslot.symm.trans hi
    · cases hp : l.phase <;> simp_all [Phase.rank, Launch.claim]
  · have hafter : State.afterFinish l = .releasing := by simp [State.afterFinish, hslot]
    have hholds : s.gate.phaseOf i = some .holding := by
      cases hp : l.phase <;> simp_all [Phase.rank, Launch.AtGate]
    rw [hafter]
    refine moved_on h hl ?_ (by exact ⟨i, hslot, hholds⟩) ?_
    · exact ⟨Nat.lt_of_le_of_lt hhigh (by decide), fun hm => absurd hm hmon, fun _ => by decide,
        .inr fun _ => by decide, .inr fun _ => by decide⟩
    · cases hp : l.phase <;> simp_all [Phase.rank, Launch.claim]

theorem moved_early (h : Kept s) (hl : s.launches[k]? = some l) {g : Gate.State} {p : Phase}
    {slot : Option Nat} (hrank : l.phase.rank < p.rank) (hearly : p.rank ≤ 6)
    (hpassed : Passed k { l with phase := p, slot } s.gate g) :
    Moved s ({ s with gate := g }.setLaunch k { l with phase := p, slot }) k l
      { l with phase := p, slot } := by
  have hup : ∀ {n}, 6 ≤ n → p.rank ≤ n := fun hn => Nat.le_trans hearly hn
  have hdown : ∀ {n}, 6 ≤ n → l.phase.rank ≤ n := fun hn =>
    Nat.le_trans (Nat.le_of_lt hrank) (hup hn)
  refine moved_still hl hpassed ?_ ⟨rfl, rfl, rfl⟩ hrank (fun _ => hearly)
    (fun _ => hup (by decide)) (.inr fun _ => hup (by decide))
  refine (h.counted k l hl).congr rfl rfl rfl rfl ?_ ?_ ?_
  · exact ⟨fun _ => hdown (by decide), fun _ => hearly⟩
  · exact ⟨fun _ => .inr (hdown (by decide)), fun _ => .inr (hup (by decide))⟩
  · exact ⟨fun _ => .inr (hdown (by decide)), fun _ => .inr (hup (by decide))⟩

theorem moved_acquire (h : Kept s) (hl : s.launches[k]? = some l) (hphase : l.phase = .spawned)
    {g : Gate.State} (hg : Gate.State.step (.acquire k) s.gate = some g) :
    ∃ l', l' = (if g.phaseOf s.gate.callers.length = some .holding then
        { l with phase := .starting, slot := some s.gate.callers.length }
      else { l with phase := .acquiring s.gate.callers.length }) ∧
      Moved s ({ s with gate := g }.setLaunch k l') k l l' := by
  have hslot : l.slot = none := by simpa [Launch.AtGate, hphase] using h.gate k l hl
  have hpassed : ∀ x : Launch, x.AtGate g → x.claim = some s.gate.callers.length →
      Passed k x s.gate g := by
    intro x hx hclaim
    refine ⟨hx, ?_, fun i _ hi => Gate.State.ctxOf_step hg hi, ?_⟩
    · exact fun i _ hi _ => Gate.State.phaseOf_step hg (Gate.State.lt_of_ctxOf hi) nofun
    · intro i hi
      cases hclaim.symm.trans hi
      cases hg
      rw [Gate.State.ctxOf_enter, if_pos rfl]
  have hrank : l.phase.rank = 1 := hphase ▸ rfl
  refine ⟨_, rfl, ?_⟩
  split
  · rename_i hholds
    exact moved_early h hl (hrank ▸ by decide) (by decide) (hpassed _ ⟨_, rfl, hholds⟩ rfl)
  · rename_i hwaits
    have hselect : g.phaseOf s.gate.callers.length = some .select := by
      cases hg
      rw [Gate.State.phaseOf_enter, if_pos rfl] at hwaits ⊢
      split at hwaits
      · exact absurd rfl hwaits
      · rename_i hfull
        rw [if_neg hfull]
    exact moved_early h hl (p := .acquiring s.gate.callers.length) (hrank ▸ by simp [Phase.rank])
      (by simp [Phase.rank]) (hpassed _ ⟨hslot, hselect⟩ rfl)

theorem moved_refused (h : Kept s) (hl : s.launches[k]? = some l) (hslot : l.slot = none)
    (hrank : l.phase.rank ≤ 3) {g : Gate.State} {a : Gate.Action}
    (hg : Gate.State.step a s.gate = some g) (hmoved : Gate.State.moved a = l.claim)
    (out : Outcome) :
    Moved s ({ s with gate := g }.setLaunch k { l with phase := .ended out }) k l
      { l with phase := .ended out } := by
  have hnone : ∀ (P : Nat → Prop) j, l.slot = some j → P j := fun P j hj => by
    rw [hslot] at hj
    cases hj
  refine moved_early h hl (Nat.lt_of_le_of_lt hrank (by simp [Phase.rank])) (by simp [Phase.rank]) ?_
  exact passed_through h hl hg hmoved (hnone _) (hnone _)

theorem stepGate_moved (h : Kept s) (hl : s.launches[k]? = some l) {i : Nat}
    (hclaim : l.claim = some i) {a : Action}
    (hphase : (l.phase = .acquiring i ∧ (a = .receive k ∨ a = .abort k)) ∨
      l.phase = .givingBack i ∧ a = .giveBack k)
    (hstep : s.stepLaunch k l a = some s') : ∃ l', Moved s s' k l l' := by
  have hgate := h.gate k l hl
  rcases hphase with ⟨hp, rfl | rfl⟩ | ⟨hp, rfl⟩
  · rw [State.stepLaunch, hp] at hstep
    obtain ⟨g, hg, rfl⟩ := Option.map_eq_some_iff.mp hstep
    refine ⟨_, moved_early h hl (hp ▸ by simp [Phase.rank]) (by decide) ?_⟩
    refine passed_through h hl hg hclaim.symm (fun j hj => ?_) ⟨i, rfl, Gate.State.phaseOf_moved hg rfl⟩
    cases hj
    exact hclaim
  · rw [State.stepLaunch, hp] at hstep
    obtain ⟨g, hg, rfl⟩ := Option.map_eq_some_iff.mp hstep
    rw [Launch.AtGate, hp] at hgate
    dsimp only
    split
    · rename_i hback
      refine ⟨_, moved_early h hl (hp ▸ by simp [Phase.rank]) (by simp [Phase.rank]) ?_⟩
      refine passed_through h hl hg hclaim.symm (fun j hj => ?_) ⟨hgate.1, hback⟩
      cases hj
      exact hclaim
    · exact ⟨_, moved_refused h hl hgate.1 (hp ▸ by simp [Phase.rank]) hg hclaim.symm _⟩
  · rw [State.stepLaunch, hp] at hstep
    obtain ⟨g, hg, rfl⟩ := Option.map_eq_some_iff.mp hstep
    rw [Launch.AtGate, hp] at hgate
    exact ⟨_, moved_refused h hl hgate.1 (hp ▸ by simp [Phase.rank]) hg hclaim.symm _⟩

theorem moved_release (h : Kept s) (hl : s.launches[k]? = some l) (hp : l.phase = .releasing)
    {i : Nat} (hslot : l.slot = some i) {g : Gate.State}
    (hg : Gate.State.step (.release i) s.gate = some g) :
    Moved s ({ s with gate := g }.setLaunch k
        { l with phase := .unlisting, releases := l.releases + 1 }) k l
      { l with phase := .unlisting, releases := l.releases + 1 } := by
  have hclaim : l.claim = some i := by simp [Launch.claim, hp, hslot]
  obtain ⟨hf, hr, hd⟩ := h.counted k l hl
  rw [hp] at hf hr hd
  refine moved_still hl ?_ ?_ ⟨rfl, rfl, rfl⟩ ?_ ?_ ?_ (.inr ?_)
  · refine passed_through h hl hg hclaim.symm (fun j hj => hclaim.trans (hslot.symm.trans hj)) ?_
    intro j hj
    cases hslot.symm.trans hj
    exact Gate.State.phaseOf_moved hg rfl
  · refine ⟨hf, ?_, ?_⟩
    · simp [hr, hslot, Phase.rank]
    · simp [hd, Phase.Unannounced, Phase.rank]
  all_goals simp [hp, Phase.Monitored, Phase.Listed, Phase.Unannounced, Phase.rank]

theorem moved_finish (h : Kept s) (hl : s.launches[k]? = some l) {out : Outcome}
    (hp : l.phase = .ended out) :
    Moved s ({ s with monitors := s.monitors.erase l.runID }.setLaunch k
        { l with phase := .loading out, finishes := l.finishes + 1 }) k l
      { l with phase := .loading out, finishes := l.finishes + 1 } := by
  have hgate := h.gate k l hl
  rw [Launch.AtGate, hp] at hgate
  obtain ⟨hf, hr, hd⟩ := h.counted k l hl
  rw [hp] at hf hr hd
  have hpassed : Passed k { l with phase := .loading out, finishes := l.finishes + 1 } s.gate s.gate :=
    passed_beside h hl rfl (by simp [Launch.claim, hp]) hgate
  exact
    { hpassed with
      before := hl
      launches := rfl
      calls := rfl
      created := rfl
      runID := rfl
      onDone := rfl
      caller := rfl
      rank := by simp [hp, Phase.rank]
      counted := by
        refine ⟨?_, ?_, ?_⟩
        · simp [hf, Phase.Monitored, Phase.rank]
        · simp [hr, Phase.rank]
        · simp [hd, Phase.Unannounced, Phase.rank]
      cancels := fun r => by simp [Phase.Listed, Phase.rank]
      monitors := fun r => by
        simp [hp, Phase.Monitored, Phase.rank, FinMap.lookup_erase_ite]
      verifying := fun b => by simp [Phase.Unannounced, Phase.rank] }

theorem moved_unlist (h : Kept s) (hl : s.launches[k]? = some l) (hp : l.phase = .unlisting) :
    Moved s ({ s with cancels := s.cancels.erase l.runID }.setLaunch k
        { l with phase := .announcing }) k l { l with phase := .announcing } := by
  have hgate := h.gate k l hl
  rw [Launch.AtGate, hp] at hgate
  have hpassed : Passed k { l with phase := .announcing } s.gate s.gate :=
    passed_beside h hl rfl (by simp [Launch.claim, hp]) hgate
  exact
    { hpassed with
      before := hl
      launches := rfl
      calls := rfl
      created := rfl
      runID := rfl
      onDone := rfl
      caller := rfl
      rank := by simp [hp, Phase.rank]
      counted := by
        refine (h.counted k l hl).congr rfl rfl rfl rfl ?_ ?_ ?_ <;>
          simp [hp, Phase.Monitored, Phase.Unannounced, Phase.rank]
      cancels := fun r => by
        simp [hp, Phase.Listed, Phase.rank, FinMap.lookup_erase_ite]
      monitors := fun r => by simp [hp, Phase.Monitored, Phase.rank]
      verifying := fun b => by simp [Phase.Unannounced, Phase.rank] }

theorem moved_announce (h : Kept s) (hl : s.launches[k]? = some l) (hp : l.phase = .announcing)
    {b : String} (hb : l.onDone = some b) :
    Moved s ({ s with verifying := s.verifying.erase b }.setLaunch k
        { l with phase := .canceling, dones := l.dones + 1 }) k l
      { l with phase := .canceling, dones := l.dones + 1 } := by
  have hgate := h.gate k l hl
  rw [Launch.AtGate, hp] at hgate
  obtain ⟨hf, hr, hd⟩ := h.counted k l hl
  rw [hp] at hf hr hd
  have hpassed : Passed k { l with phase := .canceling, dones := l.dones + 1 } s.gate s.gate :=
    passed_beside h hl rfl (by simp [Launch.claim, hp]) hgate
  exact
    { hpassed with
      before := hl
      launches := rfl
      calls := rfl
      created := rfl
      runID := rfl
      onDone := rfl
      caller := rfl
      rank := by simp [hp, Phase.rank]
      counted := by
        refine ⟨hf, ?_, ?_⟩
        · simp [hr, Phase.rank]
        · simp [hd, hb, Phase.Unannounced, Phase.rank]
      cancels := fun r => by simp [hp, Phase.Listed, Phase.rank]
      monitors := fun r => by simp [hp, Phase.Monitored, Phase.rank]
      verifying := fun x => by
        simp [hp, hb, Phase.Unannounced, Phase.rank, FinMap.lookup_erase_ite, eq_comm] }

theorem unwind_moved (h : Kept s) (hl : s.launches[k]? = some l) (hstep : s.unwind k l = some s') :
    ∃ l', Moved s s' k l l' := by
  have hgate := h.gate k l hl
  simp only [State.unwind] at hstep
  split at hstep
  · rename_i i hp hslot
    obtain ⟨g, hg, rfl⟩ := Option.map_eq_some_iff.mp hstep
    exact ⟨_, moved_release h hl hp hslot hg⟩
  · rename_i hp
    cases hstep
    exact ⟨_, moved_unlist h hl hp⟩
  · rename_i hp
    split at hstep
    · rename_i hnone
      cases hstep
      rw [Launch.AtGate, hp] at hgate
      refine ⟨_, moved_on h hl ?_ hgate (by simp [Launch.claim, hp])⟩
      constructor <;> simp [hp, hnone, Phase.Monitored, Phase.Listed, Phase.rank]
    · rename_i b hb
      cases hstep
      exact ⟨_, moved_announce h hl hp hb⟩
  · rename_i hp
    cases hstep
    rw [Launch.AtGate, hp] at hgate
    refine ⟨_, moved_still hl (passed_beside h hl rfl ?_ hgate) ?_ ⟨rfl, rfl, rfl⟩ ?_ ?_ ?_ (.inr ?_)⟩
    · simp [Launch.claim, hp]
    · refine (h.counted k l hl).congr rfl rfl rfl rfl ?_ ?_ ?_ <;>
        simp [hp, Phase.Monitored, Phase.Unannounced, Phase.rank]
    all_goals simp [hp, Phase.Monitored, Phase.Listed, Phase.Unannounced, Phase.rank]
  · rename_i hp
    cases hstep
    rw [Launch.AtGate, hp] at hgate
    refine ⟨_, moved_on h hl ?_ hgate (by simp [Launch.claim, hp])⟩
    constructor <;> simp [hp, Phase.Monitored, Phase.Listed, Phase.Unannounced, Phase.rank]
  · cases hstep

theorem stepLaunch_moved (h : Kept s) (hl : s.launches[k]? = some l) {a : Action}
    (hstep : s.stepLaunch k l a = some s') (ha : a.goroutine = some k) :
    ∃ l', Moved s s' k l l' := by
  have hgate := h.gate k l hl
  cases a with
  | spawn =>
    obtain ⟨hp, heq⟩ := Option.ite_none_right_eq_some.mp hstep
    cases heq
    rw [Launch.AtGate, hp] at hgate
    refine ⟨_, moved_on h hl ?_ hgate (by simp [Launch.claim, hp])⟩
    constructor <;> simp [hp, Phase.Monitored, Phase.Listed, Phase.Unannounced, Phase.rank]
  | acquire =>
    obtain ⟨hp, hcall⟩ := Option.ite_none_right_eq_some.mp hstep
    obtain ⟨g, hg, rfl⟩ := Option.map_eq_some_iff.mp hcall
    obtain ⟨l', rfl, hmoved⟩ := moved_acquire h hl hp hg
    exact ⟨_, hmoved⟩
  | receive =>
    cases ha
    have hstep' := hstep
    simp only [State.stepLaunch] at hstep'
    split at hstep'
    · rename_i i hp
      exact stepGate_moved h hl (by simp [Launch.claim, hp]) (.inl ⟨hp, .inl rfl⟩) hstep
    · cases hstep'
  | abort =>
    cases ha
    have hstep' := hstep
    simp only [State.stepLaunch] at hstep'
    split at hstep'
    · rename_i i hp
      exact stepGate_moved h hl (by simp [Launch.claim, hp]) (.inl ⟨hp, .inr rfl⟩) hstep
    · cases hstep'
  | giveBack =>
    cases ha
    have hstep' := hstep
    simp only [State.stepLaunch] at hstep'
    split at hstep'
    · rename_i i hp
      exact stepGate_moved h hl (by simp [Launch.claim, hp]) (.inr ⟨hp, rfl⟩) hstep
    · cases hstep'
  | start =>
    obtain ⟨hp, heq⟩ := Option.ite_none_right_eq_some.mp hstep
    cases heq
    rw [Launch.AtGate, hp] at hgate
    refine ⟨_, moved_on h hl ?_ hgate (by simp [Launch.claim, hp])⟩
    constructor <;> simp [hp, Phase.Monitored, Phase.Listed, Phase.Unannounced, Phase.rank]
  | returns _ out =>
    obtain ⟨hp, heq⟩ := Option.ite_none_right_eq_some.mp hstep
    cases heq
    exact ⟨_, moved_ended h hl hp _⟩
  | panics _ text =>
    obtain ⟨hp, heq⟩ := Option.ite_none_right_eq_some.mp hstep
    cases heq
    exact ⟨_, moved_ended h hl hp _⟩
  | finish =>
    simp only [State.stepLaunch] at hstep
    split at hstep
    · rename_i out hp
      cases hstep
      exact ⟨_, moved_finish h hl hp⟩
    · cases hstep
  | load _ cur =>
    simp only [State.stepLaunch] at hstep
    split at hstep
    · rename_i hp
      cases hstep
      exact ⟨_, moved_afterFinish h hl (by simp [hp, Phase.rank])⟩
    · rename_i out cur hp
      cases hstep
      rw [Launch.AtGate, hp] at hgate
      split <;>
      · refine ⟨_, moved_on h hl ?_ hgate (by simp [Launch.claim, hp])⟩
        constructor <;> simp [hp, Phase.Monitored, Phase.Listed, Phase.Unannounced, Phase.rank]
    · cases hstep
  | readPct _ pct =>
    simp only [State.stepLaunch] at hstep
    split at hstep
    · rename_i v hp
      cases hstep
      rw [Launch.AtGate, hp] at hgate
      refine ⟨_, moved_on h hl ?_ hgate (by simp [Launch.claim, hp])⟩
      constructor <;> simp [hp, Phase.Monitored, Phase.Listed, Phase.Unannounced, Phase.rank]
    · cases hstep
  | write =>
    simp only [State.stepLaunch] at hstep
    split at hstep
    · rename_i v pct hp
      cases hstep
      exact ⟨_, moved_afterFinish h hl (by simp [hp, Phase.rank])⟩
    · cases hstep
  | unwind => exact unwind_moved h hl hstep
  | _ => cases hstep

end ProxBack.Sched.Lifecycle
