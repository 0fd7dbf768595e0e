import ProxBack.Engine.Basic
import ProxBack.Lib.Requests

/-! An update that is installed restarts its process: the one of a node helper, and the one of the
server. Both look for work in progress before they download anything. -/
namespace ProxBack.Update
open Lib
open Engine (Fault)

namespace Helper

/-- No operation reads `exits`, which tells what was in flight as the process exited. -/
structure Shared where
  inflight : Nat
  restartc : Bool
  draining : Bool
  exits : List Nat

/-- The phases of an export, an import or a script, those of an update, and those of the run
loop. -/
inductive Phase where
  | connecting (update : Bool)
  | validating (update : Bool)
  | starting
  | working
  | checking
  | installing
  | restarting
  | serving
  | stopping
  | returned
deriving DecidableEq, Repr

inductive Arrival where
  | work
  | update

inductive Access where
  | accept
  | validate (ok : Bool)
  | startWork
  | finishWork
  | busy
  | applyUpdate (ok : Bool)
  | requestRestart
  | stop
  | exit (timedOut : Bool)

def arrive : Arrival → Phase
  | .work => .connecting false
  | .update => .connecting true

def serve : Access → Shared → Phase → Option (Shared × Phase)
  | .accept, s, .connecting update => if s.draining then none else some (s, .validating update)
  | .validate ok, s, .validating update =>
    some (s, if ¬ ok then .returned else if update then .checking else .starting)
  | .startWork, s, .starting => some ({ s with inflight := s.inflight + 1 }, .working)
  | .finishWork, s, .working => some ({ s with inflight := s.inflight - 1 }, .returned)
  | .busy, s, .checking => some (s, if s.inflight > 0 then .returned else .installing)
  | .applyUpdate ok, s, .installing => some (s, if ok then .restarting else .returned)
  | .requestRestart, s, .restarting => some ({ s with restartc := true }, .returned)
  | .stop, s, .serving => if s.restartc then some ({ s with draining := true }, .stopping) else none
  | .exit timedOut, s, .stopping =>
    -- the shutdown waits for what is in flight, for ten seconds
    if timedOut ∨ s.inflight = 0 then some ({ s with exits := s.exits ++ [s.inflight] }, .returned)
    else none
  | _, _, _ => none

def advance (b : Access) (s : Shared) (q : Phase) : Option (Shared × Phase) :=
  if s.exits = [] then serve b s q else none

def service : Service Shared Phase Arrival Access := ⟨arrive, advance⟩

def initial : Hall Shared Phase := ⟨⟨0, false, false, []⟩, [.serving]⟩

def Phase.updating : Phase → Bool
  | .installing | .restarting | .stopping => true
  | _ => false

/-- The condition on the steps: no work starts once an update has found the helper idle. -/
def Unhurried (w : Hall Shared Phase) : Turn Arrival Access → Prop
  | .advance _ .startWork => w.shared.restartc = false ∧ ∀ q ∈ w.requests, q.updating = false
  | _ => True

instance (w : Hall Shared Phase) (t : Turn Arrival Access) : Decidable (Unhurried w t) := by
  unfold Unhurried
  split
  · exact inferInstanceAs (Decidable (_ ∧ ∀ q ∈ w.requests, _))
  · infer_instance

abbrev Updating (w : Hall Shared Phase) : Prop :=
  Service.Pending (fun s => s.restartc = true) (fun q => q.updating = true) w

variable {w : Hall Shared Phase} {i : Nat} {b : Access} {q q' : Phase} {s : Shared}

theorem Unhurried.not_updating (h : Unhurried w (.advance i .startWork)) : ¬ Updating w := by
  obtain ⟨hopen, hnone⟩ : w.shared.restartc = false ∧ ∀ q ∈ w.requests, q.updating = false := h
  rintro (hclosed | ⟨q, hq, hupdating⟩)
  · exact Bool.false_ne_true (hopen.symm.trans hclosed)
  · exact Bool.false_ne_true ((hnone q hq).symm.trans hupdating)

theorem idle_advance (hexits : ∀ n ∈ w.shared.exits, n = 0)
    (hidle : Updating w → w.shared.inflight = 0) (hq : w.requests[i]? = some q)
    (hok : Unhurried w (.advance i b)) (h : advance b w.shared q = some (s, q')) :
    (∀ n ∈ s.exits, n = 0) ∧ (Updating w → w.shared.inflight = 0 → s.inflight = 0) ∧
      (s.restartc = true ∨ q'.updating = true → Updating w ∨ s.inflight = 0) := by
  have hmem := List.mem_of_getElem? hq
  unfold advance at h
  split at h
  · unfold serve at h
    split at h
    · split at h
      · cases h
      · cases h
        exact ⟨hexits, fun _ => id, fun hup => hup.elim (fun hC => .inl (.inl hC)) nofun⟩
    · cases h
      refine ⟨hexits, fun _ => id, fun hup => hup.elim (fun hC => .inl (.inl hC)) fun hU => ?_⟩
      split at hU
      · cases hU
      · split at hU <;> cases hU
    · cases h
      have hnot := hok.not_updating
      exact ⟨hexits, fun hup => absurd hup hnot,
        fun hup => hup.elim (fun hC => .inl (.inl hC)) nofun⟩
    · cases h
      refine ⟨hexits, fun _ hzero => ?_, fun hup => hup.elim (fun hC => .inl (.inl hC)) nofun⟩
      show w.shared.inflight - 1 = 0
      rw [hzero]
    · -- the check finds nothing in flight, or refuses
      cases h
      refine ⟨hexits, fun _ => id, fun hup => hup.elim (fun hC => .inl (.inl hC)) fun hU => ?_⟩
      split at hU
      · cases hU
      · rename_i hnone
        exact .inr (Nat.eq_zero_of_not_pos hnone)
    · cases h
      exact ⟨hexits, fun _ => id, fun _ => .inl (.inr ⟨_, hmem, rfl⟩)⟩
    · cases h
      exact ⟨hexits, fun _ => id, fun _ => .inl (.inr ⟨_, hmem, rfl⟩)⟩
    · split at h
      · rename_i hclosed
        cases h
        exact ⟨hexits, fun _ => id, fun _ => .inl (.inl hclosed)⟩
      · cases h
    · split at h
      · cases h
        refine ⟨fun n hn => ?_, fun _ => id, fun hup => hup.elim (fun hC => .inl (.inl hC)) nofun⟩
        rcases List.mem_append.mp hn with hn | hn
        · exact hexits n hn
        · rw [List.mem_singleton.mp hn]
          exact hidle (.inr ⟨_, hmem, rfl⟩)
      · cases h
    · cases h
  · cases h

theorem idle_at_exits {ts : List (Turn Arrival Access)}
    (h : service.system.Run Unhurried initial ts w) : ∀ n ∈ w.shared.exits, n = 0 := by
  have hrun := Service.excludes (S := service) (I := fun s => ∀ n ∈ s.exits, n = 0)
    (C := fun s => s.restartc = true) (Q := fun s => s.inflight = 0) (U := fun q => q.updating = true)
    (fun a => by cases a <;> exact Bool.false_ne_true)
    (fun w i b q s q' hI hQ hq hok hadv => idle_advance hI hQ hq hok hadv) h ⟨nofun, fun _ => rfl⟩
  exact hrun.1

end Helper

namespace Server

/-- `running` counts the run rows in progress. No operation reads `restarts`, which tells how many
there were as the process closed the scheduler, which cancels them, and exited. -/
structure Shared where
  running : Nat
  restartc : Bool
  restarts : List Nat

/-- The phases of a run that is triggered, those of an update, and those of the main function. -/
inductive Phase where
  | triggering
  | running
  | checking (force : Bool)
  | fetching
  | applying
  | refreshing
  | restarting
  | serving
  | stopping
  | returned
deriving DecidableEq, Repr

inductive Arrival where
  | trigger
  | update (force : Bool)

inductive Access where
  | createRun (res : Written)
  | finishRun (res : Written)
  | countRunningRuns (fault : Option Fault)
  | release (ok : Bool)
  | apply (ok : Bool)
  | refresh
  | requestRestart
  | stop
  | exit

def arrive : Arrival → Phase
  | .trigger => .triggering
  | .update force => .checking force

def countRunningRuns (s : Shared) (force : Bool) (fault : Option Fault) : Phase :=
  if force then .fetching
  else
    match fault with
    | some _ => .returned
    | none => if s.running > 0 then .returned else .fetching

/-- `wired` tells whether the server can restart itself. -/
def serve (wired : Bool) : Access → Shared → Phase → Option (Shared × Phase)
  | .createRun res, s, .triggering =>
    some (res.outcome s (some ({ s with running := s.running + 1 }, .running)) .returned)
  | .finishRun res, s, .running =>
    some (res.outcome s (some ({ s with running := s.running - 1 }, .returned)) .returned)
  | .countRunningRuns fault, s, .checking force => some (s, countRunningRuns s force fault)
  | .release ok, s, .fetching => some (s, if ok then .applying else .returned)
  | .apply ok, s, .applying => some (s, if ok then .refreshing else .returned)
  | .refresh, s, .refreshing => some (s, if wired then .restarting else .returned)
  | .requestRestart, s, .restarting => some ({ s with restartc := true }, .returned)
  | .stop, s, .serving => if s.restartc then some (s, .stopping) else none
  | .exit, s, .stopping =>
    -- the shutdown waits up to thirty seconds for open requests; these and the cron still trigger runs
    some ({ s with restarts := s.restarts ++ [s.running] }, .returned)
  | _, _, _ => none

def advance (wired : Bool) (b : Access) (s : Shared) (q : Phase) : Option (Shared × Phase) :=
  if s.restarts = [] then serve wired b s q else none

def service (wired : Bool) : Service Shared Phase Arrival Access := ⟨arrive, advance wired⟩

def initial (running : Nat) : Hall Shared Phase := ⟨⟨running, false, []⟩, [.serving]⟩

def Phase.updating : Phase → Bool
  | .fetching | .applying | .refreshing | .restarting | .stopping => true
  | _ => false

/-- The condition on the steps: no run is created once an update has found none in progress, until
the process exits. No update is forced. -/
def Unhurried (w : Hall Shared Phase) : Turn Arrival Access → Prop
  | .advance _ (.createRun _) => w.shared.restartc = false ∧ ∀ q ∈ w.requests, q.updating = false
  | .advance i (.countRunningRuns _) => w.requests[i]? ≠ some (.checking true)
  | _ => True

instance (w : Hall Shared Phase) (t : Turn Arrival Access) : Decidable (Unhurried w t) := by
  unfold Unhurried
  split
  · exact inferInstanceAs (Decidable (_ ∧ ∀ q ∈ w.requests, _))
  · infer_instance
  · infer_instance

abbrev Updating (w : Hall Shared Phase) : Prop :=
  Service.Pending (fun s => s.restartc = true) (fun q => q.updating = true) w

variable {wired : Bool} {w : Hall Shared Phase} {i : Nat} {b : Access} {q q' : Phase} {s : Shared}

theorem Unhurried.not_updating {res : Written} (h : Unhurried w (.advance i (.createRun res))) :
    ¬ Updating w := by
  obtain ⟨hopen, hnone⟩ : w.shared.restartc = false ∧ ∀ q ∈ w.requests, q.updating = false := h
  rintro (hclosed | ⟨q, hq, hupdating⟩)
  · exact Bool.false_ne_true (hopen.symm.trans hclosed)
  · exact Bool.false_ne_true ((hnone q hq).symm.trans hupdating)

theorem idle_advance (hrestarts : ∀ n ∈ w.shared.restarts, n = 0)
    (hidle : Updating w → w.shared.running = 0) (hq : w.requests[i]? = some q)
    (hok : Unhurried w (.advance i b)) (h : advance wired b w.shared q = some (s, q')) :
    (∀ n ∈ s.restarts, n = 0) ∧ (Updating w → w.shared.running = 0 → s.running = 0) ∧
      (s.restartc = true ∨ q'.updating = true → Updating w ∨ s.running = 0) := by
  have hmem := List.mem_of_getElem? hq
  replace h := (Option.ite_none_right_eq_some.mp h).2
  unfold serve at h
  split at h
  · have hnot := hok.not_updating
    refine Written.outcome_spec (R := fun s q' => (∀ n ∈ s.restarts, n = 0) ∧
      (Updating w → w.shared.running = 0 → s.running = 0) ∧
      (s.restartc = true ∨ q'.updating = true → Updating w ∨ s.running = 0)) ?_
      (fun s₁ q₁ heffect => ?_) (Option.some.inj h)
    · exact ⟨hrestarts, fun _ => id, fun hup => hup.elim (fun hC => .inl (.inl hC)) nofun⟩
    · cases heffect
      have hboth : ∀ q : Phase, q.updating = false →
          w.shared.restartc = true ∨ q.updating = true → Updating w ∨ w.shared.running + 1 = 0 :=
        fun q hq hup => hup.elim (fun hC => .inl (.inl hC)) fun hU => by rw [hq] at hU; cases hU
      exact ⟨⟨hrestarts, fun hup => absurd hup hnot, hboth _ rfl⟩, hrestarts,
        fun hup => absurd hup hnot, hboth _ rfl⟩
  · have hless : w.shared.running = 0 → w.shared.running - 1 = 0 := fun hzero => by rw [hzero]
    refine Written.outcome_spec (R := fun s q' => (∀ n ∈ s.restarts, n = 0) ∧
      (Updating w → w.shared.running = 0 → s.running = 0) ∧
      (s.restartc = true ∨ q'.updating = true → Updating w ∨ s.running = 0)) ?_
      (fun s₁ q₁ heffect => ?_) (Option.some.inj h)
    · exact ⟨hrestarts, fun _ => id, fun hup => hup.elim (fun hC => .inl (.inl hC)) nofun⟩
    · cases heffect
      exact ⟨⟨hrestarts, fun _ => hless, fun hup => hup.elim (fun hC => .inl (.inl hC)) nofun⟩,
        hrestarts, fun _ => hless, fun hup => hup.elim (fun hC => .inl (.inl hC)) nofun⟩
  · -- the check finds no run in progress, or refuses
    rename_i fault force
    cases h
    refine ⟨hrestarts, fun _ => id, fun hup => hup.elim (fun hC => .inl (.inl hC)) fun hU => .inr ?_⟩
    have hforce : force ≠ true := by
      rintro rfl
      exact hok hq
    unfold countRunningRuns at hU
    rw [if_neg hforce] at hU
    split at hU
    · cases hU
    · split at hU
      · cases hU
      · rename_i hnone
        exact Nat.eq_zero_of_not_pos hnone
  · cases h
    exact ⟨hrestarts, fun _ => id, fun _ => .inl (.inr ⟨_, hmem, rfl⟩)⟩
  · cases h
    exact ⟨hrestarts, fun _ => id, fun _ => .inl (.inr ⟨_, hmem, rfl⟩)⟩
  · cases h
    exact ⟨hrestarts, fun _ => id, fun _ => .inl (.inr ⟨_, hmem, rfl⟩)⟩
  · cases h
    exact ⟨hrestarts, fun _ => id, fun _ => .inl (.inr ⟨_, hmem, rfl⟩)⟩
  · obtain ⟨hclosed, heq⟩ := Option.ite_none_right_eq_some.mp h
    cases heq
    exact ⟨hrestarts, fun _ => id, fun _ => .inl (.inl hclosed)⟩
  · cases h
    refine ⟨fun n hn => ?_, fun _ => id, fun hup => hup.elim (fun hC => .inl (.inl hC)) nofun⟩
    rcases List.mem_append.mp hn with hn | hn
    · exact hrestarts n hn
    · rw [List.mem_singleton.mp hn]
      exact hidle (.inr ⟨_, hmem, rfl⟩)
  · cases h

theorem idle_at_restarts {running : Nat} {ts : List (Turn Arrival Access)}
    (h : (service wired).system.Run Unhurried (initial running) ts w) :
    ∀ n ∈ w.shared.restarts, n = 0 := by
  have hstart : ¬ Updating (initial running) := by
    rintro (hclosed | ⟨q, hq, hupdating⟩)
    · cases hclosed
    · rw [List.mem_singleton.mp hq] at hupdating
      cases hupdating
  have hrun := Service.excludes (S := service wired) (I := fun s => ∀ n ∈ s.restarts, n = 0)
    (C := fun s => s.restartc = true) (Q := fun s => s.running = 0) (U := fun q => q.updating = true)
    (fun a => by cases a <;> exact Bool.false_ne_true)
    (fun w i b q s q' hI hQ hq hok hadv => idle_advance hI hQ hq hok hadv) h
    ⟨nofun, fun hup => absurd hup hstart⟩
  exact hrun.1

end Server

theorem restarts_idle (wired : Bool) (running : Nat) :
    (∀ ts w, Helper.service.system.Run Helper.Unhurried Helper.initial ts w →
      ∀ n ∈ w.shared.exits, n = 0) ∧
    ∀ ts w, (Server.service wired).system.Run Server.Unhurried (Server.initial running) ts w →
      ∀ n ∈ w.shared.restarts, n = 0 :=
  ⟨fun _ _ h => Helper.idle_at_exits h, fun _ _ h => Server.idle_at_restarts h⟩

/-- An update that has found the helper idle, and an export that has been accepted. -/
def helperUpdate : List (Turn Helper.Arrival Helper.Access) :=
  [.arrive .update, .arrive .work, .advance 1 .accept, .advance 1 (.validate true),
    .advance 2 .accept, .advance 2 (.validate true)]

def helperInstall : List (Turn Helper.Arrival Helper.Access) :=
  [.advance 1 (.applyUpdate true), .advance 1 .requestRestart, .advance 0 .stop,
    .advance 0 (.exit true)]

def serverInstall : List (Turn Server.Arrival Server.Access) :=
  [.advance 1 (.release true), .advance 1 (.apply true), .advance 1 .refresh,
    .advance 1 .requestRestart, .advance 0 .stop, .advance 0 .exit]

theorem restarts_idle_waiting :
    (∃ w, Helper.service.system.Run Helper.Unhurried Helper.initial
      (helperUpdate ++ ([.advance 2 .startWork, .advance 2 .finishWork, .advance 1 .busy] ++
        helperInstall)) w ∧ w.shared.exits = [0] ∧ ∀ n ∈ w.shared.exits, n = 0) ∧
    ∃ w, (Server.service true).system.Run Server.Unhurried (Server.initial 0)
      (.arrive (.update false) :: .advance 1 (.countRunningRuns none) :: serverInstall) w ∧
      w.shared.restarts = [0] ∧ ∀ n ∈ w.shared.restarts, n = 0 := by
  constructor
  · obtain ⟨w, hfollow, hexits⟩ : ∃ w, Helper.service.system.follow
        (helperUpdate ++ ([.advance 2 .startWork, .advance 2 .finishWork, .advance 1 .busy] ++
          helperInstall)) Helper.initial = some w ∧ w.shared.exits = [0] := ⟨_, rfl, rfl⟩
    have hrun := System.run_of_trail (p := fun x => decide (Helper.Unhurried x.1 x.2))
      (fun _ _ h => of_decide_eq_true h) hfollow (by decide +kernel)
    exact ⟨w, hrun, hexits, (restarts_idle true 0).1 _ w hrun⟩
  · obtain ⟨w, hfollow, hrestarts⟩ : ∃ w, (Server.service true).system.follow
        (.arrive (.update false) :: .advance 1 (.countRunningRuns none) :: serverInstall)
        (Server.initial 0) = some w ∧ w.shared.restarts = [0] := ⟨_, rfl, rfl⟩
    have hrun := System.run_of_trail (p := fun x => decide (Server.Unhurried x.1 x.2))
      (fun _ _ h => of_decide_eq_true h) hfollow (by decide +kernel)
    exact ⟨w, hrun, hrestarts, (restarts_idle true 0).2 _ w hrun⟩

/-- An export starts, and a run is triggered, while the update is downloaded. -/
theorem restarts_interrupt :
    (∃ w, Helper.service.system.Run (fun _ _ => True) Helper.initial
      (helperUpdate ++ ([.advance 1 .busy, .advance 2 .startWork] ++ helperInstall)) w ∧
      w.shared.exits = [1]) ∧
    ∃ w, (Server.service true).system.Run (fun _ _ => True) (Server.initial 0)
      (.arrive (.update false) :: .arrive .trigger :: .advance 1 (.countRunningRuns none) ::
        .advance 2 (.createRun .done) :: serverInstall) w ∧ w.shared.restarts = [1] :=
  ⟨⟨_, System.run_of_follow (fun _ _ _ => trivial) rfl, rfl⟩,
    _, System.run_of_follow (fun _ _ _ => trivial) rfl, rfl⟩

end ProxBack.Update
