import ProxBack.Sched.RunRowsSafe
import ProxBack.Sched.Trigger

/-! A job has at most one running run, if no row is made for it while another request has
found it not running and has not made its own row yet. -/
namespace ProxBack.Sched
open Lib
open Engine (Time Fault Snapshot)
open Store (RunTable JobRun Verdict)
open Lifecycle (Launch Call Kept)

namespace Lifecycle

/-- What `finish` is about to write of a run is not that it runs. -/
def Phase.Concludes : Phase → Prop
  | .closing v | .writing v _ => v.status ≠ .running
  | _ => True

def Concluding (s : State) : Prop :=
  ∀ (k : Nat) (l : Launch), s.launches[k]? = some l → l.phase.Concludes

theorem verdict_concludes (cur : JobRun) (out : Outcome) : (verdict cur out).status ≠ .running := by
  unfold verdict
  dsimp only
  cases out.err with
  | none => nofun
  | some err =>
    dsimp only
    split <;> nofun

theorem afterFinish_concludes (l : Launch) : (State.afterFinish l).Concludes := by
  unfold State.afterFinish
  split <;> trivial

section
variable {s s' : State} {k : Nat} {l : Launch} {a : Action}

theorem concludes_set (hl : s.launches[k]? = some l) {l' y : Launch} {launches : List Launch}
    (heq : launches = s.launches.set k l') (hy : launches[k]? = some y) (h : l'.phase.Concludes) :
    y.phase.Concludes := by
  have hlt : k < s.launches.length := (List.getElem?_eq_some_iff.mp hl).1
  rw [heq, List.getElem?_set_self hlt] at hy
  cases hy
  exact h

theorem gateCall_concludes (hl : s.launches[k]? = some l) {act : Gate.Action}
    {f : Gate.State → Launch} (hstep : s.gateCall act k f = some s') {y : Launch}
    (hy : s'.launches[k]? = some y) (h : ∀ g, (f g).phase.Concludes) : y.phase.Concludes := by
  obtain ⟨g, -, rfl⟩ := Option.map_eq_some_iff.mp hstep
  exact concludes_set hl rfl hy (h g)

theorem stepLaunch_concludes (hl : s.launches[k]? = some l) (hstep : s.stepLaunch k l a = some s')
    {y : Launch} (hy : s'.launches[k]? = some y) (h : l.phase.Concludes) : y.phase.Concludes := by
  cases a with
  | spawn | start | returns | panics =>
    obtain ⟨-, heq⟩ := Option.ite_none_right_eq_some.mp hstep
    cases heq
    exact concludes_set hl rfl hy trivial
  | acquire =>
    obtain ⟨-, hcall⟩ := Option.ite_none_right_eq_some.mp hstep
    refine gateCall_concludes hl hcall hy fun g => ?_
    dsimp only
    split <;> trivial
  | receive =>
    simp only [State.stepLaunch] at hstep
    split at hstep
    · exact gateCall_concludes hl hstep hy fun g => trivial
    · cases hstep
  | abort =>
    simp only [State.stepLaunch] at hstep
    split at hstep
    · refine gateCall_concludes hl hstep hy fun g => ?_
      split <;> trivial
    · cases hstep
  | giveBack =>
    simp only [State.stepLaunch] at hstep
    split at hstep
    · exact gateCall_concludes hl hstep hy fun g => trivial
    · cases hstep
  | finish =>
    simp only [State.stepLaunch] at hstep
    split at hstep <;> cases hstep
    exact concludes_set hl rfl hy trivial
  | load _ cur =>
    simp only [State.stepLaunch] at hstep
    split at hstep
    · cases hstep
      exact concludes_set hl rfl hy (afterFinish_concludes l)
    · cases hstep
      refine concludes_set hl rfl hy ?_
      dsimp only
      split <;> exact verdict_concludes _ _
    · cases hstep
  | readPct _ pct =>
    simp only [State.stepLaunch] at hstep
    split at hstep
    · rename_i v hp
      cases hstep
      rw [hp] at h
      exact concludes_set hl rfl hy h
    · cases hstep
  | write =>
    simp only [State.stepLaunch] at hstep
    split at hstep <;> cases hstep
    exact concludes_set hl rfl hy (afterFinish_concludes l)
  | unwind =>
    simp only [State.stepLaunch, State.unwind] at hstep
    split at hstep
    · exact gateCall_concludes hl hstep hy fun g => trivial
    · cases hstep
      exact concludes_set hl rfl hy trivial
    · split at hstep <;> cases hstep <;> exact concludes_set hl rfl hy trivial
    · cases hstep
      exact concludes_set hl rfl hy trivial
    · cases hstep
      exact concludes_set hl rfl hy trivial
    · cases hstep
  | _ => cases hstep

theorem Concluding.step (h : Concluding s) (hkept : Kept s) (hstep : State.step a s = some s') :
    Concluding s' := by
  intro k y hy
  cases hkept.cases hstep with
  | moved ha hs q =>
    rcases q.split hy with ⟨rfl, rfl⟩ | ⟨-, hl⟩
    · exact stepLaunch_concludes q.before hs hy (h _ _ q.before)
    · exact h k y hl
  | recalled _ q => exact h k y (q.launches ▸ hy)
  | launched _ hx hp hrun heq =>
    subst heq
    rcases launch_split hy with ⟨-, rfl⟩ | ⟨-, hl⟩
    · trivial
    · exact h k y hl
  | beside _ q => exact h k y (q.launches ▸ hy)

end

end Lifecycle

namespace RunRows

def Creates (r : String) (a : Action) : Prop := ∃ c st, a = .life (.create c (some r)) st

theorem written_running {w : State} {r : String} {a : Lifecycle.Action} {st : Statement}
    {row : JobRun} (hconc : Lifecycle.Concluding w.life)
    (hrow : (w.written st a).lookup r = some row) (hrun : row.status = .running) :
    (∃ row', w.rows.lookup r = some row' ∧ row'.status = .running) ∨ ∃ c, a = .create c (some r) := by
  unfold State.written at hrow
  split at hrow
  · rename_i c r'
    rw [RunTable.createRun, FinMap.lookup_insert_ite] at hrow
    split at hrow
    · rename_i heq
      exact .inr ⟨c, by rw [heq]⟩
    · exact .inl ⟨row, hrow, hrun⟩
  · split at hrow
    · exact .inl ⟨row, hrow, hrun⟩
    split at hrow
    · rw [RunTable.setRunStep, RunTable.lookup_update] at hrow
      split at hrow
      · obtain ⟨row', hrow', rfl⟩ := Option.map_eq_some_iff.mp hrow
        exact .inl ⟨row', hrow', hrun⟩
      · exact .inl ⟨row, hrow, hrun⟩
    · exact .inl ⟨row, hrow, hrun⟩
  · split at hrow
    · exact .inl ⟨row, hrow, hrun⟩
    rename_i l hl
    split at hrow
    · rename_i v pct hp
      split at hrow
      · rw [RunTable.finishRun, RunTable.lookup_update] at hrow
        split at hrow
        · -- the verdict would be that the run goes on
          obtain ⟨row', -, rfl⟩ := Option.map_eq_some_iff.mp hrow
          have hv := hconc _ l hl
          rw [hp] at hv
          exact absurd hrun hv
        · exact .inl ⟨row, hrow, hrun⟩
      · exact .inl ⟨row, hrow, hrun⟩
    · exact .inl ⟨row, hrow, hrun⟩
  · exact .inl ⟨row, hrow, hrun⟩

theorem running_back {cfg : Agent.Config} {w w' : State} {a : Action} {r : String} {row : JobRun}
    (hconc : Lifecycle.Concluding w.life) (hstep : w.step cfg a = some w')
    (hrow : w'.rows.lookup r = some row) (hrun : row.status = .running) :
    (∃ row', w.rows.lookup r = some row' ∧ row'.status = .running) ∨ Creates r a := by
  have hprogress : ∀ {ok : Bool} {p : Option (String × Snapshot)},
      (w.progress ok p).lookup r = some row →
      ∃ row', w.rows.lookup r = some row' ∧ row'.status = .running := by
    intro ok p hlook
    obtain ⟨row', hrow', hstatus⟩ := progress_status hlook
    exact ⟨row', hrow', hstatus.trans hrun⟩
  cases a with
  | life a st =>
    obtain ⟨-, hstep⟩ := Option.ite_none_right_eq_some.mp hstep
    obtain ⟨life, -, rfl⟩ := Option.map_eq_some_iff.mp hstep
    rcases written_running hconc hrow hrun with hold | ⟨c, rfl⟩
    · exact .inl hold
    · exact .inr ⟨c, st, rfl⟩
  | agent a ok =>
    obtain ⟨-, hstep⟩ := Option.ite_none_right_eq_some.mp hstep
    obtain ⟨ex, -, rfl⟩ := Option.map_eq_some_iff.mp hstep
    exact .inl (hprogress hrow)
  | enter k =>
    simp only [State.step] at hstep
    split at hstep
    · cases hstep
    obtain ⟨-, heq⟩ := Option.ite_none_right_eq_some.mp hstep
    cases heq
    exact .inl ⟨row, hrow, hrun⟩
  | snapshot i snap =>
    simp only [State.step] at hstep
    split at hstep <;> cases hstep
    exact .inl ⟨row, hrow, hrun⟩
  | emit i ok =>
    simp only [State.step] at hstep
    split at hstep <;> cases hstep
    exact .inl (hprogress hrow)
  | leave i =>
    simp only [State.step] at hstep
    split at hstep <;> cases hstep
    exact .inl ⟨row, hrow, hrun⟩
  | delete r' =>
    cases hstep
    rw [RunTable.deleteJobRun, FinMap.lookup_erase_ite] at hrow
    split at hrow
    · cases hrow
    · exact .inl ⟨row, hrow, hrun⟩
  | restart now =>
    cases hstep
    rw [RunTable.markOrphanRunsFailed, FinMap.lookup_mapVal] at hrow
    obtain ⟨row', hrow', rfl⟩ := Option.map_eq_some_iff.mp hrow
    split at hrun
    · cases hrun
    · exact .inl ⟨row', hrow', hrun⟩

theorem life_step {cfg : Agent.Config} {w w' : State} {a : Action} (hstep : w.step cfg a = some w') :
    w'.life = w.life ∨ (∃ act, Lifecycle.State.step act w.life = some w'.life) ∨
      w'.life = { Lifecycle.State.initial with created := w.life.created } := by
  cases a with
  | life a st =>
    obtain ⟨-, hstep⟩ := Option.ite_none_right_eq_some.mp hstep
    obtain ⟨life, hlife, rfl⟩ := Option.map_eq_some_iff.mp hstep
    exact .inr (.inl ⟨a, hlife⟩)
  | agent a ok =>
    obtain ⟨-, hstep⟩ := Option.ite_none_right_eq_some.mp hstep
    obtain ⟨ex, -, rfl⟩ := Option.map_eq_some_iff.mp hstep
    exact .inl rfl
  | enter k =>
    simp only [State.step] at hstep
    split at hstep
    · cases hstep
    obtain ⟨-, heq⟩ := Option.ite_none_right_eq_some.mp hstep
    cases heq
    exact .inl rfl
  | snapshot i snap =>
    simp only [State.step] at hstep
    split at hstep <;> cases hstep
    exact .inl rfl
  | emit i ok =>
    simp only [State.step] at hstep
    split at hstep <;> cases hstep
    exact .inl rfl
  | leave i =>
    simp only [State.step] at hstep
    split at hstep <;> cases hstep
    exact .inl rfl
  | delete r =>
    cases hstep
    exact .inl rfl
  | restart now =>
    cases hstep
    exact .inr (.inr rfl)

structure Sound (w : State) : Prop where
  kept : Kept w.life
  concluding : Lifecycle.Concluding w.life

theorem sound_initial (now : Time) : Sound (.initial now) where
  kept := Lifecycle.kept_initial []
  concluding := by
    intro k l hl
    simp [State.initial, Lifecycle.State.initial] at hl

theorem Sound.step {cfg : Agent.Config} {w w' : State} {a : Action} (h : Sound w)
    (hstep : w.step cfg a = some w') :
    Sound w' ∧ ∀ r ∈ w.life.created, r ∈ w'.life.created := by
  rcases life_step hstep with heq | ⟨act, hact⟩ | heq
  · rw [heq]
    exact ⟨⟨heq ▸ h.kept, heq ▸ h.concluding⟩, fun r => id⟩
  · exact ⟨⟨h.kept.step act hact, h.concluding.step h.kept hact⟩, fun r => created_mono h.kept hact⟩
  · refine ⟨⟨heq ▸ Lifecycle.kept_initial _, ?_⟩, fun r hr => heq ▸ hr⟩
    intro k l hl
    simp [heq, Lifecycle.State.initial] at hl

theorem create_fresh_step {cfg : Agent.Config} {w w' : State} {c : Nat} {r : String} {st : Statement}
    (hstep : w.step cfg (.life (.create c (some r)) st) = some w') :
    r ∉ w.life.created ∧ r ∈ w'.life.created := by
  simp only [State.step] at hstep
  obtain ⟨-, hstep⟩ := Option.ite_none_right_eq_some.mp hstep
  obtain ⟨life, hlife, rfl⟩ := Option.map_eq_some_iff.mp hstep
  exact create_fresh hlife

end RunRows

namespace Trigger

def Phase.passed : Phase → Option String
  | .creating jobID _ => some jobID
  | _ => none

def Exclusive (w : State) : Action → Prop
  | .createRun i (.ok _) => ∀ q, w.requests[i]? = some q → ∀ k q', k ≠ i →
    w.requests[k]? = some q' → ∀ jobID, q.phase.passed = some jobID → q'.phase.passed ≠ some jobID
  | _ => True

/-- No job has two running runs, and a request that found its job running was refused. -/
structure OneRunning (w : State) : Prop where
  unique : ∀ jobID, jobID ≠ "" → ∀ r r', w.running jobID r = true → w.running jobID r' = true →
    r = r'
  refused : ∀ q ∈ w.requests, q.found = true → q.phase = .answered (.error .alreadyRunning)

structure Request.Fits (w : State) (q : Request) : Prop where
  refused : q.found = true → q.phase = .answered (.error .alreadyRunning)
  named : ∀ jobID, q.phase = .checking jobID → jobID ≠ ""
  clear : ∀ jobID, q.phase.passed = some jobID → jobID ≠ "" ∧ ∀ r, ¬ w.running jobID r = true

structure Kept (w : State) : Prop where
  sound : RunRows.Sound w.srv
  jobs : w.jobs.lookup "" = none
  jobOf : ∀ r, w.jobOf.lookup r ≠ none → r ∈ w.srv.life.created
  unique : ∀ jobID, jobID ≠ "" → ∀ r r', w.running jobID r = true → w.running jobID r' = true →
    r = r'
  fits : ∀ q ∈ w.requests, q.Fits w

theorem Kept.oneRunning {w : State} (h : Kept w) : OneRunning w where
  unique := h.unique
  refused := fun q hq => (h.fits q hq).refused

theorem kept_initial (now : Time) : Kept (.initial now) where
  sound := RunRows.sound_initial now
  jobs := AList.lookup_empty _
  jobOf := fun r hr => absurd (AList.lookup_empty r) hr
  unique := by
    intro jobID _ r r' hr
    simp [State.running, State.initial, RunRows.State.initial] at hr
  fits := by simp [State.initial]

section
variable {cfg : Agent.Config} {w w' : State}

@[simp] theorem running_iff {jobID r : String} : w.running jobID r = true ↔
    ∃ row, w.srv.rows.lookup r = some row ∧ row.status = .running ∧ w.jobID r = jobID := by
  unfold State.running
  cases w.srv.rows.lookup r with
  | none => simp
  | some row => simp

theorem not_running_of_hasRunningRun {jobID : String} (h : w.hasRunningRun jobID = false)
    (r : String) : ¬ w.running jobID r = true := by
  intro hrun
  obtain ⟨row, hrow, -⟩ := running_iff.mp hrun
  have hmem : r ∈ w.srv.rows.keys := AList.mem_keys.mp (AList.lookup_isSome.mp (by simp [hrow]))
  have hany : w.hasRunningRun jobID = true := List.any_eq_true.mpr ⟨r, hmem, hrun⟩
  rw [h] at hany
  cases hany

theorem Kept.shrinks (h : Kept w) (hsound : RunRows.Sound w'.srv) (hjobs : w'.jobs.lookup "" = none)
    (hjobOf : ∀ r, w'.jobOf.lookup r ≠ none → r ∈ w'.srv.life.created)
    (hrun : ∀ jobID r, jobID ≠ "" → w'.running jobID r = true → w.running jobID r = true)
    (hreq : ∀ q ∈ w'.requests, q ∈ w.requests ∨ q.Fits w) : Kept w' where
  sound := hsound
  jobs := hjobs
  jobOf := hjobOf
  unique := fun jobID hne r r' hr hr' =>
    h.unique jobID hne r r' (hrun jobID r hne hr) (hrun jobID r' hne hr')
  fits := by
    intro q hq
    have hfits : q.Fits w := (hreq q hq).elim (h.fits q) id
    exact
      { hfits with
        clear := fun jobID hpassed =>
          ⟨(hfits.clear jobID hpassed).1, fun r hr =>
            (hfits.clear jobID hpassed).2 r (hrun jobID r (hfits.clear jobID hpassed).1 hr)⟩ }

theorem Kept.server (h : Kept w) {a : RunRows.Action} {srv : RunRows.State}
    (hstep : w.srv.step cfg a = some srv) (requests : List Request)
    (hreq : ∀ q ∈ requests, q ∈ w.requests ∨ q.Fits w) : Kept { w with srv, requests } := by
  obtain ⟨hsound, hmono⟩ := h.sound.step hstep
  refine h.shrinks hsound h.jobs (fun r hr => hmono r (h.jobOf r hr)) (fun jobID r hne hr => ?_) hreq
  obtain ⟨row, hrow, hrun, hjob⟩ := running_iff.mp hr
  rcases RunRows.running_back h.sound.concluding hstep hrow hrun with ⟨row', hrow', hrun'⟩ |
    ⟨c, st, rfl⟩
  · exact running_iff.mpr ⟨row', hrow', hrun', hjob⟩
  · -- the new row has no job
    have hnone : w.jobOf.lookup r = none := by
      by_contra hsome
      exact (RunRows.create_fresh_step hstep).1 (h.jobOf r hsome)
    have hempty : jobID = "" := by
      rw [← hjob]
      show (w.jobOf.lookup r).getD "" = ""
      rw [hnone]
      rfl
    exact absurd hempty hne

theorem mem_set_request {i : Nat} {q q' : Request} (h : q' ∈ w.requests.set i q) :
    q' ∈ w.requests ∨ q' = q := List.mem_or_eq_of_mem_set h

theorem fits_answered (res : Except Err String) : (⟨.answered res, false⟩ : Request).Fits w where
  refused := nofun
  named := nofun
  clear := nofun

theorem Kept.set (h : Kept w) (i : Nat) {q : Request} (hq : q.Fits w) : Kept (w.set i q) :=
  h.shrinks h.sound h.jobs h.jobOf (fun _ _ _ hr => hr) fun _ hq' =>
    (mem_set_request hq').imp_right (by rintro rfl; exact hq)

theorem Kept.serverSet (h : Kept w) {a : RunRows.Action} {srv : RunRows.State}
    (hstep : w.srv.step cfg a = some srv) (i : Nat) {q : Request} (hq : q.Fits w) :
    Kept ({ w with srv }.set i q) :=
  h.server hstep _ fun _ hq' => (mem_set_request hq').imp_right (by rintro rfl; exact hq)

theorem Kept.create (h : Kept w) {i c : Nat} {q : Request} {jobID runID : String}
    (hi : w.requests[i]? = some q) (hp : q.phase = .creating jobID c)
    (hexcl : Exclusive w (.createRun i (.ok runID))) {srv : RunRows.State}
    (hstep : w.srv.step cfg (State.made (.create c (some runID))) = some srv) :
    Kept ({ w with srv, jobOf := w.jobOf.insert runID jobID }.set i ⟨.launching runID c, false⟩) := by
  obtain ⟨hsound, hmono⟩ := h.sound.step hstep
  obtain ⟨hfresh, hcreated⟩ := RunRows.create_fresh_step hstep
  have hclear := (h.fits q (List.mem_of_getElem? hi)).clear jobID (by rw [hp]; rfl)
  let w' := { w with srv, jobOf := w.jobOf.insert runID jobID }.set i ⟨.launching runID c, false⟩
  -- a run of a job is running as before, or it is the new one
  have hback : ∀ j r, w'.running j r = true → w.running j r = true ∨ r = runID ∧ j = jobID := by
    intro j r hr
    obtain ⟨row, hrow, hrun, hjob⟩ := running_iff.mp hr
    by_cases heq : r = runID
    · refine .inr ⟨heq, ?_⟩
      rw [← hjob, heq]
      show ((w.jobOf.insert runID jobID).lookup runID).getD "" = jobID
      rw [AList.lookup_insert]
      rfl
    · refine .inl ?_
      have hjob' : w.jobID r = j := by
        rw [← hjob]
        show (w.jobOf.lookup r).getD "" = ((w.jobOf.insert runID jobID).lookup r).getD ""
        rw [AList.lookup_insert_ne heq]
      rcases RunRows.running_back h.sound.concluding hstep hrow hrun with ⟨row', hrow', hrun'⟩ |
        ⟨c', st, hact⟩
      · exact running_iff.mpr ⟨row', hrow', hrun', hjob'⟩
      · cases hact
        exact absurd rfl heq
  exact
    { sound := hsound
      jobs := h.jobs
      jobOf := by
        intro r hr
        by_cases heq : r = runID
        · exact heq ▸ hcreated
        · refine hmono r (h.jobOf r ?_)
          rwa [← AList.lookup_insert_ne heq]
      unique := by
        intro j hne r r' hr hr'
        rcases hback j r hr with hold | ⟨hnew, hj⟩
        · rcases hback j r' hr' with hold' | ⟨-, hj'⟩
          · exact h.unique j hne r r' hold hold'
          · exact absurd (hj' ▸ hold) (hclear.2 r)
        · rcases hback j r' hr' with hold' | ⟨hnew', -⟩
          · exact absurd (hj ▸ hold') (hclear.2 r')
          · rw [hnew, hnew']
      fits := by
        intro q' hq'
        rcases mem_set_cases hi hq' with rfl | ⟨k, hki, hold⟩
        · exact ⟨nofun, nofun, nofun⟩
        · have hfits := h.fits q' (List.mem_of_getElem? hold)
          refine { hfits with clear := fun j hpassed => ⟨(hfits.clear j hpassed).1, fun r hr => ?_⟩ }
          rcases hback j r hr with hr | ⟨-, rfl⟩
          · exact (hfits.clear j hpassed).2 r hr
          · exact hexcl q hi k q' hki hold j (by rw [hp]; rfl) hpassed }

theorem Kept.request (h : Kept w) {phase : Phase} (hq : (⟨phase, false⟩ : Request).Fits w) :
    Kept (w.request phase) := by
  refine h.shrinks h.sound h.jobs h.jobOf (fun _ _ _ hr => hr) fun q hq' => ?_
  rcases List.mem_append.mp hq' with hq' | hq'
  · exact .inl hq'
  · cases List.mem_singleton.mp hq'
    exact .inr hq

theorem Kept.advance (h : Kept w) {i : Nat} {q : Request} {a : Action}
    (hi : w.requests[i]? = some q) (hexcl : ∀ res, a = .createRun i res → Exclusive w a)
    (ha : ∀ j res, a = .createRun j res → j = i) (hstep : w.advance cfg i q a = some w') :
    Kept w' := by
  have hq := h.fits q (List.mem_of_getElem? hi)
  cases a with
  | runByID _ fault =>
    simp only [State.advance] at hstep
    split at hstep
    · cases hstep
      exact h.set i (fits_answered _)
    · split at hstep
      · cases hstep
        exact h.set i (fits_answered _)
      · split at hstep <;> cases hstep
        · exact h.set i (fits_answered _)
        · exact h.set i ⟨nofun, nofun, nofun⟩
    · cases hstep
  | jobByID _ fault now =>
    simp only [State.advance] at hstep
    split at hstep
    · cases hstep
      exact h.set i (fits_answered _)
    · rename_i jobID origin _
      split at hstep
      · cases hstep
        exact h.set i (fits_answered _)
      · rename_i job hjob
        split at hstep <;> cases hstep
        · exact h.set i (fits_answered _)
        · refine h.set i ⟨nofun, fun j hj => ?_, nofun⟩
          cases hj
          rintro rfl
          cases h.jobs.symm.trans hjob
    · cases hstep
  | hasRunningRun _ fault =>
    simp only [State.advance] at hstep
    split at hstep
    · cases hstep
      exact h.set i (fits_answered _)
    · rename_i jobID hp
      split at hstep
      · cases hstep
        exact h.set i ⟨fun _ => rfl, nofun, nofun⟩
      · rename_i hnot
        obtain ⟨srv, hsrv, rfl⟩ := Option.map_eq_some_iff.mp hstep
        refine h.serverSet hsrv i ⟨nofun, nofun, fun j hj => ?_⟩
        cases hj
        exact ⟨hq.named jobID hp, not_running_of_hasRunningRun (by simpa using hnot)⟩
    · cases hstep
  | createRun j res =>
    cases ha j res rfl
    simp only [State.advance] at hstep
    split at hstep
    · obtain ⟨srv, hsrv, rfl⟩ := Option.map_eq_some_iff.mp hstep
      exact h.serverSet hsrv i (fits_answered _)
    · rename_i jobID c runID hp
      obtain ⟨srv, hsrv, rfl⟩ := Option.map_eq_some_iff.mp hstep
      exact h.create hi hp (hexcl _ rfl) hsrv
    · cases hstep
  | launch =>
    simp only [State.advance] at hstep
    split at hstep
    · obtain ⟨srv, hsrv, rfl⟩ := Option.map_eq_some_iff.mp hstep
      exact h.serverSet hsrv i (fits_answered _)
    · cases hstep
  | _ => cases hstep

def Action.request : Action → Option Nat
  | .createRun i _ | .runByID i _ | .jobByID i _ _ | .hasRunningRun i _ | .launch i => some i
  | _ => none

theorem State.exists_advance {i : Nat} {a : Action} (ha : a.request = some i)
    (hstep : w.step cfg a = some w') :
    ∃ q, w.requests[i]? = some q ∧ w.advance cfg i q a = some w' := by
  cases a <;> cases ha
  all_goals
    simp only [State.step] at hstep
    split at hstep
    · cases hstep
    · exact ⟨_, ‹_›, hstep⟩

theorem Kept.step (h : Kept w) {a : Action} (hexcl : Exclusive w a) (hstep : w.step cfg a = some w') :
    Kept w' := by
  cases a with
  | triggerJob jobID | triggerScheduledJob jobID | retryRun jobID =>
    cases hstep
    exact h.request ⟨by simp, by simp, by rintro _ ⟨⟩⟩
  | saveJob jobID job =>
    simp only [State.step] at hstep
    split at hstep <;> cases hstep
    rename_i hne
    refine h.shrinks h.sound ?_ h.jobOf (fun _ _ _ hr => hr) fun _ => .inl
    exact (AList.lookup_insert_ne (Ne.symm hne)).trans h.jobs
  | deleteJob jobID =>
    cases hstep
    refine h.shrinks h.sound ?_ h.jobOf (fun _ _ _ hr => hr) fun _ => .inl
    show (w.jobs.erase jobID).lookup "" = none
    rw [FinMap.lookup_erase_ite, h.jobs]
    split <;> rfl
  | server a =>
    obtain ⟨-, hstep⟩ := Option.ite_none_right_eq_some.mp hstep
    obtain ⟨srv, hsrv, rfl⟩ := Option.map_eq_some_iff.mp hstep
    refine h.server hsrv _ fun q hq => ?_
    split at hq
    · cases hq
    · exact .inl hq
  | createRun i | runByID i | jobByID i | hasRunningRun i | launch i =>
    obtain ⟨q, hi, hadv⟩ := State.exists_advance (i := i) rfl hstep
    exact h.advance hi (fun _ _ => hexcl) (fun j res heq => by cases heq <;> rfl) hadv

end

/-- In every run in which no row is made for a job while another request for it is past its
check, no job ever has two running runs, and whoever finds its job running is refused. -/
theorem one_running (cfg : Agent.Config) (now : Time) (as : List Action) (w : State)
    (h : (system cfg).Run Exclusive (.initial now) as w) : OneRunning w :=
  (h.invariant (fun _ _ _ hk hexcl hstep => hk.step hexcl hstep) (kept_initial now)).oneRunning

def alone : State × Action → Bool
  | (w, .createRun _ _) => w.requests.length ≤ 1
  | _ => true

theorem exclusive_of_alone (w : State) (a : Action) (h : alone (w, a) = true) : Exclusive w a := by
  unfold Exclusive
  split
  · rename_i i _
    intro q hq k q' hk hq'
    have hlen : w.requests.length ≤ 1 := of_decide_eq_true h
    have hi := (List.getElem?_eq_some_iff.mp hq).1
    have hk' := (List.getElem?_eq_some_iff.mp hq').1
    omega
  · trivial

def startedThenFired : List Action :=
  [.saveJob "j" ⟨"nightly", some ⟨"22:00", "06:00"⟩⟩, .triggerJob "j", .jobByID 0 none 720,
    .hasRunningRun 0 none, .createRun 0 (.ok "r1"), .launch 0, .triggerScheduledJob "j",
    .jobByID 1 none 1380, .hasRunningRun 1 none]

theorem startedThenFired_run : ∃ w, (system ⟨300, 1800⟩).Run Exclusive (.initial 0) startedThenFired w ∧
    w.running "j" "r1" = true ∧ w.requests = [⟨.answered (.ok "r1"), false⟩,
      ⟨.answered (.error .alreadyRunning), true⟩] :=
  ⟨_, System.run_of_trail (p := alone) exclusive_of_alone rfl rfl, rfl, rfl⟩

theorem one_running_fired : ∃ w,
    (system ⟨300, 1800⟩).Run Exclusive (.initial 0) startedThenFired w ∧ OneRunning w ∧
      w.running "j" "r1" = true := by
  obtain ⟨w, hrun, hrunning, -⟩ := startedThenFired_run
  exact ⟨w, hrun, one_running _ _ _ w hrun, hrunning⟩

/-- An operator's request and the schedule's check the job one after the other, and then
each makes a row. -/
def checkedTogether : List Action :=
  [.saveJob "j" ⟨"nightly", none⟩, .triggerJob "j", .triggerScheduledJob "j", .jobByID 0 none 720,
    .jobByID 1 none 720, .hasRunningRun 0 none, .hasRunningRun 1 none, .createRun 0 (.ok "r1"),
    .createRun 1 (.ok "r2"), .launch 0, .launch 1]

theorem checkedTogether_follows : ∃ w,
    (system ⟨300, 1800⟩).follow checkedTogether (.initial 0) = some w ∧
      w.running "j" "r1" = true ∧ w.running "j" "r2" = true := ⟨_, rfl, rfl, rfl⟩

theorem two_running : ¬ ∀ (cfg : Agent.Config) (now : Time) (as : List Action) (w : State),
    (system cfg).Run (fun _ _ => True) (.initial now) as w → OneRunning w := by
  intro hone
  obtain ⟨w, hw, hr, hr'⟩ := checkedTogether_follows
  have hsame := (hone _ _ _ w (System.run_of_follow (fun _ _ _ => trivial) hw)).unique "j" (by decide)
    "r1" "r2" hr hr'
  revert hsame
  decide

end Trigger

end ProxBack.Sched
