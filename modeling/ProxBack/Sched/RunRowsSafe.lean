import ProxBack.Sched.LifecycleRuns
import ProxBack.Sched.RunRows
import ProxBack.Agent.Attempts

/-! The row of a finished run stays as it is, if nothing was still at work for the run when
it was finished. -/
namespace ProxBack.Sched.RunRows
open Lib
open Agent (Manager Handler)
open Engine (Time Snapshot)
open Store (RunTable JobRun)
open Lifecycle (Launch Kept Changed)

def reports : Agent.Phase → Option Nat
  | .chunkTook rs | .storing rs | .recording rs _ _ | .emitting rs _ _ | .streamTook rs
  | .streaming rs => some rs
  | .noting _ | .completeTook _ | .finishing _ | .sending _ _ | .answered _ => none

def Unreported (m : Manager) (r : String) : Prop :=
  ∀ (h : Nat) (x : Handler) rs c, m.handlers[h]? = some x → reports x.phase = some rs →
    m.core rs = some c → c.dispatch.runID ≠ r

/-- When `FinishRun` takes effect, neither a handler nor a goroutine of the body is still at
work for the run. -/
def Alone (w : State) : Action → Prop
  | .life (.write k) st => st.ok = true → ∀ r, w.runOf k = some r →
    Unreported w.ex r ∧ ∀ x ∈ w.workers, x.launch ≠ k
  | _ => True

structure Quiet (w : State) (r : String) : Prop where
  known : r ∈ w.life.created
  launches : ∀ (k : Nat) (l : Launch), w.life.launches[k]? = some l → l.runID = r →
    10 ≤ l.phase.rank
  calls : ∀ (c : Nat) (x : Lifecycle.Call), w.life.calls[c]? = some x → x.run = some r →
    ∃ k, x.phase = .launched k
  workers : ∀ x ∈ w.workers, w.runOf x.launch ≠ some r
  handlers : Unreported w.ex r
  attempts : ∀ i c, w.ex.core i = some c → c.dispatch.runID = r → c.waiter.Returned

/-- Every attempt belongs to a run whose body was begun, and has returned when it ended. -/
def Begun (w : State) : Prop :=
  ∀ i c, w.ex.core i = some c → ∃ (k : Nat) (l : Launch), w.life.launches[k]? = some l ∧
    l.runID = c.dispatch.runID ∧ 5 ≤ l.phase.rank ∧ (5 < l.phase.rank → c.waiter.Returned)

structure Settled (w : State) : Prop where
  kept : Kept w.life
  sane : Agent.Sane w.ex
  known : ∀ r, w.rows.lookup r ≠ none → r ∈ w.life.created
  begun : Begun w
  terminal : ∀ r row, w.rows.lookup r = some row → row.status ≠ .running → Quiet w r

section Life

variable {s s' : Lifecycle.State} {a : Lifecycle.Action}

inductive LaunchOrigin (s : Lifecycle.State) (a : Lifecycle.Action) (k : Nat) (l' : Launch) :
    Prop where
  | old {l : Launch} (hl : s.launches[k]? = some l) (hrun : l.runID = l'.runID)
      (hrank : l.phase.rank ≤ l'.phase.rank)
      (hbody : l.phase = .running → l'.phase = .running ∨ (∃ out, a = .returns k out) ∨
        ∃ text, a = .panics k text)
  | new {c : Nat} {x : Lifecycle.Call} (hp : l'.phase = .registered) (hx : s.calls[c]? = some x)
      (hlaunching : x.phase = .launching) (hrun : x.run = some l'.runID)

theorem launches_back (hkept : Kept s) (hstep : Lifecycle.State.step a s = some s') {k : Nat}
    {l' : Launch} (hl' : s'.launches[k]? = some l') : LaunchOrigin s a k l' := by
  have hsame : s.launches[k]? = some l' → LaunchOrigin s a k l' := fun hl =>
    .old hl rfl (Nat.le_refl _) fun hp => .inl hp
  cases hkept.cases hstep with
  | @moved j l y' ha hs q =>
    rcases q.split hl' with ⟨rfl, rfl⟩ | ⟨-, hl⟩
    · refine .old q.before q.runID.symm (Nat.le_of_lt q.rank) fun hp => .inr ?_
      -- a goroutine leaves its body by returning from it or by a panic in it
      cases a <;> cases ha <;> simp [Lifecycle.State.stepLaunch, Lifecycle.State.unwind, hp] at hs
      · exact .inl ⟨_, rfl⟩
      · exact .inr ⟨_, rfl⟩
    · exact hsame hl
  | recalled _ q => exact hsame (q.launches ▸ hl')
  | launched _ hx hp hrun heq =>
    subst heq
    rcases Lifecycle.launch_split hl' with ⟨-, rfl⟩ | ⟨-, hl⟩
    · exact .new rfl hx hp hrun
    · exact hsame hl
  | beside _ q => exact hsame (q.launches ▸ hl')

inductive RunOrigin (s : Lifecycle.State) (c : Nat) (x' : Lifecycle.Call) (r : String) : Prop where
  | old {x : Lifecycle.Call} (hx : s.calls[c]? = some x) (hrun : x.run = some r)
      (hlaunched : ∀ k, x.phase = .launched k → x'.phase = .launched k)
  | new (h : r ∉ s.created)

theorem calls_back (hkept : Kept s) (hstep : Lifecycle.State.step a s = some s') {c : Nat}
    {x' : Lifecycle.Call} {r : String} (hx' : s'.calls[c]? = some x') (hr : x'.run = some r) :
    RunOrigin s c x' r := by
  have hsame : s.calls[c]? = some x' → RunOrigin s c x' r := fun hx => .old hx hr fun _ hk => hk
  cases hkept.cases hstep with
  | moved _ _ q => exact hsame (q.calls ▸ hx')
  | recalled _ q =>
    rw [q.calls] at hx'
    split at hx'
    · rename_i heq
      subst heq
      cases hx'
      rcases q.run r hr with ⟨x, hx, hxr⟩ | hnew
      · exact .old hx hxr fun k hk => absurd hk (q.before x k hx)
      · exact .new hnew
    · exact hsame hx'
  | launched _ hx hp hrun heq =>
    subst heq
    rw [Lifecycle.calls_launch hx] at hx'
    split at hx'
    · rename_i heq
      subst heq
      cases hx'
      exact .old hx hr fun k hk => absurd (hp.symm.trans hk) nofun
    · exact hsame hx'
  | beside _ q => exact hsame (q.calls ▸ hx')

theorem created_mono (hkept : Kept s) (hstep : Lifecycle.State.step a s = some s') {r : String}
    (hr : r ∈ s.created) : r ∈ s'.created := by
  cases hkept.cases hstep with
  | moved _ _ q => exact q.created ▸ hr
  | recalled _ q => exact q.created r (.inl hr)
  | launched _ _ _ _ heq => exact heq ▸ hr
  | beside _ q => exact q.created ▸ hr

theorem launches_forth (hkept : Kept s) (hstep : Lifecycle.State.step a s = some s') {k : Nat}
    {l : Launch} (hl : s.launches[k]? = some l) : ∃ l', s'.launches[k]? = some l' ∧
      l'.runID = l.runID ∧ l.phase.rank ≤ l'.phase.rank ∧
      (l.phase = .running → l'.phase = .running ∨ (∃ out, a = .returns k out) ∨
        ∃ text, a = .panics k text) := by
  obtain ⟨l', hl', hadv⟩ := hkept.advances hstep hl
  refine ⟨l', hl', ?_⟩
  cases launches_back hkept hstep hl' with
  | old hl₀ hrun hrank hbody =>
    cases hl.symm.trans hl₀
    exact ⟨hrun.symm, hrank, hbody⟩
  | new hp hx hlaunching hrun =>
    -- a launch that was there does not go back to its first phase, nor change its run
    split at hadv
    · rw [hp] at hadv
      exact absurd hadv (Nat.not_lt_zero _)
    · subst hadv
      exact ⟨rfl, Nat.le_refl _, fun hbody => .inl hbody⟩

theorem create_fresh {c : Nat} {r : String}
    (hstep : Lifecycle.State.step (.create c (some r)) s = some s') :
    r ∉ s.created ∧ r ∈ s'.created := by
  simp only [Lifecycle.State.step] at hstep
  split at hstep
  · cases hstep
  · obtain ⟨-, hstep⟩ := Option.ite_none_right_eq_some.mp hstep
    simp only [Lifecycle.State.create] at hstep
    split at hstep
    · cases hstep
    · rename_i hnew
      cases hstep
      exact ⟨hnew, List.mem_cons_self⟩

end Life

section Exchange

variable {cfg : Agent.Config} {a : Agent.Action} {m m' : Manager}

inductive AttemptOrigin (m : Manager) (a : Agent.Action) (i : Nat) (c' : Agent.Core) : Prop where
  | old {c : Agent.Core} (hc : m.core i = some c) (hdispatch : c.dispatch = c'.dispatch)
      (hreturned : c.waiter.Returned → c'.waiter.Returned)
  | new {agentID : String} {d : Agent.Dispatch} {sess : Option Engine.Session} {manifest : Bool}
      (ha : a = .start agentID d sess manifest) (hd : c'.dispatch = d)

theorem attempts_back (hsane : Agent.Sane m) (e : Agent.Effect cfg m a m') {i : Nat}
    {c' : Agent.Core} (hc' : m'.core i = some c') : AttemptOrigin m a i c' := by
  rcases hsane.cases e with q | ⟨j, c, d, q⟩ | ⟨agentID, d, sess, manifest, ha, -, rfl⟩
  · exact .old ((q.core i).symm.trans hc') rfl id
  · rcases q.split hc' with ⟨rfl, rfl⟩ | ⟨-, hc⟩
    · exact .old q.before q.dispatch.symm q.stays
    · exact .old hc rfl id
  · rw [Manager.core_start] at hc'
    split at hc'
    · cases hc'
      exact .new ha rfl
    · exact .old hc' rfl id

theorem held_of_reports {p : Agent.Phase} {rs : Nat} (h : reports p = some rs) :
    p.held = some rs := by
  cases p <;> first | exact h | cases h

theorem reports_of_held {O : Nat → Prop} {msg : Agent.Message} {p : Agent.Phase} {rs : Nat}
    (hfits : p.Fits O msg) (hends : ¬ msg.body.Ends) (h : p.held = some rs) :
    reports p = some rs := by
  cases p with
  | completeTook => exact absurd (Agent.Body.ends_complete hfits.2) hends
  | _ => exact h

theorem not_ends_of_reports {O : Nat → Prop} {msg : Agent.Message} {p : Agent.Phase} {rs : Nat}
    (hfits : p.Fits O msg) (h : reports p = some rs) : ¬ msg.body.Ends := by
  cases p <;> first | exact hfits.2 | cases h

theorem reports_back (hsane : Agent.Sane m) (e : Agent.Effect cfg m a m') {h : Nat} {x' : Handler}
    {rs : Nat} (hx' : m'.handlers[h]? = some x') (hrs : reports x'.phase = some rs) :
    (∃ x, m.handlers[h]? = some x ∧ reports x.phase = some rs) ∨
      ∃ r, m.active.lookup r = some rs := by
  have hends := not_ends_of_reports ((hsane.step e).fits h x' hx') hrs
  by_cases hreq : ∃ msg, a = .request msg
  · obtain ⟨msg, rfl⟩ := hreq
    cases e with
    | request =>
      rcases Agent.request_handlers m msg hx' with hx | ⟨-, hheld, -⟩
      · exact .inl ⟨x', hx, hrs⟩
      · exact .inr ⟨_, hheld rs (held_of_reports hrs)⟩
  · cases e.follows (fun msg heq => hreq ⟨msg, heq⟩) hx' with
    | same hx => exact .inl ⟨x', hx, hrs⟩
    | moved hx hmsg _ held _ =>
      refine .inl ⟨_, hx, reports_of_held (hsane.fits h _ hx) (hmsg ▸ hends) ?_⟩
      exact held rs (held_of_reports hrs)

theorem unreported_step (hsane : Agent.Sane m) (e : Agent.Effect cfg m a m') {r : String}
    (hstart : ∀ agentID d sess manifest, a = .start agentID d sess manifest → d.runID ≠ r)
    (hreturned : ∀ i c, m.core i = some c → c.dispatch.runID = r → c.waiter.Returned)
    (h : Unreported m r) : Unreported m' r := by
  intro k x' rs c' hx' hrs hc' hrun
  cases attempts_back hsane e hc' with
  | new ha hd => exact hstart _ _ _ _ ha (hd ▸ hrun)
  | old hc hdispatch _ =>
    rw [← hdispatch] at hrun
    rcases reports_back hsane e hx' hrs with ⟨x, hx, hxrs⟩ | ⟨r', hactive⟩
    · exact h k x rs _ hx hxrs hc hrun
    · obtain ⟨c, hcore, -, hexit⟩ := hsane.active r' rs hactive
      cases hc.symm.trans hcore
      exact hsane.returned rs _ hc (hreturned rs _ hc hrun) hexit

end Exchange

variable {w : State} {r : String}

theorem runOf_eq {k : Nat} {l : Launch} (hl : w.life.launches[k]? = some l) :
    w.runOf k = some l.runID := by rw [State.runOf, hl, Option.map_some]

theorem launch_of_runOf {k : Nat} (h : w.runOf k = some r) :
    ∃ l, w.life.launches[k]? = some l ∧ l.runID = r := Option.map_eq_some_iff.mp h

theorem Quiet.not_early (hq : Quiet w r) {k : Nat} {l : Launch} (hl : w.life.launches[k]? = some l)
    (hrank : l.phase.rank < 10) : l.runID ≠ r :=
  fun heq => absurd (hq.launches k l hl heq) (Nat.not_le.mpr hrank)

theorem Quiet.life (hq : Quiet w r) (hkept : Kept w.life) {a : Lifecycle.Action}
    {life : Lifecycle.State} (hstep : Lifecycle.State.step a w.life = some life) (rows : RunTable) :
    Quiet { w with life, rows } r := by
  -- a call for this run has launched it already
  have hnot : ∀ {c : Nat} {x : Lifecycle.Call}, w.life.calls[c]? = some x → x.phase = .launching →
      x.run ≠ some r := by
    intro c x hx hp hrun
    obtain ⟨k, hk⟩ := hq.calls c x hx hrun
    cases hp.symm.trans hk
  exact
    { known := created_mono hkept hstep hq.known
      launches := by
        intro k l' hl' hrun
        cases launches_back hkept hstep hl' with
        | old hl hsame hrank _ =>
          exact Nat.le_trans (hq.launches k _ hl (hsame.trans hrun)) hrank
        | new _ hx hp hnew => exact absurd (hrun ▸ hnew) (hnot hx hp)
      calls := by
        intro c x' hx' hrun
        cases calls_back hkept hstep hx' hrun with
        | old hx hxr hlaunched =>
          obtain ⟨k, hk⟩ := hq.calls c _ hx hxr
          exact ⟨k, hlaunched k hk⟩
        | new hfresh => exact absurd hq.known hfresh
      workers := by
        intro x hx hrun
        obtain ⟨l', hl', hlr⟩ := launch_of_runOf hrun
        cases launches_back hkept hstep hl' with
        | old hl hsame _ _ =>
          exact hq.workers x hx ((runOf_eq hl).trans (congrArg some (hsame.trans hlr)))
        | new _ hy hp hnew => exact absurd (hlr ▸ hnew) (hnot hy hp)
      handlers := hq.handlers
      attempts := hq.attempts }

theorem Quiet.written (hq : Quiet w r) {a : Lifecycle.Action} {life : Lifecycle.State}
    (hstep : Lifecycle.State.step a w.life = some life) (st : Statement) :
    (w.written st a).lookup r = w.rows.lookup r := by
  unfold State.written
  split
  · rename_i r'
    have hne : r ≠ r' := by
      rintro rfl
      exact (create_fresh hstep).1 hq.known
    rw [RunTable.createRun, FinMap.lookup_insert_ite, if_neg hne]
  · rename_i k
    split
    · rfl
    rename_i r' hr'
    obtain ⟨l, hl, rfl⟩ := launch_of_runOf hr'
    rw [Lifecycle.step_of_launch rfl hl] at hstep
    obtain ⟨hp, -⟩ := Option.ite_none_right_eq_some.mp hstep
    split
    · exact RunTable.lookup_update_ne _ (Ne.symm (hq.not_early hl (by rw [hp]; decide))) _
    · rfl
  · split
    · rfl
    rename_i l hl
    split
    · rename_i v pct hp
      split
      · refine RunTable.lookup_update_ne _ (Ne.symm (hq.not_early hl ?_)) _
        simp [hp, Lifecycle.Phase.rank]
      · rfl
    · rfl
  · rfl

@[simp] theorem progress_other {ok : Bool} {p : Option (String × Snapshot)}
    (h : ∀ r' snap, p = some (r', snap) → r' ≠ r) :
    (w.progress ok p).lookup r = w.rows.lookup r := by
  unfold State.progress
  split
  · rfl
  · rename_i r' snap
    split
    · exact RunTable.lookup_update_ne _ (Ne.symm (h r' snap rfl)) _
    · rfl

theorem reported_run {a : Agent.Action} {r' : String} {snap : Snapshot}
    (h : w.reported a = some (r', snap)) : ∃ (k : Nat) (x : Handler) (rs : Nat) (c : Agent.Core),
      w.ex.handlers[k]? = some x ∧ reports x.phase = some rs ∧ w.ex.core rs = some c ∧
        c.dispatch.runID = r' := by
  unfold State.reported at h
  split at h
  · rename_i k
    split at h
    · rename_i msg rs uploaded snap' hx
      obtain ⟨rs', hrs', heq⟩ := Option.map_eq_some_iff.mp h
      cases heq
      exact ⟨k, _, rs, _, hx, rfl, Agent.Manager.core_eq hrs', rfl⟩
    · cases h
  · cases h

theorem runs_iff {r' : String} (h : w.runs r' = true) : ∃ (k : Nat) (l : Launch),
    w.life.launches[k]? = some l ∧ l.runID = r' ∧ l.phase = .running := by
  obtain ⟨l, hl, hrun⟩ := List.any_eq_true.mp h
  obtain ⟨k, hk⟩ := List.mem_iff_getElem?.mp hl
  obtain ⟨hr, hp⟩ := of_decide_eq_true hrun
  exact ⟨k, l, hk, hr, hp⟩

theorem Quiet.agent (hq : Quiet w r) (hsane : Agent.Sane w.ex) {cfg : Agent.Config}
    {a : Agent.Action} {ex : Manager} (hsends : w.sends a = true)
    (hstep : w.ex.step cfg a = some ex) (rows : RunTable) : Quiet { w with ex, rows } r := by
  have e := Agent.step_effect hstep
  have hstart : ∀ agentID d sess manifest, a = .start agentID d sess manifest → d.runID ≠ r := by
    rintro agentID d sess manifest rfl
    obtain ⟨k, l, hl, hrun, hp⟩ := runs_iff hsends
    exact hrun ▸ hq.not_early hl (by rw [hp]; decide)
  exact
    { known := hq.known
      launches := hq.launches
      calls := hq.calls
      workers := hq.workers
      handlers := unreported_step hsane e hstart hq.attempts hq.handlers
      attempts := by
        intro i c' hc' hrun
        cases attempts_back hsane e hc' with
        | new ha hd => exact absurd (hd ▸ hrun) (hstart _ _ _ _ ha)
        | old hc hdispatch hreturned =>
          exact hreturned (hq.attempts i _ hc (hdispatch ▸ hrun)) }

theorem Quiet.workersLess (hq : Quiet w r) {workers : List Worker} (rows : RunTable)
    (hsub : ∀ x ∈ workers, ∃ y ∈ w.workers, y.launch = x.launch) :
    Quiet { w with workers, rows } r where
  known := hq.known
  launches := hq.launches
  calls := hq.calls
  workers := fun x hx => by
    obtain ⟨y, hy, heq⟩ := hsub x hx
    exact heq ▸ hq.workers y hy
  handlers := hq.handlers
  attempts := hq.attempts

theorem mem_set_worker {i k : Nat} {snap snap' : Option Snapshot}
    (hi : w.workers[i]? = some ⟨k, snap⟩) (x : Worker) (hx : x ∈ w.workers.set i ⟨k, snap'⟩) :
    ∃ y ∈ w.workers, y.launch = x.launch := by
  rcases List.mem_or_eq_of_mem_set hx with hx | rfl
  · exact ⟨x, hx, rfl⟩
  · exact ⟨_, List.mem_of_getElem? hi, rfl⟩

theorem quiet_restart {w' : State} {created : List String} {now : Time}
    (hlife : w'.life = { Lifecycle.State.initial with created }) (hex : w'.ex = .initial now)
    (hworkers : w'.workers = []) (hr : r ∈ created) : Quiet w' r where
  known := by
    rw [hlife]
    exact hr
  launches := by simp [hlife, Lifecycle.State.initial]
  calls := by simp [hlife, Lifecycle.State.initial]
  workers := by simp [hworkers]
  handlers := by
    rw [hex]
    intro h x rs c hx
    simp [Manager.initial] at hx
  attempts := by simp [hex, Manager.core, Manager.initial]

theorem Quiet.step (hq : Quiet w r) (hkept : Kept w.life) (hsane : Agent.Sane w.ex)
    {cfg : Agent.Config} {a : Action} {w' : State} (hstep : w.step cfg a = some w') :
    Quiet w' r ∧ ∀ row : JobRun, row.status ≠ .running →
      w.rows.lookup r = some row ∨ w.rows.lookup r = none →
      w'.rows.lookup r = some row ∨ w'.rows.lookup r = none := by
  have hsame : ∀ {rows : RunTable}, rows.lookup r = w.rows.lookup r → ∀ row : JobRun,
      row.status ≠ .running → w.rows.lookup r = some row ∨ w.rows.lookup r = none →
      rows.lookup r = some row ∨ rows.lookup r = none := by
    intro rows heq row _ hrow
    rwa [heq]
  cases a with
  | life a st =>
    obtain ⟨-, hstep⟩ := Option.ite_none_right_eq_some.mp hstep
    obtain ⟨life, hlife, rfl⟩ := Option.map_eq_some_iff.mp hstep
    exact ⟨hq.life hkept hlife _, hsame (hq.written hlife st)⟩
  | agent a ok =>
    obtain ⟨hsends, hstep⟩ := Option.ite_none_right_eq_some.mp hstep
    obtain ⟨ex, hex, rfl⟩ := Option.map_eq_some_iff.mp hstep
    refine ⟨hq.agent hsane hsends hex _, hsame (progress_other fun r' snap hrep => ?_)⟩
    obtain ⟨k, x, rs, c, hx, hrs, hc, rfl⟩ := reported_run hrep
    exact hq.handlers k x rs c hx hrs hc
  | enter k =>
    simp only [State.step] at hstep
    split at hstep
    · cases hstep
    rename_i l hl
    obtain ⟨hp, heq⟩ := Option.ite_none_right_eq_some.mp hstep
    cases heq
    refine ⟨{ hq with workers := fun x hx => ?_ }, hsame rfl⟩
    rcases List.mem_append.mp hx with hx | hx
    · exact hq.workers x hx
    · cases List.mem_singleton.mp hx
      intro hrun
      obtain ⟨l', hl', hrun⟩ := launch_of_runOf hrun
      cases hl.symm.trans hl'
      exact hq.not_early hl (by rw [hp]; decide) hrun
  | snapshot i snap =>
    simp only [State.step] at hstep
    split at hstep
    · rename_i k hi
      cases hstep
      exact ⟨hq.workersLess _ (mem_set_worker hi), hsame rfl⟩
    · cases hstep
  | emit i ok =>
    simp only [State.step] at hstep
    split at hstep
    · rename_i k snap hi
      cases hstep
      refine ⟨hq.workersLess _ (mem_set_worker hi), hsame (progress_other fun r' snap' heq => ?_)⟩
      obtain ⟨r'', hr'', heq⟩ := Option.map_eq_some_iff.mp heq
      cases heq
      rintro rfl
      exact hq.workers _ (List.mem_of_getElem? hi) hr''
    · cases hstep
  | leave i =>
    simp only [State.step] at hstep
    split at hstep
    · cases hstep
      exact ⟨hq.workersLess _ fun x hx => ⟨x, List.mem_of_mem_eraseIdx hx, rfl⟩, hsame rfl⟩
    · cases hstep
  | delete r' =>
    cases hstep
    refine ⟨{ hq with }, fun row _ hrow => ?_⟩
    rw [RunTable.deleteJobRun, FinMap.lookup_erase_ite]
    split
    · exact .inr rfl
    · exact hrow
  | restart now =>
    cases hstep
    refine ⟨quiet_restart rfl rfl rfl hq.known, fun row hterm hrow => ?_⟩
    rw [RunTable.markOrphanRunsFailed, FinMap.lookup_mapVal]
    rcases hrow with hrow | hrow
    · rw [hrow, Option.map_some, if_neg hterm]
      exact .inl rfl
    · rw [hrow]
      exact .inr rfl

theorem settled_restart {w' : State} {created : List String} {now : Time}
    (hlife : w'.life = { Lifecycle.State.initial with created }) (hex : w'.ex = .initial now)
    (hworkers : w'.workers = []) (hknown : ∀ r, w'.rows.lookup r ≠ none → r ∈ created) :
    Settled w' where
  kept := hlife ▸ Lifecycle.kept_initial created
  sane := hex ▸ Agent.sane_initial now
  known := by
    rw [hlife]
    exact hknown
  begun := by
    intro i c hc
    simp [hex, Manager.core, Manager.initial] at hc
  terminal := by
    intro r row hrow _
    exact quiet_restart hlife hex hworkers (hknown r (by simp [hrow]))

theorem running_of_rank {l : Launch} (h : l.phase.rank = 5) : l.phase = .running := by
  cases hp : l.phase <;> simp_all [Lifecycle.Phase.rank]

theorem Begun.life (h : Begun w) (hkept : Kept w.life) {a : Lifecycle.Action}
    {life : Lifecycle.State} (hallows : w.allows a = true)
    (hstep : Lifecycle.State.step a w.life = some life) (rows : RunTable) :
    Begun { w with life, rows } := by
  intro i c hc
  obtain ⟨k, l, hl, hrun, hfive, hreturned⟩ := h i c hc
  obtain ⟨l', hl', hrun', hrank, hbody⟩ := launches_forth hkept hstep hl
  refine ⟨k, l', hl', hrun'.trans hrun, Nat.le_trans hfive hrank, fun hlate => ?_⟩
  rcases Nat.eq_or_lt_of_le hfive with heq | hlt
  · -- the body has just ended, and its calls to the agents had returned
    have hfree : w.returned k = true → c.waiter.Returned := by
      intro hret
      rw [State.returned, runOf_eq hl] at hret
      exact (of_decide_eq_true hret).returned hc hrun.symm
    rcases hbody (running_of_rank heq.symm) with hp | ⟨out, rfl⟩ | ⟨text, rfl⟩
    · rw [hp] at hlate
      exact absurd hlate (by decide)
    · exact hfree (of_decide_eq_true hallows).2
    · exact hfree hallows
  · exact hreturned hlt

theorem Begun.agent (h : Begun w) (hsane : Agent.Sane w.ex) {cfg : Agent.Config}
    {a : Agent.Action} {ex : Manager} (hsends : w.sends a = true)
    (hstep : w.ex.step cfg a = some ex) (rows : RunTable) : Begun { w with ex, rows } := by
  intro i c' hc'
  cases attempts_back hsane (Agent.step_effect hstep) hc' with
  | old hc hdispatch hreturned =>
    obtain ⟨k, l, hl, hrun, hfive, hret⟩ := h i _ hc
    exact ⟨k, l, hl, hdispatch ▸ hrun, hfive, fun hlate => hreturned (hret hlate)⟩
  | new ha hd =>
    subst ha
    obtain ⟨k, l, hl, hrun, hp⟩ := runs_iff hsends
    refine ⟨k, l, hl, hrun.trans (congrArg Agent.Dispatch.runID hd.symm), ?_⟩
    rw [hp]
    exact ⟨Nat.le_refl _, fun hlate => absurd hlate (by decide)⟩

theorem Settled.finished (h : Settled w) {k : Nat} {l : Launch}
    (hl : w.life.launches[k]? = some l) (hp : l.phase.rank = 9)
    (halone : Unreported w.ex l.runID ∧ ∀ x ∈ w.workers, x.launch ≠ k) {life : Lifecycle.State}
    (hstep : Lifecycle.State.step (.write k) w.life = some life) (rows : RunTable) :
    Quiet { w with life, rows } l.runID := by
  have hcaller := h.kept.caller k l hl
  have hknown : l.runID ∈ w.life.created := h.kept.created _ _ _ hcaller rfl
  have hcall : ∀ {c : Nat} {x : Lifecycle.Call}, w.life.calls[c]? = some x → x.run = some l.runID →
      x.phase = .launched k := by
    intro c x hx hrun
    cases h.kept.ids _ _ _ _ _ hx hcaller hrun rfl
    rw [hcaller] at hx
    cases hx
    rfl
  exact
    { known := created_mono h.kept hstep hknown
      launches := by
        intro j l' hl' hrun
        cases launches_back h.kept hstep hl' with
        | old hj hsame _ _ =>
          cases h.kept.sameRun hj hl (hsame.trans hrun)
          obtain ⟨l'', hl'', hadv⟩ := h.kept.advances hstep hl
          cases hl'.symm.trans hl''
          have hlt : l.phase.rank < l'.phase.rank := by rwa [if_pos (by rfl)] at hadv
          omega
        | new _ hx hlaunching hnew =>
          cases hlaunching.symm.trans (hcall hx (hrun ▸ hnew))
      calls := by
        intro c x' hx' hrun
        cases calls_back h.kept hstep hx' hrun with
        | old hx hxr hlaunched => exact ⟨k, hlaunched k (hcall hx hxr)⟩
        | new hfresh => exact absurd hknown hfresh
      workers := by
        intro x hx hrun
        obtain ⟨l', hl', hlr⟩ := launch_of_runOf hrun
        cases launches_back h.kept hstep hl' with
        | old hj hsame _ _ => exact halone.2 x hx (h.kept.sameRun hj hl (hsame.trans hlr))
        | new _ hy hlaunching hnew => cases hlaunching.symm.trans (hcall hy (hlr ▸ hnew))
      handlers := halone.1
      attempts := by
        intro i c hc hrun
        obtain ⟨j, l', hl', hrun', -, hreturned⟩ := h.begun i c hc
        cases h.kept.sameRun hl' hl (hrun'.trans hrun)
        cases hl.symm.trans hl'
        exact hreturned (hp ▸ by decide) }

/-- A row that is terminal after a step of the scheduler was so before, or its run has just
been finished. -/
theorem written_terminal {a : Lifecycle.Action} {st : Statement} {row : JobRun}
    (hrow : (w.written st a).lookup r = some row) (hterm : row.status ≠ .running) :
    (∃ row', w.rows.lookup r = some row' ∧ row'.status ≠ .running) ∨
      ∃ (k : Nat) (l : Launch), a = .write k ∧ st.ok = true ∧ w.life.launches[k]? = some l ∧
        l.phase.rank = 9 ∧ l.runID = r := by
  have hsame : ∀ {r' step : String}, (w.rows.setRunStep r' step).lookup r = some row →
      ∃ row', w.rows.lookup r = some row' ∧ row'.status ≠ .running := by
    intro r' step hlook
    rw [RunTable.setRunStep, RunTable.lookup_update] at hlook
    split at hlook
    · obtain ⟨row', hrow', rfl⟩ := Option.map_eq_some_iff.mp hlook
      exact ⟨row', hrow', hterm⟩
    · exact ⟨row, hlook, hterm⟩
  unfold State.written at hrow
  split at hrow
  · rw [RunTable.createRun, FinMap.lookup_insert_ite] at hrow
    split at hrow
    · cases hrow
      exact absurd rfl hterm
    · exact .inl ⟨row, hrow, hterm⟩
  · split at hrow
    · exact .inl ⟨row, hrow, hterm⟩
    · split at hrow
      · exact .inl (hsame hrow)
      · exact .inl ⟨row, hrow, hterm⟩
  · rename_i k
    split at hrow
    · exact .inl ⟨row, hrow, hterm⟩
    rename_i l hl
    split at hrow
    · rename_i v pct hp
      split at hrow
      · rename_i hok
        rw [RunTable.finishRun, RunTable.lookup_update] at hrow
        split at hrow
        · rename_i heq
          exact .inr ⟨k, l, rfl, hok, hl, by rw [hp]; rfl, heq.symm⟩
        · exact .inl ⟨row, hrow, hterm⟩
      · exact .inl ⟨row, hrow, hterm⟩
    · exact .inl ⟨row, hrow, hterm⟩
  · exact .inl ⟨row, hrow, hterm⟩

theorem progress_status {ok : Bool} {p : Option (String × Snapshot)} {row : JobRun}
    (hrow : (w.progress ok p).lookup r = some row) :
    ∃ row', w.rows.lookup r = some row' ∧ row'.status = row.status := by
  unfold State.progress at hrow
  split at hrow
  · exact ⟨row, hrow, rfl⟩
  · split at hrow
    · rw [RunTable.updateRunProgress, RunTable.lookup_update] at hrow
      split at hrow
      · obtain ⟨row', hrow', rfl⟩ := Option.map_eq_some_iff.mp hrow
        exact ⟨row', hrow', rfl⟩
      · exact ⟨row, hrow, rfl⟩
    · exact ⟨row, hrow, rfl⟩

theorem Settled.reporting (h : Settled w) {cfg : Agent.Config} {a : Action} {w' : State}
    (hstep : w.step cfg a = some w') (hlife : w'.life = w.life) (hsane : Agent.Sane w'.ex)
    (hbegun : Begun w')
    (hrows : ∀ r row, w'.rows.lookup r = some row →
      ∃ row', w.rows.lookup r = some row' ∧ row'.status = row.status) : Settled w' where
  kept := hlife ▸ h.kept
  sane := hsane
  known := by
    intro r hr
    obtain ⟨row, hrow⟩ := Option.ne_none_iff_exists'.mp hr
    obtain ⟨row', hrow', -⟩ := hrows r row hrow
    rw [hlife]
    exact h.known r (by simp [hrow'])
  begun := hbegun
  terminal := by
    intro r row hrow hterm
    obtain ⟨row', hrow', hstatus⟩ := hrows r row hrow
    exact ((h.terminal r row' hrow' (hstatus ▸ hterm)).step h.kept h.sane hstep).1

theorem written_known (hknown : ∀ r, w.rows.lookup r ≠ none → r ∈ w.life.created)
    (hkept : Kept w.life) {a : Lifecycle.Action} {life : Lifecycle.State}
    (hstep : Lifecycle.State.step a w.life = some life) (st : Statement) (r : String)
    (hr : (w.written st a).lookup r ≠ none) : r ∈ life.created := by
  have hold : w.rows.lookup r ≠ none → r ∈ life.created := fun h =>
    created_mono hkept hstep (hknown r h)
  have hupdate : ∀ {f : JobRun → JobRun} {r' : String}, (w.rows.update r' f).lookup r ≠ none →
      r ∈ life.created := by
    intro f r' h
    rw [RunTable.lookup_update] at h
    refine hold fun hnone => ?_
    rw [hnone] at h
    split at h <;> exact h rfl
  unfold State.written at hr
  split at hr
  · rw [RunTable.createRun, FinMap.lookup_insert_ite] at hr
    split at hr
    · rename_i heq
      exact heq ▸ (create_fresh hstep).2
    · exact hold hr
  · split at hr
    · exact hold hr
    · split at hr
      · exact hupdate hr
      · exact hold hr
  · split at hr
    · exact hold hr
    · split at hr
      · split at hr
        · exact hupdate hr
        · exact hold hr
      · exact hold hr
  · exact hold hr

theorem Settled.step (h : Settled w) {cfg : Agent.Config} {a : Action} {w' : State}
    (halone : Alone w a) (hstep : w.step cfg a = some w') : Settled w' := by
  have hsame : ∀ r row, w.rows.lookup r = some row →
      ∃ row', w.rows.lookup r = some row' ∧ row'.status = row.status :=
    fun r row hrow => ⟨row, hrow, rfl⟩
  have hstep' := hstep
  cases a with
  | life a st =>
    obtain ⟨hallows, hstep⟩ := Option.ite_none_right_eq_some.mp hstep
    obtain ⟨life, hlife, rfl⟩ := Option.map_eq_some_iff.mp hstep
    exact
      { kept := h.kept.step a hlife
        sane := h.sane
        known := written_known h.known h.kept hlife st
        begun := h.begun.life h.kept hallows hlife _
        terminal := by
          intro r row hrow hterm
          rcases written_terminal hrow hterm with ⟨row', hrow', hterm'⟩ |
            ⟨k, l, rfl, hok, hl, hp, rfl⟩
          · exact (h.terminal r row' hrow' hterm').life h.kept hlife _
          · exact h.finished hl hp (halone hok l.runID (runOf_eq hl)) hlife _ }
  | agent a ok =>
    obtain ⟨hsends, hstep⟩ := Option.ite_none_right_eq_some.mp hstep
    obtain ⟨ex, hex, rfl⟩ := Option.map_eq_some_iff.mp hstep
    exact h.reporting hstep' rfl (h.sane.step (Agent.step_effect hex))
      (h.begun.agent h.sane hsends hex _) fun r row => progress_status
  | enter k =>
    simp only [State.step] at hstep
    split at hstep
    · cases hstep
    obtain ⟨-, heq⟩ := Option.ite_none_right_eq_some.mp hstep
    cases heq
    exact h.reporting hstep' rfl h.sane h.begun hsame
  | snapshot i snap =>
    simp only [State.step] at hstep
    split at hstep <;> cases hstep
    exact h.reporting hstep' rfl h.sane h.begun hsame
  | emit i ok =>
    simp only [State.step] at hstep
    split at hstep <;> cases hstep
    exact h.reporting hstep' rfl h.sane h.begun fun r row => progress_status
  | leave i =>
    simp only [State.step] at hstep
    split at hstep <;> cases hstep
    exact h.reporting hstep' rfl h.sane h.begun hsame
  | delete r' =>
    cases hstep
    refine h.reporting hstep' rfl h.sane h.begun fun r row hrow => ?_
    rw [RunTable.deleteJobRun, FinMap.lookup_erase_ite] at hrow
    split at hrow
    · cases hrow
    · exact hsame r row hrow
  | restart now =>
    cases hstep
    refine settled_restart rfl rfl rfl fun r hr => ?_
    rw [RunTable.markOrphanRunsFailed, FinMap.lookup_mapVal] at hr
    exact h.known r fun hnone => hr (by rw [hnone]; rfl)

/-- In every run in which `FinishRun` finds nothing else at work for its run, the row of a
finished run is never changed again, short of its deletion. -/
theorem finished_stays (cfg : Agent.Config) (now : Time) (as bs : List Action) (w w' : State)
    (h : (system cfg).Run Alone (.initial now) as w) (h' : (system cfg).Run Alone w bs w')
    (r : String) (row : JobRun) (hrow : w.rows.lookup r = some row) (hterm : row.status ≠ .running) :
    w'.rows.lookup r = some row ∨ w'.rows.lookup r = none := by
  have hinitial : Settled (.initial now) :=
    @settled_restart _ [] now rfl rfl rfl (by simp [State.initial])
  have hsettled : Settled w :=
    h.invariant (fun _ _ _ hs halone hstep => hs.step halone hstep) hinitial
  have hquiet := hsettled.terminal r row hrow hterm
  have hend := h'.invariant (I := fun v => Settled v ∧ Quiet v r ∧
      (v.rows.lookup r = some row ∨ v.rows.lookup r = none)) (by
    rintro a v v' ⟨hs, hq, hstays⟩ halone hstep
    obtain ⟨hq', hrow'⟩ := hq.step hs.kept hs.sane hstep
    exact ⟨hs.step halone hstep, hq', hrow' row hterm hstays⟩) ⟨hsettled, hquiet, .inl hrow⟩
  exact hend.2.2

def scheduled (a : Lifecycle.Action) : Action := .life a ⟨true, 10 ^ 10, .backup⟩

def served (a : Agent.Action) : Action := .agent a true

def chunkArrives : List Action :=
  [scheduled .trigger, scheduled (.create 0 (some "r")), scheduled (.launch 0),
    scheduled (.spawn 0), scheduled (.acquire 0), scheduled (.start 0),
    served (.start "a" ⟨"r", .backup⟩ (some (.new 0)) false), served (.heartbeat "a"),
    served (.wait 0 .picked), served (.request ⟨"r", "a", .chunk 5 0, some 0⟩),
    served (.handle 0 .silent), served (.handle 0 (.stored (.ok 5)))]

def chunkReported : List Action := [served (.handle 0 .silent), served (.handle 0 .silent)]

/-- The run is cancelled and finished, its row being `cur` until then. -/
def canceledRun (cur : JobRun) : List Action :=
  [scheduled (.cancel "r"), scheduled (.fire 0), served (.cancel 0 .canceled),
    served (.wait 0 .ctxDone), served (.wait 0 .abandon),
    scheduled (.returns 0 ⟨none, some contextCanceled⟩), scheduled (.finish 0),
    scheduled (.load 0 (some cur)), scheduled (.readPct 0 0), scheduled (.write 0)]

def rowStarting : JobRun := ⟨.backup, .running, none, 0, 0, 0, "", 0, "Starting"⟩

def rowReported : JobRun := { rowStarting with bytesProcessed := 5, bytesUploaded := 5, currentStep := "" }

def idle : State × Action → Bool
  | (w, .life (.write _) _) =>
    w.workers.isEmpty ∧ w.ex.handlers.all fun x => reports x.phase = none
  | _ => true

theorem alone_of_idle (w : State) (a : Action) (h : idle (w, a) = true) : Alone w a := by
  unfold Alone
  split
  · rename_i k st
    obtain ⟨hworkers, hhandlers⟩ := of_decide_eq_true h
    rw [List.isEmpty_iff.mp hworkers]
    refine fun _ r _ => ⟨fun i x rs c hx hrs => ?_, nofun⟩
    have hnone := List.all_eq_true.mp hhandlers x (List.mem_of_getElem? hx)
    rw [of_decide_eq_true hnone] at hrs
    cases hrs
  · trivial

/-- A chunk that is reported, a cancellation, and a second chunk that comes too late. -/
def lateChunk : List Action := [served (.request ⟨"r", "a", .chunk 5 0, some 0⟩)]

theorem reportedRun : ∃ w w' row,
    (system ⟨300, 1800⟩).Run Alone (.initial (10 ^ 9))
      (chunkArrives ++ (chunkReported ++ (served (.handle 0 .silent) :: canceledRun rowReported))) w ∧
    (system ⟨300, 1800⟩).Run Alone w lateChunk w' ∧ w.rows.lookup "r" = some row ∧
    row.status = .canceled ∧ row.bytesProcessed = 5 :=
  ⟨_, _, _, System.run_of_trail (p := idle) alone_of_idle rfl rfl,
    System.run_of_trail (p := idle) alone_of_idle rfl rfl, rfl, rfl, rfl⟩

theorem finished_stays_lateChunk : ∃ w w' row,
    (system ⟨300, 1800⟩).Run Alone w lateChunk w' ∧ w.rows.lookup "r" = some row ∧
      row.status = .canceled ∧ row.bytesProcessed = 5 ∧
      (w'.rows.lookup "r" = some row ∨ w'.rows.lookup "r" = none) := by
  obtain ⟨w, w', row, hrun, hlate, hrow, hstatus, hbytes⟩ := reportedRun
  refine ⟨w, w', row, hlate, hrow, hstatus, hbytes, ?_⟩
  exact finished_stays ⟨300, 1800⟩ (10 ^ 9) _ lateChunk w w' hrun hlate "r" row hrow
    (by rw [hstatus]; decide)

theorem chunk_after_finish : ∃ w w' row row',
    (system ⟨300, 1800⟩).follow (chunkArrives ++ canceledRun rowStarting) (.initial (10 ^ 9)) = some w ∧
      (system ⟨300, 1800⟩).follow chunkReported w = some w' ∧ w.rows.lookup "r" = some row ∧
      w'.rows.lookup "r" = some row' ∧ row.status = .canceled ∧ row.bytesProcessed = 0 ∧
      row'.bytesProcessed = 5 := ⟨_, _, _, _, rfl, rfl, rfl, rfl, rfl, rfl, rfl⟩

/-- The chunk is stored while its run is cancelled and finished, and reported afterwards. -/
theorem finished_changes : ¬ ∀ (cfg : Agent.Config) (now : Time) (as bs : List Action) (w w' : State),
    (system cfg).Run (fun _ _ => True) (.initial now) as w →
    (system cfg).Run (fun _ _ => True) w bs w' → ∀ (r : String) (row : JobRun),
      w.rows.lookup r = some row → row.status ≠ .running →
      w'.rows.lookup r = some row ∨ w'.rows.lookup r = none := by
  intro hstays
  obtain ⟨w, w', row, row', hw, hw', hrow, hrow', hstatus, hbefore, hafter⟩ := chunk_after_finish
  have hsame := hstays _ _ _ _ w w' (System.run_of_follow (fun _ _ _ => trivial) hw)
    (System.run_of_follow (fun _ _ _ => trivial) hw') "r" row hrow (by rw [hstatus]; decide)
  rcases hsame with hsame | hnone
  · cases hrow'.symm.trans hsame
    rw [hbefore] at hafter
    cases hafter
  · cases hrow'.symm.trans hnone

end ProxBack.Sched.RunRows
