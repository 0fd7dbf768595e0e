import ProxBack.Agent.ExchangeSafe

/-! How runs end when no two of them share a run id: once, by the agent they were given to
or by whoever waits for them, and never without a result where one was decided. -/
namespace ProxBack.Agent
open Lib Engine

def FreshRuns (m : Manager) : Action → Prop
  | .start _ d _ _ => ∀ rs ∈ m.runs, rs.dispatch.runID ≠ d.runID
  | _ => True

instance (m : Manager) (a : Action) : Decidable (FreshRuns m a) :=
  match a with
  | .start _ d _ _ => inferInstanceAs (Decidable (∀ rs ∈ m.runs, rs.dispatch.runID ≠ d.runID))
  | .cancel _ _ | .elapse _ | .heartbeat _ | .queueUpdate _ _ | .wait _ _ | .request _
  | .handle _ _ => inferInstanceAs (Decidable True)

/-- No two attempts share a run id, and the handler that finished one speaks for its agent. -/
structure Settled (m : Manager) : Prop where
  distinct : ∀ i j c d, m.core i = some c → m.core j = some d →
    c.dispatch.runID = d.dispatch.runID → i = j
  agent : ∀ i c h, m.core i = some c → c.exit = some (.finished h) →
    ∃ x, m.handlers[h]? = some x ∧ x.msg.agentID = c.agentID

theorem settled_initial (now : Time) : Settled (.initial now) := by
  have hcore : ∀ i c, (Manager.initial now).core i ≠ some c := by simp [Manager.core, Manager.initial]
  exact ⟨fun i _ c _ hc => absurd hc (hcore i c), fun i c _ hc => absurd hc (hcore i c)⟩

theorem Settled.quiet {m m' : Manager} (h : Settled m) (q : Quiet m m') : Settled m' where
  distinct := fun i j c d hc hd => h.distinct i j c d (q.core i ▸ hc) (q.core j ▸ hd)
  agent := by
    intro i c k hc hexit
    obtain ⟨x, hx, hagent⟩ := h.agent i c k (q.core i ▸ hc) hexit
    obtain ⟨x', hx', hmsg, -⟩ := q.kept k x hx
    exact ⟨x', hx', hmsg ▸ hagent⟩

theorem Settled.change {m m' : Manager} {i : Nat} {c c' : Core} (h : Settled m)
    (q : Change m m' i c c') : Settled m' where
  distinct := by
    intro j k d e hd he hrun
    rcases q.split hd with ⟨rfl, rfl⟩ | ⟨-, hd⟩
    · rcases q.split he with ⟨rfl, rfl⟩ | ⟨-, he⟩
      · rfl
      · exact h.distinct i k c e q.before he (q.dispatch ▸ hrun)
    · rcases q.split he with ⟨rfl, rfl⟩ | ⟨-, he⟩
      · exact h.distinct j i d c hd q.before (q.dispatch ▸ hrun)
      · exact h.distinct j k d e hd he hrun
  agent := by
    intro j d k hd hexit
    have hkept : ∀ x : Handler, m.handlers[k]? = some x → x.msg.agentID = d.agentID →
        ∃ x', m'.handlers[k]? = some x' ∧ x'.msg.agentID = d.agentID := by
      intro x hx hagent
      obtain ⟨x', hx', hmsg, -⟩ := q.kept k x hx
      exact ⟨x', hx', hmsg ▸ hagent⟩
    rcases q.split hd with ⟨rfl, rfl⟩ | ⟨-, hd⟩
    · rcases q.fresh k hexit with hold | ⟨x, hx, rs, c₁, hc₁, hrun₁, hagent₁⟩
      · obtain ⟨x, hx, hagent⟩ := h.agent i c k q.before hold
        exact hkept x hx (hagent.trans q.agentID.symm)
      · -- the attempt the handler took is the one it finished: they share the run id
        obtain ⟨y, hy, hrun, -⟩ := q.finished k hexit
        rw [hx] at hy
        cases hy
        have hsame := h.distinct rs i c₁ c hc₁ q.before
          (hrun₁.trans (hrun.trans (congrArg Dispatch.runID q.dispatch)))
        subst hsame
        rw [q.before] at hc₁
        cases hc₁
        exact ⟨x, hx, hagent₁.symm.trans q.agentID.symm⟩
    · obtain ⟨x, hx, hagent⟩ := h.agent j d k hd hexit
      exact hkept x hx hagent

theorem Settled.start {cfg : Config} {m : Manager} {agentID : String} {d : Dispatch}
    {sess : Option Session} {manifest : Bool} (h : Settled m)
    (hfresh : ∀ rs ∈ m.runs, rs.dispatch.runID ≠ d.runID) :
    Settled (m.start cfg agentID d sess manifest) := by
  have hcore := Manager.core_start cfg m agentID d sess manifest
  have hother : ∀ i c, m.core i = some c → c.dispatch.runID ≠ d.runID := by
    intro i c hc
    obtain ⟨rs, hrs, rfl⟩ := Option.map_eq_some_iff.mp hc
    exact hfresh rs (List.mem_of_getElem? hrs)
  constructor
  · intro i j c e hc he hrun
    rw [hcore] at hc he
    split at hc <;> split at he
    · rename_i hi hj
      exact hi.trans hj.symm
    · cases hc
      exact absurd hrun.symm (hother j e he)
    · cases he
      exact absurd hrun (hother i c hc)
    · exact h.distinct i j c e hc he hrun
  · intro i c k hc hexit
    rw [hcore] at hc
    split at hc
    · cases hc
      cases hexit
    · exact h.agent i c k hc hexit

theorem Settled.run {cfg : Config} {now : Time} {as : List Action} {m : Manager}
    (h : (exchange cfg).Run FreshRuns (.initial now) as m) : Sane m ∧ Settled m := by
  refine h.invariant (I := fun m => Sane m ∧ Settled m) ?_ ⟨sane_initial now, settled_initial now⟩
  rintro a m m' ⟨hsane, hsettled⟩ hfresh hstep
  have e := step_effect hstep
  refine ⟨hsane.step e, ?_⟩
  rcases hsane.cases e with q | ⟨i, c, c', q⟩ | ⟨_, _, _, _, rfl, -, rfl⟩
  · exact hsettled.quiet q
  · exact hsettled.change q
  · exact hsettled.start hfresh

def Manager.Over (m : Manager) (runID : String) : Prop :=
  (∃ i c, m.core i = some c ∧ c.dispatch.runID = runID) ∧ m.active.lookup runID = none

def Phase.Closes : Phase → Prop
  | .sending _ _ | .answered (.ok ()) => True
  | _ => False

/-- A request that was to end a run, and is answered well or about to be, has ended it. -/
def Concluded (m : Manager) : Prop :=
  ∀ (k : Nat) (x : Handler), m.handlers[k]? = some x → x.msg.body.Ends → x.phase.Closes →
    m.Over x.msg.runID

theorem Sane.over_step {cfg : Config} {a : Action} {m m' : Manager} {runID : String} (h : Sane m)
    (hfresh : FreshRuns m a) (e : Effect cfg m a m') (hover : m.Over runID) : m'.Over runID := by
  obtain ⟨⟨i, c, hc, hrun⟩, hnone⟩ := hover
  obtain ⟨c', hc', hdispatch, -⟩ := h.persists e hc
  refine ⟨⟨i, c', hc', hdispatch ▸ hrun⟩, ?_⟩
  rcases h.cases e with q | ⟨j, d, d', q⟩ | ⟨_, d, _, _, rfl, -, rfl⟩
  · rw [q.active, hnone]
  · rcases q.active with ⟨hactive, -⟩ | ⟨hactive, -, -⟩
    · rw [hactive, hnone]
    · rw [hactive, FinMap.lookup_erase_ite]
      split
      · rfl
      · exact hnone
  · obtain ⟨rs, hrs, rfl⟩ := Option.map_eq_some_iff.mp hc
    have hne : runID ≠ d.runID := hrun ▸ hfresh rs (List.mem_of_getElem? hrs)
    exact (FinMap.lookup_insert_ite runID d.runID m.runs.length m.active).trans ((if_neg hne).trans hnone)

@[grind =]
theorem Sane.finish_active {m : Manager} (h : Sane m) (k : Nat) (msg : Message) (res : Result) :
    (m.finish k msg res).active.lookup msg.runID = none := by
  unfold Manager.finish
  split
  · rename_i hnone
    exact hnone
  · rename_i i hi
    obtain ⟨c, hc, -, hopen⟩ := h.active _ i hi
    obtain ⟨rs, hrs, rfl⟩ := Option.map_eq_some_iff.mp hc
    rw [hrs]
    have hclosed : ¬ rs.closed = true := fun hclosed => (h.closed i _ hc).mp hclosed hopen
    dsimp only
    rw [if_neg hclosed]
    exact (FinMap.lookup_erase_ite _ _ _).trans (if_pos rfl)

theorem Manager.handlers_finish (m : Manager) (k : Nat) (msg : Message) (res : Result) :
    ∃ p, (m.finish k msg res).handlers = (m.setPhase k p).handlers := by
  unfold finish
  split
  · exact ⟨_, rfl⟩
  · split
    · exact ⟨_, rfl⟩
    · split <;> exact ⟨_, rfl⟩

theorem Concluded.request {m : Manager} (h : Concluded m) (msg : Message) :
    Concluded (m.request msg) := by
  intro k x hx hends hcloses
  unfold Manager.request at hx
  rw [List.getElem?_append] at hx
  split at hx
  · exact h k x hx hends hcloses
  · -- no request is answered well as it comes in
    cases List.mem_singleton.mp (List.mem_of_getElem? hx)
    dsimp only at hcloses
    split at hcloses
    · cases hcloses
    · split at hcloses <;> cases hcloses

theorem Concluded.step {cfg : Config} {a : Action} {m m' : Manager} (hm : Concluded m) (h : Sane m)
    (hfresh : FreshRuns m a) (e : Effect cfg m a m') : Concluded m' := by
  have hover : ∀ r, m.Over r → m'.Over r := fun r => h.over_step hfresh e
  have hsame : m'.handlers = m.handlers → Concluded m' := fun heq k x hx hends hcloses =>
    hover _ (hm k x (heq ▸ hx) hends hcloses)
  have hmoved : ∀ {k : Nat} {x : Handler} {p : Phase}, m.handlers[k]? = some x →
      m'.handlers = (m.setPhase k p).handlers →
      (x.msg.body.Ends → p.Closes → m'.Over x.msg.runID) → Concluded m' := by
    intro k x p hx hhandlers hp j y hy hends hcloses
    rw [hhandlers, Manager.handlers_setPhase] at hy
    split at hy
    · rename_i heq
      rw [← heq, hx] at hy
      cases hy
      exact hp hends hcloses
    · exact hover _ (hm j y hy hends hcloses)
  cases e with
  | start | cancel | elapse | busy | receive | choose | idle => exact hsame rfl
  | heartbeat => exact hsame (by simp)
  | update hok =>
    unfold Manager.queueUpdate at hok
    split at hok
    · cases hok
    · cases hok
      exact hsame rfl
  | abandon =>
    refine hsame ?_
    unfold Manager.abandon
    split <;> rfl
  | request => exact hm.request _
  | @move k r x p hx hp hok =>
    refine hmoved hx rfl fun hends hcloses => ?_
    cases p with
    | sending => exact absurd trivial hp.new
    | answered ans =>
      cases ans with
      | ok => exact absurd hends (hok _ (h.fits k x hx) rfl)
      | error => cases hcloses
    | _ => cases hcloses
  | total hx => exact hmoved hx (Manager.setPhase_congr (by simp [Manager.accept]) _ _) fun _ hcloses => False.elim hcloses
  | record hx =>
    obtain ⟨p, hp, hhandlers⟩ := m.handlers_record _ _ _ _ _
    refine hmoved hx hhandlers fun _ hcloses => ?_
    rcases hp with rfl | ⟨snap, rfl⟩
    · unfold Manager.afterRecord at hcloses
      split at hcloses <;> cases hcloses
    · cases hcloses
  | @note k x uploaded hx hph =>
    have hfits := h.fits k x hx
    rw [hph] at hfits
    exact hmoved hx (Manager.setPhase_congr (by simp) _ _) fun hends _ => absurd hends hfits.2
  | wrote hx => exact hmoved hx (Manager.setPhase_congr (by simp) _ _) fun _ hcloses => False.elim hcloses
  | @finish k x res hx hph =>
    obtain ⟨p, hhandlers⟩ := m.handlers_finish k x.msg res
    refine hmoved hx hhandlers fun _ _ => ?_
    have hfits := h.fits k x hx
    rw [hph] at hfits
    obtain ⟨⟨i, c, hc, hrun, -⟩, -⟩ := hfits
    obtain ⟨c', hc', hdispatch, -⟩ := h.persists (Effect.finish hx hph : Effect cfg m _ _) hc
    exact ⟨⟨i, c', hc', hdispatch ▸ hrun⟩, h.finish_active k x.msg res⟩
  | @send k x i res hx hph _ =>
    refine hmoved hx rfl fun hends _ => hover _ (hm k x hx hends ?_)
    rw [hph]
    trivial

theorem Concluded.run {cfg : Config} {now : Time} {as : List Action} {m : Manager}
    (h : (exchange cfg).Run FreshRuns (.initial now) as m) : Concluded m := by
  refine (h.invariant (I := fun m => Sane m ∧ Concluded m) ?_
    ⟨sane_initial now, fun k x hx => by simp [Manager.initial] at hx⟩).2
  rintro a m m' ⟨hsane, hm⟩ hfresh hstep
  exact ⟨hsane.step (step_effect hstep), hm.step hsane hfresh (step_effect hstep)⟩

def updates (q : List Queued) : Nat := (q.filter fun e => e.dispatch.type = .update).length

@[simp] theorem pending_setPhase (m : Manager) (k : Nat) (p : Phase) :
    (m.setPhase k p).pending = m.pending := rfl

@[simp] theorem pending_record (m : Manager) (k : Nat) (msg : Message) (rs size uploaded : Nat) :
    (m.record k msg rs size uploaded).pending = m.pending := by
  unfold Manager.record
  split
  · rfl
  · dsimp only
    split <;> rfl

@[simp] theorem pending_noteProgress (m : Manager) (msg : Message) :
    (m.noteProgress msg).pending = m.pending := by
  unfold Manager.noteProgress
  split <;> rfl

@[simp] theorem pending_setTotal (m : Manager) (i : Nat) (n : Int) :
    (m.setTotal i n).pending = m.pending := by
  unfold Manager.setTotal
  split <;> rfl

@[simp] theorem pending_abandon (m : Manager) (runID : String) (i : Nat) :
    (m.abandon runID i).pending = m.pending := by
  unfold Manager.abandon
  split <;> rfl

@[simp] theorem pending_finish (m : Manager) (k : Nat) (msg : Message) (res : Result) :
    (m.finish k msg res).pending = m.pending := by
  unfold Manager.finish
  split
  · rfl
  · split
    · rfl
    · split <;> rfl

theorem Effect.pending {cfg : Config} {a : Action} {m m' : Manager} (e : Effect cfg m a m') :
    m'.pending = m.pending ∨
    (∃ agentID, a = .heartbeat agentID ∧ m'.pending = Function.update m.pending agentID []) ∨
    (∃ agentID d, a = .queueUpdate agentID d ∧ m.busyLocked agentID = false ∧
      m'.pending = Function.update m.pending agentID
        ((m.pending agentID).filter (fun q => q.dispatch.type ≠ .update) ++
          [⟨{ d with type := .update }, none⟩])) ∨
    ∃ agentID d sess manifest, a = .start agentID d sess manifest ∧ d.type ≠ .update ∧
      m'.pending = Function.update m.pending agentID
        (m.pending agentID ++ [⟨d, some m.runs.length⟩]) := by
  cases e with
  | start htype _ => exact .inr (.inr (.inr ⟨_, _, _, _, rfl, htype, rfl⟩))
  | heartbeat => exact .inr (.inl ⟨_, rfl, m.pending_heartbeat _⟩)
  | @update agentID d m' hok =>
    unfold Manager.queueUpdate at hok
    split at hok
    · cases hok
    · rename_i hbusy
      cases hok
      exact .inr (.inr (.inl ⟨_, _, rfl, Bool.eq_false_iff.mpr hbusy, rfl⟩))
  | total => exact .inl (pending_setTotal m _ _)
  | record => exact .inl (pending_record m _ _ _ _ _)
  | note => exact .inl (pending_noteProgress m _)
  | wrote => exact .inl (pending_noteProgress m _)
  | abandon => exact .inl (pending_abandon m _ _)
  | finish => exact .inl (pending_finish m _ _ _)
  | _ => exact .inl rfl

theorem updates_run {cfg : Config} {ok : Manager → Action → Prop} {now : Time} {as : List Action}
    {m : Manager} (h : (exchange cfg).Run ok (.initial now) as m) (agentID : String) :
    updates (m.pending agentID) ≤ 1 := by
  refine h.invariant (I := fun m => ∀ agentID, updates (m.pending agentID) ≤ 1) ?_ ?_ agentID
  · intro a m m' hm _ hstep agentID
    rcases (step_effect hstep).pending with hp | ⟨b, -, hp⟩ | ⟨b, d, -, -, hp⟩ |
      ⟨b, d, _, _, -, htype, hp⟩
    · rw [hp]
      exact hm agentID
    all_goals
      rw [hp, Function.update_apply]
      split
    · exact Nat.zero_le 1
    · exact hm agentID
    · -- the earlier update is dropped before the new one is queued
      simp [updates, List.filter_append, List.filter_filter]
    · exact hm agentID
    · rename_i heq
      subst heq
      simpa [updates, List.filter_append, htype] using hm agentID
    · exact hm agentID
  · intro agentID
    exact Nat.zero_le 1

theorem Sane.send_enabled {m : Manager} (h : Sane m) {k i : Nat} {x : Handler} {res : Result}
    (hx : m.handlers[k]? = some x) (hph : x.phase = .sending i res) :
    ∃ m', m.handle k .silent = some m' ∧ m'.runs[i]?.bind RunState.done = some res := by
  obtain ⟨c, hc, -, hunsent⟩ := h.sender k x i res hx hph
  obtain ⟨rs, hrs, rfl⟩ := Option.map_eq_some_iff.mp hc
  obtain ⟨msg, phase⟩ := x
  cases hph
  have hroom : m.runs[i]?.bind RunState.done = none := by
    rw [hrs]
    exact hunsent.done
  refine ⟨(m.modifyRun i fun x => { x with done := some res, sends := x.sends + 1 }).setPhase k
    (.answered (.ok ())), ?_, ?_⟩
  · unfold Manager.handle
    rw [hx]
    simp only [hroom]
  · simp only [Manager.setPhase, Manager.modifyRun, Manager.getElem?_modify_ite, if_true, hrs]
    rfl

theorem Sane.sends_le {m : Manager} (h : Sane m) {i : Nat} {c : Core} (hc : m.core i = some c) :
    c.sends ≤ 1 := by
  by_cases hfin : ∃ k, c.exit = some (.finished k)
  · obtain ⟨k, hk⟩ := hfin
    obtain ⟨x, -, -, -, hchan⟩ := h.finished i c k hc hk
    cases hchan with
    | unsent _ hu => rw [hu.sends]; exact Nat.zero_le 1
    | full _ _ hsends _ => rw [hsends]
    | received _ _ hsends _ => rw [hsends]
  · rw [(h.unsent i c hc fun k hk => hfin ⟨k, hk⟩).sends]
    exact Nat.zero_le 1

theorem request_over {m : Manager} (hsane : Sane m) (hsettled : Settled m) {i : Nat} {c : Core}
    (hc : m.core i = some c) (hexit : c.exit ≠ none) {msg : Message}
    (hrun : msg.runID = c.dispatch.runID) :
    m.request msg =
      { m with handlers := m.handlers ++ [⟨msg, .answered (.error .unknownRun)⟩] } := by
  have hgone : m.active.lookup msg.runID = none := by
    rw [Option.eq_none_iff_forall_ne_some]
    intro j hj
    obtain ⟨d, hd, hrun', hopen⟩ := hsane.active _ j hj
    have hij := hsettled.distinct j i d c hd hc (hrun'.trans hrun)
    subst hij
    rw [hc] at hd
    cases hd
    exact hexit hopen
  simp only [Manager.request, Manager.takeRun, hgone]

theorem Sane.queueUpdate_idle {m m' : Manager} (h : Sane m) {agentID : String} {d : Dispatch}
    (hok : m.queueUpdate agentID d = .ok m') {r : String} {i : Nat} {rs : RunState}
    (hr : m.active.lookup r = some i) (hrs : m.runs[i]? = some rs) : rs.agentID ≠ agentID := by
  intro hagent
  obtain ⟨c, hc, -, hopen⟩ := h.active r i hr
  rw [Manager.core_eq hrs] at hc
  cases hc
  have hclosed : rs.closed = false := by
    by_contra hne
    exact (h.closed i _ (Manager.core_eq hrs)).mp (Bool.not_eq_false _ ▸ hne) hopen
  have hbusy : m.busyLocked agentID = true := by
    unfold Manager.busyLocked
    refine List.any_eq_true.mpr ⟨⟨r, i⟩, AList.mem_lookup_iff.mp hr, ?_⟩
    simp only [hrs, hagent, hclosed, and_self, decide_true]
  unfold Manager.queueUpdate at hok
  rw [if_pos hbusy] at hok
  cases hok

/-- The result of a run that `finish` took out of the table: received, in the channel, or
one step of its handler away from it. -/
theorem Sane.result {m : Manager} (h : Sane m) {i k : Nat} {rs : RunState}
    (hrs : m.runs[i]? = some rs) (hexit : rs.exit = some (.finished k)) :
    (∃ res, rs.waiter = .received res) ∨ (∃ res, rs.done = some res) ∨
      ∃ x res m', m.handlers[k]? = some x ∧ x.phase = .sending i res ∧
        m.handle k .silent = some m' ∧ m'.runs[i]?.bind RunState.done = some res := by
  obtain ⟨x, hx, -, -, hchan⟩ := h.finished i _ k (Manager.core_eq hrs) hexit
  cases hchan with
  | unsent hs _ =>
    obtain ⟨res, hph⟩ := hs
    obtain ⟨m', hm', hres⟩ := h.send_enabled hx hph
    exact .inr (.inr ⟨x, res, m', hx, hph, hm', hres⟩)
  | full res hdone => exact .inr (.inl ⟨res, hdone⟩)
  | received res _ _ hw => exact .inl ⟨res, hw⟩

theorem Sane.returned_inactive {m : Manager} (h : Sane m) {i : Nat} {rs : RunState}
    (hrs : m.runs[i]? = some rs) (hw : rs.waiter.Returned) :
    rs.exit ≠ none ∧ ∀ r, m.active.lookup r ≠ some i := by
  have hc := Manager.core_eq hrs
  have hexit := h.returned i _ hc hw
  refine ⟨hexit, fun r hr => ?_⟩
  obtain ⟨c, hc', -, hopen⟩ := h.active r i hr
  rw [hc] at hc'
  cases hc'
  exact hexit hopen

def crossedFailure : List Action :=
  [.start "a" ⟨"r", .backup⟩ none false, .heartbeat "a", .wait 0 .picked,
    .request ⟨"r", "a", .fail "disk error", some 0⟩, .handle 0 .silent, .cancel 0 .canceled,
    .wait 0 .ctxDone, .handle 0 .silent, .wait 0 .abandon]

def timeouts : Config := ⟨300, 1800⟩

theorem crossedFailure_run : ∃ m,
    (exchange timeouts).Run FreshRuns (.initial 0) crossedFailure m ∧
      m.runs.map (fun rs => (rs.sends, rs.exit, rs.waiter)) =
        [(1, some (.finished 0), .gaveUp (.ctx .canceled))] :=
  ⟨_, System.run_of_trail (p := fun x => decide (FreshRuns x.1 x.2))
    (fun _ _ h => of_decide_eq_true h) rfl rfl, rfl⟩

end ProxBack.Agent
