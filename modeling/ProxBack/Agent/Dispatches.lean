import ProxBack.Agent.Outcome

/-! Which dispatches heartbeats hand out. Attempts may share a run id here, as the retries
of one run do. A queue is never looked at when an attempt ends, so a dispatch is stale
exactly when its attempt ended while it was still queued. -/
namespace ProxBack.Agent
open Lib Engine

def Manager.ending (m : Manager) : Action → Option Nat
  | .wait i .abandon => m.runs[i]?.bind fun rs => m.active.lookup rs.dispatch.runID
  | .handle h _ =>
    match m.handlers[h]? with
    | some ⟨msg, .finishing _⟩ => m.active.lookup msg.runID
    | _ => none
  | _ => none

def EndsHandedOut (m : Manager) (a : Action) : Prop :=
  ∀ k, m.ending a = some k → ∀ agentID, ∀ q ∈ m.pending agentID, q.attempt ≠ some k

theorem active_abandon_eq {m : Manager} {runID : String} {i k : Nat}
    (h : m.active.lookup runID = some k) : (m.abandon runID i).active = m.active.erase runID := by
  rw [Manager.abandon, h]
  rfl

theorem Effect.active {cfg : Config} {a : Action} {m m' : Manager} (e : Effect cfg m a m') :
    m'.active = m.active ∨
    (∃ agentID d sess manifest, a = .start agentID d sess manifest ∧ m.Free d.runID ∧
      m'.active = m.active.insert d.runID m.runs.length) ∨
    ∃ r k, m.ending a = some k ∧ m.active.lookup r = some k ∧ m'.active = m.active.erase r := by
  cases e with
  | start _ hfree => exact .inr (.inl ⟨_, _, _, _, rfl, hfree, rfl⟩)
  | heartbeat => exact .inl (m.active_heartbeat _)
  | update hok =>
    unfold Manager.queueUpdate at hok
    split at hok <;> cases hok
    exact .inl rfl
  | @abandon i rs why hrs hw =>
    cases hlook : m.active.lookup rs.dispatch.runID with
    | none =>
      refine .inl ?_
      show (m.abandon rs.dispatch.runID i).active = m.active
      rw [Manager.abandon, hlook]
    | some k =>
      refine .inr (.inr ⟨_, k, ?_, hlook, active_abandon_eq hlook⟩)
      simp only [Manager.ending, hrs, Option.bind_some, hlook]
  | total => exact .inl (m.active_setTotal _ _)
  | record => exact .inl (m.active_record _ _ _ _ _)
  | note => exact .inl (m.active_noteProgress _)
  | wrote => exact .inl (m.active_noteProgress _)
  | @finish h x res hx hph =>
    unfold Manager.finish
    split
    · exact .inl rfl
    · rename_i k hk
      split
      · exact .inl rfl
      · split
        · exact .inl rfl
        · refine .inr (.inr ⟨_, k, ?_, hk, rfl⟩)
          obtain ⟨msg, phase⟩ := x
          cases hph
          simp only [Manager.ending, hx, hk]
  | _ => exact .inl rfl

@[simp] theorem handed_noteProgress (m : Manager) (msg : Message) :
    (m.noteProgress msg).handed = m.handed := by
  unfold Manager.noteProgress
  split <;> rfl

theorem Effect.handed {cfg : Config} {a : Action} {m m' : Manager} (e : Effect cfg m a m') :
    (m'.handed = m.handed ∧ ∀ agentID, a ≠ .heartbeat agentID) ∨
    ∃ agentID, a = .heartbeat agentID ∧
      m'.handed = m.handed ++ (m.pending agentID).filterMap (m.handover agentID) := by
  cases e with
  | heartbeat => exact .inr ⟨_, rfl, rfl⟩
  | update hok =>
    unfold Manager.queueUpdate at hok
    split at hok <;> cases hok
    exact .inl ⟨rfl, by simp⟩
  | total =>
    refine .inl ⟨?_, by simp⟩
    show (m.setTotal _ _).handed = m.handed
    unfold Manager.setTotal
    split <;> rfl
  | @record h x rs size uploaded =>
    refine .inl ⟨?_, by simp⟩
    unfold Manager.record
    split
    · rfl
    · dsimp only
      split <;> rfl
  | note => exact .inl ⟨handed_noteProgress m _, by simp⟩
  | wrote => exact .inl ⟨handed_noteProgress m _, by simp⟩
  | abandon =>
    refine .inl ⟨?_, by simp⟩
    show (m.abandon _ _).handed = m.handed
    unfold Manager.abandon
    split <;> rfl
  | finish =>
    refine .inl ⟨?_, by simp⟩
    unfold Manager.finish
    split
    · rfl
    · split
      · rfl
      · split <;> rfl
  | _ => exact .inl ⟨rfl, by simp⟩

def Manager.queued (m : Manager) (agentID : String) : List Nat :=
  (m.pending agentID).filterMap Queued.attempt

def Manager.out (m : Manager) : List Nat := m.handed.map Handover.attempt

def Backed (m : Manager) : Prop :=
  ∀ agentID, ∀ q ∈ m.pending agentID, ∀ i, q.attempt = some i →
    ∃ c, m.core i = some c ∧ c.dispatch = q.dispatch ∧ q.dispatch.type ≠ .update

structure Once (m : Manager) : Prop where
  nodup : ∀ agentID, (m.queued agentID).Nodup
  apart : ∀ a b i, i ∈ m.queued a → i ∈ m.queued b → a = b
  notOut : ∀ agentID, ∀ i ∈ m.queued agentID, i ∉ m.out
  known : ∀ i ∈ m.out, i < m.runs.length
  once : m.out.Nodup

theorem attempts_handover (m : Manager) (agentID : String) (q : List Queued) :
    (q.filterMap (m.handover agentID)).map Handover.attempt = q.filterMap Queued.attempt := by
  rw [List.map_filterMap]
  congr 1
  funext e
  simp only [Manager.handover, Option.map_map]
  exact congrFun Option.map_id _

theorem Manager.lt_of_core {m : Manager} {i : Nat} {c : Core} (h : m.core i = some c) :
    i < m.runs.length := by
  obtain ⟨rs, hrs, -⟩ := Option.map_eq_some_iff.mp h
  exact (List.getElem?_eq_some_iff.mp hrs).1

theorem Sane.runs_length {cfg : Config} {a : Action} {m m' : Manager} (hsane : Sane m)
    (e : Effect cfg m a m') {i : Nat} (hi : i < m.runs.length) : i < m'.runs.length := by
  obtain ⟨c', hc', -⟩ := hsane.persists e (Manager.core_eq (List.getElem?_eq_getElem hi))
  exact Manager.lt_of_core hc'

theorem Backed.step {cfg : Config} {a : Action} {m m' : Manager} (h : Backed m) (hsane : Sane m)
    (e : Effect cfg m a m') : Backed m' := by
  have hold : ∀ agentID, ∀ q ∈ m.pending agentID, ∀ i, q.attempt = some i →
      ∃ c, m'.core i = some c ∧ c.dispatch = q.dispatch ∧ q.dispatch.type ≠ .update := by
    intro agentID q hq i hi
    obtain ⟨c, hc, hd, htype⟩ := h agentID q hq i hi
    obtain ⟨c', hc', hd', -⟩ := hsane.persists e hc
    exact ⟨c', hc', hd'.trans hd, htype⟩
  intro agentID q hq i hi
  rcases e.pending with hp | ⟨b, rfl, hp⟩ | ⟨b, d, rfl, -, hp⟩ | ⟨b, d, _, _, rfl, htype, hp⟩
  · exact hold agentID q (hp ▸ hq) i hi
  all_goals
    rw [hp, Function.update_apply] at hq
    split at hq
  · cases hq
  · exact hold agentID q hq i hi
  · rcases List.mem_append.mp hq with hq | hq
    · exact hold b q (List.mem_of_mem_filter hq) i hi
    · cases List.mem_singleton.mp hq
      cases hi
  · exact hold agentID q hq i hi
  · rcases List.mem_append.mp hq with hq | hq
    · exact hold b q hq i hi
    · cases List.mem_singleton.mp hq
      cases hi
      cases e
      exact ⟨_, by rw [Manager.core_start, if_pos rfl], rfl, htype⟩
  · exact hold agentID q hq i hi

theorem Backed.known {m : Manager} (h : Backed m) {agentID : String} {i : Nat}
    (hi : i ∈ m.queued agentID) : i < m.runs.length := by
  obtain ⟨q, hq, hqi⟩ := List.mem_filterMap.mp hi
  obtain ⟨c, hc, -⟩ := h agentID q hq i hqi
  exact Manager.lt_of_core hc

theorem Effect.queues {cfg : Config} {a : Action} {m m' : Manager} (hbacked : Backed m)
    (e : Effect cfg m a m') :
    (m'.out = m.out ∧ ∀ b, m'.queued b = m.queued b) ∨
    (∃ agentID, m'.out = m.out ++ m.queued agentID ∧
      ∀ b, m'.queued b = if b = agentID then [] else m.queued b) ∨
    ∃ agentID d sess manifest, a = .start agentID d sess manifest ∧ m'.out = m.out ∧
      ∀ b, m'.queued b =
        if b = agentID then m.queued agentID ++ [m.runs.length] else m.queued b := by
  rcases e.handed with ⟨hh, hno⟩ | ⟨agentID, rfl, hh⟩
  · have hout : m'.out = m.out := congrArg (List.map Handover.attempt) hh
    rcases e.pending with hp | ⟨b, rfl, -⟩ | ⟨b, d, rfl, -, hp⟩ | ⟨b, d, _, _, rfl, -, hp⟩
    · exact .inl ⟨hout, fun b => by rw [Manager.queued, hp]; rfl⟩
    · exact absurd rfl (hno b)
    · -- an update has no attempt, and neither has the one it replaces
      refine .inl ⟨hout, fun c => ?_⟩
      rw [Manager.queued, hp, Function.update_apply]
      split
      · rename_i hcb
        subst hcb
        rw [List.filterMap_append, List.filterMap_filter]
        simp only [List.filterMap_cons_none, List.filterMap_nil, List.append_nil]
        refine List.filterMap_congr fun q hq => ?_
        cases hat : q.attempt with
        | none => simp
        | some i =>
          obtain ⟨_, _, _, htype⟩ := hbacked _ q hq i hat
          simp [htype]
      · rfl
    · refine .inr (.inr ⟨b, d, _, _, rfl, hout, fun c => ?_⟩)
      rw [Manager.queued, hp, Function.update_apply]
      split
      · simp [Manager.queued]
      · rfl
  · refine .inr (.inl ⟨agentID, ?_, fun b => ?_⟩)
    · rw [Manager.out, hh, List.map_append, attempts_handover]
      rfl
    · cases e
      rw [Manager.queued, Manager.pending_heartbeat, Function.update_apply]
      split <;> rfl

theorem Once.step {cfg : Config} {a : Action} {m m' : Manager} (h : Once m) (hsane : Sane m)
    (hbacked : Backed m) (e : Effect cfg m a m') : Once m' := by
  have hgrow : ∀ i ∈ m.out, i < m'.runs.length := fun i hi => hsane.runs_length e (h.known i hi)
  rcases e.queues hbacked with ⟨hout, hq⟩ | ⟨agentID, hout, hq⟩ |
    ⟨agentID, _, _, _, -, hout, hq⟩
  · exact
      { nodup := fun b => hq b ▸ h.nodup b
        apart := fun a b i ha hb => h.apart a b i (hq a ▸ ha) (hq b ▸ hb)
        notOut := fun b i hi => by rw [hout]; exact h.notOut b i (hq b ▸ hi)
        known := by rw [hout]; exact hgrow
        once := hout ▸ h.once }
  · have hin : ∀ b i, i ∈ m'.queued b → b ≠ agentID ∧ i ∈ m.queued b := by
      intro b i hi
      rw [hq] at hi
      split at hi
      · cases hi
      · rename_i hne
        exact ⟨hne, hi⟩
    exact
      { nodup := by
          intro b
          rw [hq]
          split
          · exact List.nodup_nil
          · exact h.nodup b
        apart := fun a b i ha hb => h.apart a b i (hin a i ha).2 (hin b i hb).2
        notOut := by
          intro b i hi
          obtain ⟨hne, hi'⟩ := hin b i hi
          rw [hout, List.mem_append, not_or]
          exact ⟨h.notOut b i hi', fun hi'' => hne (h.apart b agentID i hi' hi'')⟩
        known := by
          intro i hi
          rw [hout] at hi
          rcases List.mem_append.mp hi with hi | hi
          · exact hgrow i hi
          · exact hsane.runs_length e (hbacked.known hi)
        once := by
          rw [hout]
          exact List.nodup_append'.mpr ⟨h.once, h.nodup agentID,
            fun i hi hi' => h.notOut agentID i hi' hi⟩ }
  · have hnew : ∀ b i, i ∈ m'.queued b →
        i ∈ m.queued b ∨ (i = m.runs.length ∧ b = agentID) := by
      intro b i hi
      rw [hq] at hi
      split at hi
      · rename_i heq
        subst heq
        exact (List.mem_append.mp hi).imp id fun hi => ⟨List.mem_singleton.mp hi, rfl⟩
      · exact .inl hi
    have hlast : ∀ b, m.runs.length ∉ m.queued b := fun b hi =>
      Nat.lt_irrefl _ (hbacked.known hi)
    exact
      { nodup := by
          intro b
          rw [hq]
          split
          · refine List.nodup_append'.mpr ⟨h.nodup agentID, List.nodup_singleton _, ?_⟩
            intro i hi hi'
            cases List.mem_singleton.mp hi'
            exact hlast agentID hi
          · exact h.nodup b
        apart := by
          intro a b i ha hb
          rcases hnew a i ha with ha | ⟨rfl, rfl⟩
          · rcases hnew b i hb with hb | ⟨rfl, rfl⟩
            · exact h.apart a b i ha hb
            · exact absurd ha (hlast a)
          · rcases hnew b _ hb with hb | ⟨-, rfl⟩
            · exact absurd hb (hlast b)
            · rfl
        notOut := by
          intro b i hi
          rw [hout]
          rcases hnew b i hi with hi | ⟨rfl, -⟩
          · exact h.notOut b i hi
          · exact fun hi => Nat.lt_irrefl _ (h.known _ hi)
        known := by rw [hout]; exact hgrow
        once := hout ▸ h.once }

structure Live (m : Manager) : Prop where
  queue : ∀ agentID, ∀ q ∈ m.pending agentID, ∀ i, q.attempt = some i →
    m.active.lookup q.dispatch.runID = some i
  handed : ∀ x ∈ m.handed, x.live = true

theorem Live.step {cfg : Config} {a : Action} {m m' : Manager} (h : Live m) (hsane : Sane m)
    (hok : EndsHandedOut m a) (e : Effect cfg m a m') : Live m' := by
  -- entries that stay in a queue stay in the table
  have hold : ∀ agentID, ∀ q ∈ m.pending agentID, ∀ i, q.attempt = some i →
      m'.active.lookup q.dispatch.runID = some i := by
    intro agentID q hq i hi
    have hlook := h.queue agentID q hq i hi
    rcases e.active with hact | ⟨b, d, _, _, rfl, hfree, hact⟩ | ⟨r, k, hend, hr, hact⟩
    · rw [hact]
      exact hlook
    · rw [hact, FinMap.lookup_insert_ite, if_neg, hlook]
      intro hrun
      obtain ⟨c, hc, hd, hopen⟩ := hsane.active _ i hlook
      exact hsane.returned i c hc (hfree.returned hc (hd.trans hrun)) hopen
    · rw [hact, FinMap.lookup_erase_ite, if_neg, hlook]
      intro hrun
      rw [hrun, hr] at hlook
      cases hlook
      exact hok _ hend agentID q hq hi
  constructor
  · intro agentID q hq i hi
    rcases e.pending with hp | ⟨b, rfl, hp⟩ | ⟨b, d, rfl, -, hp⟩ | ⟨b, d, _, _, rfl, htype, hp⟩
    · exact hold agentID q (hp ▸ hq) i hi
    all_goals
      rw [hp, Function.update_apply] at hq
      split at hq
    · cases hq
    · exact hold agentID q hq i hi
    · rcases List.mem_append.mp hq with hq | hq
      · exact hold b q (List.mem_of_mem_filter hq) i hi
      · cases List.mem_singleton.mp hq
        cases hi
    · exact hold agentID q hq i hi
    · rcases List.mem_append.mp hq with hq | hq
      · exact hold b q hq i hi
      · cases List.mem_singleton.mp hq
        cases hi
        cases e
        exact AList.lookup_insert _
    · exact hold agentID q hq i hi
  · intro x hx
    rcases e.handed with ⟨hh, -⟩ | ⟨agentID, rfl, hh⟩
    · exact h.handed x (hh ▸ hx)
    · rw [hh] at hx
      rcases List.mem_append.mp hx with hx | hx
      · exact h.handed x hx
      · obtain ⟨q, hq, hqx⟩ := List.mem_filterMap.mp hx
        obtain ⟨i, hi, rfl⟩ := Option.map_eq_some_iff.mp hqx
        exact decide_eq_true (h.queue agentID q hq i hi)

/-- Heartbeats hand out live dispatches only, each once, in every run in which no attempt
ends before its dispatch was handed out. -/
theorem dispatches_live (cfg : Config) (now : Time) (as : List Action) (m : Manager)
    (h : (exchange cfg).Run EndsHandedOut (.initial now) as m) :
    (∀ x ∈ m.handed, x.live = true) ∧ (m.handed.map Handover.attempt).Nodup := by
  have hinv : Sane m ∧ Backed m ∧ Once m ∧ Live m := by
    refine h.invariant (I := fun m => Sane m ∧ Backed m ∧ Once m ∧ Live m) ?_ ?_
    · rintro a m m' ⟨hsane, hbacked, honce, hlive⟩ hok hstep
      have e := step_effect hstep
      exact ⟨hsane.step e, hbacked.step hsane e, honce.step hsane hbacked e,
        hlive.step hsane hok e⟩
    · refine ⟨sane_initial now, fun _ _ hq => (nomatch hq), ?_, fun _ _ hq => (nomatch hq), nofun⟩
      exact ⟨fun _ => List.nodup_nil, fun _ _ _ ha => (nomatch ha), fun _ _ hi => (nomatch hi),
        fun _ hi => (nomatch hi), List.nodup_nil⟩
  exact ⟨hinv.2.2.2.handed, hinv.2.2.1.once⟩

/-- An attempt that stalls after its dispatch went out, and the next one of its run. -/
def stalledAttempt : List Action :=
  [.start "a" ⟨"r", .backup⟩ none false, .heartbeat "a", .wait 0 .picked, .elapse 1800,
    .wait 0 .tick]

def nextAttempt : List Action := [.start "a" ⟨"r", .backup⟩ none false, .heartbeat "a"]

theorem stalledAttempt_run : ∃ m,
    (exchange timeouts).Run EndsHandedOut (.initial 0)
      (stalledAttempt ++ .wait 0 .abandon :: nextAttempt) m ∧
      m.handed = [⟨"a", 0, true⟩, ⟨"a", 1, true⟩] := by
  have hnone : ∀ (m : Manager) (a : Action), decide (m.ending a = none) = true →
      EndsHandedOut m a := by
    intro m a h k hk
    rw [of_decide_eq_true h] at hk
    cases hk
  refine ⟨_, .trans (System.run_of_trail (p := fun x => decide (x.1.ending x.2 = none))
    (fun m a => hnone m a) rfl rfl) (.cons ?_ rfl (System.run_of_trail
      (p := fun x => decide (x.1.ending x.2 = none)) (fun m a => hnone m a) rfl rfl)), rfl⟩
  intro k _ agentID q hq
  have hempty : ∀ (l : List Queued) b,
      Function.update (Function.update (fun _ => []) "a" l) "a" [] b = [] := by
    intro l b
    by_cases hb : b = "a" <;> simp [hb]
  exact absurd hq (by
    show q ∉ Function.update (Function.update (fun _ => []) "a" _) "a" [] agentID
    rw [hempty]
    exact List.not_mem_nil)

theorem dispatches_live_stalledAttempt : ∃ m,
    (exchange timeouts).Run EndsHandedOut (.initial 0)
      (stalledAttempt ++ .wait 0 .abandon :: nextAttempt) m ∧
      m.handed ≠ [] ∧ (∀ x ∈ m.handed, x.live = true) := by
  obtain ⟨m, hrun, hend⟩ := stalledAttempt_run
  exact ⟨m, hrun, by rw [hend]; simp, (dispatches_live timeouts 0 _ m hrun).1⟩

/-- A run is cancelled before the agent polls: the next heartbeat hands out its dispatch. -/
theorem dispatches_stale :
    ¬ ∀ (cfg : Config) (now : Time) (as : List Action) (m : Manager),
      (exchange cfg).Run (fun _ _ => True) (.initial now) as m →
        (∀ x ∈ m.handed, x.live = true) ∧ (m.handed.map Handover.attempt).Nodup := by
  intro hclaim
  have hrun : ∃ m, (exchange timeouts).Run (fun _ _ => True) (.initial 0)
      [.start "a" ⟨"r", .backup⟩ none false, .cancel 0 .canceled, .wait 0 .ctxDone,
        .wait 0 .abandon, .heartbeat "a"] m ∧ m.handed = [⟨"a", 0, false⟩] :=
    ⟨_, System.run_of_follow (fun _ _ _ => trivial) rfl, rfl⟩
  obtain ⟨m, hrun, hend⟩ := hrun
  have hlive := (hclaim timeouts 0 _ m hrun).1 ⟨"a", 0, false⟩ (by rw [hend]; simp)
  cases hlive

end ProxBack.Agent
