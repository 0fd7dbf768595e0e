import ProxBack.Agent.Dispatches

/-! The agents' side of the exchange: a dispatch that was handed out is a task, tasks send
requests, and a request is on its way until it is handled. A request names its run and
not its attempt. -/
namespace ProxBack.Agent
open Lib Engine

structure Task where
  agentID : String
  runID : String
  attempt : Nat
deriving DecidableEq

structure Net where
  m : Manager
  tasks : List Task
  wires : List Message

inductive NetAction where
  | poll (agentID : String)
  | send (t : Nat) (body : Body)
  | deliver (k : Nat)
  | lose (k : Nat)
  | stop (t : Nat)
  | server (a : Action)

namespace Net

def initial (now : Time) : Net := ⟨.initial now, [], []⟩

def taskOf (agentID : String) (q : Queued) : Option Task :=
  q.attempt.map fun i => ⟨agentID, q.dispatch.runID, i⟩

def Task.message (t : Task) (body : Body) : Message :=
  ⟨t.runID, t.agentID, body, some t.attempt⟩

def step (cfg : Config) : NetAction → Net → Option Net
  | .poll agentID, n =>
    some { n with
      m := n.m.heartbeat agentID
      tasks := n.tasks ++ (n.m.pending agentID).filterMap (taskOf agentID) }
  | .send t body, n =>
    n.tasks[t]?.map fun task => { n with wires := n.wires ++ [Task.message task body] }
  | .deliver k, n =>
    n.wires[k]?.map fun msg => { n with m := n.m.request msg, wires := n.wires.eraseIdx k }
  | .lose k, n => some { n with wires := n.wires.eraseIdx k }
  | .stop t, n => some { n with tasks := n.tasks.eraseIdx t }
  | .server (.heartbeat _), _ | .server (.request _), _ => none
  | .server a, n => (n.m.step cfg a).map fun m => { n with m }

end Net

def network (cfg : Config) : System Net NetAction := ⟨Net.step cfg⟩

def Phase.Answered : Phase → Prop
  | .answered _ => True
  | _ => False

/-- Work of attempt `i` that is not over: queued, under way at an agent, on its way to the
server, or being handled there. -/
inductive Net.Stray (n : Net) (i : Nat) : Prop where
  | queued {agentID} (h : i ∈ n.m.queued agentID)
  | task {t} (h : t ∈ n.tasks) (hi : t.attempt = i)
  | wire {w} (h : w ∈ n.wires) (hi : w.origin = some i)
  | handler {k : Nat} {x : Handler} (h : n.m.handlers[k]? = some x) (hopen : ¬ x.phase.Answered)
      (hi : x.msg.origin = some i)

def RetryClean (n : Net) : NetAction → Prop
  | .server (.start _ d _ _) =>
    ∀ i c, n.m.core i = some c → c.dispatch.runID = d.runID → ¬ n.Stray i
  | _ => True

inductive Follows (m : Manager) (k : Nat) (x' : Handler) : Prop where
  | same (h : m.handlers[k]? = some x')
  | moved {x : Handler} (h : m.handlers[k]? = some x) (hmsg : x'.msg = x.msg)
      (hopen : ¬ x'.phase.Answered → ¬ x.phase.Answered)
      (held : ∀ rs, x'.phase.held = some rs → x.phase.held = some rs)
      (sends : ∀ rs res, x'.phase = .sending rs res →
        ¬ x.phase.Answered ∧ m.active.lookup x.msg.runID = some rs)

theorem Phase.Moves.opens {msg : Message} {old new : Phase} (h : old.Moves msg new)
    (hnew : ¬ new.Answered) : ¬ old.Answered := by
  intro hold
  cases old with
  | answered ans =>
    have hfits := h.fits (fun _ => False) trivial
    cases new <;> simp_all [Phase.Fits, Phase.Answered]
  | _ => exact hold

theorem follows_setPhase {m m' : Manager} {h : Nat} {x : Handler} {p : Phase}
    (hx : m.handlers[h]? = some x) (hhandlers : m'.handlers = (m.setPhase h p).handlers)
    (hopen : ¬ p.Answered → ¬ x.phase.Answered)
    (held : ∀ rs, p.held = some rs → x.phase.held = some rs)
    (sends : ∀ rs res, p = .sending rs res →
      ¬ x.phase.Answered ∧ m.active.lookup x.msg.runID = some rs)
    {k : Nat} {x' : Handler} (hx' : m'.handlers[k]? = some x') : Follows m k x' := by
  rw [hhandlers, Manager.handlers_setPhase] at hx'
  split at hx'
  · rename_i hk
    subst hk
    rw [hx] at hx'
    cases hx'
    exact .moved hx rfl hopen held sends
  · exact .same hx'

theorem follows_moves {m m' : Manager} {h : Nat} {x : Handler} {p : Phase}
    (hx : m.handlers[h]? = some x) (hhandlers : m'.handlers = (m.setPhase h p).handlers)
    (hp : x.phase.Moves x.msg p) {k : Nat} {x' : Handler} (hx' : m'.handlers[k]? = some x') :
    Follows m k x' :=
  follows_setPhase hx hhandlers hp.opens hp.held
    (fun _ _ heq => absurd (heq ▸ trivial) hp.new) hx'

theorem Effect.follows {cfg : Config} {a : Action} {m m' : Manager} (e : Effect cfg m a m')
    (hno : ∀ msg, a ≠ .request msg) {k : Nat} {x' : Handler} (hx' : m'.handlers[k]? = some x') :
    Follows m k x' := by
  cases e with
  | heartbeat => exact .same (m.handlers_heartbeat _ ▸ hx')
  | update hok =>
    unfold Manager.queueUpdate at hok
    split at hok <;> cases hok
    exact .same hx'
  | abandon hrs hw =>
    refine .same ?_
    have hsame : ∀ runID i, (m.abandon runID i).handlers = m.handlers := by
      intro runID i
      unfold Manager.abandon
      split <;> rfl
    exact hsame _ _ ▸ hx'
  | request => exact absurd rfl (hno _)
  | move hx hp => exact follows_moves hx rfl hp hx'
  | total hx hph _ =>
    refine follows_moves hx (Manager.setPhase_congr (by simp [Manager.accept]) _ _) ?_ hx'
    rw [hph]
    exact ⟨fun _ ho => ho, fun _ heq => heq, not_false, not_false⟩
  | @record h x rs size uploaded hx hph =>
    obtain ⟨p, hp, hhandlers⟩ := m.handlers_record h x.msg rs size uploaded
    refine follows_moves hx hhandlers ?_ hx'
    rw [hph]
    rcases hp with rfl | ⟨snap, rfl⟩
    · exact moves_afterRecord x.msg rfl (fun _ ho => ho) (by exact not_false)
    · exact ⟨fun _ ho => ho, fun _ heq => heq, not_false, not_false⟩
  | note hx hph =>
    exact follows_moves hx (Manager.setPhase_congr (by simp) _ _)
      (moves_answered _ (by rw [hph]; exact not_false) _) hx'
  | wrote hx hph =>
    refine follows_moves hx (Manager.setPhase_congr (by simp) _ _) ?_ hx'
    rw [hph]
    exact ⟨fun _ ho => ho, fun _ heq => heq, not_false, not_false⟩
  | @finish h x res hx hph =>
    have hopen : ¬ x.phase.Answered := by rw [hph]; exact not_false
    have hanswered : ∀ {y : Handler}, (m.setPhase h (.answered (.ok ()))).handlers[k]? = some y →
        Follows m k y := fun hy =>
      follows_moves hx rfl (moves_answered x.msg (by rw [hph]; exact not_false) _) hy
    unfold Manager.finish at hx'
    split at hx'
    · exact hanswered hx'
    rename_i i hi
    split at hx'
    · exact hanswered hx'
    split at hx'
    · exact hanswered hx'
    refine follows_setPhase (p := .sending i res) hx rfl (fun _ => hopen) nofun ?_ hx'
    rintro rs r ⟨⟩
    exact ⟨hopen, hi⟩
  | @send h x rs res hx hph _ =>
    refine follows_setPhase (p := .answered (.ok ())) hx rfl (fun hne => absurd trivial hne) nofun
      nofun hx'
  | _ => exact .same hx'

theorem Effect.accepted {cfg : Config} {a : Action} {m m' : Manager} (e : Effect cfg m a m') :
    m'.accepted = m.accepted ∨
      ∃ (h : Nat) (x : Handler) (i : Nat), m.handlers[h]? = some x ∧ ¬ x.phase.Answered ∧
        (x.phase.held = some i ∨ m.active.lookup x.msg.runID = some i) ∧
        m'.accepted = m.accepted ++ [⟨x.msg.origin, i⟩] := by
  have hnote : ∀ {h : Nat} {x : Handler} {p : Phase}, m.handlers[h]? = some x →
      ¬ x.phase.Answered → ((m.noteProgress x.msg).setPhase h p).accepted = m.accepted ∨
        ∃ (h : Nat) (x' : Handler) (i : Nat), m.handlers[h]? = some x' ∧ ¬ x'.phase.Answered ∧
          (x'.phase.held = some i ∨ m.active.lookup x'.msg.runID = some i) ∧
          ((m.noteProgress x.msg).setPhase h p).accepted = m.accepted ++ [⟨x'.msg.origin, i⟩] := by
    intro h x p hx hopen
    unfold Manager.noteProgress
    split
    · rename_i i hi
      exact .inr ⟨h, x, i, hx, hopen, .inr hi, rfl⟩
    · exact .inl rfl
  cases e with
  | heartbeat =>
    refine .inl ?_
    exact (Manager.foldl_pickUp _ _).2.2.2.2
  | update hok =>
    unfold Manager.queueUpdate at hok
    split at hok <;> cases hok
    exact .inl rfl
  | abandon =>
    refine .inl ?_
    show (m.abandon _ _).accepted = m.accepted
    unfold Manager.abandon
    split <;> rfl
  | @total h x rs size totalBytes hx hph _ =>
    refine .inr ⟨h, x, rs, hx, by rw [hph]; exact not_false, .inl (by rw [hph]; rfl), ?_⟩
    show (m.setTotal rs totalBytes).accepted ++ _ = _
    unfold Manager.setTotal
    split <;> rfl
  | @record h x rs size uploaded =>
    refine .inl ?_
    unfold Manager.record
    split
    · rfl
    · dsimp only
      split <;> rfl
  | note hx hph => exact hnote hx (by rw [hph]; exact not_false)
  | wrote hx hph => exact hnote hx (by rw [hph]; exact not_false)
  | @finish h x res hx hph =>
    unfold Manager.finish
    split
    · exact .inl rfl
    · rename_i i hi
      split
      · exact .inl rfl
      · split
        · exact .inl rfl
        · exact .inr ⟨h, x, i, hx, by rw [hph]; exact not_false, .inr hi, rfl⟩
  | _ => exact .inl rfl

theorem Effect.results {cfg : Config} {a : Action} {m m' : Manager} (e : Effect cfg m a m')
    (hsane : Sane m) {j : Nat} {c' : Core} {res : Result} (hc' : m'.core j = some c')
    (hres : c'.Has res) : (∃ c, m.core j = some c ∧ c.Has res) ∨
      ∃ (h : Nat) (x : Handler), m.handlers[h]? = some x ∧ x.phase = .sending j res := by
  rcases hsane.cases e with q | ⟨i, c, d, q⟩ | ⟨_, _, _, _, -, -, rfl⟩
  · exact .inl ⟨c', (q.core j).symm.trans hc', hres⟩
  · rcases q.split hc' with ⟨rfl, rfl⟩ | ⟨-, hc⟩
    · exact (q.results res hres).imp (fun h => ⟨c, q.before, h⟩) id
    · exact .inl ⟨c', hc, hres⟩
  · rw [Manager.core_start] at hc'
    split at hc'
    · cases hc'
      rcases hres with hres | hres <;> cases hres
    · exact .inl ⟨c', hc', hres⟩

theorem request_handlers (m : Manager) (msg : Message) {k : Nat} {x : Handler}
    (hx : (m.request msg).handlers[k]? = some x) : m.handlers[k]? = some x ∨
      (x.msg = msg ∧ (∀ rs, x.phase.held = some rs → m.active.lookup msg.runID = some rs) ∧
        ∀ rs res, x.phase ≠ .sending rs res) := by
  unfold Manager.request at hx
  rw [List.getElem?_append] at hx
  split at hx
  · exact .inl hx
  · cases List.mem_singleton.mp (List.mem_of_getElem? hx)
    have htake : ∀ rs, m.takeRun msg.runID msg.agentID = .ok rs →
        m.active.lookup msg.runID = some rs := by
      intro rs hrs
      unfold Manager.takeRun at hrs
      split at hrs
      · cases hrs
      · rename_i i hi
        split at hrs
        · cases hrs
        · split at hrs <;> cases hrs
          exact hi
    refine .inr ⟨rfl, ?_, ?_⟩
    · intro rs hheld
      dsimp only at hheld
      split at hheld
      · cases hheld
      · rename_i i hi
        split at hheld <;> cases hheld <;> exact htake _ hi
    · intro rs res hph
      dsimp only at hph
      split at hph
      · cases hph
      · split at hph <;> cases hph

structure Tidy (n : Net) : Prop where
  sane : Sane n.m
  backed : Backed n.m
  latest : ∀ i, n.Stray i → ∀ c j d, n.m.core i = some c → n.m.core j = some d →
    d.dispatch.runID = c.dispatch.runID → j ≤ i
  task : ∀ t ∈ n.tasks, ∃ c, n.m.core t.attempt = some c ∧ c.dispatch.runID = t.runID
  wire : ∀ w ∈ n.wires, ∃ i c, w.origin = some i ∧ n.m.core i = some c ∧
    c.dispatch.runID = w.runID
  handler : ∀ (k : Nat) (x : Handler), n.m.handlers[k]? = some x → ∃ i c,
    x.msg.origin = some i ∧ n.m.core i = some c ∧ c.dispatch.runID = x.msg.runID ∧
      (∀ rs, x.phase.held = some rs → rs = i) ∧ ∀ rs res, x.phase = .sending rs res → rs = i
  accepted : ∀ x ∈ n.m.accepted, x.origin = some x.attempt
  result : ∀ j c res, n.m.core j = some c → c.Has res → res.origin = some j

theorem tidy_initial (now : Time) : Tidy (.initial now) := by
  have hcore : ∀ i c, (Net.initial now).m.core i ≠ some c := by
    simp [Manager.core, Net.initial, Manager.initial]
  exact
    { sane := sane_initial now
      backed := fun _ _ hq => by cases hq
      latest := fun i _ c _ _ hc => absurd hc (hcore i c)
      task := fun _ h => by cases h
      wire := fun _ h => by cases h
      handler := fun k x hx => by simp [Net.initial, Manager.initial] at hx
      accepted := fun _ h => by cases h
      result := fun j c _ hc => absurd hc (hcore j c) }

theorem Tidy.current {n : Net} (h : Tidy n) {i k : Nat} {c : Core} (hstray : n.Stray i)
    (hc : n.m.core i = some c) (hk : n.m.active.lookup c.dispatch.runID = some k) : k = i := by
  obtain ⟨d, hd, hrun, hopen⟩ := h.sane.active _ k hk
  rcases Nat.lt_or_ge k i with hlt | hge
  · exact absurd hopen (h.sane.returned k d hd (h.sane.single k i d c hd hc hrun hlt))
  · exact Nat.le_antisymm (h.latest i hstray c k d hc hd hrun) hge

theorem Tidy.side {n : Net} (h : Tidy n) {tasks : List Task} {wires : List Message}
    (htasks : ∀ t ∈ tasks, t ∈ n.tasks ∨ ∃ agentID, ∃ q ∈ n.m.pending agentID,
      q.attempt = some t.attempt ∧ q.dispatch.runID = t.runID)
    (hwires : ∀ w ∈ wires, w ∈ n.wires ∨ ∃ t ∈ n.tasks, w.origin = some t.attempt ∧
      w.runID = t.runID) : Tidy { n with tasks, wires } where
  sane := h.sane
  backed := h.backed
  latest := by
    intro i hi
    refine h.latest i ?_
    cases hi with
    | queued hq => exact .queued hq
    | task ht hi =>
      subst hi
      rcases htasks _ ht with ht | ⟨agentID, q, hq, hqi, -⟩
      · exact .task ht rfl
      · exact .queued (List.mem_filterMap.mpr ⟨q, hq, hqi⟩)
    | wire hw hi =>
      rcases hwires _ hw with hw | ⟨t, ht, horigin, -⟩
      · exact .wire hw hi
      · refine .task ht ?_
        rw [horigin] at hi
        exact Option.some.inj hi
    | handler hx hopen hi => exact .handler hx hopen hi
  task := by
    intro t ht
    rcases htasks t ht with ht | ⟨agentID, q, hq, hqi, hrun⟩
    · exact h.task t ht
    · obtain ⟨c, hc, hd, -⟩ := h.backed agentID q hq _ hqi
      exact ⟨c, hc, by rw [hd, hrun]⟩
  wire := by
    intro w hw
    rcases hwires w hw with hw | ⟨t, ht, horigin, hrun⟩
    · exact h.wire w hw
    · obtain ⟨c, hc, hd⟩ := h.task t ht
      exact ⟨_, c, horigin, hc, hd.trans hrun.symm⟩
  handler := h.handler
  accepted := h.accepted
  result := h.result

theorem Tidy.stray_back {cfg : Config} {a : Action} {n : Net} {m' : Manager} (h : Tidy n)
    (e : Effect cfg n.m a m') (hreq : ∀ msg, a = .request msg → msg ∈ n.wires) {i : Nat}
    (hi : { n with m := m' }.Stray i) : n.Stray i ∨
      ∃ agentID d sess manifest, a = .start agentID d sess manifest ∧ i = n.m.runs.length := by
  cases hi with
  | @queued agentID hq =>
    rcases e.queues h.backed with ⟨-, hqueue⟩ | ⟨b, -, hqueue⟩ | ⟨b, d, s, f, rfl, -, hqueue⟩
    · exact .inl (.queued (hqueue agentID ▸ hq))
    · simp only [hqueue] at hq
      split at hq
      · cases hq
      · exact .inl (.queued hq)
    · simp only [hqueue] at hq
      split at hq
      · rcases List.mem_append.mp hq with hq | hq
        · exact .inl (.queued hq)
        · exact .inr ⟨b, d, s, f, rfl, List.mem_singleton.mp hq⟩
      · exact .inl (.queued hq)
  | task ht hi => exact .inl (.task ht hi)
  | wire hw hi => exact .inl (.wire hw hi)
  | @handler k x hx hopen hi =>
    by_cases hr : ∃ msg, a = .request msg
    · obtain ⟨msg, rfl⟩ := hr
      cases e
      rcases request_handlers n.m msg hx with hx | ⟨hmsg, -⟩
      · exact .inl (.handler hx hopen hi)
      · exact .inl (.wire (hreq msg rfl) (hmsg ▸ hi))
    · cases e.follows (fun msg heq => hr ⟨msg, heq⟩) hx with
      | same hx => exact .inl (.handler hx hopen hi)
      | moved hx hmsg hop _ _ => exact .inl (.handler hx (hop hopen) (hmsg ▸ hi))

theorem Tidy.server {cfg : Config} {a : Action} {n : Net} {m' : Manager} (h : Tidy n)
    (e : Effect cfg n.m a m') (hreq : ∀ msg, a = .request msg → msg ∈ n.wires)
    (hclean : RetryClean n (.server a)) : Tidy { n with m := m' } := by
  -- where an attempt of the new state comes from
  have hcore : ∀ j d, m'.core j = some d → (∃ d', n.m.core j = some d' ∧
      d'.dispatch = d.dispatch) ∨ ∃ agentID d' sess manifest,
        a = .start agentID d' sess manifest ∧ d.dispatch = d' ∧ j = n.m.runs.length := by
    intro j d hd
    rcases h.sane.cases e with q | ⟨i, c, c', q⟩ | ⟨agentID, d', s, f, rfl, -, rfl⟩
    · exact .inl ⟨d, (q.core j).symm.trans hd, rfl⟩
    · rcases q.split hd with ⟨rfl, rfl⟩ | ⟨-, hd⟩
      · exact .inl ⟨c, q.before, q.dispatch.symm⟩
      · exact .inl ⟨d, hd, rfl⟩
    · rw [Manager.core_start] at hd
      split at hd
      · rename_i hj
        cases hd
        exact .inr ⟨agentID, d', s, f, rfl, rfl, hj⟩
      · exact .inl ⟨d, hd, rfl⟩
  have hkeep : ∀ i c r, n.m.core i = some c → c.dispatch.runID = r →
      ∃ c', m'.core i = some c' ∧ c'.dispatch.runID = r := by
    intro i c r hc hr
    obtain ⟨c', hc', hd, -⟩ := h.sane.persists e hc
    exact ⟨c', hc', hd ▸ hr⟩
  exact
    { sane := h.sane.step e
      backed := h.backed.step h.sane e
      latest := by
        intro i hi c j d hc hd hrun
        rcases h.stray_back e hreq hi with hi | ⟨_, _, _, _, rfl, rfl⟩
        · rcases hcore i c hc with ⟨c₀, hc₀, hcd⟩ | ⟨agentID, d', s, f, rfl, hcd, rfl⟩
          · rcases hcore j d hd with ⟨d₀, hd₀, hdd⟩ | ⟨agentID, d', s, f, rfl, hdd, rfl⟩
            · exact h.latest i hi c₀ j d₀ hc₀ hd₀ (by rw [hdd, hcd, hrun])
            · exact absurd hi (hclean i c₀ hc₀ (by rw [hcd, ← hrun, hdd]))
          · rcases hcore j d hd with ⟨d₀, hd₀, -⟩ | ⟨_, _, _, _, -, -, rfl⟩
            · exact (Manager.lt_of_core hd₀).le
            · exact Nat.le_refl _
        · rcases hcore j d hd with ⟨d₀, hd₀, -⟩ | ⟨_, _, _, _, -, -, rfl⟩
          · exact (Manager.lt_of_core hd₀).le
          · exact Nat.le_refl _
      task := by
        intro t ht
        obtain ⟨c, hc, hr⟩ := h.task t ht
        exact hkeep _ c _ hc hr
      wire := by
        intro w hw
        obtain ⟨i, c, horigin, hc, hr⟩ := h.wire w hw
        obtain ⟨c', hc', hr'⟩ := hkeep i c _ hc hr
        exact ⟨i, c', horigin, hc', hr'⟩
      handler := by
        intro k x hx
        by_cases hr : ∃ msg, a = .request msg
        · obtain ⟨msg, rfl⟩ := hr
          cases e
          rcases request_handlers n.m msg hx with hx | ⟨rfl, hheld, hsends⟩
          · exact h.handler k x hx
          · obtain ⟨i, c, horigin, hc, hrun⟩ := h.wire _ (hreq x.msg rfl)
            refine ⟨i, c, horigin, hc, hrun, fun rs hrs => ?_, fun rs res hph => ?_⟩
            · exact h.current (.wire (hreq x.msg rfl) horigin) hc (hrun ▸ hheld rs hrs)
            · exact absurd hph (hsends rs res)
        · cases e.follows (fun msg heq => hr ⟨msg, heq⟩) hx with
          | same hx =>
            obtain ⟨i, c, horigin, hc, hrun, hrest⟩ := h.handler k x hx
            obtain ⟨c', hc', hrun'⟩ := hkeep i c _ hc hrun
            exact ⟨i, c', horigin, hc', hrun', hrest⟩
          | @moved y hy hmsg _ held sends =>
            obtain ⟨i, c, horigin, hc, hrun, hheld, -⟩ := h.handler k y hy
            obtain ⟨c', hc', hrun'⟩ := hkeep i c _ hc hrun
            rw [← hmsg] at horigin hrun'
            refine ⟨i, c', horigin, hc', hrun', fun rs hrs => hheld rs (held rs hrs), ?_⟩
            intro rs res hph
            obtain ⟨hopen, hlook⟩ := sends rs res hph
            exact h.current (.handler hy hopen (hmsg ▸ horigin)) hc (hrun ▸ hlook)
      accepted := by
        intro x hx
        rcases e.accepted with hacc | ⟨k, y, j, hy, hopen, hj, hacc⟩
        · exact h.accepted x (hacc ▸ hx)
        · simp only [hacc] at hx
          rcases List.mem_append.mp hx with hx | hx
          · exact h.accepted x hx
          · cases List.mem_singleton.mp hx
            obtain ⟨i, c, horigin, hc, hrun, hheld, -⟩ := h.handler k y hy
            rcases hj with hj | hj
            · rw [horigin, hheld j hj]
            · have hji := h.current (k := j) (.handler hy hopen horigin) hc (by rw [hrun, hj])
              rw [horigin, hji]
      result := by
        intro j c res hc hres
        rcases e.results h.sane hc hres with ⟨c₀, hc₀, hres₀⟩ | ⟨k, x, hx, hph⟩
        · exact h.result j c₀ res hc₀ hres₀
        · obtain ⟨i, _, horigin, -, -, -, hsends⟩ := h.handler k x hx
          have hfits := h.sane.fits k x hx
          rw [hph] at hfits
          rw [hfits.2.2, horigin, hsends j res hph] }

theorem Tidy.step {cfg : Config} {a : NetAction} {n n' : Net} (h : Tidy n)
    (hclean : RetryClean n a) (hstep : n.step cfg a = some n') : Tidy n' := by
  have herase : ∀ {α : Type} {l : List α} {k : Nat} {y : α}, y ∈ l.eraseIdx k → y ∈ l :=
    fun hy => List.mem_of_mem_eraseIdx hy
  cases a with
  | poll agentID =>
    cases hstep
    -- the tasks begin while their dispatches are still queued, then the queue is emptied
    have htasks : Tidy { n with
        tasks := n.tasks ++ (n.m.pending agentID).filterMap (Net.taskOf agentID) } := by
      refine h.side (fun t ht => ?_) fun w hw => .inl hw
      rcases List.mem_append.mp ht with ht | ht
      · exact .inl ht
      · obtain ⟨q, hq, hqt⟩ := List.mem_filterMap.mp ht
        obtain ⟨i, hi, rfl⟩ := Option.map_eq_some_iff.mp hqt
        exact .inr ⟨agentID, q, hq, hi, rfl⟩
    have heffect : Effect cfg n.m (.heartbeat agentID) (n.m.heartbeat agentID) := .heartbeat
    exact htasks.server heffect nofun trivial
  | send t body =>
    obtain ⟨task, htask, rfl⟩ := Option.map_eq_some_iff.mp hstep
    refine h.side (fun t ht => .inl ht) fun w hw => ?_
    rcases List.mem_append.mp hw with hw | hw
    · exact .inl hw
    · cases List.mem_singleton.mp hw
      exact .inr ⟨task, List.mem_of_getElem? htask, rfl, rfl⟩
  | deliver k =>
    obtain ⟨msg, hmsg, rfl⟩ := Option.map_eq_some_iff.mp hstep
    have hrequest : Tidy { n with m := n.m.request msg } := by
      have heffect : Effect cfg n.m (.request msg) (n.m.request msg) := .request
      refine h.server heffect ?_ trivial
      rintro _ ⟨⟩
      exact List.mem_of_getElem? hmsg
    exact hrequest.side (fun t ht => .inl ht) fun w hw => .inl (herase hw)
  | lose k =>
    cases hstep
    exact h.side (fun t ht => .inl ht) fun w hw => .inl (herase hw)
  | stop t =>
    cases hstep
    exact h.side (fun t ht => .inl (herase ht)) fun w hw => .inl hw
  | server a =>
    have hserver : ∀ m', n.m.step cfg a = some m' → (∀ msg, a ≠ .request msg) →
        Tidy { n with m := m' } := fun m' hm hno =>
      h.server (step_effect hm) (fun msg heq => absurd heq (hno msg)) hclean
    cases a with
    | heartbeat agentID => cases hstep
    | request msg => cases hstep
    | _ =>
      simp only [Net.step] at hstep
      obtain ⟨m', hm, rfl⟩ := Option.map_eq_some_iff.mp hstep
      exact hserver m' hm nofun

/-- In every run whose retries begin clean, a message is accepted for the attempt it was sent
for, and the result an attempt returns with is its own. -/
theorem attempts_apart (cfg : Config) (now : Time) (as : List NetAction) (n : Net)
    (h : (network cfg).Run RetryClean (.initial now) as n) :
    (∀ x ∈ n.m.accepted, ∀ i, x.origin = some i → x.attempt = i) ∧
    ∀ (j : Nat) (rs : RunState) res, n.m.runs[j]? = some rs → rs.waiter = .received res →
      res.origin = some j := by
  have htidy : Tidy n :=
    h.invariant (fun _ _ _ hn hclean hstep => hn.step hclean hstep) (tidy_initial now)
  refine ⟨fun x hx i hi => ?_, fun j rs res hrs hw => ?_⟩
  · exact Option.some.inj ((htidy.accepted x hx).symm.trans hi)
  · exact htidy.result j _ res (Manager.core_eq hrs) (.inr hw)

def NetAction.starts : NetAction → Bool
  | .server (.start _ _ _ _) => true
  | _ => false

theorem retryClean_of_not_starts {n : Net} {a : NetAction} (h : a.starts = false) :
    RetryClean n a := by
  cases a with
  | server a =>
    cases a with
    | start => cases h
    | _ => trivial
  | _ => trivial

theorem clean_run {cfg : Config} {n n' : Net} {as : List NetAction}
    (has : as.all (fun a => !a.starts) = true) (h : (network cfg).follow as n = some n') :
    (network cfg).Run RetryClean n as n' := by
  refine System.run_of_follow (fun a ha n => retryClean_of_not_starts ?_) h
  simpa using List.all_eq_true.mp has a ha

/-- One attempt of the run `r`, on the agent `a`. -/
def attempt : NetAction := .server (.start "a" ⟨"r", .backup⟩ none false)

/-- The attempt's dispatch goes out, nothing is heard of it, and its waiter gives up. -/
def stalls : List NetAction :=
  [.poll "a", .server (.wait 0 .picked), .server (.elapse 1800), .server (.wait 0 .tick),
    .server (.wait 0 .abandon)]

/-- Task `t` completes, and the second attempt returns. -/
def completes (t : Nat) : List NetAction :=
  [.send t (.complete [⟨"files.tar", 0, []⟩]), .deliver 0, .server (.handle 0 (.checked [])),
    .server (.handle 0 .silent), .server (.handle 0 .silent), .server (.wait 1 .done)]

theorem clean_retry : ∃ n,
    (network timeouts).Run RetryClean (.initial 0)
      (attempt :: (stalls ++ [.stop 0]) ++ attempt :: .poll "a" :: completes 0) n ∧
      n.m.accepted = [⟨some 1, 1⟩] := by
  refine ⟨_, .trans (.cons ?_ rfl (clean_run rfl rfl)) (.cons ?_ rfl (clean_run rfl rfl)), rfl⟩
  · intro i c hc
    exact absurd (Manager.lt_of_core hc) (Nat.not_lt_zero i)
  · have hempty : ∀ (l : List Queued) b,
        Function.update (Function.update (fun _ => []) "a" l) "a" [] b = [] := by
      intro l b
      by_cases hb : b = "a" <;> simp [hb]
    intro i c _ _ hstray
    cases hstray with
    | @queued agentID hq =>
      obtain ⟨q, hq, -⟩ := List.mem_filterMap.mp hq
      have hq' : q ∈ Function.update (Function.update (fun _ => []) "a" _) "a" [] agentID := hq
      rw [hempty] at hq'
      cases hq'
    | task ht => exact absurd ht List.not_mem_nil
    | wire hw => exact absurd hw List.not_mem_nil
    | handler hx => exact absurd (List.mem_of_getElem? hx) List.not_mem_nil

theorem attempts_apart_clean_retry : ∃ n,
    (network timeouts).Run RetryClean (.initial 0)
      (attempt :: (stalls ++ [.stop 0]) ++ attempt :: .poll "a" :: completes 0) n ∧
      n.m.accepted = [⟨some 1, 1⟩] ∧
      ∀ x ∈ n.m.accepted, ∀ i, x.origin = some i → x.attempt = i := by
  obtain ⟨n, hrun, hacc⟩ := clean_retry
  exact ⟨n, hrun, hacc, (attempts_apart timeouts 0 _ n hrun).1⟩

/-- The agent of a stalled attempt completes after the retry has begun: the retry returns
with what the first attempt found. -/
theorem attempts_mixed :
    ¬ ∀ (cfg : Config) (now : Time) (as : List NetAction) (n : Net),
      (network cfg).Run (fun _ _ => True) (.initial now) as n →
        (∀ x ∈ n.m.accepted, ∀ i, x.origin = some i → ¬ i < x.attempt) ∧
        ∀ (j : Nat) (rs : RunState) res, n.m.runs[j]? = some rs → rs.waiter = .received res →
          res.origin = some j := by
  intro hclaim
  have hrun : ∃ n, (network timeouts).Run (fun _ _ => True) (.initial 0)
      (attempt :: stalls ++ attempt :: completes 0) n ∧ n.m.accepted = [⟨some 0, 1⟩] :=
    ⟨_, System.run_of_follow (fun _ _ _ => trivial) rfl, rfl⟩
  obtain ⟨n, hrun, hacc⟩ := hrun
  exact (hclaim timeouts 0 _ n hrun).1 ⟨some 0, 1⟩ (by rw [hacc]; simp) 0 rfl Nat.one_pos

end ProxBack.Agent
