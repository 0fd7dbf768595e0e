import ProxBack.Agent.Core

/-! Safety of the exchange: the active table holds the open attempts, and a result that
was decided is in its channel or about to be. -/
namespace ProxBack.Agent
open Lib Engine

theorem Phase.Fits.mono {O O' : Nat → Prop} {msg : Message} {p : Phase} (h : p.Fits O msg)
    (hO : ∀ i, O i → O' i) : p.Fits O' msg := by
  have hsome : (∃ i, O i) → ∃ i, O' i := fun ⟨i, hi⟩ => ⟨i, hO i hi⟩
  cases p with
  | finishing => exact ⟨hsome h.1, h.2⟩
  | sending => exact ⟨hsome h.1, h.2⟩
  | noting => exact ⟨hsome h.1, h.2⟩
  | answered => trivial
  | _ => exact ⟨hO _ h.1, h.2⟩

structure Core.Unsent (c : Core) : Prop where
  done : c.done = none
  sends : c.sends = 0
  waiter : ∀ res, c.waiter ≠ .received res

/-- The channel of an attempt that `finish` has closed. -/
inductive Core.Channel (c : Core) (sending : Prop) : Prop where
  | unsent (hs : sending) (hu : c.Unsent)
  | full (res : Result) (hdone : c.done = some res) (hsends : c.sends = 1)
      (hw : ∀ r, c.waiter ≠ .received r)
  | received (res : Result) (hdone : c.done = none) (hsends : c.sends = 1)
      (hw : c.waiter = .received res)

structure Sane (m : Manager) : Prop where
  active : ∀ r i, m.active.lookup r = some i →
    ∃ c, m.core i = some c ∧ c.dispatch.runID = r ∧ c.exit = none
  listed : ∀ i c, m.core i = some c → c.exit = none → m.active.lookup c.dispatch.runID = some i
  closed : ∀ i c, m.core i = some c → (c.closed = true ↔ c.exit ≠ none)
  returned : ∀ i c, m.core i = some c → c.waiter.Returned → c.exit ≠ none
  single : ∀ i j c d, m.core i = some c → m.core j = some d →
    c.dispatch.runID = d.dispatch.runID → i < j → c.waiter.Returned
  own : ∀ i c w, m.core i = some c → c.exit = some (.abandoned w) → w = i
  unsent : ∀ i c, m.core i = some c → (∀ h, c.exit ≠ some (.finished h)) → c.Unsent
  finished : ∀ i c h, m.core i = some c → c.exit = some (.finished h) →
    ∃ x, m.handlers[h]? = some x ∧ x.msg.runID = c.dispatch.runID ∧ x.msg.body.Ends ∧
      c.Channel (∃ res, x.phase = .sending i res)
  sender : ∀ (h : Nat) (x : Handler) i res, m.handlers[h]? = some x → x.phase = .sending i res →
    ∃ c, m.core i = some c ∧ c.exit = some (.finished h) ∧ c.Unsent
  fits : ∀ (h : Nat) (x : Handler), m.handlers[h]? = some x → x.phase.Fits (m.Owner x.msg) x.msg

theorem sane_initial (now : Time) : Sane (.initial now) := by
  have hcore : ∀ i c, (Manager.initial now).core i ≠ some c := by simp [Manager.core, Manager.initial]
  have hhandlers : ∀ (h : Nat) (x : Handler), (Manager.initial now).handlers[h]? ≠ some x := by
    simp [Manager.initial]
  exact
    { active := fun r i h => by simp [Manager.initial] at h
      listed := fun i c hc => absurd hc (hcore i c)
      closed := fun i c hc => absurd hc (hcore i c)
      returned := fun i c hc => absurd hc (hcore i c)
      single := fun i _ c _ hc => absurd hc (hcore i c)
      own := fun i c _ hc => absurd hc (hcore i c)
      unsent := fun i c hc => absurd hc (hcore i c)
      finished := fun i c _ hc => absurd hc (hcore i c)
      sender := fun h x _ _ hx => absurd hx (hhandlers h x)
      fits := fun h x hx => absurd hx (hhandlers h x) }

structure Quiet (m m' : Manager) : Prop where
  core : ∀ i, m'.core i = m.core i
  active : m'.active = m.active
  fits : ∀ (h : Nat) (x : Handler), m'.handlers[h]? = some x → x.phase.Fits (m.Owner x.msg) x.msg
  senders : ∀ (h : Nat) (x : Handler) i res, m'.handlers[h]? = some x → x.phase = .sending i res →
    m.handlers[h]? = some x
  kept : ∀ (h : Nat) (x : Handler), m.handlers[h]? = some x → ∃ x', m'.handlers[h]? = some x' ∧ x'.msg = x.msg ∧
    ∀ i res, x.phase = .sending i res → x'.phase = .sending i res

theorem Sane.quiet {m m' : Manager} (h : Sane m) (q : Quiet m m') : Sane m' where
  active := by
    intro r i hr
    rw [q.active] at hr
    simp only [q.core]
    exact h.active r i hr
  listed := by
    intro i c hc
    rw [q.core] at hc
    rw [q.active]
    exact h.listed i c hc
  closed := fun i c hc => h.closed i c (q.core i ▸ hc)
  returned := fun i c hc => h.returned i c (q.core i ▸ hc)
  single := fun i j c d hc hd => h.single i j c d (q.core i ▸ hc) (q.core j ▸ hd)
  own := fun i c w hc => h.own i c w (q.core i ▸ hc)
  unsent := fun i c hc => h.unsent i c (q.core i ▸ hc)
  finished := by
    intro i c k hc hexit
    obtain ⟨x, hx, hrun, hends, hchan⟩ := h.finished i c k (q.core i ▸ hc) hexit
    obtain ⟨x', hx', hmsg, hsend⟩ := q.kept k x hx
    refine ⟨x', hx', hmsg ▸ hrun, hmsg ▸ hends, ?_⟩
    cases hchan with
    | unsent hs hu => exact .unsent (hs.imp fun res => hsend i res) hu
    | full res hdone hsends hw => exact .full res hdone hsends hw
    | received res hdone hsends hw => exact .received res hdone hsends hw
  sender := by
    intro k x i res hx hph
    rw [q.core]
    exact h.sender k x i res (q.senders k x i res hx hph) hph
  fits := by
    intro k x hx
    refine (q.fits k x hx).mono fun i hi => ?_
    obtain ⟨c, hc, hown⟩ := hi
    exact ⟨c, (q.core i).trans hc, hown⟩

theorem Sane.still {m m' : Manager} (h : Sane m) (hcore : ∀ i, m'.core i = m.core i)
    (hactive : m'.active = m.active) (hhandlers : m'.handlers = m.handlers) : Quiet m m' where
  core := hcore
  active := hactive
  fits := fun k x hx => h.fits k x (hhandlers ▸ hx)
  senders := fun _ _ _ _ hx _ => hhandlers ▸ hx
  kept := fun _ x hx => ⟨x, hhandlers ▸ hx, rfl, fun _ _ => id⟩

theorem Phase.not_sends {p : Phase} (h : ¬ p.Sends) (i : Nat) (res : Result) :
    p ≠ .sending i res := by
  rintro rfl
  exact h trivial

theorem Sane.moved {m m' : Manager} (h : Sane m) {k : Nat} {x : Handler} {p : Phase}
    (hx : m.handlers[k]? = some x) (hp : x.phase.Moves x.msg p)
    (hcore : ∀ i, m'.core i = m.core i) (hactive : m'.active = m.active)
    (hhandlers : m'.handlers = (m.setPhase k p).handlers) : Quiet m m' := by
  have hat : ∀ j, m'.handlers[j]? =
      if k = j then m.handlers[j]?.map fun x => { x with phase := p } else m.handlers[j]? := by
    intro j
    rw [hhandlers, Manager.handlers_setPhase]
  refine ⟨hcore, hactive, ?_, ?_, ?_⟩
  · intro j y hy
    rw [hat] at hy
    split at hy
    · rename_i hjk
      subst hjk
      rw [hx] at hy
      cases hy
      exact hp.fits _ (h.fits k x hx)
    · exact h.fits j y hy
  · intro j y i res hy hph
    rw [hat] at hy
    split at hy
    · rename_i hjk
      subst hjk
      rw [hx] at hy
      cases hy
      exact absurd hph (Phase.not_sends hp.new i res)
    · exact hy
  · intro j y hy
    by_cases hjk : k = j
    · subst hjk
      rw [hx] at hy
      cases hy
      refine ⟨{ x with phase := p }, ?_, rfl, fun i res hph => ?_⟩
      · rw [hat, if_pos rfl, hx]
        rfl
      · exact absurd hph (Phase.not_sends hp.old i res)
    · exact ⟨y, by rw [hat, if_neg hjk, hy], rfl, fun _ _ => id⟩

theorem request_quiet {m : Manager} (h : Sane m) (msg : Message) : Quiet m (m.request msg) := by
  obtain ⟨p, hp, hsends, hdef⟩ : ∃ p : Phase, p.Fits (m.Owner msg) msg ∧ ¬ p.Sends ∧
      m.request msg = { m with handlers := m.handlers ++ [⟨msg, p⟩] } := by
    refine ⟨_, ?_, ?_, rfl⟩
    · split
      · trivial
      · rename_i rs htake
        have howner : m.Owner msg rs := by
          unfold Manager.takeRun at htake
          split at htake
          · cases htake
          · rename_i i hi
            obtain ⟨c, hc, hrun, -⟩ := h.active _ i hi
            split at htake
            · cases htake
            · rename_i run hrun'
              split at htake
              · cases htake
              · rename_i hagent
                cases htake
                rw [Manager.core_eq hrun'] at hc
                cases hc
                exact ⟨_, Manager.core_eq hrun', hrun, not_not.mp hagent⟩
        split <;> rename_i hbody <;> simp [Phase.Fits, hbody, howner, Body.Ends]
        exact ⟨rs, howner⟩
    · split
      · exact not_false
      · split <;> exact not_false
  rw [hdef]
  have hat : ∀ (k : Nat) (x : Handler), (m.handlers ++ [⟨msg, p⟩])[k]? = some x →
      m.handlers[k]? = some x ∨ x = ⟨msg, p⟩ := by
    intro k x hx
    rw [List.getElem?_append] at hx
    split at hx
    · exact .inl hx
    · exact .inr (List.mem_singleton.mp (List.mem_of_getElem? hx))
  refine ⟨fun _ => rfl, rfl, ?_, ?_, ?_⟩
  · intro k x hx
    rcases hat k x hx with hx | rfl
    · exact h.fits k x hx
    · exact hp
  · intro k x i res hx hph
    rcases hat k x hx with hx | rfl
    · exact hx
    · exact absurd hph (Phase.not_sends hsends i res)
  · intro k x hx
    refine ⟨x, ?_, rfl, fun _ _ => id⟩
    rw [List.getElem?_append_left (List.getElem?_eq_some_iff.mp hx).1]
    exact hx

theorem record_quiet {m : Manager} (h : Sane m) {k : Nat} {x : Handler} {rs size uploaded : Nat}
    (hx : m.handlers[k]? = some x) (hph : x.phase = .recording rs size uploaded) :
    Quiet m (m.record k x.msg rs size uploaded) := by
  obtain ⟨p, hp, hhandlers⟩ := m.handlers_record k x.msg rs size uploaded
  refine h.moved hx (p := p) ?_ (by simp) (by simp) hhandlers
  rw [hph]
  rcases hp with rfl | ⟨snap, rfl⟩
  · exact moves_afterRecord x.msg rfl (fun _ ho => ho) (by exact not_false)
  · exact ⟨fun _ ho => ho, fun _ heq => heq, not_false, not_false⟩

theorem Sane.unique {m : Manager} (h : Sane m) {i j : Nat} {c d : Core} (hc : m.core i = some c)
    (hd : m.core j = some d) (hrun : c.dispatch.runID = d.dispatch.runID)
    (hi : ¬ c.waiter.Returned) (hj : ¬ d.waiter.Returned) : i = j := by
  rcases Nat.lt_trichotomy i j with hlt | heq | hlt
  · exact absurd (h.single i j c d hc hd hrun hlt) hi
  · exact heq
  · exact absurd (h.single j i d c hd hc hrun.symm hlt) hj

def Core.Has (c : Core) (res : Result) : Prop := c.done = some res ∨ c.waiter = .received res

/-- Attempt `i` goes from `c` to `c'`, and the handlers follow. -/
structure Change (m m' : Manager) (i : Nat) (c c' : Core) : Prop where
  before : m.core i = some c
  core : ∀ j, m'.core j = if i = j then some c' else m.core j
  dispatch : c'.dispatch = c.dispatch
  agentID : c'.agentID = c.agentID
  stays : c.waiter.Returned → c'.waiter.Returned
  active : (m'.active = m.active ∧ (c'.exit = none ↔ c.exit = none)) ∨
    (m'.active = m.active.erase c.dispatch.runID ∧ c.exit = none ∧ c'.exit ≠ none)
  closed : c'.closed = true ↔ c'.exit ≠ none
  returned : c'.waiter.Returned → c'.exit ≠ none
  own : ∀ w, c'.exit = some (.abandoned w) → w = i
  unsent : (∀ h, c'.exit ≠ some (.finished h)) → c'.Unsent
  finished : ∀ k, c'.exit = some (.finished k) →
    ∃ x, m'.handlers[k]? = some x ∧ x.msg.runID = c'.dispatch.runID ∧ x.msg.body.Ends ∧
      c'.Channel (∃ res, x.phase = .sending i res)
  results : ∀ res, c'.Has res → c.Has res ∨
    ∃ (k : Nat) (x : Handler), m.handlers[k]? = some x ∧ x.phase = .sending i res
  fresh : ∀ k, c'.exit = some (.finished k) → c.exit = some (.finished k) ∨
    ∃ x, m'.handlers[k]? = some x ∧ ∃ rs, m.Owner x.msg rs
  fits : ∀ (k : Nat) (x : Handler), m'.handlers[k]? = some x → x.phase.Fits (m.Owner x.msg) x.msg
  senders : ∀ (k : Nat) (x : Handler) j res, m'.handlers[k]? = some x →
    x.phase = .sending j res → (j ≠ i ∧ m.handlers[k]? = some x) ∨
      (j = i ∧ c'.exit = some (.finished k) ∧ c'.Unsent)
  kept : ∀ (k : Nat) (x : Handler), m.handlers[k]? = some x →
    ∃ x', m'.handlers[k]? = some x' ∧ x'.msg = x.msg ∧
      ∀ j res, j ≠ i → x.phase = .sending j res → x'.phase = .sending j res

theorem Change.split {m m' : Manager} {i : Nat} {c c' : Core} (q : Change m m' i c c') {j : Nat}
    {d : Core} (hd : m'.core j = some d) : (i = j ∧ d = c') ∨ (i ≠ j ∧ m.core j = some d) := by
  rw [q.core] at hd
  split at hd
  · rename_i heq
    cases hd
    exact .inl ⟨heq, rfl⟩
  · rename_i hne
    exact .inr ⟨hne, hd⟩

theorem Sane.change {m m' : Manager} {i : Nat} {c c' : Core} (h : Sane m)
    (q : Change m m' i c c') : Sane m' where
  active := by
    intro r j hr
    rcases q.active with ⟨hactive, hexit⟩ | ⟨hactive, hnone, -⟩
    · rw [hactive] at hr
      obtain ⟨d, hd, hrun, hnone⟩ := h.active r j hr
      rw [q.core]
      split
      · rename_i heq
        subst heq
        rw [q.before] at hd
        cases hd
        exact ⟨c', rfl, q.dispatch ▸ hrun, hexit.mpr hnone⟩
      · exact ⟨d, hd, hrun, hnone⟩
    · rw [hactive, FinMap.lookup_erase_ite] at hr
      split at hr
      · cases hr
      · rename_i hne
        obtain ⟨d, hd, hrun, hnone'⟩ := h.active r j hr
        have hij : i ≠ j := by
          rintro rfl
          rw [q.before] at hd
          cases hd
          exact hne hrun.symm
        exact ⟨d, by rw [q.core, if_neg hij, hd], hrun, hnone'⟩
  listed := by
    intro j d hd hnone
    rcases q.split hd with ⟨rfl, rfl⟩ | ⟨hne, hd⟩
    · rcases q.active with ⟨hactive, hexit⟩ | ⟨-, -, hsome⟩
      · rw [hactive, q.dispatch]
        exact h.listed i c q.before (hexit.mp hnone)
      · exact absurd hnone hsome
    · have hlist := h.listed j d hd hnone
      rcases q.active with ⟨hactive, -⟩ | ⟨hactive, hnone', -⟩
      · rw [hactive]
        exact hlist
      · rw [hactive, FinMap.lookup_erase_ite, if_neg, hlist]
        -- the run id is not the one taken out: both attempts would be open
        intro hrun
        have hsame := h.listed i c q.before hnone'
        rw [← hrun, hlist] at hsame
        exact hne (Option.some.inj hsame).symm
  closed := by
    intro j d hd
    rcases q.split hd with ⟨rfl, rfl⟩ | ⟨-, hd⟩
    · exact q.closed
    · exact h.closed j d hd
  returned := by
    intro j d hd
    rcases q.split hd with ⟨rfl, rfl⟩ | ⟨-, hd⟩
    · exact q.returned
    · exact h.returned j d hd
  single := by
    intro j k d e hd he hrun hlt
    rcases q.split hd with ⟨rfl, rfl⟩ | ⟨-, hd⟩
    · rcases q.split he with ⟨rfl, rfl⟩ | ⟨-, he⟩
      · exact absurd hlt (Nat.lt_irrefl _)
      · exact q.stays (h.single i k c e q.before he (q.dispatch ▸ hrun) hlt)
    · rcases q.split he with ⟨rfl, rfl⟩ | ⟨-, he⟩
      · exact h.single j i d c hd q.before (q.dispatch ▸ hrun) hlt
      · exact h.single j k d e hd he hrun hlt
  own := by
    intro j d w hd
    rcases q.split hd with ⟨rfl, rfl⟩ | ⟨-, hd⟩
    · exact q.own w
    · exact h.own j d w hd
  unsent := by
    intro j d hd
    rcases q.split hd with ⟨rfl, rfl⟩ | ⟨-, hd⟩
    · exact q.unsent
    · exact h.unsent j d hd
  finished := by
    intro j d k hd hexit
    rcases q.split hd with ⟨rfl, rfl⟩ | ⟨hne, hd⟩
    · exact q.finished k hexit
    · obtain ⟨x, hx, hrun, hends, hchan⟩ := h.finished j d k hd hexit
      obtain ⟨x', hx', hmsg, hsend⟩ := q.kept k x hx
      refine ⟨x', hx', hmsg ▸ hrun, hmsg ▸ hends, ?_⟩
      cases hchan with
      | unsent hs hu => exact .unsent (hs.imp fun res => hsend j res hne.symm) hu
      | full res hdone hsends hw => exact .full res hdone hsends hw
      | received res hdone hsends hw => exact .received res hdone hsends hw
  sender := by
    intro k x j res hx hph
    rcases q.senders k x j res hx hph with ⟨hne, hx'⟩ | ⟨rfl, hexit, hunsent⟩
    · obtain ⟨d, hd, hd'⟩ := h.sender k x j res hx' hph
      exact ⟨d, by rw [q.core, if_neg hne.symm, hd], hd'⟩
    · exact ⟨c', by rw [q.core, if_pos rfl], hexit, hunsent⟩
  fits := by
    intro k x hx
    refine (q.fits k x hx).mono fun j hj => ?_
    obtain ⟨d, hd, hrun, hagent⟩ := hj
    by_cases hij : i = j
    · subst hij
      rw [q.before] at hd
      cases hd
      exact ⟨c', by rw [q.core, if_pos rfl], q.dispatch ▸ hrun, q.agentID ▸ hagent⟩
    · exact ⟨d, by rw [q.core, if_neg hij, hd], hrun, hagent⟩

theorem Sane.waiterMoves {m m' : Manager} {i : Nat} {c c' : Core} (h : Sane m)
    (hc : m.core i = some c) (hcore : ∀ j, m'.core j = if i = j then some c' else m.core j)
    (hfixed : c'.dispatch = c.dispatch ∧ c'.agentID = c.agentID ∧ c'.closed = c.closed ∧
      c'.exit = c.exit)
    (hactive : m'.active = m.active) (hhandlers : m'.handlers = m.handlers)
    (hw : ¬ c.waiter.Returned) (hreturned : c'.waiter.Returned → c.exit ≠ none)
    (hunsent : c.Unsent → c'.Unsent) (hchan : ∀ P, c.Channel P → c'.Channel P)
    (hres : ∀ res, c'.Has res → c.Has res) : Change m m' i c c' := by
  obtain ⟨hdispatch, hagentID, hclosed, hexit⟩ := hfixed
  refine
    { before := hc
      core := hcore
      dispatch := hdispatch
      agentID := hagentID
      stays := fun hret => absurd hret hw
      active := .inl ⟨hactive, by rw [hexit]⟩
      closed := by rw [hclosed, hexit]; exact h.closed i c hc
      returned := by rw [hexit]; exact hreturned
      own := by rw [hexit]; exact fun w => h.own i c w hc
      unsent := by rw [hexit]; exact fun hno => hunsent (h.unsent i c hc hno)
      finished := ?_
      results := fun res h => .inl (hres res h)
      fresh := fun k hk => .inl (hexit ▸ hk)
      fits := by rw [hhandlers]; exact h.fits
      senders := ?_
      kept := by rw [hhandlers]; exact fun k x hx => ⟨x, hx, rfl, fun _ _ _ => id⟩ }
  · rw [hexit, hdispatch, hhandlers]
    intro k hk
    obtain ⟨x, hx, hrun, hends, hch⟩ := h.finished i c k hc hk
    exact ⟨x, hx, hrun, hends, hchan _ hch⟩
  · rw [hhandlers, hexit]
    intro k x j res hx hph
    by_cases hji : j = i
    · subst hji
      obtain ⟨d, hd, hdexit, hdunsent⟩ := h.sender k x j res hx hph
      rw [hc] at hd
      cases hd
      exact .inr ⟨rfl, hdexit, hunsent hdunsent⟩
    · exact .inl ⟨hji, hx⟩

theorem Sane.receive {m : Manager} {i : Nat} {rs : RunState} {res : Result} (h : Sane m)
    (hrs : m.runs[i]? = some rs) (hw : rs.waiter.Waits) (hdone : rs.done = some res) :
    Change m (m.modifyRun i fun x => { x with done := none, waiter := .received res }) i rs.core
      { rs.core with done := none, waiter := .received res } := by
  have hc := Manager.core_eq hrs
  have hfull : ¬ rs.core.Unsent := fun hu => by
    have hnone : rs.done = none := hu.done
    rw [hdone] at hnone
    cases hnone
  refine h.waiterMoves hc (Manager.core_modifyRun_at hc
    (g := fun c => { c with done := none, waiter := .received res }) fun _ => rfl)
    ⟨rfl, rfl, rfl, rfl⟩ rfl rfl hw.not_returned ?_ (fun hu => absurd hu hfull) ?_ ?_
  · intro _ hnone
    exact hfull (h.unsent i _ hc fun k hk => by rw [hnone] at hk; cases hk)
  · rintro P (⟨-, hu⟩ | ⟨res', hdone', hsends, -⟩ | ⟨res', hdone', -, -⟩)
    · exact absurd hu hfull
    · exact .received res rfl hsends rfl
    · have hnone : rs.done = none := hdone'
      rw [hdone] at hnone
      cases hnone
  · rintro res' (hres | hres)
    · cases hres
    · cases hres
      exact .inl hdone

theorem Sane.choose {m : Manager} {i : Nat} {rs : RunState} {w : Waiter} (h : Sane m)
    (hrs : m.runs[i]? = some rs) (hw : rs.waiter.Waits) (hnew : ¬ w.Returned) :
    Change m (m.setWaiter i w) i rs.core { rs.core with waiter := w } := by
  have hc := Manager.core_eq hrs
  have hnot : ∀ res, w ≠ .received res := by
    rintro res rfl
    exact hnew trivial
  refine h.waiterMoves hc (Manager.core_modifyRun_at hc (g := fun c => { c with waiter := w })
    fun _ => rfl) ⟨rfl, rfl, rfl, rfl⟩ rfl rfl hw.not_returned (fun hret => absurd hret hnew)
    (fun hu => ⟨hu.done, hu.sends, hnot⟩) ?_
    (fun res h => .inl (h.resolve_right (hnot res)))
  rintro P (⟨hs, hu⟩ | ⟨res, hdone, hsends, -⟩ | ⟨res, -, -, hreceived⟩)
  · exact .unsent hs ⟨hu.done, hu.sends, hnot⟩
  · exact .full res hdone hsends hnot
  · have hwaiter : rs.waiter = .received res := hreceived
    rw [hwaiter] at hw
    exact hw.elim

theorem Sane.abandon {m : Manager} {i : Nat} {rs : RunState} {why : WaitErr} (h : Sane m)
    (hrs : m.runs[i]? = some rs) (hw : rs.waiter = .abandoning why) :
    ∃ c', Change m ((m.abandon rs.dispatch.runID i).setWaiter i (.gaveUp why)) i rs.core c' := by
  have hc := Manager.core_eq hrs
  have hwaits : ¬ rs.core.waiter.Returned := by
    show ¬ rs.waiter.Returned
    rw [hw]
    exact not_false
  by_cases hexit : rs.exit = none
  · have hactive := h.listed i _ hc hexit
    have hunsent : rs.core.Unsent := h.unsent i _ hc fun k hk => by
      have hk' : rs.exit = some (.finished k) := hk
      rw [hexit] at hk'
      cases hk'
    have hdef : m.abandon rs.dispatch.runID i = m.close rs.dispatch.runID i (.abandoned i) := by
      have hlook : m.active.lookup rs.dispatch.runID = some i := hactive
      rw [Manager.abandon, hlook]
    rw [hdef]
    refine ⟨{ rs.core with closed := true, exit := some (.abandoned i), waiter := .gaveUp why },
      { before := hc
        core := ?_
        dispatch := rfl
        agentID := rfl
        stays := fun _ => trivial
        active := .inr ⟨rfl, hexit, nofun⟩
        closed := by simp
        returned := fun _ => nofun
        own := by simp
        unsent := fun _ => ⟨hunsent.done, hunsent.sends, nofun⟩
        finished := nofun
        results := fun res h => .inl (.inl (h.resolve_right nofun))
        fresh := nofun
        fits := h.fits
        senders := ?_
        kept := fun k x hx => ⟨x, hx, rfl, fun _ _ _ => id⟩ }⟩
    · intro j
      rw [Manager.core_setWaiter, Manager.core_close]
      by_cases hij : i = j
      · subst hij
        simp [hc]
      · simp [hij]
    · intro k x j res hx hph
      refine .inl ⟨?_, hx⟩
      rintro rfl
      obtain ⟨d, hd, hdexit, -⟩ := h.sender k x j res hx hph
      rw [hc] at hd
      cases hd
      have hsome : rs.exit = some (.finished k) := hdexit
      rw [hexit] at hsome
      cases hsome
  · -- `finish` was first: the table has no entry left to take out
    have hdef : m.abandon rs.dispatch.runID i = m := by
      unfold Manager.abandon
      split
      · rename_i k hk
        obtain ⟨d, hd, hrun, hnone⟩ := h.active _ k hk
        have hopen : ¬ d.waiter.Returned := fun hret => h.returned k d hd hret hnone
        have hki := h.unique hd hc hrun hopen hwaits
        subst hki
        rw [hc] at hd
        cases hd
        exact absurd hnone hexit
      · rfl
    rw [hdef]
    refine ⟨_, h.waiterMoves hc (Manager.core_modifyRun_at hc
      (g := fun c => { c with waiter := .gaveUp why }) fun _ => rfl) ⟨rfl, rfl, rfl, rfl⟩
      rfl rfl hwaits (fun _ => hexit) (fun hu => ⟨hu.done, hu.sends, nofun⟩) ?_
      (fun res h => .inl (h.resolve_right nofun))⟩
    rintro P (⟨hs, hu⟩ | ⟨res, hdone, hsends, -⟩ | ⟨res, -, -, hreceived⟩)
    · exact .unsent hs ⟨hu.done, hu.sends, nofun⟩
    · exact .full res hdone hsends nofun
    · have hwaiter : rs.waiter = .received res := hreceived
      rw [hw] at hwaiter
      cases hwaiter

theorem Sane.handlersAt {m m' : Manager} {k : Nat} {x : Handler} {p : Phase} (h : Sane m)
    (hx : m.handlers[k]? = some x) (hhandlers : m'.handlers = (m.setPhase k p).handlers)
    (hp : p.Fits (m.Owner x.msg) x.msg) :
    (∀ (j : Nat) (y : Handler), m'.handlers[j]? = some y →
      (j = k ∧ y = { x with phase := p }) ∨ (j ≠ k ∧ m.handlers[j]? = some y)) ∧
    (∀ (j : Nat) (y : Handler), m'.handlers[j]? = some y →
      y.phase.Fits (m.Owner y.msg) y.msg) ∧
    m'.handlers[k]? = some { x with phase := p } ∧
    (∀ (j : Nat) (y : Handler), j ≠ k → m.handlers[j]? = some y → m'.handlers[j]? = some y) := by
  have hat : ∀ j, m'.handlers[j]? =
      if k = j then m.handlers[j]?.map fun x => { x with phase := p } else m.handlers[j]? := by
    intro j
    rw [hhandlers, Manager.handlers_setPhase]
  have hsplit : ∀ (j : Nat) (y : Handler), m'.handlers[j]? = some y →
      (j = k ∧ y = { x with phase := p }) ∨ (j ≠ k ∧ m.handlers[j]? = some y) := by
    intro j y hy
    rw [hat] at hy
    split at hy
    · rename_i hkj
      rw [← hkj, hx] at hy
      cases hy
      exact .inl ⟨hkj.symm, rfl⟩
    · rename_i hkj
      exact .inr ⟨fun heq => hkj heq.symm, hy⟩
  refine ⟨hsplit, ?_, by rw [hat, if_pos rfl, hx]; rfl, ?_⟩
  · intro j y hy
    rcases hsplit j y hy with ⟨rfl, rfl⟩ | ⟨-, hy⟩
    · exact hp
    · exact h.fits j y hy
  · intro j y hne hy
    rw [hat, if_neg hne.symm, hy]

theorem Sane.finish {m : Manager} {k : Nat} {x : Handler} {res : Result} (h : Sane m)
    (hx : m.handlers[k]? = some x) (hph : x.phase = .finishing res) :
    Quiet m (m.finish k x.msg res) ∨ ∃ i c c', Change m (m.finish k x.msg res) i c c' := by
  have hfits := h.fits k x hx
  rw [hph] at hfits
  have hquiet : Quiet m (m.setPhase k (.answered (.ok ()))) :=
    h.moved hx (moves_answered x.msg (by rw [hph]; exact not_false) _) (fun _ => rfl) rfl rfl
  unfold Manager.finish
  split
  · exact .inl hquiet
  rename_i i hi
  split
  · exact .inl hquiet
  rename_i rs hrs
  split
  · exact .inl hquiet
  have hc := Manager.core_eq hrs
  obtain ⟨d, hd, hrun, hnone⟩ := h.active _ i hi
  rw [hc] at hd
  cases hd
  have hunsent : rs.core.Unsent := h.unsent i _ hc fun j hj => by rw [hnone] at hj; cases hj
  have hhandlers : (((m.close x.msg.runID i (.finished k)).accept x.msg i).setPhase k
      (.sending i res)).handlers = (m.setPhase k (.sending i res)).handlers := rfl
  obtain ⟨hsplit, hallfit, hself, hother⟩ := h.handlersAt hx hhandlers ⟨hfits.1, hfits.2⟩
  refine .inr ⟨i, rs.core, { rs.core with closed := true, exit := some (.finished k) },
    { before := hc
      core := Manager.core_modifyRun_at hc
        (g := fun c => { c with closed := true, exit := some (.finished k) }) fun _ => rfl
      dispatch := rfl
      agentID := rfl
      stays := id
      active := .inr ⟨by rw [hrun]; rfl, hnone, by simp⟩
      closed := by simp
      returned := fun _ => (by simp)
      own := by simp
      unsent := fun hno => absurd rfl (hno k)
      finished := ?_
      results := fun _ => .inl
      fresh := ?_
      fits := hallfit
      senders := ?_
      kept := ?_ }⟩
  · rintro j ⟨⟩
    exact ⟨_, hself, hrun.symm, hfits.2.1, .unsent ⟨res, rfl⟩ ⟨hunsent.done, hunsent.sends,
      hunsent.waiter⟩⟩
  · rintro j ⟨⟩
    exact .inr ⟨_, hself, hfits.1⟩
  · intro j y l r hy hyph
    rcases hsplit j y hy with ⟨rfl, rfl⟩ | ⟨-, hy'⟩
    · cases hyph
      exact .inr ⟨rfl, rfl, hunsent.done, hunsent.sends, hunsent.waiter⟩
    · refine .inl ⟨?_, hy'⟩
      rintro rfl
      obtain ⟨d, hd, hdexit, -⟩ := h.sender j y l r hy' hyph
      rw [hc] at hd
      cases hd
      rw [hnone] at hdexit
      cases hdexit
  · intro j y hy
    by_cases hjk : j = k
    · subst hjk
      rw [hx] at hy
      cases hy
      refine ⟨_, hself, rfl, fun l r _ hyph => ?_⟩
      rw [hph] at hyph
      cases hyph
    · exact ⟨y, hother j y hjk hy, rfl, fun _ _ _ => id⟩

theorem Sane.send {m : Manager} {k i : Nat} {x : Handler} {res : Result} (h : Sane m)
    (hx : m.handlers[k]? = some x) (hph : x.phase = .sending i res) :
    ∃ c c', Change m ((m.modifyRun i fun x => { x with done := some res, sends := x.sends + 1 }).setPhase
      k (.answered (.ok ()))) i c c' := by
  obtain ⟨c, hc, hexit, hunsent⟩ := h.sender k x i res hx hph
  obtain ⟨x', hx', hrun, hends, -⟩ := h.finished i c k hc hexit
  rw [hx] at hx'
  cases hx'
  have hhandlers : ((m.modifyRun i fun x => { x with done := some res, sends := x.sends + 1 }).setPhase
      k (.answered (.ok ()))).handlers = (m.setPhase k (.answered (.ok ()))).handlers := rfl
  obtain ⟨hsplit, hallfit, hself, hother⟩ := h.handlersAt hx hhandlers trivial
  refine ⟨c, { c with done := some res, sends := c.sends + 1 },
    { before := hc
      core := Manager.core_modifyRun_at hc
        (g := fun c => { c with done := some res, sends := c.sends + 1 }) fun _ => rfl
      dispatch := rfl
      agentID := rfl
      stays := id
      active := .inl ⟨rfl, Iff.rfl⟩
      closed := h.closed i c hc
      returned := h.returned i c hc
      own := fun w => h.own i c w hc
      unsent := fun hno => absurd hexit (hno k)
      finished := ?_
      results := ?_
      fresh := fun _ => .inl
      fits := hallfit
      senders := ?_
      kept := ?_ }⟩
  · intro j hj
    have hjk : k = j := by
      have heq := hexit.symm.trans hj
      cases heq
      rfl
    subst hjk
    exact ⟨_, hself, hrun, hends, .full res rfl (by rw [hunsent.sends]) hunsent.waiter⟩
  · rintro res' (hres | hres)
    · cases hres
      exact .inr ⟨k, x, hx, hph⟩
    · exact .inl (.inr hres)
  · intro j y l r hy hyph
    rcases hsplit j y hy with ⟨rfl, rfl⟩ | ⟨hne, hy'⟩
    · cases hyph
    · refine .inl ⟨?_, hy'⟩
      rintro rfl
      obtain ⟨d, hd, hdexit, -⟩ := h.sender j y l r hy' hyph
      rw [hc] at hd
      cases hd
      rw [hexit] at hdexit
      cases hdexit
      exact hne rfl
  · intro j y hy
    by_cases hjk : j = k
    · subst hjk
      rw [hx] at hy
      cases hy
      refine ⟨_, hself, rfl, fun l r hne hyph => ?_⟩
      rw [hph] at hyph
      cases hyph
      exact absurd rfl hne
    · exact ⟨y, hother j y hjk hy, rfl, fun _ _ _ => id⟩

theorem Manager.Free.returned {m : Manager} {runID : String} (h : m.Free runID) {i : Nat} {c : Core}
    (hc : m.core i = some c) (hrun : c.dispatch.runID = runID) : c.waiter.Returned := by
  obtain ⟨rs, hrs, rfl⟩ := Option.map_eq_some_iff.mp hc
  exact h rs (List.mem_of_getElem? hrs) hrun

theorem Sane.start {cfg : Config} {m : Manager} {agentID : String} {d : Dispatch}
    {sess : Option Session} {manifest : Bool} (h : Sane m) (hfree : m.Free d.runID) :
    Sane (m.start cfg agentID d sess manifest) := by
  have hcore := Manager.core_start cfg m agentID d sess manifest
  have hnone := m.core_none
  have hsplit : ∀ i c, (m.start cfg agentID d sess manifest).core i = some c →
      (i = m.runs.length ∧ c.exit = none ∧ c.closed = false ∧ ¬ c.waiter.Returned ∧ c.Unsent ∧
        c.dispatch = d) ∨ (i ≠ m.runs.length ∧ m.core i = some c) := by
    intro i c hc
    rw [hcore] at hc
    split at hc
    · rename_i heq
      cases hc
      exact .inl ⟨heq, rfl, rfl, not_false, ⟨rfl, rfl, nofun⟩, rfl⟩
    · rename_i hne
      exact .inr ⟨hne, hc⟩
  have hold : ∀ i c, m.core i = some c → (m.start cfg agentID d sess manifest).core i = some c := by
    intro i c hc
    rw [hcore, if_neg, hc]
    rintro rfl
    rw [hnone] at hc
    cases hc
  have hlt : ∀ i c, m.core i = some c → i < m.runs.length := by
    intro i c hc
    obtain ⟨rs, hrs, -⟩ := Option.map_eq_some_iff.mp hc
    exact (List.getElem?_eq_some_iff.mp hrs).1
  have hactive : ∀ r, (m.start cfg agentID d sess manifest).active.lookup r =
      if r = d.runID then some m.runs.length else m.active.lookup r :=
    fun r => FinMap.lookup_insert_ite r d.runID m.runs.length m.active
  exact
    { active := by
        intro r i hr
        rw [hactive] at hr
        split at hr
        · rename_i heq
          cases hr
          exact ⟨_, by rw [hcore, if_pos rfl], heq.symm, rfl⟩
        · obtain ⟨c, hc, hrest⟩ := h.active r i hr
          exact ⟨c, hold i c hc, hrest⟩
      listed := by
        intro i c hc hopen
        rw [hactive]
        rcases hsplit i c hc with ⟨rfl, -, -, -, -, hd⟩ | ⟨-, hc'⟩
        · rw [hd, if_pos rfl]
        · rw [if_neg, h.listed i c hc' hopen]
          -- an open attempt of the same run would still be waiting
          intro hrun
          exact h.returned i c hc' (hfree.returned hc' hrun) hopen
      closed := by
        intro i c hc
        rcases hsplit i c hc with ⟨-, hexit, hclosed, -⟩ | ⟨-, hc'⟩
        · simp [hexit, hclosed]
        · exact h.closed i c hc'
      returned := by
        intro i c hc
        rcases hsplit i c hc with ⟨-, -, -, hw, -⟩ | ⟨-, hc'⟩
        · exact fun hret => absurd hret hw
        · exact h.returned i c hc'
      single := by
        intro i j c e hc he hrun hij
        rcases hsplit i c hc with ⟨rfl, -⟩ | ⟨-, hc'⟩
        · rcases hsplit j e he with ⟨rfl, -⟩ | ⟨-, he'⟩
          · exact absurd hij (Nat.lt_irrefl _)
          · exact absurd (hlt j e he') (Nat.lt_asymm hij)
        · rcases hsplit j e he with ⟨-, -, -, -, -, hd⟩ | ⟨-, he'⟩
          · exact hfree.returned hc' (hrun.trans (by rw [hd]))
          · exact h.single i j c e hc' he' hrun hij
      own := by
        intro i c w hc hexit
        rcases hsplit i c hc with ⟨-, hnone, -⟩ | ⟨-, hc'⟩
        · rw [hnone] at hexit
          cases hexit
        · exact h.own i c w hc' hexit
      unsent := by
        intro i c hc
        rcases hsplit i c hc with ⟨-, -, -, -, hu, -⟩ | ⟨-, hc'⟩
        · exact fun _ => hu
        · exact h.unsent i c hc'
      finished := by
        intro i c k hc hexit
        rcases hsplit i c hc with ⟨-, hnone, -⟩ | ⟨-, hc'⟩
        · rw [hnone] at hexit
          cases hexit
        · exact h.finished i c k hc' hexit
      sender := by
        intro k x i res hx hph
        obtain ⟨c, hc, hrest⟩ := h.sender k x i res hx hph
        exact ⟨c, hold i c hc, hrest⟩
      fits := by
        intro k x hx
        refine (h.fits k x hx).mono fun i hi => ?_
        obtain ⟨c, hc, hown⟩ := hi
        exact ⟨c, hold i c hc, hown⟩ }

theorem Sane.cases {cfg : Config} {a : Action} {m m' : Manager} (h : Sane m)
    (e : Effect cfg m a m') :
    Quiet m m' ∨ (∃ i c c', Change m m' i c c') ∨
      ∃ agentID d sess manifest, a = .start agentID d sess manifest ∧ m.Free d.runID ∧
        m' = m.start cfg agentID d sess manifest := by
  cases e with
  | start _ hfree => exact .inr (.inr ⟨_, _, _, _, rfl, hfree, rfl⟩)
  | cancel => exact .inl (h.still (fun j => m.core_modifyRun_same _ j fun _ => rfl) rfl rfl)
  | elapse => exact .inl (h.still (fun _ => rfl) rfl rfl)
  | heartbeat => exact .inl (h.still (by simp) (by simp) (by simp))
  | busy => exact .inl (h.still (fun _ => rfl) rfl rfl)
  | update hok =>
    unfold Manager.queueUpdate at hok
    split at hok
    · cases hok
    · cases hok
      exact .inl (h.still (fun _ => rfl) rfl rfl)
  | receive hrs hw hdone => exact .inr (.inl ⟨_, _, _, h.receive hrs hw hdone⟩)
  | choose hrs hw hnew _ => exact .inr (.inl ⟨_, _, _, h.choose hrs hw hnew⟩)
  | idle => exact .inl (h.still (fun _ => rfl) rfl rfl)
  | abandon hrs hw => exact .inr (.inl ⟨_, _, h.abandon hrs hw⟩)
  | request => exact .inl (request_quiet h _)
  | move hx hp => exact .inl (h.moved hx hp (fun _ => rfl) rfl rfl)
  | total hx hph _ =>
    refine .inl (h.moved hx ?_ (by simp) (by simp [Manager.accept])
      (Manager.setPhase_congr (by simp [Manager.accept]) _ _))
    rw [hph]
    exact ⟨fun _ ho => ho, fun _ heq => heq, not_false, not_false⟩
  | record hx hph => exact .inl (record_quiet h hx hph)
  | note hx hph =>
    exact .inl (h.moved hx (moves_answered _ (by rw [hph]; exact not_false) _) (by simp)
      (by simp) (Manager.setPhase_congr (by simp) _ _))
  | wrote hx hph =>
    refine .inl (h.moved hx ?_ (by simp) (by simp) (Manager.setPhase_congr (by simp) _ _))
    rw [hph]
    exact ⟨fun _ ho => ho, fun _ heq => heq, not_false, not_false⟩
  | finish hx hph => exact (h.finish hx hph).imp id .inl
  | send hx hph _ => exact .inr (.inl ⟨_, h.send hx hph⟩)

theorem Sane.step {cfg : Config} {a : Action} {m m' : Manager} (h : Sane m)
    (e : Effect cfg m a m') : Sane m' := by
  rcases h.cases e with q | ⟨i, c, c', q⟩ | ⟨_, _, _, _, -, hfree, rfl⟩
  · exact h.quiet q
  · exact h.change q
  · exact h.start hfree

theorem Sane.persists {cfg : Config} {a : Action} {m m' : Manager} (h : Sane m)
    (e : Effect cfg m a m') {i : Nat} {c : Core} (hc : m.core i = some c) :
    ∃ c', m'.core i = some c' ∧ c'.dispatch = c.dispatch ∧ c'.agentID = c.agentID := by
  rcases h.cases e with q | ⟨j, d, d', q⟩ | ⟨_, _, _, _, -, -, rfl⟩
  · exact ⟨c, (q.core i).trans hc, rfl, rfl⟩
  · rw [q.core]
    split
    · rename_i heq
      subst heq
      rw [q.before] at hc
      cases hc
      exact ⟨d', rfl, q.dispatch, q.agentID⟩
    · exact ⟨c, hc, rfl, rfl⟩
  · rw [Manager.core_start, if_neg]
    · exact ⟨c, hc, rfl, rfl⟩
    · rintro rfl
      rw [m.core_none] at hc
      cases hc

theorem Sane.run {cfg : Config} {ok : Manager → Action → Prop} {now : Time} {as : List Action}
    {m : Manager} (h : (exchange cfg).Run ok (.initial now) as m) : Sane m :=
  h.invariant (fun _ _ _ hs _ hstep => hs.step (step_effect hstep)) (sane_initial now)

end ProxBack.Agent
