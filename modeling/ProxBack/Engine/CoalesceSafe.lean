import ProxBack.Engine.Coalesce

/-! What a leader knows about its chunk while its program runs, and the agreement
between the in-flight table and the calls that every step keeps. -/
namespace ProxBack.Engine
open Lib Prog

/-- Every row has its object, save for the rows of `stale`, whose object is not
there at all. -/
structure Target.SoundBut (stale : Sha → Prop) (t : Target) : Prop where
  backed : ∀ a, t.Indexed a → t.Present a ∨ stale a
  missing : ∀ a, stale a → t.Indexed a ∧ ¬ t.Present a

theorem Target.soundBut_false {t : Target} : t.SoundBut (fun _ => False) ↔ t.Sound := by
  constructor
  · intro h a ha
    exact (h.backed a ha).resolve_right id
  · intro h
    exact ⟨fun a ha => .inl (h a ha), fun _ => False.elim⟩

theorem Target.soundBut_self (t : Target) :
    t.SoundBut fun a => t.Indexed a ∧ ¬ t.Present a where
  backed a ha := by
    by_cases hp : t.Present a
    · exact .inl hp
    · exact .inr ⟨ha, hp⟩
  missing _ h := h

def Target.Stored (stale : Sha → Prop) (t : Target) (sha : Sha) : Prop :=
  t.Indexed sha ∧ (t.Present sha ∨ stale sha)

/-- The account of one `putChunk`: nothing known, no row, no object either, the
object there with so many bytes sent for it, the row there too, or a call
failed. -/
inductive Acct where
  | unknown
  | missed
  | absent
  | there (sent : Nat)
  | stored (sent : Nat)
  | failed
deriving DecidableEq

def Acct.next : (c : Call) → Reply c → Acct → Acct
  | .hasChunk _, .ok true, _ => .stored 0
  | .hasChunk _, .ok false, _ => .missed
  | .head _, .ok (some _), _ => .there 0
  | .head _, .ok none, .missed => .absent
  | .waitUpload _, .ok (), u => u
  | .put _ body, .ok (), _ => .there body.length
  | .addChunk _ _, .ok (), .there n => .stored n
  | _, _, _ => .failed

/-- The calls `putChunk` makes, and what it knows when it makes them. -/
def Acct.allows (e : Engine) (sha : Sha) (data : Bytes) : Call → Acct → Prop
  | .hasChunk a, u => a = sha ∧ u = .unknown
  | .head a, u => a = sha ∧ u = .missed
  | .waitUpload _, _ => True
  | .put a body, u => a = sha ∧ body = e.body data ∧ u = .absent
  | .addChunk a _, u => a = sha ∧ ∃ n, u = .there n
  | _, _ => False

def Acct.closes (res : Except Err Nat) (u : Acct) : Prop :=
  (∃ n, res = .ok n ∧ u = .stored n) ∨ ∃ err, res = .error err ∧ u = .failed

/-- The rest of a `putChunk` that has come as far as the account says. -/
def Acct.Runs (e : Engine) (sha : Sha) (data : Bytes) (rest : EngineM (Except Err Nat))
    (u : Acct) : Prop :=
  Wp (fun c u r u' => u' = Acct.next c r u) (Acct.allows e sha data) Acct.closes rest u

theorem putChunk_runs (e : Engine) (sha : Sha) (data : Bytes) :
    Acct.Runs e sha data (e.putChunk sha data) .unknown := by
  refine ⟨⟨rfl, rfl⟩, fun r u hu => ?_⟩
  subst hu
  match r with
  | .error err => exact .inr ⟨_, rfl, rfl⟩
  | .ok true => exact .inl ⟨0, rfl, rfl⟩
  | .ok false =>
    refine ⟨⟨rfl, rfl⟩, fun r u hu => ?_⟩
    subst hu
    match r with
    | .error err => exact .inr ⟨_, rfl, rfl⟩
    | .ok (some size) =>
      refine ⟨⟨rfl, 0, rfl⟩, fun r u hu => ?_⟩
      subst hu
      match r with
      | .error err => exact .inr ⟨_, rfl, rfl⟩
      | .ok () => exact .inl ⟨0, rfl, rfl⟩
    | .ok none =>
      refine ⟨trivial, fun r u hu => ?_⟩
      subst hu
      match r with
      | .error err => exact .inr ⟨_, rfl, rfl⟩
      | .ok () =>
        refine ⟨⟨rfl, rfl, rfl⟩, fun r u hu => ?_⟩
        subst hu
        match r with
        | .error err => exact .inr ⟨_, rfl, rfl⟩
        | .ok () =>
          refine ⟨⟨rfl, _, rfl⟩, fun r u hu => ?_⟩
          subst hu
          match r with
          | .error err => exact .inr ⟨_, rfl, rfl⟩
          | .ok () => exact .inl ⟨_, rfl, rfl⟩

section Accounts

variable {stale : Sha → Prop} {sha : Sha} {t t' : Target}

def Acct.Agrees (stale : Sha → Prop) (sha : Sha) (t : Target) : Acct → Prop
  | .missed => ¬ stale sha
  | .absent => ¬ stale sha ∧ ¬ t.Present sha
  | .there _ => t.Present sha
  | .stored _ => t.Stored stale sha
  | _ => True

/-- A step that only adds to the chunk `sha`. -/
structure Target.Extends (stale : Sha → Prop) (sha : Sha) (t t' : Target) : Prop where
  sound : t.SoundBut stale → t'.SoundBut stale
  present : ∀ a, t.Present a → t'.Present a
  indexed : ∀ a, t.Indexed a → t'.Indexed a
  others : ∀ a, a ≠ sha → (t'.Present a ↔ t.Present a)

theorem Target.Extends.refl (stale : Sha → Prop) (sha : Sha) (t : Target) :
    t.Extends stale sha t :=
  ⟨id, fun _ => id, fun _ => id, fun _ _ => Iff.rfl⟩

theorem Target.Extends.putObject (t : Target) (hstale : ¬ stale sha) (body : Bytes)
    (stamp : Time) : t.Extends stale sha (t.putObject sha body stamp) where
  sound hs := by
    constructor
    · intro a ha
      exact (hs.backed a ha).imp_left fun hp => (t.present_putObject a sha body stamp).mpr (.inr hp)
    · intro a ha
      refine ⟨(hs.missing a ha).1, fun hp => ?_⟩
      rcases (t.present_putObject a sha body stamp).mp hp with rfl | hp
      · exact hstale ha
      · exact (hs.missing a ha).2 hp
  present a ha := (t.present_putObject a sha body stamp).mpr (.inr ha)
  indexed _ ha := ha
  others a hne := by
    rw [t.present_putObject a sha body stamp]
    exact or_iff_right hne

theorem Target.Extends.addRow (hpresent : t.Present sha) (size : Nat)
    (clock : Time) : t.Extends stale sha (t.addRow sha size clock) where
  sound hs := by
    constructor
    · intro a ha
      rcases (t.indexed_addRow a sha size clock).mp ha with rfl | ha
      · exact .inl hpresent
      · exact hs.backed a ha
    · intro a ha
      obtain ⟨hidx, hmiss⟩ := hs.missing a ha
      exact ⟨(t.indexed_addRow a sha size clock).mpr (.inr hidx), hmiss⟩
  present _ ha := ha
  indexed a ha := (t.indexed_addRow a sha size clock).mpr (.inr ha)
  others _ _ := Iff.rfl

theorem Target.Extends.stored {a : Sha} (h : t.Extends stale sha t') (ha : t.Stored stale a) :
    t'.Stored stale a := ⟨h.indexed a ha.1, ha.2.imp_left (h.present a)⟩

theorem Target.Extends.agrees {a : Sha} (h : t.Extends stale sha t') (hne : a ≠ sha) {u : Acct}
    (hu : u.Agrees stale a t) : u.Agrees stale a t' := by
  cases u with
  | missed => exact hu
  | absent => exact ⟨hu.1, fun hp => hu.2 ((h.others a hne).mp hp)⟩
  | there n => exact h.present a hu
  | stored n => exact h.stored hu
  | unknown => trivial
  | failed => trivial

/-- A call the account allows adds to its chunk at most, and the account is right
about what comes of it. -/
theorem Acct.exec {e : Engine} {data : Bytes} {c : Call} {u : Acct}
    (hc : u.allows e sha data c) (hu : u.Agrees stale sha t) (hsound : t.SoundBut stale)
    (x : Choice) :
    t.Extends stale sha (Target.exec c x t).2 ∧
      (Acct.next c (Target.exec c x t).1 u).Agrees stale sha (Target.exec c x t).2 := by
  cases c with
  | hasChunk a =>
    obtain ⟨rfl, rfl⟩ := hc
    refine ⟨.refl _ _ t, ?_⟩
    simp only [Target.exec, Choice.answer]
    cases x.fault with
    | some f => trivial
    | none =>
      cases hidx : (t.index.lookup a).isSome with
      | true => exact ⟨hidx, hsound.backed a hidx⟩
      | false =>
        intro hstale
        have hrow : (t.index.lookup a).isSome = true := (hsound.missing a hstale).1
        rw [hidx] at hrow
        cases hrow
  | head a =>
    obtain ⟨rfl, rfl⟩ := hc
    refine ⟨.refl _ _ t, ?_⟩
    simp only [Target.exec, Choice.answer]
    cases x.fault with
    | some f => trivial
    | none =>
      cases hobj : t.chunks.lookup a with
      | some o => simp [Acct.next, Acct.Agrees, Target.Present, hobj]
      | none =>
        refine ⟨hu, ?_⟩
        simp [Target.Present, hobj]
  | waitUpload n =>
    refine ⟨.refl _ _ t, ?_⟩
    simp only [Target.exec, Choice.answer]
    cases x.fault with
    | some f => trivial
    | none => exact hu
  | put a body =>
    obtain ⟨rfl, -, rfl⟩ := hc
    constructor
    · exact x.outcome_of (P := t.Extends stale a) (.refl stale a t)
        (.putObject t hu.1 body x.stamp)
    · simp only [Target.exec, Choice.answer, Choice.outcome]
      cases x.fault with
      | some f => trivial
      | none =>
        rw [if_pos (.inl rfl)]
        exact (t.present_putObject a a body x.stamp).mpr (.inl rfl)
  | addChunk a size =>
    obtain ⟨rfl, n, rfl⟩ := hc
    constructor
    · exact x.outcome_of (P := t.Extends stale a) (.refl stale a t) (.addRow hu size x.clock)
    · simp only [Target.exec, Choice.answer, Choice.outcome]
      cases x.fault with
      | some f => trivial
      | none =>
        rw [if_pos (.inl rfl)]
        exact ⟨(t.indexed_addRow a a size x.clock).mpr (.inl rfl), .inl hu⟩
  | _ => exact hc.elim

end Accounts

def StoreState.Leads (p : Nat) : StoreState → Prop
  | .putting q _ => q = p
  | .publishing q _ => q = p
  | _ => False

section Coherent

variable {ι : Type}

/-- What holds of one call. `owner` is the hash an entry was made for, and `u` is
what the call knows if it is a leader. -/
def StoreCall.Ok (stale : Sha → Prop) (e : Engine) (sh : Shared) (owner : Nat → Sha) (u : Acct)
    (c : StoreCall) : Prop :=
  match c.st with
  | .entering => True
  | .waiting p => p < sh.made ∧ owner p = c.sha
  | .putting p rest => p < sh.made ∧ owner p = c.sha ∧ sh.done p = none ∧
      sh.inflight.lookup c.sha = some p ∧ u.Runs e c.sha c.data rest ∧
      u.Agrees stale c.sha sh.target
  | .publishing p res => p < sh.made ∧ owner p = c.sha ∧ sh.done p = none ∧
      u.closes res ∧ u.Agrees stale c.sha sh.target
  | .returned res => ∀ n, res = .ok n → sh.target.Stored stale c.sha

structure Coherent (stale : Sha → Prop) (e : Engine) (sh : Shared) (calls : ι → Option StoreCall)
    (owner : Nat → Sha) (acct : ι → Acct) : Prop where
  sound : sh.target.SoundBut stale
  each : ∀ i c, calls i = some c → c.Ok stale e sh owner (acct i)
  unique : ∀ i j c d p, calls i = some c → calls j = some d → c.st.Leads p → d.st.Leads p → i = j
  opened : ∀ p, p < sh.made → sh.done p = none → ∃ i c, calls i = some c ∧ c.st.Leads p
  listed : ∀ sha p, sh.inflight.lookup sha = some p →
    p < sh.made ∧ ∃ i c rest, calls i = some c ∧ c.sha = sha ∧ c.st = .putting p rest
  fresh : ∀ p, sh.made ≤ p → sh.done p = none
  stored : ∀ p, sh.done p = some none → sh.target.Stored stale (owner p)

theorem coherent_initial {stale : Sha → Prop} (e : Engine) {t : Target}
    (hsound : t.SoundBut stale) : Coherent (ι := ι) stale e ⟨t, ∅, 0, fun _ => none⟩ (fun _ => none) (fun _ => "")
      (fun _ => .unknown) := by
  constructor
  · exact hsound
  all_goals simp

variable {stale : Sha → Prop} {e : Engine} {sh : Shared} {calls : ι → Option StoreCall}
  {owner : Nat → Sha} {acct : ι → Acct} {i : ι} {c : StoreCall}

theorem Coherent.leader_unique (h : Coherent stale e sh calls owner acct) {j : ι} {d : StoreCall}
    {p q : Nat} {rest rest' : EngineM (Except Err Nat)} (hc : calls i = some c)
    (hd : calls j = some d) (hst : c.st = .putting p rest) (hst' : d.st = .putting q rest')
    (hsha : c.sha = d.sha) : i = j := by
  have hok := h.each i c hc
  have hok' := h.each j d hd
  unfold StoreCall.Ok at hok hok'
  rw [hst] at hok
  rw [hst'] at hok'
  have hpq : p = q := by
    have hp := hok.2.2.2.1
    rw [hsha, hok'.2.2.2.1] at hp
    exact (Option.some.inj hp).symm
  exact h.unique i j c d p hc hd (by rw [hst]; exact rfl) (by rw [hst', hpq]; exact rfl)

theorem StoreCall.Ok.leads_lt {u : Acct} {p : Nat} (h : c.Ok stale e sh owner u) (hp : c.st.Leads p) :
    p < sh.made ∧ sh.done p = none := by
  unfold StoreCall.Ok at h
  split at h
  · rename_i hst
    rw [hst] at hp
    exact hp.elim
  · rename_i hst
    rw [hst] at hp
    exact hp.elim
  · rename_i hst
    rw [hst] at hp
    cases hp
    exact ⟨h.1, h.2.2.1⟩
  · rename_i hst
    rw [hst] at hp
    cases hp
    exact ⟨h.1, h.2.2.1⟩
  · rename_i hst
    rw [hst] at hp
    exact hp.elim

variable [DecidableEq ι]

theorem Coherent.replace (h : Coherent stale e sh calls owner acct)
    (hold : ∀ c, calls i = some c → ∀ p, ¬ c.st.Leads p) {new : Option StoreCall} {u : Acct}
    (hnew : ∀ c, new = some c → (∀ p, ¬ c.st.Leads p) ∧ c.Ok stale e sh owner u) :
    Coherent stale e sh (Function.update calls i new) owner (Function.update acct i u) where
  sound := h.sound
  each j d hd := by
    by_cases hj : j = i
    · subst hj
      rw [Function.update_self] at hd
      rw [Function.update_self]
      exact (hnew d hd).2
    · rw [Function.update_of_ne hj] at hd
      rw [Function.update_of_ne hj]
      exact h.each j d hd
  unique j k d d' p hd hd' hp hp' := by
    have hne : ∀ j d, Function.update calls i new j = some d → d.st.Leads p →
        calls j = some d := by
      intro j d hd hp
      by_cases hj : j = i
      · subst hj
        rw [Function.update_self] at hd
        exact absurd hp ((hnew d hd).1 p)
      · rwa [Function.update_of_ne hj] at hd
    exact h.unique j k d d' p (hne j d hd hp) (hne k d' hd' hp') hp hp'
  opened p hp hdone := by
    obtain ⟨j, d, hd, hlead⟩ := h.opened p hp hdone
    have hj : j ≠ i := fun hj => hold d (hj ▸ hd) p hlead
    exact ⟨j, d, by rw [Function.update_of_ne hj]; exact hd, hlead⟩
  listed sha p hp := by
    obtain ⟨hmade, j, d, rest, hd, hsha, hst⟩ := h.listed sha p hp
    have hlead : d.st.Leads p := by rw [hst]; exact rfl
    have hj : j ≠ i := fun hj => hold d (hj ▸ hd) p hlead
    exact ⟨hmade, j, d, rest, by rw [Function.update_of_ne hj]; exact hd, hsha, hst⟩
  fresh := h.fresh
  stored := h.stored

theorem Coherent.lead (h : Coherent stale e sh calls owner acct) (hc : calls i = some c)
    (hst : c.st = .entering) (hnone : sh.inflight.lookup c.sha = none) :
    Coherent stale e { sh with inflight := sh.inflight.insert c.sha sh.made, made := sh.made + 1 }
      (Function.update calls i (some { c with st := .putting sh.made (e.putChunk c.sha c.data) }))
      (Function.update owner sh.made c.sha) (Function.update acct i .unknown) where
  sound := h.sound
  each j d hd := by
    by_cases hj : j = i
    · subst hj
      rw [Function.update_self] at hd
      cases hd
      rw [Function.update_self]
      refine ⟨Nat.lt_succ_self _, Function.update_self .., h.fresh _ le_rfl, ?_, ?_, trivial⟩
      · exact AList.lookup_insert _
      · exact putChunk_runs e c.sha c.data
    · rw [Function.update_of_ne hj] at hd
      have hok := h.each j d hd
      unfold StoreCall.Ok at hok ⊢
      rw [Function.update_of_ne hj]
      split at hok
      · trivial
      · obtain ⟨hp, ho⟩ := hok
        refine ⟨Nat.lt_succ_of_lt hp, ?_⟩
        rwa [Function.update_of_ne (Nat.ne_of_lt hp)]
      · obtain ⟨hp, ho, hdone, hlook, hrest⟩ := hok
        have hne : d.sha ≠ c.sha := by
          intro heq
          rw [heq, hnone] at hlook
          cases hlook
        refine ⟨Nat.lt_succ_of_lt hp, ?_, hdone, ?_, hrest⟩
        · rwa [Function.update_of_ne (Nat.ne_of_lt hp)]
        · rwa [AList.lookup_insert_ne hne]
      · obtain ⟨hp, ho, hrest⟩ := hok
        refine ⟨Nat.lt_succ_of_lt hp, ?_, hrest⟩
        rwa [Function.update_of_ne (Nat.ne_of_lt hp)]
      · exact hok
  unique := by
    have hmade : ∀ j d p, Function.update calls i
        (some { c with st := .putting sh.made (e.putChunk c.sha c.data) }) j = some d →
        d.st.Leads p → (j = i ∧ p = sh.made) ∨ (calls j = some d ∧ p < sh.made) := by
      intro j d p hd hp
      by_cases hj : j = i
      · subst hj
        rw [Function.update_self] at hd
        cases hd
        exact .inl ⟨rfl, hp.symm⟩
      · rw [Function.update_of_ne hj] at hd
        exact .inr ⟨hd, ((h.each j d hd).leads_lt hp).1⟩
    intro j k d d' p hd hd' hp hp'
    rcases hmade j d p hd hp with ⟨hj, hpm⟩ | ⟨hj, hpm⟩
    · rcases hmade k d' p hd' hp' with ⟨hk, hpm'⟩ | ⟨hk, hpm'⟩
      · rw [hj, hk]
      · omega
    · rcases hmade k d' p hd' hp' with ⟨hk, hpm'⟩ | ⟨hk, hpm'⟩
      · omega
      · exact h.unique j k d d' p hj hk hp hp'
  opened p hp hdone := by
    by_cases hpm : p = sh.made
    · exact ⟨i, _, Function.update_self .., hpm.symm⟩
    · obtain ⟨j, d, hd, hlead⟩ := h.opened p (by dsimp only at hp; omega) hdone
      have hj : j ≠ i := by
        intro hj
        rw [hj, hc] at hd
        cases hd
        rw [hst] at hlead
        exact hlead
      exact ⟨j, d, by rw [Function.update_of_ne hj]; exact hd, hlead⟩
  listed sha p hp := by
    by_cases hsha : sha = c.sha
    · subst hsha
      rw [AList.lookup_insert] at hp
      cases hp
      exact ⟨Nat.lt_succ_self _, i, _, _, Function.update_self .., rfl, rfl⟩
    · rw [AList.lookup_insert_ne hsha] at hp
      obtain ⟨hmade, j, d, rest, hd, hds, hrest⟩ := h.listed sha p hp
      have hj : j ≠ i := by
        intro hj
        rw [hj, hc] at hd
        cases hd
        exact hsha hds.symm
      exact ⟨Nat.lt_succ_of_lt hmade, j, d, rest,
        by rw [Function.update_of_ne hj]; exact hd, hds, hrest⟩
  fresh p hp := h.fresh p (Nat.le_of_succ_le hp)
  stored p hp := by
    have hne : p ≠ sh.made := by
      intro hpm
      rw [hpm, h.fresh _ le_rfl] at hp
      cases hp
    rw [Function.update_of_ne hne]
    exact h.stored p hp

/-- A leader's own step, seen from the calls that lead something: they are those
there were, with the leader's new state in its place. -/
theorem update_leads {c' d : StoreCall} {j : ι} {p : Nat} (hc : calls i = some c)
    (hkeep : ∀ q, c'.st.Leads q → c.st.Leads q)
    (hd : Function.update calls i (some c') j = some d) (hp : d.st.Leads p) :
    ∃ d₀, calls j = some d₀ ∧ d₀.st.Leads p := by
  by_cases hj : j = i
  · subst hj
    rw [Function.update_self] at hd
    cases hd
    exact ⟨c, hc, hkeep p hp⟩
  · rw [Function.update_of_ne hj] at hd
    exact ⟨d, hd, hp⟩

theorem Coherent.call (h : Coherent stale e sh calls owner acct) (hc : calls i = some c) {p : Nat}
    {cl : Call} {k : Reply cl → EngineM (Except Err Nat)} (hst : c.st = .putting p (.call cl k))
    (x : Choice) :
    Coherent stale e { sh with target := (Target.exec cl x sh.target).2 }
      (Function.update calls i
        (some { c with st := .putting p (k (Target.exec cl x sh.target).1) }))
      owner (Function.update acct i (Acct.next cl (Target.exec cl x sh.target).1 (acct i))) := by
  have hok := h.each i c hc
  unfold StoreCall.Ok at hok
  rw [hst] at hok
  obtain ⟨hp, ho, hdone, hlook, hruns, hagrees⟩ := hok
  obtain ⟨hext, hagrees'⟩ := Acct.exec hruns.1 hagrees h.sound x
  constructor
  · exact hext.sound h.sound
  · intro j d hd
    by_cases hj : j = i
    · subst hj
      rw [Function.update_self] at hd
      cases hd
      rw [Function.update_self]
      exact ⟨hp, ho, hdone, hlook, hruns.2 _ _ rfl, hagrees'⟩
    · rw [Function.update_of_ne hj] at hd
      rw [Function.update_of_ne hj]
      have hok' := h.each j d hd
      unfold StoreCall.Ok at hok' ⊢
      split at hok'
      · trivial
      · exact hok'
      · rename_i hst'
        obtain ⟨hq, ho', hdone', hlook', hruns', hagr⟩ := hok'
        have hne : d.sha ≠ c.sha := fun heq => hj (h.leader_unique hd hc hst' hst heq)
        exact ⟨hq, ho', hdone', hlook', hruns', hext.agrees hne hagr⟩
      · obtain ⟨hq, ho', hdone', hcloses, hagr⟩ := hok'
        refine ⟨hq, ho', hdone', hcloses, ?_⟩
        rcases hcloses with ⟨n, -, hn⟩ | ⟨err, -, herr⟩
        · rw [hn] at hagr ⊢
          exact hext.stored hagr
        · rw [herr]
          trivial
      · exact fun n hn => hext.stored (hok' n hn)
  · intro j j' d d' q hd hd' hq hq'
    have hkeep : ∀ q, StoreState.Leads q (.putting p (k (Target.exec cl x sh.target).1)) →
        c.st.Leads q := by
      intro q hq
      rw [hst]
      exact hq
    obtain ⟨d₀, hd₀, hq₀⟩ := update_leads hc hkeep hd hq
    obtain ⟨d₁, hd₁, hq₁⟩ := update_leads hc hkeep hd' hq'
    exact h.unique j j' d₀ d₁ q hd₀ hd₁ hq₀ hq₁
  · intro q hq hopen
    obtain ⟨j, d, hd, hlead⟩ := h.opened q hq hopen
    by_cases hj : j = i
    · subst hj
      rw [hc] at hd
      cases hd
      rw [hst] at hlead
      exact ⟨j, _, Function.update_self .., hlead⟩
    · exact ⟨j, d, by rw [Function.update_of_ne hj]; exact hd, hlead⟩
  · intro sha q hq
    obtain ⟨hmade, j, d, rest, hd, hds, hrest⟩ := h.listed sha q hq
    refine ⟨hmade, ?_⟩
    by_cases hj : j = i
    · subst hj
      rw [hc] at hd
      cases hd
      rw [hst] at hrest
      cases hrest
      exact ⟨j, _, _, Function.update_self .., hds, rfl⟩
    · exact ⟨j, d, rest, by rw [Function.update_of_ne hj]; exact hd, hds, hrest⟩
  · exact h.fresh
  · exact fun q hq => hext.stored (h.stored q hq)

theorem Coherent.unlist (h : Coherent stale e sh calls owner acct) (hc : calls i = some c) {p : Nat}
    {res : Except Err Nat} (hst : c.st = .putting p (.ret res)) :
    Coherent stale e { sh with inflight := sh.inflight.erase c.sha }
      (Function.update calls i (some { c with st := .publishing p res })) owner acct := by
  have hok := h.each i c hc
  unfold StoreCall.Ok at hok
  rw [hst] at hok
  obtain ⟨hp, ho, hdone, hlook, hruns, hagrees⟩ := hok
  constructor
  · exact h.sound
  · intro j d hd
    by_cases hj : j = i
    · subst hj
      rw [Function.update_self] at hd
      cases hd
      exact ⟨hp, ho, hdone, hruns, hagrees⟩
    · rw [Function.update_of_ne hj] at hd
      have hok' := h.each j d hd
      unfold StoreCall.Ok at hok' ⊢
      split at hok'
      · trivial
      · exact hok'
      · rename_i hst'
        obtain ⟨hq, ho', hdone', hlook', hrest⟩ := hok'
        have hne : d.sha ≠ c.sha := fun heq => hj (h.leader_unique hd hc hst' hst heq)
        refine ⟨hq, ho', hdone', ?_, hrest⟩
        rwa [AList.lookup_erase_ne hne]
      · exact hok'
      · exact hok'
  · intro j k d d' q hd hd' hq hq'
    have hkeep : ∀ q, StoreState.Leads q (.publishing p res) → c.st.Leads q := by
      intro q hq
      rw [hst]
      exact hq
    obtain ⟨d₀, hd₀, hq₀⟩ := update_leads hc hkeep hd hq
    obtain ⟨d₁, hd₁, hq₁⟩ := update_leads hc hkeep hd' hq'
    exact h.unique j k d₀ d₁ q hd₀ hd₁ hq₀ hq₁
  · intro q hq hopen
    obtain ⟨j, d, hd, hlead⟩ := h.opened q hq hopen
    by_cases hj : j = i
    · subst hj
      rw [hc] at hd
      cases hd
      rw [hst] at hlead
      exact ⟨j, _, Function.update_self .., hlead⟩
    · exact ⟨j, d, by rw [Function.update_of_ne hj]; exact hd, hlead⟩
  · intro sha q hq
    by_cases hsha : sha = c.sha
    · rw [hsha, AList.lookup_erase] at hq
      cases hq
    · rw [AList.lookup_erase_ne hsha] at hq
      obtain ⟨hmade, j, d, rest, hd, hds, hrest⟩ := h.listed sha q hq
      have hj : j ≠ i := by
        intro hj
        rw [hj, hc] at hd
        cases hd
        exact hsha hds.symm
      exact ⟨hmade, j, d, rest, by rw [Function.update_of_ne hj]; exact hd, hds, hrest⟩
  · exact h.fresh
  · exact h.stored

theorem Coherent.publish (h : Coherent stale e sh calls owner acct) (hc : calls i = some c) {p : Nat}
    {res : Except Err Nat} (hst : c.st = .publishing p res) :
    Coherent stale e { sh with done := Function.update sh.done p (some (pendingErr res)) }
      (Function.update calls i (some { c with st := .returned res })) owner acct := by
  have hok := h.each i c hc
  unfold StoreCall.Ok at hok
  rw [hst] at hok
  obtain ⟨hp, ho, hdone, hcloses, hagrees⟩ := hok
  have hleads : c.st.Leads p := by rw [hst]; exact rfl
  have hstored : ∀ n, res = .ok n → sh.target.Stored stale c.sha := by
    intro n hn
    rcases hcloses with ⟨m, -, hm⟩ | ⟨err, herr, -⟩
    · rw [hm] at hagrees
      exact hagrees
    · rw [hn] at herr
      cases herr
  have hother : ∀ j d q, j ≠ i → calls j = some d → d.st.Leads q → q ≠ p := by
    intro j d q hj hd hq hqp
    exact hj (h.unique j i d c p hd hc (hqp ▸ hq) hleads)
  constructor
  · exact h.sound
  · intro j d hd
    by_cases hj : j = i
    · subst hj
      rw [Function.update_self] at hd
      cases hd
      exact hstored
    · rw [Function.update_of_ne hj] at hd
      have hok' := h.each j d hd
      have hq := hother j d
      unfold StoreCall.Ok at hok' ⊢
      split at hok'
      · trivial
      · exact hok'
      · rename_i q _ hst'
        obtain ⟨hlt, ho', hdone', hrest⟩ := hok'
        refine ⟨hlt, ho', ?_, hrest⟩
        rw [hst'] at hq
        exact (Function.update_of_ne (hq q hj hd rfl) ..).trans hdone'
      · rename_i q _ hst'
        obtain ⟨hlt, ho', hdone', hrest⟩ := hok'
        refine ⟨hlt, ho', ?_, hrest⟩
        rw [hst'] at hq
        exact (Function.update_of_ne (hq q hj hd rfl) ..).trans hdone'
      · exact hok'
  · intro j k d d' q hd hd' hq hq'
    have hkeep : ∀ q, StoreState.Leads q (.returned res) → c.st.Leads q := fun _ => False.elim
    obtain ⟨d₀, hd₀, hq₀⟩ := update_leads hc hkeep hd hq
    obtain ⟨d₁, hd₁, hq₁⟩ := update_leads hc hkeep hd' hq'
    exact h.unique j k d₀ d₁ q hd₀ hd₁ hq₀ hq₁
  · intro q hq hopen
    dsimp only at hq hopen
    have hne : q ≠ p := by
      intro hqp
      rw [hqp, Function.update_self] at hopen
      cases hopen
    rw [Function.update_of_ne hne] at hopen
    obtain ⟨j, d, hd, hlead⟩ := h.opened q hq hopen
    have hj : j ≠ i := by
      intro hj
      rw [hj, hc] at hd
      cases hd
      rw [hst] at hlead
      exact hne hlead.symm
    exact ⟨j, d, by rw [Function.update_of_ne hj]; exact hd, hlead⟩
  · intro sha q hq
    obtain ⟨hmade, j, d, rest, hd, hds, hrest⟩ := h.listed sha q hq
    have hj : j ≠ i := by
      intro hj
      rw [hj, hc] at hd
      cases hd
      rw [hst] at hrest
      cases hrest
    exact ⟨hmade, j, d, rest, by rw [Function.update_of_ne hj]; exact hd, hds, hrest⟩
  · intro q hq
    dsimp only at hq ⊢
    have hne : q ≠ p := by
      rintro rfl
      exact absurd hp (Nat.not_lt.mpr hq)
    rw [Function.update_of_ne hne]
    exact h.fresh q hq
  · intro q hq
    dsimp only at hq ⊢
    by_cases hqp : q = p
    · subst hqp
      rw [Function.update_self] at hq
      rw [ho]
      cases res with
      | ok n => exact hstored n rfl
      | error err => cases hq
    · rw [Function.update_of_ne hqp] at hq
      exact h.stored q hq

omit [DecidableEq ι] in
theorem Coherent.extends (h : Coherent stale e sh calls owner acct) (hc : calls i = some c)
    {ctx : Option Fault} {m : StoreMove} {sh' : Shared} {st' : StoreState}
    (hstep : StoreStep e c.sha c.data ctx sh m c.st sh' st') :
    sh.target.Extends stale c.sha sh'.target := by
  have hok := h.each i c hc
  generalize hst : c.st = st at hstep
  cases hstep with
  | call x =>
    unfold StoreCall.Ok at hok
    rw [hst] at hok
    obtain ⟨-, -, -, -, hruns, hagrees⟩ := hok
    exact (Acct.exec hruns.1 hagrees h.sound x).1
  | _ => exact .refl _ _ _

def Acct.after (sh : Shared) (c : StoreCall) (m : StoreMove) (u : Acct) : Acct :=
  match c.st, m with
  | .entering, _ => .unknown
  | .putting _ (.call cl _), .go x => Acct.next cl (Target.exec cl x sh.target).1 u
  | _, _ => u

theorem Coherent.move (h : Coherent stale e sh calls owner acct) (hc : calls i = some c)
    {ctx : Option Fault} {m : StoreMove} {sh' : Shared} {st' : StoreState}
    (hstep : StoreStep e c.sha c.data ctx sh m c.st sh' st') :
    ∃ owner', Coherent stale e sh' (Function.update calls i (some { c with st := st' }))
      owner' (Function.update acct i (Acct.after sh c m (acct i))) := by
  have hok := h.each i c hc
  have hidle : ∀ {st : StoreState}, c.st = st → (∀ p, ¬ st.Leads p) →
      ∀ d, calls i = some d → ∀ p, ¬ d.st.Leads p := by
    intro st hst hlead d hd p
    rw [hc] at hd
    cases hd
    rw [hst]
    exact hlead p
  generalize hst : c.st = st at hstep
  unfold StoreCall.Ok at hok
  rw [hst] at hok
  unfold Acct.after
  cases hstep with
  | @join _ p hp =>
    refine ⟨owner, h.replace (hidle hst fun _ => id) ?_⟩
    intro d hd
    cases hd
    obtain ⟨hmade, j, d, rest, hd, hsha, hrest⟩ := h.listed c.sha p hp
    have hok' := h.each j d hd
    unfold StoreCall.Ok at hok'
    rw [hrest] at hok'
    exact ⟨fun _ => id, hmade, hok'.2.1.trans hsha⟩
  | lead hp =>
    rw [hst]
    exact ⟨_, h.lead hc hst hp⟩
  | @credited _ p hp =>
    refine ⟨owner, h.replace (hidle hst fun _ => id) ?_⟩
    intro d hd
    cases hd
    refine ⟨fun _ => id, fun n _ => ?_⟩
    have hstored := h.stored p hp
    rw [hok.2] at hstored
    exact hstored
  | retry hp =>
    refine ⟨owner, h.replace (hidle hst fun _ => id) ?_⟩
    intro d hd
    cases hd
    exact ⟨fun _ => id, trivial⟩
  | giveUp hf =>
    refine ⟨owner, h.replace (hidle hst fun _ => id) ?_⟩
    intro d hd
    cases hd
    exact ⟨fun _ => id, nofun⟩
  | call x =>
    rw [hst]
    exact ⟨_, h.call hc hst x⟩
  | unlist =>
    rw [hst]
    dsimp only
    rw [Function.update_eq_self]
    exact ⟨_, h.unlist hc hst⟩
  | publish =>
    rw [hst]
    dsimp only
    rw [Function.update_eq_self]
    exact ⟨_, h.publish hc hst⟩

end Coherent

end ProxBack.Engine
