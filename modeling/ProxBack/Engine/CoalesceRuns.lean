import ProxBack.Engine.CoalesceSafe

/-! Coalescing is safe over every run: one leader for a hash at a time, nobody
returns nil before the chunk and its row are there, a failed leader credits
nobody, and the table is empty when nobody is at work. -/
namespace ProxBack.Engine
open Lib Prog

variable {ι : Type} {e : Engine} {s s' : Callers ι}

def Callers.Coherent (e : Engine) (s : Callers ι) : Prop :=
  ∃ owner acct, Engine.Coherent (fun _ => False) e s.shared s.calls owner acct

theorem Callers.coherent_initial (e : Engine) {t : Target} (hsound : t.Sound)
    (ctx : ι → Option Fault) : (Callers.initial t ctx).Coherent e :=
  ⟨_, _, Engine.coherent_initial e (Target.soundBut_false.mpr hsound)⟩

theorem Callers.Coherent.inflight_empty (h : s.Coherent e)
    (hidle : ∀ i c, s.calls i = some c → ∃ res, c.st = .returned res) :
    s.shared.inflight = ∅ := by
  obtain ⟨owner, acct, h⟩ := h
  apply AList.ext
  have hkeys : s.shared.inflight.keys = [] := by
    apply List.eq_nil_iff_forall_not_mem.mpr
    intro sha hsha
    obtain ⟨p, hp⟩ := Option.isSome_iff_exists.mp
      (AList.lookup_isSome.mpr (AList.mem_keys.mpr hsha))
    obtain ⟨-, i, c, rest, hc, -, hst⟩ := h.listed sha p hp
    obtain ⟨res, hres⟩ := hidle i c hc
    rw [hst] at hres
    cases hres
  exact List.map_eq_nil_iff.mp hkeys

variable [DecidableEq ι]

theorem Callers.step_cases {a : CallersAction ι} (h : Callers.step e a s = some s') :
    (∃ i sha data, a = .start i sha data ∧ s.calls i = none ∧
      s' = { s with calls := Function.update s.calls i (some ⟨sha, data, .entering⟩) }) ∨
    (∃ i c res, a = .leave i ∧ s.calls i = some c ∧ c.st = .returned res ∧
      s' = { s with calls := Function.update s.calls i none }) ∨
    (∃ i f, a = .endContext i f ∧ s' = { s with ctx := Function.update s.ctx i (some f) }) ∨
    (∃ i m c sh' st', a = .move i m ∧ s.calls i = some c ∧
      StoreStep e c.sha c.data (s.ctx i) s.shared m c.st sh' st' ∧
      s' = { s with
        shared := sh'
        calls := Function.update s.calls i (some { c with st := st' }) }) := by
  cases a with
  | start i sha data =>
    simp only [Callers.step] at h
    split at h
    · rename_i hi
      cases h
      exact .inl ⟨i, sha, data, rfl, hi, rfl⟩
    · cases h
  | leave i =>
    simp only [Callers.step] at h
    split at h
    · rename_i sha data res hi
      cases h
      exact .inr (.inl ⟨i, _, res, rfl, hi, rfl, rfl⟩)
    · cases h
  | endContext i f =>
    simp only [Callers.step] at h
    split at h
    · cases h
      exact .inr (.inr (.inl ⟨i, f, rfl, rfl⟩))
    · cases h
  | move i m =>
    simp only [Callers.step] at h
    split at h
    · cases h
    · rename_i c hi
      obtain ⟨⟨sh', st'⟩, hout, heq⟩ := Option.map_eq_some_iff.mp h
      cases heq
      exact .inr (.inr (.inr ⟨i, m, c, sh', st', rfl, hi, storeStep_cases hout, rfl⟩))

theorem Callers.Coherent.step (h : s.Coherent e) {a : CallersAction ι}
    (hstep : Callers.step e a s = some s') : s'.Coherent e := by
  obtain ⟨owner, acct, h⟩ := h
  rcases Callers.step_cases hstep with ⟨i, sha, data, -, hi, rfl⟩ | ⟨i, c, res, -, hi, hst, rfl⟩ |
    ⟨i, f, -, rfl⟩ | ⟨i, m, c, sh', st', -, hi, hmove, rfl⟩
  · refine ⟨owner, _, h.replace (u := .unknown) ?_ ?_⟩
    · intro d hd
      rw [hi] at hd
      cases hd
    · intro d hd
      cases hd
      exact ⟨fun _ => id, trivial⟩
  · refine ⟨owner, _, h.replace (u := .unknown) ?_ nofun⟩
    intro d hd p
    rw [hi] at hd
    cases hd
    rw [hst]
    exact id
  · exact ⟨owner, acct, h⟩
  · obtain ⟨owner', hmoved⟩ := h.move hi hmove
    exact ⟨owner', _, hmoved⟩

theorem Callers.Coherent.run {acts : List (CallersAction ι)} (h : s.Coherent e)
    (hrun : (callers ι e).Run (fun _ _ => True) s acts s') : s'.Coherent e :=
  hrun.invariant (fun _ _ _ hs _ hstep => hs.step hstep) h

theorem Callers.Coherent.done_mono (h : s.Coherent e) {a : CallersAction ι}
    (hstep : Callers.step e a s = some s') {p : Nat} {v : Option Err}
    (hp : s.shared.done p = some v) : s'.shared.done p = some v := by
  obtain ⟨owner, acct, h⟩ := h
  rcases Callers.step_cases hstep with ⟨i, sha, data, -, hi, rfl⟩ | ⟨i, c, res, -, hi, hst, rfl⟩ |
    ⟨i, f, -, rfl⟩ | ⟨i, m, c, sh', st', -, hi, hmove, rfl⟩
  · exact hp
  · exact hp
  · exact hp
  · have hok := h.each i c hi
    generalize hst : c.st = st at hmove
    cases hmove with
    | @publish _ q res =>
      have hne : p ≠ q := by
        rintro rfl
        have hopen := (hok.leads_lt (p := p) (by rw [hst]; exact rfl)).2
        rw [hp] at hopen
        cases hopen
      exact (Function.update_of_ne hne ..).trans hp
    | _ => exact hp

theorem Callers.step_call {a : CallersAction ι} {i : ι} {c : StoreCall}
    (hstep : Callers.step e a s = some s') (hc : s.calls i = some c) (ha : a ≠ .leave i) :
    s'.calls i = some c ∨ ∃ m st', StoreStep e c.sha c.data (s.ctx i) s.shared m c.st s'.shared st' ∧
      s'.calls i = some { c with st := st' } ∧ s'.ctx = s.ctx := by
  rcases Callers.step_cases hstep with ⟨j, sha, data, -, hj, rfl⟩ | ⟨j, d, res, rfl, hj, -, rfl⟩ |
    ⟨j, f, -, rfl⟩ | ⟨j, m, d, sh', st', -, hj, hmove, rfl⟩
  · have hne : i ≠ j := by
      rintro rfl
      rw [hc] at hj
      cases hj
    exact .inl ((Function.update_of_ne hne ..).trans hc)
  · have hne : i ≠ j := fun h => ha (h ▸ rfl)
    exact .inl ((Function.update_of_ne hne ..).trans hc)
  · exact .inl hc
  · by_cases hij : i = j
    · subst hij
      rw [hc] at hj
      cases hj
      exact .inr ⟨m, st', hmove, Function.update_self .., rfl⟩
    · exact .inl ((Function.update_of_ne hij ..).trans hc)

theorem Callers.run_settled {acts : List (CallersAction ι)} {i : ι} {c c' : StoreCall}
    {res res' : Except Err Nat} (hrun : (callers ι e).Run (fun _ _ => True) s acts s')
    (hc : s.calls i = some c) (hst : c.st = .returned res ∨ ∃ p, c.st = .publishing p res)
    (hacts : ∀ a ∈ acts, a ≠ .leave i) (hc' : s'.calls i = some c') (hret : c'.st = .returned res') :
    res' = res := by
  induction hrun generalizing c with
  | nil =>
    rw [hc] at hc'
    cases hc'
    rw [hret] at hst
    simpa using hst
  | @cons _ _ s₁ _ _ _ hstep _ ih =>
    have hacts₁ := fun a ha => hacts a (List.mem_cons_of_mem _ ha)
    rcases Callers.step_call hstep hc (hacts _ List.mem_cons_self) with hsame | ⟨m, st', hmove, hnew, -⟩
    · exact ih hsame hst hacts₁ hc'
    · refine ih hnew ?_ hacts₁ hc'
      generalize c.st = st at hmove hst
      generalize s₁.shared = sh₁ at hmove
      cases hmove with
      | publish =>
        obtain ⟨p, heq⟩ := hst.resolve_left (by simp)
        cases heq
        exact .inl rfl
      | join | lead | credited | retry | giveUp | call | unlist => simp at hst

theorem Callers.Coherent.run_done {acts : List (CallersAction ι)} (h : s.Coherent e)
    (hrun : (callers ι e).Run (fun _ _ => True) s acts s') {p : Nat} {v : Option Err}
    (hp : s.shared.done p = some v) : s'.shared.done p = some v := by
  induction hrun with
  | nil => exact hp
  | cons _ hstep _ ih => exact ih (h.step hstep) (h.done_mono hstep hp)

/-- On its way through the run the call performed the store itself, or waited on
an entry other than `p` whose store succeeded. -/
def Callers.StoredOtherwise (e : Engine) (s : Callers ι) (acts : List (CallersAction ι))
    (s' : Callers ι) (i : ι) (p : Nat) : Prop :=
  ∃ as s₁ c, as <+: acts ∧ (callers ι e).Run (fun _ _ => True) s as s₁ ∧ s₁.calls i = some c ∧
    ((∃ q rest, c.st = .putting q rest) ∨
      ∃ q, q ≠ p ∧ c.st = .waiting q ∧ s'.shared.done q = some none)

theorem Callers.StoredOtherwise.cons {a : CallersAction ι} {acts : List (CallersAction ι)}
    {s₁ : Callers ι} {i : ι} {p : Nat} (hstep : Callers.step e a s = some s₁)
    (h : Callers.StoredOtherwise e s₁ acts s' i p) :
    Callers.StoredOtherwise e s (a :: acts) s' i p := by
  obtain ⟨as, s₂, c, hpre, hrun, hrest⟩ := h
  exact ⟨a :: as, s₂, c, List.cons_prefix_cons.mpr ⟨rfl, hpre⟩, .cons trivial hstep hrun, hrest⟩

/-- A call that has not led yet can only return nil by leading, or on the account
of an entry that succeeded; `p`, which failed, is not one of those. -/
theorem Callers.Coherent.returns_stored {acts : List (CallersAction ι)} (h : s.Coherent e)
    (hrun : (callers ι e).Run (fun _ _ => True) s acts s') {i : ι} {c c' : StoreCall} {p : Nat}
    {err : Err} (hc : s.calls i = some c) (hst : c.st = .entering ∨ ∃ q, c.st = .waiting q)
    (hp : s.shared.done p = some (some err)) (hacts : ∀ a ∈ acts, a ≠ .leave i)
    (hc' : s'.calls i = some c') {n : Nat} (hret : c'.st = .returned (.ok n)) :
    Callers.StoredOtherwise e s acts s' i p := by
  induction hrun generalizing c with
  | nil =>
    rw [hc] at hc'
    cases hc'
    rw [hret] at hst
    simp at hst
  | @cons s a s₁ acts s' _ hstep hrest ih =>
    have h₁ := h.step hstep
    have hp₁ := h.done_mono hstep hp
    have hacts₁ : ∀ a ∈ acts, a ≠ .leave i := fun b hb => hacts b (List.mem_cons_of_mem _ hb)
    rcases Callers.step_call hstep hc (hacts _ List.mem_cons_self) with hsame | ⟨m, st', hmove, hnew, -⟩
    · exact (ih h₁ hsame hst hp₁ hacts₁ hc').cons hstep
    · generalize hst₀ : c.st = st₀ at hmove hst
      generalize hsh : s₁.shared = sh₁ at hmove
      cases hmove with
      | join hq => exact (ih h₁ hnew (.inr ⟨_, rfl⟩) hp₁ hacts₁ hc').cons hstep
      | lead hq =>
        exact ⟨[_], _, _, List.cons_prefix_cons.mpr ⟨rfl, List.nil_prefix⟩,
          .cons trivial hstep .nil, hnew, .inl ⟨_, _, rfl⟩⟩
      | @credited _ q hq =>
        refine ⟨[], s, c, List.nil_prefix, .nil, hc, .inr ⟨q, ?_, hst₀, ?_⟩⟩
        · rintro rfl
          rw [hp] at hq
          cases hq
        · exact h₁.run_done hrest (hsh ▸ hq)
      | retry hq => exact (ih h₁ hnew (.inl rfl) hp₁ hacts₁ hc').cons hstep
      | giveUp hf => cases Callers.run_settled hrest hnew (.inl rfl) hacts₁ hc' hret
      | call => simp at hst
      | unlist => simp at hst
      | publish => simp at hst

/-- The error is the one this call's own `putChunk` ended with on its way through the run, or its
own context's. -/
def Callers.FailedItself (e : Engine) (s : Callers ι) (acts : List (CallersAction ι))
    (s' : Callers ι) (i : ι) (err : Err) : Prop :=
  (∃ f, err = .fault f ∧ s'.ctx i = some f) ∨
    ∃ as s₁ c q, as <+: acts ∧ (callers ι e).Run (fun _ _ => True) s as s₁ ∧ s₁.calls i = some c ∧
      c.st = .putting q (.ret (.error err))

theorem Callers.FailedItself.cons {a : CallersAction ι} {acts : List (CallersAction ι)}
    {s₁ : Callers ι} {i : ι} {err : Err} (hstep : Callers.step e a s = some s₁)
    (h : Callers.FailedItself e s₁ acts s' i err) : Callers.FailedItself e s (a :: acts) s' i err := by
  rcases h with hctx | ⟨as, s₂, c, q, hpre, hrun, hrest⟩
  · exact .inl hctx
  · exact .inr ⟨a :: as, s₂, c, q, List.cons_prefix_cons.mpr ⟨rfl, hpre⟩, .cons trivial hstep hrun, hrest⟩

theorem Callers.step_ctx {a : CallersAction ι} {i : ι} {f : Fault} (hf : s.ctx i = some f)
    (hstep : Callers.step e a s = some s') : s'.ctx i = some f := by
  rcases Callers.step_cases hstep with ⟨j, sha, data, -, -, rfl⟩ | ⟨j, d, res, -, -, -, rfl⟩ |
    ⟨j, g, rfl, rfl⟩ | ⟨j, m, d, sh', st', -, -, -, rfl⟩
  · exact hf
  · exact hf
  · refine (Function.update_of_ne ?_ ..).trans hf
    rintro rfl
    simp only [Callers.step, hf] at hstep
    cases hstep
  · exact hf

theorem Callers.run_ctx {acts : List (CallersAction ι)} {i : ι} {f : Fault}
    (hrun : (callers ι e).Run (fun _ _ => True) s acts s') (hf : s.ctx i = some f) :
    s'.ctx i = some f :=
  hrun.invariant (I := fun s => s.ctx i = some f) (fun _ _ _ hf _ hstep => Callers.step_ctx hf hstep) hf

theorem Callers.returns_own {acts : List (CallersAction ι)}
    (hrun : (callers ι e).Run (fun _ _ => True) s acts s') {i : ι} {c c' : StoreCall} {err : Err}
    (hc : s.calls i = some c)
    (hst : c.st = .entering ∨ (∃ p, c.st = .waiting p) ∨ ∃ p rest, c.st = .putting p rest)
    (hacts : ∀ a ∈ acts, a ≠ .leave i) (hc' : s'.calls i = some c')
    (hret : c'.st = .returned (.error err)) : Callers.FailedItself e s acts s' i err := by
  induction hrun generalizing c with
  | nil =>
    rw [hc] at hc'
    cases hc'
    rw [hret] at hst
    simp at hst
  | @cons s a s₁ acts s' _ hstep hrest ih =>
    have hacts₁ : ∀ a ∈ acts, a ≠ .leave i := fun b hb => hacts b (List.mem_cons_of_mem _ hb)
    rcases Callers.step_call hstep hc (hacts _ List.mem_cons_self) with hsame | ⟨m, st', hmove, hnew, hctx⟩
    · exact (ih hsame hst hacts₁ hc').cons hstep
    · generalize hst₀ : c.st = st₀ at hmove hst
      generalize s₁.shared = sh₁ at hmove
      cases hmove with
      | join => exact (ih hnew (.inr (.inl ⟨_, rfl⟩)) hacts₁ hc').cons hstep
      | lead | call => exact (ih hnew (.inr (.inr ⟨_, _, rfl⟩)) hacts₁ hc').cons hstep
      | retry => exact (ih hnew (.inl rfl) hacts₁ hc').cons hstep
      | credited => cases Callers.run_settled hrest hnew (.inl rfl) hacts₁ hc' hret
      | @giveUp _ _ f hf =>
        cases Callers.run_settled hrest hnew (.inl rfl) hacts₁ hc' hret
        exact .inl ⟨f, rfl, Callers.run_ctx hrest (hctx ▸ hf)⟩
      | @unlist _ q res =>
        cases Callers.run_settled hrest hnew (.inr ⟨q, rfl⟩) hacts₁ hc' hret
        exact .inr ⟨[], s, c, q, List.nil_prefix, .nil, hc, hst₀⟩
      | publish => simp at hst

/-- Over every run from a sound target: whoever has returned nil finds the chunk
and its row there, no two callers run `putChunk` for one hash, a waiter whose
leader failed never returns nil on that leader's account, an error that a call
returns is its own, and with nobody at work the table is empty. -/
theorem coalescing_safe (e : Engine) {t : Target} (hsound : t.Sound) (ctx : ι → Option Fault)
    {acts : List (CallersAction ι)}
    (hrun : (callers ι e).Run (fun _ _ => True) (.initial t ctx) acts s) :
    (∀ i c n, s.calls i = some c → c.st = .returned (.ok n) →
        s.shared.target.Present c.sha ∧ s.shared.target.Indexed c.sha) ∧
      (∀ i j c d p q rest rest', s.calls i = some c → s.calls j = some d →
        c.st = .putting p rest → d.st = .putting q rest' → c.sha = d.sha → i = j) ∧
      (∀ i c p err, s.calls i = some c → c.st = .waiting p → s.shared.done p = some (some err) →
        ∀ acts' s' c' n, (callers ι e).Run (fun _ _ => True) s acts' s' →
          (∀ a ∈ acts', a ≠ .leave i) → s'.calls i = some c' → c'.st = .returned (.ok n) →
          Callers.StoredOtherwise e s acts' s' i p) ∧
      (∀ i c, s.calls i = some c → c.st = .entering ∨ (∃ p, c.st = .waiting p) →
        ∀ acts' s' c' err, (callers ι e).Run (fun _ _ => True) s acts' s' →
          (∀ a ∈ acts', a ≠ .leave i) → s'.calls i = some c' → c'.st = .returned (.error err) →
          Callers.FailedItself e s acts' s' i err) ∧
      ((∀ i c, s.calls i = some c → ∃ res, c.st = .returned res) → s.shared.inflight = ∅) := by
  have h := (Callers.coherent_initial e hsound ctx).run hrun
  refine ⟨?_, ?_, ?_, ?_, h.inflight_empty⟩
  · intro i c n hc hst
    obtain ⟨owner, acct, h⟩ := h
    have hok := h.each i c hc
    unfold StoreCall.Ok at hok
    rw [hst] at hok
    obtain ⟨hidx, hpresent⟩ := hok n rfl
    exact ⟨hpresent.resolve_right id, hidx⟩
  · intro i j c d p q rest rest' hc hd hst hst' hsha
    obtain ⟨owner, acct, h⟩ := h
    exact h.leader_unique hc hd hst hst' hsha
  · intro i c p err hc hst hp acts' s' c' n hrun' hacts hc' hret
    exact h.returns_stored hrun' hc (.inr ⟨p, hst⟩) hp hacts hc' hret
  · intro i c hc hst acts' s' c' err hrun' hacts hc' hret
    exact Callers.returns_own hrun' hc (hst.imp_right .inl) hacts hc' hret

-- Three callers for one stored chunk. The first leads and its index call fails
-- while the second waits; the third takes the lead next, and the second, which
-- tries again, finds itself waiting once more.
def relayTarget : Target where
  chunks := AList.singleton "c0" ⟨[7], 1⟩
  manifests := ∅
  index := AList.singleton "c0" ⟨1, 1⟩

def relayEngine : Engine := newWithOptions (fun _ => "c0") ⟨none, none⟩ ⟨4, "zstd", 0⟩

def relayFail : List (CallersAction (Fin 3)) :=
  [.start 0 "c0" [7], .start 1 "c0" [7], .start 2 "c0" [7], .move 0 (.go .fine),
    .move 1 (.go .fine), .move 0 (.go { fault := some (.other 0) }), .move 0 (.go .fine),
    .move 0 (.go .fine)]

def relayRetry : List (CallersAction (Fin 3)) :=
  [.move 2 (.go .fine), .move 1 (.go .fine), .move 1 (.go .fine), .move 2 (.go .fine),
    .move 2 (.go .fine), .move 2 (.go .fine), .move 1 (.go .fine)]

def relayStart : Callers (Fin 3) := .initial relayTarget fun _ => none

theorem relayTarget_sound : relayTarget.Sound := by
  intro sha h
  have hmem : sha ∈ relayTarget.index := AList.lookup_isSome.mp h
  have hsha : sha = "c0" := by simpa [relayTarget, AList.mem_keys] using hmem
  rw [hsha]
  decide

theorem relayRetry_stays : ∀ a ∈ relayRetry, a ≠ .leave 1 := by
  intro a ha
  simp only [relayRetry, List.mem_cons, List.not_mem_nil, or_false] at ha
  rcases ha with rfl | rfl | rfl | rfl | rfl | rfl | rfl <;> nofun

def StoreState.isPutting : StoreState → Bool
  | .putting _ _ => true
  | _ => false

def relayPutting (s : Callers (Fin 3)) (as : List (CallersAction (Fin 3))) : Bool :=
  match (callers (Fin 3) relayEngine).follow as s with
  | some s₁ => (s₁.calls 1).any fun c => c.st.isPutting
  | none => false

theorem relay_follow : ∃ s s', (callers (Fin 3) relayEngine).follow relayFail relayStart = some s ∧
    (callers (Fin 3) relayEngine).follow relayRetry s = some s' ∧
    s.calls 1 = some ⟨"c0", [7], .waiting 0⟩ ∧
    s.shared.done 0 = some (some (.chunkIndex (.fault (.other 0)))) ∧
    s'.calls 1 = some ⟨"c0", [7], .returned (.ok 0)⟩ ∧
    (relayRetry.inits.all fun as => !relayPutting s as) = true :=
  ⟨_, _, rfl, rfl, rfl, rfl, rfl, rfl⟩

theorem coalescing_safe_relay : ∃ s s', (callers (Fin 3) relayEngine).Run (fun _ _ => True)
    relayStart relayFail s ∧ Callers.StoredOtherwise relayEngine s relayRetry s' 1 0 := by
  obtain ⟨s, s', hfail, hretry, hwait, hdone, hret, -⟩ := relay_follow
  have hrun : (callers (Fin 3) relayEngine).Run (fun _ _ => True) relayStart relayFail s :=
    System.run_of_follow (fun _ _ _ => trivial) hfail
  have hrun' : (callers (Fin 3) relayEngine).Run (fun _ _ => True) s relayRetry s' :=
    System.run_of_follow (fun _ _ _ => trivial) hretry
  have hsafe := coalescing_safe relayEngine relayTarget_sound (fun _ => none) hrun
  exact ⟨s, s', hrun, hsafe.2.2.1 1 _ 0 _ hwait rfl hdone relayRetry s' _ 0 hrun'
    relayRetry_stays hret rfl⟩

/-- A waiter whose leader failed need neither store the chunk itself nor fail: a
third caller may take the lead before it does. -/
theorem waiter_credited_by_third_caller :
    ¬ ∀ (e : Engine) (t : Target) (s s' : Callers (Fin 3)) (acts acts' : List _), t.Sound →
      (callers (Fin 3) e).Run (fun _ _ => True) (.initial t fun _ => none) acts s →
      ∀ i c p err, s.calls i = some c → c.st = .waiting p → s.shared.done p = some (some err) →
        (callers (Fin 3) e).Run (fun _ _ => True) s acts' s' → (∀ a ∈ acts', a ≠ .leave i) →
        ∀ c' res, s'.calls i = some c' → c'.st = .returned res →
          (∃ err', res = .error err') ∨
          ∃ as s₁ c₁ q rest, as <+: acts' ∧ (callers (Fin 3) e).Run (fun _ _ => True) s as s₁ ∧
            s₁.calls i = some c₁ ∧ c₁.st = .putting q rest := by
  intro hall
  obtain ⟨s, s', hfail, hretry, hwait, hdone, hret, hnever⟩ := relay_follow
  have hrun : (callers (Fin 3) relayEngine).Run (fun _ _ => True) relayStart relayFail s :=
    System.run_of_follow (fun _ _ _ => trivial) hfail
  have hrun' : (callers (Fin 3) relayEngine).Run (fun _ _ => True) s relayRetry s' :=
    System.run_of_follow (fun _ _ _ => trivial) hretry
  rcases hall relayEngine relayTarget s s' _ _ relayTarget_sound hrun 1 _ 0 _ hwait rfl hdone
    hrun' relayRetry_stays _ _ hret rfl with ⟨err', herr⟩ | ⟨as, s₁, c₁, q, rest, hpre, hrun₁, hc₁, hst₁⟩
  · cases herr
  · have hnot := List.all_eq_true.mp hnever as ((List.mem_inits as _).mpr hpre)
    simp only [relayPutting, hrun₁.follow_eq, hc₁, Option.any_some, hst₁,
      StoreState.isPutting, Bool.not_true] at hnot
    cases hnot

end ProxBack.Engine
