import ProxBack.Engine.CoalesceSafe
import ProxBack.Engine.PipelineStep

/-! What holds throughout `BackupStream`, whatever fails and whenever the context
ends: every worker holds a unit of the stream, and every chunk that was placed
is the one of its position, stored. -/
namespace ProxBack.Engine
open Lib Prog

def Worker.pending : Worker → Option Nat
  | .taken u | .storing u _ | .failing u _ | .placing u _ _ => some u.seq
  | _ => none

def chunkOf (e : Engine) (d : Bytes) : Chunk := ⟨e.hash d, d.length⟩

theorem sum_sizes (e : Engine) (units : List Bytes) :
    ((units.map (chunkOf e)).map Chunk.size).sum = (units.flatten.length : Int) := by
  induction units with
  | nil => rfl
  | cons d units ih =>
    rw [List.map_cons, List.map_cons, List.sum_cons, ih, List.flatten_cons, List.length_append,
      Int.natCast_add]
    rfl

namespace Pipeline

variable {w : Nat}

structure UnitOk (units : List Bytes) (s : Pipeline w) (u : ChunkUnit) : Prop where
  lt : u.seq < s.seq
  data : units[u.seq]? = some (s.unitData u)
  length : (s.unitData u).length = u.n

def WorkerOk (stale : Sha → Prop) (e : Engine) (units : List Bytes) (s : Pipeline w) :
    Worker → Prop
  | .idle | .exited => True
  | .taken u | .failing u _ | .recording u _ | .recycling u => s.UnitOk units u
  | .storing u c => s.UnitOk units u ∧ c.data = s.unitData u ∧ c.sha = e.hash (s.unitData u)
  | .placing u sha _ => s.UnitOk units u ∧ sha = e.hash (s.unitData u) ∧
      s.shared.target.Stored stale sha

/-- The invariant. `K` are the positions no worker may skip. -/
structure Sane (stale : Sha → Prop) (K : Nat → Prop) (e : Engine) (name : String)
    (script : List ReadReply) (owner : Nat → Sha) (acct : Fin w → Acct) (s : Pipeline w) :
    Prop where
  pooled : s.Pooled
  reading : s.Reading name script
  coherent : Coherent stale e s.shared s.calls owner acct
  each : ∀ i, s.WorkerOk stale e (unitsOf name script).1 (s.workers i)
  entry : ∀ (k : Nat) (c : Chunk), s.chunks[k]? = some c → c = .zero ∨
    ∃ d, (unitsOf name script).1[k]? = some d ∧ c = chunkOf e d ∧
      s.shared.target.Stored stale (e.hash d)
  length_le : s.chunks.length ≤ s.seq
  tracked : ∀ k : Nat, K k → k < s.seq → s.firstErr ≠ none ∨
    (∃ i, (s.workers i).pending = some k) ∨
    ∃ d, (unitsOf name script).1[k]? = some d ∧ s.chunks[k]? = some (chunkOf e d)
  exited : ∀ i, s.workers i = .exited → s.closed = true
  closed : s.closed = true → ∃ err, s.reader = .finished err
  result : ∀ r, s.result = some r → ∃ err, s.reader = .finished err ∧
    r = streamResult name s.firstErr err s.chunks ∧ ∀ i, s.workers i = .exited

theorem sane_initial {stale : Sha → Prop} (K : Nat → Prop) (e : Engine) (name : String)
    (caller : Option Fault) (script : List ReadReply) {t : Target} (ht : t.SoundBut stale)
    (st : Stats) :
    Sane stale K e name script (fun _ => "") (fun _ => .unknown)
      (initial caller script t st : Pipeline w) where
  pooled := pooled_initial caller script t st
  reading := reading_initial name caller script t st
  coherent := coherent_initial e ht
  each _ := trivial
  entry _ _ h := by cases h
  length_le := le_rfl
  tracked _ _ h := absurd h (Nat.not_lt_zero _)
  exited _ h := nomatch h
  closed h := nomatch h
  result _ h := nomatch h

variable {stale : Sha → Prop} {K : Nat → Prop} {e : Engine} {name : String}
  {script : List ReadReply} {owner : Nat → Sha} {acct : Fin w → Acct} {s s' : Pipeline w}
  {a : PipelineAction w} {units : List Bytes} {i : Fin w}

theorem UnitOk.frame {u : ChunkUnit} (h : s.UnitOk units u) (hseq : s.seq ≤ s'.seq)
    (hmem : s'.mem u.buf = s.mem u.buf) : s'.UnitOk units u := by
  have hdata : s'.unitData u = s.unitData u := by rw [unitData, unitData, hmem]
  constructor
  · exact Nat.lt_of_lt_of_le h.lt hseq
  · rw [hdata]
    exact h.data
  · rw [hdata]
    exact h.length

theorem WorkerOk.frame {wk : Worker} (h : s.WorkerOk stale e units wk) (hseq : s.seq ≤ s'.seq)
    (hmem : ∀ u, wk.unit = some u → s'.mem u.buf = s.mem u.buf)
    (htarget : ∀ sha, s.shared.target.Stored stale sha → s'.shared.target.Stored stale sha) :
    s'.WorkerOk stale e units wk := by
  cases wk with
  | idle => trivial
  | exited => trivial
  | taken u => exact UnitOk.frame h hseq (hmem u rfl)
  | failing u err => exact UnitOk.frame h hseq (hmem u rfl)
  | recording u n => exact UnitOk.frame h hseq (hmem u rfl)
  | recycling u => exact UnitOk.frame h hseq (hmem u rfl)
  | storing u c =>
    have hdata : s'.unitData u = s.unitData u := by rw [unitData, unitData, hmem u rfl]
    refine ⟨h.1.frame hseq (hmem u rfl), ?_⟩
    rw [hdata]
    exact h.2
  | placing u sha n =>
    have hdata : s'.unitData u = s.unitData u := by rw [unitData, unitData, hmem u rfl]
    refine ⟨h.1.frame hseq (hmem u rfl), ?_⟩
    rw [hdata]
    exact ⟨h.2.1, htarget sha h.2.2⟩

theorem WorkerOk.unitOk {wk : Worker} {u : ChunkUnit} (h : s.WorkerOk stale e units wk)
    (hu : wk.unit = some u) : s.UnitOk units u := by
  cases wk with
  | idle => cases hu
  | exited => cases hu
  | taken u => cases hu; exact h
  | failing u err => cases hu; exact h
  | recording u n => cases hu; exact h
  | recycling u => cases hu; exact h
  | storing u c => cases hu; exact h.1
  | placing u sha n => cases hu; exact h.1

theorem getElem?_place {chunks : List Chunk} {seq k : Nat} {c : Chunk} :
    (place chunks seq c)[k]? =
      if k = seq then some c
      else if k < chunks.length then chunks[k]?
      else if k < seq then some .zero else none := by
  unfold place
  rw [List.getElem?_set]
  have hlen : (chunks ++ List.replicate (seq + 1 - chunks.length) Chunk.zero).length =
      max chunks.length (seq + 1) := by
    rw [List.length_append, List.length_replicate]
    omega
  by_cases hk : k = seq
  · rw [if_pos hk.symm, if_pos hk, hlen, if_pos (by omega)]
  · rw [if_neg (fun h => hk h.symm), if_neg hk]
    by_cases hin : k < chunks.length
    · rw [if_pos hin, List.getElem?_append_left hin]
    · rw [if_neg hin, List.getElem?_append_right (by omega), List.getElem?_replicate]
      by_cases hlt : k < seq
      · rw [if_pos (by omega), if_pos hlt]
      · rw [if_neg (by omega), if_neg hlt]

@[simp] theorem length_place (chunks : List Chunk) (seq : Nat) (c : Chunk) :
    (place chunks seq c).length = max chunks.length (seq + 1) := by
  unfold place
  rw [List.length_set, List.length_append, List.length_replicate]
  omega

theorem Sane.control (h : s.Sane stale K e name script owner acct)
    (hstep : Step e name s a s') (hworkers : s'.workers = s.workers)
    (hshared : s'.shared = s.shared) (hchunks : s'.chunks = s.chunks)
    (hfirst : s'.firstErr = s.firstErr) (hseq : s'.seq = s.seq)
    (hmem : ∀ j u, (s.workers j).unit = some u → s'.mem u.buf = s.mem u.buf)
    (hkeep : s.closed = true → s'.closed = true)
    (hclosed : s'.closed = true → ∃ err, s'.reader = .finished err)
    (hresult : ∀ r, s'.result = some r → ∃ err, s'.reader = .finished err ∧
      r = streamResult name s'.firstErr err s'.chunks ∧ ∀ i, s'.workers i = .exited) :
    s'.Sane stale K e name script owner acct where
  pooled := h.pooled.step hstep
  reading := h.reading.step hstep
  coherent := by
    have hcalls : s'.calls = s.calls := by
      funext j
      rw [calls, calls, hworkers]
    rw [hshared, hcalls]
    exact h.coherent
  each j := by
    rw [hworkers]
    exact (h.each j).frame hseq.ge (hmem j) fun sha => by rw [hshared]; exact id
  entry := by
    rw [hchunks, hshared]
    exact h.entry
  length_le := by
    rw [hchunks, hseq]
    exact h.length_le
  tracked := by
    rw [hfirst, hchunks, hseq, hworkers]
    exact h.tracked
  exited j hj := by
    rw [hworkers] at hj
    exact hkeep (h.exited j hj)
  closed := hclosed
  result := hresult

theorem Sane.running (h : s.Sane stale K e name script owner acct)
    (hr : ∀ err, s.reader ≠ .finished err) : s.closed = false ∧ s.result = none := by
  constructor
  · apply Bool.eq_false_iff.mpr
    intro hc
    obtain ⟨err, herr⟩ := h.closed hc
    exact hr err herr
  · cases hres : s.result with
    | none => rfl
    | some r =>
      obtain ⟨err, herr, -⟩ := h.result r hres
      exact absurd herr (hr err)

theorem Sane.read (h : s.Sane stale K e name script owner acct)
    (hstep : Step e name s a s') (hr : ∀ err, s.reader ≠ .finished err)
    (hworkers : s'.workers = s.workers) (hshared : s'.shared = s.shared)
    (hchunks : s'.chunks = s.chunks) (hfirst : s'.firstErr = s.firstErr) (hseq : s'.seq = s.seq)
    (hclosed : s'.closed = s.closed) (hresult : s'.result = s.result)
    (hmem : ∀ j u, (s.workers j).unit = some u → s'.mem u.buf = s.mem u.buf) :
    s'.Sane stale K e name script owner acct := by
  obtain ⟨hopen, hnone⟩ := h.running hr
  apply h.control hstep hworkers hshared hchunks hfirst hseq hmem
  · rw [hclosed]
    exact id
  · rw [hclosed, hopen]
    exact nofun
  · rw [hresult, hnone]
    exact nofun

theorem Sane.work (h : s.Sane stale K e name script owner acct) (hstep : Step e name s a s')
    {wk : Worker} (hworkers : s'.workers = Function.update s.workers i wk)
    (hreader : s'.reader = s.reader) (hclosed : s'.closed = s.closed)
    (hresult : s'.result = s.result) (hseq : s'.seq = s.seq) (hmem : s'.mem = s.mem)
    (hlive : s.workers i ≠ .exited) (hnew : wk = .exited → s.closed = true)
    {owner' : Nat → Sha} {acct' : Fin w → Acct}
    (hcoherent : Coherent stale e s'.shared s'.calls owner' acct')
    (htarget : ∀ sha, s.shared.target.Stored stale sha → s'.shared.target.Stored stale sha)
    (hwk : s'.WorkerOk stale e (unitsOf name script).1 wk)
    (hentry : ∀ (k : Nat) (c : Chunk), s'.chunks[k]? = some c → c = .zero ∨
      ∃ d, (unitsOf name script).1[k]? = some d ∧ c = chunkOf e d ∧
        s'.shared.target.Stored stale (e.hash d))
    (hlength : s'.chunks.length ≤ s'.seq)
    (hfirst : s.firstErr ≠ none → s'.firstErr ≠ none)
    (hplaced : ∀ (k : Nat) (d : Bytes), (unitsOf name script).1[k]? = some d →
      s.chunks[k]? = some (chunkOf e d) → s'.chunks[k]? = some (chunkOf e d))
    (hpending : ∀ k : Nat, K k → (s.workers i).pending = some k → wk.pending = some k ∨
      s'.firstErr ≠ none ∨ ∃ d, (unitsOf name script).1[k]? = some d ∧
        s'.chunks[k]? = some (chunkOf e d)) :
    s'.Sane stale K e name script owner' acct' where
  pooled := h.pooled.step hstep
  reading := h.reading.step hstep
  coherent := hcoherent
  each j := by
    rw [hworkers]
    by_cases hj : j = i
    · subst hj
      rw [Function.update_self]
      exact hwk
    · rw [Function.update_of_ne hj]
      exact (h.each j).frame hseq.ge (fun u _ => by rw [hmem]) htarget
  entry := hentry
  length_le := hlength
  tracked k hk hlt := by
    rw [hseq] at hlt
    rcases h.tracked k hk hlt with hf | ⟨j, hj⟩ | ⟨d, hd, hc⟩
    · exact .inl (hfirst hf)
    · by_cases hji : j = i
      · subst hji
        rcases hpending k hk hj with hp | hf | hd
        · exact .inr (.inl ⟨j, by rw [hworkers, Function.update_self]; exact hp⟩)
        · exact .inl hf
        · exact .inr (.inr hd)
      · exact .inr (.inl ⟨j, by rw [hworkers, Function.update_of_ne hji]; exact hj⟩)
    · exact .inr (.inr ⟨d, hd, hplaced k d hd hc⟩)
  exited j hj := by
    rw [hclosed]
    rw [hworkers] at hj
    by_cases hji : j = i
    · subst hji
      rw [Function.update_self] at hj
      exact hnew hj
    · rw [Function.update_of_ne hji] at hj
      exact h.exited j hj
  closed := by
    rw [hclosed, hreader]
    exact h.closed
  result r hr := by
    rw [hresult] at hr
    obtain ⟨-, -, -, hall⟩ := h.result r hr
    exact absurd (hall i) hlive

def nextAcct (s : Pipeline w) (acct : Fin w → Acct) : PipelineAction w → Fin w → Acct
  | .worker i m =>
    match (s.workers i).call with
    | some c => Function.update acct i (Acct.after s.shared c m (acct i))
    | none => acct
  | _ => acct

@[grind =] theorem nextAcct_same {m : StoreMove} (h : (s.workers i).call = none) :
    s.nextAcct acct (.worker i m) = acct := by
  rw [nextAcct, h]

theorem nextAcct_call {m : StoreMove} {u : ChunkUnit} {c : StoreCall}
    (h : s.workers i = .storing u c) :
    s.nextAcct acct (.worker i m) = Function.update acct i (Acct.after s.shared c m (acct i)) := by
  rw [nextAcct, h]
  rfl

theorem nextAcct_returned {m : StoreMove} {u : ChunkUnit} {c : StoreCall} {res : Except Err Nat}
    (h : s.workers i = .storing u c) (hst : c.st = .returned res) :
    s.nextAcct acct (.worker i m) = acct := by
  have hafter : Acct.after s.shared c m (acct i) = acct i := by
    unfold Acct.after
    rw [hst]
  rw [nextAcct_call h, hafter]
  exact Function.update_eq_self i acct

theorem Sane.calls_same (h : s.Sane stale K e name script owner acct) {wk : Worker}
    {m : StoreMove} (hcall : (s.workers i).call = none) (hwk : wk.call = none) :
    Coherent stale e s.shared (s.setWorker i wk).calls owner (s.nextAcct acct (.worker i m)) := by
  rw [nextAcct_same hcall, calls_setWorker_same (hwk.trans hcall.symm)]
  exact h.coherent

theorem Sane.workOnly (h : s.Sane stale K e name script owner acct) {wk : Worker}
    (hstep : Step e name s a (s.setWorker i wk)) (hlive : s.workers i ≠ .exited)
    (hnew : wk = .exited → s.closed = true) {acct' : Fin w → Acct}
    (hcoherent : Coherent stale e s.shared (s.setWorker i wk).calls owner acct')
    (hwk : s.WorkerOk stale e (unitsOf name script).1 wk)
    (hpending : ∀ k, K k → (s.workers i).pending = some k →
      wk.pending = some k ∨ s.firstErr ≠ none) :
    (s.setWorker i wk).Sane stale K e name script owner acct' := by
  apply h.work hstep rfl rfl rfl rfl rfl rfl hlive hnew hcoherent (fun _ => id)
  · exact hwk.frame le_rfl (fun _ _ => rfl) (fun _ => id)
  · exact h.entry
  · exact h.length_le
  · exact id
  · exact fun _ _ _ => id
  · intro k hk hp
    rcases hpending k hk hp with hp | hf
    · exact .inl hp
    · exact .inr (.inl hf)

theorem Sane.leave (h : s.Sane stale K e name script owner acct) {u : ChunkUnit} {c : StoreCall}
    {res : Except Err Nat} (hi : s.workers i = .storing u c) (hst : c.st = .returned res) :
    Coherent stale e s.shared (Function.update s.calls i none) owner acct := by
  have hc : s.calls i = some c := by rw [calls, hi]; rfl
  have hleft : Coherent stale e s.shared (Function.update s.calls i none) owner
      (Function.update acct i (acct i)) := by
    apply h.coherent.replace
    · intro d hd p
      rw [hc] at hd
      cases hd
      rw [hst]
      exact id
    · simp
  rwa [Function.update_eq_self] at hleft

def Skips (K : Nat → Prop) (s : Pipeline w) (a : PipelineAction w) : Prop :=
  ∃ i m u, a = .worker i m ∧ s.workers i = .taken u ∧ s.ctx ≠ none ∧ K u.seq

theorem Sane.stepWorker (h : s.Sane stale K e name script owner acct) {m : StoreMove}
    (hstep : Step e name s (.worker i m) s') (hskip : ¬ s.Skips K (.worker i m)) :
    ∃ owner', s'.Sane stale K e name script owner' (s.nextAcct acct (.worker i m)) := by
  have hstep' := hstep
  have hok := h.each i
  cases hstep with
  | exit hi hclosed =>
    refine ⟨owner, h.workOnly hstep' (by rw [hi]; simp) (fun _ => hclosed)
      (h.calls_same (by rw [hi]; rfl) rfl) trivial ?_⟩
    rw [hi]
    rintro _ _ ⟨⟩
  | @skip _ _ u f hi hctx =>
    rw [hi] at hok
    refine ⟨owner, h.workOnly hstep' (by rw [hi]; simp) (by simp)
      (h.calls_same (by rw [hi]; rfl) rfl) hok ?_⟩
    intro k hk hp
    rw [hi] at hp
    cases hp
    exact absurd ⟨i, m, u, rfl, hi, by rw [hctx]; simp, hk⟩ hskip
  | @begin _ _ u hi hctx =>
    rw [hi] at hok
    refine ⟨owner, h.workOnly hstep' (by rw [hi]; simp) (by simp) ?_ ⟨hok, rfl, rfl⟩ ?_⟩
    · have hnone : s.calls i = none := by rw [calls, hi]; rfl
      have hbegun : Coherent stale e s.shared (Function.update s.calls i
          (some ⟨e.hash (s.unitData u), s.unitData u, .entering⟩)) owner
          (Function.update acct i (acct i)) := by
        apply h.coherent.replace
        · intro c hc
          rw [hnone] at hc
          cases hc
        · intro c hc
          cases hc
          exact ⟨fun _ => id, trivial⟩
      rw [Function.update_eq_self] at hbegun
      rw [nextAcct_same (by rw [hi]; rfl), calls_setWorker]
      exact hbegun
    · intro k _ hp
      rw [hi] at hp
      exact .inl hp
  | @store _ _ u c sh st hi hst =>
    rw [hi] at hok
    have hc : s.calls i = some c := by rw [calls, hi]; rfl
    obtain ⟨owner', hmoved⟩ := h.coherent.move hc hst
    have hext := h.coherent.extends hc hst
    refine ⟨owner', h.work hstep' rfl rfl rfl rfl rfl rfl (by rw [hi]; simp) (by simp) ?_
      (fun sha => hext.stored) ?_ ?_ h.length_le id (fun _ _ _ => id) ?_⟩
    · rw [nextAcct_call hi]
      have hcalls := calls_setWorker s i (.storing u { c with st := st })
      exact hcalls ▸ hmoved
    · exact ⟨hok.1.frame le_rfl rfl, hok.2⟩
    · intro k d hd
      refine (h.entry k d hd).imp_right ?_
      rintro ⟨b, hb, hbd, hs⟩
      exact ⟨b, hb, hbd, hext.stored hs⟩
    · intro k _ hp
      rw [hi] at hp
      exact .inl hp
  | @storeErr _ _ u c err hi hst =>
    rw [hi] at hok
    refine ⟨owner, h.workOnly hstep' (by rw [hi]; simp) (by simp) ?_ hok.1 ?_⟩
    · rw [nextAcct_returned hi hst, calls_setWorker]
      exact h.leave hi hst
    · intro k _ hp
      rw [hi] at hp
      exact .inl hp
  | @storeOk _ _ u c n hi hst =>
    rw [hi] at hok
    have hstored := h.coherent.each i c (by rw [calls, hi]; rfl)
    unfold StoreCall.Ok at hstored
    rw [hst] at hstored
    refine ⟨owner, h.workOnly hstep' (by rw [hi]; simp) (by simp) ?_
      ⟨hok.1, hok.2.2, hstored n rfl⟩ ?_⟩
    · rw [nextAcct_returned hi hst, calls_setWorker]
      exact h.leave hi hst
    · intro k _ hp
      rw [hi] at hp
      exact .inl hp
  | @fail _ _ u err hi hfirst =>
    rw [hi] at hok
    refine ⟨owner, h.work hstep' rfl rfl rfl rfl rfl rfl (by rw [hi]; simp) (by simp)
      (h.calls_same (by rw [hi]; rfl) rfl) (fun _ => id) (UnitOk.frame hok le_rfl rfl) h.entry h.length_le
      (fun _ => (by simp)) (fun _ _ _ => id) ?_⟩
    exact fun _ _ _ => .inr (.inl (by simp))
  | @failAgain _ _ u err err' hi hfirst =>
    rw [hi] at hok
    refine ⟨owner, h.workOnly hstep' (by rw [hi]; simp) (by simp)
      (h.calls_same (by rw [hi]; rfl) rfl) hok ?_⟩
    intro k _ _
    rw [hfirst]
    exact .inr (by simp)
  | @place _ _ u sha n hi =>
    rw [hi] at hok
    obtain ⟨hunit, hsha, hstored⟩ := hok
    have hchunk : (⟨sha, u.n⟩ : Chunk) = chunkOf e (s.unitData u) := by
      rw [chunkOf, hsha, hunit.length]
    refine ⟨owner, h.work hstep' rfl rfl rfl rfl rfl rfl (by rw [hi]; simp) (by simp)
      (h.calls_same (by rw [hi]; rfl) rfl) (fun _ => id) (hunit.frame le_rfl rfl) ?_ ?_ id ?_ ?_⟩
    · intro k c hc
      dsimp only at hc
      rw [getElem?_place] at hc
      split at hc
      · rename_i hk
        cases hc
        rw [hsha] at hstored
        exact .inr ⟨s.unitData u, hk ▸ hunit.data, hchunk, hstored⟩
      · split at hc
        · exact h.entry k c hc
        · split at hc
          · cases hc
            exact .inl rfl
          · cases hc
    · dsimp only
      rw [length_place]
      exact max_le h.length_le hunit.lt
    · intro k d hd hc
      dsimp only
      rw [getElem?_place]
      split
      · rename_i hk
        rw [hk, hunit.data] at hd
        cases hd
        rw [hchunk]
      · have hlt : k < s.chunks.length := (List.getElem?_eq_some_iff.mp hc).1
        rw [if_pos hlt]
        exact hc
    · intro k _ hp
      rw [hi] at hp
      cases hp
      refine .inr (.inr ⟨s.unitData u, hunit.data, ?_⟩)
      dsimp only
      rw [getElem?_place, if_pos rfl, hchunk]
  | @record _ _ u n hi =>
    rw [hi] at hok
    refine ⟨owner, h.work hstep' rfl rfl rfl rfl rfl rfl (by rw [hi]; simp) (by simp)
      (h.calls_same (by rw [hi]; rfl) rfl) (fun _ => id) (UnitOk.frame hok le_rfl rfl) h.entry h.length_le
      id (fun _ _ _ => id) ?_⟩
    rw [hi]
    rintro _ _ ⟨⟩
  | @recycle _ _ u hi =>
    refine ⟨owner, h.work hstep' rfl rfl rfl rfl rfl rfl (by rw [hi]; simp) (by simp)
      (h.calls_same (by rw [hi]; rfl) rfl) (fun _ => id) trivial h.entry h.length_le
      id (fun _ _ _ => id) ?_⟩
    rw [hi]
    rintro _ _ ⟨⟩

theorem Sane.handOff (h : s.Sane stale K e name script owner acct) {u : ChunkUnit}
    {err : Option Err} (hr : s.reader = .sending u err) (hi : s.workers i = .idle) :
    { s.setWorker i (.taken u) with seq := s.seq + 1, reader := .deciding err }.Sane
      stale K e name script owner acct := by
  have hstep : Step e name s (.handOff i)
      { s.setWorker i (.taken u) with seq := s.seq + 1, reader := .deciding err } := .handOff hr hi
  obtain ⟨hopen, hnone⟩ := h.running (by rw [hr]; exact nofun)
  obtain ⟨hseq, hlength⟩ := h.reading.sending u err hr
  have hother : ∀ j, j ≠ i → Function.update s.workers i (.taken u) j = s.workers j :=
    fun j hj => Function.update_of_ne hj ..
  constructor
  · exact h.pooled.step hstep
  · exact h.reading.step hstep
  · have hcalls : (s.setWorker i (.taken u)).calls = s.calls :=
      calls_setWorker_same (by rw [hi]; rfl)
    exact hcalls ▸ h.coherent
  · intro j
    by_cases hj : j = i
    · subst hj
      simp only [setWorker, Function.update_self]
      refine ⟨?_, ?_, hlength⟩
      · rw [hseq]
        exact Nat.lt_succ_self _
      · rw [hseq]
        exact h.reading.next hr
    · simp only [setWorker, hother j hj]
      exact (h.each j).frame (Nat.le_succ _) (fun _ _ => rfl) (fun _ => id)
  · exact h.entry
  · exact Nat.le_succ_of_le h.length_le
  · intro k hk hlt
    by_cases hks : k = s.seq
    · refine .inr (.inl ⟨i, ?_⟩)
      simp only [setWorker, Function.update_self, Worker.pending, hseq, hks]
    · have hold := h.tracked k hk (by dsimp only [setWorker] at hlt; omega)
      refine hold.imp_right (Or.imp_left ?_)
      rintro ⟨j, hj⟩
      have hji : j ≠ i := by
        rintro rfl
        rw [hi] at hj
        cases hj
      refine ⟨j, ?_⟩
      simp only [setWorker, hother j hji]
      exact hj
  · intro j hj
    by_cases hji : j = i
    · subst hji
      simp only [setWorker, Function.update_self] at hj
      cases hj
    · simp only [setWorker, hother j hji] at hj
      exact h.exited j hj
  · intro hclosed
    rw [show s.closed = true from hclosed] at hopen
    cases hopen
  · intro r hres
    rw [show s.result = some r from hres] at hnone
    cases hnone

theorem Sane.step (h : s.Sane stale K e name script owner acct) (hstep : Step e name s a s')
    (hskip : ¬ s.Skips K a) :
    ∃ owner', s'.Sane stale K e name script owner' (s.nextAcct acct a) := by
  have hstep' := hstep
  cases hstep with
  | callerEnds f hcaller =>
    exact ⟨owner, h.control hstep' rfl rfl rfl rfl rfl (fun _ _ _ => rfl) id h.closed h.result⟩
  | headCanceled hr hctx | head hr hctx | getNone hr hfree | alloc hr hroom | allocFull hr hroom
  | fillNone hr hread | again hr | ended hr | waitCanceled hr hctx | sendCanceled hr hctx =>
    refine ⟨owner, h.read hstep' (by rw [hr]; exact nofun) rfl rfl rfl rfl rfl rfl rfl ?_⟩
    intro j u _
    first | rfl | exact congrFun (Function.update_eq_self _ _) _
  | getFree hr hfree =>
    refine ⟨owner, h.read hstep' ?_ rfl rfl rfl rfl rfl rfl rfl (fun _ _ _ => rfl)⟩
    rcases hr with hr | hr <;> rw [hr] <;> exact nofun
  | @fill b d err rest hr hread hd =>
    refine ⟨owner, h.read hstep' (by rw [hr]; exact nofun) rfl rfl rfl rfl rfl rfl rfl ?_⟩
    intro j u hu
    have hne : u.buf ≠ b := by
      intro hb
      have hj : s.held (some j) = some b := by
        show (s.workers j).unit.map ChunkUnit.buf = some b
        rw [hu, ← hb]
        rfl
      have hreader : s.held none = some b := by
        show s.reader.buf = some b
        rw [hr]
        rfl
      exact absurd (h.pooled.single _ _ b hj hreader) nofun
    exact Function.update_of_ne hne ..
  | handOff hr hi => exact ⟨owner, h.handOff hr hi⟩
  | close hr hclosed =>
    refine ⟨owner, h.control hstep' rfl rfl rfl rfl rfl (fun _ _ _ => rfl) (fun _ => rfl)
      (fun _ => ⟨_, hr⟩) h.result⟩
  | finish hr hres hclosed hall =>
    refine ⟨owner, h.control hstep' rfl rfl rfl rfl rfl (fun _ _ _ => rfl) id h.closed ?_⟩
    intro r hr'
    cases hr'
    exact ⟨_, hr, rfl, hall⟩
  | exit hi hclosed => exact h.stepWorker hstep' hskip
  | skip hi hctx => exact h.stepWorker hstep' hskip
  | begin hi hctx => exact h.stepWorker hstep' hskip
  | store hi hst => exact h.stepWorker hstep' hskip
  | storeErr hi hst => exact h.stepWorker hstep' hskip
  | storeOk hi hst => exact h.stepWorker hstep' hskip
  | fail hi hfirst => exact h.stepWorker hstep' hskip
  | failAgain hi hfirst => exact h.stepWorker hstep' hskip
  | place hi => exact h.stepWorker hstep' hskip
  | record hi => exact h.stepWorker hstep' hskip
  | recycle hi => exact h.stepWorker hstep' hskip

theorem sane_run {caller : Option Fault} {t : Target} (ht : t.SoundBut stale) {st : Stats}
    {acts : List (PipelineAction w)}
    (hrun : (backupStream e w name).Run (fun s a => ¬ s.Skips K a)
      (initial caller script t st) acts s) :
    ∃ owner acct, s.Sane stale K e name script owner acct := by
  apply hrun.invariant (I := fun s => ∃ owner acct, s.Sane stale K e name script owner acct)
  · intro a s₁ s₂ hsane hskip hstep
    obtain ⟨owner, acct, hsane⟩ := hsane
    obtain ⟨owner', hsane'⟩ := hsane.step (step_cases hstep) hskip
    exact ⟨owner', _, hsane'⟩
  · exact ⟨_, _, sane_initial K e name caller script ht st⟩

end Pipeline

end ProxBack.Engine
