import ProxBack.Engine.PipelineCount
import Mathlib.Algebra.BigOperators.Fin

/-! However many workers there are and however they are scheduled: when no call fails
and nothing is cancelled, `BackupStream` ends, and its manifest and counters are
those of the serial run. -/
namespace ProxBack.Engine
open Lib Prog
open scoped BigOperators

def StoreState.Within (n : Nat) : StoreState → Prop
  | .returned _ => 1 ≤ n
  | .publishing _ _ => 2 ≤ n
  | .waiting _ => 2 ≤ n
  | .putting _ rest => ∃ m, rest.Within m ∧ m + 3 ≤ n
  | .entering => 9 ≤ n

def Worker.Within (n : Nat) : Worker → Prop
  | .exited => True
  | .idle => 1 ≤ n
  | .recycling _ => 2 ≤ n
  | .recording _ _ => 3 ≤ n
  | .placing _ _ _ | .failing _ _ => 4 ≤ n
  | .storing _ c => ∃ m, c.st.Within m ∧ m + 4 ≤ n
  | .taken _ => 14 ≤ n

def Reader.left : Reader → Nat
  | .finished _ => 0
  | .deciding (some _) => 1
  | .sending _ _ => 2
  | .filling _ => 3
  | .getWait => 4
  | .getAlloc => 5
  | .getTry => 6
  | .head => 7
  | .deciding none => 8

theorem putChunk_within (e : Engine) (sha : Sha) (data : Bytes) :
    (e.putChunk sha data).Within 5 := by
  intro r
  match r with
  | .error err => trivial
  | .ok true => trivial
  | .ok false =>
    intro r
    match r with
    | .error err => trivial
    | .ok (some size) =>
      intro r
      match r with
      | .error err => trivial
      | .ok () => trivial
    | .ok none =>
      intro r
      match r with
      | .error err => trivial
      | .ok () =>
        intro r
        match r with
        | .error err => trivial
        | .ok () =>
          intro r
          match r with
          | .error err => trivial
          | .ok () => trivial

theorem StoreStep.within {e : Engine} {sha : Sha} {data : Bytes} {sh sh' : Shared} {m : StoreMove}
    {st st' : StoreState} (h : StoreStep e sha data none sh m st sh' st')
    (hdone : ∀ p err, sh.done p ≠ some (some err)) {n : Nat} (hn : st.Within n) :
    ∃ n', n' < n ∧ st'.Within n' := by
  cases h with
  | join hp => exact ⟨2, Nat.lt_of_lt_of_le (by decide) hn, le_rfl⟩
  | lead hp => exact ⟨8, hn, 5, putChunk_within e sha data, le_rfl⟩
  | credited hp => exact ⟨1, hn, le_rfl⟩
  | retry hp => exact absurd hp (hdone _ _)
  | giveUp hf => cases hf
  | call x =>
    obtain ⟨m, hm, hle⟩ := hn
    cases m with
    | zero => exact hm.elim
    | succ m => exact ⟨m + 3, by omega, m, hm _, le_rfl⟩
  | unlist =>
    obtain ⟨m, -, hle⟩ := hn
    exact ⟨2, by omega, le_rfl⟩
  | publish => exact ⟨1, hn, le_rfl⟩

namespace Pipeline

variable {w : Nat}

/-- At most `n` steps are left of a stream of `total` units. -/
def Left (total n : Nat) (s : Pipeline w) : Prop :=
  ∃ budget : Fin w → Nat, (∀ i, (s.workers i).Within (budget i)) ∧
    (∑ i, budget i) + 20 * (total - s.seq) + s.reader.left +
      (!s.closed).toNat + s.result.isNone.toNat ≤ n

theorem left_initial (script : List ReadReply) (t : Target) (st : Stats) (total : Nat) :
    (initial none script t st : Pipeline w).Left total (w + 20 * total + 9) := by
  refine ⟨fun _ => 1, fun _ => le_rfl, ?_⟩
  simp [initial, Reader.left]

variable {e : Engine} {name : String} {script : List ReadReply} {units : List Bytes} {t : Target}
  {st : Stats} {K : Nat → Prop} {owner : Nat → Sha} {acct : Fin w → Acct} {credit : Nat → Nat}
  {recorded : Finset Nat} {s s' : Pipeline w} {a : PipelineAction w} {i : Fin w} {total n : Nat}

@[grind =] theorem sum_update (budget : Fin w → Nat) (i : Fin w) (b : Nat) :
    ∑ j, Function.update budget i b j + budget i = ∑ j, budget j + b := by
  rw [Finset.sum_update_of_mem (Finset.mem_univ i),
    Finset.sum_eq_add_sum_sdiff_singleton_of_mem (Finset.mem_univ i) budget]
  omega

theorem Left.control (h : s.Left total n) (hworkers : s'.workers = s.workers)
    (hless : 20 * (total - s'.seq) + s'.reader.left + (!s'.closed).toNat + s'.result.isNone.toNat <
      20 * (total - s.seq) + s.reader.left + (!s.closed).toNat + s.result.isNone.toNat) :
    ∃ m, m < n ∧ s'.Left total m := by
  obtain ⟨budget, hwithin, hle⟩ := h
  refine ⟨_, ?_, budget, ?_, le_rfl⟩
  · omega
  · rw [hworkers]
    exact hwithin

theorem Left.work (h : s.Left total n) {wk : Worker}
    (hworkers : s'.workers = Function.update s.workers i wk) (hseq : s'.seq = s.seq)
    (hreader : s'.reader = s.reader) (hclosed : s'.closed = s.closed)
    (hresult : s'.result = s.result)
    (hwk : ∀ b, (s.workers i).Within b → ∃ b', b' < b ∧ wk.Within b') :
    ∃ m, m < n ∧ s'.Left total m := by
  obtain ⟨budget, hwithin, hle⟩ := h
  obtain ⟨b', hb', hwk'⟩ := hwk _ (hwithin i)
  have hsum := sum_update budget i b'
  refine ⟨_, ?_, Function.update budget i b', ?_, le_rfl⟩
  · rw [hseq, hreader, hclosed, hresult]
    omega
  · intro j
    rw [hworkers]
    by_cases hj : j = i
    · rw [hj, Function.update_self, Function.update_self]
      exact hwk'
    · rw [Function.update_of_ne hj, Function.update_of_ne hj]
      exact hwithin j

/-- The reader gives up twenty steps for the unit it hands over, the worker takes
thirteen of them. -/
theorem Left.handOff (h : s.Left total n) {u : ChunkUnit} {err : Option Err}
    (hr : s.reader = .sending u err) (hi : s.workers i = .idle) (hlt : s.seq < total) :
    ∃ m, m < n ∧
      { s.setWorker i (.taken u) with seq := s.seq + 1, reader := .deciding err }.Left total m := by
  obtain ⟨budget, hwithin, hle⟩ := h
  have hone : 1 ≤ budget i := by
    have hwi := hwithin i
    rw [hi] at hwi
    exact hwi
  have hsum := sum_update budget i (budget i + 13)
  have hdec : (Reader.deciding err).left ≤ 8 := by
    cases err with
    | none => exact le_rfl
    | some err => exact (by decide : 1 ≤ 8)
  refine ⟨_, ?_, Function.update budget i (budget i + 13), ?_, le_rfl⟩
  · rw [hr] at hle
    simp only [Reader.left] at hle
    dsimp only [setWorker]
    omega
  · intro j
    dsimp only [setWorker]
    by_cases hj : j = i
    · rw [hj, Function.update_self, Function.update_self]
      show 14 ≤ budget i + 13
      omega
    · rw [Function.update_of_ne hj, Function.update_of_ne hj]
      exact hwithin j

theorem Left.step (h : s.Left (unitsOf name script).1.length n)
    (hsane : s.Sane (fun _ => False) K e name script owner acct)
    (hcounted : s.Counted e (unitsOf name script).1 t st acct credit recorded)
    (hstep : Step e name s a s') (hcalm : a.Calm) :
    ∃ m, m < n ∧ s'.Left (unitsOf name script).1.length m := by
  have hend : ∀ {f : Fault}, s.ctx ≠ some f := by
    intro f
    rw [hcounted.ctx]
    exact nofun
  cases hstep with
  | callerEnds f hcaller => exact hcalm.elim
  | headCanceled hr hctx => exact absurd hctx hend
  | waitCanceled hr hctx => exact absurd hctx hend
  | sendCanceled hr hctx => exact absurd hctx hend
  | skip hi hctx => exact absurd hctx hend
  | head hr hctx | getNone hr hfree | alloc hr hroom | allocFull hr hroom | fill hr hread hd
  | again hr | ended hr =>
    refine h.control rfl ?_
    simp only [hr, Reader.left]
    omega
  | getFree hr hfree =>
    refine h.control rfl ?_
    rcases hr with hr | hr
    · simp only [hr, Reader.left]
      omega
    · simp only [hr, Reader.left]
      omega
  | @fillNone b err rest hr hread =>
    refine h.control rfl ?_
    cases err with
    | none =>
      -- a read without an error fills the buffer
      have hfull : (readFull s.script chunkSize).1.length = chunkSize := readFull_full (by rw [hread])
      rw [hread] at hfull
      exact absurd hfull.symm (Nat.ne_of_gt chunkSize_pos)
    | some err =>
      simp only [hr, Reader.left]
      omega
  | handOff hr hi =>
    have hlt := List.getElem?_eq_some_iff.mp (hsane.reading.next hr)
    exact h.handOff hr hi hlt.1
  | close hr hclosed =>
    refine h.control rfl ?_
    simp [hclosed]
  | finish hr hres hclosed hall =>
    refine h.control rfl ?_
    simp [hres]
  | exit hi hclosed =>
    refine h.work rfl rfl rfl rfl rfl fun b hb => ?_
    rw [hi] at hb
    exact ⟨0, hb, trivial⟩
  | begin hi hctx =>
    refine h.work rfl rfl rfl rfl rfl fun b hb => ?_
    rw [hi] at hb
    exact ⟨13, hb, 9, le_rfl, le_rfl⟩
  | @store i m u c sh st' hi hst =>
    refine h.work rfl rfl rfl rfl rfl fun b hb => ?_
    rw [hi] at hb
    obtain ⟨k, hk, hle⟩ := hb
    rw [hcounted.ctx] at hst
    obtain ⟨k', hk', hwithin⟩ := hst.within hcounted.done hk
    exact ⟨k' + 4, by omega, k', hwithin, le_rfl⟩
  | storeErr hi hst | storeOk hi hst =>
    refine h.work rfl rfl rfl rfl rfl fun b hb => ?_
    rw [hi] at hb
    obtain ⟨k, hk, hle⟩ := hb
    rw [hst] at hk
    have hone : 1 ≤ k := hk
    exact ⟨4, by omega, le_rfl⟩
  | fail hi hfirst | failAgain hi hfirst =>
    refine h.work rfl rfl rfl rfl rfl fun b hb => ?_
    rw [hi] at hb
    exact ⟨2, Nat.lt_of_lt_of_le (by decide) hb, le_rfl⟩
  | place hi =>
    refine h.work rfl rfl rfl rfl rfl fun b hb => ?_
    rw [hi] at hb
    exact ⟨3, hb, le_rfl⟩
  | record hi =>
    refine h.work rfl rfl rfl rfl rfl fun b hb => ?_
    rw [hi] at hb
    exact ⟨2, hb, le_rfl⟩
  | recycle hi =>
    refine h.work rfl rfl rfl rfl rfl fun b hb => ?_
    rw [hi] at hb
    exact ⟨1, hb, le_rfl⟩

def Stocked (s : Pipeline w) : Prop := s.reader = .getWait → 0 < s.allocated

theorem Stocked.step (h : s.Stocked) (hstep : Step e name s a s') : s'.Stocked := by
  cases hstep with
  | allocFull hr hroom =>
    intro _
    show 0 < s.allocated
    omega
  | _ => first | exact h | exact nofun

theorem workerStep_storing {u : ChunkUnit} {c : StoreCall} {m : StoreMove}
    (hi : s.workers i = .storing u c)
    (h : (storeStep e c.sha c.data s.ctx m s.shared c.st).isSome) :
    (s.workerStep e name i m).isSome := by
  obtain ⟨sha, data, st⟩ := c
  cases st with
  | returned res => cases m <;> cases h
  | _ =>
    simp only [workerStep, hi, Option.isSome_map]
    exact h

theorem leader_moves {u : ChunkUnit} {c : StoreCall} {p : Nat} (hi : s.workers i = .storing u c)
    (hleads : c.st.Leads p) : (s.workerStep e name i (.go .fine)).isSome := by
  apply workerStep_storing hi
  cases hst : c.st with
  | putting q rest => cases rest <;> rfl
  | publishing q res => rfl
  | entering | waiting q | returned res =>
    rw [hst] at hleads
    exact hleads.elim

theorem Sane.worker_moves (h : s.Sane (fun _ => False) K e name script owner acct) {u : ChunkUnit}
    (hu : (s.workers i).unit = some u) :
    ∃ j, (s.workerStep e name j (.go .fine)).isSome := by
  cases hi : s.workers i with
  | idle =>
    rw [hi] at hu
    cases hu
  | exited =>
    rw [hi] at hu
    cases hu
  | taken v =>
    refine ⟨i, ?_⟩
    simp only [workerStep, hi]
    cases s.ctx <;> rfl
  | failing v err =>
    refine ⟨i, ?_⟩
    simp only [workerStep, hi]
    cases s.firstErr <;> rfl
  | placing v sha n | recording v n | recycling v =>
    refine ⟨i, ?_⟩
    simp only [workerStep, hi]
    rfl
  | storing v c =>
    have hok := h.coherent.each i c (by rw [calls, hi]; rfl)
    unfold StoreCall.Ok at hok
    cases hst : c.st with
    | entering =>
      refine ⟨i, workerStep_storing hi ?_⟩
      rw [hst]
      simp only [storeStep]
      cases s.shared.inflight.lookup c.sha <;> rfl
    | putting p rest => exact ⟨i, leader_moves (p := p) hi (by rw [hst]; exact rfl)⟩
    | publishing p res => exact ⟨i, leader_moves (p := p) hi (by rw [hst]; exact rfl)⟩
    | returned res =>
      refine ⟨i, ?_⟩
      obtain ⟨sha, data, st⟩ := c
      cases hst
      simp only [workerStep, hi]
      cases res <;> rfl
    | waiting p =>
      rw [hst] at hok
      cases hdone : s.shared.done p with
      | some v =>
        refine ⟨i, workerStep_storing hi ?_⟩
        rw [hst]
        simp only [storeStep, hdone]
        cases v <;> rfl
      | none =>
        obtain ⟨j, d, hj, hleads⟩ := h.coherent.opened p hok.1 hdone
        unfold calls at hj
        cases hwj : s.workers j with
        | storing x d' =>
          rw [hwj] at hj
          cases hj
          exact ⟨j, leader_moves hwj hleads⟩
        | _ =>
          rw [hwj] at hj
          cases hj

theorem Sane.progress (h : s.Sane (fun _ => False) K e name script owner acct) (hw : 0 < w)
    (hstocked : s.Stocked) (hres : s.result = none) :
    ∃ a : PipelineAction w, a.Calm ∧ (Pipeline.step e name a s).isSome := by
  by_cases hbusy : ∃ i u, (s.workers i).unit = some u
  · obtain ⟨i, u, hu⟩ := hbusy
    obtain ⟨j, hj⟩ := h.worker_moves hu
    exact ⟨.worker j (.go .fine), rfl, hj⟩
  have hrest : ∀ i, s.workers i = .idle ∨ s.workers i = .exited := by
    intro i
    cases hi : s.workers i with
    | idle => exact .inl rfl
    | exited => exact .inr rfl
    | _ => exact absurd ⟨i, _, by rw [hi]; rfl⟩ hbusy
  have hread : (s.readStep name).isSome →
      ∃ a : PipelineAction w, a.Calm ∧ (Pipeline.step e name a s).isSome :=
    fun hr => ⟨.read, trivial, hr⟩
  cases hr : s.reader with
  | head =>
    apply hread
    simp only [readStep, hr]
    cases s.ctx <;> rfl
  | getTry =>
    apply hread
    simp only [readStep, hr]
    cases s.free <;> rfl
  | getAlloc =>
    apply hread
    simp only [readStep, hr]
    split <;> rfl
  | getWait =>
    apply hread
    have hnone : ∀ k, s.held k = none := by
      intro k
      cases k with
      | none =>
        show s.reader.buf = none
        rw [hr]
        rfl
      | some i =>
        show (s.workers i).unit.map ChunkUnit.buf = none
        rcases hrest i with hi | hi <;> rw [hi] <;> rfl
    simp only [readStep, hr]
    cases hfree : s.free with
    | nil => exact absurd hfree (Pool.free_ne_nil h.pooled (hstocked hr) hnone)
    | cons b rest => rfl
  | filling b =>
    apply hread
    simp only [readStep, hr]
    split <;> rfl
  | deciding err =>
    apply hread
    simp only [readStep, hr]
    cases err <;> rfl
  | sending u err =>
    -- the channel is open, so every worker is at it
    rcases hrest ⟨0, hw⟩ with hi | hi
    · refine ⟨.handOff ⟨0, hw⟩, trivial, ?_⟩
      simp only [Pipeline.step, hr, hi]
      rfl
    · obtain ⟨err', hfin⟩ := h.closed (h.exited _ hi)
      rw [hr] at hfin
      cases hfin
  | finished err =>
    cases hclosed : s.closed with
    | false =>
      refine ⟨.close, trivial, ?_⟩
      simp [Pipeline.step, hr, hclosed]
    | true =>
      by_cases hall : ∀ i, s.workers i = .exited
      · refine ⟨.finish, trivial, ?_⟩
        simp only [Pipeline.step, hr, hres]
        rw [if_pos ⟨hclosed, hall⟩]
        rfl
      · obtain ⟨i, hi⟩ := not_forall.mp hall
        refine ⟨.worker i (.go .fine), rfl, ?_⟩
        simp [Pipeline.step, workerStep, (hrest i).resolve_right hi, hclosed]

theorem Sane.returned (h : s.Sane (fun _ => False) (fun _ => True) e name script owner acct)
    (hcounted : s.Counted e (unitsOf name script).1 t st acct credit recorded)
    (hhash : ∀ d, e.hash d ≠ "") (hend : (unitsOf name script).2 = none)
    {r : Except Err DiskManifest} (hres : s.result = some r) :
    s.seq = (unitsOf name script).1.length ∧
      r = .ok ⟨name, (s.chunks.map Chunk.size).sum, s.chunks⟩ := by
  obtain ⟨err, hr, heq, hall⟩ := h.result r hres
  obtain ⟨hseq, herr⟩ := h.reading.finished hr fun f hf => hcounted.reader f (by rw [hr, hf])
  rw [hend] at herr
  have hne : ∀ c ∈ s.chunks, c.sha256 ≠ "" := by
    intro c hc
    obtain ⟨k, hk⟩ := List.getElem?_of_mem hc
    have hlt := (List.getElem?_eq_some_iff.mp hk).1
    obtain ⟨d, -, hd⟩ := h.placed hcounted.firstErr hall trivial
      (Nat.lt_of_lt_of_le hlt h.length_le)
    rw [hk] at hd
    cases hd
    exact hhash d
  rw [hcounted.firstErr, ← herr, streamResult_eq hne] at heq
  exact ⟨hseq, heq⟩

theorem Sane.outcome (h : s.Sane (fun _ => False) (fun _ => True) e name script owner acct)
    (hcounted : s.Counted e (unitsOf name script).1 t st acct credit recorded)
    (hhash : ∀ d, e.hash d ≠ "") (hend : (unitsOf name script).2 = none)
    (hinj : Set.InjOn e.hash {d | d ∈ (unitsOf name script).1})
    {r : Except Err DiskManifest} (hres : s.result = some r) :
    r = .ok ⟨name, (unitsOf name script).1.flatten.length,
        (unitsOf name script).1.map fun d => ⟨e.hash d, d.length⟩⟩ ∧
      s.stats = st.plus (Finset.range (unitsOf name script).1.length)
        (fun k => (unitAt (unitsOf name script).1 k).length)
        (serialCredit e t (unitsOf name script).1) := by
  obtain ⟨hseq, rfl⟩ := h.returned hcounted hhash hend hres
  obtain ⟨-, -, hchunks, hstored, hsize⟩ := h.complete (fun _ _ => trivial) hres
  obtain ⟨-, -, -, hall⟩ := h.result _ hres
  constructor
  · dsimp only at hsize hchunks
    rw [hsize, hchunks]
    rfl
  · have hfair := hcounted.fair hseq fun d hd => (hstored d hd).2.resolve_right id
    rw [hcounted.stats, hcounted.recorded_eq hall, hseq]
    exact hfair.plus_congr (serialCredit_fair fun d hd => ((unitsOf_sizes name script).1 d hd).1)
      hinj st

theorem progress_run (ht : t.Sound) {acts : List (PipelineAction w)}
    (hrun : (backupStream e w name).Run (fun _ a => a.Calm) (initial none script t st) acts s) :
    acts.length ≤ w + 20 * (unitsOf name script).1.length + 9 := by
  refine hrun.length_le (R := fun s n => s.Left (unitsOf name script).1.length n ∧
    ∃ owner acct credit recorded, s.Sane (fun _ => False) (fun _ => True) e name script owner acct ∧
      s.Counted e (unitsOf name script).1 t st acct credit recorded) ?_ ?_
  · rintro a s₁ s₂ n ⟨hleft, owner, acct, credit, recorded, hsane, hcounted⟩ hcalm hstep
    have hcases := step_cases hstep
    obtain ⟨m, hm, hleft'⟩ := hleft.step hsane hcounted hcases hcalm
    obtain ⟨owner', hsane'⟩ := hsane.step hcases (not_skips hcounted.ctx)
    obtain ⟨credit', recorded', hcounted'⟩ := hcounted.step hsane hcases hcalm
    exact ⟨m, hm, hleft', owner', _, credit', recorded', hsane', hcounted'⟩
  · exact ⟨left_initial script t st _, counted_run ht .nil⟩

end Pipeline

/-- Every undisturbed run of any number of workers ends, and when it has ended its
manifest and its counters are those of the serial run, however the stream was cut
into reads. -/
theorem worker_count_independent {w : Nat} (hw : 0 < w) {e : Engine}
    (hhash : ∀ d, e.hash d ≠ "") {name : String} {bytes : Bytes} {script : List ReadReply}
    (hreads : Reads bytes script) (hinj : Set.InjOn e.hash {d | d ∈ (unitsOf name script).1})
    {t : Target} (ht : t.Sound) (st : Stats) (now : Time) {acts : List (PipelineAction w)}
    {s : Pipeline w}
    (hrun : (backupStream e w name).Run (fun _ a => a.Calm) (.initial none script t st) acts s) :
    acts.length ≤ w + 20 * (unitsOf name script).1.length + 9 ∧
      (s.result = none →
        ∃ a : PipelineAction w, a.Calm ∧ (Pipeline.step e name a s).isSome) ∧
      (∀ r, s.result = some r → (r, s.stats) =
        (run (Target.alone now) (e.storeSerial name (unitsOf name script).1 [] st) t).1) ∧
      (run (Target.alone now) (e.storeSerial name (unitsOf name script).1 [] st) t).1.1 =
        .ok ⟨name, bytes.length,
          (unitsOf name script).1.map fun d => ⟨e.hash d, d.length⟩⟩ ∧
      (unitsOf name script).1.flatten = bytes ∧
      (∀ d ∈ (unitsOf name script).1, d ≠ [] ∧ d.length ≤ chunkSize) ∧
      ∀ d ∈ (unitsOf name script).1.dropLast, d.length = chunkSize := by
  obtain ⟨hflat, hend⟩ := unitsOf_reads name hreads
  obtain ⟨hsizes, hfull⟩ := unitsOf_sizes name script
  obtain ⟨owner, acct, credit, recorded, hsane, hcounted⟩ := Pipeline.counted_run ht hrun
  have hserial := run_storeSerial e name (unitsOf name script).1 st now ht
  have hchunks : ∀ c ∈ (unitsOf name script).1.map fun d => (⟨e.hash d, d.length⟩ : Chunk),
      c.sha256 ≠ "" := by
    intro c hc
    obtain ⟨d, -, rfl⟩ := List.mem_map.mp hc
    exact hhash d
  have hok : streamResult name none none
      ((unitsOf name script).1.map fun d => ⟨e.hash d, d.length⟩) =
      .ok ⟨name, bytes.length, (unitsOf name script).1.map fun d => ⟨e.hash d, d.length⟩⟩ := by
    rw [streamResult_eq hchunks, ← hflat, ← sum_sizes e]
    rfl
  refine ⟨Pipeline.progress_run ht hrun, ?_, ?_, ?_, hflat, hsizes, hfull⟩
  · have hstocked : s.Stocked := hrun.invariant (I := Pipeline.Stocked)
      (fun _ _ _ hs _ hstep => hs.step (Pipeline.step_cases hstep)) nofun
    exact hsane.progress hw hstocked
  · intro r hres
    obtain ⟨hr, hstats⟩ := hsane.outcome hcounted hhash hend hinj hres
    rw [hserial, hr, hstats, hok, hflat]
  · rw [hserial]
    exact hok

theorem twoActs_calm : ∀ a ∈ twoReads ++ twoActs, a.Calm := by
  simp [twoReads, twoActs, PipelineAction.Calm, Choice.fine]

theorem worker_count_independent_two : ∃ s : Pipeline 2,
    (∃ r, s.result = some r ∧ (r, s.stats) = (run (Target.alone 0)
      (twoEngine.storeSerial "scsi0" [fullUnit, [7]] [] .zero) ⟨∅, ∅, ∅⟩).1) ∧
    (twoReads ++ twoActs).length ≤ 51 := by
  obtain ⟨s, dm, hfollow, hres, -⟩ := two_stored
  have hrun : (backupStream twoEngine 2 "scsi0").Run (fun _ a => a.Calm) twoStart
      (twoReads ++ twoActs) s :=
    (System.run_of_follow (fun a ha _ => twoActs_calm a (List.mem_append_left _ ha))
      (two_sent twoEngine)).trans
      (System.run_of_follow (fun a ha _ => twoActs_calm a (List.mem_append_right _ ha)) hfollow)
  obtain ⟨hfull, hbyte⟩ := twoEngine_hash
  have hshas : byteSha ≠ zeroSha := by decide
  have hinj : Set.InjOn twoEngine.hash {d | d ∈ (unitsOf "scsi0" twoScript).1} := by
    rw [twoScript_units]
    intro c hc d hd heq
    have hpair : ∀ d, d ∈ ([fullUnit, [7]] : List Bytes) → d = fullUnit ∨ d = [7] := by simp
    rcases hpair c hc with rfl | rfl <;> rcases hpair d hd with rfl | rfl
    · rfl
    · rw [hfull, hbyte] at heq
      exact absurd heq.symm hshas
    · rw [hfull, hbyte] at heq
      exact absurd heq hshas
    · rfl
  have hreads : Reads (fullUnit ++ [7]) twoScript := .more fullUnit (.last [7])
  have hhash : ∀ d, twoEngine.hash d ≠ "" := by
    intro d
    change (if d.head? = some 7 then byteSha else zeroSha) ≠ ""
    split <;> decide
  have hsound : Target.Sound ⟨∅, ∅, ∅⟩ := fun _ h => nomatch h
  have hall := worker_count_independent Nat.two_pos hhash hreads hinj hsound .zero 0 hrun
  rw [twoScript_units] at hall
  exact ⟨s, ⟨_, hres, hall.2.2.1 _ hres⟩, hall.1⟩

end ProxBack.Engine
