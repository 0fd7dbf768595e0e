import ProxBack.Engine.WorkerCount

/-! The read buffers of `BackupStream`: how many there are, who has which, and why nobody waits for
one for ever. -/
namespace ProxBack.Engine
open Lib

namespace Pipeline

variable {w : Nat} {e : Engine} {name : String} {s s' : Pipeline w} {a : PipelineAction w}

/-- Every buffer has the size it was made with, so `put` takes it for its capacity. -/
def Sized (s : Pipeline w) : Prop := ∀ b, (s.mem b).length = chunkSize

theorem Sized.step (h : s.Sized) (hstep : Step e name s a s') : s'.Sized := by
  cases hstep with
  | @fill b d err rest hr hread hd =>
    have hle : d.length ≤ chunkSize := by
      have hle := readFull_le s.script chunkSize
      rwa [hread] at hle
    intro c
    by_cases hc : c = b
    · subst hc
      show (Function.update s.mem c (d ++ (s.mem c).drop d.length) c).length = chunkSize
      rw [Function.update_self, List.length_append, List.length_drop, h c]
      omega
    · show (Function.update s.mem b (d ++ (s.mem b).drop d.length) c).length = chunkSize
      rw [Function.update_of_ne hc]
      exact h c
  | @fillNone b err rest hr hread =>
    intro c
    show (Function.update s.mem b (s.mem b) c).length = chunkSize
    rw [Function.update_eq_self]
    exact h c
  | _ => exact h

theorem Step.mem_eq {b : Nat} (hstep : Step e name s a s') (hb : s.reader ≠ .filling b) :
    s'.mem b = s.mem b := by
  cases hstep with
  | @fill c d err rest hr hread hd =>
    have hne : b ≠ c := by
      rintro rfl
      exact hb hr
    exact Function.update_of_ne hne _ _
  | @fillNone c err rest hr hread => exact congrFun (Function.update_eq_self c s.mem) b
  | _ => rfl

/-- The reader stands at one of its two selects and neither the free list nor a worker is ready. -/
structure Waits (e : Engine) (name : String) (s : Pipeline w) : Prop where
  reader : s.reader = .getWait ∨ ∃ u err, s.reader = .sending u err
  read : step e name .read s = none
  handOff : ∀ i, step e name (.handOff i) s = none

theorem not_waits (hpool : s.Pooled) (hstocked : s.Stocked) (hw : 0 < w)
    (hidle : ∀ i, s.workers i = .idle) : ¬ s.Waits e name := by
  intro hwaits
  rcases hwaits.reader with hr | ⟨u, err, hr⟩
  · have hnone : ∀ k, s.held k = none := by
      intro k
      cases k with
      | none =>
        show s.reader.buf = none
        rw [hr]
        rfl
      | some i =>
        show (s.workers i).unit.map ChunkUnit.buf = none
        rw [hidle i]
        rfl
    obtain ⟨b, rest, hfree⟩ := List.exists_cons_of_ne_nil (hpool.free_ne_nil (hstocked hr) hnone)
    have hread : s.readStep name = none := hwaits.read
    unfold readStep at hread
    rw [hr] at hread
    dsimp only at hread
    rw [hfree] at hread
    cases hread
  · have hoff := hwaits.handOff ⟨0, hw⟩
    unfold step at hoff
    dsimp only at hoff
    rw [hr, hidle] at hoff
    cases hoff

/-- What the pool of read buffers is at every moment. The party `none` is the reader and `some i`
the `i`th worker. -/
structure PoolExact (e : Engine) (name : String) (s : Pipeline w) : Prop where
  bounded : s.allocated ≤ w + 1
  once : s.free.Nodup
  somewhere : ∀ b, b < s.allocated ↔ b ∈ s.free ∨ ∃ k, s.held k = some b
  either : ∀ b ∈ s.free, ∀ k, s.held k ≠ some b
  exclusive : ∀ b k l, s.held k = some b → s.held l = some b → k = l
  sized : s.Sized
  kept : ∀ k b, s.held k = some b → s.putBuf b = s.free ++ [b]
  workerPuts : ∀ i u m, s.workers i = .recycling u →
    step e name (.worker i m) s = some { s.setWorker i .idle with free := s.free ++ [u.buf] }
  readerPuts : ∀ b, s.reader = .filling b → (readFull s.script chunkSize).1 = [] →
    (step e name .read s).map free = some (s.free ++ [b])
  cancelPuts : ∀ u err f, s.reader = .sending u err → s.ctx = some f →
    (step e name .readCanceled s).map free = some (s.free ++ [u.buf])
  apart : ∀ b, s.reader = .filling b → ∀ i u, (s.workers i).unit = some u → u.buf ≠ b
  written : ∀ a s' b, step e name a s = some s' → s'.mem b ≠ s.mem b → s.reader = .filling b
  moves : 0 < w → (∀ i, s.workers i = .idle) → ¬ s.Waits e name

theorem held_filling {b : Nat} (hr : s.reader = .filling b) : s.held none = some b := by
  show s.reader.buf = some b
  rw [hr]
  rfl

theorem held_sending {u : ChunkUnit} {err : Option Err} (hr : s.reader = .sending u err) :
    s.held none = some u.buf := by
  show s.reader.buf = some u.buf
  rw [hr]
  rfl

theorem held_worker {i : Fin w} {u : ChunkUnit} (hi : (s.workers i).unit = some u) :
    s.held (some i) = some u.buf := by
  show (s.workers i).unit.map ChunkUnit.buf = some u.buf
  rw [hi]
  rfl

theorem poolExact (e : Engine) (name : String) (hpool : s.Pooled) (hstocked : s.Stocked)
    (hsized : s.Sized) : s.PoolExact e name where
  bounded := hpool.bound
  once := hpool.nodup
  somewhere b := by
    refine ⟨hpool.covered b, ?_⟩
    rintro (hb | ⟨k, hk⟩)
    · exact hpool.lt_free b hb
    · exact hpool.lt_held k b hk
  either b hb k hk := hpool.not_free k b hk hb
  exclusive b k l := hpool.single k l b
  sized := hsized
  kept k b hk := hpool.putBuf hk
  workerPuts i u m hi := by
    have hput := hpool.putBuf (held_worker (u := u) (i := i) (by rw [hi]; rfl))
    show s.workerStep e name i m = _
    unfold workerStep
    rw [hi]
    dsimp only
    rw [hput]
  readerPuts b hr hnil := by
    have hput := hpool.putBuf (held_filling hr)
    show (s.readStep name).map free = _
    unfold readStep
    rw [hr]
    dsimp only
    rw [if_neg (by rw [hnil]; exact Nat.lt_irrefl 0)]
    exact congrArg some hput
  cancelPuts u err f hr hctx := by
    have hput := hpool.putBuf (held_sending hr)
    show s.readCancel.map free = _
    unfold readCancel
    rw [hctx, hr]
    exact congrArg some hput
  apart b hr i u hi heq := by
    have hsame := hpool.single none (some i) b (held_filling hr) (heq ▸ held_worker hi)
    cases hsame
  written a s' b hstep hne := by
    by_contra hr
    exact hne ((step_cases hstep).mem_eq hr)
  moves := not_waits hpool hstocked

end Pipeline

/-- Whatever the workers, the target and the caller's context do, the pool is exact in every state
of every run. -/
theorem read_buffers_exact {w : Nat} {e : Engine} {name : String} {caller : Option Fault}
    {script : List ReadReply} {t : Target} {st : Stats} {acts : List (PipelineAction w)}
    {s : Pipeline w}
    (hrun : (backupStream e w name).Run (fun _ _ => True) (.initial caller script t st) acts s) :
    s.PoolExact e name := by
  have hpool : s.Pooled := hrun.invariant (I := Pipeline.Pooled)
    (fun _ _ _ hs _ hstep => hs.step (Pipeline.step_cases hstep))
    (Pipeline.pooled_initial caller script t st)
  have hstocked : s.Stocked := hrun.invariant (I := Pipeline.Stocked)
    (fun _ _ _ hs _ hstep => hs.step (Pipeline.step_cases hstep)) nofun
  have hsized : s.Sized := hrun.invariant (I := Pipeline.Sized)
    (fun _ _ _ hs _ hstep => hs.step (Pipeline.step_cases hstep))
    fun _ => List.length_replicate
  exact Pipeline.poolExact e name hpool hstocked hsized

theorem read_buffers_exact_two : ∃ (s : Pipeline 2) (dm : DiskManifest),
    s.PoolExact twoEngine "scsi0" ∧ s.result = some (.ok dm) := by
  obtain ⟨s, dm, hfollow, hres, -⟩ := two_stored
  have hrun : (backupStream twoEngine 2 "scsi0").Run (fun _ _ => True) twoStart (twoReads ++ twoActs) s :=
    (System.run_of_follow (fun _ _ _ => trivial) (two_sent twoEngine)).trans
      (System.run_of_follow (fun _ _ _ => trivial) hfollow)
  exact ⟨s, dm, read_buffers_exact hrun, hres⟩

end ProxBack.Engine
