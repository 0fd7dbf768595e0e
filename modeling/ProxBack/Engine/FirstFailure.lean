import ProxBack.Engine.StreamEnd

/-! What `BackupStream` reports when it fails. The first failure that is reported ends the
context of the others, and what they make of that is not what the call returns. -/
namespace ProxBack.Engine
open Lib Prog

/-- Whether `errors.Is` finds `context.Canceled` in an error. -/
def Err.isCanceled : Err → Bool
  | .fault f => decide (f = .canceled)
  | .chunkIndex err | .rateLimit err | .storeChunk _ _ err | .readStream _ err
  | .restore _ err | .restoreWrite _ err | .gcChunkIndex err | .syncChunkIndex err => err.isCanceled
  | _ => false

def Uncanceled {α : Type} (res : Except Err α) : Prop :=
  ∀ err, res = .error err → err.isCanceled = false

def Call.Own : (c : Call) → Reply c → Prop
  | .hasChunk _, r | .addChunk _ _, r | .deleteChunk _, r | .chunkAddedAt, r | .head _, r
  | .put _ _, r | .getBytes _, r | .delete _, r | .walkChunks, r | .walkChunk _, r
  | .walkManifests, r | .getManifest _, r | .headManifest _, r | .putManifest _ _, r
  | .deleteManifest _, r | .waitUpload _, r => Uncanceled r
  | .now, _ => True

def OwnReads (script : List ReadReply) : Prop :=
  ∀ r ∈ script, ∀ err, r.err = some err → err.isCanceled = false

theorem uncanceled_ok {α : Type} (a : α) : Uncanceled (.ok a) := nofun

theorem uncanceled_error {α : Type} {err : Err} (h : err.isCanceled = false) :
    Uncanceled (.error err : Except Err α) := by
  intro err' heq
  cases heq
  exact h

theorem Choice.uncanceled_answer {α : Type} {x : Choice} {value : Except Err α}
    (hx : x.fault ≠ some .canceled) (hvalue : Uncanceled value) : Uncanceled (x.answer value) := by
  unfold Choice.answer
  split
  · exact hvalue
  · rename_i f hf
    refine uncanceled_error (decide_eq_false fun hcanceled => hx ?_)
    rw [hf, hcanceled]

theorem Target.exec_own {x : Choice} (hx : x.fault ≠ some .canceled) (c : Call) (t : Target) :
    c.Own (Target.exec c x t).1 := by
  cases c with
  | getBytes sha =>
    refine Choice.uncanceled_answer hx ?_
    split
    · exact uncanceled_ok _
    · exact uncanceled_error rfl
  | getManifest key =>
    refine Choice.uncanceled_answer hx ?_
    split
    · exact uncanceled_ok _
    · exact uncanceled_error rfl
  | now => trivial
  | _ => exact Choice.uncanceled_answer hx (uncanceled_ok _)

theorem putChunk_own (e : Engine) (sha : Sha) (data : Bytes) :
    Under Call.Own Uncanceled (e.putChunk sha data) := by
  rintro (err | - | -) hhas
  · exact uncanceled_error (hhas err rfl)
  · rintro (err | - | size) hhead
    · exact uncanceled_error (hhead err rfl)
    · rintro (err | ⟨⟩) hwait
      · exact uncanceled_error (hwait err rfl)
      rintro (err | ⟨⟩) hput
      · exact uncanceled_error (hput err rfl)
      rintro (err | ⟨⟩) hrow
      · exact uncanceled_error (hrow err rfl)
      · exact uncanceled_ok _
    · rintro (err | ⟨⟩) hrow
      · exact uncanceled_error (hrow err rfl)
      · exact uncanceled_ok _
  · exact uncanceled_ok _

theorem OwnReads.readLoop {script : List ReadReply} (h : OwnReads script) (room : Nat) :
    (∀ err, (readLoop script room).2.1 = some err → err.isCanceled = false) ∧
      OwnReads (readLoop script room).2.2 := by
  induction script generalizing room with
  | nil =>
    unfold Engine.readLoop
    split
    · exact ⟨by simp, h⟩
    · refine ⟨?_, h⟩
      rintro _ ⟨⟩
      rfl
  | cons r rest ih =>
    have hrest : OwnReads rest := fun r' hr' => h r' (List.mem_cons_of_mem r hr')
    unfold Engine.readLoop
    split
    · exact ⟨by simp, h⟩
    split
    · refine ⟨by simp, fun r' hr' => ?_⟩
      rcases List.mem_cons.mp hr' with rfl | hr'
      · exact h r List.mem_cons_self
      · exact hrest r' hr'
    split
    · exact ⟨by simp, hrest⟩
    cases herr : r.err with
    | some err =>
      refine ⟨?_, hrest⟩
      rintro _ ⟨⟩
      exact h r List.mem_cons_self err herr
    | none => exact ih hrest _

theorem OwnReads.readFull {script : List ReadReply} (h : OwnReads script) {room : Nat} {d : Bytes}
    {res : Option Err} {rest : List ReadReply} (hread : readFull script room = (d, res, rest)) :
    (∀ err, res = some err → err.isCanceled = false) ∧ OwnReads rest := by
  have hrest : rest = (Engine.readLoop script room).2.2 := by
    rw [← readFull_rest, hread]
  have hres : res = some .unexpectedEOF ∨ res = (Engine.readLoop script room).2.1 := by
    unfold Engine.readFull at hread
    dsimp only at hread
    split at hread
    · exact .inl (Prod.mk.inj (Prod.mk.inj hread).2).1.symm
    · exact .inr (Prod.mk.inj (Prod.mk.inj hread).2).1.symm
  constructor
  · rcases hres with rfl | rfl
    · rintro _ ⟨⟩
      rfl
    · exact (h.readLoop room).1
  · rw [hrest]
    exact (h.readLoop room).2

theorem endErr_own {name : String} {err err' : Err} (h : err.isCanceled = false)
    (hend : endErr name err = some err') : err'.isCanceled = false := by
  unfold endErr at hend
  split at hend
  · cases hend
  · cases hend
    exact h

def StoreState.Own : StoreState → Prop
  | .putting _ rest => Under Call.Own Uncanceled rest
  | .publishing _ res | .returned res => Uncanceled res
  | _ => True

def Worker.Own : Worker → Prop
  | .storing _ c => c.st.Own
  | .failing _ err => err.isCanceled = false
  | _ => True

def Reader.pendingErr : Reader → Option Err
  | .sending _ err | .deciding err => err
  | _ => none

theorem StoreStep.own {e : Engine} {sha : Sha} {data : Bytes} {ctx : Option Fault}
    {sh sh' : Shared} {m : StoreMove} {st st' : StoreState}
    (h : StoreStep e sha data ctx sh m st sh' st') (hst : st.Own) (hctx : ctx ≠ some .canceled)
    (hm : ∀ x, m = .go x → x.fault ≠ some .canceled) : st'.Own := by
  cases h with
  | join hp => trivial
  | lead hp => exact putChunk_own e sha data
  | credited hp => exact uncanceled_ok 0
  | retry hp => trivial
  | @giveUp _ _ f hf =>
    refine uncanceled_error (decide_eq_false fun hcanceled => hctx ?_)
    rw [hf, hcanceled]
  | call x => exact hst _ (Target.exec_own (hm x rfl) _ _)
  | unlist => exact hst
  | publish => exact hst

theorem sumChunks_error {name : String} {chunks : List Chunk} {i : Nat} {size : Int} {err : Err}
    (h : sumChunks name chunks i size = .error err) : ∃ k, err = .neverStored name k := by
  induction chunks generalizing i size with
  | nil => cases h
  | cons c rest ih =>
    unfold sumChunks at h
    split at h
    · cases h
      exact ⟨i, rfl⟩
    · exact ih h

namespace Pipeline

variable {w : Nat} {e : Engine} {name : String} {script : List ReadReply} {s s' : Pipeline w}
  {a : PipelineAction w} {i : Fin w}

def OwnErrors (s : Pipeline w) : PipelineAction w → Prop
  | .worker _ (.go x) => x.fault = some .canceled → s.ctx = some .canceled
  | _ => True

/-- Until a failure is reported the context is as the caller's, and as long as the caller does
not cancel there is no cancellation in any error that can come to be reported. -/
structure Owned (s : Pipeline w) : Prop where
  ctx : s.firstErr = none → s.ctx = s.caller
  stopped : ∀ f, s.reader = .finished (some (.fault f)) → s.ctx ≠ none
  script : OwnReads s.script
  reading : ∀ err, s.reader.pendingErr = some err → err.isCanceled = false
  finished : s.caller ≠ some .canceled → s.firstErr = none →
    ∀ err, s.reader = .finished (some err) → err.isCanceled = false
  workers : s.caller ≠ some .canceled → s.firstErr = none → ∀ i, (s.workers i).Own
  firstErr : s.caller ≠ some .canceled → ∀ err, s.firstErr = some err → err.isCanceled = false
  result : s.caller ≠ some .canceled → ∀ err, s.result = some (.error err) → err.isCanceled = false

theorem owned_initial (caller : Option Fault) (hscript : OwnReads script) (t : Target) (st : Stats) :
    (initial caller script t st : Pipeline w).Owned where
  ctx _ := rfl
  stopped := nofun
  script := hscript
  reading := nofun
  finished _ _ := nofun
  workers _ _ _ := trivial
  firstErr _ := nofun
  result _ := nofun

theorem Owned.read (h : s.Owned) (hcaller : s'.caller = s.caller) (hctx : s'.ctx = s.ctx)
    (hfirst : s'.firstErr = s.firstErr) (hworkers : s'.workers = s.workers)
    (hresult : s'.result = s.result) (hscript : OwnReads s'.script)
    (hreading : ∀ err, s'.reader.pendingErr = some err → err.isCanceled = false)
    (hon : ∀ err, s'.reader ≠ .finished err) : s'.Owned where
  ctx := by
    rw [hfirst, hctx, hcaller]
    exact h.ctx
  stopped f hf := absurd hf (hon _)
  script := hscript
  reading := hreading
  finished _ _ err hf := absurd hf (hon _)
  workers := by
    rw [hcaller, hfirst, hworkers]
    exact h.workers
  firstErr := by
    rw [hcaller, hfirst]
    exact h.firstErr
  result := by
    rw [hcaller, hresult]
    exact h.result

theorem Owned.stop (h : s.Owned) {err : Option Err} (free : List Nat)
    (hstop : ∀ f, err = some (.fault f) → s.ctx ≠ none)
    (herr : s.caller ≠ some .canceled → s.firstErr = none →
      ∀ err', err = some err' → err'.isCanceled = false) :
    { s with free := free, reader := .finished err }.Owned where
  ctx := h.ctx
  stopped f hf := hstop f (Reader.finished.inj hf)
  script := h.script
  reading := nofun
  finished hcaller hfirst err' hf := herr hcaller hfirst err' (Reader.finished.inj hf)
  workers := h.workers
  firstErr := h.firstErr
  result := h.result

theorem Owned.cancel (h : s.Owned) {f : Fault} (hctx : s.ctx = some f) (free : List Nat) :
    { s with free := free, reader := .finished (some (.fault f)) }.Owned := by
  refine h.stop free (fun _ _ => by rw [hctx]; exact nofun) fun hcaller hfirst err heq => ?_
  cases heq
  refine decide_eq_false fun hf => hcaller ?_
  rw [← h.ctx hfirst, hctx, hf]

theorem Owned.work (h : s.Owned) (wk : Worker) (hcaller : s'.caller = s.caller)
    (hctx : s'.ctx = s.ctx) (hfirst : s'.firstErr = s.firstErr) (hreader : s'.reader = s.reader)
    (hworkers : s'.workers = Function.update s.workers i wk) (hresult : s'.result = s.result)
    (hscript : s'.script = s.script)
    (hwk : s.caller ≠ some .canceled → s.firstErr = none → wk.Own) : s'.Owned where
  ctx := by
    rw [hfirst, hctx, hcaller]
    exact h.ctx
  stopped := by
    rw [hreader, hctx]
    exact h.stopped
  script := hscript ▸ h.script
  reading := by
    rw [hreader]
    exact h.reading
  finished := by
    rw [hcaller, hfirst, hreader]
    exact h.finished
  workers := by
    rw [hcaller, hfirst, hworkers]
    intro hlive hnone j
    by_cases hj : j = i
    · subst hj
      rw [Function.update_self]
      exact hwk hlive hnone
    · rw [Function.update_of_ne hj]
      exact h.workers hlive hnone j
  firstErr := by
    rw [hcaller, hfirst]
    exact h.firstErr
  result := by
    rw [hcaller, hresult]
    exact h.result

theorem Owned.workOnly (h : s.Owned) {wk : Worker} (hwk : wk.Own) : (s.setWorker i wk).Owned :=
  h.work wk rfl rfl rfl rfl rfl rfl rfl fun _ _ => hwk

theorem Owned.step (h : s.Owned) (hstep : Step e name s a s') (hown : s.OwnErrors a) : s'.Owned := by
  cases hstep with
  | callerEnds f hcaller =>
    have hlive : s.caller ≠ some .canceled := by
      rw [hcaller]
      exact nofun
    constructor
    · intro hfirst
      show s.ctx.or (some f) = some f
      rw [h.ctx hfirst, hcaller]
      rfl
    · intro f' hf' hnone
      exact absurd (Option.or_eq_none_iff.mp hnone).2 nofun
    · exact h.script
    · exact h.reading
    · exact fun _ => h.finished hlive
    · exact fun _ => h.workers hlive
    · exact fun _ => h.firstErr hlive
    · exact fun _ => h.result hlive
  | headCanceled hr hctx => exact h.cancel hctx _
  | waitCanceled hr hctx => exact h.cancel hctx _
  | sendCanceled hr hctx => exact h.cancel hctx _
  | head hr hctx => exact h.read rfl rfl rfl rfl rfl h.script nofun nofun
  | getFree hr hfree => exact h.read rfl rfl rfl rfl rfl h.script nofun nofun
  | getNone hr hfree => exact h.read rfl rfl rfl rfl rfl h.script nofun nofun
  | alloc hr hroom => exact h.read rfl rfl rfl rfl rfl h.script nofun nofun
  | allocFull hr hroom => exact h.read rfl rfl rfl rfl rfl h.script nofun nofun
  | again hr => exact h.read rfl rfl rfl rfl rfl h.script nofun nofun
  | fill hr hread hd =>
    obtain ⟨herr, hrest⟩ := h.script.readFull hread
    exact h.read rfl rfl rfl rfl rfl hrest herr nofun
  | fillNone hr hread =>
    obtain ⟨herr, hrest⟩ := h.script.readFull hread
    exact h.read rfl rfl rfl rfl rfl hrest herr nofun
  | @ended err hr =>
    have herr : err.isCanceled = false := h.reading err (by rw [hr]; rfl)
    refine h.stop s.free (fun f hf => ?_) fun _ _ err' heq => endErr_own herr heq
    exact absurd hf (endErr_ne_fault name err f)
  | @handOff i u err hr hi =>
    have htaken : (s.setWorker i (.taken u)).Owned := h.workOnly trivial
    refine htaken.read rfl rfl rfl rfl rfl h.script (fun err' herr => ?_) nofun
    exact h.reading err' (by rw [hr]; exact herr)
  | exit hi hclosed => exact h.workOnly trivial
  | skip hi hctx => exact h.workOnly trivial
  | begin hi hctx => exact h.workOnly trivial
  | @store i m u c sh st hi hst =>
    refine h.work (.storing u { c with st := st }) rfl rfl rfl rfl rfl rfl rfl ?_
    intro hcaller hfirst
    have hold := h.workers hcaller hfirst i
    rw [hi] at hold
    have hctx : s.ctx ≠ some .canceled := by rwa [h.ctx hfirst]
    exact hst.own hold hctx fun x hx hfault => hctx (by subst hx; exact hown hfault)
  | @storeErr i m u c err hi hst =>
    refine h.work (.failing u (.storeChunk u.seq name err)) rfl rfl rfl rfl rfl rfl rfl ?_
    intro hcaller hfirst
    have hold := h.workers hcaller hfirst i
    rw [hi] at hold
    have hst' : c.st.Own := hold
    rw [hst] at hst'
    exact hst' err rfl
  | storeOk hi hst => exact h.workOnly trivial
  | @fail i m u err hi hfirst =>
    constructor
    · exact nofun
    · intro f hf hnone
      exact absurd (Option.or_eq_none_iff.mp hnone).2 nofun
    · exact h.script
    · exact h.reading
    · exact fun _ => nofun
    · exact fun _ => nofun
    · intro hcaller err' heq
      cases heq
      have hold := h.workers hcaller hfirst i
      rw [hi] at hold
      exact hold
    · exact h.result
  | failAgain hi hfirst => exact h.workOnly trivial
  | place hi => exact h.work (.recording _ _) rfl rfl rfl rfl rfl rfl rfl fun _ _ => trivial
  | record hi => exact h.work (.recycling _) rfl rfl rfl rfl rfl rfl rfl fun _ _ => trivial
  | recycle hi => exact h.work .idle rfl rfl rfl rfl rfl rfl rfl fun _ _ => trivial
  | close hr hclosed => exact ⟨h.ctx, h.stopped, h.script, h.reading, h.finished, h.workers, h.firstErr, h.result⟩
  | @finish err hr hres hclosed hall =>
    refine ⟨h.ctx, h.stopped, h.script, h.reading, h.finished, h.workers, h.firstErr, ?_⟩
    intro hcaller err' heq
    have hout : streamResult name s.firstErr err s.chunks = .error err' := Option.some.inj heq
    unfold streamResult at hout
    split at hout
    · rename_i err'' _ hfirst
      cases hout
      exact h.firstErr hcaller _ hfirst
    · rename_i err'' hfirst
      cases hout
      exact h.finished hcaller hfirst _ hr
    · split at hout
      · rename_i err'' hsum
        cases hout
        obtain ⟨k, rfl⟩ := sumChunks_error hsum
        rfl
      · cases hout

theorem owned_run (hscript : OwnReads script) {caller : Option Fault} {t : Target} {st : Stats}
    {acts : List (PipelineAction w)}
    (hrun : (backupStream e w name).Run OwnErrors (initial caller script t st) acts s) : s.Owned :=
  hrun.invariant (I := Owned) (fun _ _ _ hs hok hstep => hs.step (step_cases hstep) hok)
    (owned_initial caller hscript t st)

def failureOf : Pipeline w × PipelineAction w → Option (ChunkUnit × Err)
  | (s, .worker i _) =>
    match s.workers i with
    | .storing u ⟨_, _, .returned (.error err)⟩ => some (u, err)
    | _ => none
  | _ => none

/-- The error that a worker passed to `fail` in this step. -/
def reportOf : Pipeline w × PipelineAction w → Option (ChunkUnit × Err)
  | (s, .worker i _) =>
    match s.workers i with
    | .failing u err => some (u, err)
    | _ => none
  | _ => none

def failures (tr : List (Pipeline w × PipelineAction w)) : List (ChunkUnit × Err) :=
  tr.filterMap failureOf

/-- The failures that took the lock of `fail`, in the order they did. -/
def reports (tr : List (Pipeline w × PipelineAction w)) : List (ChunkUnit × Err) :=
  tr.filterMap reportOf

def Wraps (name : String) (tr : List (Pipeline w × PipelineAction w)) (u : ChunkUnit) (err : Err) :
    Prop :=
  ∃ cause, (u, cause) ∈ failures tr ∧ err = .storeChunk u.seq name cause

structure Told (name : String) (tr : List (Pipeline w × PipelineAction w)) (s : Pipeline w) :
    Prop where
  first : s.firstErr = (reports tr).head?.map Prod.snd
  failing : ∀ i u err, s.workers i = .failing u err → Wraps name tr u err
  reported : ∀ u err, (u, err) ∈ reports tr → Wraps name tr u err
  pending : failures tr ≠ [] → s.firstErr ≠ none ∨ ∃ i u err, s.workers i = .failing u err

theorem told_initial (name : String) (caller : Option Fault) (script : List ReadReply) (t : Target)
    (st : Stats) : (initial caller script t st : Pipeline w).Told name [] where
  first := rfl
  failing := nofun
  reported := nofun
  pending h := absurd rfl h

variable {tr : List (Pipeline w × PipelineAction w)} {ev : Pipeline w × PipelineAction w}

@[simp] theorem failures_concat : failures (tr ++ [ev]) = failures tr ++ (failureOf ev).toList := by
  unfold failures
  rw [List.filterMap_append]
  cases h : failureOf ev <;> simp [h]

@[simp] theorem reports_concat : reports (tr ++ [ev]) = reports tr ++ (reportOf ev).toList := by
  unfold reports
  rw [List.filterMap_append]
  cases h : reportOf ev <;> simp [h]

theorem Wraps.concat {u : ChunkUnit} {err : Err} (h : Wraps name tr u err) :
    Wraps name (tr ++ [ev]) u err := by
  obtain ⟨cause, hmem, heq⟩ := h
  refine ⟨cause, ?_, heq⟩
  rw [failures_concat]
  exact List.mem_append_left _ hmem

theorem Told.quiet (h : s.Told name tr) (hfailure : failureOf ev = none) (hreport : reportOf ev = none)
    (hfirst : s'.firstErr = s.firstErr)
    (hworkers : ∀ i u err, s'.workers i = .failing u err ↔ s.workers i = .failing u err) :
    s'.Told name (tr ++ [ev]) where
  first := by
    rw [hfirst, reports_concat, hreport, h.first, Option.toList_none, List.append_nil]
  failing i u err hi := (h.failing i u err ((hworkers i u err).mp hi)).concat
  reported u err hmem := by
    rw [reports_concat, hreport, Option.toList_none, List.append_nil] at hmem
    exact (h.reported u err hmem).concat
  pending hne := by
    rw [failures_concat, hfailure, Option.toList_none, List.append_nil] at hne
    rw [hfirst]
    refine (h.pending hne).imp_right ?_
    rintro ⟨i, u, err, hi⟩
    exact ⟨i, u, err, (hworkers i u err).mpr hi⟩

theorem failing_of_update {wk : Worker} (hnew : ∀ u err, wk ≠ .failing u err) {j : Fin w}
    {u : ChunkUnit} {err : Err} (h : Function.update s.workers i wk j = .failing u err) :
    s.workers j = .failing u err := by
  by_cases hj : j = i
  · subst hj
    rw [Function.update_self] at h
    exact absurd h (hnew u err)
  · rwa [Function.update_of_ne hj] at h

theorem failing_update {wk : Worker} (hold : ∀ u err, s.workers i ≠ .failing u err)
    (hnew : ∀ u err, wk ≠ .failing u err) (j : Fin w) (u : ChunkUnit) (err : Err) :
    Function.update s.workers i wk j = .failing u err ↔ s.workers j = .failing u err := by
  refine ⟨failing_of_update hnew, fun h => ?_⟩
  rw [Function.update_of_ne]
  · exact h
  · rintro rfl
    exact hold u err h

theorem Told.work (h : s.Told name tr) {m : StoreMove} (wk : Worker)
    (hi : ∀ u err, s.workers i ≠ .failing u err)
    (hst : ∀ u sha data err, s.workers i ≠ .storing u ⟨sha, data, .returned (.error err)⟩)
    (hnew : ∀ u err, wk ≠ .failing u err) (hfirst : s'.firstErr = s.firstErr)
    (hworkers : s'.workers = Function.update s.workers i wk) :
    s'.Told name (tr ++ [(s, .worker i m)]) := by
  refine h.quiet ?_ ?_ hfirst (by rw [hworkers]; exact failing_update hi hnew)
  · unfold failureOf
    dsimp only
    split
    · rename_i u sha data err hwk
      exact absurd hwk (hst u sha data err)
    · rfl
  · unfold reportOf
    dsimp only
    split
    · rename_i u err hwk
      exact absurd hwk (hi u err)
    · rfl

theorem recycling_ne_failing (u v : ChunkUnit) (err : Err) : Worker.recycling u ≠ .failing v err := nofun

theorem StoreStep.ne_returned {e : Engine} {sha : Sha} {data : Bytes} {ctx : Option Fault}
    {sh sh' : Shared} {m : StoreMove} {st st' : StoreState}
    (h : StoreStep e sha data ctx sh m st sh' st') (res : Except Err Nat) : st ≠ .returned res := by
  cases h <;> exact nofun

theorem Told.step (h : s.Told name tr) (hstep : Step e name s a s') :
    s'.Told name (tr ++ [(s, a)]) := by
  cases hstep with
  | handOff hr hi =>
    refine h.quiet rfl rfl rfl (failing_update ?_ fun _ _ => nofun)
    rw [hi]
    exact nofun
  | exit hi hclosed =>
    exact h.work .exited (by rw [hi]; exact nofun) (by rw [hi]; exact nofun) (fun _ _ => nofun) rfl rfl
  | skip hi hctx =>
    exact h.work (.recycling _) (by rw [hi]; exact nofun) (by rw [hi]; exact nofun) (fun _ _ => nofun) rfl rfl
  | begin hi hctx =>
    exact h.work (.storing _ _) (by rw [hi]; exact nofun) (by rw [hi]; exact nofun) (fun _ _ => nofun) rfl rfl
  | place hi =>
    exact h.work (.recording _ _) (by rw [hi]; exact nofun) (by rw [hi]; exact nofun) (fun _ _ => nofun) rfl rfl
  | record hi =>
    exact h.work (.recycling _) (by rw [hi]; exact nofun) (by rw [hi]; exact nofun) (fun _ _ => nofun) rfl rfl
  | recycle hi =>
    exact h.work .idle (by rw [hi]; exact nofun) (by rw [hi]; exact nofun) (fun _ _ => nofun) rfl rfl
  | @store i m u c sh st hi hst =>
    refine h.work (.storing u { c with st := st }) (by rw [hi]; exact nofun) (fun u' sha data err heq => ?_)
      (fun _ _ => nofun) rfl rfl
    rw [hi] at heq
    cases heq
    exact StoreStep.ne_returned hst _ rfl
  | @storeOk i m u c n hi hst =>
    refine h.work (.placing u c.sha n) (by rw [hi]; exact nofun) (fun u' sha data err heq => ?_)
      (fun _ _ => nofun) rfl rfl
    rw [hi] at heq
    cases heq
    cases hst
  | @storeErr i m u c err hi hst =>
    obtain ⟨sha, data, st⟩ := c
    cases hst
    have hfailure : failureOf (s, .worker i m) = some (u, err) := by
      unfold failureOf
      dsimp only
      rw [hi]
    have hreport : reportOf (s, .worker i m) = none := by
      unfold reportOf
      dsimp only
      rw [hi]
    have hself : (s.setWorker i (.failing u (.storeChunk u.seq name err))).workers i =
        .failing u (.storeChunk u.seq name err) := Function.update_self ..
    constructor
    · rw [reports_concat, hreport, Option.toList_none, List.append_nil]
      exact h.first
    · intro j v err' hj
      by_cases hji : j = i
      · subst hji
        rw [hself] at hj
        cases hj
        refine ⟨err, ?_, rfl⟩
        rw [failures_concat, hfailure]
        exact List.mem_append_right _ (List.mem_singleton_self _)
      · have hj' : s.workers j = .failing v err' := by
          rwa [show (s.setWorker i _).workers j = s.workers j from Function.update_of_ne hji ..] at hj
        exact (h.failing j v err' hj').concat
    · intro v err' hmem
      rw [reports_concat, hreport, Option.toList_none, List.append_nil] at hmem
      exact (h.reported v err' hmem).concat
    · exact fun _ => .inr ⟨i, u, _, hself⟩
  | @fail i m u err hi hfirst =>
    have hreport : reportOf (s, .worker i m) = some (u, err) := by
      unfold reportOf
      dsimp only
      rw [hi]
    have hnil : reports tr = [] := by
      have hhead := h.first
      rw [hfirst] at hhead
      exact List.head?_eq_none_iff.mp (Option.map_eq_none_iff.mp hhead.symm)
    constructor
    · rw [reports_concat, hnil, hreport]
      rfl
    · exact fun j v err' hj => (h.failing j v err' (failing_of_update (recycling_ne_failing u) hj)).concat
    · intro v err' hmem
      rw [reports_concat, hnil, hreport] at hmem
      cases List.mem_singleton.mp hmem
      exact (h.failing i u err hi).concat
    · exact fun _ => .inl nofun
  | @failAgain i m u err err' hi hfirst =>
    have hreport : reportOf (s, .worker i m) = some (u, err) := by
      unfold reportOf
      dsimp only
      rw [hi]
    constructor
    · show s.firstErr = _
      have hhead := h.first
      rw [reports_concat, hhead]
      cases hrep : reports tr with
      | nil =>
        rw [hrep, hfirst] at hhead
        cases hhead
      | cons r rest => rfl
    · exact fun j v err'' hj => (h.failing j v err'' (failing_of_update (recycling_ne_failing u) hj)).concat
    · intro v err'' hmem
      rw [reports_concat, hreport] at hmem
      rcases List.mem_append.mp hmem with hmem | hmem
      · exact (h.reported v err'' hmem).concat
      · cases List.mem_singleton.mp hmem
        exact (h.failing i u err hi).concat
    · refine fun _ => .inl ?_
      show s.firstErr ≠ none
      rw [hfirst]
      exact nofun
  | _ => exact h.quiet rfl rfl rfl fun _ _ _ => Iff.rfl

theorem told_run {caller : Option Fault} {t : Target} {st : Stats} {acts : List (PipelineAction w)}
    {ok : Pipeline w → PipelineAction w → Prop}
    (hrun : (backupStream e w name).Run ok (initial caller script t st) acts s) :
    s.Told name ((backupStream e w name).trail acts (initial caller script t st)) := by
  have htold := hrun.trail_invariant (I := Told name)
    (fun _ _ _ _ h _ hstep => h.step (step_cases hstep)) (told_initial name caller script t st)
  rwa [List.nil_append] at htold

theorem ctx_back (hstep : (backupStream e w name).step a s = some s') (h : s'.ctx = none) :
    s.ctx = none := by
  cases step_cases hstep with
  | callerEnds f hcaller => exact (Option.or_eq_none_iff.mp h).1
  | fail hi hfirst => exact (Option.or_eq_none_iff.mp h).1
  | _ => exact h

theorem sumChunks_run (hhash : ∀ d, e.hash d ≠ "") {caller : Option Fault} {t : Target} {st : Stats}
    {acts : List (PipelineAction w)} {ok : Pipeline w → PipelineAction w → Prop}
    (hrun : (backupStream e w name).Run ok (initial caller script t st) acts s)
    (hctx : s.ctx = none) (hfirst : s.firstErr = none) {r : Except Err DiskManifest}
    (hres : s.result = some r) : ∃ size, sumChunks name s.chunks 0 0 = .ok size := by
  have hlive := (hrun.while_back (fun _ _ _ => ctx_back) hctx).2
  have hplaced : (backupStream e w name).Run (fun s a => ¬ s.Skips (fun _ => True) a)
      (initial caller script t st) acts s := hlive.mono fun _ _ h => not_skips h.2
  obtain ⟨owner, acct, hsane⟩ := sane_run t.soundBut_self hplaced
  obtain ⟨err, hr, -, hall⟩ := hsane.result r hres
  refine ⟨_, sumChunks_eq (fun c hc => ?_) 0 0⟩
  obtain ⟨k, hk⟩ := List.getElem?_of_mem hc
  have hlt : k < s.seq := Nat.lt_of_lt_of_le (List.getElem?_eq_some_iff.mp hk).1 hsane.length_le
  obtain ⟨d, -, hd⟩ := hsane.placed hfirst hall trivial hlt
  rw [hk] at hd
  cases hd
  exact hhash d

/-- What a failed stream reports while its caller waits for it: the first store failure that was
reported, or the error of the stream when no store failed. -/
def FirstFailure (name : String) (script : List ReadReply)
    (tr : List (Pipeline w × PipelineAction w)) (err : Err) : Prop :=
  (∃ u, (reports tr).head? = some (u, err) ∧ Wraps name tr u err) ∨
    failures tr = [] ∧ (unitsOf name script).2 = some err

/-- A stream whose own calls fail of themselves reports no cancellation unless its caller cancels,
and the first failure while its caller's context lives. -/
theorem failed_run (hhash : ∀ d, e.hash d ≠ "") (hscript : OwnReads script) {caller : Option Fault}
    {t : Target} {st : Stats} {acts : List (PipelineAction w)} {err : Err}
    (hrun : (backupStream e w name).Run OwnErrors (initial caller script t st) acts s)
    (hres : s.result = some (.error err)) :
    (s.caller ≠ some .canceled → err.isCanceled = false) ∧
      (s.caller = none →
        FirstFailure name script ((backupStream e w name).trail acts (initial caller script t st)) err) := by
  have howned := owned_run hscript hrun
  refine ⟨fun hcaller => howned.result hcaller err hres, fun hcaller => ?_⟩
  have htold := told_run hrun
  obtain ⟨owner, acct, hsane⟩ := sane_run (K := fun _ => False) t.soundBut_self
    (hrun.mono fun s a _ hs => by
      obtain ⟨i, m, u, -, -, -, hk⟩ := hs
      exact hk)
  obtain ⟨readErr, hr, hout, hall⟩ := hsane.result _ hres
  have hfirst := htold.first
  cases hnone : s.firstErr with
  | some err' =>
    rw [hnone] at hout hfirst
    have herr : err = err' := Except.error.inj hout
    subst herr
    obtain ⟨⟨u, err'⟩, hhead, heq⟩ := Option.map_eq_some_iff.mp hfirst.symm
    cases heq
    exact .inl ⟨u, hhead, htold.reported u _ (List.mem_of_mem_head? hhead)⟩
  | none =>
    have hctx : s.ctx = none := (howned.ctx hnone).trans hcaller
    have hquiet : failures ((backupStream e w name).trail acts (initial caller script t st)) = [] := by
      by_contra hne
      rcases htold.pending hne with hsome | ⟨i, u, err', hi⟩
      · exact hsome hnone
      · rw [hall i] at hi
        cases hi
    rw [hnone] at hout
    cases readErr with
    | some err' =>
      have herr : err = err' := Except.error.inj hout
      subst herr
      have hstop : ∀ f, some err ≠ some (.fault f) := by
        intro f hf
        refine howned.stopped f ?_ hctx
        rw [hr, hf]
      exact .inr ⟨hquiet, (hsane.reading.finished hr hstop).2⟩
    | none =>
      obtain ⟨size, hsum⟩ := sumChunks_run hhash hrun hctx hnone hres
      unfold streamResult at hout
      dsimp only at hout
      rw [hsum] at hout
      cases hout

end Pipeline

end ProxBack.Engine
