import ProxBack.Engine.Pipeline
import ProxBack.Lib.Pool

/-! What one step of `BackupStream` can be, and the two facts about it that need
nothing else: who holds which buffer, and what the reader still has to send. -/
namespace ProxBack.Engine
open Lib Prog

namespace Pipeline

variable {w : Nat}

inductive Step (e : Engine) (name : String) (s : Pipeline w) :
    PipelineAction w → Pipeline w → Prop where
  | callerEnds (f : Fault) (h : s.caller = none) :
      Step e name s (.callerEnds f) { s with caller := some f, ctx := s.ctx.or (some f) }
  | headCanceled {f} (hr : s.reader = .head) (hctx : s.ctx = some f) :
      Step e name s .read { s with reader := .finished (some (.fault f)) }
  | head (hr : s.reader = .head) (hctx : s.ctx = none) :
      Step e name s .read { s with reader := .getTry }
  | getFree {b rest} (hr : s.reader = .getTry ∨ s.reader = .getWait) (hfree : s.free = b :: rest) :
      Step e name s .read { s with free := rest, reader := .filling b }
  | getNone (hr : s.reader = .getTry) (hfree : s.free = []) :
      Step e name s .read { s with reader := .getAlloc }
  | alloc (hr : s.reader = .getAlloc) (hroom : s.allocated < w + 1) :
      Step e name s .read
        { s with allocated := s.allocated + 1, reader := .filling s.allocated }
  | allocFull (hr : s.reader = .getAlloc) (hroom : ¬ s.allocated < w + 1) :
      Step e name s .read { s with reader := .getWait }
  | fill {b d err rest} (hr : s.reader = .filling b)
      (hread : readFull s.script chunkSize = (d, err, rest)) (hd : d ≠ []) :
      Step e name s .read
        { s with
          script := rest
          mem := Function.update s.mem b (d ++ (s.mem b).drop d.length)
          reader := .sending ⟨s.seq, b, d.length⟩ err }
  | fillNone {b err rest} (hr : s.reader = .filling b)
      (hread : readFull s.script chunkSize = ([], err, rest)) :
      Step e name s .read
        { s with
          script := rest
          mem := Function.update s.mem b (s.mem b)
          free := s.putBuf b
          reader := .deciding err }
  | again (hr : s.reader = .deciding none) :
      Step e name s .read { s with reader := .head }
  | ended {err} (hr : s.reader = .deciding (some err)) :
      Step e name s .read { s with reader := .finished (endErr name err) }
  | waitCanceled {f} (hr : s.reader = .getWait) (hctx : s.ctx = some f) :
      Step e name s .readCanceled { s with reader := .finished (some (.fault f)) }
  | sendCanceled {f u err} (hr : s.reader = .sending u err) (hctx : s.ctx = some f) :
      Step e name s .readCanceled
        { s with free := s.putBuf u.buf, reader := .finished (some (.fault f)) }
  | handOff {i u err} (hr : s.reader = .sending u err) (hi : s.workers i = .idle) :
      Step e name s (.handOff i)
        { s.setWorker i (.taken u) with seq := s.seq + 1, reader := .deciding err }
  | exit {i m} (hi : s.workers i = .idle) (hclosed : s.closed = true) :
      Step e name s (.worker i m) (s.setWorker i .exited)
  | skip {i m u f} (hi : s.workers i = .taken u) (hctx : s.ctx = some f) :
      Step e name s (.worker i m) (s.setWorker i (.recycling u))
  | begin {i m u} (hi : s.workers i = .taken u) (hctx : s.ctx = none) :
      Step e name s (.worker i m) (s.setWorker i
        (.storing u ⟨e.hash (s.unitData u), s.unitData u, .entering⟩))
  | store {i m u c sh st} (hi : s.workers i = .storing u c)
      (h : StoreStep e c.sha c.data s.ctx s.shared m c.st sh st) :
      Step e name s (.worker i m)
        { s.setWorker i (.storing u { c with st := st }) with shared := sh }
  | storeErr {i m u c err} (hi : s.workers i = .storing u c)
      (hst : c.st = .returned (.error err)) :
      Step e name s (.worker i m) (s.setWorker i (.failing u (.storeChunk u.seq name err)))
  | storeOk {i m u c n} (hi : s.workers i = .storing u c) (hst : c.st = .returned (.ok n)) :
      Step e name s (.worker i m) (s.setWorker i (.placing u c.sha n))
  | fail {i m u err} (hi : s.workers i = .failing u err) (hfirst : s.firstErr = none) :
      Step e name s (.worker i m)
        { s.setWorker i (.recycling u) with
          firstErr := some err
          ctx := s.ctx.or (some .canceled) }
  | failAgain {i m u err err'} (hi : s.workers i = .failing u err)
      (hfirst : s.firstErr = some err') :
      Step e name s (.worker i m) (s.setWorker i (.recycling u))
  | place {i m u sha n} (hi : s.workers i = .placing u sha n) :
      Step e name s (.worker i m)
        { s.setWorker i (.recording u n) with chunks := place s.chunks u.seq ⟨sha, u.n⟩ }
  | record {i m u n} (hi : s.workers i = .recording u n) :
      Step e name s (.worker i m)
        { s.setWorker i (.recycling u) with stats := s.stats.record u.n n }
  | recycle {i m u} (hi : s.workers i = .recycling u) :
      Step e name s (.worker i m) { s.setWorker i .idle with free := s.putBuf u.buf }
  | close {err} (hr : s.reader = .finished err) (hclosed : s.closed = false) :
      Step e name s .close { s with closed := true }
  | finish {err} (hr : s.reader = .finished err) (hres : s.result = none)
      (hclosed : s.closed = true) (hall : ∀ i, s.workers i = .exited) :
      Step e name s .finish
        { s with result := some (streamResult name s.firstErr err s.chunks) }

variable {e : Engine} {name : String} {s s' : Pipeline w} {a : PipelineAction w}

theorem readStep_cases (h : s.readStep name = some s') : Step e name s .read s' := by
  unfold readStep at h
  split at h
  · rename_i hr
    split at h
    · rename_i f hctx
      cases h
      exact .headCanceled hr hctx
    · rename_i hctx
      cases h
      exact .head hr hctx
  · rename_i hr
    split at h
    · rename_i hfree
      cases h
      exact .getFree (.inl hr) hfree
    · rename_i hfree
      cases h
      exact .getNone hr hfree
  · rename_i hr
    split at h
    · rename_i hroom
      cases h
      exact .alloc hr hroom
    · rename_i hroom
      cases h
      exact .allocFull hr hroom
  · rename_i hr
    split at h
    · rename_i hfree
      cases h
      exact .getFree (.inr hr) hfree
    · cases h
  · rename_i b hr
    dsimp only at h
    split at h
    · rename_i hd
      cases h
      exact .fill hr rfl (List.ne_nil_of_length_pos hd)
    · rename_i hd
      have hnil : (readFull s.script chunkSize).1 = [] := by
        rw [← List.length_eq_zero_iff]
        omega
      cases h
      rw [hnil]
      exact .fillNone hr (by rw [← hnil])
  · rename_i hr
    cases h
    exact .again hr
  · rename_i err hr
    cases h
    exact .ended hr
  · cases h

theorem readStep_fill (name : String) {b : Nat} {d : Bytes} {err : Option Err} {rest : List ReadReply}
    (hr : s.reader = .filling b) (hread : readFull s.script chunkSize = (d, err, rest)) (hd : d ≠ []) :
    s.readStep name = some { s with
      script := rest
      mem := Function.update s.mem b (d ++ (s.mem b).drop d.length)
      reader := .sending ⟨s.seq, b, d.length⟩ err } := by
  unfold readStep
  rw [hr]
  dsimp only
  rw [hread]
  exact if_pos (List.length_pos_of_ne_nil hd)

theorem readCancel_cases (h : s.readCancel = some s') : Step e name s .readCanceled s' := by
  unfold readCancel at h
  split at h
  · rename_i hctx hr
    cases h
    exact .waitCanceled hr hctx
  · rename_i hctx hr
    cases h
    exact .sendCanceled hr hctx
  · cases h

theorem workerStep_cases {i : Fin w} {m : StoreMove} (h : s.workerStep e name i m = some s') :
    Step e name s (.worker i m) s' := by
  unfold workerStep at h
  split at h
  · rename_i hi
    split at h
    · rename_i hclosed
      cases h
      exact .exit hi hclosed
    · cases h
  · rename_i u hi
    split at h
    · rename_i hctx
      cases h
      exact .skip hi hctx
    · rename_i hctx
      cases h
      exact .begin hi hctx
  · rename_i hi
    cases h
    exact .storeErr hi rfl
  · rename_i hi
    cases h
    exact .storeOk hi rfl
  · rename_i hi
    obtain ⟨⟨sh, st⟩, hout, heq⟩ := Option.map_eq_some_iff.mp h
    cases heq
    exact .store hi (storeStep_cases hout)
  · rename_i hi
    split at h
    · rename_i hfirst
      cases h
      exact .failAgain hi hfirst
    · rename_i hfirst
      cases h
      exact .fail hi hfirst
  · rename_i hi
    cases h
    exact .place hi
  · rename_i hi
    cases h
    exact .record hi
  · rename_i hi
    cases h
    exact .recycle hi
  · cases h

theorem step_cases (h : Pipeline.step e name a s = some s') : Step e name s a s' := by
  cases a with
  | callerEnds f =>
    simp only [step] at h
    split at h
    · rename_i hcaller
      cases h
      exact .callerEnds f hcaller
    · cases h
  | read => exact readStep_cases h
  | readCanceled => exact readCancel_cases h
  | handOff i =>
    simp only [step] at h
    split at h
    · rename_i hr hi
      cases h
      exact .handOff hr hi
    · cases h
  | worker i m => exact workerStep_cases h
  | close =>
    simp only [step] at h
    split at h
    · rename_i hr
      split at h
      · cases h
      · rename_i hclosed
        cases h
        exact .close hr (Bool.eq_false_iff.mpr hclosed)
    · cases h
  | finish =>
    simp only [step] at h
    split at h
    · rename_i hr hres
      split at h
      · rename_i hall
        cases h
        exact .finish hr hres hall.1 hall.2
      · cases h
    · cases h

end Pipeline

def Reader.buf : Reader → Option Nat
  | .filling b => some b
  | .sending u _ => some u.buf
  | _ => none

def Worker.unit : Worker → Option ChunkUnit
  | .idle | .exited => none
  | .taken u | .storing u _ | .failing u _ | .placing u _ _ | .recording u _
  | .recycling u => some u

def Worker.call : Worker → Option StoreCall
  | .storing _ c => some c
  | _ => none

namespace Pipeline

variable {w : Nat} {e : Engine} {name : String} {s s' : Pipeline w} {a : PipelineAction w}

/-- The buffer each party holds, the reader being `none`. -/
def held (s : Pipeline w) : Option (Fin w) → Option Nat
  | none => s.reader.buf
  | some i => (s.workers i).unit.map ChunkUnit.buf

def calls (s : Pipeline w) (i : Fin w) : Option StoreCall := (s.workers i).call

theorem held_reader (s : Pipeline w) (r : Reader) :
    { s with reader := r }.held = Function.update s.held none r.buf := by
  funext k
  cases k with
  | none => rw [Function.update_self]; rfl
  | some i => rw [Function.update_of_ne (Option.some_ne_none i)]; rfl

@[grind =] theorem held_setWorker (s : Pipeline w) (i : Fin w) (wk : Worker) :
    (s.setWorker i wk).held =
      Function.update s.held (some i) (wk.unit.map ChunkUnit.buf) := by
  funext k
  by_cases hk : k = some i
  · subst hk
    rw [Function.update_self]
    simp [held, setWorker]
  · rw [Function.update_of_ne hk]
    cases k with
    | none => rfl
    | some j =>
      have hj : j ≠ i := fun h => hk (congrArg some h)
      simp only [held, setWorker, Function.update_of_ne hj]

@[grind =]
theorem held_setWorker_same {i : Fin w} {wk : Worker} (h : wk.unit = (s.workers i).unit) :
    (s.setWorker i wk).held = s.held := by
  rw [held_setWorker, h]
  exact Function.update_eq_self (some i) s.held

theorem held_reader_same {r : Reader} (h : r.buf = s.reader.buf) :
    { s with reader := r }.held = s.held := by
  rw [held_reader, h]
  exact Function.update_eq_self none s.held

@[grind =] theorem calls_setWorker (s : Pipeline w) (i : Fin w) (wk : Worker) :
    (s.setWorker i wk).calls = Function.update s.calls i wk.call := by
  funext j
  by_cases hj : j = i
  · subst hj
    simp [calls, setWorker]
  · simp only [calls, setWorker, Function.update_of_ne hj]

@[grind =]
theorem calls_setWorker_same {i : Fin w} {wk : Worker} (h : wk.call = (s.workers i).call) :
    (s.setWorker i wk).calls = s.calls := by
  rw [calls_setWorker, h]
  exact Function.update_eq_self i s.calls

def Pooled (s : Pipeline w) : Prop := Pool (w + 1) s.allocated s.free s.held

theorem Pooled.of_held {held : Option (Fin w) → Option Nat} (hheld : s.held = held)
    (h : Pool (w + 1) s.allocated s.free held) : s.Pooled := by
  unfold Pooled
  rw [hheld]
  exact h

theorem Pooled.putBuf (h : s.Pooled) {k : Option (Fin w)} {b : Nat} (hk : s.held k = some b) :
    s.putBuf b = s.free ++ [b] := if_pos (h.length_free_lt hk)

theorem Pooled.step (h : s.Pooled) (hstep : Step e name s a s') : s'.Pooled := by
  have hreader : ∀ r, s.reader.buf = none → r.buf = none → { s with reader := r }.Pooled := by
    intro r hold hnew
    unfold Pooled
    rw [held_reader_same (hnew.trans hold.symm)]
    exact h
  have hworker : ∀ i wk, wk.unit = (s.workers i).unit → (s.setWorker i wk).Pooled := by
    intro i wk hsame
    unfold Pooled
    rw [held_setWorker_same hsame]
    exact h
  have hread : s.reader.buf = none → s.held none = none := id
  cases hstep with
  | callerEnds f hcaller => exact h
  | headCanceled hr hctx => exact hreader _ (by rw [hr]; rfl) rfl
  | head hr hctx => exact hreader _ (by rw [hr]; rfl) rfl
  | @getFree b rest hr hfree =>
    have hnone : s.held none = none := by
      apply hread
      rcases hr with hr | hr <;> rw [hr] <;> rfl
    have hpool : Pool (w + 1) s.allocated (b :: rest) s.held := hfree ▸ h
    exact .of_held (held_reader s (.filling b)) (hpool.take hnone)
  | getNone hr hfree => exact hreader _ (by rw [hr]; rfl) rfl
  | alloc hr hroom =>
    have hnone : s.held none = none := hread (by rw [hr]; rfl)
    exact .of_held (held_reader s (.filling s.allocated)) (Pool.alloc h hnone hroom)
  | allocFull hr hroom => exact hreader _ (by rw [hr]; rfl) rfl
  | @fill b d err rest hr hread hd =>
    have hheld : { s with reader := .sending ⟨s.seq, b, d.length⟩ err }.held = s.held :=
      held_reader_same (by rw [hr]; rfl)
    exact .of_held hheld h
  | @fillNone b err rest hr hread =>
    have hb : s.held none = some b := by
      show s.reader.buf = some b
      rw [hr]
      rfl
    have hgive := Pool.give h hb
    rw [← h.putBuf hb] at hgive
    exact .of_held (held_reader s (.deciding err)) hgive
  | again hr => exact hreader _ (by rw [hr]; rfl) rfl
  | ended hr => exact hreader _ (by rw [hr]; rfl) rfl
  | waitCanceled hr hctx => exact hreader _ (by rw [hr]; rfl) rfl
  | @sendCanceled f u err hr hctx =>
    have hb : s.held none = some u.buf := by
      show s.reader.buf = some u.buf
      rw [hr]
      rfl
    have hgive := Pool.give h hb
    rw [← h.putBuf hb] at hgive
    exact .of_held (held_reader s (.finished (some (.fault f)))) hgive
  | @handOff i u err hr hi =>
    have hb : s.held none = some u.buf := by
      show s.reader.buf = some u.buf
      rw [hr]
      rfl
    have hi' : s.held (some i) = none := by
      show (s.workers i).unit.map ChunkUnit.buf = none
      rw [hi]
      rfl
    have hheld := held_setWorker { s with reader := .deciding err } i (.taken u)
    rw [held_reader s] at hheld
    exact .of_held hheld (Pool.pass h hb hi')
  | exit hi hclosed => exact hworker _ _ (by rw [hi]; rfl)
  | skip hi hctx => exact hworker _ _ (by rw [hi]; rfl)
  | begin hi hctx => exact hworker _ _ (by rw [hi]; rfl)
  | store hi hst => exact hworker _ _ (by rw [hi]; rfl)
  | storeErr hi hst => exact hworker _ _ (by rw [hi]; rfl)
  | storeOk hi hst => exact hworker _ _ (by rw [hi]; rfl)
  | fail hi hfirst => exact hworker _ _ (by rw [hi]; rfl)
  | failAgain hi hfirst => exact hworker _ _ (by rw [hi]; rfl)
  | place hi => exact hworker _ _ (by rw [hi]; rfl)
  | record hi => exact hworker _ _ (by rw [hi]; rfl)
  | @recycle i m u hi =>
    have hb : s.held (some i) = some u.buf := by
      show (s.workers i).unit.map ChunkUnit.buf = some u.buf
      rw [hi]
      rfl
    have hgive := Pool.give h hb
    rw [← h.putBuf hb] at hgive
    exact .of_held (held_setWorker s i .idle) hgive
  | close hr hclosed => exact h
  | finish hr hres hclosed hall => exact h

/-- The units the reader has not handed over yet, and the error it will end with,
as long as no cancellation stops it. -/
def ahead (name : String) (s : Pipeline w) : List Bytes × Option Err :=
  match s.reader with
  | .sending u none =>
    (s.unitData u :: (unitsOf name s.script).1, (unitsOf name s.script).2)
  | .sending u (some err) => ([s.unitData u], endErr name err)
  | .deciding (some err) => ([], endErr name err)
  | .finished err => ([], err)
  | _ => unitsOf name s.script

/-- The units handed over so far are the first ones of the stream, unless the
reader was stopped. -/
structure Reading (name : String) (script : List ReadReply) (s : Pipeline w) : Prop where
  seq_le : s.seq ≤ (unitsOf name script).1.length
  rest : (∃ f, s.reader = .finished (some (.fault f))) ∨
    (unitsOf name script).1.drop s.seq = (s.ahead name).1 ∧
      (unitsOf name script).2 = (s.ahead name).2
  sending : ∀ u err, s.reader = .sending u err → u.seq = s.seq ∧ (s.unitData u).length = u.n

variable {script : List ReadReply}

theorem Reading.frame (h : s.Reading name script) (hreader : s'.reader = s.reader)
    (hscript : s'.script = s.script) (hseq : s'.seq = s.seq) (hmem : s'.mem = s.mem) :
    s'.Reading name script := by
  have hdata : s'.unitData = s.unitData := by
    funext u
    rw [unitData, unitData, hmem]
  have hahead : s'.ahead name = s.ahead name := by
    rw [ahead, ahead, hreader, hscript, hdata]
  constructor
  · rw [hseq]
    exact h.seq_le
  · rw [hreader, hseq, hahead]
    exact h.rest
  · rw [hreader, hseq, hdata]
    exact h.sending

theorem Reading.think (h : s.Reading name script) {r : Reader}
    (hahead : { s with reader := r }.ahead name = s.ahead name)
    (hlive : ∀ f, s.reader ≠ .finished (some (.fault f)))
    (hsend : ∀ u err, r ≠ .sending u err) : { s with reader := r }.Reading name script where
  seq_le := h.seq_le
  rest := by
    rcases h.rest with ⟨f, hf⟩ | hrest
    · exact absurd hf (hlive f)
    · rw [hahead]
      exact .inr hrest
  sending u err hr := absurd hr (hsend u err)

theorem Reading.stop (h : s.Reading name script) (f : Fault) (free : List Nat) :
    { s with free := free, reader := .finished (some (.fault f)) }.Reading name script where
  seq_le := h.seq_le
  rest := .inl ⟨f, rfl⟩
  sending := nofun

theorem Reading.fill (h : s.Reading name script) {b : Nat} {d : Bytes} {err : Option Err}
    {rest : List ReadReply} (hr : s.reader = .filling b)
    (hread : readFull s.script chunkSize = (d, err, rest)) (hd : d ≠ []) :
    { s with
      script := rest
      mem := Function.update s.mem b (d ++ (s.mem b).drop d.length)
      reader := .sending ⟨s.seq, b, d.length⟩ err }.Reading name script := by
  have hdata : (Function.update s.mem b (d ++ (s.mem b).drop d.length) b).take d.length = d := by
    rw [Function.update_self, List.take_left]
  constructor
  · exact h.seq_le
  · rcases h.rest with ⟨f, hf⟩ | ⟨hdrop, hend⟩
    · rw [hr] at hf
      cases hf
    · right
      have hold : s.ahead name = unitsOf name s.script := by rw [ahead, hr]
      rw [hold] at hdrop hend
      cases err with
      | none =>
        rw [unitsOf_eq_of_ok hread] at hdrop hend
        simp only [ahead, unitData, hdata]
        exact ⟨hdrop, hend⟩
      | some err =>
        rw [unitsOf_eq_of_err hread, if_neg hd] at hdrop
        rw [unitsOf_eq_of_err hread] at hend
        simp only [ahead, unitData, hdata]
        exact ⟨hdrop, hend⟩
  · intro u err' hu
    cases hu
    refine ⟨rfl, ?_⟩
    simp only [unitData, hdata]

theorem Reading.fillNone (h : s.Reading name script) {b : Nat} {err : Option Err}
    {rest : List ReadReply} (hr : s.reader = .filling b)
    (hread : readFull s.script chunkSize = ([], err, rest)) (mem : Nat → Bytes)
    (free : List Nat) :
    { s with
      script := rest
      mem := mem
      free := free
      reader := .deciding err }.Reading name script := by
  constructor
  · exact h.seq_le
  · rcases h.rest with ⟨f, hf⟩ | ⟨hdrop, hend⟩
    · rw [hr] at hf
      cases hf
    · right
      have hold : s.ahead name = unitsOf name s.script := by rw [ahead, hr]
      rw [hold] at hdrop hend
      cases err with
      | none =>
        have hfull : (readFull s.script chunkSize).1.length = chunkSize :=
          readFull_full (by rw [hread])
        rw [hread] at hfull
        exact absurd hfull.symm (Nat.ne_of_gt chunkSize_pos)
      | some err =>
        rw [unitsOf_eq_of_err hread, if_pos rfl] at hdrop
        rw [unitsOf_eq_of_err hread] at hend
        exact ⟨hdrop, hend⟩
  · exact nofun

theorem Reading.next (h : s.Reading name script) {u : ChunkUnit} {err : Option Err}
    (hr : s.reader = .sending u err) : (unitsOf name script).1[s.seq]? = some (s.unitData u) := by
  rcases h.rest with ⟨f, hf⟩ | ⟨hdrop, -⟩
  · rw [hr] at hf
    cases hf
  · have hhead : ((unitsOf name script).1.drop s.seq).head? = some (s.unitData u) := by
      rw [hdrop, ahead, hr]
      cases err <;> rfl
    rw [← List.head?_drop]
    exact hhead

theorem Reading.finished (h : s.Reading name script) {err : Option Err}
    (hr : s.reader = .finished err) (hstop : ∀ f, err ≠ some (.fault f)) :
    s.seq = (unitsOf name script).1.length ∧ (unitsOf name script).2 = err := by
  rcases h.rest with ⟨f, hf⟩ | ⟨hdrop, hend⟩
  · rw [hr] at hf
    exact absurd (Reader.finished.inj hf) (hstop f)
  · rw [ahead, hr] at hdrop hend
    have hle := List.drop_eq_nil_iff.mp hdrop
    exact ⟨Nat.le_antisymm h.seq_le hle, hend⟩

theorem Reading.handOff (h : s.Reading name script) {i : Fin w} {u : ChunkUnit}
    {err : Option Err} (hr : s.reader = .sending u err) :
    { s.setWorker i (.taken u) with seq := s.seq + 1, reader := .deciding err }.Reading
      name script := by
  have hlt : s.seq < (unitsOf name script).1.length :=
    List.getElem?_eq_some_iff.mp (h.next hr) |>.1
  constructor
  · exact hlt
  · right
    rcases h.rest with ⟨f, hf⟩ | ⟨hdrop, hend⟩
    · rw [hr] at hf
      cases hf
    · have htail : (unitsOf name script).1.drop (s.seq + 1) = (s.ahead name).1.tail := by
        rw [← hdrop, List.tail_drop]
      dsimp only
      rw [htail, hend]
      unfold ahead
      rw [hr]
      cases err <;> exact ⟨rfl, rfl⟩
  · exact nofun

theorem Reading.step (h : s.Reading name script) (hstep : Step e name s a s') :
    s'.Reading name script := by
  cases hstep with
  | callerEnds f hcaller => exact h.frame rfl rfl rfl rfl
  | headCanceled hr hctx => exact h.stop _ _
  | head hr hctx => exact h.think (by rw [ahead, ahead, hr]) (by rw [hr]; exact nofun) nofun
  | getFree hr hfree =>
    refine Reading.frame (s := { s with reader := .filling _ }) (h.think ?_ ?_ nofun) rfl rfl rfl rfl
    · rw [ahead, ahead]
      rcases hr with hr | hr <;> rw [hr]
    · rcases hr with hr | hr <;> rw [hr] <;> exact nofun
  | getNone hr hfree => exact h.think (by rw [ahead, ahead, hr]) (by rw [hr]; exact nofun) nofun
  | alloc hr hroom =>
    refine Reading.frame (s := { s with reader := .filling _ }) (h.think ?_ ?_ nofun) rfl rfl rfl rfl
    · rw [ahead, ahead, hr]
    · rw [hr]
      exact nofun
  | allocFull hr hroom =>
    exact h.think (by rw [ahead, ahead, hr]) (by rw [hr]; exact nofun) nofun
  | fill hr hread hd => exact h.fill hr hread hd
  | fillNone hr hread => exact h.fillNone hr hread _ _
  | again hr => exact h.think (by rw [ahead, ahead, hr]) (by rw [hr]; exact nofun) nofun
  | ended hr => exact h.think (by rw [ahead, ahead, hr]) (by rw [hr]; exact nofun) nofun
  | waitCanceled hr hctx => exact h.stop _ _
  | sendCanceled hr hctx => exact h.stop _ _
  | handOff hr hi => exact h.handOff hr
  | _ => exact h.frame rfl rfl rfl rfl

theorem reading_initial (name : String) (caller : Option Fault) (script : List ReadReply)
    (t : Target) (st : Stats) :
    (initial caller script t st : Pipeline w).Reading name script where
  seq_le := Nat.zero_le _
  rest := .inr ⟨rfl, rfl⟩
  sending := nofun

theorem pooled_initial (caller : Option Fault) (script : List ReadReply) (t : Target)
    (st : Stats) : (initial caller script t st : Pipeline w).Pooled := by
  have hheld : (initial caller script t st : Pipeline w).held = fun _ => none := by
    funext k
    cases k <;> rfl
  exact .of_held hheld (Pool.initial (w + 1))

end Pipeline

end ProxBack.Engine
