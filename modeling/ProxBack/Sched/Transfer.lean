import ProxBack.Engine.RestoreLogs
import ProxBack.Lib.System

/-! One disk on its way from the target to an importer. A goroutine writes the verified
chunks into an `io.Pipe`, the import call reads from its other end, and either of them may
be done first. -/
namespace ProxBack.Sched
open Lib Prog Engine

/-- `io.ErrClosedPipe`, one of the faults a call can end with. -/
def closedPipe : Fault := .other 32

/-- Whether `errors.Is` finds `io.ErrClosedPipe` in an error. -/
def isClosedPipe : Engine.Err → Bool
  | .fault f => f = closedPipe
  | .chunkIndex err | .rateLimit err | .storeChunk _ _ err | .readStream _ err
  | .restore _ err | .restoreWrite _ err | .gcChunkIndex err | .syncChunkIndex err =>
    isClosedPipe err
  | _ => false

/-- How an import call ends: with the status the endpoint answered, or without one. -/
inductive Answer where
  | status (code : Nat)
  | failed (f : Fault)
deriving DecidableEq, Repr

inductive ImportErr where
  | api (code : Nat)
  | transport (f : Fault)
deriving DecidableEq, Repr

def Answer.err : Answer → Option ImportErr
  | .status code => if code < 200 ∨ code ≥ 300 then some (.api code) else none
  | .failed f => some (.transport f)

/-- Where the goroutine stands: in `RestoreDisk`, in a `Write` with `left` not taken yet,
between its last two statements, or done. -/
inductive Writer where
  | running (p : RestoreM (Except Err Unit × Stats))
  | writing (data left : Bytes) (k : Except Err Unit → RestoreM (Except Err Unit × Stats))
  | closed (err : Option Err)
  | sent (err : Option Err)

/-- Where the caller stands: in the import call, before `pr.Close`, at the receive from
`errc`, or past it. -/
inductive Caller where
  | importing
  | answered (a : Answer)
  | waiting (a : Answer)
  | returned (a : Answer) (restoreErr : Option Err)

/-- `consumed` is what was read from the pipe so far. -/
structure Transfer where
  writer : Writer
  caller : Caller
  readerClosed : Bool
  consumed : Bytes

/-- `read n` is a read into a buffer of `n` bytes. The import call may close its body at
any time, and whatever reads the body for it may go on after the call has returned. -/
inductive TransferAction where
  | restore (answer : (c : RestoreCall) → RestoreReply c)
  | broken
  | read (n : Nat)
  | closeBody
  | answer (a : Answer)
  | close
  | receive

def errOf : Except Err Unit → Option Err
  | .ok () => none
  | .error err => some err

namespace Transfer

/-- The goroutine's next statement. A `Write` on a pipe whose reader is closed fails at
once, any other one waits to be read. -/
def restoreStep (answer : (c : RestoreCall) → RestoreReply c) (s : Transfer) : Option Transfer :=
  match s.writer with
  | .running (.ret (res, _)) => some { s with writer := .closed (errOf res) }
  | .running (.call (.write data) k) =>
    if s.readerClosed then some { s with writer := .running (k (.error (.fault closedPipe))) }
    else some { s with writer := .writing data data k }
  | .running (.call c k) => some { s with writer := .running (k (answer c)) }
  | .closed err => some { s with writer := .sent err }
  | .writing _ _ _ | .sent _ => none

def step : TransferAction → Transfer → Option Transfer
  | .restore answer, s => s.restoreStep answer
  | .broken, s =>
    match s.writer with
    | .writing _ _ k =>
      if s.readerClosed then some { s with writer := .running (k (.error (.fault closedPipe))) }
      else none
    | _ => none
  | .read n, s =>
    match s.writer with
    | .writing data left k =>
      if s.readerClosed then none
      else if left.length ≤ n then
        some { s with consumed := s.consumed ++ left, writer := .running (k (.ok ())) }
      else
        some { s with
          consumed := s.consumed ++ left.take n
          writer := .writing data (left.drop n) k }
    | _ => none
  | .closeBody, s =>
    match s.caller with
    | .importing => some { s with readerClosed := true }
    | _ => none
  | .answer a, s =>
    match s.caller with
    | .importing => some { s with caller := .answered a }
    | _ => none
  | .close, s =>
    match s.caller with
    | .answered a => some { s with caller := .waiting a, readerClosed := true }
    | _ => none
  | .receive, s =>
    match s.caller, s.writer with
    | .waiting a, .sent err => some { s with caller := .returned a err }
    | _, _ => none

def initial (e : Engine) (dm : DiskManifest) (st : Stats) : Transfer where
  writer := .running (e.restoreDisk dm st)
  caller := .importing
  readerClosed := false
  consumed := []

end Transfer

def transfer : System Transfer TransferAction where
  step := Transfer.step

structure Transferred where
  answer : Answer
  restoreErr : Option Err
  consumed : Bytes
deriving DecidableEq

/-- The outcomes a transfer of a disk can have: those of all interleavings, whatever the
target answers and however the importer behaves. -/
def Transfers (e : Engine) (dm : DiskManifest) (r : Transferred) : Prop :=
  ∃ st acts s, transfer.Run (fun _ _ => True) (.initial e dm st) acts s ∧
    s.caller = .returned r.answer r.restoreErr ∧ s.consumed = r.consumed

/-- The goroutine has come to where it stands with the calls of `log`, and `pre` is the
part of its present write that was read. -/
def Writer.After (p₀ : RestoreM (Except Err Unit × Stats)) (log : List (Σ c, RestoreReply c))
    (pre : Bytes) : Writer → Prop
  | .running p => Logs p₀ log p ∧ pre = []
  | .writing data left k => Logs p₀ log (.call (.write data) k) ∧ data = pre ++ left
  | .closed err | .sent err =>
    (∃ res st, Logs p₀ log (.ret (res, st)) ∧ err = errOf res) ∧ pre = []

namespace Transfer

variable {p₀ : RestoreM (Except Err Unit × Stats)} {s s' : Transfer} {a : TransferAction}

/-- What was consumed is what the goroutine has written, unless one of its writes
failed. -/
def Delivers (p₀ : RestoreM (Except Err Unit × Stats)) (s : Transfer) : Prop :=
  ∃ log pre, s.writer.After p₀ log pre ∧ (s.consumed = wrote log ++ pre ∨ Refused log)

def Received (s : Transfer) : Prop :=
  ∀ a err, s.caller = .returned a err → s.writer = .sent err

theorem Delivers.refuse {data : Bytes} {k : Except Err Unit → RestoreM (Except Err Unit × Stats)}
    {log : List (Σ c, RestoreReply c)} (h : Logs p₀ log (.call (.write data) k)) (err : Err) :
    { s with writer := .running (k (.error err)) }.Delivers p₀ := by
  refine ⟨log ++ [⟨.write data, .error err⟩], [], ⟨h.trans (.cons _ .nil), rfl⟩, .inr ?_⟩
  exact ⟨data, err, List.mem_append_right _ (.head _)⟩

theorem Delivers.call {c : RestoreCall} {k : RestoreReply c → RestoreM (Except Err Unit × Stats)}
    {log : List (Σ c, RestoreReply c)} (h : Logs p₀ log (.call c k))
    (hout : s.consumed = wrote log ∨ Refused log) (r : RestoreReply c)
    (hquiet : wrote [⟨c, r⟩] = []) :
    { s with writer := .running (k r) }.Delivers p₀ := by
  refine ⟨log ++ [⟨c, r⟩], [], ⟨h.trans (.cons _ .nil), rfl⟩, ?_⟩
  rw [wrote_append, hquiet, List.append_nil, List.append_nil]
  exact hout.imp_right fun h => h.append _

theorem Delivers.restore (h : s.Delivers p₀) {answer : (c : RestoreCall) → RestoreReply c}
    (hstep : s.restoreStep answer = some s') : s'.Delivers p₀ := by
  obtain ⟨log, pre, hafter, hout⟩ := h
  unfold restoreStep at hstep
  split at hstep
  · rename_i res st hw
    cases hstep
    rw [hw] at hafter
    exact ⟨log, pre, ⟨⟨res, st, hafter.1, rfl⟩, hafter.2⟩, hout⟩
  · rename_i data k hw
    rw [hw] at hafter
    obtain ⟨hlog, rfl⟩ := hafter
    split at hstep
    · cases hstep
      exact .refuse hlog _
    · cases hstep
      exact ⟨log, [], ⟨hlog, rfl⟩, hout⟩
  · rename_i c k hwrite hw
    cases hstep
    rw [hw] at hafter
    obtain ⟨hlog, rfl⟩ := hafter
    rw [List.append_nil] at hout
    refine .call hlog hout _ ?_
    cases c with
    | write data => exact absurd HEq.rfl (hwrite data k rfl)
    | engine c => rfl
    | ctxErr => rfl
  · rename_i err hw
    cases hstep
    rw [hw] at hafter
    exact ⟨log, pre, hafter, hout⟩
  · cases hstep
  · cases hstep

theorem Delivers.read (h : s.Delivers p₀) {n : Nat} (hstep : step (.read n) s = some s') :
    s'.Delivers p₀ := by
  obtain ⟨log, pre, hafter, hout⟩ := h
  simp only [step] at hstep
  split at hstep
  · rename_i data left k hw
    rw [hw] at hafter
    obtain ⟨hlog, hdata⟩ := hafter
    split at hstep
    · cases hstep
    · split at hstep
      · cases hstep
        refine ⟨log ++ [⟨.write data, .ok ()⟩], [], ⟨hlog.trans (.cons _ .nil), rfl⟩, ?_⟩
        rcases hout with hout | hout
        · left
          dsimp only
          rw [hout, wrote_append, List.append_nil, List.append_assoc, ← hdata]
          simp [wrote]
        · exact .inr (hout.append _)
      · cases hstep
        refine ⟨log, pre ++ left.take n, ⟨hlog, ?_⟩, ?_⟩
        · rw [List.append_assoc, List.take_append_drop, hdata]
        · rcases hout with hout | hout
          · left
            dsimp only
            rw [hout, List.append_assoc]
          · exact .inr hout
  · cases hstep

theorem Delivers.step (h : s.Delivers p₀) (hstep : transfer.step a s = some s') :
    s'.Delivers p₀ := by
  cases a with
  | restore answer => exact h.restore hstep
  | read n => exact h.read hstep
  | broken =>
    obtain ⟨log, pre, hafter, hout⟩ := h
    simp only [transfer, Transfer.step] at hstep
    split at hstep
    · rename_i data left k hw
      rw [hw] at hafter
      split at hstep
      · cases hstep
        exact .refuse hafter.1 _
      · cases hstep
    · cases hstep
  | closeBody =>
    simp only [transfer, Transfer.step] at hstep
    split at hstep <;> cases hstep
    exact h
  | answer a =>
    simp only [transfer, Transfer.step] at hstep
    split at hstep <;> cases hstep
    exact h
  | close =>
    simp only [transfer, Transfer.step] at hstep
    split at hstep <;> cases hstep
    exact h
  | receive =>
    simp only [transfer, Transfer.step] at hstep
    split at hstep <;> cases hstep
    exact h

theorem sent_stays {err : Option Err} (h : s.writer = .sent err)
    (hstep : transfer.step a s = some s') : s'.writer = .sent err := by
  cases a with
  | restore answer => simp [transfer, Transfer.step, restoreStep, h] at hstep
  | broken => simp [transfer, Transfer.step, h] at hstep
  | read n => simp [transfer, Transfer.step, h] at hstep
  | closeBody | answer a | close | receive =>
    simp only [transfer, Transfer.step] at hstep
    split at hstep <;> cases hstep
    exact h

theorem caller_restore {answer : (c : RestoreCall) → RestoreReply c}
    (hstep : s.restoreStep answer = some s') : s'.caller = s.caller := by
  unfold restoreStep at hstep
  split at hstep
  case h_2 => split at hstep <;> cases hstep <;> rfl
  all_goals cases hstep
  all_goals rfl

theorem Received.step (h : s.Received) (hstep : transfer.step a s = some s') : s'.Received := by
  intro b err hret
  by_cases hold : s.caller = .returned b err
  · exact sent_stays (h b err hold) hstep
  cases a with
  | restore answer => exact absurd ((caller_restore hstep).symm.trans hret) hold
  | receive =>
    simp only [transfer, Transfer.step] at hstep
    split at hstep
    · rename_i hw
      cases hstep
      cases hret
      exact hw
    · cases hstep
  | broken =>
    simp only [transfer, Transfer.step] at hstep
    split at hstep
    · split at hstep <;> cases hstep
      exact absurd hret hold
    · cases hstep
  | read n =>
    simp only [transfer, Transfer.step] at hstep
    split at hstep
    · split at hstep
      · cases hstep
      · split at hstep <;> cases hstep <;> exact absurd hret hold
    · cases hstep
  | closeBody =>
    simp only [transfer, Transfer.step] at hstep
    split at hstep <;> cases hstep
    exact absurd hret hold
  | answer a =>
    simp only [transfer, Transfer.step] at hstep
    split at hstep <;> cases hstep
    cases hret
  | close =>
    simp only [transfer, Transfer.step] at hstep
    split at hstep <;> cases hstep
    cases hret

end Transfer

/-- The goroutine of a transfer that is over has run `RestoreDisk` to its end, and unless
one of its writes failed the importer got all it has written. -/
theorem Transfers.restored {e : Engine} {dm : DiskManifest} {r : Transferred}
    (h : Transfers e dm r) :
    ∃ st log res st', Logs (e.restoreDisk dm st) log (.ret (res, st')) ∧
      r.restoreErr = errOf res ∧ (r.consumed = wrote log ∨ Refused log) := by
  obtain ⟨st, acts, s, hrun, hcaller, hconsumed⟩ := h
  have hinv : s.Delivers (e.restoreDisk dm st) ∧ s.Received := by
    refine hrun.invariant (I := fun s => s.Delivers (e.restoreDisk dm st) ∧ s.Received) ?_ ?_
    · rintro a s₁ s₂ ⟨hdel, hrec⟩ - hstep
      exact ⟨hdel.step hstep, hrec.step hstep⟩
    · exact ⟨⟨[], [], ⟨.nil, rfl⟩, .inl rfl⟩, nofun⟩
  obtain ⟨⟨log, pre, hafter, hout⟩, hrec⟩ := hinv
  rw [hrec _ _ hcaller] at hafter
  obtain ⟨⟨res, st', hlog, herr⟩, rfl⟩ := hafter
  rw [List.append_nil, hconsumed] at hout
  exact ⟨st, log, res, st', hlog, herr, hout⟩

theorem Transfers.complete {e : Engine} {dm : DiskManifest} {r : Transferred}
    (h : Transfers e dm r) (herr : r.restoreErr = none) :
    ∃ datas, List.Forall₂ (Verified e) dm.chunks datas ∧ r.consumed = datas.flatten ∧
      (dm.sizeBytes = 0 ∨ r.consumed.length = dm.sizeBytes) := by
  obtain ⟨st, log, res, st', hlog, hres, hout⟩ := h.restored
  cases res with
  | error err =>
    rw [herr] at hres
    cases hres
  | ok =>
    obtain ⟨datas, hall, hwrote, hsize, hquiet⟩ := restoreDisk_logs hlog
    have hconsumed := hout.resolve_right hquiet
    rw [hwrote] at hconsumed
    refine ⟨datas, hall, hconsumed, ?_⟩
    rw [hconsumed]
    exact hsize

end ProxBack.Sched
