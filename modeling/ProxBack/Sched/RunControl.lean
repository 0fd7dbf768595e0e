import ProxBack.Sched.Execute
import ProxBack.Store.Policy

/-! The run control of a policy, whatever the work is that it is applied to: a duration limit
around the whole of it and the retries that follow a failure. -/
namespace ProxBack.Sched.Control
open Lib Prog Engine Store

inductive Call where
  | attempt
  | runCtxErr
  | retryWait (minutes : Int)

abbrev Reply (ε : Type) : Call → Type
  | .attempt => Option ε
  | .runCtxErr | .retryWait _ => Option Fault

inductive RunErr (ε : Type) where
  | attempt (err : ε)
  | maxDuration (minutes : Int)
deriving DecidableEq

section
variable {ε : Type} (canceled : ε → Bool)

/-- The loop of `runUnderPolicy`, with as many attempts left as its second argument says. -/
def tryLoop (delay : Int) : Nat → Prog Call (Reply ε) (Option (Option ε))
  | 0 => .ret (some none)
  | k + 1 =>
    .call .attempt fun
    | none => .ret none
    | some err =>
      .call .runCtxErr fun ctx =>
        if ctx ≠ none ∨ canceled err then .ret (some (some err))
        else if k = 0 then .ret (some (some err))
        else
          .call (.retryWait delay) fun
          | some _ => .ret (some (some err))
          | none => tryLoop delay k

def runUnderPolicy (policy : RunControl) : Prog Call (Reply ε) (Option (RunErr ε)) :=
  tryLoop canceled policy.retryDelayMinutes (policy.retryCount + 1).toNat >>= fun
  | none => .ret none
  | some err =>
    if policy.maxDurationMinutes > 0 then
      .call .runCtxErr fun ctx =>
        if ctx = some .deadlineExceeded then
          .ret (some (.maxDuration policy.maxDurationMinutes))
        else .ret (err.map .attempt)
    else .ret (err.map .attempt)

def answer (attempt : Execute.ExecM (Option Execute.Err)) :
    (c : Call) → Execute.ExecM (Reply Execute.Err c)
  | .attempt => attempt
  | .runCtxErr => .call .runCtxErr .ret
  | .retryWait minutes => .call (.retryWait minutes) .ret

def runErr : RunErr Execute.Err → Execute.Err
  | .attempt err => err
  | .maxDuration minutes => .maxDuration minutes

theorem interp_tryLoop (attempt : Execute.ExecM (Option Execute.Err)) (delay : Int) (n : Nat) :
    interp (answer attempt) (tryLoop Execute.Err.canceled delay n) = Execute.tryLoop delay attempt n := by
  induction n with
  | zero => rfl
  | succ n ih =>
    refine congrArg (attempt >>= ·) (funext fun res => ?_)
    cases res with
    | none => rfl
    | some err =>
      refine congrArg (Prog.call Execute.Call.runCtxErr) (funext fun ctx => ?_)
      change interp (answer attempt) (if ctx ≠ none ∨ err.canceled = true then _ else _) = _
      by_cases hstop : ctx ≠ none ∨ err.canceled
      · rw [if_pos hstop, if_pos hstop]
        rfl
      rw [if_neg hstop, if_neg hstop]
      by_cases hlast : n = 0
      · rw [if_pos hlast, if_pos hlast]
        rfl
      rw [if_neg hlast, if_neg hlast]
      refine congrArg (Prog.call (Execute.Call.retryWait delay)) (funext fun cut => ?_)
      cases cut with
      | none => exact ih
      | some f => rfl

theorem interp_runUnderPolicy (policy : RunControl) (attempt : Execute.ExecM (Option Execute.Err)) :
    (interp (answer attempt) (runUnderPolicy Execute.Err.canceled policy) >>= fun res =>
      .ret (res.map runErr)) = Execute.runUnderPolicy policy attempt := by
  unfold runUnderPolicy Execute.runUnderPolicy
  rw [interp_bind, interp_tryLoop, bind_assoc]
  refine congrArg (_ >>= ·) (funext fun res => ?_)
  cases res with
  | none => rfl
  | some err =>
    dsimp only
    by_cases hlimit : policy.maxDurationMinutes > 0
    · rw [if_pos hlimit, if_pos hlimit]
      refine congrArg (Prog.call Execute.Call.runCtxErr) (funext fun ctx => ?_)
      change (interp (answer attempt) (if ctx = some .deadlineExceeded then _ else _) >>= _) = _
      by_cases hended : ctx = some .deadlineExceeded
      · rw [if_pos hended, if_pos hended]
        rfl
      · rw [if_neg hended, if_neg hended]
        cases err <;> rfl
    · rw [if_neg hlimit, if_neg hlimit]
      cases err <;> rfl

end

-- The world: the run's context ends once, when the caller cancels or the limit expires, at any
-- moment of a call; an attempt fails or not, and the wait may notice the end or the timer first.
inductive Stop where
  | cancel
  | expire
deriving DecidableEq

def Stop.fault (limited : Bool) : Stop → Option Fault
  | .cancel => some .canceled
  | .expire => if limited then some .deadlineExceeded else none

/-- What has happened: an attempt that returned, with the context's error at that moment, or
a wait. -/
inductive Mark (ε : Type) where
  | attempt (err : Option ε) (ctx : Option Fault)
  | wait (cut : Bool)

structure World (ε : Type) where
  ended : Option Fault
  marks : List (Mark ε)

structure Choice (ε : Type) where
  stop : Option Stop
  err : Option ε
  cut : Bool

section
variable {ε : Type}

def World.later (limited : Bool) (w : World ε) (stop : Option Stop) : Option Fault :=
  w.ended.or (stop.bind (Stop.fault limited))

def machine (ε : Type) (limited : Bool) : Machine Call (Reply ε) (World ε) where
  Choice := Choice ε
  exec
    | .attempt, x, w =>
      let ctx := w.later limited x.stop
      (x.err, ⟨ctx, w.marks ++ [.attempt x.err ctx]⟩)
    | .runCtxErr, x, w =>
      let ctx := w.later limited x.stop
      (ctx, ⟨ctx, w.marks⟩)
    | .retryWait minutes, x, w =>
      let ctx := w.later limited x.stop
      if minutes ≤ 0 ∨ x.cut then (ctx, ⟨ctx, w.marks ++ [.wait ctx.isSome]⟩)
      else (none, ⟨ctx, w.marks ++ [.wait false]⟩)

/-- Nothing is tried after it: a success, a cancellation, a failure once the context was done, a
wait cut short. -/
def Mark.Stops (canceled : ε → Bool) : Mark ε → Prop
  | .attempt none _ => True
  | .attempt (some err) ctx => canceled err ∨ ctx ≠ none
  | .wait cut => cut

def outcomes (marks : List (Mark ε)) : List (Option ε) :=
  marks.filterMap fun
    | .attempt err _ => some err
    | .wait _ => none

structure Controlled (policy : RunControl) (w : World ε) (res : Option (RunErr ε)) : Prop where
  attempts : 1 ≤ (outcomes w.marks).length ∧ ((outcomes w.marks).length : Int) ≤ policy.retryCount + 1
  succeeds : res = none ↔ (outcomes w.marks).getLast? = some none
  expires : res = some (.maxDuration policy.maxDurationMinutes) ↔
    none ∉ outcomes w.marks ∧ policy.maxDurationMinutes > 0 ∧ w.ended = some .deadlineExceeded
  fails : res ≠ some (.maxDuration policy.maxDurationMinutes) →
    ∃ last, (outcomes w.marks).getLast? = some last ∧ res = last.map .attempt

@[simp] theorem outcomes_append (l l' : List (Mark ε)) : outcomes (l ++ l') = outcomes l ++ outcomes l' :=
  List.filterMap_append

@[simp] theorem outcomes_nil : outcomes ([] : List (Mark ε)) = [] := rfl

@[simp] theorem outcomes_attempt (err : Option ε) (ctx : Option Fault) (l : List (Mark ε)) :
    outcomes (.attempt err ctx :: l) = err :: outcomes l := rfl

@[simp] theorem outcomes_wait (cut : Bool) (l : List (Mark ε)) : outcomes (.wait cut :: l) = outcomes l := rfl

variable {canceled : ε → Bool}

def Going (canceled : ε → Bool) (marks : List (Mark ε)) : Prop := ∀ x ∈ marks, ¬ x.Stops canceled

theorem Going.append {marks : List (Mark ε)} {x : Mark ε} (h : Going canceled marks)
    (hx : ¬ x.Stops canceled) : Going canceled (marks ++ [x]) := by
  intro y hy
  rcases List.mem_append.mp hy with hy | hy
  · exact h y hy
  · exact List.mem_singleton.mp hy ▸ hx

theorem Going.failed {marks : List (Mark ε)} (h : Going canceled marks) : none ∉ outcomes marks := by
  intro hnone
  obtain ⟨x, hx, hout⟩ := List.mem_filterMap.mp hnone
  cases x with
  | attempt err ctx =>
    cases hout
    exact h _ hx trivial
  | wait cut => cases hout

def Starts (canceled : ε → Bool) (total : Nat) : Call → World ε → Prop
  | .attempt, w => Going canceled w.marks ∧ (outcomes w.marks).length < total
  | _, _ => True

def Tried (total : Nat) (res : Option (Option ε)) (w : World ε) : Prop :=
  (1 ≤ (outcomes w.marks).length ∧ (outcomes w.marks).length ≤ total) ∧
    match res with
    | none => (outcomes w.marks).getLast? = some none
    | some none => False
    | some (some err) => (outcomes w.marks).getLast? = some (some err) ∧ none ∉ outcomes w.marks

section Calls
variable {limited : Bool} {total : Nat} {α : Type} {post : α → World ε → Prop} {w : World ε}

theorem wp_attempt {k : Option ε → Prog Call (Reply ε) α} (hgoing : Going canceled w.marks)
    (hleft : (outcomes w.marks).length < total)
    (h : ∀ err ctx, Wp (machine ε limited).T (Starts canceled total) post (k err)
      ⟨ctx, w.marks ++ [.attempt err ctx]⟩) :
    Wp (machine ε limited).T (Starts canceled total) post (.call .attempt k) w := by
  refine ⟨⟨hgoing, hleft⟩, ?_⟩
  rintro err w' ⟨x, hx⟩
  obtain ⟨rfl, rfl⟩ := Prod.mk.inj hx
  exact h _ _

theorem wp_runCtxErr {k : Option Fault → Prog Call (Reply ε) α}
    (h : ∀ ctx, (ctx = none → w.ended = none) →
      Wp (machine ε limited).T (Starts canceled total) post (k ctx) ⟨ctx, w.marks⟩) :
    Wp (machine ε limited).T (Starts canceled total) post (.call .runCtxErr k) w := by
  refine ⟨trivial, ?_⟩
  rintro ctx w' ⟨x, hx⟩
  obtain ⟨rfl, rfl⟩ := Prod.mk.inj hx
  exact h _ fun hnone => (Option.or_eq_none_iff.mp hnone).1

theorem wp_retryWait {minutes : Int} {k : Option Fault → Prog Call (Reply ε) α}
    (hcut : ∀ f, Wp (machine ε limited).T (Starts canceled total) post (k (some f))
      ⟨some f, w.marks ++ [.wait true]⟩)
    (hover : ∀ ctx, Wp (machine ε limited).T (Starts canceled total) post (k none)
      ⟨ctx, w.marks ++ [.wait false]⟩) :
    Wp (machine ε limited).T (Starts canceled total) post (.call (.retryWait minutes) k) w := by
  refine ⟨trivial, ?_⟩
  rintro cut w' ⟨x, hx⟩
  dsimp only [machine] at hx
  split at hx
  · obtain ⟨rfl, rfl⟩ := Prod.mk.inj hx
    cases w.later limited x.stop with
    | none => exact hover none
    | some f => exact hcut f
  · obtain ⟨rfl, rfl⟩ := Prod.mk.inj hx
    exact hover _

theorem wp_tryLoop {delay : Int} {n : Nat} (hn : 0 < n) (hgoing : Going canceled w.marks)
    (htotal : (outcomes w.marks).length + n = total) :
    Wp (machine ε limited).T (Starts canceled total) (Tried total) (tryLoop canceled delay n) w := by
  induction n generalizing w with
  | zero => exact absurd hn (lt_irrefl 0)
  | succ n ih =>
    refine wp_attempt hgoing (by omega) fun err ctx => ?_
    cases err with
    | none =>
      refine ⟨?_, by simp⟩
      simp only [outcomes_append, outcomes_attempt, outcomes_nil, List.length_append, List.length_singleton]
      omega
    | some err =>
      have hfailed : ∀ w' : World ε, outcomes w'.marks = outcomes w.marks ++ [some err] →
          Tried total (some (some err)) w' := by
        intro w' hw'
        unfold Tried
        rw [hw', List.length_append, List.length_singleton]
        exact ⟨by omega, List.getLast?_concat .., by simp [hgoing.failed]⟩
      refine wp_runCtxErr fun ctx' hctx => ?_
      split
      · exact hfailed _ (by simp)
      rename_i hgo
      obtain ⟨hdone, hcanceled⟩ := not_or.mp hgo
      split
      · exact hfailed _ (by simp)
      have hmore : Going canceled (w.marks ++ [.attempt (some err) ctx]) :=
        hgoing.append fun hstop => hstop.elim hcanceled fun hended => hended (hctx (not_not.mp hdone))
      refine wp_retryWait (fun f => ?_) fun ctx'' => ?_
      · exact hfailed _ (by simp)
      · refine ih (by omega) (hmore.append nofun) ?_
        simp only [outcomes_append, outcomes_attempt, outcomes_wait, outcomes_nil, List.length_append,
          List.length_singleton, List.length_nil]
        omega

end Calls

variable {policy : RunControl}

def attemptsOf (policy : RunControl) : Nat := (policy.retryCount + 1).toNat

theorem controlled_failed {w : World ε} {err : ε}
    (h : Tried (attemptsOf policy) (some (some err)) w) (hretry : 0 ≤ policy.retryCount)
    (hlimit : ¬ (policy.maxDurationMinutes > 0 ∧ w.ended = some .deadlineExceeded)) :
    Controlled policy w (some (.attempt err)) := by
  obtain ⟨hcount, hlast, -⟩ := h
  unfold attemptsOf at hcount
  refine ⟨by omega, iff_of_false nofun ?_, iff_of_false nofun fun hexpires => hlimit hexpires.2, ?_⟩
  · rw [hlast]
    nofun
  · exact fun _ => ⟨some err, hlast, rfl⟩

theorem wp_runUnderPolicy (hretry : 0 ≤ policy.retryCount) (limited : Bool) (ended : Option Fault) :
    Wp (machine ε limited).T (Starts canceled (attemptsOf policy)) (fun res w => Controlled policy w res)
      (runUnderPolicy canceled policy) ⟨ended, []⟩ := by
  have hpos : 0 < attemptsOf policy := by
    unfold attemptsOf
    omega
  refine (wp_bind _ _ _).mpr (Wp.post_mono ?_ (wp_tryLoop hpos nofun (Nat.zero_add _)))
  intro res w htried
  match res, htried with
  | none, ⟨hcount, hlast⟩ =>
    unfold attemptsOf at hcount
    refine ⟨by omega, iff_of_true rfl hlast, iff_of_false nofun fun hexpires => ?_, fun _ => ⟨none, hlast, rfl⟩⟩
    exact hexpires.1 (List.mem_of_getLast? hlast)
  | some (some err), htried =>
    dsimp only
    split
    · rename_i hlimit
      refine wp_runCtxErr fun ctx _ => ?_
      split
      · rename_i hctx
        obtain ⟨hcount, hlast, hfailed⟩ := htried
        unfold attemptsOf at hcount
        refine ⟨by dsimp only; omega, iff_of_false nofun ?_, iff_of_true rfl ⟨hfailed, hlimit, hctx⟩,
          fun hne => absurd rfl hne⟩
        dsimp only
        rw [hlast]
        nofun
      · rename_i hctx
        exact controlled_failed htried hretry fun hexpires => hctx hexpires.2
    · rename_i hlimit
      exact controlled_failed htried hretry fun hexpires => hlimit hexpires.1

theorem within_tryLoop (canceled : ε → Bool) (delay : Int) (n : Nat) :
    Within (3 * n) (tryLoop canceled delay n) := by
  induction n with
  | zero => trivial
  | succ n ih =>
    intro err
    cases err with
    | none => trivial
    | some err =>
      intro ctx
      dsimp only
      split
      · trivial
      split
      · trivial
      intro cut
      cases cut with
      | none => exact ih
      | some f => exact within_ret _ _

theorem within_runUnderPolicy (canceled : ε → Bool) (policy : RunControl) :
    Within (3 * attemptsOf policy + 1) (runUnderPolicy canceled policy) := by
  refine (within_tryLoop canceled _ _).bind fun res => ?_
  cases res with
  | none => trivial
  | some err =>
    dsimp only
    split
    · intro ctx
      dsimp only
      split <;> trivial
    · trivial

theorem retryCount_of_accepted {m : CaseMap} {p : JobPolicy} {kind : String}
    (hvalid : p.validate m kind = none) : 0 ≤ p.retryCount := by
  have hsame : (p.normalized m).runControl.retryCount = p.retryCount := by
    dsimp only [JobPolicy.normalized, JobPolicy.runControl]
  unfold JobPolicy.validate at hvalid
  simp only [Option.orElse_eq_orElse, Option.orElse_eq_or, Option.or_eq_none_iff,
    Option.map_eq_none_iff] at hvalid
  obtain ⟨-, -, -, hcontrol, -⟩ := hvalid
  rw [← hsame]
  exact (RunControl.retryCount_of_validate hcontrol).1

/-- A run of anything under a policy that was accepted ends, begins an attempt only while none
has succeeded, been canceled, failed after the context's end, or been left by a wait cut short,
and reports what its attempts and the limit make of it. -/
theorem run_controlled (canceled : ε → Bool) {m : CaseMap} {p : JobPolicy} {kind : String}
    (hvalid : p.validate m kind = none) (ended : Option Fault) :
    Within (3 * attemptsOf p.runControl + 1) (runUnderPolicy canceled p.runControl) ∧
      ∀ es q w, Steps (machine ε (decide (p.maxDurationMinutes > 0))) (runUnderPolicy canceled p.runControl)
        ⟨ended, []⟩ es q w →
        (∀ k, q = .call .attempt k → Going canceled w.marks ∧
          ((outcomes w.marks).length : Int) < p.retryCount + 1) ∧
        ∀ res, q = .ret res → Controlled p.runControl w res := by
  refine ⟨within_runUnderPolicy canceled _, fun es q w hsteps => ?_⟩
  have hretry : 0 ≤ p.runControl.retryCount := retryCount_of_accepted hvalid
  have hwp := (wp_runUnderPolicy hretry _ ended).steps hsteps
  refine ⟨?_, ?_⟩
  · rintro k rfl
    obtain ⟨hgoing, hleft⟩ := hwp.1
    have htotal : attemptsOf p.runControl = (p.retryCount + 1).toNat := rfl
    exact ⟨hgoing, by omega⟩
  · rintro res rfl
    exact hwp

end

def patient : JobPolicy := { JobPolicy.default with retryCount := 2, maxDurationMinutes := 10 }

theorem second_attempt_succeeds :
    ∃ w, Steps (machine Unit true) (runUnderPolicy (fun _ => false) patient.runControl) ⟨none, []⟩
        [(.attempt, ⟨none, some (), false⟩), (.runCtxErr, ⟨none, none, false⟩),
          (.retryWait 5, ⟨none, none, false⟩), (.attempt, ⟨some .expire, none, false⟩)] (.ret none) w ∧
      outcomes w.marks = [some (), none] ∧ Controlled patient.runControl w none := by
  have hvalid : patient.validate asciiCase "vm" = none := by decide +kernel
  have hsteps : Steps (machine Unit true) (runUnderPolicy (fun _ => false) patient.runControl) ⟨none, []⟩
      [(.attempt, ⟨none, some (), false⟩), (.runCtxErr, ⟨none, none, false⟩),
        (.retryWait 5, ⟨none, none, false⟩), (.attempt, ⟨some .expire, none, false⟩)] (.ret none)
      ⟨some .deadlineExceeded, [.attempt (some ()) none, .wait false,
        .attempt none (some .deadlineExceeded)]⟩ :=
    .cons _ (.cons _ (.cons _ (.cons _ .nil)))
  exact ⟨_, hsteps, rfl, ((run_controlled _ hvalid none).2 _ _ _ hsteps).2 _ rfl⟩

end ProxBack.Sched.Control
