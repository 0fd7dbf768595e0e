import ProxBack.Engine.ChunkStore
import ProxBack.Lib.System

/-! Concurrent stores on one engine. Stores of one hash are coalesced through the
in-flight table: the first caller uploads and the others wait for its outcome. -/
namespace ProxBack.Engine
open Lib Prog

/-- What the calls on one engine share: the target, the in-flight table, and the
entries made so far, each with its outcome once its channel is closed. -/
structure Shared where
  target : Target
  inflight : FinMap Sha Nat
  made : Nat
  done : Nat → Option (Option Err)

/-- Where one call of `storeChunkWithHash` stands. -/
inductive StoreState where
  | entering
  | waiting (pending : Nat)
  | putting (pending : Nat) (rest : EngineM (Except Err Nat))
  | publishing (pending : Nat) (res : Except Err Nat)
  | returned (res : Except Err Nat)

/-- The two ways a call can move on: by its own next statement, or out of the
`select` because its context ended. -/
inductive StoreMove where
  | go (x : Choice)
  | giveUp

def pendingErr : Except Err Nat → Option Err
  | .ok _ => none
  | .error err => some err

/-- One step of a call for `sha` whose context is in state `ctx`. -/
def storeStep (e : Engine) (sha : Sha) (data : Bytes) (ctx : Option Fault) :
    StoreMove → Shared → StoreState → Option (Shared × StoreState)
  | .go _, sh, .entering =>
    match sh.inflight.lookup sha with
    | some p => some (sh, .waiting p)
    | none =>
      some ({ sh with inflight := sh.inflight.insert sha sh.made, made := sh.made + 1 },
        .putting sh.made (e.putChunk sha data))
  | .go _, sh, .waiting p =>
    match sh.done p with
    | none => none
    | some none => some (sh, .returned (.ok 0))
    | some (some _) => some (sh, .entering)
  | .giveUp, sh, .waiting _ => ctx.map fun f => (sh, .returned (.error (.fault f)))
  | .go x, sh, .putting p (.call c k) =>
    some ({ sh with target := (Target.exec c x sh.target).2 },
      .putting p (k (Target.exec c x sh.target).1))
  | .go _, sh, .putting p (.ret res) =>
    some ({ sh with inflight := sh.inflight.erase sha }, .publishing p res)
  | .go _, sh, .publishing p res =>
    some ({ sh with done := Function.update sh.done p (some (pendingErr res)) }, .returned res)
  | _, _, _ => none

structure StoreCall where
  sha : Sha
  data : Bytes
  st : StoreState

structure Callers (ι : Type) where
  shared : Shared
  calls : ι → Option StoreCall
  ctx : ι → Option Fault

inductive CallersAction (ι : Type) where
  | start (i : ι) (sha : Sha) (data : Bytes)
  | leave (i : ι)
  | endContext (i : ι) (f : Fault)
  | move (i : ι) (m : StoreMove)

variable {ι : Type} [DecidableEq ι]

def Callers.step (e : Engine) : CallersAction ι → Callers ι → Option (Callers ι)
  | .start i sha data, s =>
    match s.calls i with
    | none => some { s with calls := Function.update s.calls i (some ⟨sha, data, .entering⟩) }
    | some _ => none
  | .leave i, s =>
    match s.calls i with
    | some ⟨_, _, .returned _⟩ => some { s with calls := Function.update s.calls i none }
    | _ => none
  | .endContext i f, s =>
    match s.ctx i with
    | none => some { s with ctx := Function.update s.ctx i (some f) }
    | some _ => none
  | .move i m, s =>
    match s.calls i with
    | none => none
    | some c =>
      (storeStep e c.sha c.data (s.ctx i) m s.shared c.st).map fun out =>
        { s with
          shared := out.1
          calls := Function.update s.calls i (some { c with st := out.2 }) }

def callers (ι : Type) [DecidableEq ι] (e : Engine) : System (Callers ι) (CallersAction ι) where
  step := Callers.step e

def Callers.initial (t : Target) (ctx : ι → Option Fault) : Callers ι where
  shared := ⟨t, ∅, 0, fun _ => none⟩
  calls := fun _ => none
  ctx := ctx

/-- What a step of a call can be: it joins the waiters or takes the lead, a
waiter is credited, tries again or gives up, and a leader makes a call, leaves
the table or publishes its outcome. -/
inductive StoreStep (e : Engine) (sha : Sha) (data : Bytes) (ctx : Option Fault) (sh : Shared) :
    StoreMove → StoreState → Shared → StoreState → Prop where
  | join {m p} (h : sh.inflight.lookup sha = some p) :
      StoreStep e sha data ctx sh m .entering sh (.waiting p)
  | lead {m} (h : sh.inflight.lookup sha = none) :
      StoreStep e sha data ctx sh m .entering
        { sh with inflight := sh.inflight.insert sha sh.made, made := sh.made + 1 }
        (.putting sh.made (e.putChunk sha data))
  | credited {m p} (h : sh.done p = some none) :
      StoreStep e sha data ctx sh m (.waiting p) sh (.returned (.ok 0))
  | retry {m p err} (h : sh.done p = some (some err)) :
      StoreStep e sha data ctx sh m (.waiting p) sh .entering
  | giveUp {m p f} (h : ctx = some f) :
      StoreStep e sha data ctx sh m (.waiting p) sh (.returned (.error (.fault f)))
  | call {p c k} (x : Choice) :
      StoreStep e sha data ctx sh (.go x) (.putting p (.call c k))
        { sh with target := (Target.exec c x sh.target).2 }
        (.putting p (k (Target.exec c x sh.target).1))
  | unlist {m p res} :
      StoreStep e sha data ctx sh m (.putting p (.ret res))
        { sh with inflight := sh.inflight.erase sha } (.publishing p res)
  | publish {m p res} :
      StoreStep e sha data ctx sh m (.publishing p res)
        { sh with done := Function.update sh.done p (some (pendingErr res)) } (.returned res)

theorem storeStep_cases {e : Engine} {sha : Sha} {data : Bytes} {ctx : Option Fault}
    {m : StoreMove} {sh sh' : Shared} {st st' : StoreState}
    (h : storeStep e sha data ctx m sh st = some (sh', st')) :
    StoreStep e sha data ctx sh m st sh' st' := by
  unfold storeStep at h
  split at h
  · split at h
    · rename_i p hp
      cases h
      exact .join hp
    · rename_i hp
      cases h
      exact .lead hp
  · split at h
    · cases h
    · rename_i hp
      cases h
      exact .credited hp
    · rename_i err hp
      cases h
      exact .retry hp
  · obtain ⟨f, hf, heq⟩ := Option.map_eq_some_iff.mp h
    cases heq
    exact .giveUp hf
  · cases h
    exact .call _
  · cases h
    exact .unlist
  · cases h
    exact .publish
  · cases h

end ProxBack.Engine
