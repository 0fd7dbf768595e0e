import ProxBack.Api.Preview
import ProxBack.Sched.Transfer

/-! `restoreVM`: where a restore point goes, and how its disks get there, through the
helper of the node or disk by disk. -/
namespace ProxBack.Sched.Restore
open Lib Prog Engine

inductive Err where
  | targetRequired
  | loadHost (err : Store.Err)
  | client (f : Fault)
  | sourceID (sourceID : String)
  | findNode (f : Fault)
  | lookUpHelper (node : String) (err : Store.Err)
  | unassignedHelper (node : String)
  | noHelper (node : String)
  | helperOffline (node : String)
  | ctx (f : Fault)
  | engine (err : Engine.Err)
  | importDisk (err : ImportErr)
  | viaHelper (sourceName node : String) (err : ImportErr)
deriving DecidableEq

structure VMRestoreTarget where
  hostID : String
  vmid : Int

structure RestorePlan where
  hostID : String
  node : String
  vmid : Int

structure Host where
  id : String

structure NodeHelper where
  node : String
  online : Bool

inductive Via where
  | helper (vmid : Int) (h : NodeHelper)
  | host (node : String) (vmid : Int)

inductive Call where
  | pveHostByID (id : String)
  | pveClient (host : Host)
  | findNodeForVM (vmid : Int)
  | helperFor (hostID node : String)
  | unassignedHelperForNode (node : String)
  | ctxErr
  | transfer (via : Via) (disk : DiskManifest)

abbrev Reply : Call → Type
  | .pveHostByID _ => Except Store.Err Host
  | .pveClient _ => Except Fault Unit
  | .findNodeForVM _ => Except Fault String
  | .helperFor _ _ => Except Store.Err NodeHelper
  | .unassignedHelperForNode _ => Except Store.Err Unit
  | .ctxErr => Option Fault
  | .transfer _ _ => Transferred

abbrev RestoreVM (α : Type) := Prog Call Reply α

/-- The part of a `<hostID>_<vmid>` after its last underscore. -/
def vmidFromSourceID (sourceID : String) : Except Err Int :=
  if ¬ sourceID.toList.contains '_' then .error (.sourceID sourceID)
  else
    match Api.atoi (.ofList (sourceID.toList.reverse.takeWhile (· ≠ '_')).reverse) with
    | some vmid => .ok vmid
    | none => .error (.sourceID sourceID)

def isVMAManifest (disks : List DiskManifest) : Bool :=
  match disks with
  | [d] => d.name = "vma"
  | _ => false

def helperForNode (hostID node : String) : RestoreVM (Except Err (Option NodeHelper)) :=
  .call (.helperFor hostID node) fun
  | .error .notFound =>
    .call (.unassignedHelperForNode node) fun
    | .ok () => .ret (.error (.unassignedHelper node))
    | .error .notFound => .ret (.ok none)
    | .error err => .ret (.error (.lookUpHelper node err))
  | .error err => .ret (.error (.lookUpHelper node err))
  | .ok h => if ¬ h.online then .ret (.error (.helperOffline node)) else .ret (.ok (some h))

def requireHelperForNode (hostID node : String) : RestoreVM (Except Err NodeHelper) :=
  helperForNode hostID node >>= fun
  | .error err => .ret (.error err)
  | .ok none => .ret (.error (.noHelper node))
  | .ok (some h) => .ret (.ok h)

/-- The end of both restores: an error of the goroutine that is not a closed pipe comes
first, then the importer's, then the closed pipe. -/
def transferErr (wrap : ImportErr → Err) (out : Transferred) : Option Err :=
  match out.restoreErr with
  | some err =>
    if ¬ isClosedPipe err then some (.engine err)
    else match out.answer.err with
      | some ierr => some (wrap ierr)
      | none => some (.engine err)
  | none => out.answer.err.map wrap

def restoreViaHelper (man : Manifest) (disk : DiskManifest) (h : NodeHelper) (vmid : Int) :
    RestoreVM (Option Err) :=
  .call (.transfer (.helper vmid h) disk) fun out =>
  .ret (transferErr (.viaHelper man.sourceName h.node) out)

def restoreDisks (node : String) (vmid : Int) : List DiskManifest → RestoreVM (Option Err)
  | [] => .ret none
  | disk :: rest =>
    .call .ctxErr fun
    | some f => .ret (some (.ctx f))
    | none =>
      .call (.transfer (.host node vmid) disk) fun out =>
      match transferErr .importDisk out with
      | some err => .ret (some err)
      | none => restoreDisks node vmid rest

/-- The node of the destination: the planned one, else where the guest is, else where its
source is. -/
def findNode (plan : RestorePlan) (vmid : Int) (source : Except Err Int) :
    RestoreVM (Except Err String) :=
  if plan.node ≠ "" then .ret (.ok plan.node)
  else
    .call (.findNodeForVM vmid) fun
    | .ok node => .ret (.ok node)
    | .error f =>
      match source with
      | .error _ => .ret (.error (.findNode f))
      | .ok sourceVMID =>
        .call (.findNodeForVM sourceVMID) fun
        | .ok node => .ret (.ok node)
        | .error f => .ret (.error (.findNode f))

/-- The guest to restore into: the planned one, else the one asked for, else the source. -/
def findVMID (spec : VMRestoreTarget) (plan : RestorePlan) (source : Except Err Int) :
    Except Err Int :=
  if plan.vmid ≠ 0 then .ok plan.vmid
  else if spec.vmid ≠ 0 then .ok spec.vmid
  else source

def restoreVM (man : Manifest) (spec : Option VMRestoreTarget) (plan : RestorePlan) :
    RestoreVM (Option Err) :=
  match spec with
  | none => .ret (some .targetRequired)
  | some spec =>
    .call (.pveHostByID (if spec.hostID = "" then plan.hostID else spec.hostID)) fun
    | .error err => .ret (some (.loadHost err))
    | .ok host =>
      .call (.pveClient host) fun
      | .error f => .ret (some (.client f))
      | .ok () =>
        match findVMID spec plan (vmidFromSourceID man.sourceID) with
        | .error err => .ret (some err)
        | .ok vmid =>
          findNode plan vmid (vmidFromSourceID man.sourceID) >>= fun
          | .error err => .ret (some err)
          | .ok node =>
            match man.disks, isVMAManifest man.disks with
            | disk :: _, true =>
              requireHelperForNode host.id node >>= fun
              | .error err => .ret (some err)
              | .ok h => restoreViaHelper man disk h vmid
            | disks, _ => restoreDisks node vmid disks

abbrev Event := Σ c : Call, Reply c

def Behaves (e : Engine) (log : List Event) : Prop :=
  ∀ via disk r, ⟨.transfer via disk, r⟩ ∈ log → Transfers e disk r

theorem transferErr_none {wrap : ImportErr → Err} {out : Transferred}
    (h : transferErr wrap out = none) : out.restoreErr = none ∧ out.answer.err = none := by
  unfold transferErr at h
  split at h
  · split at h
    · cases h
    · split at h <;> cases h
  · rename_i hnone
    exact ⟨hnone, by simpa using h⟩

def Via.wrap (sourceName : String) : Via → ImportErr → Err
  | .helper _ h => .viaHelper sourceName h.node
  | .host _ _ => .importDisk

theorem transferErr_import {wrap : ImportErr → Err} {out : Transferred} {ierr : ImportErr}
    (hpipe : ∀ err, out.restoreErr = some err → isClosedPipe err = true)
    (hierr : out.answer.err = some ierr) : transferErr wrap out = some (wrap ierr) := by
  unfold transferErr
  split
  · rename_i err herr
    simp [hpipe err herr, hierr]
  · rw [hierr]
    rfl

theorem transferErr_engine {wrap : ImportErr → Err} {out : Transferred} {err : Engine.Err}
    (herr : out.restoreErr = some err) (hpipe : isClosedPipe err = false) :
    transferErr wrap out = some (.engine err) := by
  simp [transferErr, herr, hpipe]

def Done (log : List Event) (disk : DiskManifest) : Prop :=
  ∃ via r, ⟨.transfer via disk, r⟩ ∈ log ∧ r.restoreErr = none ∧ r.answer.err = none

def Failed (sourceName : String) (log : List Event) (err : Err) : Prop :=
  ∃ via disk r, ⟨.transfer via disk, r⟩ ∈ log ∧ transferErr (via.wrap sourceName) r = some err

/-- What an answer says about the transfers before it: nil means that every disk is done,
and the error of a failed transfer is the answer. -/
structure Tells (sourceName : String) (disks : List DiskManifest) (log : List Event)
    (res : Option Err) : Prop where
  done : res = none → ∀ disk ∈ disks, Done log disk
  failed : ∀ err, Failed sourceName log err → res = some err

variable {sourceName : String}

theorem restoreDisks_logs {node : String} {vmid : Int} {disks : List DiskManifest}
    {log : List Event} {res : Option Err}
    (h : Logs (restoreDisks node vmid disks) log (.ret res)) : Tells sourceName disks log res := by
  induction disks generalizing log with
  | nil =>
    obtain ⟨rfl, -⟩ := h.of_ret
    exact ⟨fun _ => nofun, fun err hfailed => by simp [Failed] at hfailed⟩
  | cons disk rest ih =>
    obtain ⟨_ | f, log, rfl, h₁⟩ := h.of_call
    rotate_left
    · obtain ⟨rfl, hret⟩ := h₁.of_ret
      cases hret
      exact ⟨nofun, fun err hfailed => by simp [Failed] at hfailed⟩
    obtain ⟨out, log, rfl, h₂⟩ := h₁.of_call
    cases herr : transferErr .importDisk out with
    | some err =>
      rw [herr] at h₂
      obtain ⟨rfl, hret⟩ := h₂.of_ret
      cases hret
      refine ⟨nofun, ?_⟩
      rintro err' ⟨via, d, r, hmem, hr⟩
      cases hmem with
      | tail _ hmem =>
        cases hmem with
        | head => exact herr.symm.trans hr
        | tail _ hmem => cases hmem
    | none =>
      rw [herr] at h₂
      obtain ⟨hdone, hfailed⟩ := ih h₂
      constructor
      · intro hres d hd
        rcases List.mem_cons.mp hd with rfl | hd
        · exact ⟨_, out, .tail _ (.head _), transferErr_none herr⟩
        · obtain ⟨via, r, hmem, hr⟩ := hdone hres d hd
          exact ⟨via, r, .tail _ (.tail _ hmem), hr⟩
      · rintro err ⟨via, d, r, hmem, hr⟩
        cases hmem with
        | tail _ hmem =>
          cases hmem with
          | head => cases herr.symm.trans hr
          | tail _ hmem => exact hfailed err ⟨via, d, r, hmem, hr⟩

theorem restoreViaHelper_logs {man : Manifest} {disk : DiskManifest} {h : NodeHelper} {vmid : Int}
    {log : List Event} {res : Option Err}
    (hlog : Logs (restoreViaHelper man disk h vmid) log (.ret res)) :
    Tells man.sourceName [disk] log res := by
  obtain ⟨out, log, rfl, h₁⟩ := hlog.of_call
  obtain ⟨rfl, hret⟩ := h₁.of_ret
  cases hret
  constructor
  · intro hnone d hd
    obtain rfl := List.mem_singleton.mp hd
    exact ⟨_, out, .head _, transferErr_none hnone⟩
  · rintro err ⟨via, d, r, hmem, hr⟩
    cases hmem with
    | head => exact hr
    | tail _ hmem => cases hmem

def Call.Prepares : Call → Prop
  | .transfer _ _ => False
  | _ => True

theorem findNode_calls (plan : RestorePlan) (vmid : Int) (source : Except Err Int) :
    Calls Call.Prepares (findNode plan vmid source) := by
  unfold findNode
  split
  · trivial
  · refine ⟨trivial, ?_⟩
    rintro (f | node)
    · dsimp only
      split
      · trivial
      · refine ⟨trivial, ?_⟩
        rintro (f | node) <;> trivial
    · trivial

theorem requireHelperForNode_calls (hostID node : String) :
    Calls Call.Prepares (requireHelperForNode hostID node) := by
  refine Calls.bind ⟨trivial, fun r => ?_⟩ fun out => ?_
  · dsimp only
    split
    · refine ⟨trivial, fun r => ?_⟩
      dsimp only
      split <;> trivial
    · trivial
    · split <;> trivial
  · split <;> trivial

theorem Failed.of_append {log log' : List Event} (hprep : ∀ ev ∈ log, ev.1.Prepares)
    {err : Err} (h : Failed sourceName (log ++ log') err) : Failed sourceName log' err := by
  obtain ⟨via, d, r, hmem, hr⟩ := h
  rcases List.mem_append.mp hmem with hmem | hmem
  · exact absurd (hprep _ hmem) id
  · exact ⟨via, d, r, hmem, hr⟩

theorem Done.append {log : List Event} {disk : DiskManifest} (h : Done log disk)
    (log' : List Event) : Done (log' ++ log) disk := by
  obtain ⟨via, r, hmem, hr⟩ := h
  exact ⟨via, r, List.mem_append_right _ hmem, hr⟩

theorem Tells.after {α : Type} {p : RestoreVM α} {f : α → RestoreVM (Option Err)}
    {log : List Event} {res : Option Err} {disks : List DiskManifest}
    (hlog : Logs (p >>= f) log (.ret res)) (hp : Calls Call.Prepares p)
    (hf : ∀ a log, Logs (f a) log (.ret res) → Tells sourceName disks log res) :
    Tells sourceName disks log res := by
  obtain ⟨a, log₁, log₂, rfl, hlog₁, hlog₂⟩ := hlog.of_bind_ret
  have htells := hf a log₂ hlog₂
  exact ⟨fun hres disk hd => (htells.done hres disk hd).append log₁,
    fun err h => htells.failed err (h.of_append (hp.logs hlog₁))⟩

theorem Tells.early {err : Err} {log : List Event} {res : Option Err} {disks : List DiskManifest}
    (hlog : Logs (.ret (some err)) log (.ret res)) : Tells sourceName disks log res := by
  obtain ⟨rfl, hret⟩ := hlog.of_ret
  cases hret
  exact ⟨nofun, fun err hfailed => by simp [Failed] at hfailed⟩

theorem isVMAManifest_eq {disks : List DiskManifest} (h : isVMAManifest disks = true) :
    ∃ disk, disks = [disk] := by
  unfold isVMAManifest at h
  split at h
  · exact ⟨_, rfl⟩
  · cases h

theorem restoreVM_logs {man : Manifest} {spec : Option VMRestoreTarget} {plan : RestorePlan}
    {log : List Event} {res : Option Err} (hlog : Logs (restoreVM man spec plan) log (.ret res)) :
    Tells man.sourceName man.disks log res := by
  cases spec with
  | none => exact .early hlog
  | some spec =>
    refine .after (p := .call (.pveHostByID _) .ret) hlog ⟨trivial, fun _ => trivial⟩ ?_
    rintro (err | host) log hlog
    · exact .early hlog
    refine .after (p := .call (.pveClient host) .ret) hlog ⟨trivial, fun _ => trivial⟩ ?_
    rintro (f | ⟨⟩) log hlog
    · exact .early hlog
    dsimp only at hlog
    split at hlog
    · exact .early hlog
    refine .after hlog (findNode_calls _ _ _) ?_
    rintro (err | node) log hlog
    · exact .early hlog
    dsimp only at hlog
    split at hlog
    · rename_i disk rest hdisks hvma
      obtain ⟨disk', heq⟩ := isVMAManifest_eq hvma
      obtain ⟨rfl, rfl⟩ := List.cons.inj (hdisks.symm.trans heq)
      refine .after hlog (requireHelperForNode_calls _ _) ?_
      rintro (err | h) log hlog
      · exact .early hlog
      · rw [hdisks]
        exact restoreViaHelper_logs hlog
    · exact restoreDisks_logs hlog

/-- A missing, a corrupted or a truncated chunk, as `ReadChunk` reports it. -/
def BadChunk : Engine.Err → Prop
  | .notFound | .hashMismatch _ _ | .chunkLength _ _ _ => True
  | _ => False

theorem BadChunk.not_closedPipe {err : Engine.Err} (h : BadChunk err) (name : String) :
    isClosedPipe (.restore name err) = false := by
  cases err with
  | notFound | hashMismatch | chunkLength => rfl
  | _ => exact absurd h id

/-- The importer took the disk: it read its verified bytes, all of them and nothing else,
and answered with success. -/
def Imported (e : Engine) (log : List Event) (disk : DiskManifest) : Prop :=
  ∃ via r code datas, ⟨.transfer via disk, r⟩ ∈ log ∧ r.answer = .status code ∧
    200 ≤ code ∧ code < 300 ∧ List.Forall₂ (Verified e) disk.chunks datas ∧
    r.consumed = datas.flatten ∧ (disk.sizeBytes = 0 ∨ r.consumed.length = disk.sizeBytes)

theorem Answer.err_none {a : Answer} (h : a.err = none) :
    ∃ code, a = .status code ∧ 200 ≤ code ∧ code < 300 := by
  unfold Answer.err at h
  split at h
  · rename_i code
    split at h
    · cases h
    · exact ⟨code, rfl, by omega, by omega⟩
  · cases h

theorem Done.imported {e : Engine} {log : List Event} {disk : DiskManifest} (h : Done log disk)
    (hb : Behaves e log) : Imported e log disk := by
  obtain ⟨via, r, hmem, hrestore, hanswer⟩ := h
  obtain ⟨code, ha, hlo, hhi⟩ := Answer.err_none hanswer
  obtain ⟨datas, hall, hconsumed, hsize⟩ := Transfers.complete (hb via disk r hmem) hrestore
  exact ⟨via, r, code, datas, hmem, ha, hlo, hhi, hall, hconsumed, hsize⟩

end ProxBack.Sched.Restore
