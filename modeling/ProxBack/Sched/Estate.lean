import ProxBack.Lib.FinMap
import ProxBack.Lib.System
import ProxBack.Lib.Text
import ProxBack.Sched.Restore

/-! Restores of machines together with the estate they write into. The guests of a host come,
go, move and are renamed at any time: while a request lists them to check its destination,
while its run waits, and while it looks for its node. -/
namespace ProxBack.Sched.Estate
open Lib Text Prog Engine
open Restore (VMRestoreTarget RestorePlan Via RestoreVM)

structure Guest where
  name : String
  node : String
deriving DecidableEq, Repr

/-- What is outside the server: the nodes of a host, and whether `qmrestore` on a node goes
on to write, with or without `--force`, when that guest has the VMID. -/
structure Cluster where
  nodes : String → List String
  qmrestore : Bool → Option Guest → Bool
  named : ∀ hostID, "" ∉ nodes hostID
  /-- Without `--force` it refuses a VMID that is in use. -/
  refuses : ∀ g, qmrestore false (some g) = false

inductive Mode where
  | alongside
  | overwrite
deriving DecidableEq, Repr

structure Target extends VMRestoreTarget where
  node : String

structure RestoreSpec where
  vm : Option Target
  mode : String
  confirmName : String

structure Point where
  hostID : String
  man : Manifest

inductive PlanErr where
  | targetRequired
  | badRestoreMode
  | needsHostID
  | loadHost (err : Store.Err)
  | restore (err : Restore.Err)
  | listGuests (f : Fault)
  | vmidInUse (vmid : Int) (name node : String)
  | nothingToOverwrite (vmid : Int)
  | confirmName (name node : String) (vmid : Int)
deriving DecidableEq

def restoreMode : String → Option Mode
  | "" | "alongside" => some .alongside
  | "overwrite" => some .overwrite
  | _ => none

structure Destination where
  mode : Mode
  hostID : String
  vmid : Int
  node : String
  confirmName : String
deriving DecidableEq, Repr

/-- `planVMRestore`, up to its listing of the guests; `host` is the answer to its look-up of
the host. -/
def destination (p : Point) (spec : RestoreSpec) (host : Except Store.Err Unit) :
    Except PlanErr Destination :=
  match spec.vm with
  | none => .error .targetRequired
  | some vm =>
    match restoreMode spec.mode with
    | none => .error .badRestoreMode
    | some mode =>
      let hostID := if vm.hostID = "" then p.hostID else vm.hostID
      if hostID = "" then .error .needsHostID
      else
        match host with
        | .error err => .error (.loadHost err)
        | .ok () =>
          let vmid := if vm.vmid = 0 then Restore.vmidFromSourceID p.man.sourceID else .ok vm.vmid
          match vmid with
          | .error err => .error (.restore err)
          | .ok vmid => .ok { mode, hostID, vmid, node := vm.node, confirmName := spec.confirmName }

/-- The rest of `planVMRestore`, where `existing` is the guest the listing has at the VMID. -/
def planVMRestore (d : Destination) (existing : Option Guest) : Except PlanErr RestorePlan :=
  let plan : RestorePlan :=
    { hostID := d.hostID
      node := if d.node = "" then (existing.map Guest.node).getD "" else d.node
      vmid := d.vmid }
  match d.mode, existing with
  | .alongside, some g => .error (.vmidInUse d.vmid g.name g.node)
  | .alongside, none => .ok plan
  | .overwrite, none => .error (.nothingToOverwrite d.vmid)
  | .overwrite, some g =>
    if trimSpace d.confirmName.toList ≠ g.name.toList then
      .error (.confirmName g.name g.node d.vmid)
    else .ok plan

/-- `todo` are the nodes that `AllVMs` has yet to list. A run that was accepted goes on with
`restoreVM`; `started` is whether its import has. -/
inductive Phase where
  | listing (todo : List String) (existing : Option Guest)
  | running (p : RestoreVM (Option Restore.Err)) (started : Bool)
  | refused (err : PlanErr)
  | ended

structure Request where
  point : Point
  spec : RestoreSpec
  dest : Destination
  phase : Phase

structure Write where
  dest : Destination
  node : String
  found : Option Guest
deriving DecidableEq, Repr

structure State where
  guests : FinMap (String × Int) Guest
  requests : List Request
  writes : List Write

/-- Steps of the estate, of a request that lists the guests, and of a run: `answer` is any
call of it but an import. A failure, a cancellation or a crash ends it at any point. -/
inductive Action where
  | createGuest (hostID : String) (vmid : Int) (g : Guest)
  | deleteGuest (hostID : String) (vmid : Int)
  | rename (hostID : String) (vmid : Int) (name : String)
  | migrate (hostID : String) (vmid : Int) (node : String)
  | triggerRestore (p : Point) (spec : RestoreSpec) (host : Except Store.Err Unit)
  | list (i : Nat) (fault : Option Fault)
  | plan (i : Nat)
  | answer (i : Nat) (reply : ∀ c, Restore.Reply c)
  | startImport (i : Nat) (name : String) (out : Transferred)
  | stop (i : Nat)

def viaNode : Via → String
  | .helper _ h => h.node
  | .host node _ => node

def viaVMID : Via → Int
  | .helper vmid _ => vmid
  | .host _ vmid => vmid

def Answers : (c : Restore.Call) → Restore.Reply c → Prop
  | .helperFor _ node, .ok h => h.node = node
  | _, _ => True

instance : (c : Restore.Call) → (r : Restore.Reply c) → Decidable (Answers c r)
  | .helperFor _ node, .ok h => inferInstanceAs (Decidable (h.node = node))
  | .helperFor _ _, .error _ | .pveHostByID _, _ | .pveClient _, _ | .findNodeForVM _, _
  | .unassignedHelperForNode _, _ | .ctxErr, _ | .transfer _ _, _ => isTrue trivial

namespace State

def initial : State := { guests := ∅, requests := [], writes := [] }

def setPhase (w : State) (i : Nat) (q : Request) (phase : Phase) : State :=
  { w with requests := w.requests.set i { q with phase } }

def listed (w : State) (d : Destination) (node : String) : Option Guest :=
  (w.guests.lookup (d.hostID, d.vmid)).filter fun g => g.node = node

/-- Whether an import writes: one disk at a time always does, on a node that exists. -/
def writesVia (C : Cluster) (w : State) (d : Destination) (via : Via) : Bool :=
  if viaNode via ∉ C.nodes d.hostID then false
  else
    match via with
    | .helper vmid _ => C.qmrestore (d.mode = .overwrite) (w.guests.lookup (d.hostID, vmid))
    | .host _ _ => true

/-- The guests once an import has started: an archive brings its name along, a disk is put
into the guest that is there. -/
def imported (w : State) (d : Destination) (via : Via) (name : String) :
    FinMap (String × Int) Guest :=
  match via, w.guests.lookup (d.hostID, viaVMID via) with
  | .host _ _, some _ => w.guests
  | _, _ => w.guests.insert (d.hostID, viaVMID via) ⟨name, viaNode via⟩

def startImport (C : Cluster) (w : State) (i : Nat) (q : Request) (started : Bool) (via : Via)
    (name : String) (rest : RestoreVM (Option Restore.Err)) : State :=
  let w' := w.setPhase i q (.running rest true)
  if w.writesVia C q.dest via then
    { w' with
      guests := w.imported q.dest via name
      writes := if started then w.writes
        else w.writes ++ [⟨q.dest, viaNode via, w.guests.lookup (q.dest.hostID, viaVMID via)⟩] }
  else w'

def advance (C : Cluster) (w : State) (i : Nat) (q : Request) : Action → Option State
  | .list _ fault =>
    match q.phase, fault with
    | .listing (_ :: _) _, some f => some (w.setPhase i q (.refused (.listGuests f)))
    | .listing (node :: todo) existing, none =>
      some (w.setPhase i q (.listing todo (existing.or (w.listed q.dest node))))
    | _, _ => none
  | .plan _ =>
    match q.phase with
    | .listing [] existing =>
      match planVMRestore q.dest existing with
      | .error err => some (w.setPhase i q (.refused err))
      | .ok plan =>
        let target := q.spec.vm.map Target.toVMRestoreTarget
        some (w.setPhase i q (.running (Restore.restoreVM q.point.man target plan) false))
    | _ => none
  | .answer _ reply =>
    match q.phase with
    | .running (.call (.transfer _ _) _) _ => none
    | .running (.call c k) started =>
      if Answers c (reply c) then some (w.setPhase i q (.running (k (reply c)) started)) else none
    | _ => none
  | .startImport _ name out =>
    match q.phase with
    | .running (.call (.transfer via _) k) started =>
      some (w.startImport C i q started via name (k out))
    | _ => none
  | .stop _ => some (w.setPhase i q .ended)
  | _ => none

def step (C : Cluster) (a : Action) (w : State) : Option State :=
  match a with
  | .createGuest hostID vmid g =>
    if w.guests.lookup (hostID, vmid) = none ∧ g.node ∈ C.nodes hostID then
      some { w with guests := w.guests.insert (hostID, vmid) g }
    else none
  | .deleteGuest hostID vmid => some { w with guests := w.guests.erase (hostID, vmid) }
  | .rename hostID vmid name =>
    (w.guests.lookup (hostID, vmid)).map fun g =>
      { w with guests := w.guests.insert (hostID, vmid) { g with name } }
  | .migrate hostID vmid node =>
    if node ∈ C.nodes hostID then
      (w.guests.lookup (hostID, vmid)).map fun g =>
        { w with guests := w.guests.insert (hostID, vmid) { g with node } }
    else none
  | .triggerRestore p spec host =>
    match destination p spec host with
    | .error _ => some w
    | .ok dest =>
      let q : Request := ⟨p, spec, dest, .listing (C.nodes dest.hostID) none⟩
      some { w with requests := w.requests ++ [q] }
  | .list i _ | .plan i | .answer i _ | .startImport i _ _ | .stop i =>
    match w.requests[i]? with
    | none => none
    | some q => w.advance C i q a

end State

def system (C : Cluster) : System State Action := ⟨State.step C⟩

end ProxBack.Sched.Estate
