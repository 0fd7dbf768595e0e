import ProxBack.Lib.Requests
import ProxBack.Store.Helpers

/-! Helpers are registered, assigned and removed while guests are backed up and restored through
them. Each request makes one statement of the database, or one call of a helper, at a time. -/
namespace ProxBack.Sched.NodeHelper
open Lib Store
open Engine (Time)

inductive RunKind where
  | backup
  | restore
deriving DecidableEq, Repr

structure GuestRun where
  kind : RunKind
  hostID : String
  node : String
deriving DecidableEq, Repr

inductive HelperCall where
  | exportGuest
  | importGuest
  | script
deriving DecidableEq, Repr

def RunKind.makes : RunKind → HelperCall → Bool
  | .backup, .exportGuest | .backup, .script | .restore, .importGuest => true
  | _, _ => false

structure Contact where
  run : GuestRun
  call : HelperCall
  helper : Store.NodeHelper
deriving DecidableEq

/-- `registered` are the rows that there have been, and `contacts` the calls of helpers. -/
structure Shared where
  table : HelperTable
  registered : List Store.NodeHelper
  contacts : List Contact

def Shared.set (s : Shared) (table : HelperTable) : Shared :=
  { s with table, registered := s.registered ++ table.rows }

inductive Phase where
  | replacing (h : Store.NodeHelper)
  | inserting (h : Store.NodeHelper)
  | loading (id hostID : String)
  | counting (h : Store.NodeHelper) (hostID : String)
  | assigning (id hostID : String)
  | deleting (id : String)
  | beating (id : String) (at_ : Time)
  | lookingUp (g : GuestRun)
  | unserved (g : GuestRun)
  | served (g : GuestRun) (h : Store.NodeHelper)
  -- a guest that is exported without a helper
  | unhelped (g : GuestRun)
  | answered
  | failed

inductive Arrival where
  | createHelper (h : Store.NodeHelper)
  | assignHelperHost (id hostID : String)
  | deleteHelper (id : String)
  | recordHeartbeat (id : String) (at_ : Time)
  | guest (g : GuestRun)

/-- A query fails where the database does, or where the secret of the row cannot be read. -/
inductive Access where
  | statement (res : Written)
  | query (ok : Bool) (now : Time)
  | call (c : HelperCall)
  | finish
deriving DecidableEq, Repr

def arrive : Arrival → Phase
  | .createHelper h =>
    .replacing { h with port := if h.port = 0 then NodeHelper.defaultHelperPort else h.port }
  | .assignHelperHost id hostID => .loading id hostID
  | .deleteHelper id => .deleting id
  | .recordHeartbeat id at_ => .beating id at_
  | .guest g => .lookingUp g

/-- `helperForNode`, from its first look-up. -/
def lookUp (table : HelperTable) (ok : Bool) (now : Time) (g : GuestRun) : Phase :=
  if g.hostID = "" ∨ g.node = "" then .unserved g
  else if ¬ ok then .failed
  else
    match table.helperFor g.hostID g.node with
    | none => .unserved g
    | some h => if h.online now then .served g h else .failed

/-- Nothing serves the node: a helper of its name that has no host is an error, and a restore of
an archive needs one. -/
def lookUpUnassigned (table : HelperTable) (ok : Bool) (g : GuestRun) : Phase :=
  if ¬ ok ∧ g.node ≠ "" then .failed
  else
    match table.unassignedHelperForNode g.node, g.kind with
    | some _, _ => .failed
    | none, .backup => .unhelped g
    | none, .restore => .failed

def advance : Access → Shared → Phase → Option (Shared × Phase)
  | .statement res, s, .replacing h =>
    some (res.outcome s (some (s.set (s.table.deleteIdentity h.hostID h.node), .inserting h)) .failed)
  | .statement res, s, .inserting h =>
    some (res.outcome s ((s.table.insert h).map fun t => (s.set t, .answered)) .failed)
  | .query ok _, s, .loading id hostID =>
    some (s, match ok, s.table.helperByID id with
      | true, some h => if h.hostID = hostID then .answered else .counting h hostID
      | _, _ => .failed)
  | .query ok _, s, .counting h hostID =>
    some (s, if ok ∧ s.table.clash hostID h.node h.id = 0 then .assigning h.id hostID else .failed)
  | .statement res, s, .assigning id hostID =>
    some (res.outcome s ((s.table.assignHost id hostID).map fun t => (s.set t, .answered)) .failed)
  | .statement res, s, .deleting id =>
    some (res.outcome s ((s.table.deleteHelper id).map fun t => (s.set t, .answered)) .failed)
  | .statement res, s, .beating id at_ =>
    some (res.outcome s ((s.table.recordHeartbeat id at_).map fun t => (s.set t, .answered)) .failed)
  | .query ok now, s, .lookingUp g => some (s, lookUp s.table ok now g)
  | .query ok _, s, .unserved g => some (s, lookUpUnassigned s.table ok g)
  | .call c, s, .served g h =>
    if g.kind.makes c then some ({ s with contacts := s.contacts ++ [⟨g, c, h⟩] }, .served g h)
    else none
  | .finish, s, .served _ _ => some (s, .answered)
  | .finish, s, .unhelped _ => some (s, .answered)
  | _, _, _ => none

def service : Service Shared Phase Arrival Access := ⟨arrive, advance⟩

/-- The helper has been the one of the guest's node, of the host that the guest is on. -/
structure Serves (s : Shared) (g : GuestRun) (h : Store.NodeHelper) : Prop where
  registered : h ∈ s.registered
  host : h.hostID = g.hostID
  node : h.node = g.node
  assigned : g.hostID ≠ ""

structure Routed (s : Shared) : Prop where
  known : ∀ h ∈ s.table.rows, h ∈ s.registered
  contacts : ∀ c ∈ s.contacts, Serves s c.run c.helper

def Phase.Routed (s : Shared) : Phase → Prop
  | .served g h => Serves s g h
  | _ => True

variable {s s' : Shared} {g : GuestRun} {h : Store.NodeHelper}

theorem Serves.mono (hserves : Serves s g h) (hsub : ∀ h ∈ s.registered, h ∈ s'.registered) :
    Serves s' g h :=
  { hserves with registered := hsub h hserves.registered }

theorem Phase.Routed.mono {q : Phase} (hq : q.Routed s) (hsub : ∀ h ∈ s.registered, h ∈ s'.registered) :
    q.Routed s' := by
  cases q with
  | served g h => exact Serves.mono hq hsub
  | _ => trivial

theorem Routed.set (hs : Routed s) (t : HelperTable) : Routed (s.set t) where
  known _ hmem := List.mem_append_right _ hmem
  contacts c hc := (hs.contacts c hc).mono fun _ hh => List.mem_append_left _ hh

theorem lookUp_routed (hs : Routed s) (ok : Bool) (now : Time) (g : GuestRun) :
    (lookUp s.table ok now g).Routed s := by
  unfold lookUp
  split
  · trivial
  · split
    · trivial
    · cases hfor : s.table.helperFor g.hostID g.node with
      | none => trivial
      | some h =>
        obtain ⟨hmem, hhost, hnode, hassigned⟩ := HelperTable.helperFor_spec hfor
        dsimp only
        split
        · exact ⟨hs.known h hmem, hhost, hnode, hassigned⟩
        · trivial

theorem lookUpUnassigned_routed (table : HelperTable) (ok : Bool) (g : GuestRun) :
    (lookUpUnassigned table ok g).Routed s := by
  unfold lookUpUnassigned
  split
  · trivial
  · split <;> trivial

structure Keeps (s s' : Shared) (q' : Phase) : Prop where
  shared : Routed s'
  own : q'.Routed s'
  registered : ∀ h ∈ s.registered, h ∈ s'.registered

theorem Keeps.same {q' : Phase} (hs : Routed s) (hq : q'.Routed s) : Keeps s s q' :=
  ⟨hs, hq, fun _ hh => hh⟩

theorem Keeps.statement {res : Written} {t : Option HelperTable} {next q' : Phase} (hs : Routed s)
    (hnext : ∀ t, next.Routed (s.set t))
    (h : res.outcome s (t.map fun t => (s.set t, next)) .failed = (s', q')) : Keeps s s' q' := by
  have hset : ∀ t, ∀ h ∈ s.registered, h ∈ (s.set t).registered := fun _ _ hh =>
    List.mem_append_left _ hh
  have hfailed : Keeps s s .failed := .same hs trivial
  refine Written.outcome_spec hfailed (fun s₁ q₁ heffect => ?_) h
  obtain ⟨t, -, heq⟩ := Option.map_eq_some_iff.mp heffect
  cases heq
  exact ⟨⟨hs.set t, hnext t, hset t⟩, hs.set t, trivial, hset t⟩

theorem Keeps.of_advance {b : Access} {q q' : Phase} (hs : Routed s) (hq : q.Routed s)
    (h : advance b s q = some (s', q')) : Keeps s s' q' := by
  have hanswered : ∀ t, Phase.answered.Routed (s.set t) := fun _ => trivial
  unfold advance at h
  split at h
  · have hnext : ∀ t h, (Phase.inserting h).Routed (s.set t) := fun _ _ => trivial
    exact .statement (t := some _) hs (hnext · _) (Option.some.inj h)
  · exact .statement hs hanswered (Option.some.inj h)
  · cases h
    refine .same hs ?_
    split
    · split <;> trivial
    · trivial
  · cases h
    refine .same hs ?_
    split <;> trivial
  · exact .statement hs hanswered (Option.some.inj h)
  · exact .statement hs hanswered (Option.some.inj h)
  · exact .statement hs hanswered (Option.some.inj h)
  · cases h
    exact .same hs (lookUp_routed hs _ _ _)
  · cases h
    exact .same hs (lookUpUnassigned_routed _ _ _)
  · split at h
    · -- the call goes to the helper that the look-up has found
      cases h
      refine ⟨⟨hs.known, fun c hc => ?_⟩, Serves.mono hq fun _ hh => hh, fun _ hh => hh⟩
      rcases List.mem_append.mp hc with hc | hc
      · exact (hs.contacts c hc).mono fun _ hh => hh
      · rw [List.mem_singleton.mp hc]
        exact Serves.mono hq fun _ hh => hh
    · cases h
  · cases h
    exact .same hs trivial
  · cases h
    exact .same hs trivial
  · cases h

def initial (t : HelperTable) : Hall Shared Phase := ⟨⟨t, t.rows, []⟩, []⟩

/-- In every state there is one row at most for a node of a host, and whatever a guest goes
through, or is about to, has been registered for its node and its host. -/
theorem guests_routed (t : HelperTable) {ts : List (Turn Arrival Access)} {w : Hall Shared Phase}
    (h : service.system.Run (fun _ _ => True) (initial t) ts w) :
    (∀ hostID node,
      (w.shared.table.rows.filter fun h => h.hostID = hostID ∧ h.node = node).length ≤ 1) ∧
    (∀ hostID node h, w.shared.table.helperFor hostID node = some h →
      h ∈ w.shared.table.rows ∧ h.hostID = hostID ∧ h.node = node ∧ hostID ≠ "") ∧
    (∀ g h, .served g h ∈ w.requests → Serves w.shared g h) ∧
    ∀ c ∈ w.shared.contacts, Serves w.shared c.run c.helper := by
  have hheeding : ∀ w t, True → Service.Heeding (fun (_ : Shared) (_ : Phase) (_ : Access) => True)
      w (t : Turn Arrival Access) := by
    intro w t _
    cases t with
    | arrive a => trivial
    | advance i b => exact fun _ _ => trivial
  have hserved := Service.serves (S := service) (I := Routed) (F := fun s q => q.Routed s)
    (fun a s _ => by cases a <;> trivial)
    (fun b s q s' q' hs hq _ hadv => by
      have hkeeps : Keeps s s' q' := .of_advance hs hq hadv
      exact ⟨hkeeps.shared, hkeeps.own, fun p hp => hp.mono hkeeps.registered⟩) (h.mono hheeding)
    ⟨⟨fun _ hh => hh, nofun⟩, nofun⟩
  exact ⟨w.shared.table.length_identity_le, fun _ _ _ hfor => HelperTable.helperFor_spec hfor,
    fun g h hmem => hserved.2 _ hmem, hserved.1.contacts⟩

def pve1Of (id hostID address : String) : Store.NodeHelper :=
  ⟨id, hostID, "pve1", address, 8007, "secret", some 0, 0⟩

def twoClusters : List (Turn Arrival Access) :=
  [.arrive (.createHelper (pve1Of "helper1" "host1" "10.0.0.1")), .advance 0 (.statement .done),
    .advance 0 (.statement .done),
    .arrive (.createHelper (pve1Of "helper2" "host2" "10.0.1.1")), .advance 1 (.statement .done),
    .advance 1 (.statement .done),
    .arrive (.guest ⟨.backup, "host2", "pve1"⟩), .advance 2 (.query true 0),
    .advance 2 (.call .exportGuest)]

theorem guests_routed_two_clusters : ∃ w,
    service.system.Run (fun _ _ => True) (initial ⟨[], List.nodup_nil, List.nodup_nil⟩) twoClusters w ∧
    ⟨⟨.backup, "host2", "pve1"⟩, .exportGuest, pve1Of "helper2" "host2" "10.0.1.1"⟩ ∈
      w.shared.contacts ∧
    ∀ c ∈ w.shared.contacts, Serves w.shared c.run c.helper := by
  obtain ⟨w, hrun, hcontacts⟩ : ∃ w,
      service.system.Run (fun _ _ => True) (initial ⟨[], List.nodup_nil, List.nodup_nil⟩) twoClusters w ∧
      w.shared.contacts = [⟨⟨.backup, "host2", "pve1"⟩, .exportGuest, pve1Of "helper2" "host2" "10.0.1.1"⟩] :=
    ⟨_, System.run_of_follow (fun _ _ _ => trivial) rfl, rfl⟩
  obtain ⟨-, -, -, hserves⟩ := guests_routed _ hrun
  exact ⟨w, hrun, hcontacts ▸ List.mem_singleton_self _, hserves⟩

end ProxBack.Sched.NodeHelper
