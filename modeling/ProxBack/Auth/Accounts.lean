import ProxBack.Auth.Users
import ProxBack.Engine.Basic
import ProxBack.Lib.Requests
import ProxBack.Lib.Text

/-! The requests that concern accounts, one statement of the database at a time. -/
namespace ProxBack.Auth
open Lib Text
open Engine (Fault)

def minPasswordLength : Nat := 8

def tooShort (password : String) : Bool := password.utf8ByteSize < minPasswordLength

/-- `verified` tells the hash that its login was checked against; no operation reads it. -/
structure Session where
  token : String
  userID : Int
  verified : Nat
deriving DecidableEq, Repr

/-- No operation reads `removals`, the times a write left fewer admins, or `swept`, the newest
hash of a user whose change has deleted their sessions. -/
structure Shared where
  users : Users
  defaultPassword : Bool
  sessions : List Session
  removals : Nat
  swept : FinMap Int Nat

namespace Shared

def withUsers (s : Shared) (t : Users) : Shared :=
  { s with
    users := t
    removals := if t.countAdmins < s.users.countAdmins then s.removals + 1 else s.removals }

def updatePassword (s : Shared) (id : Int) (passwordHash : String) : Option (Shared × Nat) :=
  (s.users.update id fun u => { u with passwordHash, writes := u.writes + 1 }).bind fun t =>
    (t.byID id).map fun u => (s.withUsers t, u.writes)

def setDefaultPasswordFlag (s : Shared) (on : Bool) : Shared := { s with defaultPassword := on }

def createSession (s : Shared) (x : Session) : Option Shared :=
  if x.token ∈ s.sessions.map Session.token then none
  else some { s with sessions := s.sessions ++ [x] }

def deleteSession (s : Shared) (token : String) : Shared :=
  { s with sessions := s.sessions.filter fun x => x.token ≠ token }

def deleteUserSessions (s : Shared) (id : Int) : Shared :=
  { s with sessions := s.sessions.filter fun x => x.userID ≠ id }

def sweptOf (s : Shared) (id : Int) : Nat := (s.swept.lookup id).getD 0

def deleteOtherSessions (s : Shared) (id : Int) (version : Nat) (keep : String) : Shared :=
  { s with
    sessions := s.sessions.filter fun x => ¬ (x.userID = id ∧ x.token ≠ keep)
    swept := s.swept.insert id (max (s.sweptOf id) version) }

end Shared

namespace Shared

variable {s s' : Shared}

theorem createSession_cases {x : Session} (h : s.createSession x = some s') :
    x.token ∉ s.sessions.map Session.token ∧ s' = { s with sessions := s.sessions ++ [x] } := by
  unfold createSession at h
  split at h
  · cases h
  · rename_i hnew
    exact ⟨hnew, (Option.some.inj h).symm⟩

theorem updatePassword_cases {id : Int} {passwordHash : String} {version : Nat}
    (h : s.updatePassword id passwordHash = some (s', version)) :
    ∃ u t, s.users.byID id = some u ∧
      s.users.update id (fun u => { u with passwordHash, writes := u.writes + 1 }) = some t ∧
      s' = s.withUsers t ∧ version = u.writes + 1 := by
  obtain ⟨t, hupdate, hmap⟩ := Option.bind_eq_some_iff.mp h
  obtain ⟨u', hu', hout⟩ := Option.map_eq_some_iff.mp hmap
  obtain ⟨u, hu, -⟩ := Users.update_cases hupdate
  rw [Users.byID_update hupdate, if_pos rfl, hu] at hu'
  cases hu'
  cases hout
  exact ⟨u, t, hu, hupdate, rfl, rfl⟩

end Shared

inductive Guarded where
  | updateRole (role : Role) (password : Option String) (keep : String)
  | deleteUser
deriving DecidableEq, Repr

/-- What a request does next. In `writing` the role is the one that was read, and `counted`
the removals when admins were counted; a `version` tells the hash that was written. -/
inductive Phase where
  | login (username password : String)
  | starting (id : Int) (verified : Nat)
  | changing (id : Int) (current new keep : String)
  | patching (id : Int) (role password : Option String) (keep : String)
  | removing (id : Int)
  | setup (username password : String)
  | creating (username password : String) (role : Role) (setup : Bool)
  | loading (id : Int) (op : Guarded)
  | counting (id : Int) (op : Guarded)
  | revokingAll (id : Int) (read : Role) (counted : Option Nat)
  | writing (id : Int) (op : Guarded) (read : Role) (counted : Option Nat)
  | writingPassword (id : Int) (password keep : String) (reset : Bool)
  | clearingFlag (id : Int) (version : Nat) (keep : String)
  | revoking (id : Int) (version : Nat) (keep : String) (reset : Bool)
  | answering (id : Int) (revoked : Option (Nat × String))
  | ending (token : String)
  | changed (id : Int) (version : Nat) (keep : String)
  | returned
  | failed
deriving DecidableEq, Repr

inductive Arrival where
  | login (username password : String)
  | changePassword (id : Int) (current new keep : String)
  | patchUser (id : Int) (role password : Option String) (keep : String)
  | deleteUser (id : Int)
  | createUser (username password role : String)
  | setup (username password : String)
  | logout (token : String)

inductive Access where
  | userByUsername (fault : Option Fault)
  | userByID (fault : Option Fault)
  | countUsers (fault : Option Fault)
  | countAdmins (fault : Option Fault)
  | createUser (salt : Nat) (res : Written)
  | createSession (token : String) (res : Written)
  | deleteUserSessions (res : Written)
  | write (res : Written)
  | updatePassword (salt : Nat) (res : Written)
  | clearFlag (res : Written)
  | deleteOtherSessions (res : Written)
  | deleteSession (res : Written)

def arrive : Arrival → Phase
  | .login username password => .login (trimmed username) password
  | .changePassword id current new keep =>
    if tooShort new then .failed else .changing id current new keep
  | .patchUser id role password keep => .patching id role password keep
  | .deleteUser id => .removing id
  | .createUser username password role =>
    if trimmed username = "" ∨ tooShort password then .failed
    else
      match Role.parse (trimmed role) with
      | none => .failed
      | some role => .creating (trimmed username) password role false
  | .setup username password =>
    if trimmed username = "" ∨ tooShort password then .failed else .setup (trimmed username) password
  | .logout token => if token = "" then .returned else .ending token

def answered {α : Type} (fault : Option Fault) (found : Option α) (next : α → Phase) : Phase :=
  match fault, found with
  | none, some a => next a
  | _, _ => .failed

theorem answered_spec {α : Type} {R : Phase → Prop} {found : Option α} {next : α → Phase}
    (hfailed : R .failed) (hnext : ∀ a, found = some a → R (next a)) (fault : Option Fault) :
    R (answered fault found next) := by
  unfold answered
  split
  · exact hnext _ rfl
  · exact hfailed

/-- The rest of `handlePatchUser` after the role. -/
def afterRole (id : Int) (password : Option String) (keep : String) : Phase :=
  match password with
  | some password => .writingPassword id password keep true
  | none => .answering id none

/-- `handlePatchUser` once the user is found. -/
def patched (id : Int) (role password : Option String) (keep : String) (u : User) : Phase :=
  if role = none ∧ password = none then .failed
  else
    match role with
    | none => if password.any tooShort then .failed else afterRole id password keep
    | some role =>
      match Role.parse (trimmed role) with
      | none => .failed
      | some role =>
        if password.any tooShort then .failed
        else if role = u.role then afterRole id password keep
        else .loading id (.updateRole role password keep)

namespace Guarded

def proceed (op : Guarded) (id : Int) (read : Role) (counted : Option Nat) : Phase :=
  match op with
  | .updateRole _ _ _ => .writing id op read counted
  | .deleteUser => .revokingAll id read counted

/-- `UpdateUserRole` and `DeleteUser` once the user is found. -/
def loaded (op : Guarded) (id : Int) (u : User) : Phase :=
  match op with
  | .updateRole role password keep =>
    if u.role = role then afterRole id password keep
    else if u.role = .admin then .counting id op
    else op.proceed id u.role none
  | .deleteUser => if u.role = .admin then .counting id op else op.proceed id u.role none

def write (op : Guarded) (id : Int) (t : Users) : Option Users :=
  match op with
  | .updateRole role _ _ => t.update id fun u => { u with role }
  | .deleteUser => t.delete id

def next (op : Guarded) (id : Int) : Phase :=
  match op with
  | .updateRole _ password keep => afterRole id password keep
  | .deleteUser => .returned

end Guarded

section
variable (hash : Nat → String → Option String) (check : String → String → Bool)

def advance : Access → Shared → Phase → Option (Shared × Phase)
  | .userByUsername fault, s, .login username password =>
    some (s, answered fault (s.users.byUsername username) fun found =>
      if check found.2.passwordHash password then .starting found.1 found.2.writes else .failed)
  | .createSession token res, s, .starting id verified =>
    some (res.outcome s ((s.createSession ⟨token, id, verified⟩).map fun s => (s, .returned)) .failed)
  | .userByID fault, s, .changing id current new keep =>
    some (s, answered fault (s.users.byID id) fun u =>
      if check u.passwordHash current then .writingPassword id new keep false else .failed)
  | .userByID fault, s, .patching id role password keep =>
    some (s, answered fault (s.users.byID id) (patched id role password keep))
  | .userByID fault, s, .removing id =>
    some (s, answered fault (s.users.byID id) fun _ => .loading id .deleteUser)
  | .userByID fault, s, .loading id op => some (s, answered fault (s.users.byID id) (op.loaded id))
  | .countAdmins fault, s, .counting id op =>
    some (s, answered fault (some s.users.countAdmins) fun n =>
      if n ≤ 1 then .failed else op.proceed id .admin (some s.removals))
  | .deleteUserSessions res, s, .revokingAll id read counted =>
    some (res.outcome s (some (s.deleteUserSessions id, .writing id .deleteUser read counted)) .failed)
  | .write res, s, .writing id op _ _ =>
    some (res.outcome s ((op.write id s.users).map fun t => (s.withUsers t, op.next id)) .failed)
  | .updatePassword salt res, s, .writingPassword id password keep reset =>
    match hash salt password with
    | none => some (s, .failed)
    | some passwordHash =>
      some (res.outcome s ((s.updatePassword id passwordHash).map fun out =>
        (out.1, if reset then .revoking id out.2 keep true else .clearingFlag id out.2 keep)) .failed)
  | .clearFlag res, s, .clearingFlag id version keep =>
    some (res.outcome s (some (s.setDefaultPasswordFlag false, .revoking id version keep false)) .failed)
  | .deleteOtherSessions res, s, .revoking id version keep reset =>
    -- a reset only logs that its sessions could not be deleted
    if reset then
      let next := .answering id (some (version, keep))
      some (res.outcome s (some (s.deleteOtherSessions id version keep, next)) next)
    else
      some (res.outcome s (some (s.deleteOtherSessions id version keep, .changed id version keep)) .failed)
  | .userByID fault, s, .answering id revoked =>
    some (s, answered fault (s.users.byID id) fun _ =>
      match revoked with
      | some (version, keep) => .changed id version keep
      | none => .returned)
  | .countUsers fault, s, .setup username password =>
    some (s, answered fault (some s.users.count) fun n =>
      if n = 0 then .creating username password .admin true else .failed)
  | .createUser salt res, s, .creating username password role setup =>
    match hash salt password with
    | none => some (s, .failed)
    | some passwordHash =>
      some (res.outcome s ((s.users.create ⟨username, passwordHash, role, 0⟩).map fun t =>
        (s.withUsers t, if setup then .starting s.users.nextID 0 else .returned)) .failed)
  | .deleteSession res, s, .ending token =>
    some (res.outcome s (some (s.deleteSession token, .returned)) .returned)
  | _, _, _ => none

def service : Service Shared Phase Arrival Access := ⟨arrive, advance hash check⟩

end

def initial (users : Users) (defaultPassword : Bool) (sessions : List Session) : Hall Shared Phase :=
  ⟨⟨users, defaultPassword, sessions, 0, ∅⟩, []⟩

end ProxBack.Auth
