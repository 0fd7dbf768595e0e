import ProxBack.Auth.Accounts

/-! One request of `handlePatchUser` from its arrival to its answer, whichever of its calls fail:
what it leaves of the account, and when that is all of the edit or nothing of it. -/
namespace ProxBack.Auth
open Lib Text
open Engine (Fault)

def Phase.success : Phase → Bool
  | .returned | .changed _ _ _ => true
  | _ => false

namespace PatchUser

structure Calls where
  user : Option Fault
  roleUser : Option Fault
  admins : Option Fault
  writeRole : Written
  salt : Nat
  writePassword : Written
  revoke : Written
  reload : Option Fault
deriving DecidableEq, Repr

def Calls.access (c : Calls) : Phase → Access
  | .patching _ _ _ _ => .userByID c.user
  | .loading _ _ => .userByID c.roleUser
  | .counting _ _ => .countAdmins c.admins
  | .writing _ _ _ _ => .write c.writeRole
  | .writingPassword _ _ _ _ => .updatePassword c.salt c.writePassword
  | .revoking _ _ _ _ => .deleteOtherSessions c.revoke
  | _ => .userByID c.reload

section
variable (hash : Nat → String → Option String) (check : String → String → Bool)

/-- Let a request make its next `n` calls, or as many as it has. -/
def serve (c : Calls) : Nat → Shared × Phase → Shared × Phase
  | 0, x => x
  | n + 1, x =>
    match advance hash check (c.access x.2) x.1 x.2 with
    | none => x
    | some out => serve c n out

/-- `handlePatchUser` makes seven calls at most. -/
def handlePatchUser (c : Calls) (s : Shared) (id : Int) (role password : Option String)
    (keep : String) : Shared × Phase :=
  serve hash check c 7 (s, arrive (.patchUser id role password keep))

end

def roleChange (u : User) (role : Option String) : Option Role :=
  (role.bind fun text => Role.parse (trimmed text)).filter (· ≠ u.role)

structure Admissible (role password : Option String) : Prop where
  named : ¬ (role = none ∧ password = none)
  known : ∀ text ∈ role, (Role.parse (trimmed text)).isSome
  long : password.any tooShort = false

/-- What the request asked for is what the user has now, and the rest is as it was. -/
structure Applied (hash : Nat → String → Option String) (c : Calls) (role password : Option String)
    (u u' : User) : Prop where
  newRole : ∀ text ∈ role, Role.parse (trimmed text) = some u'.role
  newPassword : ∀ text ∈ password, hash c.salt text = some u'.passwordHash
  sameRole : role = none → u'.role = u.role
  samePassword : password = none → u'.passwordHash = u.passwordHash
  sameName : u'.username = u.username

def AllOrNothing (hash : Nat → String → Option String) (c : Calls) (s : Shared) (id : Int)
    (role password : Option String) (x : Shared × Phase) : Prop :=
  (x.2.success = true ∧ ∃ u u', s.users.byID id = some u ∧ x.1.users.byID id = some u' ∧
    Applied hash c role password u u') ∨
  (x.2 = .failed ∧ x.1.users.byID id = s.users.byID id)

/-- `UpdateUserRole` comes to its write, and the write takes effect. -/
structure RoleWritten (c : Calls) (s : Shared) (u : User) : Prop where
  roleUser : c.roleUser = none
  demotes : u.role = .admin → c.admins = none ∧ 1 < s.users.countAdmins
  write : c.writeRole ≠ .failed

def Whole (hash : Nat → String → Option String) (c : Calls) (s : Shared) (id : Int)
    (role password : Option String) : Prop :=
  ∀ u, c.user = none → s.users.byID id = some u → Admissible role password →
    (roleChange u role ≠ none → RoleWritten c s u →
      c.writeRole = .done ∧ c.reload = none ∧
        ∀ text ∈ password, (hash c.salt text).isSome ∧ c.writePassword = .done) ∧
    (roleChange u role = none → ∀ text ∈ password, (hash c.salt text).isSome →
      c.writePassword ≠ .lost ∧ (c.writePassword = .done → c.reload = none))

variable {hash : Nat → String → Option String} {check : String → String → Bool} {c : Calls}
  {s : Shared} {id : Int} {u : User} {n : Nat}

theorem serve_run (x : Shared × Phase) : ∃ ts, (service hash check).system.Run (fun _ _ => True)
    ⟨x.1, [x.2]⟩ ts ⟨(serve hash check c n x).1, [(serve hash check c n x).2]⟩ := by
  induction n generalizing x with
  | zero => exact ⟨[], .nil⟩
  | succ n ih =>
    rw [serve]
    cases hadv : advance hash check (c.access x.2) x.1 x.2 with
    | none => exact ⟨[], .nil⟩
    | some out =>
      obtain ⟨ts, hrun⟩ := ih out
      refine ⟨.advance 0 (c.access x.2) :: ts, .cons trivial ?_ hrun⟩
      show ((service hash check).advance (c.access x.2) x.1 x.2).map _ = _
      exact congrArg (Option.map _) hadv

structure Ended (id : Int) (x : Shared × Phase) (ok : Bool) (row : Option User) : Prop where
  answer : if ok then x.2.success = true else x.2 = .failed
  row : x.1.users.byID id = row

@[simp] theorem serve_failed (s : Shared) : serve hash check c n (s, .failed) = (s, .failed) := by
  cases n <;> rfl

@[simp]
theorem serve_returned (s : Shared) : serve hash check c n (s, .returned) = (s, .returned) := by
  cases n <;> rfl

@[grind =] theorem serve_changed (s : Shared) (k : Int) (version : Nat) (keep : String) :
    serve hash check c n (s, .changed k version keep) = (s, .changed k version keep) := by
  cases n <;> rfl

theorem failed_ended : Ended id (serve hash check c n (s, .failed)) false (s.users.byID id) := by
  rw [serve_failed]
  exact ⟨rfl, rfl⟩

theorem answering_ended (h : s.users.byID id = some u) (revoked : Option (Nat × String)) :
    Ended id (serve hash check c (n + 1) (s, .answering id revoked)) c.reload.isNone (some u) := by
  show Ended id (serve hash check c n (s, answered c.reload (s.users.byID id) _)) _ _
  rw [h]
  cases c.reload with
  | some f => exact h ▸ failed_ended
  | none =>
    cases revoked with
    | none =>
      show Ended id (serve hash check c n (s, .returned)) true _
      rw [serve_returned]
      exact ⟨rfl, h⟩
    | some v =>
      show Ended id (serve hash check c n (s, .changed id v.1 v.2)) true _
      rw [serve_changed]
      exact ⟨rfl, h⟩

theorem revoking_ended (h : s.users.byID id = some u) (version : Nat) (keep : String) :
    Ended id (serve hash check c (n + 2) (s, .revoking id version keep true)) c.reload.isNone
      (some u) := by
  have hswept : (s.deleteOtherSessions id version keep).users.byID id = some u := h
  show Ended id (serve hash check c (n + 1) (c.revoke.outcome s _ _)) _ _
  cases c.revoke with
  | failed => exact answering_ended h (some (version, keep))
  | done => exact answering_ended hswept (some (version, keep))
  | lost => exact answering_ended hswept (some (version, keep))

theorem update_of_byID (h : s.users.byID id = some u) (f : User → User) :
    ∃ t, s.users.update id f = some t ∧ t.byID id = some (f u) := by
  have hmem : id ∈ s.users.rows := AList.lookup_isSome.mp (Option.isSome_of_eq_some h)
  have hsome : (s.users.update id f).isSome := by
    unfold Users.update
    rw [dif_pos hmem, h]
    rfl
  obtain ⟨t, ht⟩ := Option.isSome_iff_exists.mp hsome
  refine ⟨t, ht, ?_⟩
  rw [Users.byID_update ht, if_pos rfl, h]
  rfl

def rehashed (u : User) (passwordHash : String) : User :=
  { u with passwordHash, writes := u.writes + 1 }

theorem updatePassword_of_byID (h : s.users.byID id = some u) (passwordHash : String) :
    ∃ s', s.updatePassword id passwordHash = some (s', u.writes + 1) ∧
      s'.users.byID id = some (rehashed u passwordHash) := by
  obtain ⟨t, ht, hrow⟩ := update_of_byID h fun u => rehashed u passwordHash
  refine ⟨s.withUsers t, ?_, hrow⟩
  have hupdate : s.users.update id (fun u => { u with passwordHash, writes := u.writes + 1 }) =
      some t := ht
  unfold Shared.updatePassword
  rw [hupdate, Option.bind_some, hrow]
  rfl

def afterwards (hash : Nat → String → Option String) (c : Calls) (u : User) :
    Option String → Bool × User
  | none => (c.reload.isNone, u)
  | some password =>
    match hash c.salt password with
    | none => (false, u)
    | some passwordHash =>
      match c.writePassword with
      | .failed => (false, u)
      | .lost => (false, rehashed u passwordHash)
      | .done => (c.reload.isNone, rehashed u passwordHash)

theorem afterRole_ended (h : s.users.byID id = some u) (password : Option String) (keep : String) :
    Ended id (serve hash check c (n + 3) (s, afterRole id password keep))
      (afterwards hash c u password).1 (some (afterwards hash c u password).2) := by
  cases password with
  | none => exact answering_ended h none
  | some password =>
    unfold afterwards
    show Ended id (match advance hash check (.updatePassword c.salt c.writePassword) s
      (.writingPassword id password keep true) with
      | none => (s, .writingPassword id password keep true)
      | some out => serve hash check c (n + 2) out) _ _
    unfold advance
    dsimp only
    cases hhash : hash c.salt password with
    | none => exact h ▸ failed_ended
    | some passwordHash =>
      obtain ⟨s', hupdate, hrow⟩ := updatePassword_of_byID h passwordHash
      dsimp only
      rw [hupdate]
      cases c.writePassword with
      | failed => exact h ▸ failed_ended
      | lost => exact hrow ▸ failed_ended
      | done => exact revoking_ended hrow _ keep

def withRole (hash : Nat → String → Option String) (c : Calls) (u : User) (role : Role)
    (password : Option String) : Bool × User :=
  if c.writeRole = .done then afterwards hash c { u with role } password
  else (false, { u with role })

theorem writing_ended (h : s.users.byID id = some u) (hwrite : c.writeRole ≠ .failed) (role : Role)
    (password : Option String) (keep : String) (read : Role) (counted : Option Nat) :
    Ended id (serve hash check c (n + 4)
      (s, .writing id (.updateRole role password keep) read counted))
      (withRole hash c u role password).1 (some (withRole hash c u role password).2) := by
  obtain ⟨t, ht, hrow⟩ := update_of_byID h fun u => { u with role }
  have hrow' : (s.withUsers t).users.byID id = some { u with role } := hrow
  have hop : (Guarded.updateRole role password keep).write id s.users = some t := ht
  show Ended id (serve hash check c (n + 3) (c.writeRole.outcome s
    (((Guarded.updateRole role password keep).write id s.users).map fun t =>
      (s.withUsers t, afterRole id password keep)) .failed)) _ _
  rw [hop]
  unfold withRole
  cases hres : c.writeRole with
  | failed => exact absurd hres hwrite
  | lost => exact hrow' ▸ failed_ended
  | done => exact afterRole_ended hrow' password keep

theorem writing_failed (h : s.users.byID id = some u) (hwrite : c.writeRole = .failed)
    (op : Guarded) (read : Role) (counted : Option Nat) :
    Ended id (serve hash check c (n + 1) (s, .writing id op read counted)) false (some u) := by
  show Ended id (serve hash check c n (c.writeRole.outcome s _ .failed)) _ _
  rw [hwrite]
  cases op.write id s.users with
  | none => exact h ▸ failed_ended
  | some t => exact h ▸ failed_ended

theorem loading_eq (h : s.users.byID id = some u) {role : Role} (hne : u.role ≠ role)
    (password : Option String) (keep : String) :
    (∃ read counted m, c.roleUser = none ∧
      (u.role = .admin → c.admins = none ∧ 1 < s.users.countAdmins) ∧
      serve hash check c (n + 2) (s, .loading id (.updateRole role password keep)) =
        serve hash check c (n + m) (s, .writing id (.updateRole role password keep) read counted)) ∨
    (¬ (c.roleUser = none ∧ (u.role = .admin → c.admins = none ∧ 1 < s.users.countAdmins)) ∧
      serve hash check c (n + 2) (s, .loading id (.updateRole role password keep)) =
        (s, .failed)) := by
  have hload : serve hash check c (n + 2) (s, .loading id (.updateRole role password keep)) =
      serve hash check c (n + 1) (s, answered c.roleUser (s.users.byID id)
        ((Guarded.updateRole role password keep).loaded id)) := rfl
  rw [hload, h]
  cases hfault : c.roleUser with
  | some f =>
    right
    exact ⟨fun hno => absurd hno.1 nofun, serve_failed s⟩
  | none =>
    show (∃ read counted m, _ ∧ _ ∧
        serve hash check c (n + 1) (s, (Guarded.updateRole role password keep).loaded id u) = _) ∨
      (_ ∧ serve hash check c (n + 1) (s, (Guarded.updateRole role password keep).loaded id u) = _)
    unfold Guarded.loaded
    dsimp only
    rw [if_neg hne]
    by_cases hadmin : u.role = .admin
    · rw [if_pos hadmin]
      have hcount : serve hash check c (n + 1) (s, .counting id (.updateRole role password keep)) =
          serve hash check c n (s, answered c.admins (some s.users.countAdmins) fun n =>
            if n ≤ 1 then .failed
            else .writing id (.updateRole role password keep) .admin (some s.removals)) := rfl
      rw [hcount]
      cases hadmins : c.admins with
      | some f =>
        right
        exact ⟨fun hno => absurd (hno.2 hadmin).1 nofun, serve_failed s⟩
      | none =>
        show (∃ read counted m, _ ∧ _ ∧ serve hash check c n (s,
            if s.users.countAdmins ≤ 1 then .failed
            else .writing id (.updateRole role password keep) .admin (some s.removals)) = _) ∨
          (_ ∧ serve hash check c n (s, if s.users.countAdmins ≤ 1 then .failed
            else .writing id (.updateRole role password keep) .admin (some s.removals)) = _)
        by_cases hlast : s.users.countAdmins ≤ 1
        · right
          rw [if_pos hlast]
          exact ⟨fun hno => absurd (hno.2 hadmin).2 (by omega), serve_failed s⟩
        · left
          rw [if_neg hlast]
          exact ⟨.admin, some s.removals, 0, rfl, fun _ => ⟨rfl, by omega⟩, rfl⟩
    · left
      rw [if_neg hadmin]
      exact ⟨u.role, none, 1, rfl, fun h => absurd h hadmin, rfl⟩

theorem loading_written (h : s.users.byID id = some u) {role : Role} (hne : u.role ≠ role)
    (hw : RoleWritten c s u) (password : Option String) (keep : String) :
    Ended id (serve hash check c (n + 6) (s, .loading id (.updateRole role password keep)))
      (withRole hash c u role password).1 (some (withRole hash c u role password).2) := by
  rcases loading_eq (n := n + 4) h hne password keep with
    ⟨read, counted, m, -, -, heq⟩ | ⟨hno, -⟩
  · rw [heq, show n + 4 + m = n + m + 4 by omega]
    exact writing_ended h hw.write role password keep read counted
  · exact absurd ⟨hw.roleUser, hw.demotes⟩ hno

theorem loading_unwritten (h : s.users.byID id = some u) {role : Role} (hne : u.role ≠ role)
    (hw : ¬ RoleWritten c s u) (password : Option String) (keep : String) :
    Ended id (serve hash check c (n + 6) (s, .loading id (.updateRole role password keep))) false
      (some u) := by
  rcases loading_eq (n := n + 4) h hne password keep with
    ⟨read, counted, m, huser, hdemotes, heq⟩ | ⟨-, heq⟩
  · have hfailed : c.writeRole = .failed := by
      by_contra hwrite
      exact hw ⟨huser, hdemotes, hwrite⟩
    rw [heq, show n + 4 + m = n + 3 + m + 1 by omega]
    exact writing_failed h hfailed _ read counted
  · rw [heq]
    exact ⟨rfl, h⟩

theorem patched_refused {role password : Option String} (h : ¬ Admissible role password)
    (id : Int) (keep : String) (u : User) : patched id role password keep u = .failed := by
  unfold patched
  by_cases hnamed : role = none ∧ password = none
  · exact if_pos hnamed
  · rw [if_neg hnamed]
    cases role with
    | none =>
      dsimp only
      have hshort : password.any tooShort = true := by
        by_contra hlong
        exact h ⟨hnamed, nofun, Bool.not_eq_true _ ▸ hlong⟩
      exact if_pos hshort
    | some text =>
      dsimp only
      cases hparse : Role.parse (trimmed text) with
      | none => rfl
      | some role =>
        have hshort : password.any tooShort = true := by
          by_contra hlong
          refine h ⟨hnamed, fun text' htext' => ?_, Bool.not_eq_true _ ▸ hlong⟩
          cases htext'
          rw [hparse]
          rfl
        exact if_pos hshort

theorem patched_same {role password : Option String} (h : Admissible role password)
    (hsame : roleChange u role = none) (id : Int) (keep : String) :
    patched id role password keep u = afterRole id password keep ∧
      ∀ text ∈ role, Role.parse (trimmed text) = some u.role := by
  unfold patched
  rw [if_neg h.named]
  have hshort : ¬ password.any tooShort = true := by
    rw [h.long]
    nofun
  cases role with
  | none => exact ⟨if_neg hshort, nofun⟩
  | some text =>
    obtain ⟨role, hparse⟩ := Option.isSome_iff_exists.mp (h.known text rfl)
    have hrole : role = u.role := by
      by_contra hne
      unfold roleChange at hsame
      rw [Option.bind_some, hparse, Option.filter_some, if_pos (decide_eq_true hne)] at hsame
      cases hsame
    dsimp only
    rw [hparse]
    refine ⟨?_, fun text' htext' => ?_⟩
    · dsimp only
      rw [if_neg hshort, if_pos hrole]
    · cases htext'
      rw [hparse, hrole]

theorem patched_other {role password : Option String} (h : Admissible role password) {r : Role}
    (hother : roleChange u role = some r) (id : Int) (keep : String) :
    patched id role password keep u = .loading id (.updateRole r password keep) ∧ u.role ≠ r ∧
      ∃ text, role = some text ∧ Role.parse (trimmed text) = some r := by
  unfold roleChange at hother
  obtain ⟨hbind, hne⟩ := Option.filter_eq_some_iff.mp hother
  obtain ⟨text, rfl, hparse⟩ := Option.bind_eq_some_iff.mp hbind
  have hne : r ≠ u.role := of_decide_eq_true hne
  have hshort : ¬ password.any tooShort = true := by
    rw [h.long]
    nofun
  refine ⟨?_, hne.symm, text, rfl, hparse⟩
  unfold patched
  rw [if_neg h.named]
  dsimp only
  rw [hparse]
  dsimp only
  rw [if_neg hshort, if_neg hne]

variable {role password : Option String} {x : Shared × Phase}

theorem allOrNothing_of_failed (h : Ended id x false (s.users.byID id)) :
    AllOrNothing hash c s id role password x := .inr ⟨h.answer, h.row⟩

theorem allOrNothing_iff {v : User} {ok : Bool} (hu : s.users.byID id = some u)
    (h : Ended id x ok (some v)) : AllOrNothing hash c s id role password x ↔
      if ok then Applied hash c role password u v else v = u := by
  unfold AllOrNothing
  rw [h.row, hu]
  have hanswer := h.answer
  cases ok with
  | true =>
    have hsuccess : x.2.success = true := hanswer
    constructor
    · rintro (⟨-, u', v', hu', hv', happlied⟩ | ⟨hfailed, -⟩)
      · cases hu'
        cases hv'
        exact happlied
      · rw [hfailed] at hsuccess
        cases hsuccess
    · exact fun happlied => .inl ⟨hsuccess, u, v, rfl, rfl, happlied⟩
  | false =>
    have hfailed : x.2 = .failed := hanswer
    constructor
    · rintro (⟨hsuccess, -⟩ | ⟨-, hrow⟩)
      · rw [hfailed] at hsuccess
        cases hsuccess
      · exact Option.some.inj hrow
    · exact fun hrow => .inr ⟨hfailed, congrArg some hrow⟩

theorem afterwards_iff (hrole : ∀ text ∈ role, Role.parse (trimmed text) = some u.role) :
    (if (afterwards hash c u password).1 then
      Applied hash c role password u (afterwards hash c u password).2
      else (afterwards hash c u password).2 = u) ↔
      ∀ text ∈ password, (hash c.salt text).isSome →
        c.writePassword ≠ .lost ∧ (c.writePassword = .done → c.reload = none) := by
  have hrehashed : ∀ passwordHash, rehashed u passwordHash ≠ u := by
    intro passwordHash heq
    have hwrites := congrArg User.writes heq
    exact absurd hwrites (Nat.succ_ne_self u.writes)
  cases password with
  | none =>
    refine iff_of_true ?_ nofun
    show if c.reload.isNone = true then Applied hash c role none u u else u = u
    split
    · exact ⟨hrole, nofun, fun _ => rfl, fun _ => rfl, rfl⟩
    · rfl
  | some password =>
    unfold afterwards
    cases hhash : hash c.salt password with
    | none => simp [hhash]
    | some passwordHash =>
      have happlied : Applied hash c role (some password) u (rehashed u passwordHash) := by
        refine ⟨hrole, fun text htext => ?_, fun _ => rfl, nofun, rfl⟩
        cases htext
        exact hhash
      cases hwrite : c.writePassword with
      | failed => simp [hhash]
      | lost => simp [hhash, hrehashed]
      | done =>
        cases hreload : c.reload with
        | none => simpa [hhash] using happlied
        | some f => simp [hhash, hrehashed]

theorem withRole_iff {r : Role} (hne : u.role ≠ r)
    (hrole : ∃ text, role = some text ∧ Role.parse (trimmed text) = some r)  :
    (if (withRole hash c u r password).1 then
      Applied hash c role password u (withRole hash c u r password).2
      else (withRole hash c u r password).2 = u) ↔
      c.writeRole = .done ∧ c.reload = none ∧
        ∀ text ∈ password, (hash c.salt text).isSome ∧ c.writePassword = .done := by
  obtain ⟨text, rfl, hparse⟩ := hrole
  have hnew : ({ u with role := r } : User) ≠ u := fun heq => hne (congrArg User.role heq).symm
  have hrehashed : ∀ passwordHash, rehashed { u with role := r } passwordHash ≠ u :=
    fun passwordHash heq => hne (congrArg User.role heq).symm
  have hnamed : ∀ text' ∈ some text, Role.parse (trimmed text') = some r := by
    intro text' htext'
    cases htext'
    exact hparse
  unfold withRole
  by_cases hwrite : c.writeRole = .done
  · rw [if_pos hwrite]
    cases password with
    | none =>
      cases hreload : c.reload with
      | none =>
        refine iff_of_true ?_ ⟨hwrite, rfl, nofun⟩
        simp only [afterwards, hreload]
        exact ⟨hnamed, nofun, nofun, fun _ => rfl, rfl⟩
      | some f => simp [afterwards, hreload, hnew]
    | some password =>
      unfold afterwards
      cases hhash : hash c.salt password with
      | none => simp [hhash, hnew]
      | some passwordHash =>
        have happlied : Applied hash c (some text) (some password) u
            (rehashed { u with role := r } passwordHash) := by
          refine ⟨hnamed, fun text' htext' => ?_, nofun, nofun, rfl⟩
          cases htext'
          exact hhash
        cases hpassword : c.writePassword with
        | failed => simp [hhash, hnew]
        | lost => simp [hhash, hrehashed]
        | done =>
          cases hreload : c.reload with
          | none => simpa [hhash, hwrite] using happlied
          | some f => simp [hhash, hrehashed]
  · rw [if_neg hwrite]
    simp [hwrite, hnew]

/-- An edit is all or nothing exactly where no call fails once it has changed something. -/
theorem edit_whole (hash : Nat → String → Option String) (check : String → String → Bool)
    (c : Calls) (s : Shared) (id : Int) (role password : Option String) (keep : String) :
    AllOrNothing hash c s id role password
      (handlePatchUser hash check c s id role password keep) ↔ Whole hash c s id role password := by
  have hstart : handlePatchUser hash check c s id role password keep = serve hash check c 6
      (s, answered c.user (s.users.byID id) (patched id role password keep)) := rfl
  rw [hstart]
  cases huser : c.user with
  | some f =>
    refine iff_of_true (allOrNothing_of_failed failed_ended) fun u hno => ?_
    rw [huser] at hno
    cases hno
  | none =>
    cases hu : s.users.byID id with
    | none =>
      refine iff_of_true (allOrNothing_of_failed failed_ended) fun u _ hno => ?_
      rw [hu] at hno
      cases hno
    | some u =>
      show AllOrNothing hash c s id role password
        (serve hash check c 6 (s, patched id role password keep u)) ↔ _
      have hwhole : Whole hash c s id role password ↔ (Admissible role password →
          (roleChange u role ≠ none → RoleWritten c s u →
            c.writeRole = .done ∧ c.reload = none ∧
              ∀ text ∈ password, (hash c.salt text).isSome ∧ c.writePassword = .done) ∧
          (roleChange u role = none → ∀ text ∈ password, (hash c.salt text).isSome →
            c.writePassword ≠ .lost ∧ (c.writePassword = .done → c.reload = none))) := by
        constructor
        · exact fun h => h u huser hu
        · intro h u' _ hu'
          cases hu.symm.trans hu'
          exact h
      rw [hwhole]
      by_cases hadmissible : Admissible role password
      · cases hchange : roleChange u role with
        | none =>
          obtain ⟨hpatched, hrole⟩ := patched_same hadmissible hchange id keep
          rw [hpatched, allOrNothing_iff hu (afterRole_ended (n := 3) hu password keep),
            afterwards_iff hrole]
          simp [hadmissible]
        | some r =>
          obtain ⟨hpatched, hne, hrole⟩ := patched_other hadmissible hchange id keep
          rw [hpatched]
          by_cases hw : RoleWritten c s u
          · rw [allOrNothing_iff hu (loading_written (n := 0) hu hne hw password keep),
              withRole_iff hne hrole]
            simp [hadmissible, hw]
          · refine iff_of_true ?_ fun _ => ⟨fun _ hw' => absurd hw' hw, nofun⟩
            exact (allOrNothing_iff hu (loading_unwritten (n := 0) hu hne hw password keep)).mpr rfl
      · rw [patched_refused hadmissible]
        refine iff_of_true (allOrNothing_of_failed failed_ended) fun h => absurd h hadmissible

def clearHash (_ : Nat) (password : String) : Option String :=
  if password.utf8ByteSize ≤ 72 then some password else none

def oneOperator : Shared where
  users := {
    rows := (AList.singleton 1 ⟨"admin", "admin", .admin, 0⟩).insert 2 ⟨"carol", "password", .operator, 0⟩
    nextID := 3
    fresh := by decide }
  defaultPassword := false
  sessions := []
  removals := 0
  swept := ∅

def allFine : Calls := ⟨none, none, none, .done, 0, .done, .done, none⟩

theorem long_password_half_applied : ¬ AllOrNothing clearHash allFine oneOperator 2 (some "viewer")
    (some (String.ofList (List.replicate 73 'a'))) (handlePatchUser clearHash (fun _ _ => true)
      allFine oneOperator 2 (some "viewer") (some (String.ofList (List.replicate 73 'a'))) "t1") := by
  have hended : Ended 2 (handlePatchUser clearHash (fun _ _ => true)
      allFine oneOperator 2 (some "viewer") (some (String.ofList (List.replicate 73 'a'))) "t1") false
      (some ⟨"carol", "password", .viewer, 0⟩) := ⟨by decide +kernel, by decide +kernel⟩
  have hu : oneOperator.users.byID 2 = some ⟨"carol", "password", .operator, 0⟩ := by decide
  rw [allOrNothing_iff hu hended, if_neg Bool.false_ne_true]
  decide

end PatchUser

end ProxBack.Auth
