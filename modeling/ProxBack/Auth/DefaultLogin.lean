import ProxBack.Auth.LastAdmin

/-! The flag that warns of the seeded credentials, over the calls that create, change and delete
accounts. -/
namespace ProxBack.Auth
open Lib
open Engine (Fault)

namespace DefaultLogin

def defaultAdminUsername : String := "admin"

def defaultAdminPassword : String := "admin"

/-- `seeded` is the account that was seeded last; no call reads it. -/
structure Installation where
  users : Users
  defaultPassword : Bool
  seeded : Option Int

/-- A call, with how each of its statements ends; a fault is one of a statement that reads. -/
inductive Call where
  | seedDefaultAdmin (count : Option Fault) (salt : Nat) (created flagged : Written)
  | createUser (username password : String) (role : Role) (salt : Nat) (created : Written)
  | deleteUser (id : Int) (read count : Option Fault) (revoked : Bool) (deleted : Written)
  | changePassword (id : Int) (current new : String) (read : Option Fault) (salt : Nat)
      (updated flagged : Written)
  | setPassword (id : Int) (new : String) (salt : Nat) (updated : Written)
deriving DecidableEq, Repr

namespace Installation

def empty : Installation := ⟨.empty, false, none⟩

def setDefaultPasswordFlag (x : Installation) (on : Bool) (res : Written) : Installation × Bool :=
  res.outcome x (some ({ x with defaultPassword := on }, true)) false

def updateUserPassword (x : Installation) (id : Int) (passwordHash : String) (res : Written) :
    Installation × Bool :=
  res.outcome x ((x.users.update id fun u => { u with passwordHash }).map fun t =>
    ({ x with users := t }, true)) false

def deleteRow (x : Installation) (id : Int) (res : Written) : Installation × Bool :=
  res.outcome x ((x.users.delete id).map fun t => ({ x with users := t }, true)) false

def insertUser (x : Installation) (u : User) (seeded : Option Int) (res : Written) :
    Installation × Bool :=
  res.outcome x ((x.users.create u).map fun t => ({ x with users := t, seeded }, true)) false

end Installation

section
variable (hash : Nat → String → Option String) (check : String → String → Bool)

def seedDefaultAdmin (x : Installation) (count : Option Fault) (salt : Nat)
    (created flagged : Written) : Installation :=
  if count.isSome ∨ x.users.count > 0 then x
  else
    match hash salt defaultAdminPassword with
    | none => x
    | some passwordHash =>
      match x.insertUser ⟨defaultAdminUsername, passwordHash, .admin, 0⟩ (some x.users.nextID) created with
      | (x, true) => (x.setDefaultPasswordFlag true flagged).1
      | (x, false) => x

def createUser (x : Installation) (username password : String) (role : Role) (salt : Nat)
    (created : Written) : Installation :=
  match hash salt password with
  | none => x
  | some passwordHash => (x.insertUser ⟨username, passwordHash, role, 0⟩ x.seeded created).1

def deleteUser (x : Installation) (id : Int) (read count : Option Fault) (revoked : Bool)
    (deleted : Written) : Installation :=
  match read, x.users.byID id with
  | none, some u =>
    if u.role = .admin ∧ (count.isSome ∨ x.users.countAdmins ≤ 1) then x
    else if revoked then (x.deleteRow id deleted).1
    else x
  | _, _ => x

def changePassword (x : Installation) (id : Int) (current new : String) (read : Option Fault)
    (salt : Nat) (updated flagged : Written) : Installation :=
  match read, x.users.byID id with
  | none, some u =>
    if check u.passwordHash current then
      match hash salt new with
      | none => x
      | some passwordHash =>
        match x.updateUserPassword id passwordHash updated with
        | (x, true) => (x.setDefaultPasswordFlag false flagged).1
        | (x, false) => x
    else x
  | _, _ => x

def setPassword (x : Installation) (id : Int) (new : String) (salt : Nat) (updated : Written) :
    Installation :=
  match hash salt new with
  | none => x
  | some passwordHash => (x.updateUserPassword id passwordHash updated).1

def call (x : Installation) : Call → Installation
  | .seedDefaultAdmin count salt created flagged => seedDefaultAdmin hash x count salt created flagged
  | .createUser username password role salt created =>
    createUser hash x username password role salt created
  | .deleteUser id read count revoked deleted => deleteUser x id read count revoked deleted
  | .changePassword id current new read salt updated flagged =>
    changePassword hash check x id current new read salt updated flagged
  | .setPassword id new salt updated => setPassword hash x id new salt updated

def system : System Installation Call := ⟨fun c x => some (call hash check x c)⟩

def Default (x : Installation) : Prop :=
  ∃ id ∈ x.seeded, ∃ u ∈ x.users.byID id, check u.passwordHash defaultAdminPassword = true

def Truthful (x : Installation) : Prop := x.defaultPassword = true ↔ Default check x

def Replaces (salt : Nat) (new : String) : Prop :=
  ∀ h ∈ hash salt new, check h defaultAdminPassword = false

/-- The condition on the calls. While the flag is on, the seeded account is not deleted or reset,
and nobody else changes a password; it is never given the seeded password again; and neither
seeding nor a change that has to clear the flag fails between its two writes. -/
def Heeds (x : Installation) : Call → Prop
  | .seedDefaultAdmin _ _ created flagged =>
    x.users.count = 0 → created ≠ .lost ∧ (created = .done → flagged ≠ .failed)
  | .createUser _ _ _ _ _ => True
  | .deleteUser id _ _ _ _ => x.defaultPassword = true → x.seeded ≠ some id
  | .changePassword id _ new _ salt updated flagged =>
    (x.defaultPassword = true → x.seeded = some id ∧ updated ≠ .lost ∧ flagged ≠ .failed) ∧
      (x.seeded = some id → Replaces hash check salt new)
  | .setPassword id new salt _ =>
    x.seeded = some id → x.defaultPassword = false ∧ Replaces hash check salt new

instance (salt : Nat) (new : String) : Decidable (Replaces hash check salt new) :=
  match h : hash salt new with
  | none => isTrue fun _ hp => by rw [h] at hp; cases hp
  | some p => decidable_of_iff (check p defaultAdminPassword = false)
      ⟨fun hp q hq => by rw [h] at hq; cases hq; exact hp, fun hall => hall p h⟩

instance (x : Installation) (c : Call) : Decidable (Heeds hash check x c) := by
  unfold Heeds
  split <;> infer_instance

end

variable {hash : Nat → String → Option String} {check : String → String → Bool}
  {x x' : Installation} {id : Int}

structure Inv (check : String → String → Bool) (x : Installation) : Prop where
  truthful : Truthful check x
  bounded : ∀ id ∈ x.seeded, id < x.users.nextID

theorem truthful_off (hflag : x.defaultPassword = false) (hdefault : ¬ Default check x) :
    Truthful check x :=
  iff_of_false (by rw [hflag]; exact Bool.false_ne_true) hdefault

theorem Inv.of_agree (h : Inv check x) (hflag : x'.defaultPassword = x.defaultPassword)
    (hseeded : x'.seeded = x.seeded) (hbyID : ∀ id ∈ x.seeded, x'.users.byID id = x.users.byID id)
    (hnext : x.users.nextID ≤ x'.users.nextID) : Inv check x' := by
  refine ⟨?_, fun id hid => ?_⟩
  · have hsame : Default check x' ↔ Default check x := by
      unfold Default
      rw [hseeded]
      exact exists_congr fun id => and_congr_right fun hid => by rw [hbyID id hid]
    unfold Truthful
    rw [hflag, hsame]
    exact h.truthful
  · rw [hseeded] at hid
    exact Int.lt_of_lt_of_le (h.bounded id hid) hnext

theorem Inv.of_off (hflag : x.defaultPassword = false) (hdefault : ¬ Default check x)
    (hbounded : ∀ id ∈ x.seeded, id < x.users.nextID) : Inv check x :=
  ⟨truthful_off hflag hdefault, hbounded⟩

theorem Inv.insertUser (h : Inv check x) {u : User} {t : Users} (hcreate : x.users.create u = some t) :
    Inv check { x with users := t } := by
  obtain ⟨-, hrows, hnext⟩ := Users.create_cases hcreate
  refine h.of_agree rfl rfl (fun id hid => ?_) ?_
  · show t.byID id = x.users.byID id
    rw [Users.byID, hrows, AList.lookup_insert_ne (Int.ne_of_lt (h.bounded id hid))]
    rfl
  · show x.users.nextID ≤ t.nextID
    omega

theorem Inv.deleteRow (h : Inv check x) {t : Users} (hdelete : x.users.delete id = some t)
    (hother : x.defaultPassword = true → x.seeded ≠ some id) : Inv check { x with users := t } := by
  obtain ⟨-, -, hnext⟩ := Users.delete_cases hdelete
  by_cases hid : x.seeded = some id
  · have hflag : x.defaultPassword = false :=
      Bool.eq_false_iff.mpr fun hon => hother hon hid
    refine .of_off hflag ?_ ?_
    · rintro ⟨k, hk, u, hu, -⟩
      cases hid.symm.trans hk
      have hbyID : t.byID id = some u := hu
      rw [Users.byID_delete hdelete, if_pos rfl] at hbyID
      cases hbyID
    · exact fun k hk => hnext ▸ h.bounded k hk
  · refine h.of_agree rfl rfl (fun k hk => ?_) (hnext ▸ Int.le_refl _)
    have hne : k ≠ id := by
      rintro rfl
      exact hid hk
    show t.byID k = _
    rw [Users.byID_delete hdelete, if_neg hne]

theorem not_default_update {t : Users} {passwordHash : String} (hid : x.seeded = some id)
    (hupdate : x.users.update id (fun u => { u with passwordHash }) = some t)
    (hreplaces : check passwordHash defaultAdminPassword = false) :
    ¬ Default check { x with users := t } := by
  rintro ⟨k, hk, u, hu, hcheck⟩
  cases hid.symm.trans hk
  have hbyID : t.byID id = some u := hu
  rw [Users.byID_update hupdate, if_pos rfl] at hbyID
  obtain ⟨u', -, rfl⟩ := Option.map_eq_some_iff.mp hbyID
  rw [hreplaces] at hcheck
  cases hcheck

/-- Where the flag is down, a hash that is written does not accept the seeded password for the
seeded account. -/
theorem Inv.updateUserPassword (h : Inv check x) {t : Users} {passwordHash : String}
    (hupdate : x.users.update id (fun u => { u with passwordHash }) = some t)
    (hseeded : x.seeded = some id →
      x.defaultPassword = false ∧ check passwordHash defaultAdminPassword = false) :
    Inv check { x with users := t } := by
  obtain ⟨u, -, -, hnext⟩ := Users.update_cases hupdate
  by_cases hid : x.seeded = some id
  · obtain ⟨hflag, hreplaces⟩ := hseeded hid
    exact .of_off hflag (not_default_update hid hupdate hreplaces) fun k hk => hnext ▸ h.bounded k hk
  · refine h.of_agree rfl rfl (fun k hk => ?_) (hnext ▸ Int.le_refl _)
    have hne : k ≠ id := by
      rintro rfl
      exact hid hk
    show t.byID k = _
    rw [Users.byID_update hupdate, if_neg hne]

theorem Inv.seedDefaultAdmin (h : Inv check x)
    (hseed : ∀ salt p, hash salt defaultAdminPassword = some p → check p defaultAdminPassword = true)
    {count : Option Fault} {salt : Nat} {created flagged : Written}
    (hheeds : Heeds hash check x (.seedDefaultAdmin count salt created flagged)) :
    Inv check (seedDefaultAdmin hash x count salt created flagged) := by
  unfold DefaultLogin.seedDefaultAdmin
  split
  · exact h
  · rename_i hnone
    obtain ⟨hlost, hflagged⟩ := hheeds (Nat.eq_zero_of_not_pos fun hpos => hnone (.inr hpos))
    cases hhash : hash salt defaultAdminPassword with
    | none => exact h
    | some p =>
      dsimp only
      unfold Installation.insertUser
      cases hcreate : x.users.create ⟨defaultAdminUsername, p, .admin, 0⟩ with
      | none =>
        cases created <;> exact h
      | some t =>
        obtain ⟨-, hrows, hnext⟩ := Users.create_cases hcreate
        have hbyID : t.byID x.users.nextID = some ⟨defaultAdminUsername, p, .admin, 0⟩ := by
          rw [Users.byID, hrows, AList.lookup_insert]
        have hdefault : Default check ⟨t, true, some x.users.nextID⟩ :=
          ⟨_, rfl, _, hbyID, hseed _ _ hhash⟩
        have hinv : Inv check ⟨t, true, some x.users.nextID⟩ := by
          refine ⟨iff_of_true rfl hdefault, fun id hid => ?_⟩
          cases hid
          show x.users.nextID < t.nextID
          omega
        cases created with
        | lost => exact absurd rfl hlost
        | failed => exact h
        | done =>
          cases flagged with
          | failed => exact absurd rfl (hflagged rfl)
          | done => exact hinv
          | lost => exact hinv

theorem Inv.createUser (h : Inv check x) (username password : String) (role : Role) (salt : Nat)
    (created : Written) : Inv check (createUser hash x username password role salt created) := by
  unfold DefaultLogin.createUser
  split
  · exact h
  · refine Written.outcome_spec (R := fun x _ => Inv check x) h (fun x₁ ok heffect => ?_) rfl
    obtain ⟨t, hcreate, heq⟩ := Option.map_eq_some_iff.mp heffect
    cases heq
    exact ⟨h.insertUser hcreate, h.insertUser hcreate⟩

theorem Inv.deleteUser (h : Inv check x) {read count : Option Fault} {revoked : Bool}
    {deleted : Written} (hheeds : Heeds hash check x (.deleteUser id read count revoked deleted)) :
    Inv check (deleteUser x id read count revoked deleted) := by
  unfold DefaultLogin.deleteUser
  split
  · split
    · exact h
    · split
      · refine Written.outcome_spec (R := fun x _ => Inv check x) h (fun x₁ ok heffect => ?_) rfl
        obtain ⟨t, hdelete, heq⟩ := Option.map_eq_some_iff.mp heffect
        cases heq
        exact ⟨h.deleteRow hdelete hheeds, h.deleteRow hdelete hheeds⟩
      · exact h
  · exact h

theorem Inv.setPassword (h : Inv check x) {new : String} {salt : Nat} {updated : Written}
    (hheeds : Heeds hash check x (.setPassword id new salt updated)) :
    Inv check (setPassword hash x id new salt updated) := by
  unfold DefaultLogin.setPassword
  split
  · exact h
  · rename_i p hhash
    refine Written.outcome_spec (R := fun x _ => Inv check x) h (fun x₁ ok heffect => ?_) rfl
    obtain ⟨t, hupdate, heq⟩ := Option.map_eq_some_iff.mp heffect
    cases heq
    have hwritten : Inv check { x with users := t } :=
      h.updateUserPassword hupdate fun hid => ⟨(hheeds hid).1, (hheeds hid).2 p hhash⟩
    exact ⟨hwritten, hwritten⟩

theorem Inv.changePassword (h : Inv check x) {current new : String} {read : Option Fault}
    {salt : Nat} {updated flagged : Written}
    (hheeds : Heeds hash check x (.changePassword id current new read salt updated flagged)) :
    Inv check (changePassword hash check x id current new read salt updated flagged) := by
  obtain ⟨hon, hreplaces⟩ := hheeds
  unfold DefaultLogin.changePassword
  split
  · split
    · cases hhash : hash salt new with
      | none => exact h
      | some p =>
        dsimp only
        unfold Installation.updateUserPassword
        cases hupdate : x.users.update id (fun u => { u with passwordHash := p }) with
        | none => cases updated <;> exact h
        | some t =>
          obtain ⟨u, -, -, hnext⟩ := Users.update_cases hupdate
          have hbounded : ∀ k ∈ x.seeded, k < t.nextID := fun k hk => hnext ▸ h.bounded k hk
          cases hflag : x.defaultPassword with
          | true =>
            obtain ⟨hid, hlost, hfailed⟩ := hon hflag
            have hdown : Inv check { x with users := t, defaultPassword := false } :=
              .of_off rfl (not_default_update (x := { x with defaultPassword := false }) hid hupdate
                (hreplaces hid p hhash)) hbounded
            cases updated with
            | lost => exact absurd rfl hlost
            | failed => exact h
            | done =>
              cases flagged with
              | failed => exact absurd rfl hfailed
              | done => exact hdown
              | lost => exact hdown
          | false =>
            have hwritten : Inv check { x with users := t } :=
              h.updateUserPassword hupdate fun hid => ⟨hflag, hreplaces hid p hhash⟩
            rw [hflag] at hwritten
            cases updated with
            | failed => exact h
            | lost => exact hwritten
            | done => cases flagged <;> exact hwritten
    · exact h
  · exact h

theorem Inv.call (h : Inv check x)
    (hseed : ∀ salt p, hash salt defaultAdminPassword = some p → check p defaultAdminPassword = true)
    (c : Call) (hheeds : Heeds hash check x c) : Inv check (call hash check x c) := by
  cases c with
  | seedDefaultAdmin count salt created flagged => exact h.seedDefaultAdmin hseed hheeds
  | createUser username password role salt created => exact h.createUser _ _ _ _ _
  | deleteUser id read count revoked deleted => exact h.deleteUser hheeds
  | changePassword id current new read salt updated flagged => exact h.changePassword hheeds
  | setPassword id new salt updated => exact h.setPassword hheeds

theorem truthful_of_heeding (hash : Nat → String → Option String) (check : String → String → Bool)
    (hseed : ∀ salt p, hash salt defaultAdminPassword = some p → check p defaultAdminPassword = true)
    {cs : List Call} {x : Installation}
    (h : (system hash check).Run (Heeds hash check) .empty cs x) : Truthful check x := by
  have hempty : Inv check .empty := by
    refine .of_off rfl ?_ nofun
    rintro ⟨id, hid, -⟩
    cases hid
  have hinv : Inv check x := by
    refine System.Run.invariant ?_ h hempty
    intro c x x' hx hheeds hstep
    cases hstep
    exact hx.call hseed c hheeds
  exact hinv.truthful

def seedAndCreate : List Call :=
  [.seedDefaultAdmin none 0 .done .done, .createUser "carol" "password" .operator 0 .done]

theorem truthful_of_heeding_change : ∃ x,
    (system LastAdmin.plainHash LastAdmin.plainCheck).Run
      (Heeds LastAdmin.plainHash LastAdmin.plainCheck) .empty
      (seedAndCreate ++ [.changePassword 1 "admin" "new password" none 0 .done .done,
        .changePassword 2 "password" "another password" none 0 .done .done]) x ∧
    x.users.count = 2 ∧ Truthful LastAdmin.plainCheck x := by
  obtain ⟨x, hfollow, hcount⟩ : ∃ x, (system LastAdmin.plainHash LastAdmin.plainCheck).follow
      (seedAndCreate ++ [.changePassword 1 "admin" "new password" none 0 .done .done,
        .changePassword 2 "password" "another password" none 0 .done .done]) .empty = some x ∧
      x.users.count = 2 := ⟨_, rfl, rfl⟩
  have hrun := System.run_of_trail
    (p := fun c => decide (Heeds LastAdmin.plainHash LastAdmin.plainCheck c.1 c.2))
    (fun _ _ h => of_decide_eq_true h) hfollow (by decide +kernel)
  refine ⟨x, hrun, hcount, truthful_of_heeding _ _ (fun salt p hp => ?_) hrun⟩
  cases hp
  exact decide_eq_true rfl

/-- An operator changes their own password, and the warning about the admin's is gone. -/
theorem another_clears_flag : ∃ x,
    (system LastAdmin.plainHash LastAdmin.plainCheck).Run (fun _ _ => True) .empty
      (seedAndCreate ++ [.changePassword 2 "password" "another password" none 0 .done .done]) x ∧
    x.defaultPassword = false ∧ x.seeded = some 1 ∧
    x.users.byID 1 = some ⟨"admin", "admin", .admin, 0⟩ ∧ ¬ Truthful LastAdmin.plainCheck x := by
  refine ⟨_, System.run_of_follow (fun _ _ _ => trivial) rfl, rfl, rfl, rfl, fun h => ?_⟩
  have hon := h.mpr ⟨1, rfl, ⟨"admin", "admin", .admin, 0⟩, rfl, decide_eq_true rfl⟩
  exact absurd hon (by decide +kernel)

end DefaultLogin

end ProxBack.Auth
