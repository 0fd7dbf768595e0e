import ProxBack.Auth.Accounts

/-! An installation keeps an admin where no other request takes one away between the check of a
demotion or a deletion and its write. -/
namespace ProxBack.Auth
open Lib
open Engine (Fault)

namespace LastAdmin

def Demotes : Guarded → Prop
  | .updateRole role _ _ => role ≠ .admin
  | .deleteUser => True

/-- The condition on the steps: a write that can take an admin away finds the role that was
read, and no admin fewer than when they were counted. -/
def Steady (s : Shared) : Phase → Access → Prop
  | .writing id op read counted, .write _ =>
    Demotes op → (∀ u ∈ s.users.byID id, u.role = read) ∧ ∀ c ∈ counted, c = s.removals
  | _, _ => True

instance (op : Guarded) : Decidable (Demotes op) := by
  unfold Demotes
  split <;> infer_instance

instance (s : Shared) (q : Phase) (b : Access) : Decidable (Steady s q b) := by
  unfold Steady
  split <;> infer_instance

def checked : Phase → Option (Role × Option Nat)
  | .writing _ _ read counted => some (read, counted)
  | .revokingAll _ read counted => some (read, counted)
  | _ => none

structure Counted (s : Shared) (read : Role) (counted : Option Nat) : Prop where
  of_admin : read = .admin → counted ≠ none
  bounded : ∀ c ∈ counted, c ≤ s.removals
  enough : ∀ c ∈ counted, c = s.removals → 1 < s.users.countAdmins

def Sound (s : Shared) (q : Phase) : Prop := ∀ r ∈ checked q, Counted s r.1 r.2

variable {hash : Nat → String → Option String} {check : String → String → Bool}
  {s s' : Shared} {q q' : Phase} {b : Access}

theorem sound_of_unchecked (h : checked q = none) : Sound s q := by
  intro r hr
  rw [h] at hr
  cases hr

theorem Counted.withUsers {read : Role} {counted : Option Nat} (h : Counted s read counted)
    (t : Users) : Counted (s.withUsers t) read counted := by
  unfold Shared.withUsers
  split
  · refine ⟨h.of_admin, fun c hc => Nat.le_succ_of_le (h.bounded c hc), fun c hc heq => ?_⟩
    -- the count is of before this removal
    have hle := h.bounded c hc
    have hsucc : c = s.removals + 1 := heq
    omega
  · rename_i hkept
    exact ⟨h.of_admin, h.bounded, fun c hc heq =>
      Nat.lt_of_lt_of_le (h.enough c hc heq) (Nat.not_lt.mp hkept)⟩

theorem Sound.withUsers (h : Sound s q) (t : Users) : Sound (s.withUsers t) q :=
  fun r hr => (h r hr).withUsers t

theorem Sound.same (h : Sound s q) (husers : s'.users = s.users)
    (hremovals : s'.removals = s.removals) : Sound s' q := by
  intro r hr
  obtain ⟨hadmin, hbounded, henough⟩ := h r hr
  exact ⟨hadmin, hremovals ▸ hbounded, by rw [husers, hremovals]; exact henough⟩

@[simp] theorem checked_afterRole (id : Int) (password : Option String) (keep : String) :
    checked (afterRole id password keep) = none := by
  cases password <;> rfl

@[simp]
theorem checked_patched (id : Int) (role password : Option String) (keep : String) (u : User) :
    checked (patched id role password keep u) = none := by
  unfold patched
  split
  · rfl
  · split
    · split
      · rfl
      · exact checked_afterRole _ _ _
    · split
      · rfl
      · split
        · rfl
        · split
          · exact checked_afterRole _ _ _
          · rfl

@[simp] theorem checked_next (op : Guarded) (id : Int) : checked (op.next id) = none := by
  cases op with
  | updateRole role password keep => exact checked_afterRole _ _ _
  | deleteUser => rfl

theorem Sound.proceed {read : Role} {counted : Option Nat} (h : Counted s read counted)
    (op : Guarded) (id : Int) : Sound s (op.proceed id read counted) := by
  cases op <;>
  · intro r hr
    cases hr
    exact h

theorem Sound.loaded (op : Guarded) (id : Int) (u : User) : Sound s (op.loaded id u) := by
  have hother : u.role ≠ .admin → Counted s u.role none := fun h =>
    ⟨fun heq => absurd heq h, nofun, nofun⟩
  cases op with
  | updateRole role password keep =>
    rw [Guarded.loaded]
    split
    · exact sound_of_unchecked (checked_afterRole _ _ _)
    · split
      · exact sound_of_unchecked rfl
      · rename_i hrole
        exact .proceed (hother hrole) _ _
  | deleteUser =>
    rw [Guarded.loaded]
    split
    · exact sound_of_unchecked rfl
    · rename_i hrole
      exact .proceed (hother hrole) _ _

/-- What an access leaves behind: an admin, what this request has found out, and what the
others have. -/
structure Keeps (s s' : Shared) (q' : Phase) : Prop where
  admin : 0 < s'.users.countAdmins
  own : Sound s' q'
  others : ∀ p, Sound s p → Sound s' p

theorem Keeps.same (h : 0 < s.users.countAdmins) (hq' : Sound s q') : Keeps s s q' :=
  ⟨h, hq', fun _ hp => hp⟩

theorem Keeps.frame (h : 0 < s.users.countAdmins) (husers : s'.users = s.users)
    (hremovals : s'.removals = s.removals) (hq' : Sound s q') : Keeps s s' q' :=
  ⟨husers ▸ h, hq'.same husers hremovals, fun _ hp => hp.same husers hremovals⟩

theorem Keeps.withUsers {t : Users} (h : 0 < t.countAdmins) (hq' : checked q' = none) :
    Keeps s (s.withUsers t) q' :=
  ⟨h, sound_of_unchecked hq', fun _ hp => hp.withUsers t⟩

theorem countAdmins_write {op : Guarded} {id : Int} {read : Role} {counted : Option Nat} {t : Users}
    (hadmin : 0 < s.users.countAdmins) (hcounted : Counted s read counted)
    (hsteady : Demotes op → (∀ u ∈ s.users.byID id, u.role = read) ∧ ∀ c ∈ counted, c = s.removals)
    (hwrite : op.write id s.users = some t) : 0 < t.countAdmins := by
  have hmore : ∀ u, s.users.byID id = some u → Demotes op → u.role = .admin →
      1 < s.users.countAdmins := by
    intro u hu hdemotes hrole
    obtain ⟨hread, hcurrent⟩ := hsteady hdemotes
    have hsome := hcounted.of_admin ((hread u hu).symm.trans hrole)
    obtain ⟨c, hc⟩ := Option.ne_none_iff_exists'.mp hsome
    exact hcounted.enough c hc (hcurrent c hc)
  cases op with
  | updateRole role password keep =>
    obtain ⟨u, hu, -⟩ := Users.update_cases hwrite
    have hcount := Users.countAdmins_update hwrite hu
    by_cases hrole : role = .admin
    · rw [if_pos hrole] at hcount
      split at hcount <;> omega
    · rw [if_neg hrole] at hcount
      split at hcount
      · rename_i hwas
        have hlt := hmore u hu hrole hwas
        omega
      · omega
  | deleteUser =>
    obtain ⟨⟨u, hu⟩, -⟩ := Users.delete_cases hwrite
    have hcount := Users.countAdmins_delete hwrite hu
    split at hcount
    · rename_i hwas
      have hlt := hmore u hu trivial hwas
      omega
    · omega

theorem Keeps.of_advance (hadmin : 0 < s.users.countAdmins) (hsound : Sound s q)
    (hsteady : Steady s q b) (h : advance hash check b s q = some (s', q')) : Keeps s s' q' := by
  have hfailed : Keeps s s .failed := .same hadmin (sound_of_unchecked rfl)
  unfold advance at h
  split at h
  · cases h
    refine answered_spec hfailed (fun found _ => .same hadmin (sound_of_unchecked ?_)) _
    split <;> rfl
  · refine Written.outcome_spec hfailed (fun s₁ q₁ heffect => ?_) (Option.some.inj h)
    obtain ⟨s₂, hcreate, heq⟩ := Option.map_eq_some_iff.mp heffect
    cases heq
    obtain ⟨-, rfl⟩ := Shared.createSession_cases hcreate
    exact ⟨.frame hadmin rfl rfl (sound_of_unchecked rfl), .frame hadmin rfl rfl (sound_of_unchecked rfl)⟩
  · cases h
    refine answered_spec hfailed (fun u _ => .same hadmin (sound_of_unchecked ?_)) _
    split <;> rfl
  · cases h
    exact answered_spec hfailed
      (fun u _ => .same hadmin (sound_of_unchecked (checked_patched _ _ _ _ u))) _
  · cases h
    exact answered_spec hfailed (fun u _ => .same hadmin (sound_of_unchecked rfl)) _
  · cases h
    exact answered_spec hfailed (fun u _ => .same hadmin (.loaded _ _ u)) _
  · -- `CountAdmins`: the removals up to now are noted with the answer
    cases h
    refine answered_spec hfailed (fun n hn => .same hadmin ?_) _
    split
    · exact sound_of_unchecked rfl
    · rename_i hmany
      cases hn
      have hcounted : Counted s .admin (some s.removals) :=
        ⟨fun _ => Option.some_ne_none _, fun c hc => by cases hc; exact Nat.le_refl _,
          fun _ _ _ => Nat.not_le.mp hmany⟩
      exact .proceed hcounted _ _
  · refine Written.outcome_spec hfailed (fun s₁ q₁ heffect => ?_) (Option.some.inj h)
    cases heffect
    exact ⟨.frame hadmin rfl rfl (fun r hr => hsound r hr),
      .frame hadmin rfl rfl (sound_of_unchecked rfl)⟩
  · -- the guarded write
    refine Written.outcome_spec hfailed (fun s₁ q₁ heffect => ?_) (Option.some.inj h)
    obtain ⟨t, hwrite, heq⟩ := Option.map_eq_some_iff.mp heffect
    cases heq
    have hleft := countAdmins_write hadmin (hsound _ rfl) hsteady hwrite
    exact ⟨.withUsers hleft (checked_next _ _), .withUsers hleft rfl⟩
  · split at h
    · cases h
      exact hfailed
    · refine Written.outcome_spec hfailed (fun s₁ q₁ heffect => ?_) (Option.some.inj h)
      obtain ⟨⟨s₂, version⟩, hwrite, heq⟩ := Option.map_eq_some_iff.mp heffect
      cases heq
      obtain ⟨u, t, hu, hupdate, rfl, -⟩ := Shared.updatePassword_cases hwrite
      have hcount := Users.countAdmins_update hupdate hu
      have hleft : 0 < t.countAdmins := by
        split at hcount <;> omega
      refine ⟨.withUsers hleft ?_, .withUsers hleft rfl⟩
      split <;> rfl
  · refine Written.outcome_spec hfailed (fun s₁ q₁ heffect => ?_) (Option.some.inj h)
    cases heffect
    exact ⟨.frame hadmin rfl rfl (sound_of_unchecked rfl), .frame hadmin rfl rfl (sound_of_unchecked rfl)⟩
  · split at h
    · refine Written.outcome_spec (.same hadmin (sound_of_unchecked rfl)) (fun s₁ q₁ heffect => ?_)
        (Option.some.inj h)
      cases heffect
      exact ⟨.frame hadmin rfl rfl (sound_of_unchecked rfl),
        .frame hadmin rfl rfl (sound_of_unchecked rfl)⟩
    · refine Written.outcome_spec hfailed (fun s₁ q₁ heffect => ?_) (Option.some.inj h)
      cases heffect
      exact ⟨.frame hadmin rfl rfl (sound_of_unchecked rfl),
        .frame hadmin rfl rfl (sound_of_unchecked rfl)⟩
  · cases h
    refine answered_spec hfailed (fun u _ => .same hadmin (sound_of_unchecked ?_)) _
    split <;> rfl
  · cases h
    refine answered_spec hfailed (fun n _ => .same hadmin (sound_of_unchecked ?_)) _
    split <;> rfl
  · split at h
    · cases h
      exact hfailed
    · refine Written.outcome_spec hfailed (fun s₁ q₁ heffect => ?_) (Option.some.inj h)
      obtain ⟨t, hcreate, heq⟩ := Option.map_eq_some_iff.mp heffect
      cases heq
      have hleft : 0 < t.countAdmins := Nat.lt_of_lt_of_le hadmin (Users.countAdmins_create hcreate)
      refine ⟨.withUsers hleft ?_, .withUsers hleft rfl⟩
      split <;> rfl
  · refine Written.outcome_spec (.same hadmin (sound_of_unchecked rfl)) (fun s₁ q₁ heffect => ?_)
      (Option.some.inj h)
    cases heffect
    exact ⟨.frame hadmin rfl rfl (sound_of_unchecked rfl), .frame hadmin rfl rfl (sound_of_unchecked rfl)⟩
  · cases h

theorem admin_of_steady (hash : Nat → String → Option String) (check : String → String → Bool)
    (users : Users) (defaultPassword : Bool) (sessions : List Session)
    (hadmin : 0 < users.countAdmins) {ts : List (Turn Arrival Access)} {w : Hall Shared Phase}
    (h : (service hash check).system.Run (Service.Heeding Steady)
      (initial users defaultPassword sessions) ts w) : 0 < w.shared.users.countAdmins := by
  have harrive : ∀ a s, Sound s (arrive a) := by
    intro a s
    refine sound_of_unchecked ?_
    cases a with
    | createUser username password role =>
      rw [arrive]
      split
      · rfl
      · split <;> rfl
    | changePassword id current new keep => rw [arrive]; split <;> rfl
    | setup username password => rw [arrive]; split <;> rfl
    | logout token => rw [arrive]; split <;> rfl
    | _ => rfl
  have hserved := Service.serves (S := service hash check)
    (I := fun s => 0 < s.users.countAdmins) (F := Sound) (fun a s _ => harrive a s)
    (fun b s q s' q' hI hF hok hadv => by
      have hkeeps : Keeps s s' q' := .of_advance hI hF hok hadv
      exact ⟨hkeeps.admin, hkeeps.own, hkeeps.others⟩) h ⟨hadmin, List.forall_mem_nil _⟩
  exact hserved.1

def plainHash (_ : Nat) (password : String) : Option String := some password

def plainCheck (passwordHash password : String) : Bool := passwordHash = password

def twoAdmins : Users where
  rows := (AList.singleton 1 ⟨"admin", "admin", .admin, 0⟩).insert 2 ⟨"carol", "password", .admin, 0⟩
  nextID := 3
  fresh := by decide

def twoDeletions : List (Turn Arrival Access) :=
  [.arrive (.deleteUser 1), .arrive (.deleteUser 2), .advance 0 (.userByID none),
    .advance 1 (.userByID none), .advance 0 (.userByID none), .advance 1 (.userByID none)]

def deletes (i : Nat) : List (Turn Arrival Access) :=
  [.advance i (.deleteUserSessions .done), .advance i (.write .done)]

theorem admin_of_steady_deletions : ∃ w,
    (service plainHash plainCheck).system.Run (Service.Heeding Steady) (initial twoAdmins false [])
      (twoDeletions ++ (.advance 0 (.countAdmins none) :: deletes 0 ++ [.advance 1 (.countAdmins none)])) w ∧
    0 < w.shared.users.countAdmins ∧ w.shared.users.count = 1 := by
  obtain ⟨w, hfollow, hcount⟩ : ∃ w, (service plainHash plainCheck).system.follow
      (twoDeletions ++ (.advance 0 (.countAdmins none) :: deletes 0 ++ [.advance 1 (.countAdmins none)]))
      (initial twoAdmins false []) = some w ∧ w.shared.users.count = 1 := ⟨_, rfl, rfl⟩
  have hrun := System.run_of_trail (p := fun x => decide (Service.Heeding Steady x.1 x.2))
    (fun _ _ h => of_decide_eq_true h) hfollow (by decide +kernel)
  exact ⟨w, hrun, admin_of_steady _ _ twoAdmins false [] (by decide) hrun, hcount⟩

/-- Both count two admins before either is gone. -/
theorem deletions_lock_out : ∃ w,
    (service plainHash plainCheck).system.Run (fun _ _ => True) (initial twoAdmins false [])
      (twoDeletions ++ ([.advance 0 (.countAdmins none), .advance 1 (.countAdmins none)] ++
        (deletes 0 ++ deletes 1))) w ∧
    0 < twoAdmins.countAdmins ∧ w.shared.users.countAdmins = 0 :=
  ⟨_, System.run_of_follow (fun _ _ _ => trivial) rfl, by decide, rfl⟩

end LastAdmin

end ProxBack.Auth
