import ProxBack.Auth.LastAdmin

/-! The sessions of an old password die with it where no login that was checked against it
starts a session after they have been deleted. -/
namespace ProxBack.Auth
open Lib
open Engine (Fault)

namespace OldPassword

/-- Every session of the user but the one that is kept goes back to a login that was checked
against this hash or a later one. -/
def Granted (s : Shared) (id : Int) (version : Nat) (keep : String) : Prop :=
  ∀ x ∈ s.sessions, x.userID = id → x.token ≠ keep → version ≤ x.verified

/-- The condition on the steps: a session is started only for a login that no change which has
deleted the sessions is newer than, and a reset deletes them. -/
def Heeds (s : Shared) : Phase → Access → Prop
  | .starting id verified, .createSession _ _ => s.sweptOf id ≤ verified
  | .revoking _ _ _ true, .deleteOtherSessions res => res ≠ .failed
  | _, _ => True

instance (s : Shared) (q : Phase) (b : Access) : Decidable (Heeds s q b) := by
  unfold Heeds
  split <;> infer_instance

def revoked : Phase → Option (Int × Nat × String)
  | .answering id (some (version, keep)) => some (id, version, keep)
  | .changed id version keep => some (id, version, keep)
  | _ => none

structure Swept (s : Shared) (c : Int × Nat × String) : Prop where
  noted : c.2.1 ≤ s.sweptOf c.1
  granted : Granted s c.1 c.2.1 c.2.2

def Sound (s : Shared) (q : Phase) : Prop := ∀ c ∈ revoked q, Swept s c

variable {hash : Nat → String → Option String} {check : String → String → Bool}
  {s s' : Shared} {q q' : Phase} {b : Access}

theorem sound_of_none (h : revoked q = none) : Sound s q := by
  intro c hc
  rw [h] at hc
  cases hc

structure Keeps (s s' : Shared) (q' : Phase) : Prop where
  own : Sound s' q'
  others : ∀ p, Sound s p → Sound s' p

theorem Sound.mono (h : Sound s q) (hsub : ∀ x ∈ s'.sessions, x ∈ s.sessions)
    (hswept : ∀ id, s.sweptOf id ≤ s'.sweptOf id) : Sound s' q := fun c hc =>
  ⟨Nat.le_trans (h c hc).noted (hswept _), fun x hx => (h c hc).granted x (hsub x hx)⟩

theorem Keeps.mono (hsub : ∀ x ∈ s'.sessions, x ∈ s.sessions)
    (hswept : ∀ id, s.sweptOf id ≤ s'.sweptOf id) (hq' : revoked q' = none) : Keeps s s' q' :=
  ⟨sound_of_none hq', fun _ hp => hp.mono hsub hswept⟩

theorem Keeps.same (hsessions : s'.sessions = s.sessions) (hswept : s'.swept = s.swept)
    (hq' : revoked q' = none) : Keeps s s' q' :=
  .mono (fun x hx => hsessions ▸ hx) (fun id => by rw [Shared.sweptOf, Shared.sweptOf, hswept]) hq'

theorem Keeps.createSession {x : Session} (hnew : s.sweptOf x.userID ≤ x.verified)
    (hq' : revoked q' = none) : Keeps s { s with sessions := s.sessions ++ [x] } q' := by
  refine ⟨sound_of_none hq', fun p hp c hc => ⟨(hp c hc).noted, fun y hy hid htoken => ?_⟩⟩
  rcases List.mem_append.mp hy with hy | hy
  · exact (hp c hc).granted y hy hid htoken
  · cases List.mem_singleton.mp hy
    exact Nat.le_trans (hp c hc).noted (hid ▸ hnew)

@[grind =] theorem sweptOf_deleteOtherSessions (s : Shared) (id : Int) (version : Nat) (keep : String)
    (k : Int) : (s.deleteOtherSessions id version keep).sweptOf k =
      if k = id then max (s.sweptOf id) version else s.sweptOf k := by
  show ((s.swept.insert id (max (s.sweptOf id) version)).lookup k).getD 0 = _
  rw [FinMap.lookup_insert_ite]
  split <;> rfl

@[simp] theorem mem_deleteOtherSessions {id : Int} {version : Nat} {keep : String} {x : Session} :
    x ∈ (s.deleteOtherSessions id version keep).sessions ↔
      x ∈ s.sessions ∧ ¬ (x.userID = id ∧ x.token ≠ keep) := by
  rw [Shared.deleteOtherSessions, List.mem_filter, decide_eq_true_eq]

theorem swept_deleteOtherSessions (s : Shared) (id : Int) (version : Nat) (keep : String) :
    Swept (s.deleteOtherSessions id version keep) (id, version, keep) := by
  refine ⟨?_, fun x hx hid htoken => ?_⟩
  · rw [sweptOf_deleteOtherSessions, if_pos rfl]
    exact Nat.le_max_right _ _
  · exact absurd ⟨hid, htoken⟩ (mem_deleteOtherSessions.mp hx).2

theorem Keeps.deleteOtherSessions (id : Int) (version : Nat) (keep : String)
    (hq' : ∀ c ∈ revoked q', c = (id, version, keep)) :
    Keeps s (s.deleteOtherSessions id version keep) q' := by
  refine ⟨fun c hc => ?_, fun p hp => hp.mono (fun x hx => (mem_deleteOtherSessions.mp hx).1) ?_⟩
  · rw [hq' c hc]
    exact swept_deleteOtherSessions s id version keep
  · intro k
    rw [sweptOf_deleteOtherSessions]
    split
    · rename_i heq
      rw [heq]
      exact Nat.le_max_left _ _
    · exact Nat.le_refl _

@[simp] theorem revoked_afterRole (id : Int) (password : Option String) (keep : String) :
    revoked (afterRole id password keep) = none := by
  cases password <;> rfl

@[simp]
theorem revoked_patched (id : Int) (role password : Option String) (keep : String) (u : User) :
    revoked (patched id role password keep u) = none := by
  unfold patched
  split
  · rfl
  · split
    · split
      · rfl
      · exact revoked_afterRole _ _ _
    · split
      · rfl
      · split
        · rfl
        · split
          · exact revoked_afterRole _ _ _
          · rfl

@[simp] theorem revoked_proceed (op : Guarded) (id : Int) (read : Role) (counted : Option Nat) :
    revoked (op.proceed id read counted) = none := by
  cases op <;> rfl

@[simp]
theorem revoked_loaded (op : Guarded) (id : Int) (u : User) : revoked (op.loaded id u) = none := by
  cases op with
  | updateRole role password keep =>
    rw [Guarded.loaded]
    split
    · exact revoked_afterRole _ _ _
    · split <;> rfl
  | deleteUser =>
    rw [Guarded.loaded]
    split <;> rfl

@[simp] theorem revoked_next (op : Guarded) (id : Int) : revoked (op.next id) = none := by
  cases op with
  | updateRole role password keep => exact revoked_afterRole _ _ _
  | deleteUser => rfl

theorem Keeps.of_advance (hsound : Sound s q) (hheeds : Heeds s q b)
    (h : advance hash check b s q = some (s', q')) : Keeps s s' q' := by
  have hfailed : Keeps s s .failed := .same rfl rfl rfl
  unfold advance at h
  split at h
  · cases h
    refine answered_spec hfailed (fun found _ => .same rfl rfl ?_) _
    split <;> rfl
  · refine Written.outcome_spec hfailed (fun s₁ q₁ heffect => ?_) (Option.some.inj h)
    obtain ⟨s₂, hcreate, heq⟩ := Option.map_eq_some_iff.mp heffect
    cases heq
    obtain ⟨-, rfl⟩ := Shared.createSession_cases hcreate
    exact ⟨.createSession hheeds rfl, .createSession hheeds rfl⟩
  · cases h
    refine answered_spec hfailed (fun u _ => .same rfl rfl ?_) _
    split <;> rfl
  · cases h
    exact answered_spec hfailed (fun u _ => .same rfl rfl (revoked_patched _ _ _ _ u)) _
  · cases h
    exact answered_spec hfailed (fun u _ => .same rfl rfl rfl) _
  · cases h
    exact answered_spec hfailed (fun u _ => .same rfl rfl (revoked_loaded _ _ u)) _
  · cases h
    refine answered_spec hfailed (fun n _ => .same rfl rfl ?_) _
    split
    · rfl
    · exact revoked_proceed _ _ _ _
  · refine Written.outcome_spec hfailed (fun s₁ q₁ heffect => ?_) (Option.some.inj h)
    cases heffect
    have hsub : ∀ id, ∀ x ∈ (s.deleteUserSessions id).sessions, x ∈ s.sessions := fun _ _ hx =>
      List.mem_of_mem_filter hx
    exact ⟨.mono (hsub _) (fun _ => Nat.le_refl _) rfl, .mono (hsub _) (fun _ => Nat.le_refl _) rfl⟩
  · refine Written.outcome_spec hfailed (fun s₁ q₁ heffect => ?_) (Option.some.inj h)
    obtain ⟨t, -, heq⟩ := Option.map_eq_some_iff.mp heffect
    cases heq
    exact ⟨.same rfl rfl (revoked_next _ _), .same rfl rfl rfl⟩
  · split at h
    · cases h
      exact hfailed
    · refine Written.outcome_spec hfailed (fun s₁ q₁ heffect => ?_) (Option.some.inj h)
      obtain ⟨⟨s₂, version⟩, hwrite, heq⟩ := Option.map_eq_some_iff.mp heffect
      cases heq
      obtain ⟨u, t, -, -, rfl, -⟩ := Shared.updatePassword_cases hwrite
      refine ⟨.same rfl rfl ?_, .same rfl rfl rfl⟩
      split <;> rfl
  · refine Written.outcome_spec hfailed (fun s₁ q₁ heffect => ?_) (Option.some.inj h)
    cases heffect
    exact ⟨.same rfl rfl rfl, .same rfl rfl rfl⟩
  · -- the sessions are deleted, or a change says that they are not
    rename_i res id version keep reset
    split at h
    · rename_i hreset
      have hres : res ≠ .failed := by
        subst hreset
        exact hheeds
      have hnext : Keeps s (s.deleteOtherSessions id version keep)
          (.answering id (some (version, keep))) :=
        .deleteOtherSessions id version keep fun c hc => by cases hc; rfl
      cases res with
      | failed => exact absurd rfl hres
      | done => cases h; exact hnext
      | lost => cases h; exact hnext
    · refine Written.outcome_spec hfailed (fun s₁ q₁ heffect => ?_) (Option.some.inj h)
      cases heffect
      exact ⟨.deleteOtherSessions id version keep fun c hc => by cases hc; rfl,
        .deleteOtherSessions id version keep nofun⟩
  · -- the request answers for what it has revoked
    cases h
    refine answered_spec hfailed (fun u _ => ?_) _
    split
    · exact ⟨fun c hc => hsound c hc, fun _ hp => hp⟩
    · exact .same rfl rfl rfl
  · cases h
    refine answered_spec hfailed (fun n _ => .same rfl rfl ?_) _
    split <;> rfl
  · split at h
    · cases h
      exact hfailed
    · refine Written.outcome_spec hfailed (fun s₁ q₁ heffect => ?_) (Option.some.inj h)
      obtain ⟨t, -, heq⟩ := Option.map_eq_some_iff.mp heffect
      cases heq
      refine ⟨.same rfl rfl ?_, .same rfl rfl rfl⟩
      split <;> rfl
  · refine Written.outcome_spec (.same rfl rfl rfl) (fun s₁ q₁ heffect => ?_) (Option.some.inj h)
    cases heffect
    have hsub : ∀ token, ∀ x ∈ (s.deleteSession token).sessions, x ∈ s.sessions := fun _ _ hx =>
      List.mem_of_mem_filter hx
    exact ⟨.mono (hsub _) (fun _ => Nat.le_refl _) rfl, .mono (hsub _) (fun _ => Nat.le_refl _) rfl⟩
  · cases h

theorem granted_of_heeding (hash : Nat → String → Option String) (check : String → String → Bool)
    (users : Users) (defaultPassword : Bool) (sessions : List Session)
    {ts : List (Turn Arrival Access)} {w : Hall Shared Phase}
    (h : (service hash check).system.Run (Service.Heeding Heeds)
      (initial users defaultPassword sessions) ts w) :
    ∀ id version keep, .changed id version keep ∈ w.requests → Granted w.shared id version keep := by
  have harrive : ∀ a s, Sound s (arrive a) := by
    intro a s
    refine sound_of_none ?_
    cases a with
    | createUser username password role =>
      rw [arrive]
      split
      · rfl
      · split <;> rfl
    | changePassword id current new keep => rw [arrive]; split <;> rfl
    | setup username password => rw [arrive]; split <;> rfl
    | logout token => rw [arrive]; split <;> rfl
    | _ => rfl
  have hserved := Service.serves (S := service hash check) (I := fun _ => True) (F := Sound)
    (fun a s _ => harrive a s)
    (fun b s q s' q' _ hF hok hadv => by
      have hkeeps : Keeps s s' q' := .of_advance hF hok hadv
      exact ⟨trivial, hkeeps.own, hkeeps.others⟩) h ⟨trivial, fun _ hmem => by cases hmem⟩
  exact fun id version keep hmem => (hserved.2 _ hmem (id, version, keep) rfl).granted

def oldLogin : List (Turn Arrival Access) :=
  [.arrive (.login "carol" "password"),
    .arrive (.changePassword 2 "password" "new password" "token2"),
    .advance 0 (.userByUsername none), .advance 1 (.userByID none)]

def changes : List (Turn Arrival Access) :=
  [.advance 1 (.updatePassword 0 .done), .advance 1 (.clearFlag .done),
    .advance 1 (.deleteOtherSessions .done)]

theorem granted_of_heeding_change : ∃ w,
    (service LastAdmin.plainHash LastAdmin.plainCheck).system.Run (Service.Heeding Heeds)
      (initial LastAdmin.twoAdmins false [⟨"token2", 2, 0⟩])
      (oldLogin ++ (.advance 0 (.createSession "token1" .done) :: changes)) w ∧
    .changed 2 1 "token2" ∈ w.requests ∧ Granted w.shared 2 1 "token2" := by
  obtain ⟨w, hfollow, hmem⟩ : ∃ w,
      (service LastAdmin.plainHash LastAdmin.plainCheck).system.follow
        (oldLogin ++ (.advance 0 (.createSession "token1" .done) :: changes))
        (initial LastAdmin.twoAdmins false [⟨"token2", 2, 0⟩]) = some w ∧
      .changed 2 1 "token2" ∈ w.requests := ⟨_, rfl, by decide +kernel⟩
  have hrun := System.run_of_trail (p := fun x => decide (Service.Heeding Heeds x.1 x.2))
    (fun _ _ h => of_decide_eq_true h) hfollow (by decide +kernel)
  exact ⟨w, hrun, hmem, granted_of_heeding _ _ _ _ _ hrun 2 1 "token2" hmem⟩

/-- The login has checked the old password, and starts its session after the change is over. -/
theorem old_password_grants : ∃ w,
    (service LastAdmin.plainHash LastAdmin.plainCheck).system.Run (fun _ _ => True)
      (initial LastAdmin.twoAdmins false [⟨"token2", 2, 0⟩])
      (oldLogin ++ (changes ++ [.advance 0 (.createSession "token1" .done)])) w ∧
    .changed 2 1 "token2" ∈ w.requests ∧ w.shared.sessions = [⟨"token2", 2, 0⟩, ⟨"token1", 2, 0⟩] ∧
    ¬ Granted w.shared 2 1 "token2" := by
  refine ⟨_, System.run_of_follow (fun _ _ _ => trivial) rfl, by decide +kernel, rfl, fun h => ?_⟩
  exact absurd (h ⟨"token1", 2, 0⟩ (by decide +kernel) rfl (by decide)) (by decide)

end OldPassword

end ProxBack.Auth
