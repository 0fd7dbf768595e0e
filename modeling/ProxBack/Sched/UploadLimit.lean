import ProxBack.Engine.Basic
import ProxBack.Lib.FinMap
import ProxBack.Lib.Requests

/-! The upload ceiling of the process: every engine that is built sets it, and a job run with a
ceiling of its own puts the global one back as it ends. -/
namespace ProxBack.Sched.UploadLimit
open Lib
open Engine (Fault)

def minUploadLimitMbps : Int := 0

def maxUploadLimitMbps : Int := 10000

def defaultUploadLimitMbps : Int := 0

def uploadLimitSetting (stored : Int) : Int :=
  if minUploadLimitMbps ≤ stored ∧ stored ≤ maxUploadLimitMbps then stored
  else defaultUploadLimitMbps

/-- A use of an engine: a job run under its policy, or with no override and no retries anything
else that reads or deletes backups. `started` numbers the runs whose override is in force. -/
structure Run where
  override : Int
  retries : Nat
  started : Option Nat
deriving DecidableEq, Repr

/-- `limit` is what the token bucket enforces. No operation reads the rest of the fields: the
global setting that was applied last, and the overrides of the runs that are executing, the
one that started last first. -/
structure Shared where
  stored : Int
  limit : Int
  applied : Option Int
  nextRun : Nat
  executing : FinMap Nat Int

/-- What comes next; `setting` and `restoring` have read the global setting. -/
inductive Phase where
  | loading (r : Run)
  | reading (r : Run)
  | opening (r : Run) (settings : Int)
  | setting (r : Run) (settings : Int)
  | attempting (r : Run)
  | waiting (r : Run)
  | deferred (r : Run)
  | restoring (r : Run) (settings : Int)
  | patching (mbps : Option Int)
  | saving (mbps : Int)
  | returned
deriving DecidableEq, Repr

inductive Arrival where
  | executeBackup (override : Int) (retryCount : Nat)
  | engineFor
  | patchSettings (mbps : Option Int)

inductive Ended where
  | ok
  | failed
  | canceled
deriving DecidableEq, Repr

inductive Access where
  | s3TargetByID (res : Ended)
  | settings (res : Ended)
  | storeForTarget (res : Ended)
  | setUploadLimit
  | attempt (res : Ended)
  | retryWait (cut : Bool)
  | globalSettings (fault : Option Fault)
  | applyGlobal
  | currentSettings (fault : Option Fault)
  | saveSettings (saved : Bool)

def arrive : Arrival → Phase
  | .executeBackup override retryCount => .loading ⟨override, retryCount, none⟩
  | .engineFor => .loading ⟨0, 0, none⟩
  | .patchSettings mbps => .patching mbps

namespace Run

def ends (r : Run) : Phase := if r.override > 0 then .deferred r else .returned

def after (r : Run) (res : Ended) (next : Phase) : Phase :=
  match res with
  | .ok => next
  | .canceled => r.ends
  | .failed => if r.retries = 0 then r.ends else .waiting { r with retries := r.retries - 1 }

end Run

namespace Shared

def setUploadLimitMbps (s : Shared) (mbps : Int) : Shared :=
  { s with limit := if mbps < 0 then 0 else mbps }

/-- The end of `engineForJob`. The first engine of a run with an override starts it. -/
def build (s : Shared) (r : Run) (settings : Int) : Shared × Phase :=
  if r.override > 0 then
    let s := s.setUploadLimitMbps r.override
    match r.started with
    | some _ => (s, .attempting r)
    | none => ({ s with executing := s.executing.insert s.nextRun r.override, nextRun := s.nextRun + 1 },
        .attempting { r with started := some s.nextRun })
  else ({ s.setUploadLimitMbps settings with applied := some settings }, .attempting r)

def finish (s : Shared) (r : Run) : Shared :=
  match r.started with
  | some n => { s with executing := s.executing.erase n }
  | none => s

def restore (s : Shared) (r : Run) (settings : Int) : Shared :=
  { s.setUploadLimitMbps settings with applied := some settings }.finish r

end Shared

def advance : Access → Shared → Phase → Option (Shared × Phase)
  | .s3TargetByID res, s, .loading r => some (s, r.after res (.reading r))
  | .settings res, s, .reading r => some (s, r.after res (.opening r (uploadLimitSetting s.stored)))
  | .storeForTarget res, s, .opening r settings => some (s, r.after res (.setting r settings))
  | .setUploadLimit, s, .setting r settings => some (s.build r settings)
  | .attempt res, s, .attempting r => some (s, r.after res r.ends)
  | .retryWait cut, s, .waiting r => some (s, if cut then r.ends else .loading r)
  | .globalSettings fault, s, .deferred r =>
    match fault with
    | none => some (s, .restoring r (uploadLimitSetting s.stored))
    | some _ => some (s.finish r, .returned)
  | .applyGlobal, s, .restoring r settings => some (s.restore r settings, .returned)
  | .currentSettings fault, s, .patching mbps =>
    match fault with
    | some _ => some (s, .returned)
    | none =>
      match mbps with
      | none => some (s, .saving (uploadLimitSetting s.stored))
      | some n =>
        if n < minUploadLimitMbps ∨ n > maxUploadLimitMbps then some (s, .returned)
        else some (s, .saving n)
  | .saveSettings saved, s, .saving mbps =>
    some (if saved then { s with stored := uploadLimitSetting mbps } else s, .returned)
  | _, _, _ => none

def service : Service Shared Phase Arrival Access := ⟨arrive, advance⟩

def initial (stored : Int) : Hall Shared Phase := ⟨⟨stored, 0, none, 0, ∅⟩, []⟩

/-- The ceiling that is promised: that of the run that started last, or else the global one. -/
structure Ceiling (s : Shared) : Prop where
  overridden : ∀ e ∈ s.executing.entries.head?, s.limit = e.2
  global : s.executing.keys = [] → ∀ mbps ∈ s.applied, s.limit = mbps

/-- The condition on the steps: an engine takes the ceiling from no run with an override but
its own, and a run that ends leaves none behind that its end would disturb. -/
def Heeds (s : Shared) : Phase → Access → Prop
  | .setting r _, .setUploadLimit =>
    if r.override > 0 then r.started = none ∨ s.executing.keys.head? = r.started
    else s.executing.keys = []
  | .deferred r, .globalSettings (some _) => r.started = none ∨ s.executing.keys.head? ≠ r.started
  | .restoring r _, .applyGlobal => (s.finish r).executing.keys = []
  | _, _ => True

instance (s : Shared) (q : Phase) (b : Access) : Decidable (Heeds s q b) := by
  unfold Heeds
  split <;> infer_instance

def Phase.run : Phase → Option Run
  | .loading r | .reading r | .opening r _ | .setting r _ | .attempting r | .waiting r |
    .deferred r | .restoring r _ => some r
  | _ => none

def Phase.read : Phase → Option Int
  | .opening _ settings | .setting _ settings | .restoring _ settings => some settings
  | _ => none

def Owns (s : Shared) (r : Run) : Prop :=
  ∀ n ∈ r.started, n < s.nextRun ∧ ∀ mbps ∈ s.executing.lookup n, mbps = r.override

structure Sound (s : Shared) (q : Phase) : Prop where
  owns : ∀ r ∈ q.run, Owns s r
  nonneg : ∀ settings ∈ q.read, 0 ≤ settings

variable {s s' : Shared} {r r' : Run} {q q' : Phase} {b : Access}

theorem uploadLimitSetting_nonneg (stored : Int) : 0 ≤ uploadLimitSetting stored := by
  unfold uploadLimitSetting
  split
  · rename_i h
    exact h.1
  · exact Int.le_refl 0

@[grind =] theorem limit_of_nonneg (s : Shared) {mbps : Int} (h : 0 ≤ mbps) :
    (s.setUploadLimitMbps mbps).limit = mbps := if_neg (Int.not_lt.mpr h)

theorem Owns.mono (h : Owns s r) (hnext : s.nextRun ≤ s'.nextRun)
    (hkeeps : ∀ n < s.nextRun, ∀ mbps ∈ s'.executing.lookup n, mbps ∈ s.executing.lookup n) :
    Owns s' r := by
  intro n hn
  obtain ⟨hlt, hmbps⟩ := h n hn
  exact ⟨Nat.lt_of_lt_of_le hlt hnext, fun mbps hm => hmbps mbps (hkeeps n hlt mbps hm)⟩

theorem Sound.mono (h : Sound s q) (hnext : s.nextRun ≤ s'.nextRun)
    (hkeeps : ∀ n < s.nextRun, ∀ mbps ∈ s'.executing.lookup n, mbps ∈ s.executing.lookup n) :
    Sound s' q := ⟨fun r hr => (h.owns r hr).mono hnext hkeeps, h.nonneg⟩

theorem Sound.ends (h : Owns s r) : Sound s r.ends := by
  unfold Run.ends
  split
  · exact ⟨fun r' hr => by cases hr; exact h, nofun⟩
  · exact ⟨nofun, nofun⟩

theorem Sound.after (h : Owns s r) (res : Ended) (hq : Sound s q) : Sound s (r.after res q) := by
  unfold Run.after
  split
  · exact hq
  · exact .ends h
  · split
    · exact .ends h
    · exact ⟨fun r' hr => by cases hr; exact h, nofun⟩

theorem advance_cases (h : advance b s q = some (s', q')) (hq : Sound s q) :
    ((∃ stored, s' = { s with stored }) ∧ Sound s q') ∨
      (∃ r settings, q = .setting r settings ∧ b = .setUploadLimit ∧ (s', q') = s.build r settings) ∨
      (∃ r fault, q = .deferred r ∧ b = .globalSettings (some fault) ∧ s' = s.finish r ∧
        q' = .returned) ∨
      ∃ r settings, q = .restoring r settings ∧ b = .applyGlobal ∧ s' = s.restore r settings ∧
        q' = .returned := by
  have hrun : ∀ r ∈ q.run, Owns s r := hq.owns
  have hstored := uploadLimitSetting_nonneg s.stored
  unfold advance at h
  split at h
  · cases h
    exact .inl ⟨⟨_, rfl⟩, .after (hrun _ rfl) _ ⟨hrun, nofun⟩⟩
  · cases h
    exact .inl ⟨⟨_, rfl⟩, .after (hrun _ rfl) _ ⟨hrun, fun _ hs => by cases hs; exact hstored⟩⟩
  · cases h
    exact .inl ⟨⟨_, rfl⟩, .after (hrun _ rfl) _ ⟨hrun, hq.nonneg⟩⟩
  · exact .inr (.inl ⟨_, _, rfl, rfl, (Option.some.inj h).symm⟩)
  · cases h
    exact .inl ⟨⟨_, rfl⟩, .after (hrun _ rfl) _ (.ends (hrun _ rfl))⟩
  · cases h
    refine .inl ⟨⟨_, rfl⟩, ?_⟩
    split
    · exact .ends (hrun _ rfl)
    · exact ⟨hrun, nofun⟩
  · split at h
    · cases h
      exact .inl ⟨⟨_, rfl⟩, hrun, fun _ hs => by cases hs; exact hstored⟩
    · cases h
      exact .inr (.inr (.inl ⟨_, _, rfl, rfl, rfl, rfl⟩))
  · cases h
    exact .inr (.inr (.inr ⟨_, _, rfl, rfl, rfl, rfl⟩))
  · have hsound : ∀ mbps, Sound s (.saving mbps) ∧ Sound s .returned := fun _ =>
      ⟨⟨nofun, nofun⟩, nofun, nofun⟩
    refine .inl ?_
    split at h
    · cases h
      exact ⟨⟨_, rfl⟩, (hsound 0).2⟩
    · split at h
      · cases h
        exact ⟨⟨_, rfl⟩, (hsound _).1⟩
      · split at h <;> cases h
        · exact ⟨⟨_, rfl⟩, (hsound 0).2⟩
        · exact ⟨⟨_, rfl⟩, (hsound _).1⟩
  · cases h
    refine .inl ⟨?_, nofun, nofun⟩
    split
    · exact ⟨_, rfl⟩
    · exact ⟨_, rfl⟩
  · cases h

theorem lookup_finish (s : Shared) (r : Run) (n : Nat) :
    ∀ mbps ∈ (s.finish r).executing.lookup n, mbps ∈ s.executing.lookup n := by
  intro mbps hm
  unfold Shared.finish at hm
  split at hm
  · rename_i m _
    rw [FinMap.lookup_erase_ite] at hm
    split at hm
    · cases hm
    · exact hm
  · exact hm

@[simp] theorem nextRun_finish (s : Shared) (r : Run) : (s.finish r).nextRun = s.nextRun := by
  unfold Shared.finish
  split <;> rfl

@[simp] theorem limit_finish (s : Shared) (r : Run) : (s.finish r).limit = s.limit := by
  unfold Shared.finish
  split <;> rfl

@[simp] theorem applied_finish (s : Shared) (r : Run) : (s.finish r).applied = s.applied := by
  unfold Shared.finish
  split <;> rfl

theorem Ceiling.finish (h : Ceiling s)
    (hlast : r.started = none ∨ s.executing.keys.head? ≠ r.started) : Ceiling (s.finish r) := by
  unfold Shared.finish
  split
  · rename_i n hn
    have hhead : s.executing.keys.head? ≠ some n := by
      rw [hn] at hlast
      exact hlast.resolve_left nofun
    obtain ⟨hoverridden, hglobal⟩ := h
    obtain ⟨stored, limit, applied, nextRun, ⟨entries, nodup⟩⟩ := s
    cases entries with
    | nil => exact ⟨nofun, fun _ => hglobal rfl⟩
    | cons e es =>
      -- the head is not the one that is erased
      have hne : n ≠ e.1 := fun heq => hhead (congrArg some heq.symm)
      have herase : (List.kerase n (e :: es)) = e :: List.kerase n es :=
        List.kerase_cons_ne hne
      refine ⟨fun e' he' => ?_, fun hkeys => ?_⟩
      · have hentries : (List.kerase n (e :: es)).head? = some e' := he'
        rw [herase] at hentries
        exact hoverridden e' hentries
      · have hnil : (List.kerase n (e :: es)).keys = [] := hkeys
        rw [herase] at hnil
        cases hnil
  · exact h

theorem Ceiling.restore {settings : Int} (hsettings : 0 ≤ settings)
    (hlast : (s.finish r).executing.keys = []) : Ceiling (s.restore r settings) := by
  have hlimit : (s.restore r settings).limit = settings := by
    rw [Shared.restore, limit_finish]
    exact limit_of_nonneg s hsettings
  have happlied : (s.restore r settings).applied = some settings := by
    rw [Shared.restore, applied_finish]
  have hkeys : (s.restore r settings).executing.keys = [] := by
    have hexecuting : (s.restore r settings).executing = (s.finish r).executing := by
      unfold Shared.restore Shared.finish
      split <;> rfl
    rw [hexecuting]
    exact hlast
  refine ⟨fun e he => ?_, fun _ mbps hm => ?_⟩
  · have hnil : (s.restore r settings).executing.entries = [] := List.map_eq_nil_iff.mp hkeys
    rw [hnil] at he
    cases he
  · rw [happlied] at hm
    cases hm
    exact hlimit

theorem Ceiling.start (s : Shared) (hoverride : 0 < r.override) :
    Ceiling { s.setUploadLimitMbps r.override with
      executing := s.executing.insert s.nextRun r.override, nextRun := s.nextRun + 1 } where
  overridden e he := by
    cases he
    exact limit_of_nonneg s (Int.le_of_lt hoverride)
  global hkeys := by cases hkeys

theorem Ceiling.again (howns : Owns s r) (hoverride : 0 < r.override) {n : Nat}
    (hstarted : r.started = some n) (hlast : s.executing.keys.head? = some n) :
    Ceiling (s.setUploadLimitMbps r.override) := by
  have hlimit := limit_of_nonneg s (Int.le_of_lt hoverride)
  refine ⟨fun e he => ?_, fun hkeys => ?_⟩
  · have hhead : s.executing.entries.head? = some e := he
    have hn : n = e.1 := by
      have hkey : s.executing.keys.head? = some e.1 := by
        rw [AList.keys, List.keys, List.head?_map, hhead]
        rfl
      exact Option.some.inj (hlast.symm.trans hkey)
    have hlookup : s.executing.lookup n = some e.2 := by
      subst hn
      exact AList.mem_lookup_iff.mpr (List.mem_of_mem_head? hhead)
    rw [hlimit, (howns n hstarted).2 e.2 hlookup]
  · have hnil : s.executing.keys = [] := hkeys
    rw [hnil] at hlast
    cases hlast

theorem Ceiling.build {settings : Int} (hsound : Sound s (.setting r settings))
    (hheeds : Heeds s (.setting r settings) .setUploadLimit)
    (hbuild : (s', q') = s.build r settings) :
    Ceiling s' ∧ Sound s' q' ∧ ∀ p, Sound s p → Sound s' p := by
  have howns := hsound.owns r rfl
  have hok : if r.override > 0 then r.started = none ∨ s.executing.keys.head? = r.started
      else s.executing.keys = [] := hheeds
  unfold Shared.build at hbuild
  split at hbuild
  · rename_i hoverride
    rw [if_pos hoverride] at hok
    cases hstarted : r.started with
    | some n =>
      rw [hstarted] at hbuild hok
      cases hbuild
      exact ⟨Ceiling.again howns hoverride hstarted (hok.resolve_left nofun),
        ⟨fun r' hr => by cases hr; exact howns, nofun⟩, fun p hp => ⟨hp.owns, hp.nonneg⟩⟩
    | none =>
      rw [hstarted] at hbuild
      cases hbuild
      refine ⟨.start s hoverride, ⟨fun r' hr => ?_, nofun⟩, fun p hp =>
        hp.mono (Nat.le_succ _) fun n hn mbps hm => ?_⟩
      · cases hr
        intro n hn
        cases hn
        refine ⟨Nat.lt_succ_self _, fun mbps hm => ?_⟩
        have hlookup : (s.executing.insert s.nextRun r.override).lookup s.nextRun = some mbps := hm
        rw [AList.lookup_insert] at hlookup
        exact (Option.some.inj hlookup).symm
      · have hlookup : (s.executing.insert s.nextRun r.override).lookup n = some mbps := hm
        rw [AList.lookup_insert_ne (Nat.ne_of_lt hn)] at hlookup
        exact hlookup
  · rename_i hoverride
    rw [if_neg hoverride] at hok
    cases hbuild
    have hlimit := limit_of_nonneg s (hsound.nonneg settings rfl)
    refine ⟨⟨fun e he => ?_, fun _ mbps hm => ?_⟩,
      ⟨fun r' hr => by cases hr; exact howns, nofun⟩, fun p hp => ⟨hp.owns, hp.nonneg⟩⟩
    · have hnil : s.executing.entries = [] := List.map_eq_nil_iff.mp hok
      have hentry : s.executing.entries.head? = some e := he
      rw [hnil] at hentry
      cases hentry
    · cases hm
      exact hlimit

theorem Sound.arrive (s : Shared) (a : Arrival) : Sound s (arrive a) := by
  cases a with
  | patchSettings mbps => exact ⟨nofun, nofun⟩
  | _ => exact ⟨fun r hr => by cases hr; exact nofun, nofun⟩

theorem Ceiling.advance (h : Ceiling s) (hsound : Sound s q) (hheeds : Heeds s q b)
    (hadv : advance b s q = some (s', q')) :
    Ceiling s' ∧ Sound s' q' ∧ ∀ p, Sound s p → Sound s' p := by
  rcases advance_cases hadv hsound with ⟨⟨stored, rfl⟩, hq'⟩ | ⟨r, settings, rfl, rfl, hbuild⟩ |
    ⟨r, fault, rfl, rfl, rfl, rfl⟩ | ⟨r, settings, rfl, rfl, rfl, rfl⟩
  · exact ⟨⟨h.overridden, h.global⟩, ⟨hq'.owns, hq'.nonneg⟩, fun p hp => ⟨hp.owns, hp.nonneg⟩⟩
  · exact Ceiling.build hsound hheeds hbuild
  · exact ⟨h.finish hheeds, ⟨nofun, nofun⟩, fun p hp =>
      hp.mono (nextRun_finish s r).ge fun n _ => lookup_finish s r n⟩
  · refine ⟨.restore (hsound.nonneg settings rfl) hheeds, ⟨nofun, nofun⟩, fun p hp =>
      hp.mono ?_ fun n _ => ?_⟩
    · exact (nextRun_finish { s.setUploadLimitMbps settings with applied := some settings } r).ge
    · exact lookup_finish { s.setUploadLimitMbps settings with applied := some settings } r n

theorem ceiling_of_heeding {stored : Int} {ts : List (Turn Arrival Access)}
    {w : Hall Shared Phase} (h : service.system.Run (Service.Heeding Heeds) (initial stored) ts w) :
    Ceiling w.shared := by
  have hserved := Service.serves (S := service) (I := Ceiling) (F := Sound)
    (fun a s _ => .arrive s a) (fun b s q s' q' hI hF hok hadv => hI.advance hF hok hadv) h
    ⟨⟨nofun, fun _ => nofun⟩, nofun⟩
  exact hserved.1

def builds (i : Nat) : List (Turn Arrival Access) :=
  [.advance i (.s3TargetByID .ok), .advance i (.settings .ok), .advance i (.storeForTarget .ok),
    .advance i .setUploadLimit]

def ends (i : Nat) : List (Turn Arrival Access) :=
  [.advance i (.attempt .ok), .advance i (.globalSettings none), .advance i .applyGlobal]

/-- A run capped at 10 Mbps that is tried twice, and a browse after it. -/
theorem ceiling_of_heeding_retried : ∃ w, service.system.Run (Service.Heeding Heeds) (initial 50)
    (.arrive (.executeBackup 10 1) :: .arrive .engineFor :: builds 0 ++
      (.advance 0 (.attempt .failed) :: .advance 0 (.retryWait false) :: builds 0 ++
        (ends 0 ++ builds 1))) w ∧ Ceiling w.shared ∧ w.shared.limit = 50 := by
  obtain ⟨w, hfollow, hlimit⟩ : ∃ w, service.system.follow
      (.arrive (.executeBackup 10 1) :: .arrive .engineFor :: builds 0 ++
        (.advance 0 (.attempt .failed) :: .advance 0 (.retryWait false) :: builds 0 ++
          (ends 0 ++ builds 1))) (initial 50) = some w ∧ w.shared.limit = 50 := ⟨_, rfl, rfl⟩
  have hrun : service.system.Run (Service.Heeding Heeds) (initial 50)
      (.arrive (.executeBackup 10 1) :: .arrive .engineFor :: builds 0 ++
        (.advance 0 (.attempt .failed) :: .advance 0 (.retryWait false) :: builds 0 ++
          (ends 0 ++ builds 1))) w :=
    System.run_of_trail (p := fun x => decide (Service.Heeding Heeds x.1 x.2))
      (fun _ _ h => of_decide_eq_true h) hfollow (by decide +kernel)
  exact ⟨w, hrun, ceiling_of_heeding hrun, hlimit⟩

/-- A browse while the run is executing takes its ceiling away. -/
theorem browse_lifts_ceiling : ∃ w, service.system.Run (fun _ _ => True) (initial 50)
    (.arrive (.executeBackup 10 1) :: .arrive .engineFor :: builds 0 ++ builds 1) w ∧
    w.shared.executing.entries.head? = some ⟨0, 10⟩ ∧ w.shared.limit = 50 ∧
    ¬ Ceiling w.shared := by
  refine ⟨_, System.run_of_follow (fun _ _ _ => trivial) rfl, rfl, rfl, fun h => ?_⟩
  exact absurd (h.overridden ⟨0, 10⟩ rfl) (by decide +kernel)

end ProxBack.Sched.UploadLimit
