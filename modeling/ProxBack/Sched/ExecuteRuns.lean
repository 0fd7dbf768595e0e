import ProxBack.Sched.Execute

/-! How a run of a backup job goes: the attempt it ends with, what that attempt planned,
and runs it can have. -/
namespace ProxBack.Sched.Execute
open Lib Text Prog Engine Store
open Guest (VmPlan)

abbrev Event := Σ c : Call, Reply c

abbrev Workload := SourceKind × String

/-- The row that a call of `CreateBackup` recorded. -/
def created : (c : Call) → Reply c → Option Backup
  | .guest (.sched (.createBackup b)), .ok () => some b
  | _, _ => none

/-- The inventory that a call of `ListCachedVMs` read. -/
def resolved : (c : Call) → Reply c → Option (List VM)
  | .listCachedVMs, .ok vms => some vms
  | _, _ => none

def rows (log : List Event) : List Backup := log.filterMap fun ev => created ev.1 ev.2

@[simp] theorem rows_append (log log' : List Event) : rows (log ++ log') = rows log ++ rows log' :=
  List.filterMap_append

section
variable {lower : Char → Char} {e : Engine} {j : BackupJob} {runID : String} {log : List Event}

theorem tryLoop_returned {delay : Int} {attempt : ExecM (Option Err)} {n : Nat}
    (hlog : Logs (tryLoop delay attempt n) log (.ret none)) :
    ∃ log₁ log₂, log = log₁ ++ log₂ ∧ Logs attempt log₂ (.ret none) := by
  induction n generalizing log with
  | zero => cases hlog.of_ret.2
  | succ n ih =>
    obtain ⟨res, log₁, log₂, rfl, hattempt, hrest⟩ := hlog.of_bind_ret
    cases res with
    | none =>
      obtain ⟨rfl, -⟩ := hrest.of_ret
      exact ⟨[], log₁, by simp, hattempt⟩
    | some err =>
      obtain ⟨ctx, log₂, rfl, hrest₁⟩ := hrest.of_call
      split at hrest₁
      · cases hrest₁.of_ret.2
      split at hrest₁
      · cases hrest₁.of_ret.2
      obtain ⟨- | f, log₂, rfl, hrest₂⟩ := hrest₁.of_call
      · obtain ⟨log₃, log₄, rfl, hlast⟩ := ih hrest₂
        exact ⟨log₁ ++ ⟨.runCtxErr, ctx⟩ :: ⟨.retryWait delay, none⟩ :: log₃, log₄, by simp, hlast⟩
      · cases hrest₂.of_ret.2

theorem tryLoop_untried {delay : Int} {attempt : ExecM (Option Err)} {n : Nat}
    (hlog : Logs (tryLoop delay attempt n) log (.ret (some none))) : n = 0 := by
  induction n generalizing log with
  | zero => rfl
  | succ n ih =>
    obtain ⟨res, log₁, log₂, rfl, hattempt, hrest⟩ := hlog.of_bind_ret
    cases res with
    | none => cases hrest.of_ret.2
    | some err =>
      obtain ⟨ctx, log₂, rfl, hrest₁⟩ := hrest.of_call
      split at hrest₁
      · cases hrest₁.of_ret.2
      split at hrest₁
      · cases hrest₁.of_ret.2
      obtain ⟨- | f, log₂, rfl, hrest₂⟩ := hrest₁.of_call
      · rename_i hn
        exact absurd (ih hrest₂) hn
      · cases hrest₂.of_ret.2

@[simp]
theorem retryCount_normalized (p : RunControl) : p.normalized.retryCount = p.retryCount := by
  unfold RunControl.normalized
  split <;> rfl

theorem executeBackup_succeeded (hacc : 0 ≤ j.policy.retryCount)
    (hlog : Logs (executeBackup lower e j runID) log (.ret none)) :
    ∃ log₁ log₂, log = log₁ ++ log₂ ∧ Logs (backupAttempt lower e j runID) log₂ (.ret none) := by
  obtain ⟨res, log₁, log₂, rfl, hloop, hrest⟩ := hlog.of_bind_ret
  cases res with
  | none =>
    obtain ⟨rfl, -⟩ := hrest.of_ret
    rw [List.append_nil]
    exact tryLoop_returned hloop
  | some err =>
    have hnone : err = none := by
      dsimp only at hrest
      split at hrest
      · obtain ⟨ctx, log₂, rfl, hrest₁⟩ := hrest.of_call
        split at hrest₁
        · cases hrest₁.of_ret.2
        · cases hrest₁.of_ret.2
          rfl
      · cases hrest.of_ret.2
        rfl
    subst hnone
    have hzero := tryLoop_untried hloop
    rw [retryCount_normalized] at hzero
    omega

theorem endAttempt_keeps {targetID : String} {runErr res : Option Err}
    (hlog : Logs (endAttempt e targetID runErr) log (.ret res)) : res = runErr := by
  obtain ⟨idle, log, rfl, hlog₁⟩ := hlog.of_call
  split at hlog₁
  · cases hlog₁.of_ret.2
    rfl
  · obtain ⟨- | f, log, rfl, hlog₂⟩ := hlog₁.of_call
    · obtain ⟨out, log₁, log₂, rfl, -, hlog₃⟩ := hlog₂.of_bind_ret
      cases hlog₃.of_ret.2
      rfl
    · cases hlog₂.of_ret.2
      rfl

theorem backupAttempt_succeeded
    (hlog : Logs (backupAttempt lower e j runID) log (.ret none)) :
    ∃ log₁ log₂, log = ⟨.guest (.sched (.openTarget j.job.targetID)), .ok ()⟩ ::
        ⟨.guest (.sched (.markTargetActive j.job.targetID)), ()⟩ :: (log₁ ++ log₂) ∧
      Logs (backupJob lower j runID) log₁ (.ret none) ∧
      Logs (endAttempt e j.job.targetID none) log₂ (.ret none) := by
  obtain ⟨err | ⟨⟩, log, rfl, hlog₁⟩ := hlog.of_call
  · cases hlog₁.of_ret.2
  obtain ⟨⟨⟩, log, rfl, hlog₂⟩ := hlog₁.of_call
  obtain ⟨res, log₁, log₂, rfl, hjob, hend⟩ := hlog₂.of_bind_ret
  have hres := endAttempt_keeps hend
  subst hres
  exact ⟨log₁, log₂, rfl, hjob, hend⟩

def Call.Plans : Call → Prop
  | .pveHost _ | .cachedVM _ _ | .findNodeForVM _ _ | .config _ _ _ | .helperForNode _ _ => True
  | _ => False

def sourceOf (src : JobSource) : String := vmSourceID src.hostID src.vmid

theorem planGuest_ends (policy : RunControl) (src : JobSource) (name node : String) :
    Ends Call.Plans (fun res => ∀ p, res = .ok p → p.sourceID = sourceOf src)
      (planGuest lower policy src name node) := by
  refine ⟨trivial, ?_⟩
  rintro (f | cfg) - -
  · nofun
  dsimp only
  split
  · nofun
  split
  · nofun
  refine ⟨trivial, ?_⟩
  rintro (f | helper) - -
  · nofun
  dsimp only
  split
  · nofun
  · rintro p hp
    cases hp
    rfl

theorem planSource_ends (policy : RunControl) (src : JobSource) :
    Ends Call.Plans (fun res => ∀ p, res = .ok p → p.sourceID = sourceOf src)
      (planSource lower policy src) := by
  have hrest : ∀ name node, Ends Call.Plans
      (fun res => ∀ p, res = .ok p → p.sourceID = sourceOf src)
      (planNode lower policy src name node) := by
    intro name node
    unfold planNode
    split
    · exact planGuest_ends policy src _ _
    refine ⟨trivial, ?_⟩
    rintro (f | node) - -
    · rintro _ ⟨⟩
    · exact planGuest_ends policy src _ _
  exact ⟨trivial, fun cached _ _ => hrest _ _⟩

theorem planLoop_ends (policy : RunControl) (sources : List JobSource) (known : List String)
    (plans : List VmPlan) :
    Ends Call.Plans (fun res => ∀ out, res = .ok out →
        out.map VmPlan.sourceID = plans.map VmPlan.sourceID ++ sources.map sourceOf)
      (planLoop lower policy sources known plans) := by
  induction sources generalizing known plans with
  | nil =>
    rintro out hout
    cases hout
    simp
  | cons src rest ih =>
    have hgo : ∀ known', Ends Call.Plans (fun res => ∀ out, res = .ok out →
        out.map VmPlan.sourceID = plans.map VmPlan.sourceID ++ (src :: rest).map sourceOf)
        (planSource lower policy src >>= planNext lower policy rest known' plans) := by
      intro known'
      refine (planSource_ends policy src).bind ?_
      rintro (err | p) hp
      · rintro _ ⟨⟩
      refine (ih known' (plans ++ [p])).post_mono ?_
      intro res _ hres out hout
      rw [hres out hout, List.map_append, List.map_cons, List.map_cons, List.map_nil, hp p rfl,
        List.append_assoc, List.singleton_append]
    unfold planLoop
    split
    · rintro _ ⟨⟩
    dsimp only
    split
    · exact hgo known
    · refine ⟨trivial, ?_⟩
      rintro (err | name) - -
      · rintro _ ⟨⟩
      · exact hgo _

theorem planVMJob_calls {P : Call → Prop} (hlist : P .listCachedVMs)
    (hplans : ∀ c : Call, c.Plans → P c) : Calls P (planVMJob lower j) := by
  have hstart : ∀ sources : List JobSource,
      Calls P (if sources = [] then .ret (.error (.plan .noSources))
        else planLoop lower j.policy sources [] []) := by
    intro sources
    split
    · trivial
    · exact (planLoop_ends _ _ _ _).calls.mono hplans
  unfold planVMJob
  dsimp only
  by_cases htag : j.tagFilter ≠ ""
  · rw [if_pos htag]
    refine Calls.bind ⟨hlist, ?_⟩ ?_
    · rintro (f | vms)
      · trivial
      · dsimp only
        split <;> trivial
    · rintro (err | sources)
      · trivial
      · exact hstart sources
  · rw [if_neg htag]
    exact hstart _

theorem planLoop_ids {policy : RunControl} {sources : List JobSource} {out : List VmPlan}
    (hlog : Logs (planLoop lower policy sources [] []) log (.ret (.ok out))) :
    out.map VmPlan.sourceID = sources.map sourceOf := by
  have hids := (planLoop_ends policy sources [] []).logs hlog out rfl
  simpa using hids

def sourcesIn (lower : Char → Char) (j : BackupJob) (vms : List VM) : List JobSource :=
  if j.tagFilter ≠ "" then
    (vms.filter fun v => v.hasTag lower j.tagFilter).map fun v => ⟨v.hostID, v.vmid, v.name, "", []⟩
  else j.sources

theorem planVMJob_planned {out : List VmPlan}
    (hlog : Logs (planVMJob lower j) log (.ret (.ok out))) :
    ∃ vms log', out.map VmPlan.sourceID = (sourcesIn lower j vms).map sourceOf ∧
      Logs (planLoop lower j.policy (sourcesIn lower j vms) [] []) log' (.ret (.ok out)) ∧
      log = if j.tagFilter ≠ "" then ⟨.listCachedVMs, .ok vms⟩ :: log' else log' := by
  unfold planVMJob at hlog
  dsimp only at hlog
  by_cases htag : j.tagFilter ≠ ""
  · rw [if_pos htag] at hlog
    obtain ⟨res, log₁, log₂, rfl, hres, hstart⟩ := hlog.of_bind_ret
    obtain ⟨f | vms, log₁, rfl, hres₁⟩ := hres.of_call
    · obtain ⟨-, hout⟩ := hres₁.of_ret
      cases hout
      cases hstart.of_ret.2
    dsimp only at hres₁
    split at hres₁
    · obtain ⟨-, hout⟩ := hres₁.of_ret
      cases hout
      cases hstart.of_ret.2
    · obtain ⟨rfl, hout⟩ := hres₁.of_ret
      cases hout
      dsimp only at hstart
      split at hstart
      · cases hstart.of_ret.2
      · have hsources : sourcesIn lower j vms = (vms.filter fun v => v.hasTag lower j.tagFilter).map
            fun v => ⟨v.hostID, v.vmid, v.name, "", []⟩ := if_pos htag
        rw [← hsources] at hstart
        exact ⟨vms, log₂, planLoop_ids hstart, hstart, by rw [if_pos htag]; rfl⟩
  · rw [if_neg htag] at hlog
    split at hlog
    · cases hlog.of_ret.2
    · have hsources : sourcesIn lower j [] = j.sources := if_neg htag
      rw [← hsources] at hlog
      exact ⟨[], log, planLoop_ids hlog, hlog, by rw [if_neg htag]⟩

def guestRecordLog (job : Job) (man : Manifest) (b : Backup) (r : Except Store.Err Unit) :
    List (Σ c, Guest.Reply c) :=
  [⟨.stats, .zero⟩,
    ⟨.sched (.latestBackupForSource man.sourceKind man.sourceID job.targetID), .error .notFound⟩,
    ⟨.sched .newID, man.backupID⟩, ⟨.sched .now, man.createdAt⟩,
    ⟨.sched (.engine job.targetID (.putManifest man.key man)), .ok ()⟩,
    ⟨.sched (.createBackup b), r⟩]

def recordLog (job : Job) (man : Manifest) (b : Backup) (r : Except Store.Err Unit) : List Event :=
  (guestRecordLog job man b r).map fun ev => ⟨.guest ev.1, ev.2⟩

theorem executeBackup_logs (hretry : 0 ≤ j.policy.retryCount)
    (hlog : Logs (backupAttempt lower e j runID) log (.ret none)) :
    Logs (executeBackup lower e j runID) log (.ret none) := by
  obtain ⟨n, hn⟩ : ∃ n, (j.policy.normalized.retryCount + 1).toNat = n + 1 := by
    rw [retryCount_normalized]
    exact ⟨j.policy.retryCount.toNat, by omega⟩
  unfold executeBackup runUnderPolicy
  rw [hn]
  exact (hlog.bind _).bind _

/-- An attempt ends as its job does, and leaves the target to others that are active on
it. -/
theorem backupAttempt_logs {res : Option Err}
    (hlog : Logs (backupJob lower j runID) log (.ret res)) :
    Logs (backupAttempt lower e j runID)
      (⟨.guest (.sched (.openTarget j.job.targetID)), .ok ()⟩ ::
        ⟨.guest (.sched (.markTargetActive j.job.targetID)), ()⟩ :: (log ++
          [⟨.guest (.sched (.markTargetIdle j.job.targetID)), false⟩])) (.ret res) := by
  refine .cons _ (.cons _ ((hlog.bind _).trans (.cons _ ?_)))
  rw [if_pos (.inl (by decide))]
  exact .nil

end

end ProxBack.Sched.Execute
