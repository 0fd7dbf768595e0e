import ProxBack.Api.Posture
import ProxBack.Sched.ExecuteRuns
import Mathlib.Order.BooleanAlgebra.Set
import Mathlib.Order.CompletePartialOrder

/-! Whether a run that succeeds has a restore point for every workload that the posture
shows as governed by its job. -/
namespace ProxBack.Sched.Execute
open Lib Text Prog Engine Store
open Guest (VmPlan)

def Tells (c : Call) (r : Reply c) (s : Set Workload) : Prop :=
  ∀ b, created c r = some b → (b.sourceKind, b.sourceID) ∈ s

def Recorded (log : List Event) (w : Workload) : Prop :=
  ∃ b ∈ rows log, (b.sourceKind, b.sourceID) = w

theorem tells_recorded {log : List Event} {ev : Event} (hev : ev ∈ log) :
    Tells ev.1 ev.2 {w | Recorded log w} := fun b hb =>
  ⟨b, List.mem_filterMap.mpr ⟨ev, hev, hb⟩, rfl⟩

abbrev TellsSched (c : Sched.Call) (r : Sched.Reply c) (s : Set Workload) : Prop :=
  Tells (.guest (.sched c)) r s

section Records

variable {s : Set Workload}

theorem wp_sched {α : Type} {post : α → Set Workload → Prop} {p : SchedM α}
    (h : Wp (Growing TellsSched) (fun _ _ => True) post p s) :
    Wp (Growing Tells) (fun _ _ => True) post (sched p) s := by
  refine Wp.lift (Wp.lift (h.mono ?_ (fun _ _ => id) fun _ _ => id))
  rintro c s r s' ⟨r', rfl, r'', rfl, hle, htells⟩
  exact ⟨hle, htells⟩

theorem wp_recordBackup (job : Job) (runID : String) (kind : SourceKind) (p : Sched.Plan)
    (out : Exported) (rest : SchedM (Option Sched.Err)) :
    Wp (Growing TellsSched) (fun _ _ => True)
      (fun res s => res = none → (kind, p.sourceID) ∈ s)
      (recordBackup job runID kind p out rest) s := by
  refine (wp_bind _ _ _).mpr ((wp_growing _ le_rfl).post_mono ?_)
  rintro (err | parentID) s -
  · nofun
  refine ⟨trivial, fun backupID s _ => ⟨trivial, fun createdAt s _ => ?_⟩⟩
  refine (wp_bind _ _ _).mpr ((wp_growing _ le_rfl).post_mono ?_)
  rintro (err | ⟨⟩) s -
  · nofun
  refine ⟨trivial, ?_⟩
  rintro (err | ⟨⟩) s ⟨-, htells⟩
  · nofun
  · have hmem : (kind, p.sourceID) ∈ s := htells _ rfl
    exact (wp_growing rest le_rfl).post_mono fun _ t hle _ => hle hmem

theorem wp_backupOneVM (job : Job) (runID : String) (p : VmPlan) (before : Stats) :
    Wp (Growing Tells) (fun _ _ => True) (fun res s => res = none → (.vm, p.sourceID) ∈ s)
      (guest (Guest.backupOneVM job runID p before)) s := by
  refine Wp.lift ⟨trivial, ?_⟩
  rintro (f | ⟨⟩) s -
  · nofun
  have hexported := (calls_true (Guest.exported p)).wp (T := fun (c : Guest.Call) (s : Set Workload)
    r s' => ∃ r' : Reply (.guest c), r' = r ∧ Growing Tells (.guest c) s r' s') s
  refine (wp_bind _ _ _).mpr (hexported.post_mono ?_)
  rintro (err | disks) s -
  · nofun
  refine ⟨trivial, fun after s _ => (wp_bind _ _ _).mpr (Wp.lift ?_)⟩
  refine ((wp_recordBackup job runID .vm _ _ _).mono ?_ (fun _ _ => id) ?_)
  · rintro c s r s' ⟨r', rfl, r'', rfl, hle, htells⟩
    exact ⟨hle, htells⟩
  · rintro (- | err) s hrec
    · exact fun _ => hrec rfl
    · nofun

theorem wp_backupLoop (job : Job) (runID : String) (i : Nat) (plans : List VmPlan) :
    Wp (Growing Tells) (fun _ _ => True)
      (fun res s => res = none → ∀ p ∈ plans, (SourceKind.vm, p.sourceID) ∈ s)
      (backupLoop job runID i plans) s := by
  induction plans generalizing i s with
  | nil => exact fun _ => nofun
  | cons p plans ih =>
    refine ⟨trivial, ?_⟩
    rintro (- | f) s -
    · refine ⟨trivial, fun before s _ => ⟨trivial, fun _ s _ => ?_⟩⟩
      refine (wp_bind _ _ _).mpr ((wp_backupOneVM job runID p before).post_mono ?_)
      rintro (- | err) s hone
      · refine ⟨trivial, fun _ t ht => ?_⟩
        refine ((ih (i + 1)).and (wp_growing _ le_rfl)).post_mono ?_
        rintro res u ⟨hrest, hle⟩ hres q hq
        rcases List.mem_cons.mp hq with rfl | hq
        · exact hle (ht.1 (hone rfl))
        · exact hrest hres q hq
      · exact ⟨trivial, fun _ t _ => nofun⟩
    · nofun

theorem wp_backupAgent (job : Job) (runID agentID hostname : String) (hid : agentID ≠ "")
    (paths : List String) :
    Wp (Growing Tells) (fun _ _ => True) (fun res s => res = none → (.agent, agentID) ∈ s)
      (backupAgent job runID agentID hostname hid paths) s := by
  refine ⟨trivial, ?_⟩
  rintro (f | disks) s -
  · nofun
  refine ⟨trivial, fun snapshot s _ => (wp_bind _ _ _).mpr (wp_sched ?_)⟩
  refine (wp_recordBackup job runID .agent _ _ _).post_mono ?_
  rintro (- | err) s hrec
  · exact fun _ => hrec rfl
  · nofun

end Records

section
variable {lower : Char → Char} {e : Engine} {j : BackupJob} {runID : String} {log : List Event}

theorem Recorded.mono {log' : List Event} {w : Workload} (h : Recorded log w)
    (hsub : log ⊆ log') : Recorded log' w := by
  obtain ⟨b, hb, hw⟩ := h
  obtain ⟨ev, hev, hcreated⟩ := List.mem_filterMap.mp hb
  exact ⟨b, List.mem_filterMap.mpr ⟨ev, hsub hev, hcreated⟩, hw⟩

def inventories (log : List Event) : List (List VM) := log.filterMap fun ev => resolved ev.1 ev.2

def lastInventory (log : List Event) : Option (List VM) := (inventories log).getLast?

@[simp] theorem inventories_cons (c : Call) (r : Reply c) (log : List Event) :
    inventories (⟨c, r⟩ :: log) = (resolved c r).toList ++ inventories log := by
  unfold inventories
  rw [List.filterMap_cons]
  cases resolved c r <;> rfl

@[simp] theorem inventories_append (log log' : List Event) :
    inventories (log ++ log') = inventories log ++ inventories log' := List.filterMap_append

def Resolves (c : Call) : Prop := c = .listCachedVMs

@[grind =]
theorem resolved_none {ev : Event} (h : ¬ Resolves ev.1) : resolved ev.1 ev.2 = none := by
  obtain ⟨c, r⟩ := ev
  cases c <;> first | rfl | exact absurd rfl h

theorem inventories_nil {α : Type} {p q : ExecM α} (h : Calls (fun c => ¬ Resolves c) p)
    (hlog : Logs p log q) : inventories log = [] :=
  List.filterMap_eq_nil_iff.mpr fun ev hev => resolved_none (h.logs hlog ev hev)

theorem guest_calls {α : Type} (p : Guest.GuestM α) : Calls (fun c => ¬ Resolves c) (guest p) :=
  Calls.lift ((calls_true p).mono fun _ _ => nofun)

theorem planLoop_calls (policy : RunControl) (sources : List JobSource) (known : List String)
    (plans : List VmPlan) :
    Calls (fun c => ¬ Resolves c) (planLoop lower policy sources known plans) := by
  refine (planLoop_ends policy sources known plans).calls.mono ?_
  rintro c hplans rfl
  exact hplans

theorem backupLoop_calls (job : Job) (i : Nat) (plans : List VmPlan) :
    Calls (fun c => ¬ Resolves c) (backupLoop job runID i plans) := by
  induction plans generalizing i with
  | nil => trivial
  | cons p plans ih =>
    refine ⟨nofun, ?_⟩
    rintro (- | f)
    · refine ⟨nofun, fun before => ⟨nofun, fun _ => (guest_calls _).bind fun res => ⟨nofun, ?_⟩⟩⟩
      intro _
      cases res with
      | none => exact ih _
      | some err => trivial
    · trivial

theorem endAttempt_reads (targetID : String) (runErr : Option Err) :
    Calls (fun c => ¬ Resolves c) (endAttempt e targetID runErr) := by
  refine ⟨nofun, fun idle => ?_⟩
  dsimp only
  split
  · trivial
  refine ⟨nofun, ?_⟩
  rintro (- | f)
  · exact (guest_calls _).bind fun _ => trivial
  · trivial

/-- What the posture shows as covered by the job when the run resolved its sources has a
restore point. -/
structure CoverageAgrees (lower : Char → Char) (j : BackupJob) (log : List Event) : Prop where
  vms : ∀ vms, (j.tagFilter ≠ "" → lastInventory log = some vms) → ∀ vm ∈ vms,
    Api.jobCoversVM lower j vm = true → Recorded log (.vm, vmSourceID vm.hostID vm.vmid)
  agents : ∀ agentID, Api.jobCoversAgent j agentID = true → Recorded log (.agent, agentID)

def BackupJob.SingleAgent (j : BackupJob) : Prop :=
  j.job.kind = .agent → ∀ src ∈ j.sources, ∀ src' ∈ j.sources, src.agentID = src'.agentID

instance (j : BackupJob) : Decidable j.SingleAgent :=
  inferInstanceAs (Decidable (_ → ∀ src ∈ j.sources, ∀ src' ∈ j.sources, src.agentID = src'.agentID))

/-- A job of machines that was all backed up has a restore point for every source that it
found in the inventory it read. -/
theorem backupVMJob_covered (hlog : Logs (backupVMJob lower j runID) log (.ret none)) :
    ∃ vms, (j.tagFilter ≠ "" → inventories log = [vms]) ∧
      ∀ src ∈ sourcesIn lower j vms, Recorded log (.vm, sourceOf src) := by
  obtain ⟨err | plans, log₁, log₂, rfl, hplan, hrest⟩ := hlog.of_bind_ret
  · cases hrest.of_ret.2
  obtain ⟨⟨⟩, log₂, rfl, hloop⟩ := hrest.of_call
  obtain ⟨vms, log', hids, hplanned, rfl⟩ := planVMJob_planned hplan
  refine ⟨vms, fun htag => ?_, fun src hsrc => ?_⟩
  · rw [if_pos htag, inventories_append, inventories_cons, inventories_cons,
      inventories_nil (planLoop_calls _ _ _ _) hplanned,
      inventories_nil (backupLoop_calls _ _ _) hloop]
    rfl
  · have hmem : sourceOf src ∈ plans.map VmPlan.sourceID := by
      rw [hids]
      exact List.mem_map_of_mem hsrc
    obtain ⟨p, hp, hid⟩ := List.mem_map.mp hmem
    have hrec := (wp_backupLoop j.job runID 0 plans).logs (fun ev hev => tells_recorded hev) hloop
      rfl p hp
    rw [hid] at hrec
    exact hrec.mono fun ev hev => List.mem_append_right _ (List.mem_cons_of_mem _ hev)

theorem covered_source {vms : List VM} {vm : VM} (hvm : vm ∈ vms)
    (hcovers : Api.jobCoversVM lower j vm = true) :
    ∃ src ∈ sourcesIn lower j vms, sourceOf src = vmSourceID vm.hostID vm.vmid := by
  unfold Api.jobCoversVM at hcovers
  split at hcovers
  · cases hcovers
  unfold sourcesIn
  split at hcovers
  · rename_i htag
    rw [if_pos htag]
    exact ⟨_, List.mem_map_of_mem (List.mem_filter.mpr ⟨hvm, hcovers⟩), rfl⟩
  · rename_i htag
    rw [if_neg htag]
    obtain ⟨src, hsrc, hsame⟩ := List.any_eq_true.mp hcovers
    obtain ⟨hhost, hvmid⟩ := of_decide_eq_true hsame
    exact ⟨src, hsrc, by rw [sourceOf, hhost, hvmid]⟩

theorem covers_vms (hretry : 0 ≤ j.policy.retryCount) (hkind : j.job.kind = .vm)
    (hlog : Logs (executeBackup lower e j runID) log (.ret none)) (vms : List VM)
    (hvms : j.tagFilter ≠ "" → lastInventory log = some vms) {vm : VM} (hvm : vm ∈ vms)
    (hcovers : Api.jobCoversVM lower j vm = true) :
    Recorded log (.vm, vmSourceID vm.hostID vm.vmid) := by
  obtain ⟨log₀, log₁, rfl, hattempt⟩ := executeBackup_succeeded hretry hlog
  obtain ⟨log₁, log₂, rfl, hjob, hend⟩ := backupAttempt_succeeded hattempt
  rw [backupJob, hkind] at hjob
  obtain ⟨found, hfound, hrec⟩ := backupVMJob_covered hjob
  have hsources : sourcesIn lower j vms = sourcesIn lower j found := by
    by_cases htag : j.tagFilter ≠ ""
    · have hlast := hvms htag
      rw [lastInventory, inventories_append, inventories_cons, inventories_cons,
        inventories_append, hfound htag, inventories_nil (endAttempt_reads _ _) hend,
        List.getLast?_append] at hlast
      cases hlast
      rfl
    · rw [sourcesIn, if_neg htag, sourcesIn, if_neg htag]
  obtain ⟨src, hsrc, hid⟩ := covered_source hvm hcovers
  rw [hsources] at hsrc
  rw [← hid]
  refine (hrec src hsrc).mono fun ev hev => List.mem_append_right _ ?_
  exact List.mem_cons_of_mem _ (List.mem_cons_of_mem _ (List.mem_append_left _ hev))

theorem backupAgentJob_covered (hlog : Logs (backupAgentJob j runID) log (.ret none)) :
    ∃ src, j.sources.head? = some src ∧ Recorded log (.agent, src.agentID) := by
  unfold backupAgentJob at hlog
  cases hsources : j.sources with
  | nil =>
    rw [hsources] at hlog
    cases hlog.of_ret.2
  | cons src rest =>
    rw [hsources] at hlog
    dsimp only at hlog
    split at hlog
    · cases hlog.of_ret.2
    obtain ⟨err | agent, log, rfl, hlog₁⟩ := hlog.of_call
    · cases hlog₁.of_ret.2
    dsimp only at hlog₁
    split at hlog₁
    · cases hlog₁.of_ret.2
    split at hlog₁
    · cases hlog₁.of_ret.2
    split at hlog₁
    · cases hlog₁.of_ret.2
    obtain ⟨⟨⟩, log, rfl, hlog₂⟩ := hlog₁.of_call
    obtain ⟨⟨⟩, log, rfl, hlog₃⟩ := hlog₂.of_call
    obtain ⟨res, log₁, log₂, rfl, hagent, hlog₄⟩ := hlog₃.of_bind_ret
    obtain ⟨⟨⟩, log₂, rfl, hlog₅⟩ := hlog₄.of_call
    cases hlog₅.of_ret.2
    have hrec := (wp_backupAgent j.job runID src.agentID agent.hostname _ src.paths).logs
      (fun ev hev => tells_recorded hev) hagent rfl
    refine ⟨src, rfl, hrec.mono fun ev hev => ?_⟩
    exact .tail _ (.tail _ (.tail _ (List.mem_append_left _ hev)))

theorem covers_agents (hretry : 0 ≤ j.policy.retryCount) (hkind : j.job.kind = .agent)
    (hone : j.SingleAgent) (hlog : Logs (executeBackup lower e j runID) log (.ret none))
    {agentID : String} (hcovers : Api.jobCoversAgent j agentID = true) :
    Recorded log (.agent, agentID) := by
  obtain ⟨log₀, log₁, rfl, hattempt⟩ := executeBackup_succeeded hretry hlog
  obtain ⟨log₁, log₂, rfl, hjob, -⟩ := backupAttempt_succeeded hattempt
  rw [backupJob, hkind] at hjob
  obtain ⟨src, hhead, hrec⟩ := backupAgentJob_covered hjob
  rw [Api.jobCoversAgent, if_neg (not_not_intro hkind)] at hcovers
  obtain ⟨src', hsrc', hid⟩ := List.any_eq_true.mp hcovers
  have hsame := hone hkind src (List.mem_of_head? hhead) src' hsrc'
  rw [hsame, of_decide_eq_true hid] at hrec
  refine hrec.mono fun ev hev => List.mem_append_right _ ?_
  exact List.mem_cons_of_mem _ (List.mem_cons_of_mem _ (List.mem_append_left _ hev))

theorem accepted_agent (hacc : j.Accepted) (hkind : j.job.kind = .agent) :
    ∃ src rest, j.sources = src :: rest ∧ src.agentID ≠ "" ∧ src.paths ≠ [] ∧
      ¬ (src.paths.any fun p => trimSpace p.toList = []) = true := by
  have hvalid := hacc.1
  rw [hkind, validateJob] at hvalid
  split at hvalid
  · cases hvalid
  rename_i htag
  split at hvalid
  · cases hvalid
  rename_i hempty
  rw [if_neg (by decide), if_pos rfl] at hvalid
  cases hsources : j.sources with
  | nil =>
    refine absurd ⟨hsources, ?_⟩ hempty
    by_contra hne
    exact htag ⟨hne, by decide⟩
  | cons src rest =>
    rw [hsources, List.findSome?_eq_none_iff] at hvalid
    have hsrc := hvalid src List.mem_cons_self
    unfold agentSourceErr at hsrc
    split at hsrc
    · cases hsrc
    split at hsrc
    · cases hsrc
    split at hsrc
    · cases hsrc
    rename_i hid hpaths hblank
    exact ⟨src, rest, rfl, hid, hpaths, hblank⟩

theorem exists_recordAgent (job : Job) (runID agentID hostname : String) (hid : agentID ≠ "") :
    ∃ log, Logs (recordAgent job runID agentID hostname hid []) log (.ret none) ∧
      ∀ b ∈ rows log, (b.sourceKind, b.sourceID) = (.agent, agentID) := by
  let man := newManifest job runID .agent (.byWorkers agentID hostname hid) [] 0 "" "" 0
  let listed : Event := ⟨.guest (.sched (.listBackups
    { sourceKind := some .agent, sourceID := agentID, targetID := job.targetID })), .ok []⟩
  have hretained : Logs (sched (applyRetention job.targetID job.retention .agent agentID))
      (if job.retention.total ≤ 0 then [] else [listed]) (.ret none) := by
    unfold applyRetention
    split
    · exact .nil
    · exact .cons _ .nil
  have hrecord : Logs (recordAgent job runID agentID hostname hid [])
      (recordLog job man (newBackup man hid) (.ok ()))
      (sched (applyRetention job.targetID job.retention .agent agentID) >>= fun err =>
        .ret (err.map fun err => .guest (.sched err))) :=
    .cons _ (.cons _ (.cons _ (.cons _ (.cons _ (.cons _ .nil)))))
  refine ⟨_, hrecord.trans (hretained.bind _), ?_⟩
  rw [rows_append]
  intro b hb
  rcases List.mem_append.mp hb with hb | hb
  · cases List.mem_singleton.mp hb
    rfl
  · split at hb <;> cases hb

theorem exists_agentRun (hacc : j.Accepted) (hkind : j.job.kind = .agent) {src : JobSource}
    {rest : List JobSource} (hsources : j.sources = src :: rest) :
    ∃ log, Logs (executeBackup lower e j runID) log (.ret none) ∧
      ∀ w, Recorded log w → w = (.agent, src.agentID) := by
  obtain ⟨src', rest', hsources', hid, hpaths, hblank⟩ := accepted_agent hacc hkind
  rw [hsources] at hsources'
  cases hsources'
  obtain ⟨log, hlog, hrows⟩ := exists_recordAgent j.job runID src.agentID "guest" hid
  have hjob : Logs (backupJob lower j runID)
      (⟨.agentByID src.agentID, .ok ⟨"guest", true⟩⟩ ::
        ⟨.planSources [⟨0, .agent, src.agentID⟩], ()⟩ :: ⟨.beginSource 0, ()⟩ ::
        ⟨.runBackup src.agentID src.paths, .ok []⟩ :: (log ++ [⟨.finishSource 0 .success, ()⟩]))
      (.ret none) := by
    rw [backupJob, hkind]
    unfold backupAgentJob
    rw [hsources]
    dsimp only
    rw [dif_neg hid]
    refine .cons _ ?_
    dsimp only
    rw [if_neg (by simp), if_neg hpaths, if_neg hblank]
    exact .cons _ (.cons _ (.cons _ ((hlog.bind _).trans (.cons _ .nil))))
  have hretry := (RunControl.retryCount_of_validate hacc.2).1
  refine ⟨_, executeBackup_logs hretry (backupAttempt_logs hjob), ?_⟩
  rintro w ⟨b, hb, rfl⟩
  refine hrows b ?_
  simpa [rows, created] using hb

end

/-- A run that succeeds always has a restore point for every workload the posture shows as
covered by its job, exactly when the sources of an agent job all name one agent. -/
theorem coverage_agrees_iff (lower : Char → Char) (e : Engine) (j : BackupJob) (runID : String)
    (hacc : j.Accepted) :
    (∀ log, Logs (executeBackup lower e j runID) log (.ret none) → CoverageAgrees lower j log) ↔
      j.SingleAgent := by
  have hretry := (RunControl.retryCount_of_validate hacc.2).1
  constructor
  · intro h hkind
    obtain ⟨src, rest, hsources, -⟩ := accepted_agent hacc hkind
    obtain ⟨log, hlog, hrec⟩ := exists_agentRun hacc hkind hsources
    -- whoever is covered is the agent the run has a restore point of
    have hsame : ∀ src' ∈ j.sources, src'.agentID = src.agentID := by
      intro src' hsrc'
      have hcovers : Api.jobCoversAgent j src'.agentID = true := by
        rw [Api.jobCoversAgent, if_neg (not_not_intro hkind)]
        exact List.any_eq_true.mpr ⟨src', hsrc', decide_eq_true rfl⟩
      exact congrArg Prod.snd (hrec _ ((h log hlog).agents _ hcovers))
    intro src₁ h₁ src₂ h₂
    rw [hsame src₁ h₁, hsame src₂ h₂]
  · intro hone log hlog
    constructor
    · intro vms hvms vm hvm hcovers
      refine covers_vms hretry ?_ hlog vms hvms hvm hcovers
      by_contra hkind
      rw [Api.jobCoversVM, if_pos hkind] at hcovers
      cases hcovers
    · intro agentID hcovers
      refine covers_agents hretry ?_ hone hlog hcovers
      by_contra hkind
      rw [Api.jobCoversAgent, if_pos hkind] at hcovers
      cases hcovers

def home (agentID : String) : JobSource := ⟨"", 0, "", agentID, ["/home"]⟩

def agentJob (sources : List JobSource) : BackupJob where
  job := ⟨"job1", "files", .agent, "t1", ⟨1, 0, 0, 0, 0⟩⟩
  sources := sources
  tagFilter := ""
  policy := ⟨[], 0, 5, 0⟩

theorem oneAgent_accepted : (agentJob [home "a1"]).Accepted := by
  constructor <;> decide +kernel

theorem twoAgents_accepted : (agentJob [home "a1", home "a2"]).Accepted := by
  constructor <;> decide +kernel

/-- The job with one agent has a run that succeeds, and it covers the agent. -/
theorem coverage_agrees_one :
    ∃ log, Logs (executeBackup Char.toLower byteEngine (agentJob [home "a1"]) "run1") log
        (.ret none) ∧ CoverageAgrees Char.toLower (agentJob [home "a1"]) log := by
  obtain ⟨log, hlog, -⟩ := exists_agentRun oneAgent_accepted rfl rfl
  exact ⟨log, hlog, (coverage_agrees_iff Char.toLower byteEngine (agentJob [home "a1"]) "run1"
    oneAgent_accepted).mpr (by decide) log hlog⟩

/-- The second agent of a job is never backed up. -/
theorem second_agent_uncovered :
    (agentJob [home "a1", home "a2"]).Accepted ∧
    ¬ ∀ log, Logs (executeBackup Char.toLower byteEngine (agentJob [home "a1", home "a2"]) "run1")
        log (.ret none) → CoverageAgrees Char.toLower (agentJob [home "a1", home "a2"]) log := by
  refine ⟨twoAgents_accepted, fun h => ?_⟩
  obtain ⟨log, hlog, hrec⟩ := exists_agentRun twoAgents_accepted rfl rfl
  have hsecond := hrec _ ((h log hlog).agents "a2" rfl)
  revert hsecond
  decide

end ProxBack.Sched.Execute
