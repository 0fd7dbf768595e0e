import ProxBack.Sched.ExecuteRuns
import ProxBack.Engine.GcSafe
import Mathlib.Data.List.Nodup

/-! How often one run makes a restore point of a workload. Within an attempt it does so at
most once; the next attempt starts with every source again. -/
namespace ProxBack.Sched.Execute
open Lib Text Prog Engine Store
open Guest (VmPlan)

inductive Mark where
  | manifest (w : Workload)
  | row (w : Workload)
deriving DecidableEq, Repr

def Mark.workload : Mark → Workload
  | .manifest w | .row w => w

def schedMarks : Sched.Call → List Mark
  | .createBackup b => [.row (b.sourceKind, b.sourceID)]
  | .engine _ (.putManifest key _) => [.manifest (key.kind, key.sourceID)]
  | _ => []

def guestMarks : Guest.Call → List Mark
  | .sched c => schedMarks c
  | _ => []

def marks : Call → List Mark
  | .guest c => guestMarks c
  | _ => []

def Keyed : (c : Call) → Reply c → Prop
  | .listCachedVMs, .ok vms => (vms.map fun v => (v.hostID, v.vmid)).Nodup
  | _, _ => True

/-- Nothing that `s` holds is of the workload. -/
def Fresh (w : Workload) (s : List Mark) : Prop := ∀ m ∈ s, m.workload ≠ w

theorem Fresh.not_mem {w : Workload} {s : List Mark} (h : Fresh w s) {m : Mark}
    (hm : m.workload = w) : m ∉ s := fun hmem => h m hmem hm

theorem not_mem_toString (n : Int) : '_' ∉ (toString n).toList := by
  have hdigits : ∀ m : Nat, '_' ∉ Nat.toDigits 10 m := by
    intro m hmem
    have hdigit := Nat.isDigit_of_mem_toDigits (by decide) (by decide) hmem
    revert hdigit
    decide
  cases n with
  | ofNat m =>
    show '_' ∉ (Nat.repr m).toList
    rw [Nat.toList_repr]
    exact hdigits m
  | negSucc m =>
    show '_' ∉ ("-" ++ Nat.repr (m + 1)).toList
    rw [String.toList_append, Nat.toList_repr]
    simp

theorem toString_injective {m n : Int} (h : (toString m).toList = (toString n).toList) : m = n := by
  have hdigits : ∀ {a b : Nat}, Nat.toDigits 10 a = Nat.toDigits 10 b → a = b := by
    intro a b hab
    rw [← Nat.ofDigitChars_ten_toDigits (n := a), hab, Nat.ofDigitChars_ten_toDigits]
  have hminus : ∀ (a : Nat) (l : List Char), Nat.toDigits 10 a ≠ '-' :: l := by
    intro a l hal
    have hmem : '-' ∈ Nat.toDigits 10 a := hal ▸ List.mem_cons_self
    have hdigit := Nat.isDigit_of_mem_toDigits (by decide) (by decide) hmem
    revert hdigit
    decide
  have hpos : ∀ a : Nat, (toString (Int.ofNat a)).toList = Nat.toDigits 10 a := by
    intro a
    show (Nat.repr a).toList = _
    rw [Nat.toList_repr]
  have hneg : ∀ a : Nat, (toString (Int.negSucc a)).toList = '-' :: Nat.toDigits 10 (a + 1) := by
    intro a
    show ("-" ++ Nat.repr (a + 1)).toList = _
    rw [String.toList_append, Nat.toList_repr]
    rfl
  cases m with
  | ofNat a =>
    cases n with
    | ofNat b =>
      rw [hpos, hpos] at h
      rw [hdigits h]
    | negSucc b =>
      rw [hpos, hneg] at h
      exact absurd h (hminus _ _)
  | negSucc a =>
    cases n with
    | ofNat b =>
      rw [hpos, hneg] at h
      exact absurd h.symm (hminus _ _)
    | negSucc b =>
      rw [hneg, hneg, List.cons.injEq] at h
      have hab : a = b := by
        have := hdigits h.2
        omega
      rw [hab]

theorem split_last {α : Type} {x : α} {l l' t t' : List α} (h : l ++ x :: t = l' ++ x :: t')
    (ht : x ∉ t) (ht' : x ∉ t') : l = l' ∧ t = t' := by
  rcases List.append_eq_append_iff.mp h with ⟨k, rfl, hk⟩ | ⟨k, rfl, hk⟩
  · cases k with
    | nil => exact ⟨by simp, by simpa using hk⟩
    | cons y k =>
      rw [List.cons_append, List.cons.injEq] at hk
      exact absurd (hk.2 ▸ List.mem_append_right _ List.mem_cons_self) ht
  · cases k with
    | nil => exact ⟨by simp, by simpa using hk.symm⟩
    | cons y k =>
      rw [List.cons_append, List.cons.injEq] at hk
      exact absurd (hk.2 ▸ List.mem_append_right _ List.mem_cons_self) ht'

theorem vmSourceID_injective {host host' : String} {n n' : Int}
    (h : vmSourceID host n = vmSourceID host' n') : host = host' ∧ n = n' := by
  have hlist := congrArg String.toList h
  simp only [vmSourceID, String.toList_append, List.append_assoc] at hlist
  obtain ⟨hhost, hnum⟩ := split_last hlist (not_mem_toString n) (not_mem_toString n')
  exact ⟨String.toList_injective hhost, toString_injective hnum⟩

section Attempt

def Adds (w : Workload) (s t : List Mark) : Prop := t.Nodup ∧ ∀ m ∈ t, m ∈ s ∨ m.workload = w

variable {s : List Mark} {w : Workload}

theorem Fresh.nodup_append (h : Fresh w s) (hs : s.Nodup) {m : Mark} (hm : m.workload = w) :
    (s ++ [m]).Nodup := by
  rw [List.nodup_append]
  refine ⟨hs, List.nodup_singleton m, fun a ha b hb hab => ?_⟩
  rw [List.mem_singleton] at hb
  subst hab
  subst hb
  exact h.not_mem hm ha

theorem newManifest_written (job : Job) (runID : String) (kind : SourceKind) (p : Sched.Plan)
    (disks : List DiskManifest) (uploaded : Nat) (parentID backupID : String) (createdAt : Time) :
    let man := newManifest job runID kind p disks uploaded parentID backupID createdAt
    onTarget job.targetID (writeManifest man) =
      .call (.engine job.targetID (.putManifest man.key man)) .ret := by
  intro man
  have hsize : ¬ man.chunkSize = 0 := by
    show ¬ Engine.chunkSize = 0
    decide
  rw [writeManifest, if_neg hsize]
  rfl

theorem recordBackup_adds (job : Job) (runID : String) (kind : SourceKind) (p : Sched.Plan)
    (out : Exported) {rest : SchedM (Option Sched.Err)} (hrest : Calls (fun c => schedMarks c = []) rest)
    (hs : s.Nodup) (hfresh : Fresh (kind, p.sourceID) s) :
    Wp (Tracing schedMarks fun _ _ => True) (fun c s => (s ++ schedMarks c).Nodup)
      (fun _ t => Adds (kind, p.sourceID) s t) (recordBackup job runID kind p out rest) s := by
  have hunchanged : Adds (kind, p.sourceID) s s := ⟨hs, fun m hm => .inl hm⟩
  have hparent : Calls (fun c => schedMarks c = []) (parentFor kind p.sourceID job.targetID) :=
    parentFor_calls rfl
  refine (wp_bind _ _ _).mpr (((Ends.of_calls hparent (Q := fun _ => True) fun _ => trivial).traced
    (fun _ => id) hs).post_mono ?_)
  rintro (err | parentID) t ⟨rfl, -⟩
  · exact hunchanged
  refine wp_unmarked rfl hs fun backupID _ => wp_unmarked rfl hs fun createdAt _ => ?_
  dsimp only
  rw [newManifest_written]
  have hman := hfresh.nodup_append hs (m := .manifest (kind, p.sourceID)) rfl
  refine ⟨hman, ?_⟩
  rintro (err | ⟨⟩) u ⟨-, rfl⟩
  · refine ⟨hman, fun m hm => ?_⟩
    rcases List.mem_append.mp hm with hm | hm
    · exact .inl hm
    · exact .inr (by cases List.mem_singleton.mp hm; rfl)
  have hrow : (t ++ [Mark.manifest (kind, p.sourceID)] ++ [Mark.row (kind, p.sourceID)]).Nodup := by
    rw [List.nodup_append]
    refine ⟨hman, List.nodup_singleton _, ?_⟩
    rintro m hm m' hm' rfl
    rw [List.mem_singleton] at hm'
    subst hm'
    rcases List.mem_append.mp hm with hm | hm
    · exact hfresh.not_mem rfl hm
    · cases List.mem_singleton.mp hm
  have hadds : Adds (kind, p.sourceID) t
      (t ++ [Mark.manifest (kind, p.sourceID)] ++ [Mark.row (kind, p.sourceID)]) := by
    refine ⟨hrow, fun m hm => ?_⟩
    simp only [List.mem_append, List.mem_singleton] at hm
    rcases hm with (hm | rfl) | rfl
    · exact .inl hm
    · exact .inr rfl
    · exact .inr rfl
  refine ⟨hrow, ?_⟩
  rintro (err | ⟨⟩) u ⟨-, rfl⟩
  · exact hadds
  · refine ((Ends.of_calls hrest (Q := fun _ => True) fun _ => trivial).traced (fun _ => id)
      hrow).post_mono ?_
    rintro res u ⟨rfl, -⟩
    exact hadds

@[simp] theorem guestMarks_eq_nil {c : Guest.Call} (h : ¬ c.Records) : guestMarks c = [] := by
  unfold guestMarks schedMarks
  split
  · split
    · exact absurd trivial h
    · exact absurd trivial h
    · rfl
  · rfl

theorem retention_unmarked (targetID : String) (policy : RetentionPolicy) (kind : SourceKind)
    (sourceID : String) :
    Calls (fun c => schedMarks c = []) (applyRetention targetID policy kind sourceID) :=
  applyRetention_calls (fun _ => rfl) (fun _ => rfl) (fun _ => rfl) (fun _ => rfl) policy kind sourceID

theorem backupOneVM_adds (job : Job) (runID : String) (p : VmPlan) (before : Stats)
    (hs : s.Nodup) (hfresh : Fresh (.vm, p.sourceID) s) :
    Wp (Tracing guestMarks fun _ _ => True) (fun c s => (s ++ guestMarks c).Nodup)
      (fun _ t => Adds (.vm, p.sourceID) s t) (Guest.backupOneVM job runID p before) s := by
  have hunchanged : Adds (.vm, p.sourceID) s s := ⟨hs, fun m hm => .inl hm⟩
  refine wp_unmarked rfl hs ?_
  rintro (f | ⟨⟩) -
  · exact hunchanged
  refine (wp_bind _ _ _).mpr (((Ends.of_calls (Guest.exported_calls p) (Q := fun _ => True)
    fun _ => trivial).traced (fun _ => guestMarks_eq_nil) hs).post_mono ?_)
  rintro (err | disks) t ⟨rfl, -⟩
  · exact hunchanged
  refine wp_unmarked rfl hs fun after _ => (wp_bind _ _ _).mpr (Wp.lift ?_)
  refine Wp.mono ?_ (fun _ _ => id) (fun _ _ => id) (recordBackup_adds job runID .vm
    (.byWorkers p.sourceID p.name p.sourceID_ne) _ ⟨rfl, ?_⟩ hs hfresh)
  · rintro c s r s' ⟨r', rfl, -, rfl⟩
    exact ⟨trivial, rfl⟩
  · rintro (f | ⟨⟩)
    · trivial
    · exact retention_unmarked _ _ _ _

theorem backupLoop_adds (job : Job) (runID : String) (i : Nat) (plans : List VmPlan)
    (hs : s.Nodup) (hids : (plans.map VmPlan.sourceID).Nodup)
    (hfresh : ∀ p ∈ plans, Fresh (.vm, p.sourceID) s) :
    Wp (Tracing marks Keyed) (fun c s => (s ++ marks c).Nodup) (fun _ t => t.Nodup)
      (backupLoop job runID i plans) s := by
  induction plans generalizing i s with
  | nil => exact hs
  | cons p plans ih =>
    refine wp_unmarked rfl hs ?_
    rintro (- | f) -
    · refine wp_unmarked rfl hs fun before _ => wp_unmarked rfl hs fun _ _ => ?_
      have hone := backupOneVM_adds job runID p before hs (hfresh p List.mem_cons_self)
      refine (wp_bind _ _ _).mpr (Wp.lift (hone.mono ?_ (fun _ _ => id) ?_))
      · rintro c s r s' ⟨r', rfl, -, rfl⟩
        exact ⟨trivial, rfl⟩
      rintro res t ⟨ht, hadds⟩
      refine wp_unmarked rfl ht fun _ _ => ?_
      cases res with
      | some err => exact ht
      | none =>
        rw [List.map_cons, List.nodup_cons] at hids
        refine ih (i + 1) ht hids.2 fun q hq m hm hw => ?_
        rcases hadds m hm with hm | hm
        · exact hfresh q (List.mem_cons_of_mem p hq) m hm hw
        · -- the two sources would share an id
          rw [hm] at hw
          have hsameID : p.sourceID = q.sourceID := congrArg Prod.snd hw
          exact hids.1 (hsameID ▸ List.mem_map_of_mem hq)
    · exact hs

variable {lower : Char → Char} {e : Engine} {j : BackupJob} {runID : String}

def BackupJob.Distinct (j : BackupJob) : Prop :=
  match j.job.kind with
  | .vm => (j.sources.map fun src => (src.hostID, src.vmid)).Nodup
  | .agent => (j.sources.map JobSource.agentID).Nodup

theorem nodup_sourceOf {sources : List JobSource}
    (h : (sources.map fun src => (src.hostID, src.vmid)).Nodup) : (sources.map sourceOf).Nodup := by
  have hcomp : sources.map sourceOf =
      (sources.map fun src => (src.hostID, src.vmid)).map fun k => vmSourceID k.1 k.2 := by
    rw [List.map_map]
    rfl
  rw [hcomp]
  refine h.map fun a b hab => ?_
  obtain ⟨hhost, hvmid⟩ := vmSourceID_injective hab
  exact Prod.ext hhost hvmid

theorem plans_unmarked {c : Call} (h : c.Plans) : marks c = [] := by
  cases c <;> first | rfl | exact absurd h id

theorem planVMJob_distinct (hs : s.Nodup)
    (hdistinct : (j.sources.map fun src => (src.hostID, src.vmid)).Nodup) :
    Wp (Tracing marks Keyed) (fun c s => (s ++ marks c).Nodup)
      (fun res t => t = s ∧ ∀ plans, res = .ok plans → (plans.map VmPlan.sourceID).Nodup)
      (planVMJob lower j) s := by
  have hstart : ∀ sources : List JobSource,
      (sources.map fun src => (src.hostID, src.vmid)).Nodup →
      Wp (Tracing marks Keyed) (fun c s => (s ++ marks c).Nodup)
        (fun res t => t = s ∧ ∀ plans, res = .ok plans → (plans.map VmPlan.sourceID).Nodup)
        (if sources = [] then .ret (.error (.plan .noSources))
          else planLoop lower j.policy sources [] []) s := by
    intro sources hkeys
    split
    · exact ⟨rfl, nofun⟩
    refine ((planLoop_ends j.policy sources [] []).traced (fun _ => plans_unmarked) hs).post_mono ?_
    rintro res t ⟨rfl, hids⟩
    refine ⟨rfl, fun plans hplans => ?_⟩
    rw [hids plans hplans, List.map_nil, List.nil_append]
    exact nodup_sourceOf hkeys
  unfold planVMJob
  dsimp only
  split
  · refine (wp_bind _ _ _).mpr (wp_unmarked rfl hs ?_)
    rintro (f | vms) hkeyed
    · exact ⟨rfl, nofun⟩
    dsimp only
    split
    · exact ⟨rfl, nofun⟩
    refine hstart _ ?_
    have hkeys : (vms.map fun v => (v.hostID, v.vmid)).Nodup := hkeyed
    rw [List.map_map]
    exact List.Nodup.sublist (List.filter_sublist.map _) hkeys
  · exact hstart _ hdistinct

theorem backupVMJob_once (hdistinct : (j.sources.map fun src => (src.hostID, src.vmid)).Nodup) :
    Wp (Tracing marks Keyed) (fun c s => (s ++ marks c).Nodup) (fun _ t => t.Nodup)
      (backupVMJob lower j runID) [] := by
  refine (wp_bind _ _ _).mpr ((planVMJob_distinct List.nodup_nil hdistinct).post_mono ?_)
  rintro (err | plans) t ⟨rfl, hids⟩
  · exact List.nodup_nil
  refine wp_unmarked rfl List.nodup_nil fun _ _ => ?_
  exact backupLoop_adds j.job runID 0 plans List.nodup_nil (hids plans rfl) fun p _ => nofun

theorem recordAgent_once (job : Job) (agentID hostname : String) (hid : agentID ≠ "")
    (disks : List DiskManifest) :
    Wp (Tracing marks Keyed) (fun c s => (s ++ marks c).Nodup) (fun _ t => t.Nodup)
      (recordAgent job runID agentID hostname hid disks) [] := by
  refine wp_unmarked rfl List.nodup_nil fun snapshot _ => ?_
  refine (wp_bind _ _ _).mpr (Wp.lift (Wp.lift (Wp.mono ?_ (fun _ _ => id) ?_
    (recordBackup_adds job runID .agent (.byWorkers agentID hostname hid) _
      (retention_unmarked _ _ _ _) List.nodup_nil nofun))))
  · rintro c s r s' ⟨r', rfl, r'', rfl, -, rfl⟩
    exact ⟨trivial, rfl⟩
  · exact fun res t hadds => hadds.1

theorem backupAgentJob_once :
    Wp (Tracing marks Keyed) (fun c s => (s ++ marks c).Nodup) (fun _ t => t.Nodup)
      (backupAgentJob j runID) [] := by
  unfold backupAgentJob
  split
  · exact List.nodup_nil
  split
  · exact List.nodup_nil
  refine wp_unmarked rfl List.nodup_nil ?_
  rintro (err | agent) -
  · exact List.nodup_nil
  dsimp only
  split
  · exact List.nodup_nil
  split
  · exact List.nodup_nil
  split
  · exact List.nodup_nil
  refine wp_unmarked rfl List.nodup_nil fun _ _ => wp_unmarked rfl List.nodup_nil fun _ _ => ?_
  refine (wp_bind _ _ _).mpr (wp_unmarked rfl List.nodup_nil ?_)
  rintro (f | disks) -
  · exact wp_unmarked rfl List.nodup_nil fun _ _ => List.nodup_nil
  · refine (recordAgent_once _ _ _ _ _).post_mono ?_
    exact fun res t ht => wp_unmarked rfl ht fun _ _ => ht

theorem endAttempt_unmarked (targetID : String) (runErr : Option Err) :
    Calls (fun c => marks c = []) (endAttempt e targetID runErr) := by
  have hgc : Calls (fun c => marks c = []) (sched (onTarget targetID e.gc)) := by
    refine Calls.lift (Calls.lift (onTarget_calls (gc_calls e ?_ (fun _ => rfl) fun _ => rfl)))
    intro c hreads
    cases c <;> first | rfl | exact absurd hreads id
  refine ⟨rfl, fun idle => ?_⟩
  dsimp only
  split
  · trivial
  refine ⟨rfl, ?_⟩
  rintro (- | f)
  · exact hgc.bind fun _ => trivial
  · trivial

theorem backupAttempt_once (hdistinct : j.Distinct) :
    Wp (Tracing marks Keyed) (fun c s => (s ++ marks c).Nodup) (fun _ t => t.Nodup)
      (backupAttempt lower e j runID) [] := by
  refine wp_unmarked rfl List.nodup_nil ?_
  rintro (err | ⟨⟩) -
  · exact List.nodup_nil
  refine wp_unmarked rfl List.nodup_nil fun _ _ => (wp_bind _ _ _).mpr ?_
  have hjob : Wp (Tracing marks Keyed) (fun c s => (s ++ marks c).Nodup) (fun _ t => t.Nodup)
      (backupJob lower j runID) [] := by
    unfold BackupJob.Distinct at hdistinct
    unfold backupJob
    cases hkind : j.job.kind with
    | vm =>
      rw [hkind] at hdistinct
      exact backupVMJob_once hdistinct
    | agent => exact backupAgentJob_once
  refine hjob.post_mono fun res t ht => ?_
  refine ((Ends.of_calls (endAttempt_unmarked _ _) (Q := fun _ => True) fun _ => trivial).traced
    (fun _ => id) ht).post_mono ?_
  rintro res t ⟨rfl, -⟩
  exact ht

theorem executeBackup_once (hretry : j.policy.retryCount = 0)
    (hdistinct : j.Distinct) :
    Wp (Tracing marks Keyed) (fun c s => (s ++ marks c).Nodup) (fun _ t => t.Nodup)
      (executeBackup lower e j runID) [] := by
  have hone : (j.policy.normalized.retryCount + 1).toNat = 1 := by
    rw [retryCount_normalized, hretry]
    rfl
  unfold executeBackup runUnderPolicy
  rw [hone]
  refine (wp_bind _ _ _).mpr ((wp_bind _ _ _).mpr ((backupAttempt_once hdistinct).post_mono ?_))
  have hafter : ∀ (err : Option Err) (t : List Mark), t.Nodup →
      Wp (Tracing marks Keyed) (fun c s => (s ++ marks c).Nodup) (fun _ t => t.Nodup)
        (if j.policy.normalized.maxDurationMinutes > 0 then
          .call .runCtxErr fun ctx =>
            if ctx = some .deadlineExceeded then
              .ret (some (.maxDuration j.policy.normalized.maxDurationMinutes))
            else .ret err
        else .ret err) t := by
    intro err t ht
    split
    · refine wp_unmarked rfl ht fun ctx _ => ?_
      split <;> exact ht
    · exact ht
  rintro (- | err) t ht
  · exact ht
  · refine wp_unmarked rfl ht fun ctx _ => ?_
    by_cases hbreak : ctx ≠ none ∨ err.canceled
    · rw [if_pos hbreak]
      exact hafter _ t ht
    · rw [if_neg hbreak, if_pos rfl]
      exact hafter _ t ht

end Attempt

def acknowledged : (c : Call) → Reply c → Bool
  | .guest (.sched (.createBackup _)), .ok () => true
  | .guest (.sched (.engine _ (.putManifest _ _))), .ok () => true
  | _, _ => false

def effects (log : List (Event × Bool)) : List Mark :=
  (log.filter Prod.snd).flatMap fun x => marks x.1.1

/-- A call that was answered without an error took effect, whatever the others did; and an
inventory has its keys. -/
structure Fair (log : List (Event × Bool)) : Prop where
  took : ∀ x ∈ log, acknowledged x.1.1 x.1.2 = true → x.2 = true
  keyed : ∀ x ∈ log, Keyed x.1.1 x.1.2

def RecordsOnce (lower : Char → Char) (e : Engine) (j : BackupJob) (runID : String) : Prop :=
  ∀ log q, Logs (executeBackup lower e j runID) (log.map Prod.fst) q → Fair log →
    ∀ w, (effects log).count (.row w) ≤ 1 ∧ (effects log).count (.manifest w) ≤ 1

theorem effects_sublist (log : List (Event × Bool)) :
    (effects log).Sublist ((log.map Prod.fst).flatMap fun ev => marks ev.1) := by
  rw [List.flatMap_map]
  exact List.Sublist.flatMap List.filter_sublist _

@[simp] theorem effects_append (log log' : List (Event × Bool)) :
    effects (log ++ log') = effects log ++ effects log' := by
  rw [effects, List.filter_append, List.flatMap_append]
  rfl

section
variable {lower : Char → Char} {e : Engine} {j : BackupJob} {runID : String}

theorem recordsOnce_of_noRetries (hdistinct : j.Distinct) (hretry : j.policy.retryCount = 0) :
    RecordsOnce lower e j runID := by
  intro log q hlog hfair w
  have hmarks := (executeBackup_once hretry hdistinct).traced List.nodup_nil ?_ hlog
  · rw [List.nil_append] at hmarks
    have hnodup := hmarks.sublist (effects_sublist log)
    exact ⟨List.nodup_iff_count_le_one.mp hnodup _, List.nodup_iff_count_le_one.mp hnodup _⟩
  · intro ev hev
    obtain ⟨x, hx, rfl⟩ := List.mem_map.mp hev
    exact hfair.keyed x hx

def acked (log : List Event) : List (Event × Bool) :=
  log.map fun ev => (ev, acknowledged ev.1 ev.2)

@[grind =] theorem map_fst_acked (log : List Event) : (acked log).map Prod.fst = log := by
  rw [acked, List.map_map]
  exact List.map_id log

@[simp] theorem acked_append (log log' : List Event) : acked (log ++ log') = acked log ++ acked log' :=
  List.map_append

theorem acked_fair {log : List Event} (h : ∀ ev ∈ log, Keyed ev.1 ev.2) : Fair (acked log) := by
  constructor
  · intro x hx hack
    obtain ⟨ev, -, rfl⟩ := List.mem_map.mp hx
    exact hack
  · intro x hx
    obtain ⟨ev, hev, rfl⟩ := List.mem_map.mp hx
    exact h ev hev

theorem keyed_of_ne {ev : Event} (h : ev.1 ≠ .listCachedVMs) : Keyed ev.1 ev.2 := by
  obtain ⟨c, r⟩ := ev
  cases c <;> trivial

theorem tryLoop_again {delay : Int} {attempt : ExecM (Option Err)} {n : Nat} {err : Err}
    {log log' : List Event} {q : ExecM (Option (Option Err))}
    (hlog : Logs attempt log (.ret (some err))) (hcanceled : err.canceled = false)
    (hrest : Logs (tryLoop delay attempt (n + 1)) log' q) :
    Logs (tryLoop delay attempt (n + 2))
      (log ++ ⟨.runCtxErr, none⟩ :: ⟨.retryWait delay, none⟩ :: log') q := by
  refine (hlog.bind _).trans (.cons _ ?_)
  rw [if_neg (by simp [hcanceled]), if_neg (by omega)]
  exact .cons _ hrest

theorem twice_of_failed (hretry : 1 ≤ j.policy.retryCount) {log : List Event} {err : Err}
    (hlog : Logs (backupAttempt lower e j runID) log (.ret (some err))) (hcanceled : err.canceled = false)
    (hkeyed : ∀ ev ∈ log, Keyed ev.1 ev.2) {w : Workload}
    (hman : 1 ≤ (effects (acked log)).count (.manifest w)) : ¬ RecordsOnce lower e j runID := by
  intro honce
  obtain ⟨n, hn⟩ : ∃ n, (j.policy.normalized.retryCount + 1).toNat = n + 2 := by
    rw [retryCount_normalized]
    exact ⟨(j.policy.retryCount - 1).toNat, by omega⟩
  let delay := j.policy.normalized.retryDelayMinutes
  have htwice : ∃ q, Logs (executeBackup lower e j runID)
      (log ++ ⟨.runCtxErr, none⟩ :: ⟨.retryWait delay, none⟩ :: log) q := by
    unfold executeBackup runUnderPolicy
    rw [hn]
    exact ⟨_, (tryLoop_again hlog hcanceled (hlog.bind _)).bind _⟩
  obtain ⟨q, hq⟩ := htwice
  have hfair : Fair (acked (log ++ ⟨.runCtxErr, none⟩ :: ⟨.retryWait delay, none⟩ :: log)) := by
    refine acked_fair fun ev hev => ?_
    simp only [List.mem_append, List.mem_cons] at hev
    rcases hev with hev | rfl | rfl | hev
    · exact hkeyed ev hev
    · trivial
    · trivial
    · exact hkeyed ev hev
  have hcount := (honce _ q (by rwa [map_fst_acked]) hfair w).2
  have htotal : (effects (acked (log ++ ⟨.runCtxErr, none⟩ :: ⟨.retryWait delay, none⟩ :: log))).count
      (.manifest w) = (effects (acked log)).count (.manifest w) +
        (effects (acked log)).count (.manifest w) := by
    rw [acked_append, effects_append, List.count_append]
    rfl
  omega

end

end ProxBack.Sched.Execute
