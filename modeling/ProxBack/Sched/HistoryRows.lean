import ProxBack.Api.Coverage
import ProxBack.Sched.History

/-! A row of the breakdown of a run ends in success only when its source has a restore point. -/
namespace ProxBack.Sched.Execute.History
open Lib Text Prog Engine
open Store (RunStatus Backup)
open Guest (VmPlan)

/-- The rows that the run has planned, and the workloads it has a restore point of. -/
abbrev Account := List PlannedSource × Set Workload

def Plans (c : Call) : Option (List PlannedSource) :=
  match c with
  | .planSources rows => some rows
  | _ => none

def Accounts (c : Call) (s : Account) (r : Reply c) (t : Account) : Prop :=
  t.1 = (Plans c).getD s.1 ∧ Growing Tells c s.2 r t.2

def Backed (c : Call) (s : Account) : Prop :=
  ∀ seq, c = .finishSource seq .success → ∀ x ∈ s.1, x.seq = seq → (x.kind, x.sourceID) ∈ s.2

def Plain : Call → Prop
  | .planSources _ | .finishSource _ _ => False
  | _ => True

section
variable {lower : Char → Char} {e : Engine} {j : BackupJob} {runID : String} {α : Type}

theorem backed_plain {c : Call} (h : Plain c) (s : Account) : Backed c s := by
  rintro seq rfl
  exact absurd h id

theorem accounts_plain {c : Call} (h : Plain c) {s t : Account} {r : Reply c}
    (hacc : Accounts c s r t) : t.1 = s.1 ∧ Growing Tells c s.2 r t.2 := by
  refine ⟨hacc.1.trans ?_, hacc.2⟩
  cases c <;> first | rfl | exact absurd h id

theorem wp_plain {p : ExecM α} (hcalls : Calls Plain p) {post : α → Set Workload → Prop}
    {rows : List PlannedSource} {s : Set Workload}
    (h : Wp (Growing Tells) (fun _ _ => True) post p s) :
    Wp Accounts Backed (fun x t => t.1 = rows ∧ post x t.2) p (rows, s) := by
  refine Wp.frame ?_ ?_ hcalls h
  · exact fun c hc s r t hacc => accounts_plain hc hacc
  · exact fun c hc s _ => backed_plain hc _

theorem wp_plainCall {c : Call} {k : Reply c → ExecM α} (hc : Plain c)
    {post : α → Account → Prop} {rows : List PlannedSource} {s : Set Workload}
    (h : ∀ r s', Wp Accounts Backed post (k r) (rows, s')) :
    Wp Accounts Backed post (.call c k) (rows, s) := by
  refine ⟨backed_plain hc _, ?_⟩
  rintro r ⟨rows', s'⟩ hacc
  obtain ⟨hrows, -⟩ := accounts_plain hc hacc
  cases hrows
  exact h r s'

theorem plain_wp {p : ExecM α} (hcalls : Calls Plain p) (s : Account) :
    Wp Accounts Backed (fun _ _ => True) p s :=
  (hcalls.wp s).mono (fun _ _ _ _ => id) (fun _ s hc => backed_plain hc s) fun _ _ => id

theorem guest_plain (p : Guest.GuestM α) : Calls Plain (guest p) :=
  Calls.lift ((calls_true p).mono fun _ _ => trivial)

theorem backupLoop_backed (job : Job) (all : List VmPlan) (i : Nat) (plans : List VmPlan)
    (hplans : all.drop i = plans) (s : Set Workload) :
    Wp Accounts Backed (fun _ _ => True) (backupLoop job runID i plans) (plannedRows all, s) := by
  induction plans generalizing i s with
  | nil => trivial
  | cons p plans ih =>
    have hi : all[i]? = some p := by
      rw [← List.head?_drop, hplans]
      rfl
    refine wp_plainCall (by trivial) ?_
    rintro (- | f) s₁
    swap
    · trivial
    refine wp_plainCall (by trivial) fun before s₂ => wp_plainCall (by trivial) fun _ s₃ => ?_
    refine (wp_bind _ _ _).mpr ((wp_plain (guest_plain _)
      (wp_backupOneVM job runID p before)).post_mono ?_)
    rintro res ⟨rows, s₄⟩ ⟨hrows, hone⟩
    cases hrows
    refine ⟨?_, ?_⟩
    · -- the row is that of the plan the loop is at
      rintro seq heq x hx hseq
      have hres : res = none := by
        cases res with
        | none => rfl
        | some err =>
          unfold sourceOutcome at heq
          dsimp only [Option.map_some] at heq
          split at heq <;> cases heq
      subst hres
      cases heq
      obtain ⟨k, hk, rfl⟩ := List.mem_mapIdx.mp hx
      have hk' : k = i := hseq
      subst hk'
      rw [List.getElem?_eq_getElem hk] at hi
      cases hi
      exact hone rfl
    · rintro _ ⟨rows, s₅⟩ hfinish
      have hrows : rows = plannedRows all := hfinish.1
      subst hrows
      cases res with
      | some err => trivial
      | none =>
        refine ih (i + 1) ?_ s₅
        rw [← List.drop_drop, hplans]
        rfl

theorem planVMJob_plain : Calls Plain (planVMJob lower j) :=
  planVMJob_calls trivial fun c hc => by cases c <;> trivial

theorem backupVMJob_backed (s : Account) :
    Wp Accounts Backed (fun _ _ => True) (backupVMJob lower j runID) s := by
  refine (wp_bind _ _ _).mpr ((plain_wp planVMJob_plain s).post_mono ?_)
  rintro (err | plans) ⟨rows, s⟩ -
  · trivial
  · refine ⟨fun seq heq => (nomatch heq), ?_⟩
    rintro _ ⟨rows', s'⟩ hplan
    have hrows : rows' = plannedRows plans := hplan.1
    subst hrows
    exact backupLoop_backed j.job plans 0 plans rfl s'

theorem backupAgent_plain (job : Job) (agentID hostname : String) (hid : agentID ≠ "")
    (paths : List String) : Calls Plain (backupAgent job runID agentID hostname hid paths) := by
  refine ⟨trivial, ?_⟩
  rintro (f | disks)
  · trivial
  · exact ⟨trivial, fun _ => (guest_plain _).bind fun _ => trivial⟩

theorem backupAgentJob_backed (s : Account) :
    Wp Accounts Backed (fun _ _ => True) (backupAgentJob j runID) s := by
  unfold backupAgentJob
  cases j.sources with
  | nil => trivial
  | cons src rest =>
    dsimp only
    split
    · trivial
    rename_i hid
    refine wp_plainCall (by trivial) ?_
    rintro (err | agent) s₁
    · trivial
    dsimp only
    split
    · trivial
    split
    · trivial
    split
    · trivial
    refine ⟨fun _ heq => (by cases heq), ?_⟩
    rintro _ ⟨rows, s₂⟩ hplan
    have hrows : rows = [⟨0, .agent, src.agentID⟩] := hplan.1
    subst hrows
    refine wp_plainCall (by trivial) fun _ s₃ => ?_
    refine (wp_bind _ _ _).mpr ((wp_plain (backupAgent_plain _ _ _ hid _)
      (wp_backupAgent j.job runID src.agentID agent.hostname hid src.paths)).post_mono ?_)
    rintro res ⟨rows, s₄⟩ ⟨hrows, hone⟩
    cases hrows
    refine ⟨?_, fun _ _ _ => trivial⟩
    rintro seq heq x hx -
    cases List.mem_singleton.mp hx
    have hres : res = none := by
      cases res with
      | none => rfl
      | some err =>
        unfold sourceOutcome at heq
        dsimp only at heq
        split at heq <;> cases heq
    exact hone hres

theorem endAttempt_plain (targetID : String) (runErr : Option Err) :
    Calls Plain (endAttempt e targetID runErr) := by
  refine ⟨trivial, fun idle => ?_⟩
  dsimp only
  split
  · trivial
  refine ⟨trivial, ?_⟩
  rintro (- | f)
  · exact (guest_plain _).bind fun _ => trivial
  · trivial

theorem backupAttempt_backed (s : Account) :
    Wp Accounts Backed (fun _ _ => True) (backupAttempt lower e j runID) s := by
  refine wp_plainCall (by trivial) ?_
  rintro (err | ⟨⟩) s₁
  · trivial
  refine wp_plainCall (by trivial) fun _ s₂ => (wp_bind _ _ _).mpr ?_
  have hjob : Wp Accounts Backed (fun _ _ => True) (backupJob lower j runID) (s.1, s₂) := by
    unfold backupJob
    split
    · exact backupVMJob_backed _
    · exact backupAgentJob_backed _
  exact hjob.post_mono fun res t _ => plain_wp (endAttempt_plain _ _) t

theorem tryLoop_backed (delay : Int) (n : Nat) (s : Account) :
    Wp Accounts Backed (fun _ _ => True) (tryLoop delay (backupAttempt lower e j runID) n) s := by
  induction n generalizing s with
  | zero => trivial
  | succ n ih =>
    refine (wp_bind _ _ _).mpr ((backupAttempt_backed s).post_mono ?_)
    rintro (- | err) t -
    · trivial
    refine wp_plainCall (by trivial) fun ctx t₁ => ?_
    split
    · trivial
    split
    · trivial
    refine wp_plainCall (by trivial) ?_
    rintro (- | f) t₂
    · exact ih _
    · trivial

theorem executeBackup_backed (lower : Char → Char) (e : Engine) (j : BackupJob) (runID : String)
    (s : Account) : Wp Accounts Backed (fun _ _ => True) (executeBackup lower e j runID) s := by
  refine (wp_bind _ _ _).mpr ((tryLoop_backed _ _ s).post_mono ?_)
  rintro (- | err) t -
  · trivial
  dsimp only
  split
  · refine wp_plainCall (by trivial) fun ctx t₁ => ?_
    split <;> trivial
  · trivial

end

end ProxBack.Sched.Execute.History
