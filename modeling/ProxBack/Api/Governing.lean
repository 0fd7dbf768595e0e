import Mathlib
import ProxBack.Api.Posture

/-! The governing job is a least element of one linear order, so the order of the rows cannot show
in what it promises. -/
namespace ProxBack.Api
open Store
open Engine (Time)

theorem argmin_key_perm [LinearOrder β] (f : α → β) {l l' : List α} (h : l.Perm l') :
    (l.argmin f).map f = (l'.argmin f).map f := by
  cases hm : l.argmin f with
  | none =>
    rw [List.argmin_eq_none] at hm
    subst hm
    rw [List.nil_perm.mp h]
    rfl
  | some m =>
    cases hm' : l'.argmin f with
    | none =>
      rw [List.argmin_eq_none] at hm'
      subst hm'
      rw [List.perm_nil.mp h] at hm
      contradiction
    | some m' =>
      have hmem : m ∈ l := List.argmin_mem hm
      have hmem' : m' ∈ l' := List.argmin_mem hm'
      have hle : f m ≤ f m' := List.le_of_mem_argmin (h.mem_iff.mpr hmem') hm
      have hge : f m' ≤ f m := List.le_of_mem_argmin (h.mem_iff.mp hmem) hm'
      exact congrArg some (le_antisymm hle hge)

/-- What a job promises: no objective is later than every objective, and the name is looked at
last. -/
def promise (rpo : Option Time) (name : String) : WithTop Time ×ₗ String :=
  toLex (rpo.elim ⊤ fun r => (r : WithTop Time), name)

@[simp] theorem moreProtective_iff (rpo : Option Time) (name : String) (bestRPO : Option Time)
    (bestName : String) :
    moreProtective rpo name bestRPO bestName = true ↔
      promise rpo name < promise bestRPO bestName := by
  unfold promise
  rw [Prod.Lex.toLex_lt_toLex]
  cases rpo with
  | none =>
    cases bestRPO with
    | none => simp [moreProtective]
    | some b => simp [moreProtective]
  | some r =>
    cases bestRPO with
    | none => simp [moreProtective]
    | some b =>
      by_cases hrb : r = b
      · simp [moreProtective, hrb]
      · simp [moreProtective, hrb]

theorem promise_inj {rpo rpo' : Option Time} {name name' : String}
    (h : promise rpo name = promise rpo' name') : rpo = rpo' ∧ name = name' := by
  have hpair := Prod.ext_iff.mp (toLex.injective h)
  refine ⟨?_, hpair.2⟩
  cases rpo with
  | none =>
    cases rpo' with
    | none => rfl
    | some b => exact absurd hpair.1 WithTop.top_ne_coe
  | some r =>
    cases rpo' with
    | none => exact absurd hpair.1 WithTop.coe_ne_top
    | some b => exact congrArg some (WithTop.coe_injective hpair.1)

namespace PostureJob

def promise (j : PostureJob) : WithTop Time ×ₗ String := Api.promise j.schedule.rpo j.job.name

end PostureJob

/-- One turn of the loop of `governingJob` on a job that counts. -/
def better (best : Option PostureJob) (j : PostureJob) : Option PostureJob :=
  match best with
  | none => some j
  | some b =>
    if moreProtective j.schedule.rpo j.job.name b.schedule.rpo b.job.name then some j else best

theorem better_eq (best : Option PostureJob) (j : PostureJob) :
    better best j = List.argAux (fun b c => b.promise < c.promise) best j := by
  cases best with
  | none => rfl
  | some b =>
    unfold better List.argAux
    dsimp only
    congr 1
    exact propext (moreProtective_iff _ _ _ _)

def candidate (member : PostureJob → Bool) (j : PostureJob) : Bool := j.enabled && member j

@[simp] theorem candidate_iff {member : PostureJob → Bool} {j : PostureJob} :
    candidate member j = true ↔ j.enabled = true ∧ member j = true := Bool.and_eq_true _ _ ▸ Iff.rfl

theorem governingJob_eq (jobs : List PostureJob) (member : PostureJob → Bool) :
    governingJob jobs member = (jobs.filter (candidate member)).argmin PostureJob.promise := by
  have hloop : ∀ best, jobs.foldl (fun best j =>
      if ¬ j.enabled ∨ ¬ member j then best else better best j) best =
      (jobs.filter (candidate member)).foldl
        (List.argAux fun b c => b.promise < c.promise) best := by
    induction jobs with
    | nil => exact fun best => rfl
    | cons j rest ih =>
      intro best
      rw [List.foldl_cons, ih]
      by_cases hj : candidate member j = true
      · have hno : ¬ (¬ j.enabled ∨ ¬ member j) := by
          have h := candidate_iff.mp hj
          tauto
        rw [if_neg hno, List.filter_cons_of_pos hj, List.foldl_cons, better_eq]
      · have hyes : ¬ j.enabled ∨ ¬ member j := by
          have h := mt candidate_iff.mpr hj
          tauto
        rw [if_pos hyes, List.filter_cons_of_neg hj]
  exact hloop none

theorem promise_le_iff {g j : PostureJob} :
    g.promise ≤ j.promise ↔
      (g.schedule.rpo = none → j.schedule.rpo = none) ∧
      (∀ b ∈ g.schedule.rpo, ∀ r ∈ j.schedule.rpo, b ≤ r) ∧
      (j.schedule.rpo = g.schedule.rpo → g.job.name ≤ j.job.name) := by
  unfold PostureJob.promise promise
  rw [Prod.Lex.toLex_le_toLex]
  cases g.schedule.rpo with
  | none =>
    cases j.schedule.rpo with
    | none => simp
    | some r => simp
  | some b =>
    cases j.schedule.rpo with
    | none => simp
    | some r =>
      simp only [Option.elim_some, WithTop.coe_lt_coe, WithTop.coe_inj, Option.mem_some_iff,
        forall_eq', Option.some.injEq]
      constructor
      · rintro (hlt | ⟨heq, hname⟩)
        · exact ⟨nofun, hlt.le, fun h => absurd h.symm hlt.ne⟩
        · exact ⟨nofun, heq.le, fun _ => hname⟩
      · rintro ⟨-, hle, hname⟩
        rcases hle.lt_or_eq with hlt | heq
        · exact .inl hlt
        · exact .inr ⟨heq, hname heq.symm⟩

theorem governingJob_mem {jobs : List PostureJob} {member : PostureJob → Bool} {g : PostureJob}
    (h : governingJob jobs member = some g) :
    g ∈ jobs ∧ g.enabled = true ∧ member g = true := by
  rw [governingJob_eq] at h
  have hmem := List.mem_filter.mp (List.argmin_mem h)
  exact ⟨hmem.1, candidate_iff.mp hmem.2⟩

theorem governingJob_le {jobs : List PostureJob} {member : PostureJob → Bool} {g j : PostureJob}
    (h : governingJob jobs member = some g) (hj : j ∈ jobs) (he : j.enabled = true)
    (hm : member j = true) : g.promise ≤ j.promise := by
  rw [governingJob_eq] at h
  exact List.le_of_mem_argmin (List.mem_filter.mpr ⟨hj, candidate_iff.mpr ⟨he, hm⟩⟩) h

@[simp] theorem governingJob_eq_none {jobs : List PostureJob} {member : PostureJob → Bool} :
    governingJob jobs member = none ↔ ¬ ∃ j ∈ jobs, j.enabled = true ∧ member j = true := by
  rw [governingJob_eq, List.argmin_eq_none, List.filter_eq_nil_iff]
  constructor
  · rintro h ⟨j, hj, hc⟩
    exact h j hj (candidate_iff.mpr hc)
  · intro h j hj hc
    exact h ⟨j, hj, candidate_iff.mp hc⟩

/-- Whatever the order of the rows, the governing job has one name and one objective; no candidate
is tighter, or as tight with a smaller name; and there is one whenever there is a candidate. -/
theorem governing_by_promise {jobs jobs' : List PostureJob} (member : PostureJob → Bool)
    (h : jobs.Perm jobs') :
    (governingJob jobs member).map (fun g => (g.job.name, g.schedule.rpo)) =
        (governingJob jobs' member).map (fun g => (g.job.name, g.schedule.rpo)) ∧
      (∀ g, governingJob jobs member = some g →
        (g ∈ jobs ∧ g.enabled = true ∧ member g = true) ∧
        ∀ j ∈ jobs, j.enabled = true → member j = true →
          (g.schedule.rpo = none → j.schedule.rpo = none) ∧
          (∀ b ∈ g.schedule.rpo, ∀ r ∈ j.schedule.rpo, b ≤ r) ∧
          (j.schedule.rpo = g.schedule.rpo → g.job.name ≤ j.job.name)) ∧
      (governingJob jobs member = none ↔
        ¬ ∃ j ∈ jobs, j.enabled = true ∧ member j = true) := by
  refine ⟨?_, fun g hg => ⟨governingJob_mem hg, fun j hj he hm => ?_⟩, governingJob_eq_none⟩
  · have hkey := argmin_key_perm PostureJob.promise (h.filter (candidate member))
    rw [← governingJob_eq, ← governingJob_eq] at hkey
    cases hg : governingJob jobs member with
    | none =>
      rw [hg] at hkey
      rw [Option.map_eq_none_iff.mp hkey.symm]
    | some g =>
      rw [hg] at hkey
      obtain ⟨g', hg', heq⟩ := Option.map_eq_some_iff.mp hkey.symm
      obtain ⟨hrpo, hname⟩ := promise_inj heq
      rw [hg', Option.map_some, Option.map_some, hrpo, hname]
  · exact promise_le_iff.mp (governingJob_le hg hj he hm)

def guestJob (name : String) (schedule : Schedule) : PostureJob where
  job := ⟨name, name, .vm, "t1", ⟨7, 0, 0, 0, 0⟩⟩
  sources := [⟨"pve1", 101, "web", "", []⟩]
  tagFilter := ""
  policy := ⟨[], 0, 0, 0⟩
  enabled := true
  schedule

theorem governing_by_promise_swapped :
    (governingJob [guestJob "daily" ⟨.daily, 0, "02:00", [], 0, ""⟩,
      guestJob "asked" .manual] fun _ => true).map (fun g => (g.job.name, g.schedule.rpo)) =
    (governingJob [guestJob "asked" .manual,
      guestJob "daily" ⟨.daily, 0, "02:00", [], 0, ""⟩] fun _ => true).map
        fun g => (g.job.name, g.schedule.rpo) :=
  (governing_by_promise (fun _ => true) (List.Perm.swap _ _ [])).1

end ProxBack.Api
