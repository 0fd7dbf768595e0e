import ProxBack.Store.Periods
import ProxBack.Store.RetentionRule

/-! What the evaluation keeps, told by the calendar. -/
namespace ProxBack.Store
open Lib ChoiceRule
open Engine (Time)

def periods (points : List RetentionPoint) (ρ : Reason) : Finset Int :=
  (points.map fun p => period p.createdAt ρ).toFinset

/-- A point is among the newest so many, or it is the newest of its period, and the period is
among the latest so many that have a point. -/
def Keeps (policy : RetentionPolicy) (points : List RetentionPoint) (p : RetentionPoint) : Reason → Prop
  | .last => p ∈ points ∧ ((points.filter fun q => newer q p).length : Int) < policy.keepLast
  | ρ => p ∈ points ∧
    (∀ q ∈ points, period q.createdAt ρ = period p.createdAt ρ → ¬ newer q p) ∧
    (((periods points ρ).filter fun n => period p.createdAt ρ < n).card : Int) < policy.keep ρ

variable {policy : RetentionPolicy} {points : List RetentionPoint} {p : RetentionPoint} {ρ : Reason}

@[grind =] theorem mem_last (hids : (points.map RetentionPoint.id).Nodup) :
    p ∈ (rule policy .last).pick points.toFinset ↔ Keeps policy points p .last := by
  have habove : groupsAbove (fun p : RetentionPoint => p) points.toFinset p =
      (points.filter fun q => newer q p).toFinset := by
    ext q
    rw [mem_groupsAbove, List.mem_toFinset, List.mem_filter, newer_iff]
    constructor
    · rintro ⟨q, hq, hlt, rfl⟩
      exact ⟨List.mem_toFinset.mp hq, hlt⟩
    · rintro ⟨hq, hlt⟩
      exact ⟨q, List.mem_toFinset.mpr hq, hlt, rfl⟩
  have hnodup : (points.filter fun q => newer q p).Nodup := (List.Nodup.of_map _ hids).filter _
  have hcard := List.toFinset_card_of_nodup hnodup
  have hself : p ∉ groupsAbove (fun p : RetentionPoint => p) points.toFinset p := by
    intro hmem
    obtain ⟨q, -, hlt, rfl⟩ := mem_groupsAbove.mp hmem
    exact lt_irrefl q hlt
  have hpick : p ∈ (rule policy .last).pick points.toFinset ↔
      p ∈ points.toFinset ∧ p ∉ groupsAbove (fun p : RetentionPoint => p) points.toFinset p ∧
        (groupsAbove (fun p : RetentionPoint => p) points.toFinset p).card < policy.keepLast.toNat :=
    mem_firsts
  rw [hpick, habove, hcard, List.mem_toFinset]
  rw [habove] at hself
  constructor
  · rintro ⟨hmem, -, hlt⟩
    exact ⟨hmem, by omega⟩
  · rintro ⟨hmem, hlt⟩
    exact ⟨hmem, hself, by omega⟩

theorem createdAt_mono {p q : RetentionPoint} (h : p ≤ q) : p.createdAt ≤ q.createdAt := by
  have hle : p.createdAt < q.createdAt ∨ p.createdAt = q.createdAt ∧ p.id ≤ q.id := Prod.Lex.toLex_le_toLex.mp h
  rcases hle with hlt | ⟨heq, -⟩
  · exact hlt.le
  · exact heq.le

theorem card_groupsAbove (hρ : ρ ≠ .last)
    (hnewest : ∀ q ∈ points, period q.createdAt ρ = period p.createdAt ρ → ¬ newer q p) :
    (groupsAbove (fun p : RetentionPoint => bucketKey p.createdAt ρ) points.toFinset p).card =
      ((periods points ρ).filter fun n => period p.createdAt ρ < n).card := by
  have hkeys : ∀ b c : RetentionPoint, bucketKey b.createdAt ρ = bucketKey c.createdAt ρ ↔
      period b.createdAt ρ = period c.createdAt ρ := fun b c => bucketKey_eq_iff hρ _ _
  rw [card_groupsAbove_congr hkeys]
  congr 1
  ext n
  rw [mem_groupsAbove, Finset.mem_filter, periods, List.mem_toFinset, List.mem_map]
  constructor
  · rintro ⟨q, hq, hlt, rfl⟩
    have hmem := List.mem_toFinset.mp hq
    have hle := period_mono (createdAt_mono hlt.le) ρ
    have hne := fun heq => hnewest q hmem heq (newer_iff.mpr hlt)
    exact ⟨⟨q, hmem, rfl⟩, lt_of_le_of_ne hle (Ne.symm hne)⟩
  · rintro ⟨⟨q, hq, rfl⟩, hlt⟩
    refine ⟨q, List.mem_toFinset.mpr hq, not_le.mp fun hle => ?_, rfl⟩
    exact absurd hlt (not_lt_of_ge (period_mono (createdAt_mono hle) ρ))

theorem mem_rule (hids : (points.map RetentionPoint.id).Nodup) (ρ : Reason) :
    p ∈ (rule policy ρ).pick points.toFinset ↔ Keeps policy points p ρ := by
  by_cases hlast : ρ = .last
  · subst hlast
    exact mem_last hids
  have hpick : p ∈ (rule policy ρ).pick points.toFinset ↔ p ∈ points.toFinset ∧
      bucketKey p.createdAt ρ ∉ groupsAbove (fun p : RetentionPoint => bucketKey p.createdAt ρ)
        points.toFinset p ∧
      (groupsAbove (fun p : RetentionPoint => bucketKey p.createdAt ρ) points.toFinset p).card <
        (policy.keep ρ).toNat := by
    cases ρ with
    | last => exact absurd rfl hlast
    | _ => exact mem_firsts
  have hkeeps : Keeps policy points p ρ ↔ p ∈ points ∧
      (∀ q ∈ points, period q.createdAt ρ = period p.createdAt ρ → ¬ newer q p) ∧
      (((periods points ρ).filter fun n => period p.createdAt ρ < n).card : Int) < policy.keep ρ := by
    cases ρ with
    | last => exact absurd rfl hlast
    | _ => exact Iff.rfl
  have hnewest : bucketKey p.createdAt ρ ∉ groupsAbove
        (fun p : RetentionPoint => bucketKey p.createdAt ρ) points.toFinset p ↔
      ∀ q ∈ points, period q.createdAt ρ = period p.createdAt ρ → ¬ newer q p := by
    rw [mem_groupsAbove]
    constructor
    · intro hnone q hq heq hnewer
      exact hnone ⟨q, List.mem_toFinset.mpr hq, newer_iff.mp hnewer, (bucketKey_eq_iff hlast _ _).mpr heq⟩
    · rintro hall ⟨q, hq, hlt, heq⟩
      exact hall q (List.mem_toFinset.mp hq) ((bucketKey_eq_iff hlast _ _).mp heq) (newer_iff.mpr hlt)
  rw [hpick, hkeeps, hnewest, List.mem_toFinset]
  refine and_congr_right fun _ => and_congr_right fun hall => ?_
  rw [card_groupsAbove hlast hall]
  omega

theorem mem_reasons (hids : (points.map RetentionPoint.id).Nodup) {d : RetentionDecision}
    (hd : d ∈ (evaluateRetention points policy).keeps) :
    d.reasons.Sublist RetentionPolicy.order ∧ ∀ ρ, ρ ∈ d.reasons ↔ Keeps policy points d.point ρ := by
  rw [evaluateRetention, decidePoints_keeps] at hd
  obtain ⟨p, hp, rfl⟩ := List.mem_map.mp hd
  have hmem : p ∈ points := (sortPoints_perm points).mem_iff.mp (List.mem_filter.mp hp).1
  refine ⟨List.filter_sublist, fun ρ => ?_⟩
  have horder : ρ ∈ RetentionPolicy.order := by cases ρ <;> decide
  rw [List.mem_filter, and_iff_right horder, decide_eq_true_iff, mem_collectReasons_iff hids hmem]
  exact mem_rule hids ρ

theorem keeps_append_prunes (points : List RetentionPoint) (policy : RetentionPolicy) :
    (((evaluateRetention points policy).keeps ++ (evaluateRetention points policy).prunes).map
      RetentionDecision.point).Perm points := by
  have hprunes : (evaluateRetention points policy).prunes.map RetentionDecision.point =
      (sortPoints points).filter fun p =>
        !decide (collectReasons policy (sortPoints points) p.id ≠ []) := by
    rw [evaluateRetention, decidePoints_prunes, List.map_map]
    refine (List.map_id _).trans (List.filter_congr fun p _ => ?_)
    rw [← decide_not, decide_eq_decide, not_not]
  have hkeeps := kept_eq points policy
  rw [RetentionPlan.kept] at hkeeps
  rw [List.map_append, hkeeps, hprunes]
  exact (List.filter_append_perm _ _).trans (sortPoints_perm points)

/-- The plan is a partition of the points, whatever their order; a point is kept exactly where one
of the rules keeps it, for these reasons; and something is kept where anything can be. -/
theorem evaluateRetention_spec (points : List RetentionPoint) (policy : RetentionPolicy)
    (hids : (points.map RetentionPoint.id).Nodup) :
    (((evaluateRetention points policy).keeps ++ (evaluateRetention points policy).prunes).map
      RetentionDecision.point).Perm points ∧
    (∀ points', points.Perm points' →
      evaluateRetention points' policy = evaluateRetention points policy) ∧
    (∀ p, p ∈ (evaluateRetention points policy).keeps.map RetentionDecision.point ↔
      ∃ ρ, Keeps policy points p ρ) ∧
    (∀ d ∈ (evaluateRetention points policy).keeps, d.reasons.Sublist RetentionPolicy.order ∧
      ∀ ρ, ρ ∈ d.reasons ↔ Keeps policy points d.point ρ) ∧
    ((∃ ρ, 0 < policy.keep ρ) → points ≠ [] → (evaluateRetention points policy).keeps ≠ []) := by
  refine ⟨keeps_append_prunes points policy, fun points' hperm => (evaluateRetention_perm hperm hids).symm,
    fun p => ?_, fun d hd => mem_reasons hids hd, ?_⟩
  · exact (mem_kept hids).trans ((mem_join _).trans (exists_congr fun ρ => mem_rule hids ρ))
  · rintro ⟨ρ, hpos⟩ hne hnil
    rcases (keeps_eq_nil_iff hids).mp hnil with hempty | hle
    · exact hne hempty
    · exact absurd (hle ρ) (not_le.mpr hpos)

def newYearsWeek : Time := 739249 * nanosecondsPerDay

def weekPoints : List RetentionPoint :=
  [⟨"a", newYearsWeek⟩, ⟨"c", newYearsWeek + 3 * nanosecondsPerDay⟩,
    ⟨"b", newYearsWeek + 3 * nanosecondsPerDay⟩]

theorem evaluateRetention_spec_weekly :
    evaluateRetention weekPoints ⟨0, 0, 2, 0, 0⟩ =
      ⟨[⟨"c", newYearsWeek + 3 * nanosecondsPerDay, [.weekly]⟩],
        [⟨"b", newYearsWeek + 3 * nanosecondsPerDay, []⟩, ⟨"a", newYearsWeek, []⟩]⟩ ∧
    ∀ p, p ∈ (evaluateRetention weekPoints ⟨0, 0, 2, 0, 0⟩).keeps.map RetentionDecision.point ↔
      ∃ ρ, Keeps ⟨0, 0, 2, 0, 0⟩ weekPoints p ρ :=
  ⟨by decide +kernel, (evaluateRetention_spec weekPoints ⟨0, 0, 2, 0, 0⟩ (by decide)).2.2.1⟩

end ProxBack.Store
