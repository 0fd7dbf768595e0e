import ProxBack.Store.Retention
import ProxBack.Lib.Choice
import Mathlib.Data.Prod.Lex
import Mathlib.Data.String.Basic

/-! What retention is for: each rule is a choice rule on the set of restore points, and
the evaluation keeps what their union picks. -/
namespace ProxBack.Store
open Lib ChoiceRule

theorem RetentionPoint.age_injective :
    Function.Injective fun p : RetentionPoint => toLex (p.createdAt, p.id) := by
  intro p q h
  have hpair : (p.createdAt, p.id) = (q.createdAt, q.id) := toLex.injective h
  cases p
  cases q
  cases hpair
  rfl

instance : LinearOrder RetentionPoint := LinearOrder.lift' _ RetentionPoint.age_injective

@[simp] theorem newer_iff {a b : RetentionPoint} : newer a b = true ↔ b < a := by
  have hlt : b < a ↔ b.createdAt < a.createdAt ∨ b.createdAt = a.createdAt ∧ b.id < a.id :=
    Prod.Lex.toLex_lt_toLex
  rw [hlt]
  unfold newer
  split
  · rename_i hne
    rw [decide_eq_true_iff]
    exact ⟨.inl, fun h => h.resolve_right fun h => hne h.1.symm⟩
  · rename_i heq
    rw [not_not] at heq
    rw [decide_eq_true_iff, heq]
    simp

theorem sortPoints_perm (points : List RetentionPoint) : (sortPoints points).Perm points :=
  List.perm_insertionSort ..

theorem sortPoints_pairwise {points : List RetentionPoint}
    (h : (points.map RetentionPoint.id).Nodup) : (sortPoints points).Pairwise (· > ·) := by
  have hle : ∀ a b : RetentionPoint, (¬ newer b a = true) ↔ a ≥ b := by
    intro a b
    rw [newer_iff, not_lt]
  have hsorted : (sortPoints points).Pairwise (· ≥ ·) := by
    have heq : sortPoints points = points.insertionSort (· ≥ ·) := by
      unfold sortPoints
      congr 1
      funext a b
      exact propext (hle a b)
    rw [heq]
    exact List.pairwise_insertionSort ..
  have hnodup : (sortPoints points).Nodup := (sortPoints_perm points).nodup_iff.mpr h.of_map
  exact hsorted.imp₂ (fun a b hge hne => lt_of_le_of_ne hge hne.symm) hnodup

variable {policy : RetentionPolicy} {reason ρ : Reason} {id : String}

@[simp] theorem Reasons.mem_add (reasons : Reasons) (id' : String) :
    ρ ∈ reasons.add id' reason id ↔ ρ ∈ reasons id ∨ ρ = reason ∧ id' = id := by
  unfold Reasons.add
  split
  · rename_i hmem
    constructor
    · exact .inl
    · rintro (h | ⟨rfl, rfl⟩)
      · exact h
      · exact hmem
  · by_cases hid : id' = id
    · subst hid
      simp
    · simp [Function.update_of_ne (Ne.symm hid), hid]

def Reasons.addAll (reasons : Reasons) (points : List RetentionPoint) (reason : Reason) : Reasons :=
  points.foldl (fun reasons p => reasons.add p.id reason) reasons

@[simp] theorem Reasons.mem_addAll (reasons : Reasons) (points : List RetentionPoint) :
    ρ ∈ reasons.addAll points reason id ↔
      ρ ∈ reasons id ∨ ρ = reason ∧ ∃ p ∈ points, p.id = id := by
  unfold Reasons.addAll
  induction points generalizing reasons with
  | nil => simp
  | cons p points ih =>
    rw [List.foldl_cons, ih, Reasons.mem_add]
    simp only [List.mem_cons, exists_eq_or_imp]
    tauto

theorem keepNewest_eq (keep : Int) (points : List RetentionPoint) (i : Nat) (reasons : Reasons) :
    keepNewest keep points i reasons = reasons.addAll (points.take (keep.toNat - i)) .last := by
  induction points generalizing i reasons with
  | nil => rw [keepNewest, List.take_nil]; rfl
  | cons p points ih =>
    unfold keepNewest
    split
    · rename_i hlt
      obtain ⟨m, hm⟩ : ∃ m, keep.toNat - i = m + 1 := ⟨keep.toNat - i - 1, by omega⟩
      rw [ih, hm, List.take_succ_cons]
      have hrest : keep.toNat - (i + 1) = m := by omega
      rw [hrest]
      rfl
    · rename_i hge
      have hzero : keep.toNat - i = 0 := by omega
      rw [hzero]
      rfl

theorem keepBuckets_eq {keep : Int} (hkeep : 0 < keep) (points : List RetentionPoint)
    (seen : List String) (reasons : Reasons) :
    keepBuckets reason keep points seen reasons =
      reasons.addAll (scan (bucketKey ·.createdAt reason) keep.toNat points seen) reason := by
  induction points generalizing seen reasons with
  | nil => rfl
  | cons p points ih =>
    unfold keepBuckets scan
    dsimp only
    split
    · exact ih seen reasons
    · by_cases hn : keep ≤ seen.length
      · rw [if_pos hn, if_pos (by omega)]
        rfl
      · rw [if_neg hn, if_neg (by omega), ih]
        rfl

def picks (policy : RetentionPolicy) (points : List RetentionPoint) : Reason → List RetentionPoint
  | .last => points.take policy.keepLast.toNat
  | ρ => scan (bucketKey ·.createdAt ρ) (policy.keep ρ).toNat points []

@[simp] theorem scan_zero {key : RetentionPoint → String} (points : List RetentionPoint) :
    scan key 0 points [] = [] := by
  cases points with
  | nil => rfl
  | cons p points => simp [scan]

theorem rule_eq (points : List RetentionPoint) (keep : Int) (reasons : Reasons) :
    (if keep ≤ 0 then reasons else keepBuckets reason keep points [] reasons) =
      reasons.addAll (scan (bucketKey ·.createdAt reason) keep.toNat points []) reason := by
  split
  · rename_i hle
    have hzero : keep.toNat = 0 := by omega
    rw [hzero, scan_zero]
    rfl
  · rename_i hpos
    exact keepBuckets_eq (by omega) points [] reasons

@[grind =] theorem mem_collectReasons (points : List RetentionPoint) :
    ρ ∈ collectReasons policy points id ↔ ∃ p ∈ picks policy points ρ, p.id = id := by
  have hlast : (if policy.keepLast > 0 then keepNewest policy.keepLast points 0 fun _ => []
      else fun _ => []) = Reasons.addAll (fun _ => []) (picks policy points .last) .last := by
    split
    · exact keepNewest_eq ..
    · have hzero : policy.keepLast.toNat = 0 := by omega
      rw [picks, hzero]
      rfl
  unfold collectReasons
  simp only [hlast, List.foldl_cons, List.foldl_nil, rule_eq, Reasons.mem_addAll]
  cases ρ <;> simp [picks, RetentionPolicy.keep]

instance : Fintype Reason where
  elems := {.last, .daily, .weekly, .monthly, .yearly}
  complete ρ := by cases ρ <;> decide

/-- Every rule picks the newest point of each period, for the first periods; for the
rule of the last points every point is a period of its own. -/
def rule (policy : RetentionPolicy) : Reason → ChoiceRule RetentionPoint
  | .last => newest (fun p : RetentionPoint => p) (policy.keep .last).toNat
  | ρ => newest (fun p : RetentionPoint => bucketKey p.createdAt ρ) (policy.keep ρ).toNat

def retention (policy : RetentionPolicy) : ChoiceRule RetentionPoint := join (rule policy)

@[grind =] theorem mem_picks {points : List RetentionPoint} (h : points.Pairwise (· > ·))
    {p : RetentionPoint} : p ∈ picks policy points ρ ↔ p ∈ (rule policy ρ).pick points.toFinset := by
  have hnodup : points.Nodup := h.imp fun hgt => hgt.ne'
  cases ρ with
  | last =>
    have hscan : scan id policy.keepLast.toNat points [] = points.take policy.keepLast.toNat := by
      rw [scan_id hnodup fun _ _ => List.not_mem_nil, List.length_nil, Nat.sub_zero]
    rw [picks, ← hscan]
    exact mem_scan_nil h
  | daily | weekly | monthly | yearly => exact mem_scan_nil h

theorem mem_collectReasons_iff {points : List RetentionPoint}
    (hids : (points.map RetentionPoint.id).Nodup) {p : RetentionPoint} (hp : p ∈ points) :
    ρ ∈ collectReasons policy (sortPoints points) p.id ↔
      p ∈ (rule policy ρ).pick points.toFinset := by
  have hsorted := sortPoints_pairwise hids
  have hset : (sortPoints points).toFinset = points.toFinset :=
    List.toFinset_eq_of_perm _ _ (sortPoints_perm points)
  rw [mem_collectReasons, ← hset, ← mem_picks hsorted]
  constructor
  · rintro ⟨q, hq, hid⟩
    have hmem : q ∈ points := by
      have hpick := (rule policy ρ).subset _ ((mem_picks hsorted).mp hq)
      rw [hset] at hpick
      exact List.mem_toFinset.mp hpick
    rwa [List.inj_on_of_nodup_map hids hmem hp hid] at hq
  · exact fun hq => ⟨p, hq, rfl⟩

def RetentionPlan.kept (plan : RetentionPlan) : List RetentionPoint :=
  plan.keeps.map RetentionDecision.point

theorem decidePoints_keeps (reasons : Reasons) (points : List RetentionPoint) :
    (decidePoints reasons points).keeps = (points.filter (reasons ·.id ≠ [])).map fun p =>
      ⟨p.id, p.createdAt, RetentionPolicy.order.filter (· ∈ reasons p.id)⟩ := by
  induction points with
  | nil => rfl
  | cons p points ih =>
    unfold decidePoints
    by_cases hp : reasons p.id = []
    · simp [hp, ih]
    · simp [hp, ih]

@[grind =] theorem decidePoints_prunes (reasons : Reasons) (points : List RetentionPoint) :
    (decidePoints reasons points).prunes = (points.filter (reasons ·.id = [])).map fun p =>
      ⟨p.id, p.createdAt, []⟩ := by
  induction points with
  | nil => rfl
  | cons p points ih =>
    unfold decidePoints
    by_cases hp : reasons p.id = []
    · simp [hp, ih]
    · simp [hp, ih]

@[simp] theorem kept_eq (points : List RetentionPoint) (policy : RetentionPolicy) :
    (evaluateRetention points policy).kept =
      (sortPoints points).filter (collectReasons policy (sortPoints points) ·.id ≠ []) := by
  rw [RetentionPlan.kept, evaluateRetention, decidePoints_keeps, List.map_map]
  exact List.map_id _

theorem kept_subperm (points : List RetentionPoint) (policy : RetentionPolicy) :
    (evaluateRetention points policy).kept.Subperm points := by
  rw [kept_eq]
  exact List.filter_sublist.subperm.trans (sortPoints_perm points).subperm

@[grind =]
theorem mem_kept {points : List RetentionPoint} (hids : (points.map RetentionPoint.id).Nodup)
    {p : RetentionPoint} :
    p ∈ (evaluateRetention points policy).kept ↔ p ∈ (retention policy).pick points.toFinset := by
  rw [kept_eq, List.mem_filter, (sortPoints_perm points).mem_iff, decide_eq_true_iff]
  constructor
  · rintro ⟨hp, hne⟩
    obtain ⟨ρ, hρ⟩ := List.exists_mem_of_ne_nil _ hne
    exact (mem_join _).mpr ⟨ρ, (mem_collectReasons_iff hids hp).mp hρ⟩
  · intro hpick
    have hp := List.mem_toFinset.mp ((retention policy).subset _ hpick)
    obtain ⟨ρ, hρ⟩ := (mem_join _).mp hpick
    exact ⟨hp, List.ne_nil_of_mem ((mem_collectReasons_iff hids hp).mpr hρ)⟩

theorem kept_toFinset {points : List RetentionPoint}
    (hids : (points.map RetentionPoint.id).Nodup) :
    (evaluateRetention points policy).kept.toFinset = (retention policy).pick points.toFinset := by
  ext p
  rw [List.mem_toFinset, mem_kept hids]

theorem kept_pairwise {points : List RetentionPoint}
    (hids : (points.map RetentionPoint.id).Nodup) :
    (evaluateRetention points policy).kept.Pairwise (· > ·) := by
  rw [kept_eq]
  exact (sortPoints_pairwise hids).sublist List.filter_sublist

theorem keeps_congr {S T : List RetentionPoint} (hS : (S.map RetentionPoint.id).Nodup)
    (hT : (T.map RetentionPoint.id).Nodup)
    (h : ∀ ρ, (rule policy ρ).pick S.toFinset = (rule policy ρ).pick T.toFinset) :
    (evaluateRetention S policy).keeps = (evaluateRetention T policy).keeps := by
  have hkept : (evaluateRetention S policy).kept = (evaluateRetention T policy).kept := by
    apply (kept_pairwise hS).eq_of_mem_iff (kept_pairwise hT)
    intro p
    rw [mem_kept hS, mem_kept hT, retention, mem_join, mem_join]
    simp only [h]
  have hmem : ∀ p ∈ (evaluateRetention S policy).kept, p ∈ S ∧ p ∈ T := by
    intro p hp
    refine ⟨(kept_subperm S policy).subset hp, ?_⟩
    rw [hkept] at hp
    exact (kept_subperm T policy).subset hp
  rw [kept_eq, kept_eq] at hkept
  rw [kept_eq] at hmem
  rw [evaluateRetention, evaluateRetention, decidePoints_keeps, decidePoints_keeps, ← hkept]
  apply List.map_congr_left
  intro p hp
  obtain ⟨hpS, hpT⟩ := hmem p hp
  have hreasons : ∀ ρ, ρ ∈ collectReasons policy (sortPoints S) p.id ↔
      ρ ∈ collectReasons policy (sortPoints T) p.id := by
    intro ρ
    rw [mem_collectReasons_iff hS hpS, mem_collectReasons_iff hT hpT, h]
  simp only [hreasons]

theorem nodup_kept_append {A B : List RetentionPoint}
    (h : ((A ++ B).map RetentionPoint.id).Nodup) :
    (((evaluateRetention A policy).kept ++ B).map RetentionPoint.id).Nodup := by
  have hsub := (List.subperm_append_right B).mpr (kept_subperm A policy)
  obtain ⟨l, hperm, hl⟩ := hsub
  exact ((hperm.map RetentionPoint.id).nodup_iff).mp (h.sublist (hl.map RetentionPoint.id))

/-- What is kept of two sets of points together depends on the first only through
what is kept of it, reasons included. -/
@[grind =] theorem keeps_kept_append {A B : List RetentionPoint}
    (h : ((A ++ B).map RetentionPoint.id).Nodup) :
    (evaluateRetention ((evaluateRetention A policy).kept ++ B) policy).keeps =
      (evaluateRetention (A ++ B) policy).keeps := by
  have hA : (A.map RetentionPoint.id).Nodup := by
    rw [List.map_append] at h
    exact h.of_append_left
  apply keeps_congr (nodup_kept_append h) h
  intro ρ
  rw [List.toFinset_append, List.toFinset_append, kept_toFinset hA]
  exact join_settles (rule policy) ρ A.toFinset B.toFinset

theorem evaluateRetention_perm {A B : List RetentionPoint} (h : A.Perm B)
    (hids : (A.map RetentionPoint.id).Nodup) :
    evaluateRetention A policy = evaluateRetention B policy := by
  have hB : (B.map RetentionPoint.id).Nodup := (h.map _).nodup_iff.mp hids
  have hsort : sortPoints A = sortPoints B := by
    apply (sortPoints_pairwise hids).eq_of_mem_iff (sortPoints_pairwise hB)
    intro p
    rw [(sortPoints_perm A).mem_iff, (sortPoints_perm B).mem_iff, h.mem_iff]
  rw [evaluateRetention, evaluateRetention, hsort]

theorem point_mem_of_prunes {points : List RetentionPoint} {d : RetentionDecision}
    (h : d ∈ (evaluateRetention points policy).prunes) : d.point ∈ points := by
  rw [evaluateRetention, decidePoints_prunes] at h
  obtain ⟨p, hp, rfl⟩ := List.mem_map.mp h
  exact (sortPoints_perm points).mem_iff.mp (List.mem_filter.mp hp).1

theorem mem_prunes {points : List RetentionPoint} (hids : (points.map RetentionPoint.id).Nodup)
    {p : RetentionPoint} : p ∈ (evaluateRetention points policy).prunes.map RetentionDecision.point ↔
      p ∈ points ∧ p ∉ (retention policy).pick points.toFinset := by
  have hkept : p ∈ (evaluateRetention points policy).kept ↔
      p ∈ (retention policy).pick points.toFinset := mem_kept hids
  rw [kept_eq, List.mem_filter, (sortPoints_perm points).mem_iff, decide_eq_true_iff] at hkept
  rw [evaluateRetention, decidePoints_prunes, List.map_map, ← hkept]
  have hid : (RetentionDecision.point ∘ fun p : RetentionPoint => ⟨p.id, p.createdAt, []⟩) = id := rfl
  rw [hid, List.map_id, List.mem_filter, (sortPoints_perm points).mem_iff, decide_eq_true_iff]
  tauto

theorem exists_mem_rule {ρ : Reason} (hpos : 0 < policy.keep ρ) {A : Finset RetentionPoint}
    (hA : A.Nonempty) : ∃ p, p ∈ (rule policy ρ).pick A := by
  obtain ⟨p, hp, hmax⟩ := Finset.exists_max_image A (fun p : RetentionPoint => p) hA
  have habove : ∀ {κ : Type} [DecidableEq κ] (key : RetentionPoint → κ),
      groupsAbove key A p = ∅ := by
    intro κ _ key
    apply Finset.eq_empty_of_forall_notMem
    intro k hk
    obtain ⟨q, hq, hpq, -⟩ := mem_groupsAbove.mp hk
    exact absurd hpq (not_lt_of_ge (hmax q hq))
  have hnat : 0 < (policy.keep ρ).toNat := by omega
  refine ⟨p, ?_⟩
  cases ρ <;> exact mem_firsts.mpr
    ⟨hp, by rw [habove]; exact Finset.notMem_empty _, by rw [habove]; exact hnat⟩

theorem not_mem_rule {ρ : Reason} (hle : policy.keep ρ ≤ 0) {A : Finset RetentionPoint}
    {p : RetentionPoint} : p ∉ (rule policy ρ).pick A := by
  have hnat : (policy.keep ρ).toNat = 0 := by omega
  intro hp
  have hlt : ∃ n, n < (policy.keep ρ).toNat := by
    cases ρ <;> exact ⟨_, (mem_firsts.mp hp).2.2⟩
  omega

@[simp] theorem keeps_eq_nil_iff {points : List RetentionPoint}
    (hids : (points.map RetentionPoint.id).Nodup) :
    (evaluateRetention points policy).keeps = [] ↔ points = [] ∨ ∀ ρ, policy.keep ρ ≤ 0 := by
  have hkept : (evaluateRetention points policy).keeps = [] ↔
      (evaluateRetention points policy).kept = [] := by
    rw [RetentionPlan.kept, List.map_eq_nil_iff]
  rw [hkept, List.eq_nil_iff_forall_not_mem]
  constructor
  · intro hnone
    by_contra hsome
    obtain ⟨hne, hpos⟩ := not_or.mp hsome
    obtain ⟨ρ, hρ⟩ := not_forall.mp hpos
    have hset : points.toFinset.Nonempty := (List.toFinset_nonempty_iff points).mpr hne
    obtain ⟨p, hp⟩ := exists_mem_rule (not_le.mp hρ) hset
    exact hnone p ((mem_kept hids).mpr ((mem_join _).mpr ⟨ρ, hp⟩))
  · intro h p hp
    obtain ⟨ρ, hρ⟩ := (mem_join _).mp ((mem_kept hids).mp hp)
    rcases h with rfl | hle
    · exact absurd ((rule policy ρ).subset _ hρ) (Finset.notMem_empty p)
    · exact not_mem_rule (hle ρ) hρ

end ProxBack.Store
