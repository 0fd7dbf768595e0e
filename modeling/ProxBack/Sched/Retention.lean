import ProxBack.Sched.World
import ProxBack.Store.RetentionRule

/-! Pruning: the pass that follows a run, and what it leaves of a source's restore
points when nothing fails. -/
namespace ProxBack.Sched
open Lib Prog Engine Store ChoiceRule

def pruneLoop (targetID : String) (list : List Backup) :
    List RetentionDecision → SchedM (Option Err)
  | [] => .ret none
  | d :: rest =>
    match list.find? (·.id = d.id) with
    | none => pruneLoop targetID list rest
    | some b =>
      onTarget targetID (deleteManifest b.key) >>= fun
      | .error err => .ret (some (.engine err))
      | .ok () =>
        .call (.clearBackupParent b.id) fun
        | .error err => .ret (some (.store err))
        | .ok () =>
          .call (.deleteBackup b.id) fun
          | .error err =>
            if err = .notFound then pruneLoop targetID list rest else .ret (some (.store err))
          | .ok () => pruneLoop targetID list rest

def applyRetention (targetID : String) (policy : RetentionPolicy) (sourceKind : SourceKind)
    (sourceID : String) : SchedM (Option Err) :=
  -- A policy that retains nothing at all never prunes.
  if policy.total ≤ 0 then .ret none
  else
    .call (.listBackups { sourceKind := some sourceKind, sourceID := sourceID,
                          targetID := targetID }) fun
    | .error err => .ret (some (.store err))
    | .ok list =>
      if list.isEmpty then .ret none
      else
        let plan := evaluateRetention (list.map Backup.point) policy
        if plan.prunes.isEmpty then .ret none
        else if plan.keeps.isEmpty then .ret none
        else pruneLoop targetID list plan.prunes

def core (b : Backup) : Backup := { b with parentID := "" }

@[simp]
theorem core_detach (id : String) (b : Backup) : core (BackupTable.detach id b) = core b := by
  unfold BackupTable.detach
  split <;> rfl

@[simp] theorem core_clearBackupParent (t : BackupTable) (id : String) :
    (t.clearBackupParent id).rows.map core = t.rows.map core := by
  unfold BackupTable.clearBackupParent
  rw [List.map_map]
  exact List.map_congr_left fun b _ => core_detach id b

theorem filter_core {rows rows' : List Backup} (h : rows.map core = rows'.map core)
    (p : Backup → Bool) (hp : ∀ b, p (core b) = p b) :
    (rows.filter p).map core = (rows'.filter p).map core := by
  have hfilter : ∀ l : List Backup, (l.filter p).map core = (l.map core).filter p := by
    intro l
    rw [List.filter_map]
    congr 2
    funext b
    exact (hp b).symm
  rw [hfilter, hfilter, h]

theorem run_pruneLoop (targetID : String) (list : List Backup) (ds : List RetentionDecision)
    (hds : ∀ d ∈ ds, ∃ b ∈ list, b.id = d.id) (w : World) :
    ∃ w', run World.alone (pruneLoop targetID list ds) w = (none, w') ∧
      w'.backups.rows.map core =
        (w.backups.rows.filter fun b => b.id ∉ ds.map RetentionDecision.id).map core := by
  induction ds generalizing w with
  | nil => exact ⟨w, rfl, by simp⟩
  | cons d ds ih =>
    obtain ⟨b, hfind, hid⟩ : ∃ b, list.find? (·.id = d.id) = some b ∧ b.id = d.id := by
      obtain ⟨b, hb, hid⟩ := hds d List.mem_cons_self
      have hsome : (list.find? (·.id = d.id)).isSome :=
        List.find?_isSome.mpr ⟨b, hb, decide_eq_true hid⟩
      obtain ⟨b', hb'⟩ := Option.isSome_iff_exists.mp hsome
      have hid' := List.find?_some hb'
      exact ⟨b', hb', of_decide_eq_true hid'⟩
    let w₁ := (World.alone (.engine targetID (.deleteManifest b.key)) w).2
    let w₂ := (World.alone (.clearBackupParent b.id) w₁).2
    let w₃ := (World.alone (.deleteBackup b.id) w₂).2
    obtain ⟨w', hrun, hrows⟩ := ih (fun d hd => hds d (List.mem_cons_of_mem _ hd)) w₃
    refine ⟨w', ?_, ?_⟩
    · have hdel : (World.alone (.engine targetID (.deleteManifest b.key)) w).1 = .ok () := rfl
      have hclear : (World.alone (.clearBackupParent b.id) w₁).1 = .ok () := rfl
      rw [pruneLoop, hfind]
      simp only [deleteManifest, onTarget_call, onTarget_ret, call_bind, ret_bind, run_call]
      rw [hdel]
      dsimp only
      rw [run_call, hclear]
      dsimp only
      rw [run_call]
      have hreply : (World.alone (.deleteBackup b.id) w₂).1 = .ok () ∨
          (World.alone (.deleteBackup b.id) w₂).1 = .error .notFound := by
        show (if _ then _ else _ : Except Store.Err Unit) = _ ∨
          (if _ then _ else _ : Except Store.Err Unit) = _
        split
        · exact .inl rfl
        · exact .inr rfl
      rcases hreply with hreply | hreply
      · rw [hreply]
        exact hrun
      · rw [hreply]
        dsimp only
        rw [if_pos rfl]
        exact hrun
    · rw [hrows]
      have hcleared : w₂.backups.rows.map core = w.backups.rows.map core :=
        core_clearBackupParent _ _
      have hdrop : w₃.backups.rows = w₂.backups.rows.filter (·.id ≠ b.id) := rfl
      have hmem : ∀ c : Backup, c.id ∉ (d :: ds).map RetentionDecision.id ↔
          c.id ∉ ds.map RetentionDecision.id ∧ c.id ≠ b.id := by
        intro c
        rw [List.map_cons, List.mem_cons, not_or, hid]
        exact and_comm
      rw [hdrop, List.filter_filter, filter_core hcleared _ fun _ => rfl]
      congr 1
      apply List.filter_congr
      intro c _
      rw [Bool.eq_iff_iff]
      simp only [Bool.and_eq_true, decide_eq_true_iff]
      exact (hmem c).symm

def pruned (policy : RetentionPolicy) (points : List RetentionPoint) : List RetentionDecision :=
  if policy.total ≤ 0 ∨ (evaluateRetention points policy).keeps = [] then []
  else (evaluateRetention points policy).prunes

def ofSource (sourceKind : SourceKind) (sourceID targetID : String) : BackupFilter where
  sourceKind := some sourceKind
  sourceID := sourceID
  targetID := targetID

def World.points (w : World) (f : BackupFilter) : List RetentionPoint :=
  (w.backups.listBackups f).map Backup.point

theorem run_applyRetention (targetID : String) (policy : RetentionPolicy)
    (sourceKind : SourceKind) (sourceID : String) (w : World) :
    ∃ w', run World.alone (applyRetention targetID policy sourceKind sourceID) w = (none, w') ∧
      w'.backups.rows.map core = (w.backups.rows.filter fun b => b.id ∉
        (pruned policy (w.points (ofSource sourceKind sourceID targetID))).map
          RetentionDecision.id).map core := by
  have hnone : ∀ ds : List RetentionDecision, ds = [] →
      w.backups.rows.map core =
        (w.backups.rows.filter fun b => b.id ∉ ds.map RetentionDecision.id).map core := by
    rintro ds rfl
    simp
  unfold applyRetention
  by_cases htotal : policy.total ≤ 0
  · rw [if_pos htotal]
    exact ⟨w, rfl, hnone _ (if_pos (.inl htotal))⟩
  rw [if_neg htotal, run_call]
  have hlist : World.alone (.listBackups (ofSource sourceKind sourceID targetID)) w =
      (.ok (w.backups.listBackups (ofSource sourceKind sourceID targetID)), w) := rfl
  rw [← ofSource, hlist]
  dsimp only
  generalize hl : w.backups.listBackups (ofSource sourceKind sourceID targetID) = list
  have hpoints : w.points (ofSource sourceKind sourceID targetID) = list.map Backup.point := by
    rw [World.points, hl]
  rw [hpoints]
  by_cases hempty : list.isEmpty
  · rw [if_pos hempty]
    refine ⟨w, rfl, hnone _ ?_⟩
    rw [List.isEmpty_iff.mp hempty]
    exact if_pos (.inr rfl)
  rw [if_neg hempty]
  by_cases hprunes : (evaluateRetention (list.map Backup.point) policy).prunes.isEmpty
  · rw [if_pos hprunes]
    refine ⟨w, rfl, hnone _ ?_⟩
    unfold pruned
    rw [List.isEmpty_iff.mp hprunes, ite_self]
  rw [if_neg hprunes]
  by_cases hkeeps : (evaluateRetention (list.map Backup.point) policy).keeps.isEmpty
  · rw [if_pos hkeeps]
    exact ⟨w, rfl, hnone _ (if_pos (.inr (List.isEmpty_iff.mp hkeeps)))⟩
  rw [if_neg hkeeps]
  have hpruned : pruned policy (list.map Backup.point) =
      (evaluateRetention (list.map Backup.point) policy).prunes :=
    if_neg (not_or.mpr ⟨htotal, fun h => hkeeps (List.isEmpty_iff.mpr h)⟩)
  rw [hpruned]
  apply run_pruneLoop
  intro d hd
  obtain ⟨b, hb, hpoint⟩ := List.mem_map.mp (point_mem_of_prunes hd)
  exact ⟨b, hb, congrArg RetentionPoint.id hpoint⟩

def retained (policy : RetentionPolicy) : ChoiceRule RetentionPoint :=
  if policy.total ≤ 0 ∨ ∀ ρ, policy.keep ρ ≤ 0 then ChoiceRule.all _ else retention policy

theorem mem_retained {policy : RetentionPolicy} {points : List RetentionPoint}
    (hids : (points.map RetentionPoint.id).Nodup) {p : RetentionPoint} :
    p ∈ (retained policy).pick points.toFinset ↔
      p ∈ points ∧ p.id ∉ (pruned policy points).map RetentionDecision.id := by
  have hdrop : ∀ ds : List RetentionDecision, ds = [] →
      (p ∈ points ↔ p ∈ points ∧ p.id ∉ ds.map RetentionDecision.id) := by
    rintro ds rfl
    simp
  have hkeeps : (evaluateRetention points policy).keeps = [] ↔
      points = [] ∨ ∀ ρ, policy.keep ρ ≤ 0 := keeps_eq_nil_iff hids
  unfold retained pruned
  by_cases hall : policy.total ≤ 0 ∨ ∀ ρ, policy.keep ρ ≤ 0
  · rw [if_pos hall, if_pos (hall.imp_right fun h => hkeeps.mpr (.inr h))]
    exact List.mem_toFinset.trans (hdrop [] rfl)
  rw [if_neg hall]
  by_cases hnil : points = []
  · rw [if_pos (.inr (hkeeps.mpr (.inl hnil))), ← hdrop [] rfl, hnil]
    exact ⟨fun h => absurd ((retention policy).subset _ h) (Finset.notMem_empty p), nofun⟩
  have hcond : ¬ (policy.total ≤ 0 ∨ (evaluateRetention points policy).keeps = []) := by
    rw [hkeeps]
    tauto
  rw [if_neg hcond]
  have hid : p ∈ points → (p.id ∈ (evaluateRetention points policy).prunes.map RetentionDecision.id ↔
      p ∉ (retention policy).pick points.toFinset) := by
    intro hp
    constructor
    · intro hmem
      obtain ⟨d, hd, hdid⟩ := List.mem_map.mp hmem
      have hpoint : d.point = p :=
        List.inj_on_of_nodup_map hids (point_mem_of_prunes hd) hp hdid
      exact ((mem_prunes hids).mp (List.mem_map.mpr ⟨d, hd, hpoint⟩)).2
    · intro hnot
      obtain ⟨d, hd, rfl⟩ := List.mem_map.mp ((mem_prunes hids).mpr ⟨hp, hnot⟩)
      exact List.mem_map.mpr ⟨d, hd, rfl⟩
  constructor
  · intro hpick
    have hp := List.mem_toFinset.mp ((retention policy).subset _ hpick)
    exact ⟨hp, fun h => (hid hp).mp h hpick⟩
  · rintro ⟨hp, hnot⟩
    by_contra hpick
    exact hnot ((hid hp).mpr hpick)

end ProxBack.Sched
