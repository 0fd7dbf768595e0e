import ProxBack.Sched.Retention

/-! Retention does not depend on the path: whenever passes run in between, a source
ends with the restore points that one pass over all of them would leave. -/
namespace ProxBack.Sched
open Lib Prog Engine Store ChoiceRule

variable {policy : RetentionPolicy} {f : BackupFilter} {w w' : World} {p : RetentionPoint}

theorem points_eq (w : World) (f : BackupFilter) :
    w.points f = sortPoints ((w.backups.rows.filter f.matches).map Backup.point) := by
  unfold World.points BackupTable.listBackups BackupTable.newestFirst sortPoints
  apply List.map_insertionSort
  exact fun _ _ _ _ => Iff.rfl

@[simp]
theorem mem_points : p ∈ w.points f ↔ ∃ b ∈ w.backups.rows, f.matches b = true ∧ b.point = p := by
  rw [points_eq, (sortPoints_perm _).mem_iff]
  simp [and_assoc]

theorem points_nodup (w : World) (f : BackupFilter) :
    ((w.points f).map RetentionPoint.id).Nodup := by
  rw [points_eq, ((sortPoints_perm _).map _).nodup_iff, List.map_map]
  exact w.backups.nodup.sublist (List.filter_sublist.map Backup.id)

theorem points_ext (h : (w.points f).toFinset = (w'.points f).toFinset) :
    w.points f = w'.points f := by
  have hsorted : ∀ w : World, (w.points f).Pairwise (· > ·) := by
    intro w
    have hids := points_nodup w f
    rw [points_eq, ((sortPoints_perm _).map _).nodup_iff] at hids
    rw [points_eq]
    exact sortPoints_pairwise hids
  apply (hsorted w).eq_of_mem_iff (hsorted w')
  intro p
  rw [← List.mem_toFinset, h, List.mem_toFinset]

theorem mem_points_of_core {rows : List Backup}
    (h : w'.backups.rows.map core = rows.map core) :
    p ∈ w'.points f ↔ ∃ b ∈ rows, f.matches b = true ∧ b.point = p := by
  have hmem : ∀ l : List Backup, (∃ b ∈ l, f.matches b = true ∧ b.point = p) ↔
      ∃ b ∈ l.map core, f.matches b = true ∧ b.point = p := by
    intro l
    simp only [List.mem_map, exists_exists_and_eq_and]
    rfl
  rw [mem_points, hmem, h, ← hmem]

theorem points_applyRetention (policy : RetentionPolicy) (sourceKind : SourceKind)
    (sourceID targetID : String) (w : World) :
    ((run World.alone (applyRetention targetID policy sourceKind sourceID) w).2.points
        (ofSource sourceKind sourceID targetID)).toFinset =
      (retained policy).pick (w.points (ofSource sourceKind sourceID targetID)).toFinset := by
  obtain ⟨w', hrun, hrows⟩ := run_applyRetention targetID policy sourceKind sourceID w
  rw [hrun]
  ext p
  rw [mem_retained (points_nodup w _), List.mem_toFinset, mem_points_of_core hrows, mem_points]
  simp only [List.mem_filter, decide_eq_true_iff]
  constructor
  · rintro ⟨b, ⟨hb, hid⟩, hf, rfl⟩
    exact ⟨⟨b, hb, hf, rfl⟩, hid⟩
  · rintro ⟨⟨b, hb, hf, rfl⟩, hid⟩
    exact ⟨b, ⟨hb, hid⟩, hf, rfl⟩

theorem mem_ids_applyRetention (policy : RetentionPolicy) (sourceKind : SourceKind)
    (sourceID targetID : String) (w : World) (id : String) :
    id ∈ (run World.alone (applyRetention targetID policy sourceKind sourceID)
        w).2.backups.rows.map Backup.id ↔
      id ∈ w.backups.rows.map Backup.id ∧
        id ∉ (pruned policy (w.points (ofSource sourceKind sourceID targetID))).map
          RetentionDecision.id := by
  obtain ⟨w', hrun, hrows⟩ := run_applyRetention targetID policy sourceKind sourceID w
  have hids : ∀ l : List Backup, l.map Backup.id = (l.map core).map Backup.id := by
    intro l
    rw [List.map_map]
    rfl
  rw [hrun, hids, hrows, ← hids, List.mem_map, List.mem_map]
  simp only [List.mem_filter, decide_eq_true_iff]
  constructor
  · rintro ⟨b, ⟨hb, hnot⟩, rfl⟩
    exact ⟨⟨b, hb, rfl⟩, hnot⟩
  · rintro ⟨⟨b, hb, rfl⟩, hnot⟩
    exact ⟨b, ⟨hb, hnot⟩, rfl⟩

inductive RetentionEvent where
  | arrive (b : Backup)
  | prune

def retentionHistory (policy : RetentionPolicy) (sourceKind : SourceKind)
    (sourceID targetID : String) : List RetentionEvent → World → World
  | [], w => w
  | .arrive b :: es, w =>
    retentionHistory policy sourceKind sourceID targetID es (World.alone (.createBackup b) w).2
  | .prune :: es, w =>
    retentionHistory policy sourceKind sourceID targetID es
      (run World.alone (applyRetention targetID policy sourceKind sourceID) w).2

def newBackups : List RetentionEvent → List Backup
  | [] => []
  | .arrive b :: es => b :: newBackups es
  | .prune :: es => newBackups es

theorem createBackup_alone {b : Backup} (h : b.id ∉ w.backups.rows.map Backup.id) :
    (World.alone (.createBackup b) w).2.backups.rows = b :: w.backups.rows := by
  have hsame : (if b.createdAt = 0 then { b with createdAt := (Choice.fine).clock } else b) = b := by
    split
    · rename_i hzero
      cases b
      cases hzero
      rfl
    · rfl
  unfold World.alone World.exec
  simp only [hsame]
  unfold BackupTable.createBackup
  rw [dif_neg h]
  rfl

theorem points_createBackup {b : Backup} (h : b.id ∉ w.backups.rows.map Backup.id)
    (hb : f.matches b = true) :
    ((World.alone (.createBackup b) w).2.points f).toFinset =
      insert b.point (w.points f).toFinset := by
  ext p
  rw [Finset.mem_insert, List.mem_toFinset, List.mem_toFinset, mem_points, mem_points,
    createBackup_alone h]
  constructor
  · rintro ⟨c, hc, hf, rfl⟩
    rcases List.mem_cons.mp hc with rfl | hc
    · exact .inl rfl
    · exact .inr ⟨c, hc, hf, rfl⟩
  · rintro (rfl | ⟨c, hc, hf, rfl⟩)
    · exact ⟨b, List.mem_cons_self, hb, rfl⟩
    · exact ⟨c, List.mem_cons_of_mem b hc, hf, rfl⟩

def RetentionEvent.choice : RetentionEvent → ChoiceEvent RetentionPoint
  | .arrive b => .arrive b.point
  | .prune => .prune

theorem points_history (policy : RetentionPolicy) (sourceKind : SourceKind)
    (sourceID targetID : String) (es : List RetentionEvent) (w : World)
    (hsource : ∀ b ∈ newBackups es, (ofSource sourceKind sourceID targetID).matches b = true)
    (hids : (w.backups.rows.map Backup.id ++ (newBackups es).map Backup.id).Nodup) :
    ((retentionHistory policy sourceKind sourceID targetID es w).points
        (ofSource sourceKind sourceID targetID)).toFinset =
      (retained policy).after (es.map RetentionEvent.choice)
        (w.points (ofSource sourceKind sourceID targetID)).toFinset := by
  induction es generalizing w with
  | nil => rfl
  | cons ev es ih =>
    obtain ⟨hrows, hnew, hdisj⟩ := List.nodup_append.mp hids
    cases ev with
    | arrive b =>
      have hfresh : b.id ∉ w.backups.rows.map Backup.id :=
        fun hb => hdisj _ hb _ List.mem_cons_self rfl
      have hstep := ih (World.alone (.createBackup b) w).2
        (fun c hc => hsource c (List.mem_cons_of_mem b hc)) (by
          rw [createBackup_alone hfresh]
          exact (List.perm_middle.nodup_iff).mp hids)
      rw [points_createBackup hfresh (hsource b List.mem_cons_self)] at hstep
      exact hstep
    | prune =>
      have hstep := ih (run World.alone (applyRetention targetID policy sourceKind sourceID) w).2
        hsource (by
          rw [List.nodup_append]
          refine ⟨BackupTable.nodup _, hnew, fun id hid => hdisj id ?_⟩
          exact ((mem_ids_applyRetention policy sourceKind sourceID targetID w id).mp hid).1)
      rw [points_applyRetention] at hstep
      exact hstep

@[simp] theorem arrivals_choice (es : List RetentionEvent) :
    arrivals (es.map RetentionEvent.choice) = ((newBackups es).map Backup.point).toFinset := by
  induction es with
  | nil => rfl
  | cons ev es ih =>
    cases ev with
    | arrive b =>
      rw [List.map_cons, RetentionEvent.choice, arrivals, ih, newBackups, List.map_cons,
        List.toFinset_cons]
    | prune => exact ih

@[simp] theorem history_append (policy : RetentionPolicy) (sourceKind : SourceKind)
    (sourceID targetID : String) (es : List RetentionEvent) (w : World) :
    retentionHistory policy sourceKind sourceID targetID (es ++ [.prune]) w =
      (run World.alone (applyRetention targetID policy sourceKind sourceID)
        (retentionHistory policy sourceKind sourceID targetID es w)).2 := by
  induction es generalizing w with
  | nil => rfl
  | cons ev es ih => cases ev <;> exact ih _

theorem points_history_prune (policy : RetentionPolicy) (sourceKind : SourceKind)
    (sourceID targetID : String) (es : List RetentionEvent) (w : World)
    (hsource : ∀ b ∈ newBackups es, (ofSource sourceKind sourceID targetID).matches b = true)
    (hids : (w.backups.rows.map Backup.id ++ (newBackups es).map Backup.id).Nodup) :
    ((retentionHistory policy sourceKind sourceID targetID (es ++ [.prune]) w).points
        (ofSource sourceKind sourceID targetID)).toFinset =
      (retained policy).pick ((w.points (ofSource sourceKind sourceID targetID)).toFinset ∪
        ((newBackups es).map Backup.point).toFinset) := by
  rw [history_append, points_applyRetention,
    points_history policy sourceKind sourceID targetID es w hsource hids, pick_after,
    arrivals_choice]

@[grind =] theorem prunes_kept {A : List RetentionPoint} (hids : (A.map RetentionPoint.id).Nodup) :
    (evaluateRetention (evaluateRetention A policy).kept policy).prunes = [] := by
  have hkept : ((evaluateRetention A policy).kept.map RetentionPoint.id).Nodup := by
    rw [← List.append_nil (evaluateRetention A policy).kept]
    apply nodup_kept_append
    rw [List.append_nil]
    exact hids
  rw [← List.map_eq_nil_iff, List.eq_nil_iff_forall_not_mem]
  intro p hp
  obtain ⟨hmem, hnot⟩ := (mem_prunes hkept).mp hp
  rw [kept_toFinset hids, pick_pick] at hnot
  exact hnot ((mem_kept hids).mp hmem)

/-- Dropping what the policy does not keep of `A` changes nothing about what it keeps
of `A` and `B`, and for which reasons; the order of the points does not matter; a
second evaluation prunes nothing; and however passes and new restore points of a source
follow one another, the points left after a last pass are the same. -/
theorem retention_path_independent (policy : RetentionPolicy) :
    (∀ A B : List RetentionPoint, ((A ++ B).map RetentionPoint.id).Nodup →
      (evaluateRetention ((evaluateRetention A policy).kept ++ B) policy).keeps =
        (evaluateRetention (A ++ B) policy).keeps) ∧
    (∀ A B : List RetentionPoint, A.Perm B → (A.map RetentionPoint.id).Nodup →
      evaluateRetention A policy = evaluateRetention B policy) ∧
    (∀ A : List RetentionPoint, (A.map RetentionPoint.id).Nodup →
      (evaluateRetention (evaluateRetention A policy).kept policy).prunes = []) ∧
    ∀ (sourceKind : SourceKind) (sourceID targetID : String) (w : World)
      (es es' : List RetentionEvent), (newBackups es).Perm (newBackups es') →
      (∀ b ∈ newBackups es, (ofSource sourceKind sourceID targetID).matches b = true) →
      (w.backups.rows.map Backup.id ++ (newBackups es).map Backup.id).Nodup →
      (retentionHistory policy sourceKind sourceID targetID (es ++ [.prune]) w).points
          (ofSource sourceKind sourceID targetID) =
        (retentionHistory policy sourceKind sourceID targetID (es' ++ [.prune]) w).points
          (ofSource sourceKind sourceID targetID) := by
  refine ⟨fun A B h => keeps_kept_append h, fun A B hp h => evaluateRetention_perm hp h,
    fun A h => prunes_kept h, ?_⟩
  intro sourceKind sourceID targetID w es es' hperm hsource hids
  have hsource' : ∀ b ∈ newBackups es', (ofSource sourceKind sourceID targetID).matches b = true :=
    fun b hb => hsource b (hperm.mem_iff.mpr hb)
  have hids' : (w.backups.rows.map Backup.id ++ (newBackups es').map Backup.id).Nodup :=
    ((hperm.map Backup.id).append_left _).nodup_iff.mp hids
  apply points_ext
  rw [points_history_prune policy sourceKind sourceID targetID es w hsource hids,
    points_history_prune policy sourceKind sourceID targetID es' w hsource' hids',
    List.toFinset_eq_of_perm _ _ (hperm.map Backup.point)]

def webPoint (id : String) (createdAt : Time) : Backup :=
  ⟨id, "job1", "run1", .vm, "host_100", "web", "t1", createdAt, 1, 1, .full, "", [], by decide⟩

def bareWorld : World := ⟨fun _ => ⟨∅, ∅, ∅⟩, .empty, ∅, fun _ => 0⟩

/-- Three points under "keep last 1": the oldest is dropped before the last one comes or after it,
and a pass between them leaves the same point in the end. -/
theorem retention_path_independent_two :
    (evaluateRetention [⟨"a", 1⟩, ⟨"b", 2⟩] ⟨1, 0, 0, 0, 0⟩).kept = [⟨"b", 2⟩] ∧
    (evaluateRetention ((evaluateRetention [⟨"a", 1⟩, ⟨"b", 2⟩] ⟨1, 0, 0, 0, 0⟩).kept ++ [⟨"c", 3⟩])
      ⟨1, 0, 0, 0, 0⟩).keeps = [⟨"c", 3, [.last]⟩] ∧
    (retentionHistory ⟨1, 0, 0, 0, 0⟩ .vm "host_100" "t1"
        [.arrive (webPoint "a" 1), .arrive (webPoint "b" 2), .prune, .arrive (webPoint "c" 3), .prune]
        bareWorld).points (ofSource .vm "host_100" "t1") =
      (retentionHistory ⟨1, 0, 0, 0, 0⟩ .vm "host_100" "t1"
        [.arrive (webPoint "c" 3), .arrive (webPoint "b" 2), .arrive (webPoint "a" 1), .prune]
        bareWorld).points (ofSource .vm "host_100" "t1") := by
  have hindependent := retention_path_independent ⟨1, 0, 0, 0, 0⟩
  refine ⟨by decide, ?_, ?_⟩
  · rw [hindependent.1 [⟨"a", 1⟩, ⟨"b", 2⟩] [⟨"c", 3⟩] (by decide)]
    decide
  · exact hindependent.2.2.2 .vm "host_100" "t1" bareWorld
      [.arrive (webPoint "a" 1), .arrive (webPoint "b" 2), .prune, .arrive (webPoint "c" 3)]
      [.arrive (webPoint "c" 3), .arrive (webPoint "b" 2), .arrive (webPoint "a" 1)]
      (List.reverse_perm [webPoint "c" 3, webPoint "b" 2, webPoint "a" 1]) (by decide) (by decide)
end ProxBack.Sched
