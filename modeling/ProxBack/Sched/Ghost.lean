import ProxBack.Engine.IndexSound
import ProxBack.Sched.Backup

/-! Restore points under failures. A row is written after its manifest, so a backup that
fails or stops never leaves a row without one. A removal deletes the manifest first, so
one that does not get to the row leaves a ghost. -/
namespace ProxBack.Sched
open Lib Prog Engine Store

abbrev Event := World.machine.Event

def World.HasManifest (w : World) (b : Backup) : Prop :=
  ((w.targets b.targetID).manifests.lookup b.key).isSome

instance (w : World) (b : Backup) : Decidable (w.HasManifest b) :=
  inferInstanceAs (Decidable (_ = true))

def World.NoGhost (w : World) : Prop := ∀ b ∈ w.backups.rows, w.HasManifest b

/-- Whenever the manifest of a listed restore point is deleted, the next two calls are
those that clear and drop its row, and the drop does take effect. -/
def Finished : World → List Event → Prop
  | _, [] => True
  | w, (c, x) :: rest =>
    (∀ b ∈ w.backups.rows, c = .engine b.targetID (.deleteManifest b.key) → x.TakesEffect →
      ∃ y z rest', rest = (.clearBackupParent b.id, y) :: (.deleteBackup b.id, z) :: rest' ∧
        z.TakesEffect) ∧
    Finished (World.exec c x w).2 rest

section HasManifest

variable {w : World} {b : Backup} {targetID : String} {t : Target}

theorem hasManifest_setTarget (h : (t.manifests.lookup b.key).isSome ∨ b.targetID ≠ targetID)
    (hw : w.HasManifest b) : (w.setTarget targetID t).HasManifest b := by
  unfold World.HasManifest
  rw [World.targets_setTarget]
  split
  · rename_i heq
    exact h.resolve_right fun hne => hne heq
  · exact hw

theorem hasManifest_of_manifests (h : t.manifests = (w.targets targetID).manifests)
    (hw : w.HasManifest b) : (w.setTarget targetID t).HasManifest b := by
  by_cases heq : b.targetID = targetID
  · apply hasManifest_setTarget (.inl _) hw
    rw [h, ← heq]
    exact hw
  · exact hasManifest_setTarget (.inr heq) hw

@[simp] theorem exec_manifests {c : Engine.Call} (hput : ∀ key m, c ≠ .putManifest key m)
    (hdelete : ∀ key, c ≠ .deleteManifest key) (x : Engine.Choice) (t : Target) :
    (Target.exec c x t).2.manifests = t.manifests := by
  cases c with
  | putManifest key m => exact absurd rfl (hput key m)
  | deleteManifest key => exact absurd rfl (hdelete key)
  | addChunk | deleteChunk | put | delete =>
    exact x.outcome_of (P := fun s => s.manifests = t.manifests) rfl rfl
  | _ => rfl

theorem lookup_putManifest (t : Target) (key k : ManifestKey) (m : Manifest)
    (h : (t.manifests.lookup k).isSome) : ((t.putManifest key m).manifests.lookup k).isSome := by
  unfold Target.putManifest
  rw [FinMap.lookup_insert_ite]
  split
  · rfl
  · exact h

theorem lookup_deleteManifest {t : Target} {key k : ManifestKey} (hne : k ≠ key)
    (h : (t.manifests.lookup k).isSome) : ((t.deleteManifest key).manifests.lookup k).isSome := by
  unfold Target.deleteManifest
  rw [FinMap.lookup_erase_ite, if_neg hne]
  exact h

end HasManifest

def Leaving (id : String) (es : List Event) : Prop :=
  ∃ z rest, z.TakesEffect ∧ (es = (.deleteBackup id, z) :: rest ∨
    ∃ y, es = (.clearBackupParent id, y) :: (.deleteBackup id, z) :: rest)

def Settled (w : World) (es : List Event) : Prop :=
  ∀ b ∈ w.backups.rows, w.HasManifest b ∨ Leaving b.id es

@[simp] theorem settled_nil (w : World) : Settled w [] ↔ w.NoGhost := by
  simp [Settled, Leaving, World.NoGhost]

theorem World.NoGhost.settled {w : World} (h : w.NoGhost) (es : List Event) : Settled w es :=
  fun b hb => .inl (h b hb)

theorem Settled.noGhost {w : World} {c : Call} {x : Choice} {rest : List Event}
    (h : Settled w ((c, x) :: rest)) (hdelete : ∀ id, c = .deleteBackup id → ¬ x.TakesEffect)
    (hclear : ∀ id, c ≠ .clearBackupParent id) : w.NoGhost := by
  intro b hb
  rcases h b hb with h | ⟨z, rest', hz, heq | ⟨y, heq⟩⟩
  · exact h
  · cases heq
    exact absurd hz (hdelete b.id rfl)
  · cases heq
    exact absurd rfl (hclear b.id)

def AddsListed (c : Call) (w : World) : Prop := ∀ b, c = .createBackup b → w.HasManifest b

theorem Settled.exec_engine {w : World} {targetID : String} {c : Engine.Call} {x : Choice}
    {rest : List Event} (h : w.NoGhost) (hfin : Finished w ((.engine targetID c, x) :: rest)) :
    Settled (World.exec (.engine targetID c) x w).2 rest := by
  intro b hb
  have hrow : b ∈ w.backups.rows := hb
  by_cases hput : ∃ key m, c = .putManifest key m
  · obtain ⟨key, m, rfl⟩ := hput
    refine .inl (hasManifest_setTarget ?_ (h b hrow))
    by_cases htarget : b.targetID = targetID
    · have hlookup := h b hrow
      unfold World.HasManifest at hlookup
      rw [htarget] at hlookup
      exact .inl (x.toChoice.outcome_of (P := fun t => (t.manifests.lookup b.key).isSome) hlookup
        (lookup_putManifest _ key b.key m hlookup))
    · exact .inr htarget
  by_cases hdelete : ∃ key, c = .deleteManifest key
  · obtain ⟨key, rfl⟩ := hdelete
    by_cases hown : b.targetID = targetID ∧ b.key = key
    · obtain ⟨rfl, rfl⟩ := hown
      by_cases hx : x.TakesEffect
      · obtain ⟨y, z, rest', rfl, hz⟩ := hfin.1 b hrow rfl hx
        exact .inr ⟨z, rest', hz, .inr ⟨y, rfl⟩⟩
      · have hsame : (Target.exec (.deleteManifest b.key) x.toChoice (w.targets b.targetID)).2 =
            w.targets b.targetID := if_neg hx
        exact .inl (hasManifest_of_manifests (congrArg Target.manifests hsame) (h b hrow))
    · refine .inl (hasManifest_setTarget ?_ (h b hrow))
      by_cases htarget : b.targetID = targetID
      · have hlookup := h b hrow
        unfold World.HasManifest at hlookup
        rw [htarget] at hlookup
        have hne : b.key ≠ key := fun hkey => hown ⟨htarget, hkey⟩
        exact .inl (x.toChoice.outcome_of (P := fun t => (t.manifests.lookup b.key).isSome) hlookup
          (lookup_deleteManifest hne hlookup))
      · exact .inr htarget
  · have hkeep := exec_manifests (c := c) (fun key m hc => hput ⟨key, m, hc⟩)
      (fun key hc => hdelete ⟨key, hc⟩) x.toChoice (w.targets targetID)
    exact .inl (hasManifest_of_manifests hkeep (h b hrow))

theorem createBackup_rows {t t' : BackupTable} {b : Backup} (h : t.createBackup b = some t') :
    t'.rows = b :: t.rows := by
  unfold BackupTable.createBackup at h
  split at h
  · cases h
  · cases h
    rfl

theorem Settled.exec_createBackup {w : World} {b : Backup} {x : Choice} (h : w.NoGhost)
    (hadd : w.HasManifest b) : (World.exec (.createBackup b) x w).2.NoGhost := by
  dsimp only [World.exec]
  -- The time the database fills in is no part of the key.
  have hstamped : w.HasManifest (if b.createdAt = 0 then { b with createdAt := x.clock } else b) := by
    split <;> exact hadd
  generalize (if b.createdAt = 0 then { b with createdAt := x.clock } else b) = stamped at hstamped
  split
  · rename_i t ht
    apply x.outcome_of (P := World.NoGhost) h
    intro c hc
    have hrow : c ∈ stamped :: w.backups.rows := createBackup_rows ht ▸ hc
    rcases List.mem_cons.mp hrow with rfl | hc
    · exact hstamped
    · exact h c hc
  · exact h

theorem detach_key (id : String) (b : Backup) :
    (BackupTable.detach id b).key = b.key ∧ (BackupTable.detach id b).targetID = b.targetID := by
  unfold BackupTable.detach
  split <;> exact ⟨rfl, rfl⟩

theorem Settled.exec_clearBackupParent {w : World} {id : String} {x : Choice} {rest : List Event}
    (h : Settled w ((.clearBackupParent id, x) :: rest)) :
    Settled (World.exec (.clearBackupParent id) x w).2 rest := by
  have hstep : ∀ b ∈ w.backups.rows, w.HasManifest b ∨ Leaving b.id rest := by
    intro b hb
    rcases h b hb with h | ⟨z, rest', hz, heq | ⟨y, heq⟩⟩
    · exact .inl h
    · cases heq
    · cases heq
      exact .inr ⟨z, rest', hz, .inl rfl⟩
  apply x.outcome_of (P := fun w => Settled w rest) hstep
  intro b hb
  obtain ⟨c, hc, rfl⟩ := List.mem_map.mp hb
  have hkey := detach_key id c
  rw [BackupTable.detach_id]
  unfold World.HasManifest
  rw [hkey.1, hkey.2]
  exact hstep c hc

theorem Settled.exec_deleteBackup {w : World} {id : String} {x : Choice} {rest : List Event}
    (h : Settled w ((.deleteBackup id, x) :: rest)) :
    (World.exec (.deleteBackup id) x w).2.NoGhost := by
  by_cases hx : x.TakesEffect
  · have hstep : (World.exec (.deleteBackup id) x w).2 =
        w.setBackups (w.backups.deleteBackup id) := if_pos hx
    rw [hstep]
    intro b hb
    obtain ⟨hrow, hne⟩ := List.mem_filter.mp hb
    rcases h b hrow with h | ⟨z, rest', hz, heq | ⟨y, heq⟩⟩
    · exact h
    · cases heq
      exact absurd rfl (of_decide_eq_true hne)
    · cases heq
  · have hstep : (World.exec (.deleteBackup id) x w).2 = w := if_neg hx
    rw [hstep]
    exact h.noGhost (fun _ _ => hx) nofun

theorem Settled.exec {w : World} {c : Call} {x : Choice} {rest : List Event}
    (h : Settled w ((c, x) :: rest)) (hadd : AddsListed c w)
    (hfin : Finished w ((c, x) :: rest)) : Settled (World.exec c x w).2 rest := by
  cases c with
  | engine targetID c => exact Settled.exec_engine (h.noGhost nofun nofun) hfin
  | createBackup b =>
    exact (Settled.exec_createBackup (h.noGhost nofun nofun) (hadd b rfl)).settled rest
  | clearBackupParent id => exact h.exec_clearBackupParent
  | deleteBackup id => exact h.exec_deleteBackup.settled rest
  | _ => exact World.NoGhost.settled (h.noGhost nofun nofun) rest

/-- However many of its calls were made: a program that writes rows for manifests that
are there, and none of whose removals was cut short, leaves no ghost. -/
theorem noGhost_of_finished {α : Type} {p q : SchedM α} {w w' : World} {es : List Event}
    (h : Steps World.machine p w es q w')
    (hadd : Wp World.machine.T AddsListed (fun _ _ => True) p w)
    (hsettled : Settled w es) (hfin : Finished w es) : w'.NoGhost := by
  induction h with
  | nil => exact (settled_nil _).mp hsettled
  | cons x _ ih =>
    exact ih (hadd.2 _ _ ⟨x, rfl⟩) (hsettled.exec hadd.1 hfin) hfin.2

section AddsListed

variable {α β : Type}

def Call.AddsNone (c : Call) : Prop := ∀ b, c ≠ .createBackup b

theorem Call.AddsNone.addsListed {c : Call} (h : c.AddsNone) (w : World) : AddsListed c w :=
  fun b hb => absurd hb (h b)

theorem addsListed_bind {p : SchedM α} {f : α → SchedM β} (hp : Calls Call.AddsNone p)
    (hf : ∀ a w, Wp World.machine.T AddsListed (fun _ _ => True) (f a) w) (w : World) :
    Wp World.machine.T AddsListed (fun _ _ => True) (p >>= f) w :=
  hp.wp_bind (fun _ w hc => hc.addsListed w) hf w

theorem addsListed_of_calls {p : SchedM α} (hp : Calls Call.AddsNone p) (w : World) :
    Wp World.machine.T AddsListed (fun _ _ => True) p w :=
  (hp.wp w).mono (fun _ _ _ _ => id) (fun _ w hc => hc.addsListed w) fun _ _ => id

theorem addsNone_engine (targetID : String) (c : Engine.Call) :
    (Call.engine targetID c).AddsNone := nofun

theorem gc_addsNone (e : Engine) (targetID : String) :
    Calls Call.AddsNone (onTarget targetID e.gc) :=
  onTarget_calls (gc_calls e (fun c _ => addsNone_engine targetID c)
    (fun _ => addsNone_engine targetID _) fun _ => addsNone_engine targetID _)

theorem applyRetention_addsNone (targetID : String) (policy : RetentionPolicy)
    (sourceKind : SourceKind) (sourceID : String) :
    Calls Call.AddsNone (applyRetention targetID policy sourceKind sourceID) :=
  applyRetention_calls (fun _ => nofun) (fun _ => nofun) (fun _ => nofun) (fun _ => nofun) ..

theorem exported_addsNone (p : Plan) : Calls Call.AddsNone p.exported := by
  refine p.streams.mono ?_
  rintro c hc b rfl
  exact hc

theorem hasManifest_of_written {w w' : World} {man : Manifest} {targetID : String}
    (h : World.machine.T (.engine targetID (.putManifest man.key man)) w (.ok ()) w') {b : Backup}
    (hkey : b.key = man.key) (htarget : b.targetID = targetID) : w'.HasManifest b := by
  obtain ⟨x, hx⟩ := h
  obtain ⟨hr, rfl⟩ := Prod.mk.inj hx
  have hfault := (Choice.answer_eq_ok hr).1
  have hstep : (Target.exec (.putManifest man.key man) x.toChoice (w.targets targetID)).2 =
      (w.targets targetID).putManifest man.key man := if_pos (.inl hfault)
  unfold World.HasManifest
  rw [World.targets_setTarget, if_pos htarget, hstep, hkey]
  unfold Target.putManifest
  rw [AList.lookup_insert]
  rfl

theorem recordBackup_addsListed (job : Job) (runID : String) (sourceKind : SourceKind) (p : Plan)
    (out : Exported) {rest : SchedM (Option Err)} (hrest : Calls Call.AddsNone rest) (w : World) :
    Wp World.machine.T AddsListed (fun _ _ => True)
      (recordBackup job runID sourceKind p out rest) w := by
  refine addsListed_bind (parentFor_calls nofun) ?_ w
  rintro (err | parentID) w
  · trivial
  refine ⟨nofun, fun backupID w _ => ⟨nofun, fun createdAt w _ => ⟨nofun, ?_⟩⟩⟩
  rintro (err | ⟨⟩) w' hwritten
  · trivial
  refine ⟨?_, ?_⟩
  · rintro _ ⟨⟩
    exact hasManifest_of_written hwritten rfl rfl
  · rintro (err | ⟨⟩) w _
    · trivial
    · exact addsListed_of_calls hrest w

theorem backupOneVM_addsListed (job : Job) (runID : String) (p : Plan) (w : World) :
    Wp World.machine.T AddsListed (fun _ _ => True) (backupOneVM job runID p) w := by
  refine ⟨nofun, ?_⟩
  rintro (f | ⟨⟩) w _
  · trivial
  refine addsListed_bind (exported_addsNone p) ?_ w
  rintro (err | out) w
  · trivial
  apply recordBackup_addsListed
  refine ⟨nofun, ?_⟩
  rintro (f | ⟨⟩)
  · trivial
  · exact applyRetention_addsNone ..

theorem backupAgentJob_addsListed (job : Job) (runID : String) (p : Plan) (w : World) :
    Wp World.machine.T AddsListed (fun _ _ => True) (backupAgentJob job runID p) w := by
  refine addsListed_bind (exported_addsNone p) ?_ w
  rintro (err | out) w
  · trivial
  · exact recordBackup_addsListed job runID .agent p out (applyRetention_addsNone ..) w

theorem backupJob_addsListed (job : Job) (runID : String) (planned : Planned) (w : World) :
    Wp World.machine.T AddsListed (fun _ _ => True) (backupJob job runID planned) w := by
  cases planned with
  | failed err => trivial
  | vms plans => exact backupVMJob_wp (fun _ => nofun) (fun p _ => backupOneVM_addsListed job runID p) w
  | agent p => exact backupAgentJob_addsListed job runID p w

theorem backupAttempt_addsListed (e : Engine) (job : Job) (runID : String) (planned : Planned)
    (w : World) :
    Wp World.machine.T AddsListed (fun _ _ => True) (backupAttempt e job runID planned) w := by
  refine ⟨nofun, ?_⟩
  rintro (err | ⟨⟩) w _
  · trivial
  refine ⟨nofun, fun _ w _ => (wp_bind _ _ _).mpr ?_⟩
  refine (backupJob_addsListed job runID planned w).post_mono fun runErr w _ => ?_
  exact addsListed_of_calls (endAttempt_calls nofun nofun (gc_calls e (fun _ _ => nofun)
    (fun _ => nofun) fun _ => nofun) runErr) w

theorem removeBackup_addsNone (backupID : String) : Calls Call.AddsNone (removeBackup backupID) :=
  removeBackup_calls (fun _ => nofun) (fun _ => nofun) (fun _ _ => nofun) (fun _ => nofun)
    (fun _ => nofun) backupID

theorem deleteBackup_addsNone (e : Engine) (backupID : String) :
    Calls Call.AddsNone (deleteBackup e backupID) := by
  refine (removeBackup_addsNone backupID).bind ?_
  rintro (err | targetID)
  · trivial
  refine ⟨nofun, fun idle => ?_⟩
  dsimp only
  split
  · exact (gc_addsNone e targetID).bind fun _ => trivial
  · trivial

end AddsListed

end ProxBack.Sched
