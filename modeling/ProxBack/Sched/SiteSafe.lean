import ProxBack.Engine.IndexSound
import ProxBack.Sched.Site

/-! When passes leave the restore points whole. A pass is safe for what was on the target
when it was found idle; a run that comes in meanwhile is safe as long as the pass does
not delete what that run has accepted. -/
namespace ProxBack.Sched
open Lib Prog Engine Store

def World.Complete (w : World) : Prop :=
  ∀ targetID key m, (w.targets targetID).manifests.lookup key = some (some m) →
    ∀ sha ∈ m.hashes, (w.targets targetID).Present sha

/-- The steps that do no harm: a pass deletes no chunk that a run has accepted since the
pass began, and no worker finds an index row whose chunk is gone. -/
def Site.Guarded (s : Site) : Action → Prop
  | .collect i x => ∀ p sha k, s.passes[i]? = some p → p.prog = .call (.delete sha) k →
      x.TakesEffect → sha ∉ p.since
  | .work i j x => ∀ r sha sha' k, s.runs[i]? = some r →
      r.workers[j]? = some ⟨sha', .call (.hasChunk sha) k⟩ → x.fault = none →
      (s.world.targets r.targetID).Indexed sha → (s.world.targets r.targetID).Present sha
  | _ => True

def Told : (c : Call) → Reply c → Finset Sha → Prop
  | .exported, r, stored => ∀ out, r = .ok out → ∀ d ∈ out.1, ∀ ch ∈ d.chunks, ch.sha256 ∈ stored
  | _, _, _ => True

def Call.Removes : Call → Prop
  | .engine _ (.deleteManifest _) => True
  | .engine _ _ | .markTargetActive _ | .markTargetIdle _ => False
  | _ => True

/-- The calls of a run's body: those of a removal, and manifests of stored chunks. -/
def Call.Records (targetID : String) (c : Call) (stored : Finset Sha) : Prop :=
  c.Removes ∨ ∃ key m, c = .engine targetID (.putManifest key m) ∧ ∀ sha ∈ m.hashes, sha ∈ stored

def Stores : Engine.Call → Prop
  | .delete _ | .deleteChunk _ | .putManifest _ _ | .deleteManifest _ => False
  | _ => True

def Collects : Engine.Call → Prop
  | .put _ _ | .addChunk _ _ | .putManifest _ _ | .deleteManifest _ => False
  | _ => True

def Vouched (c : Engine.Call) (r : Engine.Reply c) (accepted : Finset Sha) : Prop :=
  ∀ sha, accepts c r = some sha → sha ∈ accepted

def Worker.Good (v : Worker) (accepted : Finset Sha) : Prop :=
  Wp (Growing Vouched) (fun c _ => Stores c) (fun ok accepted => ok = true → v.sha ∈ accepted)
    v.prog accepted

structure Run.Good (r : Run) : Prop where
  stored : r.stored ⊆ r.accepted
  workers : ∀ v ∈ r.workers, v.Good r.accepted
  body : Wp (Growing Told) (Call.Records r.targetID) (fun _ _ => True) r.body r.stored

/-- A pass leaves alone what a manifest names, or runs have accepted it meanwhile. -/
structure Pass.Good (p : Pass) (w : World) : Prop where
  calls : Calls Collects p.prog
  named : ∀ key m, (w.targets p.targetID).manifests.lookup key = some (some m) →
    ∀ sha ∈ m.hashes, sha ∈ p.since ∨
      Wp (fun c (_ : Unit) r _ => Shows key m c r) (fun c _ => c.Keeps sha) (fun _ _ => True)
        p.prog ()

theorem putChunk_good (e : Engine) (data : Bytes) (accepted : Finset Sha) :
    (Worker.putChunk e data).Good accepted := by
  refine ⟨trivial, ?_⟩
  rintro (err | - | -) s hs
  · exact nofun
  · refine ⟨trivial, ?_⟩
    rintro (err | - | size) s hs
    · exact nofun
    · refine ⟨trivial, ?_⟩
      rintro (err | ⟨⟩) s hs
      · exact nofun
      refine ⟨trivial, ?_⟩
      rintro (err | ⟨⟩) s hs
      · exact nofun
      have hin := hs.2 _ rfl
      refine ⟨trivial, ?_⟩
      rintro (err | ⟨⟩) s hs
      · exact nofun
      · exact fun _ => hs.1 hin
    · have hin := hs.2 _ rfl
      refine ⟨trivial, ?_⟩
      rintro (err | ⟨⟩) s hs
      · exact nofun
      · exact fun _ => hs.1 hin
  · exact fun _ => hs.2 _ rfl

theorem hasChunk_good (sha : Sha) (accepted : Finset Sha) :
    (Worker.hasChunk sha).Good accepted := by
  refine ⟨trivial, ?_⟩
  rintro (err | - | -) s hs
  · exact nofun
  · refine ⟨trivial, ?_⟩
    rintro (err | - | size) s hs
    · exact nofun
    · exact nofun
    · have hin := hs.2 _ rfl
      refine ⟨trivial, ?_⟩
      rintro (err | ⟨⟩) s hs
      · exact nofun
      · exact fun _ => hs.1 hin
  · exact fun _ => hs.2 _ rfl

theorem Worker.Good.grow {v : Worker} {accepted accepted' : Finset Sha} (h : v.Good accepted)
    (hle : accepted ⊆ accepted') : v.Good accepted' :=
  Wp.grow h (fun _ _ _ _ => id) (fun _ _ _ hsub hin hok => hsub (hin hok)) hle

theorem records_mono {targetID : String} {c : Call} {stored stored' : Finset Sha}
    (hle : stored ⊆ stored') (h : c.Records targetID stored) : c.Records targetID stored' := by
  rcases h with h | ⟨key, m, rfl, hsub⟩
  · exact .inl h
  · exact .inr ⟨key, m, rfl, fun sha hsha => hle (hsub sha hsha)⟩

theorem recordBackup_records {job : Job} {runID : String} {sourceKind : SourceKind} {p : Plan}
    {out : Exported} {rest : SchedM (Option Err)} {stored : Finset Sha}
    (hrest : Calls Call.Removes rest) (hout : ∀ d ∈ out.1, ∀ ch ∈ d.chunks, ch.sha256 ∈ stored) :
    Wp (Growing Told) (Call.Records job.targetID) (fun _ _ => True)
      (recordBackup job runID sourceKind p out rest) stored := by
  have hremoves : ∀ {α : Type} {p : SchedM α}, Calls Call.Removes p → ∀ stored,
      Wp (Growing Told) (Call.Records job.targetID) (fun _ _ => True) p stored :=
    fun hp stored => (hp.wp stored).mono (fun _ _ _ _ => id) (fun _ _ hc => .inl hc) fun _ _ => id
  have hparent : Wp (Growing Told) (Call.Records job.targetID) (fun _ s => stored ⊆ s)
      (parentFor sourceKind p.sourceID job.targetID) stored := by
    refine ⟨.inl trivial, ?_⟩
    rintro (err | prev) s hs
    · dsimp only
      split <;> exact hs.1
    · exact hs.1
  refine (wp_bind _ _ _).mpr (hparent.post_mono ?_)
  rintro (err | parentID) s₁ h₁
  · trivial
  refine ⟨.inl trivial, fun backupID s₂ h₂ => ⟨.inl trivial, fun createdAt s₃ h₃ => ⟨?_, ?_⟩⟩⟩
  · refine .inr ⟨_, _, rfl, ?_⟩
    intro sha hsha
    have hnames : sha ∈ out.1.flatMap fun d => d.chunks.map Chunk.sha256 := hsha
    obtain ⟨d, hd, hch⟩ := List.mem_flatMap.mp hnames
    obtain ⟨ch, hmem, rfl⟩ := List.mem_map.mp hch
    exact h₃.1 (h₂.1 (h₁ (hout d hd ch hmem)))
  · rintro (err | ⟨⟩) s₄ h₄
    · trivial
    refine ⟨.inl trivial, ?_⟩
    rintro (err | ⟨⟩) s₅ h₅
    · trivial
    · exact hremoves hrest s₅

theorem applyRetention_removes (targetID : String) (policy : RetentionPolicy)
    (sourceKind : SourceKind) (sourceID : String) :
    Calls Call.Removes (applyRetention targetID policy sourceKind sourceID) :=
  applyRetention_calls (fun _ => trivial) (fun _ => trivial) (fun _ => trivial)
    (fun _ => trivial) ..

theorem backupOneVM_records (job : Job) (runID : String)
    (source : { source : String × String // source.1 ≠ "" }) (stored : Finset Sha) :
    Wp (Growing Told) (Call.Records job.targetID) (fun _ _ => True)
      (backupOneVM job runID (Work.plan source)) stored := by
  refine ⟨.inl trivial, ?_⟩
  rintro (f | ⟨⟩) s _
  · trivial
  refine ⟨.inl trivial, ?_⟩
  rintro (err | out) s hs
  · trivial
  apply recordBackup_records _ (hs.2 out rfl)
  refine ⟨trivial, ?_⟩
  rintro (f | ⟨⟩)
  · trivial
  · exact applyRetention_removes ..

theorem backupJob_records (job : Job) (runID : String) (work : Work) (stored : Finset Sha) :
    Wp (Growing Told) (Call.Records job.targetID) (fun _ _ => True)
      (backupJob job runID work.planned) stored := by
  cases work with
  | failed err => trivial
  | agent source =>
    refine ⟨.inl trivial, ?_⟩
    rintro (err | out) s hs
    · trivial
    · exact recordBackup_records (applyRetention_removes ..) (hs.2 out rfl)
  | vms sources =>
    refine backupVMJob_wp (fun _ => .inl trivial) (fun p hp => ?_) stored
    obtain ⟨source, -, rfl⟩ := List.mem_map.mp hp
    exact backupOneVM_records job runID source

theorem removeBackup_removes (backupID : String) : Calls Call.Removes (removeBackup backupID) :=
  removeBackup_calls (fun _ => trivial) (fun _ => trivial) (fun _ _ => trivial) (fun _ => trivial)
    (fun _ => trivial) backupID

theorem gc_collects (e : Engine) : Calls Collects e.gc := by
  refine gc_calls e ?_ (fun _ => trivial) fun _ => trivial
  intro c hc
  cases c <;> first | exact hc.elim | trivial

structure World.Keeps (w w' : World) : Prop where
  manifests : ∀ targetID key m, (w'.targets targetID).manifests.lookup key = some (some m) →
    (w.targets targetID).manifests.lookup key = some (some m)
  chunks : ∀ targetID sha, (w.targets targetID).Present sha → (w'.targets targetID).Present sha
  active : w'.targetActive = w.targetActive

theorem World.Keeps.refl (w : World) : w.Keeps w := ⟨fun _ _ _ => id, fun _ _ => id, rfl⟩

theorem keeps_setTarget {w : World} {targetID : String} {t : Target}
    (hmanifests : ∀ key m, t.manifests.lookup key = some (some m) →
      (w.targets targetID).manifests.lookup key = some (some m))
    (hchunks : ∀ sha, (w.targets targetID).Present sha → t.Present sha) :
    w.Keeps (w.setTarget targetID t) where
  manifests a key m h := by
    rw [World.targets_setTarget] at h
    split at h
    · rename_i heq
      rw [heq]
      exact hmanifests key m h
    · exact h
  chunks a sha h := by
    rw [World.targets_setTarget]
    split
    · rename_i heq
      rw [heq] at h
      exact hchunks sha h
    · exact h
  active := rfl

theorem exec_stores {c : Engine.Call} (hc : Stores c) (x : Engine.Choice) (t : Target) :
    (Target.exec c x t).2.manifests = t.manifests ∧
      ∀ sha, t.Present sha → (Target.exec c x t).2.Present sha := by
  cases c with
  | delete | deleteChunk | putManifest | deleteManifest => exact hc.elim
  | put a body =>
    exact x.outcome_of (P := fun s => s.manifests = t.manifests ∧ ∀ sha, t.Present sha → s.Present sha)
      ⟨rfl, fun _ => id⟩ ⟨rfl, fun sha h => (t.present_putObject sha a _ _).mpr (.inr h)⟩
  | addChunk a size =>
    exact x.outcome_of (P := fun s => s.manifests = t.manifests ∧ ∀ sha, t.Present sha → s.Present sha)
      ⟨rfl, fun _ => id⟩ ⟨rfl, fun _ => id⟩
  | _ => exact ⟨rfl, fun _ => id⟩

theorem exec_collects {c : Engine.Call} (hc : Collects c) (x : Engine.Choice) (t : Target) :
    (Target.exec c x t).2.manifests = t.manifests ∧
      ∀ sha, t.Present sha → (c = .delete sha ∧ x.TakesEffect) ∨ (Target.exec c x t).2.Present sha := by
  cases c with
  | put | addChunk | putManifest | deleteManifest => exact hc.elim
  | delete a =>
    refine ⟨x.outcome_of (P := fun s => s.manifests = t.manifests) rfl rfl, fun sha hsha => ?_⟩
    by_cases hx : x.TakesEffect
    · by_cases ha : sha = a
      · exact .inl ⟨by rw [ha], hx⟩
      · have hstep : (Target.exec (.delete a) x t).2 = t.deleteObject a := if_pos hx
        rw [hstep]
        exact .inr ((t.present_deleteObject sha a).mpr ⟨ha, hsha⟩)
    · have hstep : (Target.exec (.delete a) x t).2 = t := if_neg hx
      rw [hstep]
      exact .inr hsha
  | deleteChunk a =>
    refine ⟨x.outcome_of (P := fun s => s.manifests = t.manifests) rfl rfl, fun sha hsha => .inr ?_⟩
    exact x.outcome_of (P := fun s => s.Present sha) hsha hsha
  | _ => exact ⟨rfl, fun _ => .inr⟩

theorem keeps_of_stores {c : Engine.Call} (hc : Stores c) (x : Engine.Choice) (w : World)
    (targetID : String) :
    w.Keeps (w.setTarget targetID (Target.exec c x (w.targets targetID)).2) := by
  obtain ⟨hmanifests, hchunks⟩ := exec_stores hc x (w.targets targetID)
  apply keeps_setTarget _ hchunks
  intro key m h
  rw [hmanifests] at h
  exact h

theorem keeps_of_removes {c : Call} (hc : c.Removes) (x : Choice) (w : World) :
    w.Keeps (World.exec c x w).2 := by
  have hbackups : ∀ t : BackupTable, w.Keeps (x.outcome w (w.setBackups t)) := fun t =>
    x.outcome_of (P := w.Keeps) (.refl w) ⟨fun _ _ _ => id, fun _ _ => id, rfl⟩
  cases c with
  | engine targetID c =>
    cases c with
    | deleteManifest key =>
      apply keeps_setTarget
      · intro k m
        refine x.toChoice.outcome_of (P := fun t => t.manifests.lookup k = some (some m) →
          (w.targets targetID).manifests.lookup k = some (some m)) id ?_
        intro h
        unfold Target.deleteManifest at h
        rw [FinMap.lookup_erase_ite] at h
        split at h
        · cases h
        · exact h
      · intro sha h
        exact x.toChoice.outcome_of (P := fun t => t.Present sha) h h
    | _ => exact hc.elim
  | createBackup b =>
    dsimp only [World.exec]
    split
    · exact hbackups _
    · exact .refl w
  | clearBackupParent | deleteBackup => exact hbackups _
  | markTargetActive | markTargetIdle => exact hc.elim
  | _ => exact .refl w

theorem present_of_accepts {c : Engine.Call} {x : Engine.Choice} {t : Target} {sha : Sha}
    (hindex : ∀ a, c = .hasChunk a → x.fault = none → t.Indexed a → t.Present a)
    (h : accepts c (Target.exec c x t).1 = some sha) : (Target.exec c x t).2.Present sha := by
  have hT : Target.machine.T c t (Target.exec c x t).1 (Target.exec c x t).2 := ⟨x, rfl⟩
  cases c with
  | hasChunk a =>
    generalize hr : (Target.exec (.hasChunk a) x t).1 = r at h hT
    match r, h with
    | .ok true, rfl => exact hindex a rfl (Choice.answer_eq_ok hr).1 ((T_hasChunk hT).mp rfl)
  | head a =>
    generalize (Target.exec (.head a) x t).1 = r at h hT
    match r, h with
    | .ok (some size), rfl =>
      rw [T_reads hT trivial]
      exact T_head_some hT
  | put a body =>
    generalize (Target.exec (.put a body) x t).1 = r at h hT
    match r, h with
    | .ok (), rfl =>
      obtain ⟨stamp, heq⟩ := T_put hT
      rw [heq]
      exact (t.present_putObject _ _ _ _).mpr (.inl rfl)
  | _ => cases h

end ProxBack.Sched
