import ProxBack.Sched.Ghost

/-! The condition under which no ghost appears is exact: after a removal that was cut
short the operation does nothing more to rows or manifests, so the ghost stays. -/
namespace ProxBack.Sched
open Lib Prog Engine Store

def Call.Spares (c : Call) : Prop := ∀ targetID key, c ≠ .engine targetID (.deleteManifest key)

def Call.Idles (c : Call) : Prop := ∃ targetID, c = .markTargetIdle targetID

/-- A deletion of a manifest that fails ends the operation, and one that succeeds is
followed by the calls on its row, whose failure ends it too. -/
def Prompt {α : Type} (bad : α → Prop) (p : SchedM α) : Prop :=
  ∀ targetID key k, p = .call (.engine targetID (.deleteManifest key)) k →
    (∀ err, Ends Call.Idles bad (k (.error err))) ∧
    ∃ k₁, k (.ok ()) = .call (.clearBackupParent key.backupID) k₁ ∧
      (∀ err, Ends Call.Idles bad (k₁ (.error err))) ∧
      ∃ k₂, k₁ (.ok ()) = .call (.deleteBackup key.backupID) k₂ ∧
        ∀ op f, Ends Call.Idles bad (k₂ (.error (.failed op f)))

section Prompt

variable {α β : Type} {bad : α → Prop} {bad' : β → Prop}

theorem prompt_of_ne {c : Call} {k : Reply c → SchedM α} (hc : c.Spares) :
    Prompt bad (.call c k) := by
  rintro targetID key k' heq
  injection heq with hcall
  exact absurd hcall (hc targetID key)

theorem prompt_after {p : SchedM α} {f : α → SchedM β} (hp : Calls Call.Spares p)
    (hf : ∀ a, Everywhere (Prompt bad') (f a)) : Everywhere (Prompt bad') (p >>= f) :=
  Everywhere.bind (fun _ _ hc => prompt_of_ne hc) hp hf

theorem prompt_bind {p : SchedM α} {f : α → SchedM β} (hp : Everywhere (Prompt bad) p)
    (hbad : ∀ a, bad a → Ends Call.Idles bad' (f a)) (hf : ∀ a, Everywhere (Prompt bad') (f a)) :
    Everywhere (Prompt bad') (p >>= f) := by
  induction p with
  | ret a => exact hf a
  | call c k ih =>
    refine ⟨?_, fun r => ih r (hp.2 r)⟩
    rintro targetID key k' heq
    cases heq
    obtain ⟨herr, k₁, hk₁, herr₁, k₂, hk₂, herr₂⟩ := hp.1 targetID key k rfl
    refine ⟨fun err => (herr err).bind hbad, fun r => k₁ r >>= f, ?_,
      fun err => (herr₁ err).bind hbad, fun r => k₂ r >>= f, ?_, fun op f => (herr₂ op f).bind hbad⟩
    · exact congrArg (· >>= f) hk₁
    · exact congrArg (· >>= f) hk₂

theorem pruneLoop_prompt (targetID : String) (list : List Backup) (ds : List RetentionDecision) :
    Everywhere (Prompt (fun err => err ≠ none)) (pruneLoop targetID list ds) := by
  have hend : ∀ err : Err, Ends (R := Reply) Call.Idles (fun err => err ≠ none) (.ret (some err)) :=
    fun _ => Option.some_ne_none _
  induction ds with
  | nil => exact nofun
  | cons d ds ih =>
    unfold pruneLoop
    split
    · exact ih
    rename_i b _
    refine ⟨?_, ?_⟩
    · rintro _ _ _ ⟨⟩
      refine ⟨fun err => hend _, _, rfl, fun err => hend _, _, rfl, fun op f => ?_⟩
      dsimp only
      rw [if_neg nofun]
      exact hend _
    · rintro (err | ⟨⟩)
      · exact nofun
      refine ⟨prompt_of_ne nofun, ?_⟩
      rintro (err | ⟨⟩)
      · exact nofun
      refine ⟨prompt_of_ne nofun, ?_⟩
      rintro (err | ⟨⟩)
      · dsimp only
        split
        · exact ih
        · exact nofun
      · exact ih

theorem applyRetention_prompt (targetID : String) (policy : RetentionPolicy)
    (sourceKind : SourceKind) (sourceID : String) :
    Everywhere (Prompt (fun err => err ≠ none))
      (applyRetention targetID policy sourceKind sourceID) := by
  unfold applyRetention
  split
  · exact nofun
  refine ⟨prompt_of_ne nofun, ?_⟩
  rintro (err | list)
  · exact nofun
  dsimp only
  split
  · exact nofun
  split
  · exact nofun
  split
  · exact nofun
  · exact pruneLoop_prompt targetID list _

theorem recordBackup_prompt (job : Job) (runID : String) (sourceKind : SourceKind) (p : Plan)
    (out : Exported) {rest : SchedM (Option Err)}
    (hrest : Everywhere (Prompt (fun err => err ≠ none)) rest) :
    Everywhere (Prompt (fun err => err ≠ none)) (recordBackup job runID sourceKind p out rest) := by
  have hput : ∀ key m, (Call.engine job.targetID (.putManifest key m)).Spares := by
    rintro key m T k ⟨⟩
  refine prompt_after (parentFor_calls nofun) ?_
  rintro (err | parentID)
  · exact nofun
  refine ⟨prompt_of_ne nofun, fun backupID => ⟨prompt_of_ne nofun, fun createdAt =>
    ⟨prompt_of_ne (hput _ _), ?_⟩⟩⟩
  rintro (err | ⟨⟩)
  · exact nofun
  refine ⟨prompt_of_ne nofun, ?_⟩
  rintro (err | ⟨⟩)
  · exact nofun
  · exact hrest

theorem exported_spares (p : Plan) : Calls Call.Spares p.exported := by
  refine p.streams.mono ?_
  rintro c hc targetID key rfl
  exact hc

theorem backupOneVM_prompt (job : Job) (runID : String) (p : Plan) :
    Everywhere (Prompt (fun err => err ≠ none)) (backupOneVM job runID p) := by
  refine ⟨prompt_of_ne nofun, ?_⟩
  rintro (f | ⟨⟩)
  · exact nofun
  refine prompt_after (exported_spares p) ?_
  rintro (err | out)
  · exact nofun
  apply recordBackup_prompt
  refine ⟨prompt_of_ne nofun, ?_⟩
  rintro (f | ⟨⟩)
  · exact nofun
  · exact applyRetention_prompt ..

theorem backupVMJob_prompt (job : Job) (runID : String) (plans : List Plan) :
    Everywhere (Prompt (fun err => err ≠ none)) (backupVMJob job runID plans) := by
  induction plans with
  | nil => exact nofun
  | cons p plans ih =>
    refine ⟨prompt_of_ne nofun, ?_⟩
    rintro (- | f)
    · refine prompt_bind (backupOneVM_prompt job runID p) ?_ ?_
      · rintro (- | err) herr
        · exact absurd rfl herr
        · exact Option.some_ne_none err
      · rintro (- | err)
        · exact ih
        · exact nofun
    · exact nofun

theorem backupJob_prompt (job : Job) (runID : String) (planned : Planned) :
    Everywhere (Prompt (fun err => err ≠ none)) (backupJob job runID planned) := by
  cases planned with
  | failed err => exact nofun
  | vms plans => exact backupVMJob_prompt job runID plans
  | agent p =>
    refine prompt_after (exported_spares p) ?_
    rintro (err | out)
    · exact nofun
    · exact recordBackup_prompt job runID .agent p out (applyRetention_prompt ..)

theorem gc_spares (e : Engine) (targetID : String) :
    Calls Call.Spares (onTarget targetID e.gc) := by
  refine onTarget_calls (gc_calls e ?_ (fun _ => nofun) fun _ => nofun)
  rintro c hc T key ⟨⟩
  exact hc

theorem endAttempt_prompt (e : Engine) (targetID : String) (runErr : Option Err) :
    Everywhere (Prompt (fun _ => True)) (endAttempt e targetID runErr) := by
  refine ⟨prompt_of_ne nofun, fun idle => ?_⟩
  dsimp only
  split
  · exact nofun
  refine ⟨prompt_of_ne nofun, ?_⟩
  rintro (- | f)
  · exact prompt_after (gc_spares e targetID) fun _ => nofun
  · exact nofun

theorem backupAttempt_prompt (e : Engine) (job : Job) (runID : String) (planned : Planned) :
    Everywhere (Prompt (fun _ => True)) (backupAttempt e job runID planned) := by
  refine ⟨prompt_of_ne nofun, ?_⟩
  rintro (err | ⟨⟩)
  · exact nofun
  refine ⟨prompt_of_ne nofun, fun _ => ?_⟩
  refine prompt_bind (backupJob_prompt job runID planned) ?_ (endAttempt_prompt e job.targetID)
  intro runErr herr
  refine ⟨⟨_, rfl⟩, fun idle _ _ => ?_⟩
  -- A failed attempt does not collect.
  dsimp only
  rw [if_pos (.inr herr)]
  trivial

theorem removeBackup_prompt (backupID : String) :
    Everywhere (Prompt (fun out => ∃ err, out = .error err)) (removeBackup backupID) := by
  refine ⟨prompt_of_ne nofun, ?_⟩
  rintro (err | b)
  · exact nofun
  refine ⟨prompt_of_ne nofun, ?_⟩
  rintro (err | ⟨⟩)
  · exact nofun
  refine ⟨?_, ?_⟩
  · rintro _ _ _ ⟨⟩
    exact ⟨fun err => ⟨_, rfl⟩, _, rfl, fun err => ⟨_, rfl⟩, _, rfl, fun op f => ⟨_, rfl⟩⟩
  rintro (err | ⟨⟩)
  · exact nofun
  refine ⟨prompt_of_ne nofun, ?_⟩
  rintro (err | ⟨⟩)
  · exact nofun
  refine ⟨prompt_of_ne nofun, ?_⟩
  rintro (err | ⟨⟩) <;> exact nofun

theorem deleteBackup_prompt (e : Engine) (backupID : String) :
    Everywhere (Prompt (fun _ => True)) (deleteBackup e backupID) := by
  refine prompt_bind (removeBackup_prompt backupID) ?_ ?_
  · rintro _ ⟨err, rfl⟩
    trivial
  rintro (err | targetID)
  · exact nofun
  refine ⟨prompt_of_ne nofun, fun idle => ?_⟩
  dsimp only
  split
  · exact prompt_after (gc_spares e targetID) fun _ => nofun
  · exact nofun

end Prompt

section Exact

variable {α : Type} {bad : α → Prop}

theorem Choice.reply_fault {x : Choice} (h : x.fault ≠ none) (op : String)
    (v : Except Store.Err α) : ∃ f, x.reply op v = .error (.failed op f) := by
  unfold Choice.reply
  split
  · contradiction
  · exact ⟨_, rfl⟩

theorem noGhost_of_ends {p q : SchedM α} {w w' : World} {es : List Event}
    (hp : Ends Call.Idles bad p) (h : Steps World.machine p w es q w') (hw : w'.NoGhost) :
    w.NoGhost := by
  induction h with
  | nil => exact hw
  | cons x _ ih =>
    obtain ⟨targetID, rfl⟩ := hp.1
    exact ih (hp.2 _ _ trivial) hw

theorem noGhost_of_clear {w : World} {id : String} {x : Choice}
    (h : (World.exec (.clearBackupParent id) x w).2.NoGhost) : w.NoGhost := by
  by_cases hx : x.TakesEffect
  · have hstep : (World.exec (.clearBackupParent id) x w).2 =
        w.setBackups (w.backups.clearBackupParent id) := if_pos hx
    rw [hstep] at h
    intro b hb
    have hmem : BackupTable.detach id b ∈ (w.backups.clearBackupParent id).rows :=
      List.mem_map_of_mem hb
    have hdetached := h _ hmem
    unfold World.HasManifest at hdetached
    rw [(detach_key id b).1, (detach_key id b).2] at hdetached
    exact hdetached
  · have hstep : (World.exec (.clearBackupParent id) x w).2 = w := if_neg hx
    rw [hstep] at h
    exact h

theorem not_noGhost_of_deleted {w : World} {b : Backup} {x : Choice} (hb : b ∈ w.backups.rows)
    (hx : x.TakesEffect) :
    ¬ (World.exec (.engine b.targetID (.deleteManifest b.key)) x w).2.NoGhost := by
  intro hw
  have hmanifest := hw b hb
  have hstep : (Target.exec (.deleteManifest b.key) x.toChoice (w.targets b.targetID)).2 =
      (w.targets b.targetID).deleteManifest b.key := if_pos hx
  unfold World.HasManifest at hmanifest
  dsimp only [World.exec] at hmanifest
  rw [World.targets_setTarget, if_pos rfl, hstep] at hmanifest
  unfold Target.deleteManifest at hmanifest
  rw [AList.lookup_erase] at hmanifest
  cases hmanifest

theorem Prompt.next {w w' : World} {b : Backup}
    {k : Reply (.engine b.targetID (.deleteManifest b.key)) → SchedM α} {q : SchedM α}
    {x : Choice} {rest : List Event}
    (hprompt : Prompt bad (.call (.engine b.targetID (.deleteManifest b.key)) k))
    (hb : b ∈ w.backups.rows) (hx : x.TakesEffect)
    (h : Steps World.machine (k (World.exec (.engine b.targetID (.deleteManifest b.key)) x w).1)
      (World.exec (.engine b.targetID (.deleteManifest b.key)) x w).2 rest q w')
    (hw : w'.NoGhost) :
    ∃ y z rest', rest = (.clearBackupParent b.id, y) :: (.deleteBackup b.id, z) :: rest' ∧
      z.TakesEffect := by
  obtain ⟨herr, k₁, hk₁, herr₁, k₂, hk₂, herr₂⟩ := hprompt _ _ k rfl
  have hghost := not_noGhost_of_deleted hb hx
  generalize (World.exec (.engine b.targetID (.deleteManifest b.key)) x w).2 = w₁ at h hghost
  have hreply : (World.exec (.engine b.targetID (.deleteManifest b.key)) x w).1 =
      x.toChoice.answer (.ok ()) := rfl
  rw [hreply] at h
  by_cases hf : x.fault = none
  swap
  · obtain ⟨err, hans⟩ := Engine.Choice.answer_fault (x := x.toChoice) hf (.ok ())
    rw [hans] at h
    exact absurd (noGhost_of_ends (herr err) h hw) hghost
  have hok : x.toChoice.answer (.ok ()) = .ok () := by simp [Engine.Choice.answer, hf]
  rw [hok, hk₁] at h
  cases h with
  | nil => exact absurd hw hghost
  | @cons _ _ _ rest₁ _ _ y h =>
    have hclear : ¬ (World.exec (.clearBackupParent b.id) y w₁).2.NoGhost :=
      fun hend => hghost (noGhost_of_clear hend)
    by_cases hy : y.fault = none
    swap
    · obtain ⟨f, hans⟩ := Choice.reply_fault hy "clear backup parent" (.ok ())
      have hend := noGhost_of_ends (herr₁ _) (by
        rw [← hans]
        exact h) hw
      exact absurd hend hclear
    have hcleared : (World.exec (.clearBackupParent b.id) y w₁).1 = .ok () := by
      simp [World.exec, Choice.reply, hy]
    have h₂ : Steps World.machine (k₁ (.ok ())) (World.exec (.clearBackupParent b.id) y w₁).2
        rest₁ q w' := hcleared ▸ h
    rw [hk₂] at h₂
    cases h₂ with
    | nil => exact absurd hw hclear
    | @cons _ _ _ rest₂ _ _ z h₃ =>
      refine ⟨y, z, rest₂, rfl, ?_⟩
      by_contra hz
      generalize (World.exec (.clearBackupParent b.id) y w₁).2 = w₂ at h₃ hclear
      have hsame : (World.exec (.deleteBackup b.id) z w₂).2 = w₂ := if_neg hz
      obtain ⟨f, hans⟩ := Choice.reply_fault (fun hnone => hz (.inl hnone)) "delete backup"
        (if b.id ∈ w₂.backups.rows.map Backup.id then .ok () else .error Store.Err.notFound)
      have hend : (World.exec (.deleteBackup b.id) z w₂).2.NoGhost :=
        noGhost_of_ends (herr₂ "delete backup" f) (by
          rw [← hans]
          exact h₃) hw
      rw [hsame] at hend
      exact hclear hend

theorem finished_of_noGhost {p q : SchedM α} {w w' : World} {es : List Event}
    (h : Steps World.machine p w es q w') (hprompt : Everywhere (Prompt bad) p)
    (hw : w'.NoGhost) : Finished w es := by
  induction h with
  | nil => trivial
  | @cons c k s es q t x hrest ih =>
    refine ⟨?_, ih (hprompt.2 _) hw⟩
    rintro b hb rfl hx
    exact hprompt.1.next hb hx hrest hw

end Exact

inductive Operation (w : World) (es : List Event) (w' : World) : Prop where
  | backupAttempt (e : Engine) (job : Job) (runID : String) (planned : Planned)
      (q : SchedM (Option Err))
      (h : Steps World.machine (backupAttempt e job runID planned) w es q w')
  | applyRetention (targetID : String) (policy : RetentionPolicy) (sourceKind : SourceKind)
      (sourceID : String) (q : SchedM (Option Err))
      (h : Steps World.machine (applyRetention targetID policy sourceKind sourceID) w es q w')
  | deleteBackup (e : Engine) (backupID : String) (q : SchedM (Option Err))
      (h : Steps World.machine (deleteBackup e backupID) w es q w')

theorem Operation.noGhost_iff {w w' : World} {es : List Event} (h : Operation w es w')
    (hw : w.NoGhost) : w'.NoGhost ↔ Finished w es := by
  cases h with
  | backupAttempt e job runID planned q h =>
    exact ⟨finished_of_noGhost h (backupAttempt_prompt e job runID planned),
      noGhost_of_finished h (backupAttempt_addsListed e job runID planned w) (hw.settled es)⟩
  | applyRetention targetID policy sourceKind sourceID q h =>
    exact ⟨finished_of_noGhost h (applyRetention_prompt ..), noGhost_of_finished h
      (addsListed_of_calls (applyRetention_addsNone ..) w) (hw.settled es)⟩
  | deleteBackup e backupID q h =>
    exact ⟨finished_of_noGhost h (deleteBackup_prompt e backupID), noGhost_of_finished h
      (addsListed_of_calls (deleteBackup_addsNone e backupID) w) (hw.settled es)⟩

def World.restarted (w : World) : World := { w with targetActive := fun _ => 0 }

/-- Operations one after the other, with the world each started in and its calls. The
process may be started anew before any of them. -/
inductive History : World → List (World × List Event) → World → Prop where
  | nil {w} : History w [] w
  | cons {w es w₁ log w'} (h : Operation w es w₁) (rest : History w₁ log w') :
      History w ((w, es) :: log) w'
  | restart {w log w'} (rest : History w.restarted log w') : History w log w'

theorem History.noGhost_first {w w' : World} {log : List (World × List Event)}
    (h : History w log w') (hlog : ∀ p ∈ log, p.1.NoGhost) (hw : w'.NoGhost) : w.NoGhost := by
  induction h with
  | nil => exact hw
  | cons _ _ _ => exact hlog _ List.mem_cons_self
  | restart _ ih => exact ih hlog hw

/-- Over any sequence of operations, with any failures and stops, every row has its
manifest after each of them exactly when none of them cut a removal short. -/
theorem history_noGhost_iff {w w' : World} {log : List (World × List Event)}
    (h : History w log w') (hw : w.NoGhost) :
    ((∀ p ∈ log, p.1.NoGhost) ∧ w'.NoGhost) ↔ ∀ p ∈ log, Finished p.1 p.2 := by
  induction h with
  | nil => simpa using hw
  | restart rest ih => exact ih hw
  | @cons w es w₁ log w' hop hrest ih =>
    have hstep := hop.noGhost_iff hw
    simp only [List.forall_mem_cons]
    constructor
    · rintro ⟨⟨_, hlog⟩, hend⟩
      have hw₁ := hrest.noGhost_first hlog hend
      exact ⟨hstep.mp hw₁, (ih hw₁).mp ⟨hlog, hend⟩⟩
    · rintro ⟨hfin, hlog⟩
      have hall := (ih (hstep.mpr hfin)).mpr hlog
      exact ⟨⟨hw, hall.1⟩, hall.2⟩

def listedManifest (id : String) : Manifest where
  backupID := id
  jobID := "job"
  jobName := "nightly"
  runID := "run"
  sourceKind := .vm
  sourceID := "host_101"
  sourceName := "web"
  targetID := "nas"
  createdAt := 1
  kind := .full
  parentID := ""
  sizeBytes := 0
  uploadedBytes := 0
  chunkSize := Engine.chunkSize
  disks := []

def listedBackup (id : String) : Backup :=
  newBackup (listedManifest id) (by simp [listedManifest])

def listedWorld : World where
  targets _ := ⟨∅, (AList.singleton (listedBackup "new").key (some (listedManifest "new"))).insert
    (listedBackup "old").key (some (listedManifest "old")), ∅⟩
  backups := ⟨[listedBackup "new", listedBackup "old"], by decide⟩
  jobs := ∅
  targetActive _ := 0

theorem listedWorld_noGhost : listedWorld.NoGhost := by
  intro b hb
  simp only [listedWorld, List.mem_cons, List.not_mem_nil, or_false] at hb
  rcases hb with rfl | rfl <;> decide

def listedEngine : Engine := newWithOptions (fun _ => "") ⟨none, none⟩ ⟨4, "zstd", 0⟩

def removalEvents : List Event :=
  [(.backupByID "old", .fine), (.openTarget "nas", .fine),
    (.engine "nas" (.deleteManifest (listedBackup "old").key), .fine)]

theorem removal_steps : ∃ q w', Steps World.machine (deleteBackup listedEngine "old") listedWorld
    removalEvents q w' ∧ listedBackup "old" ∈ w'.backups.rows ∧
    ¬ w'.HasManifest (listedBackup "old") :=
  ⟨_, _, .cons _ (.cons _ (.cons _ .nil)), List.mem_cons_of_mem _ List.mem_cons_self, by decide⟩

theorem removal_finished : ∃ q w', Steps World.machine (deleteBackup listedEngine "old") listedWorld
    (removalEvents ++ [(.clearBackupParent "old", .fine), (.deleteBackup "old", .fine)]) q w' ∧
    w'.backups.rows.map Backup.id = ["new"] :=
  ⟨_, _, .cons _ (.cons _ (.cons _ (.cons _ (.cons _ .nil)))), rfl⟩

/-- The removal two calls further: the row is gone, and the other one has its manifest. -/
theorem history_noGhost_of_removal : ∃ w' : World,
    w'.backups.rows.map Backup.id = ["new"] ∧ w'.NoGhost := by
  obtain ⟨q, w', h, hrows⟩ := removal_finished
  have hhistory : History listedWorld [(listedWorld, _)] w' :=
    .cons (.deleteBackup listedEngine "old" q h) .nil
  refine ⟨w', hrows, ((history_noGhost_iff hhistory listedWorld_noGhost).mpr ?_).2⟩
  intro p hp
  rw [List.mem_singleton.mp hp]
  refine ⟨nofun, nofun, ?_, nofun, nofun, trivial⟩
  rintro b hb hcall -
  obtain ⟨-, hdelete⟩ := Call.engine.inj hcall
  have hid : "old" = b.id := congrArg ManifestKey.backupID (Engine.Call.deleteManifest.inj hdelete)
  rw [← hid]
  exact ⟨.fine, .fine, [], rfl, .inl rfl⟩

/-- A process that stops right after the manifest is deleted leaves a ghost. -/
theorem history_leaves_ghost : ¬ ∀ w log w', History w log w' → w.NoGhost → w'.NoGhost := by
  intro hall
  obtain ⟨q, w', h, hrow, hmanifest⟩ := removal_steps
  have hw := hall _ _ _ (.cons (.deleteBackup listedEngine "old" q h) .nil) listedWorld_noGhost
  exact hmanifest (hw _ hrow)

end ProxBack.Sched
