import ProxBack.Sched.Storage
import Mathlib.Logic.Relation

/-! What operations on one target do to the others. -/
namespace ProxBack.Sched
open Lib Prog Engine Store

def Complete (t : Target) : Prop :=
  ∀ key m, t.manifests.lookup key = some (some m) → ∀ sha ∈ m.hashes, t.Present sha

def Calm (c : Engine.Call) (t : Target) (r : Engine.Reply c) (t' : Target) : Prop :=
  ∃ x : Engine.Choice, x.fault = none ∧ Target.exec c x t = (r, t')

section
variable {t t' : Target} {sha : Sha}

theorem Calm.machine {c : Engine.Call} {r : Engine.Reply c} (h : Calm c t r t') :
    Target.machine.T c t r t' := by
  obtain ⟨x, -, hx⟩ := h
  exact ⟨x, hx⟩

theorem Calm.addChunk {size : Nat} {r : Engine.Reply (.addChunk sha size)}
    (h : Calm (.addChunk sha size) t r t') : ∃ clock, t' = t.addRow sha size clock := by
  obtain ⟨x, hx, heq⟩ := h
  exact ⟨x.clock, (congrArg Prod.snd heq).symm.trans (if_pos (.inl hx))⟩

theorem Calm.put {body : Bytes} {r : Engine.Reply (.put sha body)} (h : Calm (.put sha body) t r t') :
    ∃ stamp, t' = t.putObject sha body stamp := by
  obtain ⟨x, hx, heq⟩ := h
  exact ⟨x.stamp, (congrArg Prod.snd heq).symm.trans (if_pos (.inl hx))⟩

structure Grew (t t' : Target) : Prop where
  sound : t.Sound → t'.Sound
  manifests : t'.manifests = t.manifests
  chunks : ∀ sha, t.Present sha → t'.Present sha

theorem Grew.refl (t : Target) : Grew t t := ⟨id, rfl, fun _ => id⟩

theorem Grew.trans {t'' : Target} (h : Grew t t') (h' : Grew t' t'') : Grew t t'' :=
  ⟨fun hs => h'.sound (h.sound hs), h'.manifests.trans h.manifests,
    fun sha hp => h'.chunks sha (h.chunks sha hp)⟩

theorem Grew.complete (h : Grew t t') (hc : Complete t) : Complete t' := by
  intro key m hm sha hsha
  rw [h.manifests] at hm
  exact h.chunks sha (hc key m hm sha hsha)

theorem grew_addRow (hp : t.Present sha) (size : Nat) (clock : Time) :
    Grew t (t.addRow sha size clock) where
  sound hs a ha := by
    rcases (t.indexed_addRow a sha size clock).mp ha with rfl | ha
    · exact hp
    · exact hs a ha
  manifests := rfl
  chunks _ := id

theorem grew_putObject (body : Bytes) (stamp : Time) : Grew t (t.putObject sha body stamp) where
  sound hs a ha := (t.present_putObject a sha body stamp).mpr (.inr (hs a ha))
  manifests := rfl
  chunks a ha := (t.present_putObject a sha body stamp).mpr (.inr ha)

theorem calm_reads {c : Engine.Call} {r : Engine.Reply c} (h : Calm c t r t') (hc : c.Reads) :
    t' = t := T_reads h.machine hc

end

theorem putChunk_calm (e : Engine) (sha : Sha) (data : Bytes) {t : Target} (hs : t.Sound) :
    Wp Calm (fun _ _ => True) (fun r t' => Grew t t' ∧ ∀ n, r = .ok n → t'.Present sha)
      (e.putChunk sha data) t := by
  refine ⟨trivial, fun r t₁ h₁ => ?_⟩
  have hsame := calm_reads h₁ trivial
  subst hsame
  match r with
  | .error err => exact ⟨.refl _, nofun⟩
  | .ok true => exact ⟨.refl _, fun _ _ => hs sha ((T_hasChunk h₁.machine).mp rfl)⟩
  | .ok false =>
    refine ⟨trivial, fun r t₂ h₂ => ?_⟩
    have hsame := calm_reads h₂ trivial
    subst hsame
    match r with
    | .error err => exact ⟨.refl _, nofun⟩
    | .ok (some size) =>
      have hp := T_head_some h₂.machine
      refine ⟨trivial, fun r t₃ h₃ => ?_⟩
      obtain ⟨clock, rfl⟩ := h₃.addChunk
      have hgrew := grew_addRow hp data.length clock
      cases r with
      | error err => exact ⟨hgrew, nofun⟩
      | ok u => exact ⟨hgrew, fun _ _ => hp⟩
    | .ok none =>
      refine ⟨trivial, fun r t₃ h₃ => ?_⟩
      have hsame := calm_reads h₃ trivial
      subst hsame
      match r with
      | .error err => exact ⟨.refl _, nofun⟩
      | .ok () =>
        refine ⟨trivial, fun r t₄ h₄ => ?_⟩
        obtain ⟨stamp, rfl⟩ := h₄.put
        have hput : Grew t₃ (t₃.putObject sha (e.body data) stamp) := grew_putObject _ _
        match r with
        | .error err => exact ⟨hput, nofun⟩
        | .ok () =>
          have hp : (t₃.putObject sha (e.body data) stamp).Present sha :=
            (t₃.present_putObject _ _ _ _).mpr (.inl rfl)
          refine ⟨trivial, fun r t₅ h₅ => ?_⟩
          obtain ⟨clock, rfl⟩ := h₅.addChunk
          have hgrew := hput.trans (grew_addRow hp data.length clock)
          cases r with
          | error err => exact ⟨hgrew, nofun⟩
          | ok u => exact ⟨hgrew, fun _ _ => hp⟩

theorem hasChunk_calm (sha : Sha) {t : Target} (hs : t.Sound) :
    Wp Calm (fun _ _ => True) (fun r t' => Grew t t' ∧ (r = .ok true → t'.Present sha))
      (Engine.hasChunk sha) t := by
  refine ⟨trivial, fun r t₁ h₁ => ?_⟩
  have hsame := calm_reads h₁ trivial
  subst hsame
  match r with
  | .error err => exact ⟨.refl _, nofun⟩
  | .ok true => exact ⟨.refl _, fun _ => hs sha ((T_hasChunk h₁.machine).mp rfl)⟩
  | .ok false =>
    refine ⟨trivial, fun r t₂ h₂ => ?_⟩
    have hsame := calm_reads h₂ trivial
    subst hsame
    match r with
    | .error err => exact ⟨.refl _, nofun⟩
    | .ok none => exact ⟨.refl _, nofun⟩
    | .ok (some size) =>
      have hp := T_head_some h₂.machine
      refine ⟨trivial, fun r t₃ h₃ => ?_⟩
      obtain ⟨clock, rfl⟩ := h₃.addChunk
      cases r with
      | error err => exact ⟨grew_addRow hp size clock, nofun⟩
      | ok u => exact ⟨grew_addRow hp size clock, fun _ => hp⟩

def Holds (t : Target) (chunks : List Chunk) : Prop := ∀ ch ∈ chunks, t.Present ch.sha256

theorem Holds.grew {t t' : Target} {chunks : List Chunk} (h : Holds t chunks) (hg : Grew t t') :
    Holds t' chunks := fun ch hch => hg.chunks _ (h ch hch)

theorem Holds.snoc {t : Target} {chunks : List Chunk} (h : Holds t chunks) {sha : Sha}
    (hp : t.Present sha) (size : Nat) : Holds t (chunks ++ [⟨sha, size⟩]) := by
  intro ch hch
  rcases List.mem_append.mp hch with hch | hch
  · exact h ch hch
  · cases List.mem_singleton.mp hch
    exact hp

theorem streamResult_chunks {name : String} {chunks : List Chunk} {dm : DiskManifest}
    (h : streamResult name none none chunks = .ok dm) : dm.chunks = chunks := by
  unfold streamResult at h
  dsimp only at h
  split at h
  · cases h
  · cases h
    rfl

def Stored (t : Target) (r : Except Engine.Err DiskManifest × Stats) (t' : Target) : Prop :=
  Grew t t' ∧ ∀ dm, r.1 = .ok dm → Holds t' dm.chunks

theorem stored_end {t t' : Target} (hg : Grew t t') {name : String} {chunks : List Chunk}
    (h : Holds t' chunks) (st : Stats) : Stored t (streamResult name none none chunks, st) t' := by
  refine ⟨hg, fun dm hdm => ?_⟩
  rw [streamResult_chunks hdm]
  exact h

theorem storeSerial_calm (e : Engine) (name : String) (units : List Bytes) {t t' : Target}
    (hg : Grew t t') (hs : t'.Sound) {chunks : List Chunk} (h : Holds t' chunks) (st : Stats) :
    Wp Calm (fun _ _ => True) (Stored t) (e.storeSerial name units chunks st) t' := by
  induction units generalizing chunks st t' with
  | nil => exact stored_end hg h st
  | cons d rest ih =>
    refine (wp_bind _ _ _).mpr ((putChunk_calm e _ d hs).post_mono ?_)
    rintro (err | n) t₁ ⟨h₁, hp⟩
    · exact ⟨hg.trans h₁, nofun⟩
    · exact ih (hg.trans h₁) (h₁.sound hs) ((h.grew h₁).snoc (hp n rfl) _) _

theorem storeOffered_calm (e : Engine) (name : String) (units : List Bytes) {t t' : Target}
    (hg : Grew t t') (hs : t'.Sound) {chunks : List Chunk} (h : Holds t' chunks) (st : Stats) :
    Wp Calm (fun _ _ => True) (Stored t) (storeOffered e name units chunks st) t' := by
  induction units generalizing chunks st t' with
  | nil => exact stored_end hg h st
  | cons d rest ih =>
    refine (wp_bind _ _ _).mpr ((hasChunk_calm (e.hash d) hs).post_mono ?_)
    rintro (err | - | -) t₁ ⟨h₁, hp⟩
    · exact ⟨hg.trans h₁, nofun⟩
    · refine (wp_bind _ _ _).mpr ((putChunk_calm e _ d (h₁.sound hs)).post_mono ?_)
      rintro (err | n) t₂ ⟨h₂, hp₂⟩
      · exact ⟨(hg.trans h₁).trans h₂, nofun⟩
      · exact ih ((hg.trans h₁).trans h₂) (h₂.sound (h₁.sound hs))
          (((h.grew h₁).grew h₂).snoc (hp₂ n rfl) _) _
    · exact ih (hg.trans h₁) (h₁.sound hs) ((h.grew h₁).snoc (hp rfl) _) _

theorem storeStream_calm (e : Engine) (kind : SourceKind) (name : String) (units : List Bytes)
    {t : Target} (hs : t.Sound) :
    Wp Calm (fun _ _ => True) (Stored t) (storeStream e kind name units) t := by
  have hnone : Holds t [] := nofun
  cases kind with
  | vm => exact storeSerial_calm e name units (.refl t) hs hnone .zero
  | agent => exact storeOffered_calm e name units (.refl t) hs hnone .zero

theorem gc_calm (e : Engine) {t : Target} (hc : Complete t) :
    Wp Calm (fun _ _ => True) (fun _ t' => Complete t') e.gc t := by
  have hmanifests : Wp Calm (fun _ _ => True) (fun _ t' => t'.manifests = t.manifests) e.gc t := by
    refine ((gc_collects e).wp (T := fun _ _ _ _ => True) ()).invariant ?_ rfl
    rintro c s r s' hs hcollects ⟨x, -, hx⟩
    have hk := (exec_collects hcollects x s).1
    rw [hx] at hk
    exact ⟨trivial, hk.trans hs⟩
  have hnamed : ∀ q : { q : ManifestKey × Manifest × Sha //
        t.manifests.lookup q.1 = some (some q.2.1) ∧ q.2.2 ∈ q.2.1.hashes },
      Wp Calm (fun _ _ => True) (fun _ t' => t'.manifests = t.manifests ∧ t'.Present q.1.2.2)
        e.gc t := by
    rintro ⟨⟨key, m, sha⟩, hm, hsha⟩
    have hkept : Wp (fun c (_ : Unit) r _ => Shows key m c r) (fun c _ => c.Keeps sha)
        (fun _ _ => True) e.gc () := gc_keeps_named e hsha
    refine hkept.invariant ?_ ⟨rfl, hc key m hm sha hsha⟩
    rintro c s r s' ⟨hs, hp⟩ hkeeps ⟨x, -, hx⟩
    have hk := exec_keeps hkeeps x s
    have hshows : Shows key m c (Target.exec c x s).1 := exec_shows (hs ▸ hm) c x
    rw [hx] at hk hshows
    refine ⟨hshows, hk.1.trans hs, ?_⟩
    unfold Target.Present at hp ⊢
    rw [hk.2]
    exact hp
  refine (hmanifests.and (Wp.forall hnamed)).post_mono ?_
  rintro a t' ⟨heq, hall⟩ key m hm sha hsha
  rw [heq] at hm
  exact (hall ⟨(key, m, sha), hm, hsha⟩).2

/-- What a call of the scheduler does to the target, when no other target is called. -/
def Onto (targetID : String) : (c : Call) → Target → Reply c → Target → Prop
  | .engine a c, t, r, t' => a = targetID ∧ Calm c t r t'
  | _, t, _, t' => t' = t

def OnlyOn (targetID : String) : Call → Prop
  | .engine a _ => a = targetID
  | _ => True

section
variable {targetID : String} {t : Target} {α : Type}

theorem wp_onTarget {p : EngineM α} {post : α → Target → Prop}
    (h : Wp Calm (fun _ _ => True) post p t) :
    Wp (Onto targetID) (fun c _ => OnlyOn targetID c) post (onTarget targetID p) t := by
  refine Wp.lift (h.mono ?_ (fun _ _ _ => rfl) fun _ _ => id)
  rintro c s r s' ⟨r', rfl, -, hcalm⟩
  exact hcalm

structure Whole (t : Target) : Prop where
  sound : t.Sound
  complete : Complete t

theorem Grew.whole {t' : Target} (h : Grew t t') (hw : Whole t) : Whole t' :=
  ⟨h.sound hw.sound, h.complete hw.complete⟩

def Trims (targetID : String) : Call → Prop
  | .engine a (.deleteManifest _) => a = targetID
  | .engine _ _ => False
  | _ => True

theorem complete_deleteManifest (h : Complete t) (key : ManifestKey) :
    Complete (t.deleteManifest key) := by
  intro k m hm sha hsha
  refine h k m ?_ sha hsha
  unfold Target.deleteManifest at hm
  rw [FinMap.lookup_erase_ite] at hm
  split at hm
  · cases hm
  · exact hm

theorem trims_calm {c : Call} (hc : Trims targetID c) {t' : Target} {r : Reply c}
    (h : Onto targetID c t r t') (hw : Whole t) : Whole t' := by
  cases c with
  | engine a c =>
    cases c with
    | deleteManifest key =>
      obtain ⟨-, x, hx, heq⟩ := h
      have ht' : t' = t.deleteManifest key := (congrArg Prod.snd heq).symm.trans (if_pos (.inl hx))
      rw [ht']
      exact ⟨hw.sound, complete_deleteManifest hw.complete key⟩
    | _ => exact hc.elim
  | _ =>
    cases h
    exact hw

theorem trims_onlyOn {c : Call} (hc : Trims targetID c) : OnlyOn targetID c := by
  cases c with
  | engine a c =>
    cases c with
    | deleteManifest key => exact hc
    | _ => exact hc.elim
  | _ => trivial

theorem wp_trims {p : SchedM α} (h : Calls (Trims targetID) p) (hw : Whole t) :
    Wp (Onto targetID) (fun c _ => OnlyOn targetID c) (fun _ t' => Whole t') p t := by
  induction p generalizing t with
  | ret a => exact hw
  | call c k ih => exact ⟨trims_onlyOn h.1, fun r t' ht => ih r (h.2 r) (trims_calm h.1 ht hw)⟩

theorem applyRetention_trims (policy : RetentionPolicy) (kind : SourceKind) (sourceID : String) :
    Calls (Trims targetID) (applyRetention targetID policy kind sourceID) :=
  applyRetention_calls (fun _ => trivial) (fun _ => rfl) (fun _ => trivial) (fun _ => trivial) ..

def HoldsAll (t : Target) (disks : List DiskManifest) : Prop := ∀ d ∈ disks, Holds t d.chunks

theorem storeStreams_onto (e : Engine) (kind : SourceKind) (streams : List (String × List Bytes))
    {out : List DiskManifest} (hw : Whole t) (hout : HoldsAll t out) (uploaded : Nat) :
    Wp (Onto targetID) (fun c _ => OnlyOn targetID c)
      (fun r t' => Whole t' ∧ ∀ exported, r = .ok exported → HoldsAll t' exported.1)
      (storeStreams e kind targetID streams out uploaded) t := by
  induction streams generalizing out uploaded t with
  | nil =>
    refine ⟨hw, fun exported heq => ?_⟩
    cases heq
    exact hout
  | cons stream rest ih =>
    refine (wp_bind _ _ _).mpr
      ((wp_onTarget (storeStream_calm e kind stream.1 stream.2 hw.sound)).post_mono ?_)
    rintro ⟨err | dm, st⟩ t' ⟨hg, hdm⟩
    · exact ⟨hg.whole hw, nofun⟩
    · refine ih (hg.whole hw) ?_ _
      intro d hd
      rcases List.mem_append.mp hd with hd | hd
      · exact (hout d hd).grew hg
      · cases List.mem_singleton.mp hd
        exact hdm dm rfl

theorem complete_putManifest (h : Complete t) {key : ManifestKey} {m : Manifest}
    (hm : ∀ sha ∈ m.hashes, t.Present sha) : Complete (t.putManifest key m) := by
  intro k m' hm' sha hsha
  unfold Target.putManifest at hm'
  rw [FinMap.lookup_insert_ite] at hm'
  split at hm'
  · cases hm'
    exact hm sha hsha
  · exact h k m' hm' sha hsha

theorem recordBackup_onto {job : Job} (hjob : job.targetID = targetID) (runID : String)
    (kind : SourceKind) (p : Plan) {out : Exported} {rest : SchedM (Option Err)}
    (hrest : Calls (Trims targetID) rest) (hw : Whole t) (hout : HoldsAll t out.1) :
    Wp (Onto targetID) (fun c _ => OnlyOn targetID c) (fun _ t' => Whole t')
      (recordBackup job runID kind p out rest) t := by
  subst hjob
  have hparent : Wp (Onto job.targetID) (fun c _ => OnlyOn job.targetID c) (fun _ t' => t' = t)
      (parentFor kind p.sourceID job.targetID) t := by
    refine ⟨trivial, ?_⟩
    rintro (err | prev) t' rfl
    · dsimp only
      split <;> rfl
    · rfl
  refine (wp_bind _ _ _).mpr (hparent.post_mono ?_)
  rintro (err | parentID) t' rfl
  · exact hw
  refine ⟨trivial, fun backupID t₁ h₁ => ⟨trivial, fun createdAt t₂ h₂ => ⟨rfl, ?_⟩⟩⟩
  cases h₁
  cases h₂
  rintro r t₃ ⟨-, x, hx, heq⟩
  have hput : t₃ = Target.putManifest _ _ _ :=
    (congrArg Prod.snd heq).symm.trans (if_pos (.inl hx))
  have hwhole : Whole t₃ := by
    rw [hput]
    refine ⟨hw.sound, complete_putManifest hw.complete fun sha hsha => ?_⟩
    have hnames : sha ∈ out.1.flatMap fun d => d.chunks.map Chunk.sha256 := hsha
    obtain ⟨d, hd, hch⟩ := List.mem_flatMap.mp hnames
    obtain ⟨ch, hmem, rfl⟩ := List.mem_map.mp hch
    exact hout d hd ch hmem
  cases r with
  | error err => exact hwhole
  | ok u =>
    refine ⟨trivial, ?_⟩
    rintro (err | ⟨⟩) t₄ rfl
    · exact hwhole
    · exact wp_trims hrest hwhole

theorem backupOneVM_onto {job : Job} (hjob : job.targetID = targetID) (runID : String) (e : Engine)
    (src : SourceData) (hw : Whole t) :
    Wp (Onto targetID) (fun c _ => OnlyOn targetID c) (fun _ t' => Whole t')
      (backupOneVM job runID (src.plan e .vm targetID)) t := by
  refine ⟨trivial, ?_⟩
  rintro (f | ⟨⟩) t₁ rfl
  · exact hw
  have hnone : HoldsAll t₁ [] := nofun
  refine (wp_bind _ _ _).mpr ((storeStreams_onto e .vm src.streams hw hnone 0).post_mono ?_)
  rintro (err | out) t₂ ⟨hw₂, hout⟩
  · exact hw₂
  refine recordBackup_onto hjob runID .vm _ ⟨trivial, ?_⟩ hw₂ (hout out rfl)
  rintro (f | ⟨⟩)
  · trivial
  · rw [hjob]
    exact applyRetention_trims ..

theorem backupJob_onto {job : Job} (hjob : job.targetID = targetID) (runID : String) (e : Engine)
    (sources : Sources) (hw : Whole t) :
    Wp (Onto targetID) (fun c _ => OnlyOn targetID c) (fun _ t' => Whole t')
      (backupJob job runID (sources.planned e targetID)) t := by
  cases sources with
  | agent src =>
    have hnone : HoldsAll t [] := nofun
    refine (wp_bind _ _ _).mpr ((storeStreams_onto e .agent src.streams hw hnone 0).post_mono ?_)
    rintro (err | out) t₁ ⟨hw₁, hout⟩
    · exact hw₁
    · refine recordBackup_onto hjob runID .agent _ ?_ hw₁ (hout out rfl)
      rw [hjob]
      exact applyRetention_trims ..
  | vms sources =>
    change Wp _ _ _ (backupVMJob job runID (sources.map fun src => src.plan e .vm targetID)) t
    induction sources generalizing t with
    | nil => exact hw
    | cons src rest ih =>
      refine ⟨trivial, ?_⟩
      rintro (- | f) t₁ rfl
      · refine (wp_bind _ _ _).mpr ((backupOneVM_onto hjob runID e src hw).post_mono ?_)
        rintro (- | err) t₂ hw₂
        · exact ih hw₂
        · exact hw₂
      · exact hw

theorem backupAttempt_onto {job : Job} (hjob : job.targetID = targetID) (runID : String)
    (e : Engine) (sources : Sources) (hw : Whole t) :
    Wp (Onto targetID) (fun c _ => OnlyOn targetID c) (fun _ t' => Complete t')
      (backupAttempt e job runID (sources.planned e targetID)) t := by
  refine ⟨trivial, ?_⟩
  rintro (err | ⟨⟩) t₁ rfl
  · exact hw.complete
  refine ⟨trivial, ?_⟩
  rintro ⟨⟩ t₂ rfl
  refine (wp_bind _ _ _).mpr ((backupJob_onto hjob runID e sources hw).post_mono ?_)
  rintro runErr t₃ hw₃
  refine ⟨trivial, ?_⟩
  rintro idle t₄ rfl
  dsimp only
  split
  · exact hw₃.complete
  refine ⟨trivial, ?_⟩
  rintro (- | f) t₅ rfl
  · rw [hjob]
    exact (wp_bind _ _ _).mpr ((wp_onTarget (gc_calm e hw₃.complete)).post_mono fun _ _ => id)
  · exact hw₃.complete

end

namespace Storage

section
variable {targets : Layout} {a b : TargetRow} {s s' : Storage}

@[grind =]
theorem locate_of_mem (ha : a ∈ targets.rows) : targets.locate a.id = some a.location := by
  have hsome : (targets.rows.find? fun r => r.id = a.id).isSome :=
    List.find?_isSome.mpr ⟨a, ha, decide_eq_true rfl⟩
  obtain ⟨r, hr⟩ := Option.isSome_iff_exists.mp hsome
  have hfound := List.find?_some hr
  have hid : r.id = a.id := of_decide_eq_true hfound
  have heq : r = a := List.inj_on_of_nodup_map targets.distinct (List.mem_of_find?_eq_some hr) ha hid
  rw [Targets.locate, hr, heq]
  rfl

@[grind =] theorem target_of_mem (ha : a ∈ targets.rows) (s : Storage) :
    s.target targets a.id =
      ⟨(s.objects a.location).chunks, (s.objects a.location).manifests, s.index a.id⟩ := by
  rw [target, locate_of_mem ha]

@[grind =] theorem setTarget_of_mem (ha : a ∈ targets.rows) (s : Storage) (t : Target) :
    s.setTarget targets a.id t =
      { s with
        objects := Function.update s.objects a.location ⟨t.chunks, t.manifests⟩
        index := Function.update s.index a.id t.index } := by
  rw [setTarget, locate_of_mem ha]

@[simp] theorem target_setTarget_self (ha : a ∈ targets.rows) (t : Target) :
    (s.setTarget targets a.id t).target targets a.id = t := by
  rw [target_of_mem ha, setTarget_of_mem ha]
  dsimp only
  rw [Function.update_self, Function.update_self]

@[simp]
theorem target_setTarget_other (ha : a ∈ targets.rows) (hb : b ∈ targets.rows) (hid : b.id ≠ a.id)
    (hloc : b.location ≠ a.location) (t : Target) :
    (s.setTarget targets a.id t).target targets b.id = s.target targets b.id := by
  rw [target_of_mem hb, target_of_mem hb, setTarget_of_mem ha]
  dsimp only
  rw [Function.update_of_ne hloc, Function.update_of_ne hid]

theorem exec_onto (ha : a ∈ targets.rows) {c : Call} (hc : OnlyOn a.id c)
    (x : (calm targets).Choice) (s : Storage) :
    Onto a.id c (s.target targets a.id) ((calm targets).exec c x s).1
      (((calm targets).exec c x s).2.target targets a.id) := by
  cases c with
  | engine id c =>
    have hid : id = a.id := hc
    subst hid
    refine ⟨rfl, x.1.toChoice, x.2, ?_⟩
    change _ = (_, (s.setTarget targets a.id _).target targets a.id)
    rw [target_setTarget_self ha]
    rfl
  | _ => rfl

theorem exec_other (ha : a ∈ targets.rows) (hb : b ∈ targets.rows) (hid : b.id ≠ a.id)
    (hloc : b.location ≠ a.location) {c : Call} (hc : OnlyOn a.id c)
    (x : (calm targets).Choice) (s : Storage) :
    ((calm targets).exec c x s).2.target targets b.id = s.target targets b.id := by
  cases c with
  | engine id c =>
    have hid' : id = a.id := hc
    subst hid'
    exact target_setTarget_other ha hb hid hloc _
  | _ => rfl

theorem steps_other (ha : a ∈ targets.rows) (hb : b ∈ targets.rows) (hid : b.id ≠ a.id)
    (hloc : b.location ≠ a.location) {α : Type} {p q : SchedM α} {post : α → Storage → Prop}
    {es : List (calm targets).Event}
    (hp : Wp (calm targets).T (fun c _ => OnlyOn a.id c) post p s)
    (h : Steps (calm targets) p s es q s') : s'.target targets b.id = s.target targets b.id := by
  induction h with
  | nil => rfl
  | cons x _ ih =>
    exact (ih (hp.2 _ _ ⟨x, rfl⟩)).trans (exec_other ha hb hid hloc hp.1 x _)

theorem onlyOn_onTarget {α : Type} (targetID : String) (p : EngineM α) :
    Calls (OnlyOn targetID) (onTarget targetID p) :=
  onTarget_calls ((calls_true p).mono fun _ _ => rfl)

theorem deleteBackup_onlyOn {targetID : String} (e : Engine) (backupID : String)
    (hrow : ∀ b ∈ s.backups.rows, b.id = backupID → b.targetID = targetID) :
    Wp (calm targets).T (fun c _ => OnlyOn targetID c) (fun _ _ => True) (deleteBackup e backupID)
      s := by
  refine (wp_bind _ _ _).mpr ⟨trivial, ?_⟩
  rintro r s₁ ⟨x, hx⟩
  obtain ⟨hr, -⟩ := Prod.mk.inj hx
  cases r with
  | error err => trivial
  | ok row =>
    have hfound : s.backups.backupByID backupID = .ok row := by
      rw [← hr]
      change _ = x.1.reply "backup" _
      rw [Choice.reply, x.2]
      rfl
    have htarget : row.targetID = targetID := by
      unfold BackupTable.backupByID at hfound
      split at hfound
      · rename_i b hb
        cases hfound
        have hid := List.find?_some hb
        exact hrow row (List.mem_of_find?_eq_some hb) (of_decide_eq_true hid)
      · cases hfound
    subst htarget
    refine ⟨trivial, ?_⟩
    rintro (err | ⟨⟩) s₂ -
    · trivial
    refine ⟨rfl, ?_⟩
    rintro (err | ⟨⟩) s₃ -
    · trivial
    refine ⟨trivial, ?_⟩
    rintro (err | ⟨⟩) s₄ -
    · trivial
    refine ⟨trivial, ?_⟩
    rintro (err | ⟨⟩) s₅ -
    · trivial
    refine ⟨trivial, fun idle s₆ _ => ?_⟩
    dsimp only
    split
    · have hgc : Calls (OnlyOn row.targetID) (onTarget row.targetID e.gc >>= fun out =>
          .ret (out.2.map Err.engine)) := (onlyOn_onTarget _ _).bind fun _ => trivial
      exact hgc.wp s₆
    · trivial

theorem recordBackup_onlyOn (job : Job) (runID : String) (kind : SourceKind) (p : Plan)
    (out : Exported) {rest : SchedM (Option Err)} (hrest : Calls (OnlyOn job.targetID) rest) :
    Calls (OnlyOn job.targetID) (recordBackup job runID kind p out rest) := by
  refine (parentFor_calls trivial).bind ?_
  rintro (err | parentID)
  · trivial
  refine ⟨trivial, fun backupID => ⟨trivial, fun createdAt => ⟨rfl, ?_⟩⟩⟩
  rintro (err | ⟨⟩)
  · trivial
  refine ⟨trivial, ?_⟩
  rintro (err | ⟨⟩)
  · trivial
  · exact hrest

theorem storeStreams_onlyOn (e : Engine) (kind : SourceKind) (targetID : String)
    (streams : List (String × List Bytes)) (out : List DiskManifest) (uploaded : Nat) :
    Calls (OnlyOn targetID) (storeStreams e kind targetID streams out uploaded) := by
  induction streams generalizing out uploaded with
  | nil => trivial
  | cons stream rest ih =>
    refine (onlyOn_onTarget _ _).bind ?_
    rintro ⟨err | dm, st⟩
    · trivial
    · exact ih _ _

theorem applyRetention_onlyOn (targetID : String) (policy : RetentionPolicy) (kind : SourceKind)
    (sourceID : String) : Calls (OnlyOn targetID) (applyRetention targetID policy kind sourceID) :=
  (applyRetention_trims policy kind sourceID).mono fun _ => trims_onlyOn

theorem backupJob_onlyOn (e : Engine) (job : Job) (runID : String) (sources : Sources) :
    Calls (OnlyOn job.targetID) (backupJob job runID (sources.planned e job.targetID)) := by
  cases sources with
  | agent src =>
    refine (storeStreams_onlyOn e .agent job.targetID src.streams [] 0).bind ?_
    rintro (err | out)
    · trivial
    · exact recordBackup_onlyOn job runID .agent _ out (applyRetention_onlyOn ..)
  | vms sources =>
    change Calls _ (backupVMJob job runID (sources.map fun src => src.plan e .vm job.targetID))
    induction sources with
    | nil => trivial
    | cons src rest ih =>
      refine ⟨trivial, ?_⟩
      rintro (- | f)
      swap
      · trivial
      refine Calls.bind ⟨trivial, ?_⟩ ?_
      · rintro (f | ⟨⟩)
        · trivial
        refine (storeStreams_onlyOn e .vm job.targetID src.streams [] 0).bind ?_
        rintro (err | out)
        · trivial
        refine recordBackup_onlyOn job runID .vm _ out ⟨trivial, ?_⟩
        rintro (f | ⟨⟩)
        · trivial
        · exact applyRetention_onlyOn ..
      · rintro (- | err)
        · exact ih
        · trivial

theorem backupAttempt_onlyOn (e : Engine) (job : Job) (runID : String) (sources : Sources) :
    Calls (OnlyOn job.targetID)
      (backupAttempt e job runID (sources.planned e job.targetID)) := by
  refine ⟨trivial, ?_⟩
  rintro (err | ⟨⟩)
  · trivial
  · refine ⟨trivial, fun _ => (backupJob_onlyOn e job runID sources).bind fun runErr => ?_⟩
    exact endAttempt_calls trivial trivial ((calls_true _).mono fun _ _ => rfl) runErr

theorem Operation.other (ha : a ∈ targets.rows) (hb : b ∈ targets.rows) (hid : b.id ≠ a.id)
    (hloc : b.location ≠ a.location) (h : s.Operation targets a.id s') :
    s'.target targets b.id = s.target targets b.id := by
  have hcalls : ∀ {α : Type} {p : SchedM α}, Calls (OnlyOn a.id) p →
      Wp (calm targets).T (fun c _ => OnlyOn a.id c) (fun _ _ => True) p s :=
    fun hp => (hp.wp s)
  cases h with
  | backup h =>
    obtain ⟨e, job, runID, sources, es, res, hjob, hsteps⟩ := h
    rw [← hjob] at hsteps
    refine steps_other ha hb hid hloc (hcalls ?_) hsteps
    rw [← hjob]
    exact backupAttempt_onlyOn e job runID sources
  | prune policy kind sourceID es res hsteps =>
    refine steps_other ha hb hid hloc (hcalls ?_) hsteps
    exact applyRetention_onlyOn ..
  | remove e backupID hrow es res hsteps =>
    exact steps_other ha hb hid hloc (deleteBackup_onlyOn e backupID hrow) hsteps
  | collect e es res hsteps =>
    exact steps_other ha hb hid hloc (hcalls (onlyOn_onTarget a.id e.gc)) hsteps

theorem Backup.complete (hb : b ∈ targets.rows) (h : s.Backup targets b.id s')
    (hw : Whole (s.target targets b.id)) : Complete (s'.target targets b.id) := by
  obtain ⟨e, job, runID, sources, es, res, hjob, hsteps⟩ := h
  have hwp := backupAttempt_onto hjob runID e sources hw
  have hsim : ∀ c (t : Target) (s : Storage) x, t = s.target targets b.id → OnlyOn b.id c →
      ∃ t', Onto b.id c t ((calm targets).exec c x s).1 t' ∧
        t' = ((calm targets).exec c x s).2.target targets b.id := by
    rintro c t s x rfl hc
    exact ⟨_, exec_onto hb hc x s, rfl⟩
  obtain ⟨t', rfl, hend⟩ := hwp.simulate hsim rfl hsteps
  exact hend

/-- Where each target was whole, operations on one of them leave every other one whole, and
a later backup on such a one leaves every manifest with its chunks. -/
def Isolated (targets : Layout) (targetID : String) : Prop :=
  ∀ s s' : Storage, (∀ r ∈ targets.rows, Whole (s.target targets r.id)) →
    Relation.ReflTransGen (fun s s' => s.Operation targets targetID s') s s' →
    ∀ r ∈ targets.rows, r.id ≠ targetID →
      Whole (s'.target targets r.id) ∧
      ∀ s'', s'.Backup targets r.id s'' → Complete (s''.target targets r.id)

theorem isolated_of_apart (ha : a ∈ targets.rows)
    (hapart : ∀ r ∈ targets.rows, r.id ≠ a.id → r.location ≠ a.location) :
    Isolated targets a.id := by
  intro s s' hwhole hops r hr hid
  have hsame : s'.target targets r.id = s.target targets r.id := by
    induction hops with
    | refl => rfl
    | tail _ hop ih => exact (hop.other ha hr hid (hapart r hr hid)).trans ih
  have hw : Whole (s'.target targets r.id) := by
    rw [hsame]
    exact hwhole r hr
  exact ⟨hw, fun s'' hbackup => hbackup.complete hr hw⟩

theorem steps_onTarget (ha : a ∈ targets.rows) {α : Type} {p q : EngineM α} {t t' : Target}
    {es : List Target.machine.Event} (h : Steps Target.machine p t es q t')
    (hcalm : ∀ ev ∈ es, ev.2.fault = none) {s : Storage} (hs : s.target targets a.id = t) :
    ∃ es' s', Steps (calm targets) (onTarget a.id p) s es' (onTarget a.id q) s' ∧
      s'.target targets a.id = t' ∧ ∀ id, id ≠ a.id → s'.index id = s.index id := by
  induction h generalizing s with
  | nil => exact ⟨[], s, .nil, hs, fun _ _ => rfl⟩
  | @cons c k t es q t' x h ih =>
    subst hs
    let y : (calm targets).Choice := ⟨{ toChoice := x }, hcalm (c, x) List.mem_cons_self⟩
    obtain ⟨es', s', hsteps, hend, hindex⟩ := ih (fun ev hev => hcalm ev (List.mem_cons_of_mem _ hev))
      (target_setTarget_self (s := s) ha _)
    refine ⟨(.engine a.id c, y) :: es', s', .cons y hsteps, hend, fun id hid => ?_⟩
    · rw [hindex id hid, setTarget_of_mem ha]
      exact Function.update_of_ne hid _ _

end

/-- An old chunk at the place of the first target, and the row that the second one has of it. -/
def shared (a b : TargetRow) : Storage where
  objects loc := if loc = a.location then ⟨AList.singleton "c0" ⟨[7], 1⟩, ∅⟩ else ⟨∅, ∅⟩
  index id := if id = b.id then AList.singleton "c0" ⟨1, 1⟩ else ∅
  backups := .empty
  jobs := ∅
  targetActive := fun _ => 0

def passEvents : List Target.machine.Event :=
  [(.walkManifests, .fine), (.chunkAddedAt, .fine), (.now, { clock := 2 * defaultGCGrace }),
    (.walkChunks, .fine), (.walkChunk "c0", .fine), (.delete "c0", .fine), (.deleteChunk "c0", .fine)]

theorem pass_steps : ∃ res t', Steps Target.machine staleEngine.gc
    ⟨AList.singleton "c0" ⟨[7], 1⟩, ∅, ∅⟩ passEvents (.ret res) t' ∧ ¬ t'.Present "c0" :=
  ⟨_, _, .cons _ (.cons _ (.cons _ (.cons _ (.cons _ (.cons _ (.cons _ .nil)))))), by decide⟩

theorem shared_whole {targets : Layout} {a b : TargetRow} (hb : b ∈ targets.rows)
    (hloc : b.location = a.location) {r : TargetRow} (hr : r ∈ targets.rows) :
    Whole ((shared a b).target targets r.id) := by
  rw [target_of_mem hr]
  constructor
  · intro sha hsha
    have hindexed : ((shared a b).index r.id).lookup sha ≠ none := Option.isSome_iff_ne_none.mp hsha
    unfold shared at hindexed
    dsimp only at hindexed
    split at hindexed
    · rename_i hid
      have heq : r = b := List.inj_on_of_nodup_map targets.distinct hr hb hid
      have hc0 : sha = "c0" := by
        by_contra hne
        exact hindexed (AList.lookup_eq_none.mpr (by simpa [AList.mem_keys] using hne))
      subst hc0
      unfold Target.Present shared
      dsimp only
      rw [heq, if_pos hloc]
      decide
    · exact absurd rfl hindexed
  · intro key m hm
    have hnone : ((shared a b).objects r.location).manifests = ∅ := by
      unfold shared
      dsimp only
      split <;> rfl
    rw [hnone] at hm
    cases hm

theorem shared_stranded {targets : Layout} {a b : TargetRow} (ha : a ∈ targets.rows)
    (hb : b ∈ targets.rows) (hid : b.id ≠ a.id) (hloc : b.location = a.location) :
    ∃ s', (shared a b).Operation targets a.id s' ∧ ¬ (s'.target targets b.id).Sound := by
  obtain ⟨res, t', hpass, hgone⟩ := pass_steps
  have hview : (shared a b).target targets a.id = ⟨AList.singleton "c0" ⟨[7], 1⟩, ∅, ∅⟩ := by
    rw [target_of_mem ha]
    unfold shared
    dsimp only
    rw [if_pos rfl, if_neg (Ne.symm hid)]
  have hcalm : ∀ ev ∈ passEvents, ev.2.fault = none := by
    simp [passEvents, Engine.Choice.fine]
  obtain ⟨es, s', hsteps, hend, hindex⟩ := steps_onTarget ha hpass hcalm hview
  refine ⟨s', .collect staleEngine es res hsteps, fun hsound => hgone ?_⟩
  have hchunks : (s'.objects a.location).chunks = t'.chunks := by
    rw [target_of_mem ha] at hend
    exact congrArg Target.chunks hend
  have hrow : (s'.target targets b.id).Indexed "c0" := by
    unfold Target.Indexed
    rw [target_of_mem hb]
    dsimp only
    rw [hindex b.id hid]
    unfold shared
    dsimp only
    rw [if_pos rfl]
    decide
  have hpresent := hsound "c0" hrow
  unfold Target.Present at hpresent ⊢
  rw [target_of_mem hb] at hpresent
  dsimp only at hpresent
  rwa [hloc, hchunks] at hpresent

/-- Two targets as they were created, each with a path, and neither inside the other's chunks. -/
def twoTargets (path path' : String)
    (h : ∀ base ∈ [path', path], ∀ base' ∈ [path', path],
      ¬ (Location.filesystem base).Encloses (.filesystem base')) : Layout where
  rows := [⟨"t2", .filesystem path'⟩, ⟨"t1", .filesystem path⟩]
  distinct := by simp
  apart := by simpa using h

end Storage

end ProxBack.Sched
