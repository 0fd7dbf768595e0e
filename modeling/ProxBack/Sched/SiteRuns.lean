import ProxBack.Lib.Lists
import ProxBack.Sched.SiteSafe

/-! Along every run of the site in which no step does harm, every restore point keeps its
chunks. -/
namespace ProxBack.Sched
open Lib Prog Engine Store

/-- What holds between any two steps. A run that is in progress was not there when a pass
found the target idle, so the pass has noted all that the run has accepted. -/
structure Inv (s : Site) : Prop where
  complete : s.world.Complete
  count : ∀ targetID, s.world.targetActive targetID = (s.runs.map Run.targetID).count targetID
  accepted : ∀ r ∈ s.runs, ∀ sha ∈ r.accepted, (s.world.targets r.targetID).Present sha
  noted : ∀ r ∈ s.runs, ∀ sha ∈ r.accepted, ∀ p ∈ s.passes, p.targetID = r.targetID →
    sha ∈ p.since
  runs : ∀ r ∈ s.runs, r.Good
  removals : ∀ r ∈ s.removals, Calls Call.Removes r.body
  passes : ∀ p ∈ s.passes, p.Good s.world

namespace Inv

variable {s : Site}

theorem setWorld (h : Inv s) {w : World} (hk : s.world.Keeps w) : Inv { s with world := w } where
  complete targetID key m hm sha hsha :=
    hk.chunks targetID sha (h.complete targetID key m (hk.manifests targetID key m hm) sha hsha)
  count targetID := by
    rw [hk.active]
    exact h.count targetID
  accepted r hr sha hsha := hk.chunks _ sha (h.accepted r hr sha hsha)
  noted := h.noted
  runs := h.runs
  removals := h.removals
  passes p hp := ⟨(h.passes p hp).calls, fun key m hm =>
    (h.passes p hp).named key m (hk.manifests _ key m hm)⟩

theorem setRun (h : Inv s) {i : Nat} {r r' : Run} (hr : s.runs[i]? = some r)
    (htarget : r'.targetID = r.targetID) (haccepted : r'.accepted = r.accepted)
    (hgood : r'.Good) : Inv { s with runs := s.runs.set i r' } where
  complete := h.complete
  count targetID := by
    rw [map_set_same hr htarget]
    exact h.count targetID
  accepted := by
    refine forall_set h.accepted ?_
    rw [htarget, haccepted]
    exact h.accepted r (List.mem_of_getElem? hr)
  noted := by
    refine forall_set h.noted ?_
    rw [htarget, haccepted]
    exact h.noted r (List.mem_of_getElem? hr)
  runs := forall_set h.runs hgood
  removals := h.removals
  passes := h.passes

theorem addPass (h : Inv s) (e : Engine) {targetID : String}
    (hidle : ∀ r ∈ s.runs, r.targetID ≠ targetID) :
    Inv { s with passes := s.passes ++ [Pass.begin e targetID] } where
  complete := h.complete
  count := h.count
  accepted := h.accepted
  noted := by
    intro r hr sha hsha p hp htarget
    rcases List.mem_append.mp hp with hp | hp
    · exact h.noted r hr sha hsha p hp htarget
    · rw [List.mem_singleton.mp hp] at htarget
      exact absurd htarget.symm (hidle r hr)
  runs := h.runs
  removals := h.removals
  passes := by
    intro p hp
    rcases List.mem_append.mp hp with hp | hp
    · exact h.passes p hp
    · rw [List.mem_singleton.mp hp]
      exact ⟨gc_collects e, fun key m _ sha hsha => .inr (gc_keeps_named e hsha)⟩

theorem idle (h : Inv s) {targetID : String} (hzero : s.world.targetActive targetID = 0) :
    ∀ r ∈ s.runs, r.targetID ≠ targetID := by
  rintro r hr rfl
  have hcount := h.count r.targetID
  have hpos : 0 < (s.runs.map Run.targetID).count r.targetID :=
    List.count_pos_iff.mpr (List.mem_map_of_mem hr)
  omega

theorem start (h : Inv s) (e : Engine) (job : Job) (runID : String) (work : Work) :
    Inv (s.start e job runID work) where
  complete := h.complete
  count targetID := by
    have hcount := h.count targetID
    simp only [Site.start, World.exec, World.setActive, Function.update_apply, List.map_append,
      List.map_cons, List.map_nil, List.count_append, List.count_singleton]
    split
    · rename_i heq
      subst heq
      simp [hcount]
    · rename_i hne
      have hne' : (job.targetID == targetID) = false := by simpa using fun heq => hne heq.symm
      simp [hne', hcount]
  accepted := by
    intro r hr
    rcases List.mem_append.mp hr with hr | hr
    · exact h.accepted r hr
    · rw [List.mem_singleton.mp hr]
      exact fun sha hsha => absurd hsha (Finset.notMem_empty sha)
  noted := by
    intro r hr
    rcases List.mem_append.mp hr with hr | hr
    · exact h.noted r hr
    · rw [List.mem_singleton.mp hr]
      exact fun sha hsha => absurd hsha (Finset.notMem_empty sha)
  runs := by
    intro r hr
    rcases List.mem_append.mp hr with hr | hr
    · exact h.runs r hr
    · rw [List.mem_singleton.mp hr]
      exact ⟨fun _ => id, nofun, backupJob_records job runID work ∅⟩
  removals := h.removals
  passes p hp := ⟨(h.passes p hp).calls, (h.passes p hp).named⟩

theorem addWorker (h : Inv s) {i : Nat} {f : Run → Worker} {s' : Site}
    (hf : ∀ r accepted, (f r).Good accepted) (hs : s.addWorker i f = some s') : Inv s' := by
  unfold Site.addWorker at hs
  split at hs
  · rename_i r hr
    cases hs
    have hgood := h.runs r (List.mem_of_getElem? hr)
    refine h.setRun hr rfl rfl ⟨hgood.stored, ?_, hgood.body⟩
    intro v hv
    rcases List.mem_cons.mp hv with rfl | hv
    · exact hf r r.accepted
    · exact hgood.workers v hv
  · cases hs

theorem accept (h : Inv s) {i : Nat} {r : Run} (hr : s.runs[i]? = some r) {told : Option Sha}
    (htold : ∀ sha, told = some sha → (s.world.targets r.targetID).Present sha) :
    Inv { s with
      runs := s.runs.set i (r.accept told)
      passes := s.passes.map (Pass.note r.targetID told) } where
  complete := h.complete
  count targetID := by
    have hmap : (s.runs.set i (r.accept told)).map Run.targetID = s.runs.map Run.targetID :=
      map_set_same hr (r.accept_targetID told)
    dsimp only
    rw [hmap]
    exact h.count targetID
  accepted := by
    refine forall_set h.accepted fun sha hsha => ?_
    rw [r.accept_targetID]
    rcases Run.mem_accept.mp hsha with heq | hsha
    · exact htold sha heq
    · exact h.accepted r (List.mem_of_getElem? hr) sha hsha
  noted := by
    have hnoted : ∀ r' ∈ s.runs, ∀ sha ∈ r'.accepted, ∀ p ∈ s.passes, p.targetID = r'.targetID →
        sha ∈ (p.note r.targetID told).since := fun r' hr' sha hsha p hp htarget =>
      p.subset_note r.targetID told (h.noted r' hr' sha hsha p hp htarget)
    refine forall_set ?_ ?_
    · intro r' hr' sha hsha p' hp' htarget
      obtain ⟨p, hp, rfl⟩ := List.mem_map.mp hp'
      rw [p.note_targetID] at htarget
      exact hnoted r' hr' sha hsha p hp htarget
    · intro sha hsha p' hp' htarget
      obtain ⟨p, hp, rfl⟩ := List.mem_map.mp hp'
      rw [p.note_targetID, r.accept_targetID] at htarget
      rcases Run.mem_accept.mp hsha with rfl | hsha
      · rw [← htarget]
        exact p.mem_note sha
      · exact hnoted r (List.mem_of_getElem? hr) sha hsha p hp htarget
  runs := by
    have hgood := h.runs r (List.mem_of_getElem? hr)
    have hsub : r.accepted ⊆ (r.accept told).accepted :=
      fun sha hsha => Run.mem_accept.mpr (.inr hsha)
    refine forall_set h.runs ?_
    cases told with
    | none => exact hgood
    | some sha =>
      exact ⟨hgood.stored.trans hsub, fun v hv => (hgood.workers v hv).grow hsub, hgood.body⟩
  removals := h.removals
  passes := by
    intro p' hp'
    obtain ⟨p, hp, rfl⟩ := List.mem_map.mp hp'
    have hpass := h.passes p hp
    constructor
    · rw [p.note_prog]
      exact hpass.calls
    · intro key m hm sha hsha
      rw [p.note_targetID] at hm
      rw [p.note_prog]
      exact (hpass.named key m hm sha hsha).imp_left fun hin => p.subset_note _ told hin

theorem work (h : Inv s) {i j : Nat} {x : Engine.Choice} {s' : Site}
    (hok : s.Guarded (.work i j x)) (hs : s.work i j x = some s') : Inv s' := by
  unfold Site.work at hs
  split at hs
  · cases hs
  rename_i r hr
  split at hs
  · rename_i sha c k hv
    cases hs
    have hgood := h.runs r (List.mem_of_getElem? hr)
    have hworker := hgood.workers _ (List.mem_of_getElem? hv)
    have hkept := h.setWorld (keeps_of_stores hworker.1 x s.world r.targetID)
    set out := Target.exec c x (s.world.targets r.targetID) with hout
    have htold : ∀ a, accepts c out.1 = some a →
        ((s.world.setTarget r.targetID out.2).targets r.targetID).Present a := by
      intro a ha
      rw [World.targets_setTarget, if_pos rfl]
      refine present_of_accepts ?_ ha
      rintro b rfl hfault
      exact hok r b sha k hr hv hfault
    have haccepted := hkept.accept hr htold
    have hr' : (s.runs.set i (r.accept (accepts c out.1)))[i]? = some (r.accept (accepts c out.1)) :=
      List.getElem?_set_self (List.getElem?_eq_some_iff.mp hr).1
    have hgood' := haccepted.runs _ (List.mem_of_getElem? hr')
    rw [← List.set_set (r.accept (accepts c out.1))]
    refine haccepted.setRun hr' rfl rfl ⟨hgood'.stored, forall_set ?_ ?_, hgood'.body⟩
    · rw [← r.accept_workers (accepts c out.1)]
      exact hgood'.workers
    · exact hworker.2 out.1 _ ⟨fun a ha => Run.mem_accept.mpr (.inr ha),
        fun a ha => Run.mem_accept.mpr (.inl ha)⟩
  · cases hs

theorem stored (h : Inv s) {i j : Nat} {s' : Site} (hs : s.stored i j = some s') : Inv s' := by
  unfold Site.stored at hs
  split at hs
  · cases hs
  rename_i r hr
  split at hs
  · rename_i sha ok hv
    cases hs
    have hgood := h.runs r (List.mem_of_getElem? hr)
    have hworker := hgood.workers _ (List.mem_of_getElem? hv)
    have hgrows : r.stored ⊆ if ok = true then insert sha r.stored else r.stored := by
      split
      · exact Finset.subset_insert sha r.stored
      · exact fun _ => id
    refine h.setRun hr rfl rfl ⟨?_, fun v hv => hgood.workers v (List.mem_of_mem_eraseIdx hv), ?_⟩
    · intro a ha
      dsimp only at ha
      split at ha
      · rename_i htrue
        rcases Finset.mem_insert.mp ha with rfl | ha
        · exact hworker htrue
        · exact hgood.stored ha
      · exact hgood.stored ha
    · exact Wp.grow hgood.body (fun _ _ _ hle => records_mono hle) (fun _ _ _ _ => id) hgrows
  · cases hs

theorem putManifest (h : Inv s) {r : Run} (hr : r ∈ s.runs) {key : ManifestKey} {m : Manifest}
    (hm : ∀ sha ∈ m.hashes, sha ∈ r.accepted) (x : Choice) :
    Inv { s with world := (World.exec (.engine r.targetID (.putManifest key m)) x s.world).2 } := by
  have hwrote : ∀ a k m', (((World.exec (.engine r.targetID (.putManifest key m)) x s.world).2).targets
      a).manifests.lookup k = some (some m') → a = r.targetID ∧ m' = m ∨
        (s.world.targets a).manifests.lookup k = some (some m') := by
    intro a k m'
    dsimp only [World.exec]
    rw [World.targets_setTarget]
    split
    · rename_i heq
      subst heq
      refine x.toChoice.outcome_of (P := fun t => t.manifests.lookup k = some (some m') →
        r.targetID = r.targetID ∧ m' = m ∨ _) .inr ?_
      intro hlookup
      unfold Target.putManifest at hlookup
      rw [FinMap.lookup_insert_ite] at hlookup
      split at hlookup
      · cases hlookup
        exact .inl ⟨rfl, rfl⟩
      · exact .inr hlookup
    · exact .inr
  have hchunks : ∀ a sha, (s.world.targets a).Present sha →
      ((World.exec (.engine r.targetID (.putManifest key m)) x s.world).2.targets a).Present sha := by
    intro a sha
    dsimp only [World.exec]
    rw [World.targets_setTarget]
    split
    · rename_i heq
      subst heq
      intro hp
      exact x.toChoice.outcome_of (P := fun t => t.Present sha) hp hp
    · exact id
  constructor
  case complete =>
    intro a k m' hlookup sha hsha
    rcases hwrote a k m' hlookup with ⟨rfl, rfl⟩ | hlookup
    · exact hchunks _ sha (h.accepted r hr sha (hm sha hsha))
    · exact hchunks a sha (h.complete a k m' hlookup sha hsha)
  case count => exact h.count
  case accepted => exact fun r' hr' sha hsha => hchunks _ sha (h.accepted r' hr' sha hsha)
  case noted => exact h.noted
  case runs => exact h.runs
  case removals => exact h.removals
  case passes =>
    intro p hp
    refine ⟨(h.passes p hp).calls, fun k m' hlookup sha hsha => ?_⟩
    rcases hwrote p.targetID k m' hlookup with ⟨htarget, rfl⟩ | hlookup
    · exact .inl (h.noted r hr sha (hm sha hsha) p hp htarget)
    · exact (h.passes p hp).named k m' hlookup sha hsha

theorem told_of_allows {r : Run} {x : Choice} {c : Call} (h : r.allows x c = true) (w : World) :
    Told c (World.exec c x w).1 r.stored := by
  cases c with
  | exported =>
    intro out hout d hd ch hch
    have hdisks : x.disks = .ok out := hout
    unfold Run.allows at h
    rw [hdisks] at h
    exact of_decide_eq_true (List.all_eq_true.mp (List.all_eq_true.mp h d hd) ch hch)
  | _ => trivial

theorem run (h : Inv s) {i : Nat} {x : Choice} {s' : Site} (hs : s.run i x = some s') :
    Inv s' := by
  unfold Site.run at hs
  split at hs
  · cases hs
  rename_i r hr
  split at hs
  swap
  · cases hs
  rename_i c k hbody
  split at hs
  swap
  · cases hs
  rename_i hallows
  cases hs
  have hgood := h.runs r (List.mem_of_getElem? hr)
  have hwp := hgood.body
  rw [hbody] at hwp
  have hmoved : Inv { s with world := (World.exec c x s.world).2 } := by
    rcases hwp.1 with hremoves | ⟨key, m, rfl, hstored⟩
    · exact h.setWorld (keeps_of_removes hremoves x s.world)
    · exact h.putManifest (List.mem_of_getElem? hr) (fun sha hsha => hgood.stored (hstored sha hsha)) x
  refine hmoved.setRun hr rfl rfl ⟨hgood.stored, hgood.workers, ?_⟩
  exact hwp.2 _ _ ⟨le_refl _, told_of_allows hallows s.world⟩

theorem endRun (h : Inv s) {i : Nat} {r : Run} (hr : s.runs[i]? = some r) (x : Choice) :
    Inv { s with
      world := (World.exec (.markTargetIdle r.targetID) x s.world).2
      runs := s.runs.eraseIdx i } where
  complete := h.complete
  count targetID := by
    have hcount := h.count targetID
    have hsame := h.count r.targetID
    rw [count_map_eraseIdx hr] at hcount hsame
    rw [if_pos rfl] at hsame
    dsimp only [World.exec, World.setActive]
    rw [Function.update_apply]
    split
    · rename_i heq
      subst heq
      rw [hsame]
      split <;> omega
    · rename_i hne
      rw [if_neg fun heq => hne heq.symm] at hcount
      rw [hcount]
      omega
  accepted r' hr' := h.accepted r' (List.mem_of_mem_eraseIdx hr')
  noted r' hr' := h.noted r' (List.mem_of_mem_eraseIdx hr')
  runs r' hr' := h.runs r' (List.mem_of_mem_eraseIdx hr')
  removals := h.removals
  passes p hp := ⟨(h.passes p hp).calls, (h.passes p hp).named⟩

theorem finish (h : Inv s) {i : Nat} {x : Choice} {s' : Site} (hs : s.finish i x = some s') :
    Inv s' := by
  unfold Site.finish at hs
  split at hs
  · cases hs
  rename_i r hr
  split at hs
  swap
  · cases hs
  cases hs
  have hended := h.endRun hr x
  split
  · exact hended
  · rename_i hcollects
    have hidle : (World.exec (.markTargetIdle r.targetID) x s.world).1 = true := by
      by_contra hbusy
      exact hcollects (.inl hbusy)
    refine hended.addPass r.engine (hended.idle ?_)
    have hle : s.world.targetActive r.targetID - 1 ≤ 0 := of_decide_eq_true hidle
    dsimp only [World.exec, World.setActive]
    rw [Function.update_self, if_pos hle]

theorem removal (h : Inv s) {i : Nat} {x : Choice} {s' : Site} (hs : s.removal i x = some s') :
    Inv s' := by
  unfold Site.removal at hs
  split at hs
  · cases hs
  rename_i r hr
  split at hs
  swap
  · cases hs
  rename_i c k hbody
  cases hs
  have hcalls := h.removals r (List.mem_of_getElem? hr)
  rw [hbody] at hcalls
  have hkept := h.setWorld (keeps_of_removes hcalls.1 x s.world)
  exact { hkept with removals := forall_set h.removals (hcalls.2 _) }

theorem removed (h : Inv s) {i : Nat} {s' : Site} (hs : s.removed i = some s') : Inv s' := by
  have herased : Inv { s with removals := s.removals.eraseIdx i } :=
    { h with removals := fun r hr => h.removals r (List.mem_of_mem_eraseIdx hr) }
  unfold Site.removed at hs
  split at hs
  · cases hs
  rename_i r hr
  split at hs
  · rename_i targetID _
    cases hs
    split
    · rename_i hidle
      exact herased.addPass r.engine (herased.idle (of_decide_eq_true hidle))
    · exact herased
  · cases hs
    exact herased
  · cases hs

theorem collect (h : Inv s) {i : Nat} {x : Engine.Choice} {s' : Site}
    (hok : s.Guarded (.collect i x)) (hs : s.collect i x = some s') : Inv s' := by
  unfold Site.collect at hs
  split at hs
  · cases hs
  rename_i p hp
  split at hs
  swap
  · cases hs
  rename_i c k hprog
  cases hs
  have hpass := h.passes p (List.mem_of_getElem? hp)
  have hcalls := hpass.calls
  rw [hprog] at hcalls
  obtain ⟨hmanifests, hchunks⟩ := exec_collects hcalls.1 x (s.world.targets p.targetID)
  set t := (Target.exec c x (s.world.targets p.targetID)).2 with ht
  have hsame : ∀ a, ((s.world.setTarget p.targetID t).targets a).manifests =
      (s.world.targets a).manifests := by
    intro a
    rw [World.targets_setTarget]
    split
    · rename_i heq
      rw [heq, hmanifests]
    · rfl
  -- A chunk stays if this call is not its deletion, that is, if it is noted or named.
  have hstays : ∀ a sha, (s.world.targets a).Present sha →
      (a = p.targetID → sha ∈ p.since ∨ c.Keeps sha) →
      ((s.world.setTarget p.targetID t).targets a).Present sha := by
    intro a sha hpresent hspared
    rw [World.targets_setTarget]
    split
    · rename_i heq
      subst heq
      rcases hchunks sha hpresent with ⟨rfl, hx⟩ | hpresent
      · rcases hspared rfl with hnoted | hkeeps
        · exact absurd hnoted (hok p sha k hp hprog hx)
        · exact absurd rfl hkeeps
      · exact hpresent
    · exact hpresent
  have hnamed : ∀ key m, (s.world.targets p.targetID).manifests.lookup key = some (some m) →
      ∀ sha ∈ m.hashes, sha ∈ p.since ∨ c.Keeps sha ∧
        Wp (fun c (_ : Unit) r _ => Shows key m c r) (fun c _ => c.Keeps sha) (fun _ _ => True)
          (k (Target.exec c x (s.world.targets p.targetID)).1) () := by
    intro key m hm sha hsha
    refine (hpass.named key m hm sha hsha).imp_right fun hwp => ?_
    rw [hprog] at hwp
    exact ⟨hwp.1, hwp.2 _ () (exec_shows hm c x)⟩
  constructor
  case complete =>
    intro a key m hm sha hsha
    rw [hsame] at hm
    refine hstays a sha (h.complete a key m hm sha hsha) ?_
    rintro rfl
    exact (hnamed key m hm sha hsha).imp_right And.left
  case count => exact h.count
  case accepted =>
    intro r hr sha hsha
    refine hstays r.targetID sha (h.accepted r hr sha hsha) fun htarget => .inl ?_
    exact h.noted r hr sha hsha p (List.mem_of_getElem? hp) htarget.symm
  case noted =>
    intro r hr sha hsha
    refine forall_set (h.noted r hr sha hsha) ?_
    exact h.noted r hr sha hsha p (List.mem_of_getElem? hp)
  case runs => exact h.runs
  case removals => exact h.removals
  case passes =>
    refine forall_set ?_ ⟨hcalls.2 _, ?_⟩
    · intro q hq
      refine ⟨(h.passes q hq).calls, fun key m hm => (h.passes q hq).named key m ?_⟩
      rw [hsame] at hm
      exact hm
    · intro key m hm sha hsha
      rw [hsame] at hm
      exact (hnamed key m hm sha hsha).imp_right And.right

theorem step (h : Inv s) {a : Action} {s' : Site} (hok : s.Guarded a)
    (hs : Site.step a s = some s') : Inv s' := by
  cases a with
  | start e job runID work =>
    cases hs
    exact h.start e job runID work
  | putChunk i data => exact h.addWorker (fun r => putChunk_good r.engine data) hs
  | hasChunk i sha => exact h.addWorker (fun _ => hasChunk_good sha) hs
  | work i j x => exact h.work hok hs
  | stored i j => exact h.stored hs
  | run i x => exact h.run hs
  | finish i x => exact h.finish hs
  | remove e backupID =>
    cases hs
    refine { h with removals := fun r hr => ?_ }
    rcases List.mem_cons.mp hr with rfl | hr
    · exact removeBackup_removes backupID
    · exact h.removals r hr
  | removal i x => exact h.removal hs
  | removed i => exact h.removed hs
  | collect i x => exact h.collect hok hs

end Inv

def Site.quiet (w : World) : Site := ⟨w, [], [], []⟩

/-- In every run of any number of backup runs, retention passes, removals and collecting
passes, interleaved in any way and with any failures, every manifest keeps its chunks as
long as no pass deletes a chunk that a run has accepted since the pass began, and no
worker finds an index row whose chunk is gone. -/
theorem restore_points_complete {w : World} {as : List Action} {s : Site}
    (h : site.Run Site.Guarded (Site.quiet w) as s) (hidle : ∀ targetID, w.targetActive targetID = 0)
    (hcomplete : w.Complete) : s.world.Complete := by
  have hinv : Inv (Site.quiet w) := by
    refine ⟨hcomplete, fun targetID => ?_, nofun, nofun, nofun, nofun, nofun⟩
    rw [Site.quiet, hidle]
    rfl
  exact (h.invariant (fun _ _ _ hs hok hstep => hs.step hok hstep) hinv).complete

def siteSource : { source : String × String // source.1 ≠ "" } := ⟨("host_101", "web"), by decide⟩

def siteJob : Job := ⟨"job", "nightly", .vm, "nas", ⟨7, 0, 0, 0, 0⟩⟩

def siteDisks : List DiskManifest := [⟨"scsi0", 1, [⟨"c0", 1⟩]⟩]

def siteManifest (id : String) : Manifest :=
  newManifest siteJob "run" .vm (Work.plan siteSource) siteDisks 0 "" id 1

def siteTarget : Target where
  chunks := AList.singleton "c0" ⟨[7], 1⟩
  manifests := AList.singleton (siteManifest "old").key (some (siteManifest "old"))
  index := AList.singleton "c0" ⟨1, 1⟩

def siteWorld : World where
  targets _ := siteTarget
  backups := ⟨[newBackup (siteManifest "old") siteSource.2], by decide⟩
  jobs := ∅
  targetActive _ := 0

def siteEngine : Engine := newWithOptions (fun _ => "c0") ⟨none, none⟩ ⟨4, "zstd", 0⟩

theorem siteWorld_complete : siteWorld.Complete := by
  intro targetID key m hm sha hsha
  have hmem : key ∈ siteTarget.manifests := AList.lookup_isSome.mp (Option.isSome_of_eq_some hm)
  have hkey : key = (siteManifest "old").key := by simpa [siteTarget, AList.mem_keys] using hmem
  have hold : siteTarget.manifests.lookup (siteManifest "old").key =
      some (some (siteManifest "old")) := by decide
  have hm' : siteTarget.manifests.lookup key = some (some m) := hm
  rw [hkey, hold] at hm'
  cases hm'
  have hsha' : sha = "c0" := by
    simpa [siteManifest, newManifest, Manifest.hashes, siteDisks] using hsha
  have hpresent : siteTarget.Present "c0" := by decide
  rw [hsha']
  exact hpresent

/-- The restore point is removed, the target is found idle, and two days after the chunk
was stored a pass comes to it. -/
def passComes : List Action :=
  [.remove siteEngine "old", .removal 0 .fine, .removal 0 .fine, .removal 0 .fine,
    .removal 0 .fine, .removal 0 .fine, .removed 0, .collect 0 .fine, .collect 0 .fine,
    .collect 0 { clock := 2 * defaultGCGrace }, .collect 0 .fine, .collect 0 .fine]

def manifestWritten : List Action :=
  [.run 0 .fine, .run 0 .fine, .run 0 { disks := .ok (siteDisks, 0) }, .run 0 .fine,
    .run 0 { freshID := "new" }, .run 0 { clock := 1 }, .run 0 .fine]

def passFirst : List Action :=
  passComes ++ [.collect 0 .fine, .collect 0 .fine,
    .start siteEngine siteJob "run" (.vms [siteSource]), .putChunk 0 [7], .work 0 0 .fine,
    .work 0 0 .fine, .work 0 0 .fine, .work 0 0 .fine, .work 0 0 .fine, .stored 0 0] ++ manifestWritten

def runBetween : List Action :=
  passComes ++ [.start siteEngine siteJob "run" (.vms [siteSource]), .putChunk 0 [7],
    .work 0 0 .fine, .stored 0 0, .collect 0 .fine] ++ manifestWritten

def Site.guarded (s : Site) : Action → Bool
  | .collect i _ => s.passes[i]?.all fun p => p.since = ∅
  | .work i _ _ => s.runs[i]?.all fun r =>
      (s.world.targets r.targetID).index.keys.all fun sha => (s.world.targets r.targetID).Present sha
  | _ => true

theorem guarded_of_check {s : Site} {a : Action} (h : s.guarded a = true) : s.Guarded a := by
  cases a with
  | collect i x =>
    intro p sha k hp _ _
    dsimp only [Site.guarded] at h
    rw [hp] at h
    have hnone : p.since = ∅ := of_decide_eq_true h
    rw [hnone]
    exact Finset.notMem_empty sha
  | work i j x =>
    intro r sha sha' k hr _ _ hindexed
    dsimp only [Site.guarded] at h
    rw [hr] at h
    have hkey : sha ∈ (s.world.targets r.targetID).index.keys :=
      AList.mem_keys.mp (AList.lookup_isSome.mp hindexed)
    exact of_decide_eq_true (List.all_eq_true.mp h sha hkey)
  | _ => trivial

theorem pass_first_follow : ∃ s, site.follow passFirst (Site.quiet siteWorld) = some s ∧
    (s.world.targets "nas").manifests.lookup (siteManifest "new").key = some (some (siteManifest "new")) :=
  ⟨_, rfl, rfl⟩

theorem pass_first_guarded :
    (site.trail passFirst (Site.quiet siteWorld)).all (fun e => e.1.guarded e.2) = true := by
  decide

/-- The run uploads the chunk anew, and its restore point is whole. -/
theorem restore_points_complete_upload : ∃ s : Site,
    (s.world.targets "nas").manifests.lookup (siteManifest "new").key = some (some (siteManifest "new")) ∧
      s.world.Complete := by
  obtain ⟨s, hfollow, hmanifest⟩ := pass_first_follow
  have hrun : site.Run Site.Guarded (Site.quiet siteWorld) passFirst s :=
    System.run_of_trail (fun _ _ h => guarded_of_check h) hfollow pass_first_guarded
  exact ⟨s, hmanifest, restore_points_complete hrun (fun _ => rfl) siteWorld_complete⟩

theorem run_between_follow : ∃ s, site.follow runBetween (Site.quiet siteWorld) = some s ∧
    (s.world.targets "nas").manifests.lookup (siteManifest "new").key = some (some (siteManifest "new")) ∧
    ¬ (s.world.targets "nas").Present "c0" :=
  ⟨_, rfl, rfl, by decide⟩

theorem restore_points_incomplete : ¬ ∀ w as s, site.Run (fun _ _ => True) (Site.quiet w) as s →
    (∀ targetID, w.targetActive targetID = 0) → w.Complete → s.world.Complete := by
  intro hall
  obtain ⟨s, hfollow, hmanifest, hgone⟩ := run_between_follow
  have hrun : site.Run (fun _ _ => True) (Site.quiet siteWorld) runBetween s :=
    System.run_of_follow (fun _ _ _ => trivial) hfollow
  exact hgone (hall _ _ s hrun (fun _ => rfl) siteWorld_complete "nas" _ _ hmanifest "c0" (by decide))

end ProxBack.Sched
