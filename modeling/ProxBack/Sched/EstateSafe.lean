import ProxBack.Lib.Lists
import ProxBack.Sched.Estate

/-! A restore writes where its request was allowed to, if the guest at its VMID stays as it
is from the check to the import. -/
namespace ProxBack.Sched.Estate
open Lib Text Prog Engine
open Restore (VMRestoreTarget RestorePlan Via RestoreVM)

/-- A restore alongside found no guest, and an overwrite found the one that was confirmed,
on the node it was sent to. -/
def Write.Safe (x : Write) : Prop :=
  match x.dest.mode with
  | .alongside => x.found = none
  | .overwrite => ∀ g, x.found = some g →
    g.name.toList = trimSpace x.dest.confirmName.toList ∧ g.node = x.node

def Request.key (q : Request) : String × Int := (q.dest.hostID, q.dest.vmid)

/-- The node's own `qmrestore` guards a restore alongside that goes through a helper. -/
def Request.Exposed (q : Request) : Prop :=
  q.dest.mode = .overwrite ∨ Restore.isVMAManifest q.point.man.disks = false

def Request.Pending (q : Request) : Prop :=
  match q.phase with
  | .listing _ _ => True
  | .running _ started => started = false
  | _ => False

def Request.Waits (q : Request) (key : String × Int) : Prop :=
  q.key = key ∧ q.Exposed ∧ q.Pending

/-- A guest is made, renamed, moved or imported only while no other restore has looked at
its VMID and has yet to write there; and an overwrite is sent to the node of its guest. -/
def Undisturbed (w : State) : Action → Prop
  | .createGuest hostID vmid _ | .rename hostID vmid _ | .migrate hostID vmid _ =>
    ∀ q ∈ w.requests, ¬ q.Waits (hostID, vmid)
  | .startImport i _ _ => ∀ q, w.requests[i]? = some q → ∀ k q', k ≠ i →
    w.requests[k]? = some q' → ¬ q'.Waits q.key
  | .plan i => ∀ q, w.requests[i]? = some q → q.dest.mode = .overwrite →
    q.dest.node = "" ∨ ∀ g, w.guests.lookup q.key = some g → g.node = q.dest.node
  | _ => True

/-- The imports of a run are into one VMID, on its node if the plan has one, and an archive
goes through a helper. -/
def Aims (vmid : Int) (node : String) (archive : Bool) : Restore.Call → Prop
  | .transfer via _ => viaVMID via = vmid ∧ (node ≠ "" → viaNode via = node) ∧
    (archive = true → ∃ vmid h, via = .helper vmid h)
  | _ => True

abbrev Aimed (vmid : Int) (node : String) (archive : Bool) (p : RestoreVM (Option Restore.Err)) :
    Prop :=
  Wp (fun c (_ : Unit) r _ => Answers c r) (fun c _ => Aims vmid node archive c)
    (fun _ _ => True) p ()

section
variable {man : Manifest} {vmid : Int} {node : String}

theorem aimed_disks (disks : List DiskManifest) {planned : String}
    (hnode : planned ≠ "" → node = planned) :
    Aimed vmid planned false (Restore.restoreDisks node vmid disks) := by
  induction disks with
  | nil => trivial
  | cons disk rest ih =>
    refine ⟨trivial, ?_⟩
    rintro (- | f) - -
    · refine ⟨⟨rfl, hnode, nofun⟩, fun out _ _ => ?_⟩
      dsimp only
      split
      · trivial
      · exact ih
    · trivial

theorem aimed_helper {hostID : String} {disk : DiskManifest} {archive : Bool} {planned : String}
    (hnode : planned ≠ "" → node = planned) :
    Aimed vmid planned archive (Restore.requireHelperForNode hostID node >>= fun
      | .error err => .ret (some err)
      | .ok h => Restore.restoreViaHelper man disk h vmid) := by
  have himport : ∀ h : Restore.NodeHelper, h.node = node →
      Aimed vmid planned archive (Restore.restoreViaHelper man disk h vmid) := by
    intro h hh
    exact ⟨⟨rfl, fun hne => hh.trans (hnode hne), fun _ => ⟨vmid, h, rfl⟩⟩, fun _ _ _ => trivial⟩
  refine ⟨trivial, ?_⟩
  rintro ((- | ⟨op, f⟩) | h) - hanswers
  · refine ⟨trivial, ?_⟩
    rintro ((- | ⟨op, f⟩) | ⟨⟩) - - <;> trivial
  · trivial
  · have hh : h.node = node := hanswers
    dsimp only
    by_cases honline : h.online
    · rw [if_neg (by simpa using honline)]
      exact himport h hh
    · rw [if_pos honline]
      trivial

/-- What `restoreVM` does once it has the node. -/
def restoreOnNode (man : Manifest) (vmid : Int) (hostID node : String) :
    RestoreVM (Option Restore.Err) :=
  match man.disks, Restore.isVMAManifest man.disks with
  | disk :: _, true =>
    Restore.requireHelperForNode hostID node >>= fun
    | .error err => .ret (some err)
    | .ok h => Restore.restoreViaHelper man disk h vmid
  | disks, _ => Restore.restoreDisks node vmid disks

theorem aimed_restoreVM {target : VMRestoreTarget} {plan : RestorePlan}
    (hvmid : Restore.findVMID target plan (Restore.vmidFromSourceID man.sourceID) = .ok plan.vmid) :
    Aimed plan.vmid plan.node (Restore.isVMAManifest man.disks)
      (Restore.restoreVM man (some target) plan) := by
  have hnoded : ∀ (hostID node : String), (plan.node ≠ "" → node = plan.node) →
      Aimed plan.vmid plan.node (Restore.isVMAManifest man.disks)
        (restoreOnNode man plan.vmid hostID node) := by
    intro hostID node hnode
    unfold restoreOnNode
    cases hdisks : man.disks with
    | nil => trivial
    | cons disk rest =>
      cases harchive : Restore.isVMAManifest (disk :: rest) with
      | true => exact aimed_helper hnode
      | false => exact aimed_disks _ hnode
  refine ⟨trivial, ?_⟩
  rintro (err | host) - -
  · trivial
  refine ⟨trivial, ?_⟩
  rintro (f | ⟨⟩) - -
  · trivial
  rw [hvmid]
  refine (wp_bind _ _ _).mpr ?_
  unfold Restore.findNode
  by_cases hplanned : plan.node ≠ ""
  · rw [if_pos hplanned]
    exact hnoded _ _ fun _ => rfl
  · rw [if_neg hplanned]
    have hany : ∀ node : String, plan.node ≠ "" → node = plan.node :=
      fun _ hne => absurd hne hplanned
    refine ⟨trivial, ?_⟩
    rintro (f | node) - -
    · dsimp only
      cases Restore.vmidFromSourceID man.sourceID with
      | error err => trivial
      | ok sourceVMID =>
        refine ⟨trivial, ?_⟩
        rintro (f | node) - -
        · trivial
        · exact hnoded _ _ (hany node)
    · exact hnoded _ _ (hany node)

end

theorem findVMID_destination {p : Point} {spec : RestoreSpec} {host : Except Store.Err Unit}
    {d : Destination} (h : destination p spec host = .ok d) (node : String) :
    ∃ target, spec.vm.map Target.toVMRestoreTarget = some target ∧
      Restore.findVMID target ⟨d.hostID, node, d.vmid⟩ (Restore.vmidFromSourceID p.man.sourceID) =
        .ok d.vmid := by
  unfold destination at h
  split at h
  · cases h
  rename_i vm hvm
  refine ⟨vm.toVMRestoreTarget, by rw [hvm]; rfl, ?_⟩
  split at h
  · cases h
  dsimp only at h
  have hhost : ¬ (if vm.hostID = "" then p.hostID else vm.hostID) = "" := by
    intro hempty
    rw [if_pos hempty] at h
    cases h
  rw [if_neg hhost] at h
  cases host with
  | error err => cases h
  | ok u =>
  dsimp only at h
  split at h
  · cases h
  rename_i vmid hvmid
  cases h
  unfold Restore.findVMID
  dsimp only
  split
  · rfl
  rename_i hzero
  split
  · rename_i hne
    rw [if_neg hne] at hvmid
    cases hvmid
    exact absurd hne hzero
  · rename_i hne
    rw [if_pos (not_not.mp hne)] at hvmid
    exact hvmid

/-- What a request that waits for its import knows of the guest `here` at its VMID. -/
structure Request.Fits (C : Cluster) (here : Option Guest) (q : Request) : Prop where
  origin : ∃ host, destination q.point q.spec host = .ok q.dest
  listing : ∀ todo existing, q.phase = .listing todo existing →
    (∀ g, existing = some g → g.node ∈ C.nodes q.dest.hostID) ∧
      (q.Exposed → (∀ g g', existing = some g → here = some g' → g' = g) ∧
        (existing = none → ∀ g, here = some g → g.node ∈ todo))
  running : ∀ p started, q.phase = .running p started → ∃ node,
    Aimed q.dest.vmid node (Restore.isVMAManifest q.point.man.disks) p ∧
      (q.dest.mode = .overwrite → node ≠ "") ∧
      (started = false → q.Exposed →
        (q.dest.mode = .alongside → here = none) ∧
        (q.dest.mode = .overwrite → ∀ g, here = some g →
          g.name.toList = trimSpace q.dest.confirmName.toList ∧ g.node = node))

section
variable {C : Cluster} {w w' : State} {q : Request} {here here' : Option Guest}

theorem Request.Fits.change (h : q.Fits C here)
    (hchange : here' = here ∨ here' = none ∨ ¬ (q.Exposed ∧ q.Pending)) : q.Fits C here' where
  origin := h.origin
  listing := by
    intro todo existing hp
    obtain ⟨hnodes, hlist⟩ := h.listing todo existing hp
    refine ⟨hnodes, fun hexp => ?_⟩
    rcases hchange with rfl | rfl | hnot
    · exact hlist hexp
    · exact ⟨fun _ _ _ => nofun, fun _ _ => nofun⟩
    · exact absurd ⟨hexp, by rw [Request.Pending, hp]; trivial⟩ hnot
  running := by
    intro p started hp
    obtain ⟨node, haimed, hnode, hsafe⟩ := h.running p started hp
    refine ⟨node, haimed, hnode, fun hstart hexp => ?_⟩
    rcases hchange with rfl | rfl | hnot
    · exact hsafe hstart hexp
    · exact ⟨fun _ => rfl, fun _ _ => nofun⟩
    · exact absurd ⟨hexp, by rw [Request.Pending, hp]; exact hstart⟩ hnot

structure Kept (C : Cluster) (w : State) : Prop where
  nodes : ∀ key g, w.guests.lookup key = some g → g.node ∈ C.nodes key.1
  writes : ∀ x ∈ w.writes, x.Safe
  fits : ∀ q ∈ w.requests, q.Fits C (w.guests.lookup q.key)

theorem kept_initial : Kept C .initial where
  nodes := by simp [State.initial]
  writes := by simp [State.initial]
  fits := by simp [State.initial]

theorem Kept.insert (h : Kept C w) {key : String × Int} {g : Guest} (hg : g.node ∈ C.nodes key.1)
    (hnot : ∀ q ∈ w.requests, ¬ q.Waits key) :
    Kept C { w with guests := w.guests.insert key g } where
  nodes := by
    intro key' g' hg'
    rw [FinMap.lookup_insert_ite] at hg'
    split at hg'
    · rename_i heq
      cases hg'
      exact heq ▸ hg
    · exact h.nodes key' g' hg'
  writes := h.writes
  fits := by
    intro q hq
    refine (h.fits q hq).change ?_
    rw [FinMap.lookup_insert_ite]
    split
    · rename_i heq
      exact .inr (.inr fun hwaits => hnot q hq ⟨heq, hwaits⟩)
    · exact .inl rfl

theorem Kept.erase (h : Kept C w) (key : String × Int) :
    Kept C { w with guests := w.guests.erase key } where
  nodes := by
    intro key' g' hg'
    rw [FinMap.lookup_erase_ite] at hg'
    split at hg'
    · cases hg'
    · exact h.nodes key' g' hg'
  writes := h.writes
  fits := by
    intro q hq
    refine (h.fits q hq).change ?_
    rw [FinMap.lookup_erase_ite]
    split
    · exact .inr (.inl rfl)
    · exact .inl rfl

theorem Kept.setPhase (h : Kept C w) (i : Nat) {phase : Phase}
    (hq : { q with phase }.Fits C (w.guests.lookup q.key)) : Kept C (w.setPhase i q phase) where
  nodes := h.nodes
  writes := h.writes
  fits := by
    intro q' hq'
    rcases List.mem_or_eq_of_mem_set hq' with hq' | rfl
    · exact h.fits q' hq'
    · exact hq

theorem Request.Fits.over (h : q.Fits C here) {phase : Phase} (hlist : ∀ todo g, phase ≠ .listing todo g)
    (hrun : ∀ p started, phase ≠ .running p started) : { q with phase }.Fits C here where
  origin := h.origin
  listing := fun todo g hp => absurd hp (hlist todo g)
  running := fun p started hp => absurd hp (hrun p started)

theorem Request.Fits.list (h : q.Fits C here) {node : String} {todo : List String}
    {existing : Option Guest} (hp : q.phase = .listing (node :: todo) existing)
    (hnodes : ∀ g, here = some g → g.node ∈ C.nodes q.dest.hostID) :
    { q with phase := .listing todo (existing.or (here.filter fun g => g.node = node)) }.Fits C
      here where
  origin := h.origin
  running := nofun
  listing := by
    intro todo' existing' heq
    cases heq
    obtain ⟨hexists, hlist⟩ := h.listing _ _ hp
    have hfound : ∀ g, here.filter (fun g => g.node = node) = some g → here = some g ∧ g.node = node := by
      intro g hg
      obtain ⟨hhere, hnode⟩ := Option.filter_eq_some_iff.mp hg
      exact ⟨hhere, of_decide_eq_true hnode⟩
    refine ⟨fun g hg => ?_, fun hexp => ⟨fun g g' hg hg' => ?_, fun hnone g hg => ?_⟩⟩
    · cases existing with
      | some g₀ => exact hexists g hg
      | none => exact hnodes g (hfound g hg).1
    · cases existing with
      | some g₀ => exact (hlist hexp).1 g g' hg hg'
      | none =>
        have hhere := (hfound g hg).1
        rw [hhere] at hg'
        cases hg'
        rfl
    · obtain ⟨hnone, hfilter⟩ := Option.or_eq_none_iff.mp hnone
      rcases List.mem_cons.mp ((hlist hexp).2 hnone g hg) with hnode | hmem
      · rw [hg, Option.filter_some, if_pos (decide_eq_true hnode)] at hfilter
        cases hfilter
      · exact hmem

theorem Request.Fits.plan (h : q.Fits C here) {existing : Option Guest} {plan : RestorePlan}
    (hp : q.phase = .listing [] existing) (hplan : planVMRestore q.dest existing = .ok plan)
    (hnode : q.dest.mode = .overwrite → q.dest.node = "" ∨ ∀ g, here = some g → g.node = q.dest.node) :
    { q with phase := .running (Restore.restoreVM q.point.man
      (q.spec.vm.map Target.toVMRestoreTarget) plan) false }.Fits C here where
  origin := h.origin
  listing := nofun
  running := by
    intro p started heq
    cases heq
    obtain ⟨host, hdest⟩ := h.origin
    obtain ⟨hexists, hlist⟩ := h.listing _ _ hp
    unfold planVMRestore at hplan
    dsimp only at hplan
    obtain ⟨target, htarget, hvmid⟩ := findVMID_destination hdest
      (if q.dest.node = "" then (existing.map Guest.node).getD "" else q.dest.node)
    rw [htarget]
    split at hplan
    · cases hplan
    · rename_i hmode
      cases hplan
      refine ⟨_, aimed_restoreVM hvmid, fun hover => (nomatch hmode.symm.trans hover),
        fun _ hexp => ⟨fun _ => ?_, fun hover => (nomatch hmode.symm.trans hover)⟩⟩
      by_contra hsome
      obtain ⟨g, hg⟩ := Option.ne_none_iff_exists'.mp hsome
      cases (hlist hexp).2 rfl g hg
    · cases hplan
    · rename_i g hmode
      split at hplan
      · cases hplan
      rename_i hname
      cases hplan
      have hnamed : g.node ≠ "" := by
        intro hempty
        exact C.named q.dest.hostID (hempty ▸ hexists g rfl)
      refine ⟨_, aimed_restoreVM hvmid, fun _ => ?_, fun _ hexp => ⟨fun halong =>
        (nomatch hmode.symm.trans halong), fun _ g' hg' => ?_⟩⟩
      · dsimp only
        split
        · exact hnamed
        · assumption
      · have hsame := (hlist hexp).1 g g' rfl hg'
        refine ⟨by rw [hsame]; exact (not_not.mp hname).symm, ?_⟩
        dsimp only
        split
        · rw [hsame]
          rfl
        · rename_i hne
          exact ((hnode hmode).resolve_left hne) g' hg'

theorem Request.Fits.answer (h : q.Fits C here) {c : Restore.Call}
    {k : Restore.Reply c → RestoreVM (Option Restore.Err)} {started : Bool}
    (hp : q.phase = .running (.call c k) started) {r : Restore.Reply c} (hr : Answers c r) :
    { q with phase := .running (k r) started }.Fits C here where
  origin := h.origin
  listing := nofun
  running := by
    intro p started' heq
    cases heq
    obtain ⟨node, haimed, hnode, hsafe⟩ := h.running _ _ hp
    exact ⟨node, haimed.2 r () hr, hnode, hsafe⟩

theorem Request.Fits.safe (h : q.Fits C (w.guests.lookup q.key)) {via : Via} {disk : DiskManifest}
    {k : Transferred → RestoreVM (Option Restore.Err)}
    (hp : q.phase = .running (.call (.transfer via disk) k) false)
    (hwrites : w.writesVia C q.dest via = true) :
    viaVMID via = q.dest.vmid ∧
      Write.Safe ⟨q.dest, viaNode via, w.guests.lookup (q.dest.hostID, viaVMID via)⟩ := by
  obtain ⟨node, ⟨⟨hvmid, hnode, harchive⟩, -⟩, hne, hsafe⟩ := h.running _ _ hp
  refine ⟨hvmid, ?_⟩
  rw [hvmid]
  unfold Write.Safe
  by_cases hexp : q.Exposed
  · obtain ⟨halong, hover⟩ := hsafe rfl hexp
    cases hmode : q.dest.mode with
    | alongside => exact halong hmode
    | overwrite =>
      intro g hg
      obtain ⟨hname, hgnode⟩ := hover hmode g hg
      exact ⟨hname, hgnode.trans (hnode (hne hmode)).symm⟩
  · -- an archive that is restored alongside: `qmrestore` refuses a VMID in use
    have halong : q.dest.mode = .alongside := by
      cases hmode : q.dest.mode with
      | alongside => rfl
      | overwrite => exact absurd (.inl hmode) hexp
    have hvma : Restore.isVMAManifest q.point.man.disks = true := by
      by_contra hnot
      exact hexp (.inr (by simpa using hnot))
    obtain ⟨vmid, helper, rfl⟩ := harchive hvma
    have hid : vmid = q.dest.vmid := hvmid
    subst hid
    rw [halong]
    dsimp only
    by_contra hsome
    obtain ⟨g, hg⟩ := Option.ne_none_iff_exists'.mp hsome
    unfold State.writesVia at hwrites
    split at hwrites
    · cases hwrites
    · dsimp only at hwrites
      rw [hg, halong] at hwrites
      cases (C.refuses g).symm.trans hwrites

theorem Kept.startImport (h : Kept C w) {i : Nat} (hi : w.requests[i]? = some q) {started : Bool}
    {via : Via} {disk : DiskManifest} {k : Transferred → RestoreVM (Option Restore.Err)}
    (hp : q.phase = .running (.call (.transfer via disk) k) started) (name : String)
    (out : Transferred) (hundist : ∀ j q', j ≠ i → w.requests[j]? = some q' → ¬ q'.Waits q.key) :
    Kept C (w.startImport C i q started via name (k out)) := by
  have hq := h.fits q (List.mem_of_getElem? hi)
  obtain ⟨node, haimed, hne, -⟩ := hq.running _ _ hp
  have hvmid : viaVMID via = q.dest.vmid := haimed.1.1
  -- the request itself waits no longer, so it fits whatever guest is there
  have hdone : ∀ here, { q with phase := .running (k out) true }.Fits C here := fun here =>
    { origin := hq.origin
      listing := nofun
      running := by
        intro p started' heq
        cases heq
        exact ⟨node, haimed.2 out () trivial, hne, nofun⟩ }
  unfold State.startImport
  dsimp only
  split
  swap
  · exact h.setPhase i (hdone _)
  rename_i hwrites
  have hnode : viaNode via ∈ C.nodes q.dest.hostID := by
    unfold State.writesVia at hwrites
    split at hwrites
    · cases hwrites
    · rename_i hmem
      exact not_not.mp hmem
  exact
    { nodes := by
        intro key g hg
        dsimp only [State.imported] at hg
        split at hg
        · exact h.nodes key g hg
        · rw [FinMap.lookup_insert_ite] at hg
          split at hg
          · rename_i heq
            cases hg
            rw [heq]
            exact hnode
          · exact h.nodes key g hg
      writes := by
        intro x hx
        dsimp only at hx
        split at hx
        · exact h.writes x hx
        · rename_i hstarted
          rcases List.mem_append.mp hx with hx | hx
          · exact h.writes x hx
          · cases List.mem_singleton.mp hx
            have hfalse : started = false := by simpa using hstarted
            exact (hq.safe (hfalse ▸ hp) hwrites).2
      fits := by
        intro q' hq'
        rcases mem_set_cases hi hq' with rfl | ⟨j, hji, hset⟩
        · exact hdone _
        · refine (h.fits q' (List.mem_of_getElem? hset)).change ?_
          show (w.imported q.dest via name).lookup q'.key = _ ∨ _
          unfold State.imported
          split
          · exact .inl rfl
          · rw [FinMap.lookup_insert_ite]
            split
            · rename_i heq
              refine .inr (.inr fun hwaits => hundist j q' hji hset ⟨?_, hwaits⟩)
              rw [heq, hvmid]
              rfl
            · exact .inl rfl }

theorem Kept.advance (h : Kept C w) {i : Nat} (hi : w.requests[i]? = some q) {a : Action}
    (hundist : Undisturbed w a) (ha : ∀ j, (∃ name out, a = .startImport j name out) ∨ a = .plan j →
      j = i) (hstep : w.advance C i q a = some w') : Kept C w' := by
  have hq := h.fits q (List.mem_of_getElem? hi)
  have hover : ∀ {phase : Phase}, (∀ todo g, phase ≠ .listing todo g) →
      (∀ p started, phase ≠ .running p started) → Kept C (w.setPhase i q phase) :=
    fun hlist hrun => h.setPhase i (hq.over hlist hrun)
  cases a with
  | list _ fault =>
    simp only [State.advance] at hstep
    split at hstep
    · cases hstep
      exact hover nofun nofun
    · rename_i hp
      cases hstep
      exact h.setPhase i (hq.list hp fun g hg => h.nodes _ g hg)
    · cases hstep
  | plan j =>
    cases ha j (.inr rfl)
    simp only [State.advance] at hstep
    split at hstep
    · rename_i existing hp
      split at hstep
      · cases hstep
        exact hover nofun nofun
      · rename_i plan hplan
        cases hstep
        exact h.setPhase i (hq.plan hp hplan (hundist q hi))
    · cases hstep
  | answer _ reply =>
    simp only [State.advance] at hstep
    split at hstep
    · cases hstep
    · rename_i hp
      obtain ⟨hanswers, hset⟩ := Option.ite_none_right_eq_some.mp hstep
      cases hset
      exact h.setPhase i (hq.answer hp hanswers)
    · cases hstep
  | startImport j name out =>
    cases ha j (.inl ⟨name, out, rfl⟩)
    simp only [State.advance] at hstep
    split at hstep
    · rename_i via disk k started hp
      cases hstep
      exact h.startImport hi hp name out (hundist q hi)
    · cases hstep
  | stop =>
    cases hstep
    exact hover nofun nofun
  | _ => cases hstep

def Action.request : Action → Option Nat
  | .list i _ | .plan i | .answer i _ | .startImport i _ _ | .stop i => some i
  | _ => none

theorem State.exists_advance {i : Nat} {a : Action} (ha : a.request = some i)
    (hstep : w.step C a = some w') :
    ∃ q, w.requests[i]? = some q ∧ w.advance C i q a = some w' := by
  cases a <;> cases ha
  all_goals
    simp only [State.step] at hstep
    split at hstep
    · cases hstep
    · exact ⟨_, ‹_›, hstep⟩

theorem Kept.step (h : Kept C w) {a : Action} (hundist : Undisturbed w a)
    (hstep : w.step C a = some w') : Kept C w' := by
  cases a with
  | createGuest hostID vmid g =>
    obtain ⟨⟨-, hnode⟩, heq⟩ := Option.ite_none_right_eq_some.mp hstep
    cases heq
    exact h.insert hnode hundist
  | deleteGuest hostID vmid =>
    cases hstep
    exact h.erase _
  | rename hostID vmid name =>
    obtain ⟨g, hg, rfl⟩ := Option.map_eq_some_iff.mp hstep
    exact h.insert (h.nodes _ g hg) hundist
  | migrate hostID vmid node =>
    obtain ⟨hnode, heq⟩ := Option.ite_none_right_eq_some.mp hstep
    obtain ⟨g, hg, rfl⟩ := Option.map_eq_some_iff.mp heq
    exact h.insert hnode hundist
  | triggerRestore p spec host =>
    simp only [State.step] at hstep
    split at hstep <;> cases hstep
    · exact h
    · rename_i dest hdest
      refine { h with fits := fun q hq => ?_ }
      rcases List.mem_append.mp hq with hq | hq
      · exact h.fits q hq
      · cases List.mem_singleton.mp hq
        refine ⟨⟨host, hdest⟩, fun todo existing heq => ?_, by simp⟩
        cases heq
        exact ⟨by simp, fun _ => ⟨by simp, fun _ g hg => h.nodes _ g hg⟩⟩
  | list i | plan i | answer i | startImport i | stop i =>
    obtain ⟨q, hi, hadv⟩ := State.exists_advance (i := i) rfl hstep
    refine h.advance hi hundist ?_ hadv
    rintro j (⟨_, _, heq⟩ | heq) <;> cases heq <;> rfl

end

/-- In every run in which the guest of a VMID is left alone between a restore's look at it
and its import, every import finds what its request was allowed to write into. -/
theorem imports_safe (C : Cluster) (as : List Action) (w : State)
    (h : (system C).Run Undisturbed .initial as w) : ∀ x ∈ w.writes, x.Safe :=
  (h.invariant (fun _ _ _ hk hundist hstep => hk.step hundist hstep) kept_initial).writes

def twoNodes : Cluster where
  nodes := fun _ => ["pve1", "pve2"]
  qmrestore := fun force g => force || g.isNone
  named := fun _ => by decide
  refuses := fun _ => rfl

def webPoint : Point :=
  ⟨"h", ⟨"b1", "j", "nightly", "r", .vm, "h_101", "web", "t", 0, .full, "", 1, 1, Engine.chunkSize,
    [⟨"scsi0", 1, []⟩]⟩⟩

def into (vmid : Int) (mode confirmName : String) : RestoreSpec :=
  ⟨some ⟨⟨"h", vmid⟩, ""⟩, mode, confirmName⟩

def wellAnswered : (c : Restore.Call) → Restore.Reply c
  | .pveHostByID id => .ok ⟨id⟩
  | .pveClient _ => .ok ()
  | .findNodeForVM _ => .ok "pve1"
  | .helperFor _ _ => .error .notFound
  | .unassignedHelperForNode _ => .error .notFound
  | .ctxErr => none
  | .transfer _ _ => ⟨.status 200, none, []⟩

def overwritten : List Action :=
  [.createGuest "h" 101 ⟨"web", "pve1"⟩, .triggerRestore webPoint (into 101 "overwrite" " web ") (.ok ()),
    .list 0 none, .list 0 none, .plan 0, .answer 0 wellAnswered, .answer 0 wellAnswered,
    .answer 0 wellAnswered, .startImport 0 "web" ⟨.status 200, none, []⟩]

/-- Guests are made before the first request, there is one request, and it leaves the node
to the server. -/
def calm : State × Action → Bool
  | (w, .createGuest _ _ _) => w.requests.isEmpty
  | (_, .rename _ _ _) | (_, .migrate _ _ _) => false
  | (w, .startImport _ _ _) => w.requests.length ≤ 1
  | (w, .plan _) => w.requests.all fun q => q.dest.node = ""
  | _ => true

theorem undisturbed_of_calm (w : State) (a : Action) (h : calm (w, a) = true) : Undisturbed w a := by
  cases a with
  | createGuest hostID vmid g =>
    intro q hq
    rw [List.isEmpty_iff.mp h] at hq
    cases hq
  | rename | migrate => cases h
  | startImport i name out =>
    intro q hq k q' hk hq'
    have hlen : w.requests.length ≤ 1 := of_decide_eq_true h
    have hi := (List.getElem?_eq_some_iff.mp hq).1
    have hk' := (List.getElem?_eq_some_iff.mp hq').1
    omega
  | plan i =>
    intro q hq _
    exact .inl (of_decide_eq_true (List.all_eq_true.mp h q (List.mem_of_getElem? hq)))
  | _ => trivial

theorem overwritten_run : ∃ w, (system twoNodes).Run Undisturbed .initial overwritten w ∧
    w.writes = [⟨⟨.overwrite, "h", 101, "", " web "⟩, "pve1", some ⟨"web", "pve1"⟩⟩] :=
  ⟨_, System.run_of_trail (p := calm) undisturbed_of_calm rfl rfl, rfl⟩

theorem imports_safe_overwritten : ∃ w, (system twoNodes).Run Undisturbed .initial overwritten w ∧
    w.writes.length = 1 ∧ ∀ x ∈ w.writes, x.Safe := by
  obtain ⟨w, hrun, hwrites⟩ := overwritten_run
  exact ⟨w, hrun, by rw [hwrites]; rfl, imports_safe twoNodes overwritten w hrun⟩

/-- A restore alongside is accepted, and a guest with its VMID is made while it waits. -/
def guestMade : List Action :=
  [.triggerRestore webPoint (into 200 "" "") (.ok ()), .list 0 none, .list 0 none, .plan 0,
    .createGuest "h" 200 ⟨"db", "pve1"⟩, .answer 0 wellAnswered, .answer 0 wellAnswered,
    .answer 0 wellAnswered, .answer 0 wellAnswered,
    .startImport 0 "web" ⟨.status 200, none, []⟩]

theorem guestMade_follows : ∃ w, (system twoNodes).follow guestMade .initial = some w ∧
    w.writes = [⟨⟨.alongside, "h", 200, "", ""⟩, "pve1", some ⟨"db", "pve1"⟩⟩] := ⟨_, rfl, rfl⟩

theorem live_guest_written : ¬ ∀ (C : Cluster) (as : List Action) (w : State),
    (system C).Run (fun _ _ => True) .initial as w → ∀ x ∈ w.writes, x.Safe := by
  intro hsafe
  obtain ⟨w, hw, hwrites⟩ := guestMade_follows
  have hx := hsafe twoNodes guestMade w (System.run_of_follow (fun _ _ _ => trivial) hw) _
    (by rw [hwrites]; exact List.mem_cons_self)
  cases hx

end ProxBack.Sched.Estate
