import ProxBack.Sched.Once
import ProxBack.Sched.Restore
import ProxBack.Store.PolicyText

/-! The source ids of guests: the host and the number that are read back out of them, and the hosts
that older restore points are given for theirs. -/
namespace ProxBack.Store
open Engine (SourceKind)

/-- The part of a `<hostID>_<vmid>` before its last underscore. -/
def hostIDFromSourceID (sourceID : String) : Option String :=
  let s := sourceID.toList
  if ¬ s.contains '_' then none
  else
    let vmid := (s.reverse.takeWhile (· ≠ '_')).reverse
    let host := s.take (s.length - vmid.length - 1)
    if host = [] ∨ vmid = [] then none
    else if Api.atoi (.ofList vmid) = none then none
    else some (.ofList host)

/-- A row of `backups`, as far as its host is concerned. -/
structure PointRow where
  id : String
  sourceKind : SourceKind
  sourceID : String
  hostID : String
  hostName : String
deriving DecidableEq

structure PointTable where
  rows : List PointRow
  nodup : (rows.map PointRow.id).Nodup

structure HostFix where
  id : String
  hostID : String
  hostName : String

def fixFor (names : List (String × String)) (b : PointRow) : Option HostFix :=
  if b.sourceKind = .vm ∧ b.hostID = "" then
    (hostIDFromSourceID b.sourceID).map fun hostID => ⟨b.id, hostID, (names.lookup hostID).getD ""⟩
  else none

def HostFix.apply (f : HostFix) (b : PointRow) : PointRow :=
  if b.id = f.id then { b with hostID := f.hostID, hostName := f.hostName } else b

/-- `backfillBackupHostIdentity`, which an error may end after so many updates; `names` are the hosts
there still are. -/
def backfillBackupHostIdentity (names : List (String × String)) (t : PointTable) (updates : Nat) :
    List PointRow :=
  ((t.rows.filterMap (fixFor names)).take updates).foldl (fun rows f => rows.map f.apply) t.rows

@[grind =] theorem foldl_map_apply (fixes : List HostFix) (rows : List PointRow) :
    fixes.foldl (fun rows f => rows.map f.apply) rows = rows.map fun b => fixes.foldl (fun b f => f.apply b) b := by
  induction fixes generalizing rows with
  | nil => exact (List.map_id' rows).symm
  | cons f fixes ih =>
    rw [List.foldl_cons, ih, List.map_map]
    rfl

theorem foldl_apply {fixes : List HostFix} {b : PointRow} {host : String}
    (h : ∀ f ∈ fixes, f.id = b.id → f.hostID = host) :
    let b' := fixes.foldl (fun b f => f.apply b) b
    (b'.id = b.id ∧ b'.sourceKind = b.sourceKind ∧ b'.sourceID = b.sourceID) ∧
      (b'.hostID = b.hostID ∨ b'.hostID = host) ∧ ((∃ f ∈ fixes, f.id = b.id) → b'.hostID = host) := by
  induction fixes generalizing b with
  | nil => exact ⟨⟨rfl, rfl, rfl⟩, .inl rfl, fun ⟨_, hf, _⟩ => absurd hf List.not_mem_nil⟩
  | cons f fixes ih =>
    have hid : (f.apply b).id = b.id := by
      unfold HostFix.apply
      split <;> rfl
    have hsource : (f.apply b).sourceKind = b.sourceKind ∧ (f.apply b).sourceID = b.sourceID := by
      unfold HostFix.apply
      split <;> exact ⟨rfl, rfl⟩
    have hrest : ∀ g ∈ fixes, g.id = (f.apply b).id → g.hostID = host := fun g hg heq =>
      h g (List.mem_cons_of_mem f hg) (heq.trans hid)
    obtain ⟨⟨hid', hsource'⟩, hhost, hmet⟩ := ih hrest
    refine ⟨⟨hid'.trans hid, hsource'.1.trans hsource.1, hsource'.2.trans hsource.2⟩, ?_, ?_⟩
    · by_cases heq : b.id = f.id
      · have hnow : (f.apply b).hostID = host := by
          rw [HostFix.apply, if_pos heq]
          exact h f List.mem_cons_self heq.symm
        rw [hnow, or_self] at hhost
        exact .inr hhost
      · have hsame : f.apply b = b := if_neg heq
        rw [hsame] at hhost
        rwa [List.foldl_cons, hsame]
    · rintro ⟨g, hg, heq⟩
      rcases List.mem_cons.mp hg with rfl | hg
      · have hnow : (g.apply b).hostID = host := by
          rw [HostFix.apply, if_pos heq.symm]
          exact h g List.mem_cons_self heq
        rw [hnow, or_self] at hhost
        exact hhost
      · exact hmet ⟨g, hg, heq.trans hid.symm⟩

theorem fixFor_id {names : List (String × String)} {b : PointRow} {f : HostFix} (h : fixFor names b = some f) :
    f.id = b.id ∧ hostIDFromSourceID b.sourceID = some f.hostID := by
  unfold fixFor at h
  split at h
  · obtain ⟨host, hhost, rfl⟩ := Option.map_eq_some_iff.mp h
    exact ⟨rfl, hhost⟩
  · cases h

/-- However far the pass gets, a restore point of a guest has the host that its source id tells, or
none if it had none; at the end of the pass it has it. -/
theorem backfilled {names : List (String × String)} {t : PointTable} {b : PointRow} {host : String}
    (hb : b ∈ t.rows) (hkind : b.sourceKind = .vm) (hhost : hostIDFromSourceID b.sourceID = some host)
    (hown : b.hostID = "" ∨ b.hostID = host) (updates : Nat) :
    ∃ b' ∈ backfillBackupHostIdentity names t updates, (b'.id = b.id ∧ b'.sourceKind = .vm ∧ b'.sourceID = b.sourceID) ∧
      (b'.hostID = "" ∨ b'.hostID = host) ∧ (t.rows.length ≤ updates → b'.hostID = host) := by
  have hfixes : ∀ f ∈ t.rows.filterMap (fixFor names), f.id = b.id → f.hostID = host := by
    intro f hf heq
    obtain ⟨b₁, hb₁, hfix⟩ := List.mem_filterMap.mp hf
    obtain ⟨hid, hof⟩ := fixFor_id hfix
    obtain rfl : b₁ = b := List.inj_on_of_nodup_map t.nodup hb₁ hb (hid.symm.trans heq)
    exact Option.some.inj (hof.symm.trans hhost)
  have htaken : ∀ f ∈ (t.rows.filterMap (fixFor names)).take updates, f.id = b.id → f.hostID = host :=
    fun f hf => hfixes f (List.mem_of_mem_take hf)
  obtain ⟨⟨hid, hkind', hsource⟩, hnow, hmet⟩ := foldl_apply htaken
  refine ⟨_, ?_, ⟨hid, hkind'.trans hkind, hsource⟩, ?_, fun hall => ?_⟩
  · rw [backfillBackupHostIdentity, foldl_map_apply]
    exact List.mem_map_of_mem hb
  · rcases hnow with hsame | hgiven
    · rwa [hsame]
    · exact .inr hgiven
  · rcases hown with hempty | hown
    · refine hmet ⟨⟨b.id, host, (names.lookup host).getD ""⟩, ?_, rfl⟩
      have hfix : fixFor names b = some ⟨b.id, host, (names.lookup host).getD ""⟩ := by
        rw [fixFor, if_pos ⟨hkind, hempty⟩, hhost, Option.map_some]
      have hlen : (t.rows.filterMap (fixFor names)).length ≤ updates :=
        (List.length_filterMap_le _ _).trans hall
      rw [List.take_of_length_le hlen]
      exact List.mem_filterMap.mpr ⟨b, hb, hfix⟩
    · exact hnow.elim (fun hsame => hsame.trans hown) id

end ProxBack.Store

namespace ProxBack.Sched
open Store
open Execute (vmSourceID not_mem_toString vmSourceID_injective)
open Restore (vmidFromSourceID)

@[grind =] theorem atoi_toString {n : Int} (h : IsInt n) : Api.atoi (toString n) = some n := by
  have hin : decide (-2 ^ 63 ≤ n ∧ n < 2 ^ 63) = true := decide_eq_true h
  rw [Api.atoi_toString_eq, Option.filter_some, if_pos hin]

theorem after_last {l t : List Char} (ht : '_' ∉ t) :
    ((l ++ '_' :: t).reverse.takeWhile (· ≠ '_')).reverse = t := by
  have hrev : (l ++ '_' :: t).reverse = t.reverse ++ '_' :: l.reverse := by simp
  rw [hrev, List.takeWhile_append_of_pos, List.takeWhile_cons_of_neg (by decide), List.append_nil, List.reverse_reverse]
  intro c hc
  exact decide_eq_true fun heq => ht (heq ▸ List.mem_reverse.mp hc)

@[simp] theorem toList_vmSourceID (host : String) (v : Int) :
    (vmSourceID host v).toList = host.toList ++ '_' :: (toString v).toList := by
  simp [vmSourceID]

theorem vmid_of_vmSourceID {v : Int} (host : String) (hv : IsInt v) : vmidFromSourceID (vmSourceID host v) = .ok v := by
  unfold vmidFromSourceID
  rw [toList_vmSourceID, after_last (not_mem_toString v), String.ofList_toList, atoi_toString hv, if_neg]
  simp

theorem host_of_vmSourceID {host : String} {v : Int} (hhost : host ≠ "") (hv : IsInt v) :
    hostIDFromSourceID (vmSourceID host v) = some host := by
  have hne : host.toList ≠ [] := fun hnil => hhost (String.toList_eq_nil_iff.mp hnil)
  have hvmid : (toString v).toList ≠ [] := by
    intro hnil
    have hread := atoi_toString hv
    rw [String.toList_eq_nil_iff.mp hnil] at hread
    cases hread
  have htake : (host.toList ++ '_' :: (toString v).toList).take
      ((host.toList ++ '_' :: (toString v).toList).length - (toString v).toList.length - 1) = host.toList := by
    have hlen : (host.toList ++ '_' :: (toString v).toList).length - (toString v).toList.length - 1 =
        host.toList.length := by
      rw [List.length_append, List.length_cons]
      omega
    rw [hlen, List.take_left]
  unfold hostIDFromSourceID
  dsimp only
  rw [toList_vmSourceID, after_last (not_mem_toString v), htake, String.ofList_toList, String.ofList_toList,
    atoi_toString hv, if_neg (by simp), if_neg (not_or.mpr ⟨hne, hvmid⟩), if_neg (Option.some_ne_none v)]

/-- A guest's source id gives back its host and its number; no two guests share one; and the pass
over older restore points gives each the host of the guest it is of, and never another. -/
theorem source_ids_unambiguous :
    (∀ (host : String) (v : Int), host ≠ "" → IsInt v → hostIDFromSourceID (vmSourceID host v) = some host ∧
      vmidFromSourceID (vmSourceID host v) = .ok v) ∧
    (∀ (host host' : String) (v v' : Int), vmSourceID host v = vmSourceID host' v' → host = host' ∧ v = v') ∧
    ∀ (names : List (String × String)) (t : PointTable) (updates : Nat) (b : PointRow) (host : String) (v : Int),
      host ≠ "" → IsInt v → b ∈ t.rows → b.sourceKind = .vm → b.sourceID = vmSourceID host v →
      b.hostID = "" ∨ b.hostID = host → ∃ b' ∈ backfillBackupHostIdentity names t updates,
        (b'.id = b.id ∧ b'.sourceKind = .vm ∧ b'.sourceID = b.sourceID) ∧ (b'.hostID = "" ∨ b'.hostID = host) ∧
        (t.rows.length ≤ updates → b'.hostID = host) := by
  refine ⟨fun host v hhost hv => ⟨host_of_vmSourceID hhost hv, vmid_of_vmSourceID host hv⟩,
    fun _ _ _ _ => vmSourceID_injective, ?_⟩
  intro names t updates b host v hhost hv hb hkind hsource hown
  have hof : hostIDFromSourceID b.sourceID = some host := by
    rw [hsource]
    exact host_of_vmSourceID hhost hv
  exact backfilled hb hkind hof hown updates

def oldPoint : PointRow := ⟨"b1", .vm, "pve_1_100", "", ""⟩

theorem source_ids_unambiguous_underscores :
    vmSourceID "pve_1" 100 = "pve_1_100" ∧ hostIDFromSourceID "pve_1_100" = some "pve_1" ∧
    ∃ b' ∈ backfillBackupHostIdentity [("pve_1", "lab")] ⟨[oldPoint], List.nodup_singleton _⟩ 1, b'.hostID = "pve_1" := by
  have hint : IsInt 100 := isInt_small (by decide)
  have hid : vmSourceID "pve_1" 100 = "pve_1_100" := by decide +kernel
  obtain ⟨hread, -, hfill⟩ := source_ids_unambiguous
  have hhost := (hread "pve_1" 100 (by decide) hint).1
  rw [hid] at hhost
  refine ⟨hid, hhost, ?_⟩
  obtain ⟨b', hb', -, -, hall⟩ := hfill [("pve_1", "lab")] ⟨[oldPoint], List.nodup_singleton _⟩ 1 oldPoint "pve_1" 100
    (by decide) hint (List.mem_singleton_self _) rfl hid.symm (.inl rfl)
  exact ⟨b', hb', hall le_rfl⟩

end ProxBack.Sched
