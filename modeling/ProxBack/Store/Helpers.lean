import ProxBack.Engine.Basic
import Mathlib.Data.List.MinMax
import Mathlib.Data.List.Nodup

/-! Node helpers: each serves a node of a Proxmox host, and the pair is its identity. A helper
without a host is one that no guest goes through. -/
namespace ProxBack.Store
open Engine (Time)

structure NodeHelper where
  id : String
  hostID : String
  node : String
  address : String
  port : Int
  accessSecret : String
  lastSeen : Option Time
  registeredAt : Time
deriving DecidableEq

namespace NodeHelper

def identity (h : NodeHelper) : String × String := (h.hostID, h.node)

def defaultHelperPort : Int := 8007

def onlineWindow : Time := 90 * 10 ^ 9

def online (now : Time) (h : NodeHelper) : Bool := h.lastSeen.any fun seen => now - seen ≤ onlineWindow

end NodeHelper

/-- The rows of `helpers`, under its primary key and its index of identities. -/
structure HelperTable where
  rows : List NodeHelper
  ids : (rows.map NodeHelper.id).Nodup
  identities : (rows.map NodeHelper.identity).Nodup

namespace HelperTable

/-- A statement that would leave two rows with one key fails; so does the creation of the index. -/
def constrained (rows : List NodeHelper) : Option HelperTable :=
  if h : (rows.map NodeHelper.id).Nodup ∧ (rows.map NodeHelper.identity).Nodup then
    some ⟨rows, h.1, h.2⟩
  else none

def keep (t : HelperTable) (p : NodeHelper → Bool) : HelperTable where
  rows := t.rows.filter p
  ids := t.ids.sublist (List.filter_sublist.map _)
  identities := t.identities.sublist (List.filter_sublist.map _)

def deleteIdentity (t : HelperTable) (hostID node : String) : HelperTable :=
  t.keep fun h => ¬ (h.hostID = hostID ∧ h.node = node)

def insert (t : HelperTable) (h : NodeHelper) : Option HelperTable := constrained (t.rows ++ [h])

def helperByID (t : HelperTable) (id : String) : Option NodeHelper := t.rows.find? fun h => h.id = id

/-- The COUNT of `AssignHelperHost`. -/
def clash (t : HelperTable) (hostID node id : String) : Nat :=
  (t.rows.filter fun h => h.hostID = hostID ∧ h.node = node ∧ h.id ≠ id).length

def update (t : HelperTable) (id : String) (f : NodeHelper → NodeHelper) : Option HelperTable :=
  if t.rows.any fun h => h.id = id then constrained (t.rows.map fun h => if h.id = id then f h else h)
  else none

def assignHost (t : HelperTable) (id hostID : String) : Option HelperTable :=
  t.update id fun h => { h with hostID }

def deleteHelper (t : HelperTable) (id : String) : Option HelperTable :=
  if t.rows.any fun h => h.id = id then some (t.keep fun h => h.id ≠ id) else none

def recordHeartbeat (t : HelperTable) (id : String) (at_ : Time) : Option HelperTable :=
  constrained (t.rows.map fun h => if h.id = id then { h with lastSeen := some at_ } else h)

def latest (rows : List NodeHelper) : Option NodeHelper :=
  @List.argmax _ _ Int.instLinearOrder.toPreorder Int.decLt NodeHelper.registeredAt rows

def helperFor (t : HelperTable) (hostID node : String) : Option NodeHelper :=
  if hostID = "" ∨ node = "" then none
  else latest (t.rows.filter fun h => h.hostID = hostID ∧ h.node = node)

def unassignedHelperForNode (t : HelperTable) (node : String) : Option NodeHelper :=
  if node = "" then none
  else latest (t.rows.filter fun h => h.hostID = "" ∧ h.node = node)

variable {t t' : HelperTable} {h h' : NodeHelper} {hostID node id : String}

theorem eq_of_identity (t : HelperTable) (hmem : h ∈ t.rows) (hmem' : h' ∈ t.rows)
    (heq : h.identity = h'.identity) : h = h' :=
  List.inj_on_of_nodup_map t.identities hmem hmem' heq

theorem eq_of_id (t : HelperTable) (hmem : h ∈ t.rows) (hmem' : h' ∈ t.rows) (heq : h.id = h'.id) :
    h = h' :=
  List.inj_on_of_nodup_map t.ids hmem hmem' heq

theorem length_identity_le (t : HelperTable) (hostID node : String) :
    (t.rows.filter fun h => h.hostID = hostID ∧ h.node = node).length ≤ 1 := by
  have hnodup := (t.keep fun h => h.hostID = hostID ∧ h.node = node).identities
  have hsame : (t.rows.filter fun h => h.hostID = hostID ∧ h.node = node).map NodeHelper.identity =
      List.replicate (t.rows.filter fun h => h.hostID = hostID ∧ h.node = node).length (hostID, node) := by
    refine List.map_eq_replicate_iff.mpr fun h hh => ?_
    obtain ⟨hhost, hnode⟩ := of_decide_eq_true (List.mem_filter.mp hh).2
    exact Prod.ext hhost hnode
  exact List.nodup_replicate.mp (hsame ▸ hnodup)

theorem mem_of_latest {rows : List NodeHelper} (hlatest : latest rows = some h) : h ∈ rows :=
  List.argmax_mem hlatest

theorem latest_eq_none {rows : List NodeHelper} (hlatest : latest rows = none) : rows = [] :=
  List.argmax_eq_none.mp hlatest

theorem helperFor_spec (hfor : t.helperFor hostID node = some h) :
    h ∈ t.rows ∧ h.hostID = hostID ∧ h.node = node ∧ hostID ≠ "" := by
  unfold helperFor at hfor
  split at hfor
  · cases hfor
  · rename_i hnamed
    obtain ⟨hmem, hof⟩ := List.mem_filter.mp (mem_of_latest hfor)
    obtain ⟨hhost, hnode⟩ := of_decide_eq_true hof
    exact ⟨hmem, hhost, hnode, fun heq => hnamed (.inl heq)⟩

theorem helperFor_of_mem (hmem : h ∈ t.rows) (hhost : h.hostID ≠ "") (hnode : h.node ≠ "") :
    t.helperFor h.hostID h.node = some h := by
  have hin : h ∈ t.rows.filter fun h' => h'.hostID = h.hostID ∧ h'.node = h.node :=
    List.mem_filter.mpr ⟨hmem, decide_eq_true ⟨rfl, rfl⟩⟩
  have hfor : t.helperFor h.hostID h.node =
      latest (t.rows.filter fun h' => h'.hostID = h.hostID ∧ h'.node = h.node) :=
    if_neg fun hempty => hempty.elim hhost hnode
  cases hmax : latest (t.rows.filter fun h' => h'.hostID = h.hostID ∧ h'.node = h.node) with
  | none =>
    rw [latest_eq_none hmax] at hin
    cases hin
  | some h' =>
    obtain ⟨hmem', hhost', hnode', -⟩ := helperFor_spec (hfor.trans hmax)
    have heq : h' = h := t.eq_of_identity hmem' hmem (Prod.ext hhost' hnode')
    rw [hfor, hmax, heq]

theorem insert_deleteIdentity (hnew : ∀ h' ∈ t.rows, h'.id ≠ h.id) :
    ((t.deleteIdentity h.hostID h.node).insert h).isSome := by
  have hids : (((t.deleteIdentity h.hostID h.node).rows ++ [h]).map NodeHelper.id).Nodup := by
    rw [List.map_append]
    refine List.nodup_append.mpr ⟨(t.deleteIdentity h.hostID h.node).ids, List.nodup_singleton _, ?_⟩
    intro a ha b hb hab
    obtain ⟨h', hmem, rfl⟩ := List.mem_map.mp ha
    cases List.mem_singleton.mp hb
    exact hnew h' (List.mem_of_mem_filter hmem) hab
  have hidentities : (((t.deleteIdentity h.hostID h.node).rows ++ [h]).map NodeHelper.identity).Nodup := by
    rw [List.map_append]
    refine List.nodup_append.mpr
      ⟨(t.deleteIdentity h.hostID h.node).identities, List.nodup_singleton _, ?_⟩
    intro a ha b hb hab
    obtain ⟨h', hmem, rfl⟩ := List.mem_map.mp ha
    cases List.mem_singleton.mp hb
    have hother := of_decide_eq_true (List.mem_filter.mp hmem).2
    exact hother (Prod.mk.injEq .. ▸ hab)
  rw [insert, constrained, dif_pos ⟨hids, hidentities⟩]
  rfl

theorem assignHost_of_clash (hid : t.helperByID id = some h) (hclash : t.clash hostID h.node id = 0) :
    (t.assignHost id hostID).isSome := by
  have hmem : h ∈ t.rows := List.mem_of_find?_eq_some hid
  have hof : h.id = id := of_decide_eq_true (List.find?_some (p := fun h : NodeHelper => decide (h.id = id)) hid)
  have hids : (t.rows.map fun h' => if h'.id = id then { h' with hostID } else h').map NodeHelper.id =
      t.rows.map NodeHelper.id := by
    rw [List.map_map]
    refine List.map_congr_left fun h' _ => ?_
    by_cases heq : h'.id = id
    · simp only [Function.comp_apply, if_pos heq]
    · simp only [Function.comp_apply, if_neg heq]
  have hidentities : ((t.rows.map fun h' => if h'.id = id then { h' with hostID } else h').map
      NodeHelper.identity).Nodup := by
    have hfree : ∀ h' ∈ t.rows, h'.id ≠ id → h'.identity ≠ (hostID, h.node) := by
      intro h' hmem' hne heq
      obtain ⟨hhost, hnode⟩ := Prod.mk.inj heq
      exact List.ne_nil_of_mem (List.mem_filter.mpr ⟨hmem', decide_eq_true ⟨hhost, hnode, hne⟩⟩)
        (List.length_eq_zero_iff.mp hclash)
    rw [List.map_map]
    refine List.Nodup.map_on (fun a ha b hb hab => ?_) (List.Nodup.of_map _ t.ids)
    by_cases hida : a.id = id <;> by_cases hidb : b.id = id <;>
      simp only [Function.comp_apply, hida, hidb, if_true, if_false] at hab
    · exact t.eq_of_id ha hb (hida.trans hidb.symm)
    · rw [t.eq_of_id ha hmem (hida.trans hof.symm)] at hab
      exact absurd hab.symm (hfree b hb hidb)
    · rw [t.eq_of_id hb hmem (hidb.trans hof.symm)] at hab
      exact absurd hab (hfree a ha hida)
    · exact t.eq_of_identity ha hb hab
  have hany : t.rows.any (fun h' => h'.id = id) = true :=
    List.any_eq_true.mpr ⟨h, hmem, decide_eq_true hof⟩
  rw [assignHost, update, if_pos hany, constrained, dif_pos ⟨hids ▸ t.ids, hidentities⟩]
  rfl

end HelperTable

end ProxBack.Store
