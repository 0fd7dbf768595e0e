import ProxBack.Lib.FinMap

/-! The accounts of an installation, and how many of them administer it. -/
namespace ProxBack.Auth
open Lib

inductive Role where
  | admin
  | operator
  | viewer
deriving DecidableEq, Repr

/-- `ParseRole`. -/
def Role.parse : String → Option Role
  | "admin" => some .admin
  | "operator" => some .operator
  | "viewer" => some .viewer
  | _ => none

/-- `writes` counts the times the hash was replaced; no operation reads it. -/
structure User where
  username : String
  passwordHash : String
  role : Role
  writes : Nat
deriving DecidableEq, Repr

structure Users where
  rows : FinMap Int User
  nextID : Int
  fresh : ∀ id ∈ rows.keys, id < nextID

namespace Users

def empty : Users := ⟨∅, 1, nofun⟩

def byID (t : Users) (id : Int) : Option User := t.rows.lookup id

def byUsername (t : Users) (username : String) : Option (Int × User) :=
  (t.rows.entries.find? fun e => e.2.username = username).map fun e => (e.1, e.2)

def count (t : Users) : Nat := t.rows.entries.length

def isAdmin (e : Sigma fun _ : Int => User) : Bool := e.2.role = .admin

def countAdmins (t : Users) : Nat := t.rows.entries.countP isAdmin

def create (t : Users) (u : User) : Option Users :=
  if (t.byUsername u.username).isSome then none
  else some {
    rows := t.rows.insert t.nextID u
    nextID := t.nextID + 1
    fresh := by
      intro id hid
      rcases (AList.mem_insert _).mp hid with rfl | hid
      · omega
      · have hlt := t.fresh id hid
        omega }

def update (t : Users) (id : Int) (f : User → User) : Option Users :=
  if h : id ∈ t.rows then
    (t.byID id).map fun u => {
      rows := t.rows.insert id (f u)
      nextID := t.nextID
      fresh := by
        intro k hk
        rcases (AList.mem_insert _).mp hk with rfl | hk
        · exact t.fresh k h
        · exact t.fresh k hk }
  else none

def delete (t : Users) (id : Int) : Option Users :=
  if id ∈ t.rows then
    some {
      rows := t.rows.erase id
      nextID := t.nextID
      fresh := fun k hk => t.fresh k (AList.mem_erase.mp hk).2 }
  else none

variable {t t' : Users} {id : Int} {u : User} {f : User → User}

theorem update_cases (h : t.update id f = some t') :
    ∃ u, t.byID id = some u ∧ t'.rows = t.rows.insert id (f u) ∧ t'.nextID = t.nextID := by
  unfold update at h
  split at h
  · obtain ⟨u, hu, rfl⟩ := Option.map_eq_some_iff.mp h
    exact ⟨u, hu, rfl, rfl⟩
  · cases h

theorem create_cases (h : t.create u = some t') :
    t.byID t.nextID = none ∧ t'.rows = t.rows.insert t.nextID u ∧ t'.nextID = t.nextID + 1 := by
  unfold create at h
  split at h
  · cases h
  · cases h
    refine ⟨AList.lookup_eq_none.mpr fun hmem => ?_, rfl, rfl⟩
    exact Int.lt_irrefl _ (t.fresh _ hmem)

theorem delete_cases (h : t.delete id = some t') :
    (∃ u, t.byID id = some u) ∧ t'.rows = t.rows.erase id ∧ t'.nextID = t.nextID := by
  unfold delete at h
  split at h
  · rename_i hmem
    cases h
    exact ⟨Option.isSome_iff_exists.mp (AList.lookup_isSome.mpr hmem), rfl, rfl⟩
  · cases h

theorem byID_update (h : t.update id f = some t') (k : Int) :
    t'.byID k = if k = id then (t.byID id).map f else t.byID k := by
  obtain ⟨u, hu, hrows, -⟩ := update_cases h
  rw [byID, hrows, FinMap.lookup_insert_ite, hu]
  rfl

theorem byID_delete (h : t.delete id = some t') (k : Int) :
    t'.byID k = if k = id then none else t.byID k := by
  obtain ⟨-, hrows, -⟩ := delete_cases h
  rw [byID, hrows, FinMap.lookup_erase_ite]
  rfl

theorem countAdmins_erase (h : t.byID id = some u) :
    t.countAdmins = (t.rows.erase id).entries.countP isAdmin + if u.role = .admin then 1 else 0 := by
  rw [countAdmins, (FinMap.entries_perm_erase h).countP_eq, List.countP_cons]
  simp only [isAdmin, decide_eq_true_eq]

theorem countAdmins_delete (h : t.delete id = some t') (hu : t.byID id = some u) :
    t'.countAdmins + (if u.role = .admin then 1 else 0) = t.countAdmins := by
  obtain ⟨-, hrows, -⟩ := delete_cases h
  rw [countAdmins_erase hu, countAdmins, hrows]

theorem countAdmins_update (h : t.update id f = some t') (hu : t.byID id = some u) :
    t'.countAdmins + (if u.role = .admin then 1 else 0) =
      t.countAdmins + if (f u).role = .admin then 1 else 0 := by
  obtain ⟨u', hu', hrows, -⟩ := update_cases h
  cases hu.symm.trans hu'
  have hnew : t'.countAdmins =
      (t.rows.erase id).entries.countP isAdmin + if (f u).role = .admin then 1 else 0 := by
    rw [countAdmins, hrows, AList.entries_insert, List.countP_cons]
    simp only [isAdmin, decide_eq_true_eq]
    rfl
  rw [countAdmins_erase hu, hnew]
  omega

theorem countAdmins_create (h : t.create u = some t') : t.countAdmins ≤ t'.countAdmins := by
  obtain ⟨hnone, hrows, -⟩ := create_cases h
  have hkeep : (t.rows.insert t.nextID u).entries = ⟨t.nextID, u⟩ :: t.rows.entries :=
    AList.entries_insert_of_notMem (AList.lookup_eq_none.mp hnone)
  rw [countAdmins, countAdmins, hrows, hkeep, List.countP_cons]
  exact Nat.le_add_right _ _

end Users

end ProxBack.Auth
