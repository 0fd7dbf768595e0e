import ProxBack.Engine.Basic
import ProxBack.Lib.FinMap
import ProxBack.Lib.Prog

/-! One backup target and its chunk index, with the calls the engine makes on
them. A call that fails may or may not have taken effect first. -/
namespace ProxBack.Engine
open Lib

/-- A chunk object: its stored bytes and the target's own timestamp, 0 when the
target does not report one. -/
structure ChunkObject where
  data : Bytes
  lastModified : Time
deriving DecidableEq, Repr

structure IndexRow where
  size : Nat
  addedAt : Time
deriving DecidableEq, Repr

/-- The three variable parts of `manifests/<kind>/<source id>/<backup id>.json`. -/
structure ManifestKey where
  kind : SourceKind
  sourceID : String
  backupID : String
deriving DecidableEq, Repr

def Manifest.key (m : Manifest) : ManifestKey := ⟨m.sourceKind, m.sourceID, m.backupID⟩

/-- The objects of a target under `chunks/` and under `manifests/`, and the rows
the chunk index holds for it. A manifest object is what its text decodes to,
`none` when it does not decode. -/
structure Target where
  chunks : FinMap Sha ChunkObject
  manifests : FinMap ManifestKey (Option Manifest)
  index : FinMap Sha IndexRow

/-- One entry of a listing of `chunks/`, keyed by hash. -/
structure Object where
  sha : Sha
  size : Nat
  lastModified : Time
deriving DecidableEq, Repr

/-- The calls of the engine. `head`, `put`, `getBytes` and `delete` are on the
chunk's key; `hasChunk`, `addChunk`, `deleteChunk` and `chunkAddedAt` are on the
index. A walk lists its keys first and takes each entry when it gets there, as
`filepath.WalkDir` does. -/
inductive Call where
  | hasChunk (sha : Sha)
  | addChunk (sha : Sha) (size : Nat)
  | deleteChunk (sha : Sha)
  | chunkAddedAt
  | head (sha : Sha)
  | put (sha : Sha) (body : Bytes)
  | getBytes (sha : Sha)
  | delete (sha : Sha)
  | walkChunks
  | walkChunk (sha : Sha)
  | walkManifests
  | getManifest (key : ManifestKey)
  | headManifest (key : ManifestKey)
  | putManifest (key : ManifestKey) (m : Manifest)
  | deleteManifest (key : ManifestKey)
  | waitUpload (n : Nat)
  | now
deriving DecidableEq

abbrev Reply : Call → Type
  | .hasChunk _ => Except Err Bool
  | .addChunk _ _ => Except Err Unit
  | .deleteChunk _ => Except Err Unit
  | .chunkAddedAt => Except Err (FinMap Sha Time)
  | .head _ => Except Err (Option Nat)
  | .put _ _ => Except Err Unit
  | .getBytes _ => Except Err Bytes
  | .delete _ => Except Err Unit
  | .walkChunks => Except Err (List Sha)
  | .walkChunk _ => Except Err (Option Object)
  | .walkManifests => Except Err (List ManifestKey)
  | .getManifest _ => Except Err (Option Manifest)
  | .headManifest _ => Except Err Bool
  | .putManifest _ _ => Except Err Unit
  | .deleteManifest _ => Except Err Unit
  | .waitUpload _ => Except Err Unit
  | .now => Time

/-- What the world decides about one call: whether it fails and then whether it
took effect all the same, the clock, the timestamp a target gives a new object,
and keys a listing shows that only come to exist while it is being walked. -/
structure Choice where
  fault : Option Fault := none
  applied : Bool := false
  clock : Time := 0
  stamp : Time := 0
  laterChunks : List Sha := []
  laterManifests : List ManifestKey := []

def Choice.fine : Choice := {}

def Choice.answer {α : Type} (x : Choice) (value : Except Err α) : Except Err α :=
  match x.fault with
  | none => value
  | some f => .error (.fault f)

/-- The state after a call that writes `t'` over `t`. -/
def Choice.outcome (x : Choice) (t t' : Target) : Target :=
  if x.fault = none ∨ x.applied then t' else t

namespace Target

def addRow (t : Target) (sha : Sha) (size : Nat) (clock : Time) : Target :=
  -- ON CONFLICT keeps the time a row was first recorded at.
  let addedAt := match t.index.lookup sha with
    | some row => row.addedAt
    | none => clock
  { t with index := t.index.insert sha ⟨size, addedAt⟩ }

def dropRow (t : Target) (sha : Sha) : Target :=
  { t with index := t.index.erase sha }

def putObject (t : Target) (sha : Sha) (body : Bytes) (stamp : Time) : Target :=
  { t with chunks := t.chunks.insert sha ⟨body, stamp⟩ }

def deleteObject (t : Target) (sha : Sha) : Target :=
  { t with chunks := t.chunks.erase sha }

def putManifest (t : Target) (key : ManifestKey) (m : Manifest) : Target :=
  { t with manifests := t.manifests.insert key (some m) }

def deleteManifest (t : Target) (key : ManifestKey) : Target :=
  { t with manifests := t.manifests.erase key }

/-- The entry a listing of `chunks/` shows for a hash. -/
def entry (t : Target) (sha : Sha) : Option Object :=
  (t.chunks.lookup sha).map fun o => ⟨sha, o.data.length, o.lastModified⟩

def listed {K : Type} [DecidableEq K] (keys later : List K) : List K :=
  keys ++ later.dedup.filter (· ∉ keys)

def exec : (c : Call) → Choice → Target → Reply c × Target
  | .hasChunk sha, x, t => (x.answer (.ok (t.index.lookup sha).isSome), t)
  | .addChunk sha size, x, t =>
      (x.answer (.ok ()), x.outcome t (t.addRow sha size x.clock))
  | .deleteChunk sha, x, t => (x.answer (.ok ()), x.outcome t (t.dropRow sha))
  | .chunkAddedAt, x, t => (x.answer (.ok (FinMap.mapVal IndexRow.addedAt t.index)), t)
  | .head sha, x, t =>
      (x.answer (.ok ((t.chunks.lookup sha).map fun o => o.data.length)), t)
  | .put sha body, x, t =>
      (x.answer (.ok ()), x.outcome t (t.putObject sha body x.stamp))
  | .getBytes sha, x, t =>
      (x.answer (match t.chunks.lookup sha with
        | some o => .ok o.data
        | none => .error .notFound), t)
  | .delete sha, x, t => (x.answer (.ok ()), x.outcome t (t.deleteObject sha))
  | .walkChunks, x, t => (x.answer (.ok (listed t.chunks.keys x.laterChunks)), t)
  | .walkChunk sha, x, t => (x.answer (.ok (t.entry sha)), t)
  | .walkManifests, x, t =>
      (x.answer (.ok (listed t.manifests.keys x.laterManifests)), t)
  | .getManifest key, x, t =>
      (x.answer (match t.manifests.lookup key with
        | some m => .ok m
        | none => .error .notFound), t)
  | .headManifest key, x, t => (x.answer (.ok (t.manifests.lookup key).isSome), t)
  | .putManifest key m, x, t => (x.answer (.ok ()), x.outcome t (t.putManifest key m))
  | .deleteManifest key, x, t =>
      (x.answer (.ok ()), x.outcome t (t.deleteManifest key))
  | .waitUpload _, x, t => (x.answer (.ok ()), t)
  | .now, x, t => (x.clock, t)

def machine : Prog.Machine Call Reply Target where
  Choice := Choice
  exec := exec

def Present (t : Target) (sha : Sha) : Prop := (t.chunks.lookup sha).isSome

def Indexed (t : Target) (sha : Sha) : Prop := (t.index.lookup sha).isSome

def Sound (t : Target) : Prop := ∀ sha, t.Indexed sha → t.Present sha

instance (t : Target) (sha : Sha) : Decidable (t.Present sha) :=
  inferInstanceAs (Decidable (_ = true))

instance (t : Target) (sha : Sha) : Decidable (t.Indexed sha) :=
  inferInstanceAs (Decidable (_ = true))

section Lookup

variable (t : Target) (sha a : Sha)

@[simp] theorem present_addRow (size : Nat) (clock : Time) :
    (t.addRow a size clock).Present sha ↔ t.Present sha := Iff.rfl

@[simp] theorem indexed_addRow (size : Nat) (clock : Time) :
    (t.addRow a size clock).Indexed sha ↔ sha = a ∨ t.Indexed sha := by
  unfold Indexed addRow
  simp only [FinMap.lookup_insert_ite]
  split <;> simp [*]

@[simp] theorem indexed_dropRow : (t.dropRow a).Indexed sha ↔ sha ≠ a ∧ t.Indexed sha := by
  unfold Indexed dropRow
  simp only [FinMap.lookup_erase_ite]
  split <;> simp [*]

@[simp] theorem present_putObject (body : Bytes) (stamp : Time) :
    (t.putObject a body stamp).Present sha ↔ sha = a ∨ t.Present sha := by
  unfold Present putObject
  simp only [FinMap.lookup_insert_ite]
  split <;> simp [*]

@[simp] theorem present_deleteObject :
    (t.deleteObject a).Present sha ↔ sha ≠ a ∧ t.Present sha := by
  unfold Present deleteObject
  simp only [FinMap.lookup_erase_ite]
  split <;> simp [*]

end Lookup

end Target

theorem Choice.outcome_cases (x : Choice) (t t' : Target) :
    x.outcome t t' = t' ∨ x.outcome t t' = t ∧ x.fault ≠ none := by
  unfold Choice.outcome
  split
  · exact .inl rfl
  · rename_i h
    exact .inr ⟨rfl, fun hf => h (.inl hf)⟩

theorem Choice.outcome_of {P : Target → Prop} (x : Choice) {t t' : Target} (h : P t)
    (h' : P t') : P (x.outcome t t') := by
  rcases x.outcome_cases t t' with ho | ⟨ho, _⟩ <;> rw [ho] <;> assumption

theorem Choice.answer_eq_ok {α : Type} {x : Choice} {v : Except Err α} {a : α}
    (h : x.answer v = .ok a) : x.fault = none ∧ v = .ok a := by
  unfold Choice.answer at h
  split at h
  · exact ⟨by assumption, h⟩
  · cases h

def Call.Reads : Call → Prop
  | .addChunk _ _ | .deleteChunk _ | .put _ _ | .delete _ | .putManifest _ _
  | .deleteManifest _ => False
  | _ => True

section Transitions

variable {t t' : Target} {sha : Sha}

theorem T_reads {c : Call} {r : Reply c} (h : Target.machine.T c t r t') (hc : c.Reads) :
    t' = t := by
  obtain ⟨x, hx⟩ := h
  have hsnd := (Prod.mk.inj hx).2
  cases c <;> first | exact hc.elim | exact hsnd.symm

theorem T_hasChunk {b : Bool} (h : Target.machine.T (.hasChunk sha) t (.ok b) t') :
    b = true ↔ t.Indexed sha := by
  obtain ⟨x, hx⟩ := h
  have hb := (Choice.answer_eq_ok (Prod.mk.inj hx).1).2
  injection hb with hb
  rw [← hb]
  rfl

theorem T_head {size : Option Nat} (h : Target.machine.T (.head sha) t (.ok size) t') :
    size = (t.chunks.lookup sha).map fun o => o.data.length := by
  obtain ⟨x, hx⟩ := h
  have hsize := (Choice.answer_eq_ok (Prod.mk.inj hx).1).2
  injection hsize with hsize
  exact hsize.symm

theorem T_head_some {size : Nat} (h : Target.machine.T (.head sha) t (.ok (some size)) t') :
    t.Present sha := by
  obtain ⟨o, ho, -⟩ := Option.map_eq_some_iff.mp (T_head h).symm
  simp [Target.Present, ho]

theorem T_put {body : Bytes} (h : Target.machine.T (.put sha body) t (.ok ()) t') :
    ∃ stamp, t' = t.putObject sha body stamp := by
  obtain ⟨x, hx⟩ := h
  obtain ⟨hr, rfl⟩ := Prod.mk.inj hx
  have hfault := (Choice.answer_eq_ok hr).1
  exact ⟨x.stamp, if_pos (.inl hfault)⟩

theorem T_walkChunk {o : Object}
    (h : Target.machine.T (.walkChunk sha) t (.ok (some o)) t') :
    o.sha = sha ∧ t.Present sha := by
  obtain ⟨x, hx⟩ := h
  have ho := (Choice.answer_eq_ok (Prod.mk.inj hx).1).2
  injection ho with ho
  obtain ⟨obj, hobj, rfl⟩ := Option.map_eq_some_iff.mp ho
  exact ⟨rfl, by simp [Target.Present, hobj]⟩

end Transitions

end ProxBack.Engine
