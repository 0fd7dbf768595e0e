import ProxBack.Lib.FinMap
import ProxBack.Lib.Requests
import ProxBack.Lib.SlashPath

/-! The filesystem target: whatever calls fail, stop halfway or run at once, and wherever the power
is cut, a key reads as nothing or as the whole of what some `Put` came with for it. -/
namespace ProxBack.Blobstore
open Lib

abbrev Data : Type := List UInt8
abbrev Path : Type := List (List Char)

def tmpPrefix : List Char := ".pbtmp-".toList

def backslash : Char := Char.ofNat 0x5C

/-- The segments of a key; `filepath.Join` has nothing to clean in them. -/
def relPath (key : List Char) : Option Path :=
  if key = [] ∨ backslash ∈ key ∨ ':' ∈ key then none
  else if (key.splitOn '/').any fun seg =>
      seg = [] ∨ seg = ['.'] ∨ seg = ['.', '.'] ∨ tmpPrefix.isPrefixOf seg then none
  else some (key.splitOn '/')

def Keyed (p : Path) : Prop := ∀ seg ∈ p, tmpPrefix.isPrefixOf seg = false

/-- `os.CreateTemp` beside the destination. -/
def tempPath (p : Path) (random : List Char) : Path :=
  p.dropLast ++ [tmpPrefix ++ p.getLast?.getD [] ++ '-' :: random]

structure Inode where
  data : Data
  synced : Bool

/-- The files and their names. That a name was bound to a file, and what a `Put` came with for a
path, is kept forever but read by no call; `epoch` counts the power cuts. -/
structure Disk where
  inodes : List Inode
  names : FinMap Path Nat
  bound : List (Path × Nat)
  offered : List (Path × Data)
  epoch : Nat

namespace Disk

def empty : Disk := ⟨[], ∅, [], [], 0⟩

def bind (d : Disk) (p : Path) (i : Nat) : Disk :=
  { d with names := d.names.insert p i, bound := (p, i) :: d.bound }

def create (d : Disk) (tmp : Path) : Disk :=
  bind { d with inodes := d.inodes ++ [⟨[], false⟩] } tmp d.inodes.length

def modify (d : Disk) (i : Nat) (f : Inode → Inode) : Disk := { d with inodes := d.inodes.modify i f }

def remove (d : Disk) (p : Path) : Disk := { d with names := d.names.erase p }

def rename (d : Disk) (old new : Path) : Option Disk :=
  (d.names.lookup old).map fun i => (d.remove old).bind new i

def contentOf (d : Disk) (p : Path) : Option Data :=
  (d.names.lookup p).bind fun i => d.inodes[i]?.map Inode.data

def namesOf : List (Path × Nat) → FinMap Path Nat
  | [] => ∅
  | x :: l => (namesOf l).insert x.1 x.2

/-- The power goes: of the bindings a name ever had any one may come back or none, and what was
not flushed may be anything. -/
def cut (d : Disk) (left : List (Path × Nat)) (lost : List Data) : Disk :=
  { d with
    inodes := d.inodes.mapIdx fun i node => if node.synced then node else ⟨lost.getD i [], false⟩
    names := namesOf (left.filter (· ∈ d.bound))
    epoch := d.epoch + 1 }

@[simp] theorem length_modify (d : Disk) (i : Nat) (f : Inode → Inode) :
    (d.modify i f).inodes.length = d.inodes.length := List.length_modify f d.inodes i

@[simp] theorem length_create (d : Disk) (tmp : Path) :
    (d.create tmp).inodes.length = d.inodes.length + 1 := List.length_append

theorem created (d : Disk) (tmp : Path) :
    (d.create tmp).inodes[d.inodes.length]? = some ⟨[], false⟩ := List.getElem?_concat_length

theorem kept_create {d : Disk} {j : Nat} {node : Inode} (tmp : Path) (h : d.inodes[j]? = some node) :
    (d.create tmp).inodes[j]? = some node :=
  (List.getElem?_append_left (List.getElem?_eq_some_iff.mp h).1).trans h

end Disk

inductive Request where
  | put (key : List Char) (data : Data)
  | getBytes (key : List Char)
  | head (key : List Char)
  | delete (key : List Char)
  | powerCut

/-- The call a request makes next. What writes belongs to the process that ran when it began. -/
inductive Phase where
  | put (p : Path) (data : Data)
  | create (p : Path) (data : Data) (epoch : Nat)
  | write (p : Path) (data : Data) (tmp : Path) (i epoch : Nat)
  | sync (p : Path) (data : Data) (tmp : Path) (i epoch : Nat)
  | close (p : Path) (data : Data) (tmp : Path) (i epoch : Nat)
  | rename (p : Path) (data : Data) (tmp : Path) (i epoch : Nat)
  | cleanup (tmp : Path)
  | get (p : Path)
  | stat (p : Path) (i : Nat)
  | read (p : Path) (i : Nat) (acc : Data)
  | head (p : Path)
  | delete (p : Path)
  | powerCut
  | got (p : Path) (data : Data)
  | sized (p : Path) (n : Nat)
  | ended

def onKey (key : List Char) (next : Path → Phase) : Phase := ((relPath key).map next).getD .ended

def begin : Request → Phase
  | .put key data => onKey key fun p => .put p data
  | .getBytes key => onKey key .get
  | .head key => onKey key .head
  | .delete key => onKey key .delete
  | .powerCut => .powerCut

/-- How a call ends, with the random part of a name, how much was read or written, and what a
power cut leaves. -/
structure Access where
  res : Written
  random : List Char
  count : Nat
  left : List (Path × Nat)
  lost : List Data

def advanceLive (b : Access) (d : Disk) : Phase → Option (Disk × Phase)
  | .create p data e =>
    if (d.names.lookup (tempPath p b.random)).isSome then some (d, .create p data e)
    else some (b.res.outcome d (some (d.create (tempPath p b.random),
      .write p data (tempPath p b.random) d.inodes.length e)) .ended)
  | .write p data tmp i e =>
    if b.res = .done then some (d.modify i fun node => { node with data }, .sync p data tmp i e)
    else some (d.modify i fun node => { node with data := data.take b.count }, .cleanup tmp)
  | .sync p data tmp i e =>
    some (b.res.outcome d (some (d.modify i fun node => { node with synced := true },
      .close p data tmp i e)) (.cleanup tmp))
  | .close p data tmp i e => some (d, if b.res = .done then .rename p data tmp i e else .cleanup tmp)
  | .rename p _ tmp _ _ =>
    some (b.res.outcome d ((d.rename tmp p).map fun d' => (d', .ended)) (.cleanup tmp))
  | _ => none

def epochOf : Phase → Option Nat
  | .create _ _ e | .write _ _ _ _ e | .sync _ _ _ _ e | .close _ _ _ _ e | .rename _ _ _ _ e => some e
  | _ => none

def advance (b : Access) (d : Disk) (q : Phase) : Option (Disk × Phase) :=
  match q with
  | .put p data =>
    some ({ d with offered := (p, data) :: d.offered },
      if b.res = .done then .create p data d.epoch else .ended)
  | .cleanup tmp => some (b.res.outcome d (some (d.remove tmp, .ended)) .ended)
  | .get p => some (d, match b.res, d.names.lookup p with
      | .done, some i => .stat p i
      | _, _ => .ended)
  | .stat p i => some (d, if b.res = .done then .read p i [] else .ended)
  | .read p i acc =>
    some (d, match b.res, d.inodes[i]? with
      | .done, some node => if node.data.length ≤ acc.length then .got p acc
        else .read p i (acc ++ (node.data.drop acc.length).take (b.count + 1))
      | _, _ => .ended)
  | .head p => some (d, match b.res, d.contentOf p with
      | .done, some data => .sized p data.length
      | _, _ => .ended)
  | .delete p => some (b.res.outcome d (some (d.remove p, .ended)) .ended)
  | .powerCut => some (d.cut b.left b.lost, .ended)
  | .got _ _ | .sized _ _ | .ended => none
  | q => if epochOf q = some d.epoch then advanceLive b d q else none

def service : Service Disk Phase Request Access := ⟨begin, advance⟩

def start : Hall Disk Phase := ⟨Disk.empty, []⟩

def Fresh (d : Disk) : Phase → Access → Prop
  | .create p _ _, b => tempPath p b.random ∉ d.bound.map Prod.fst
  | _, _ => True

theorem not_bound_iff {d : Disk} {tmp : Path} : (∀ x ∈ d.bound, x.1 ≠ tmp) ↔ tmp ∉ d.bound.map Prod.fst := by
  rw [List.mem_map]
  constructor
  · rintro h ⟨x, hx, heq⟩
    exact h x hx heq
  · intro h x hx heq
    exact h ⟨x, hx, heq⟩

instance (d : Disk) (q : Phase) (b : Access) : Decidable (Fresh d q b) :=
  match q with
  | .create p _ _ => decidable_of_iff (∀ x ∈ d.bound, x.1 ≠ tempPath p b.random) not_bound_iff
  | .put .. | .write .. | .sync .. | .close .. | .rename .. | .cleanup .. | .get .. | .stat .. | .read ..
  | .head .. | .delete .. | .powerCut | .got .. | .sized .. | .ended => isTrue trivial

variable {d d' : Disk} {q q' : Phase} {b : Access} {w w' : Hall Disk Phase} {p tmp : Path} {data : Data}

theorem relPath_eq {key : List Char} (h : relPath key = some p) : p = key.splitOn '/' ∧ Keyed p := by
  unfold relPath at h
  split at h
  · cases h
  · split at h
    · cases h
    · rename_i hnone
      cases h
      refine ⟨rfl, fun seg hseg => ?_⟩
      by_contra hbegins
      refine hnone (List.any_eq_true.mpr ⟨seg, hseg, ?_⟩)
      simpa using Or.inr (Or.inr (Or.inr (by simpa using hbegins)))

theorem relPath_injective {key key' : List Char} (h : relPath key = some p) (h' : relPath key' = some p) :
    key = key' := by
  have hsplit := (relPath_eq h).1.symm.trans (relPath_eq h').1
  have hjoin : ∀ k : List Char, ['/'].intercalate (k.splitOn '/') = k := fun k => List.intercalate_splitOn '/'
  rw [← hjoin key, hsplit, hjoin]

theorem not_keyed_tempPath (p : Path) (random : List Char) : ¬ Keyed (tempPath p random) := by
  intro h
  have hlast := h _ (List.mem_append_right _ List.mem_cons_self)
  rw [List.append_assoc] at hlast
  have hbegins : tmpPrefix.isPrefixOf (tmpPrefix ++ (p.getLast?.getD [] ++ '-' :: random)) = true :=
    List.isPrefixOf_iff_prefix.mpr (List.prefix_append _ _)
  rw [hbegins] at hlast
  cases hlast

/-- A file is on the disk, flushed, with the whole of what a `Put` came with for this path. -/
def Complete (d : Disk) (p : Path) (i : Nat) : Prop :=
  ∃ node, d.inodes[i]? = some node ∧ node.synced = true ∧ (p, node.data) ∈ d.offered

structure Sound (d : Disk) : Prop where
  kept : ∀ x ∈ d.bound, Keyed x.1 → Complete d x.1 x.2
  named : ∀ p i, d.names.lookup p = some i → (p, i) ∈ d.bound
  inside : ∀ x ∈ d.bound, x.2 < d.inodes.length

/-- A temporary name has only ever been the name of this file, which has never had another. -/
structure Private (d : Disk) (tmp : Path) (i : Nat) : Prop where
  named : (tmp, i) ∈ d.bound
  only : ∀ j, (tmp, j) ∈ d.bound → j = i
  alone : ∀ x ∈ d.bound, x.2 = i → x.1 = tmp
  temp : ¬ Keyed tmp

structure Holds (d : Disk) (tmp : Path) (i e : Nat) (C : Inode → Prop) : Prop where
  old : e ≤ d.epoch
  inside : i < d.inodes.length
  live : e = d.epoch → Private d tmp i ∧ ∃ node, d.inodes[i]? = some node ∧ C node

/-- What a `Put` was asked for. -/
def Asked (d : Disk) (p : Path) (data : Data) : Prop := Keyed p ∧ (p, data) ∈ d.offered

def Told (d : Disk) : Phase → Prop
  | .put p _ | .get p | .head p => Keyed p
  | .cleanup tmp => ¬ Keyed tmp
  | .create p data _ => Asked d p data
  | .write p data tmp i e => Asked d p data ∧ Holds d tmp i e fun node => node.synced = false
  | .sync p data tmp i e => Asked d p data ∧ Holds d tmp i e fun node => node.data = data
  | .close p data tmp i e | .rename p data tmp i e =>
    Asked d p data ∧ Holds d tmp i e fun node => node.data = data ∧ node.synced = true
  | .stat p i => Complete d p i
  | .read p i acc => ∃ node, d.inodes[i]? = some node ∧ node.synced = true ∧
      (p, node.data) ∈ d.offered ∧ acc <+: node.data
  | .got p data => (p, data) ∈ d.offered
  | .sized p n => ∃ data, (p, data) ∈ d.offered ∧ data.length = n
  | _ => True

def owns : Phase → List Nat
  | .write _ _ _ i _ | .sync _ _ _ i _ | .close _ _ _ i _ | .rename _ _ _ i _ => [i]
  | _ => []

/-- What an access leaves alone, made by a request that has these files to itself. -/
structure Grows (own : List Nat) (d d' : Disk) : Prop where
  offered : ∀ x ∈ d.offered, x ∈ d'.offered
  bound : ∀ x ∈ d.bound, x ∈ d'.bound
  epoch : d.epoch ≤ d'.epoch
  length : d.inodes.length ≤ d'.inodes.length
  synced : ∀ (j : Nat) (node : Inode), d.inodes[j]? = some node → node.synced = true → d'.inodes[j]? = some node
  others : d'.epoch = d.epoch → ∀ j ∉ own, ∀ node, d.inodes[j]? = some node → d'.inodes[j]? = some node
  new : ∀ x ∈ d'.bound, x ∈ d.bound ∨
    (Keyed x.1 ∨ x.1 ∉ d.bound.map Prod.fst) ∧ (x.2 ∈ own ∨ d.inodes.length ≤ x.2)

variable {own : List Nat} {i j e : Nat}

theorem Grows.refl (own : List Nat) (d : Disk) : Grows own d d :=
  ⟨fun _ h => h, fun _ h => h, Nat.le_refl _, Nat.le_refl _, fun _ _ h _ => h, fun _ _ _ _ h => h,
    fun _ h => .inl h⟩

theorem Complete.mono (h : Complete d p i) (hg : Grows own d d') : Complete d' p i := by
  obtain ⟨node, hnode, hsynced, hdata⟩ := h
  exact ⟨node, hg.synced i node hnode hsynced, hsynced, hg.offered _ hdata⟩

theorem Private.mono (h : Private d tmp i) (hg : Grows own d d') (hi : i ∉ own)
    (hlt : i < d.inodes.length) : Private d' tmp i where
  named := hg.bound _ h.named
  only := by
    intro j hj
    rcases hg.new _ hj with hold | ⟨hkeyed | hfresh, -⟩
    · exact h.only j hold
    · exact absurd hkeyed h.temp
    · exact absurd (List.mem_map_of_mem h.named) hfresh
  alone := by
    intro x hx hxi
    rcases hg.new x hx with hold | ⟨-, hown | hlen⟩
    · exact h.alone x hold hxi
    · exact absurd (hxi ▸ hown) hi
    · omega
  temp := h.temp

theorem Holds.mono {C : Inode → Prop} (h : Holds d tmp i e C) (hg : Grows own d d') (hi : i ∉ own) :
    Holds d' tmp i e C where
  old := Nat.le_trans h.old hg.epoch
  inside := Nat.lt_of_lt_of_le h.inside hg.length
  live := by
    intro he
    have hold := h.old
    have hepoch := hg.epoch
    obtain ⟨hprivate, node, hnode, hC⟩ := h.live (by omega)
    exact ⟨hprivate.mono hg hi h.inside, node, hg.others (by omega) i hi node hnode, hC⟩

theorem Asked.mono (h : Asked d p data) (hg : Grows own d d') : Asked d' p data :=
  ⟨h.1, hg.offered _ h.2⟩

theorem Told.mono (h : Told d q) (hg : Grows own d d') (hown : ∀ j ∈ owns q, j ∉ own) : Told d' q := by
  cases q with
  | put | get | head | cleanup => exact h
  | create p data e => exact Asked.mono h hg
  | write p data tmp i e | sync p data tmp i e | close p data tmp i e | rename p data tmp i e =>
    exact ⟨h.1.mono hg, h.2.mono hg (hown i List.mem_cons_self)⟩
  | stat p i => exact Complete.mono h hg
  | read p i acc =>
    obtain ⟨node, hnode, hsynced, hdata, hacc⟩ := h
    exact ⟨node, hg.synced i node hnode hsynced, hsynced, hg.offered _ hdata, hacc⟩
  | got p data => exact hg.offered _ h
  | sized p n =>
    obtain ⟨data, hdata, hn⟩ := h
    exact ⟨data, hg.offered _ hdata, hn⟩
  | delete | powerCut | ended => trivial

theorem Sound.mono (h : Sound d) (hg : Grows own d d')
    (hkept : ∀ x ∈ d'.bound, x ∉ d.bound → Keyed x.1 → Complete d' x.1 x.2)
    (hnamed : ∀ p i, d'.names.lookup p = some i → (p, i) ∈ d'.bound)
    (hinside : ∀ x ∈ d'.bound, x ∉ d.bound → x.2 < d'.inodes.length) : Sound d' where
  kept := by
    intro x hx hkeyed
    by_cases hold : x ∈ d.bound
    · exact (h.kept x hold hkeyed).mono hg
    · exact hkept x hx hold hkeyed
  named := hnamed
  inside := by
    intro x hx
    by_cases hold : x ∈ d.bound
    · exact Nat.lt_of_lt_of_le (h.inside x hold) hg.length
    · exact hinside x hx hold

structure Step (d d' : Disk) (q q' : Phase) : Prop where
  sound : Sound d'
  told : Told d' q'
  grows : Grows (owns q) d d'
  took : (owns q').Sublist (owns q) ∨ owns q = [] ∧ owns q' = [d.inodes.length]

theorem Step.same (hs : Sound d) (htold : Told d q') (howns : (owns q').Sublist (owns q)) :
    Step d d q q' := ⟨hs, htold, Grows.refl _ d, .inl howns⟩

theorem Step.ended (hs : Sound d) : Step d d q .ended := .same hs trivial (List.nil_sublist _)

theorem Step.cleanup (hs : Sound d) (htmp : ¬ Keyed tmp) : Step d d q (.cleanup tmp) :=
  .same hs htmp (List.nil_sublist _)

theorem step_offer (hs : Sound d) (hp : Keyed p) (data : Data) (ready : Prop) [Decidable ready] :
    Step d { d with offered := (p, data) :: d.offered } (.put p data)
      (if ready then .create p data d.epoch else .ended) := by
  have hg : Grows [] d { d with offered := (p, data) :: d.offered } :=
    { Grows.refl [] d with offered := fun _ hx => List.mem_cons_of_mem _ hx }
  have hsound := hs.mono hg (fun x hx hnew => absurd hx hnew) hs.named fun x hx hnew => absurd hx hnew
  split
  · exact ⟨hsound, ⟨hp, List.mem_cons_self⟩, hg, .inl (List.Sublist.refl _)⟩
  · exact ⟨hsound, trivial, hg, .inl (List.Sublist.refl _)⟩

theorem step_remove (hs : Sound d) (gone : Path) (howns : owns q = []) :
    Step d (d.remove gone) q .ended := by
  have hg : Grows (owns q) d (d.remove gone) :=
    ⟨fun _ h => h, fun _ h => h, Nat.le_refl _, Nat.le_refl _, fun _ _ h _ => h, fun _ _ _ _ h => h,
      fun _ h => .inl h⟩
  refine ⟨hs.mono hg (fun x hx hnew => absurd hx hnew) (fun p i h => hs.named p i ?_)
    fun x hx hnew => absurd hx hnew, trivial, hg, .inl (by rw [howns]; exact List.Sublist.refl _)⟩
  have herase : (d.names.erase gone).lookup p = some i := h
  rw [FinMap.lookup_erase_ite] at herase
  split at herase
  · cases herase
  · exact herase

theorem named_bind (hnamed : ∀ p i, d.names.lookup p = some i → (p, i) ∈ d.bound) (new : Path) (j : Nat) :
    ∀ p i, (d.bind new j).names.lookup p = some i → (p, i) ∈ (d.bind new j).bound := by
  intro p i h
  have hinsert : (d.names.insert new j).lookup p = some i := h
  rw [FinMap.lookup_insert_ite] at hinsert
  split at hinsert
  · rename_i heq
    cases hinsert
    rw [heq]
    exact List.mem_cons_self
  · exact List.mem_cons_of_mem _ (hnamed p i hinsert)

theorem grows_create (hfresh : tmp ∉ d.bound.map Prod.fst) : Grows [] d (d.create tmp) where
  offered _ hx := hx
  bound _ hx := List.mem_cons_of_mem _ hx
  epoch := Nat.le_refl _
  length := by
    rw [Disk.length_create]
    exact Nat.le_succ _
  synced _ _ hnode _ := Disk.kept_create tmp hnode
  others _ _ _ _ hnode := Disk.kept_create tmp hnode
  new x hx := by
    rcases List.mem_cons.mp hx with rfl | hx
    · exact .inr ⟨.inr hfresh, .inr (Nat.le_refl _)⟩
    · exact .inl hx

theorem sound_create (hs : Sound d) (hfresh : tmp ∉ d.bound.map Prod.fst) (htmp : ¬ Keyed tmp) :
    Sound (d.create tmp) := by
  refine hs.mono (grows_create hfresh) (fun x hx hnew hkeyed => ?_) (named_bind hs.named _ _)
    fun x hx hnew => ?_
  · rcases List.mem_cons.mp hx with rfl | hx
    · exact absurd hkeyed htmp
    · exact absurd hx hnew
  · rcases List.mem_cons.mp hx with rfl | hx
    · rw [Disk.length_create]
      exact Nat.lt_succ_self _
    · exact absurd hx hnew

theorem holds_create (hs : Sound d) (hfresh : tmp ∉ d.bound.map Prod.fst) (htmp : ¬ Keyed tmp) :
    Holds (d.create tmp) tmp d.inodes.length d.epoch fun node => node.synced = false where
  old := Nat.le_refl _
  inside := by
    rw [Disk.length_create]
    exact Nat.lt_succ_self _
  live _ := by
    refine ⟨⟨List.mem_cons_self, fun j hj => ?_, fun x hx hxi => ?_, htmp⟩, _, d.created tmp, rfl⟩
    · rcases List.mem_cons.mp hj with heq | hj
      · exact congrArg Prod.snd heq
      · exact absurd (List.mem_map_of_mem hj) hfresh
    · rcases List.mem_cons.mp hx with rfl | hx
      · rfl
      · exact absurd (hs.inside x hx) (by omega)

theorem grows_modify {f : Inode → Inode} {node : Inode} (hnode : d.inodes[i]? = some node)
    (hf : node.synced = true → f node = node) : Grows [i] d (d.modify i f) where
  offered _ hx := hx
  bound _ hx := hx
  epoch := Nat.le_refl _
  length := (Disk.length_modify d i f).ge
  synced j other hother hsynced := by
    show (d.inodes.modify i f)[j]? = _
    by_cases heq : i = j
    · rw [← heq, hnode] at hother
      cases hother
      rw [← heq, List.getElem?_modify_eq, hnode]
      exact congrArg some (hf hsynced)
    · rw [List.getElem?_modify_ne f _ heq]
      exact hother
  others _ j hj other hother := by
    show (d.inodes.modify i f)[j]? = _
    rw [List.getElem?_modify_ne f _ (by rintro rfl; exact hj List.mem_cons_self)]
    exact hother
  new _ hx := .inl hx

theorem sound_modify (hs : Sound d) {f : Inode → Inode} (hg : Grows [i] d (d.modify i f)) :
    Sound (d.modify i f) :=
  hs.mono hg (fun _ hx hnew => absurd hx hnew) hs.named fun _ hx hnew => absurd hx hnew

theorem holds_modify {C C' : Inode → Prop} {f : Inode → Inode} (h : Holds d tmp i e C)
    (hC : ∀ node, C node → C' (f node)) : Holds (d.modify i f) tmp i e C' where
  old := h.old
  inside := by
    rw [Disk.length_modify]
    exact h.inside
  live he := by
    obtain ⟨hprivate, node, hnode, hnodeC⟩ := h.live he
    refine ⟨⟨hprivate.named, hprivate.only, hprivate.alone, hprivate.temp⟩, f node, ?_, hC node hnodeC⟩
    show (d.inodes.modify i f)[i]? = _
    rw [List.getElem?_modify_eq, hnode]
    rfl

theorem step_rename (hs : Sound d) (hasked : Asked d p data)
    (hholds : Holds d tmp i d.epoch fun node => node.data = data ∧ node.synced = true)
    (h : d.rename tmp p = some d') (hq' : q' = .ended ∨ q' = .cleanup tmp) :
    Step d d' (.rename p data tmp i d.epoch) q' := by
  obtain ⟨hprivate, node, hnode, hdata, hsynced⟩ := hholds.live rfl
  obtain ⟨j, hj, rfl⟩ := Option.map_eq_some_iff.mp h
  obtain rfl := hprivate.only j (hs.named tmp j hj)
  have hg : Grows [j] d ((d.remove tmp).bind p j) := by
    refine ⟨fun _ h => h, fun _ hx => List.mem_cons_of_mem _ hx, Nat.le_refl _, Nat.le_refl _,
      fun _ _ h _ => h, fun _ _ _ _ h => h, fun x hx => ?_⟩
    rcases List.mem_cons.mp hx with rfl | hx
    · exact .inr ⟨.inl hasked.1, .inl List.mem_cons_self⟩
    · exact .inl hx
  have hcomplete : Complete ((d.remove tmp).bind p j) p j :=
    ⟨node, hnode, hsynced, hdata ▸ hasked.2⟩
  have hsound : Sound ((d.remove tmp).bind p j) := by
    refine hs.mono hg (fun x hx hnew _ => ?_) (named_bind (step_remove (q := .ended) hs tmp rfl).sound.named p j)
      fun x hx hnew => ?_
    · rcases List.mem_cons.mp hx with rfl | hx
      · exact hcomplete
      · exact absurd hx hnew
    · rcases List.mem_cons.mp hx with rfl | hx
      · exact hholds.inside
      · exact absurd hx hnew
  rcases hq' with rfl | rfl
  · exact ⟨hsound, trivial, hg, .inl (List.nil_sublist _)⟩
  · exact ⟨hsound, hprivate.temp, hg, .inl (List.nil_sublist _)⟩

theorem lookup_namesOf {l : List (Path × Nat)} (h : (Disk.namesOf l).lookup p = some i) : (p, i) ∈ l := by
  induction l with
  | nil => cases h
  | cons x l ih =>
    have hinsert : ((Disk.namesOf l).insert x.1 x.2).lookup p = some i := h
    rw [FinMap.lookup_insert_ite] at hinsert
    split at hinsert
    · rename_i heq
      cases hinsert
      rw [heq]
      exact List.mem_cons_self
    · exact List.mem_cons_of_mem _ (ih hinsert)

theorem step_cut (hs : Sound d) (left : List (Path × Nat)) (lost : List Data) :
    Step d (d.cut left lost) .powerCut .ended := by
  have hg : Grows [] d (d.cut left lost) :=
    { offered := fun _ hx => hx
      bound := fun _ hx => hx
      epoch := Nat.le_succ _
      length := by
        show _ ≤ (d.inodes.mapIdx _).length
        rw [List.length_mapIdx]
      synced := by
        intro j node hnode hsynced
        show (d.inodes.mapIdx _)[j]? = _
        rw [List.getElem?_mapIdx, hnode, Option.map_some, if_pos hsynced]
      others := fun hepoch => absurd hepoch (Nat.succ_ne_self _)
      new := fun _ hx => .inl hx }
  refine ⟨hs.mono hg (fun _ hx hnew => absurd hx hnew) (fun p i h => ?_) fun _ hx hnew => absurd hx hnew,
    trivial, hg, .inl (List.Sublist.refl _)⟩
  exact of_decide_eq_true (List.mem_filter.mp (lookup_namesOf h)).2

theorem step_live (hs : Sound d) (hq : Told d q) (hfresh : Fresh d q b)
    (hepoch : epochOf q = some d.epoch) (hadv : advanceLive b d q = some (d', q')) : Step d d' q q' := by
  cases q with
  | create p data e =>
    cases hepoch
    have hstep : (if (d.names.lookup (tempPath p b.random)).isSome then some (d, .create p data d.epoch)
        else some (b.res.outcome d (some (d.create (tempPath p b.random),
          .write p data (tempPath p b.random) d.inodes.length d.epoch)) .ended)) = some (d', q') := hadv
    split at hstep
    · cases hstep
      exact .same hs hq (List.Sublist.refl _)
    · have htmp := not_keyed_tempPath p b.random
      have hg := grows_create hfresh
      have hsound := sound_create hs hfresh htmp
      refine Written.outcome_spec (R := fun d' q' => Step d d' (.create p data d.epoch) q') (.ended hs) ?_
        (Option.some.inj hstep)
      rintro d₁ q₁ ⟨rfl, rfl⟩
      exact ⟨⟨hsound, ⟨Asked.mono hq hg, holds_create hs hfresh htmp⟩, hg, .inr ⟨rfl, rfl⟩⟩,
        hsound, trivial, hg, .inl (List.Sublist.refl _)⟩
  | write p data tmp i e =>
    cases hepoch
    obtain ⟨hasked, hholds⟩ := hq
    obtain ⟨hprivate, node, hnode, hunsynced⟩ := hholds.live rfl
    have hg : ∀ f, Grows [i] d (d.modify i f) := fun f =>
      grows_modify hnode fun hsynced => by rw [hunsynced] at hsynced; cases hsynced
    have hstep : (if b.res = .done then
        some (d.modify i fun node => { node with data }, .sync p data tmp i d.epoch)
      else some (d.modify i fun node => { node with data := data.take b.count }, .cleanup tmp)) =
        some (d', q') := hadv
    split at hstep
    · cases hstep
      exact ⟨sound_modify hs (hg _), ⟨hasked, holds_modify hholds fun _ _ => rfl⟩, hg _,
        .inl (List.Sublist.refl _)⟩
    · cases hstep
      exact ⟨sound_modify hs (hg _), hprivate.temp, hg _, .inl (List.nil_sublist _)⟩
  | sync p data tmp i e =>
    cases hepoch
    obtain ⟨hasked, hholds⟩ := hq
    obtain ⟨hprivate, node, hnode, hdata⟩ := hholds.live rfl
    have hg : Grows [i] d (d.modify i fun node => { node with synced := true }) :=
      grows_modify hnode fun hsynced => by rw [← hsynced]
    have hsound := sound_modify hs hg
    refine Written.outcome_spec (R := fun d' q' => Step d d' (.sync p data tmp i d.epoch) q')
      (.cleanup hs hprivate.temp) ?_ (Option.some.inj hadv)
    rintro d₁ q₁ ⟨rfl, rfl⟩
    exact ⟨⟨hsound, ⟨hasked, holds_modify hholds fun _ h => ⟨h, rfl⟩⟩, hg, .inl (List.Sublist.refl _)⟩,
      hsound, hprivate.temp, hg, .inl (List.nil_sublist _)⟩
  | close p data tmp i e =>
    cases hepoch
    cases hadv
    split
    · exact .same hs hq (List.Sublist.refl _)
    · exact .cleanup hs (hq.2.live rfl).1.temp
  | rename p data tmp i e =>
    cases hepoch
    refine Written.outcome_spec (R := fun d' q' => Step d d' (.rename p data tmp i d.epoch) q')
      (.cleanup hs (hq.2.live rfl).1.temp) (fun d₁ q₁ heffect => ?_) (Option.some.inj hadv)
    obtain ⟨d₂, hrename, heq⟩ := Option.map_eq_some_iff.mp heffect
    cases heq
    exact ⟨step_rename hs hq.1 hq.2 hrename (.inl rfl), step_rename hs hq.1 hq.2 hrename (.inr rfl)⟩
  | put | cleanup | get | stat | read | head | delete | powerCut | got | sized | ended => cases hepoch

theorem live_of_advance (hq : (epochOf q).isSome = true) (h : advance b d q = some (d', q')) :
    epochOf q = some d.epoch ∧ advanceLive b d q = some (d', q') := by
  have hstep : (if epochOf q = some d.epoch then advanceLive b d q else none) = some (d', q') := by
    cases q with
    | create | write | sync | close | rename => exact h
    | put | cleanup | get | stat | read | head | delete | powerCut | got | sized | ended => cases hq
  split at hstep
  · rename_i hepoch
    exact ⟨hepoch, hstep⟩
  · cases hstep

theorem Sound.complete (h : Sound d) (hp : Keyed p) (hi : d.names.lookup p = some i) : Complete d p i :=
  h.kept (p, i) (h.named p i hi) hp

theorem Sound.content (h : Sound d) (hp : Keyed p) (hdata : d.contentOf p = some data) :
    (p, data) ∈ d.offered := by
  obtain ⟨i, hi, hread⟩ := Option.bind_eq_some_iff.mp hdata
  obtain ⟨node, hnode, -, hoffered⟩ := h.complete hp hi
  rw [hnode] at hread
  cases hread
  exact hoffered

theorem step_read (hs : Sound d) {acc : Data} (hq : Told d (.read p i acc)) (res : Written) (count : Nat) :
    Step d d (.read p i acc) (match res, d.inodes[i]? with
      | .done, some node => if node.data.length ≤ acc.length then .got p acc
        else .read p i (acc ++ (node.data.drop acc.length).take (count + 1))
      | _, _ => .ended) := by
  obtain ⟨node, hnode, hsynced, hoffered, rest, hrest⟩ := hq
  split
  · rename_i _ hnode'
    cases hnode.symm.trans hnode'
    split
    · rename_i hlen
      have hall : acc = node.data := List.IsPrefix.eq_of_length_le ⟨rest, hrest⟩ hlen
      exact .same hs (hall ▸ hoffered : (p, acc) ∈ d.offered) (List.Sublist.refl _)
    · refine .same hs ⟨node, hnode, hsynced, hoffered, ?_⟩ (List.Sublist.refl _)
      rw [← hrest, List.drop_left]
      exact List.prefix_append_right_inj acc |>.mpr (List.take_prefix _ _)
  · exact .ended hs

theorem step_advance (hs : Sound d) (hq : Told d q) (hok : Fresh d q b)
    (hadv : advance b d q = some (d', q')) : Step d d' q q' := by
  cases q with
  | put p data =>
    cases hadv
    exact step_offer hs hq data _
  | create | write | sync | close | rename =>
    obtain ⟨hepoch, hlive⟩ := live_of_advance rfl hadv
    exact step_live hs hq hok hepoch hlive
  | cleanup tmp =>
    refine Written.outcome_spec (R := fun d' q' => Step d d' (.cleanup tmp) q') (.ended hs) ?_
      (Option.some.inj hadv)
    rintro d₁ q₁ ⟨rfl, rfl⟩
    exact ⟨step_remove hs tmp rfl, step_remove hs tmp rfl⟩
  | get p =>
    cases hadv
    split
    · rename_i _ hi
      exact .same hs (hs.complete hq hi) (List.Sublist.refl _)
    · exact .ended hs
  | stat p i =>
    cases hadv
    split
    · obtain ⟨node, hnode, hsynced, hoffered⟩ := hq
      exact .same hs ⟨node, hnode, hsynced, hoffered, List.nil_prefix⟩ (List.Sublist.refl _)
    · exact .ended hs
  | read p i acc =>
    cases hadv
    exact step_read hs hq b.res b.count
  | head p =>
    cases hadv
    split
    · rename_i data _ hdata
      exact .same hs ⟨data, hs.content hq hdata, rfl⟩ (List.Sublist.refl _)
    · exact .ended hs
  | delete p =>
    refine Written.outcome_spec (R := fun d' q' => Step d d' (.delete p) q') (.ended hs) ?_
      (Option.some.inj hadv)
    rintro d₁ q₁ ⟨rfl, rfl⟩
    exact ⟨step_remove hs p rfl, step_remove hs p rfl⟩
  | powerCut =>
    cases hadv
    exact step_cut hs b.left b.lost
  | got | sized | ended => cases hadv

structure Inv (w : Hall Disk Phase) : Prop where
  sound : Sound w.shared
  told : ∀ q ∈ w.requests, Told w.shared q
  nodup : (w.requests.flatMap owns).Nodup

theorem owns_lt (h : Told d q) (hi : i ∈ owns q) : i < d.inodes.length := by
  cases q with
  | write | sync | close | rename =>
    rw [List.mem_singleton.mp hi]
    exact h.2.inside
  | put | create | cleanup | get | stat | read | head | delete | powerCut | got | sized | ended => cases hi

theorem told_begin (a : Request) (d : Disk) : Told d (begin a) ∧ owns (begin a) = [] := by
  have hkey : ∀ {key : List Char} {next : Path → Phase},
      (∀ p, Keyed p → Told d (next p) ∧ owns (next p) = []) →
        Told d (onKey key next) ∧ owns (onKey key next) = [] := by
    intro key next hnext
    unfold onKey
    cases hp : relPath key with
    | none => exact ⟨trivial, rfl⟩
    | some p => exact hnext p (relPath_eq hp).2
  cases a with
  | put | getBytes | head => exact hkey fun p hp => ⟨hp, rfl⟩
  | delete => exact hkey fun p _ => ⟨trivial, rfl⟩
  | powerCut => exact ⟨trivial, rfl⟩

theorem Inv.advance {k : Nat} (h : Inv w) (hk : w.requests[k]? = some q)
    (hstep : Step w.shared d' q q') : Inv ⟨d', w.requests.set k q'⟩ := by
  obtain ⟨hlt, rfl⟩ := List.getElem?_eq_some_iff.mp hk
  have hafter : (w.requests.set k q').Perm (q' :: w.requests.eraseIdx k) := by
    have hlt' : k < (w.requests.set k q').length := by rwa [List.length_set]
    have hperm := (List.getElem_cons_eraseIdx_perm hlt').symm
    rwa [List.getElem_set_self, List.eraseIdx_set_eq] at hperm
  have hbefore := (List.getElem_cons_eraseIdx_perm hlt).symm
  set rest := w.requests.eraseIdx k
  have hnodup : (owns w.requests[k] ++ rest.flatMap owns).Nodup :=
    (hbefore.flatMap_right owns).nodup_iff.mp h.nodup
  have htold : ∀ p ∈ rest, Told w.shared p := fun p hp =>
    h.told p (hbefore.mem_iff.mpr (List.mem_cons_of_mem _ hp))
  refine ⟨hstep.sound, fun p hp => ?_, (hafter.flatMap_right owns).nodup_iff.mpr ?_⟩
  · rcases List.mem_cons.mp (hafter.mem_iff.mp hp) with rfl | hp
    · exact hstep.told
    · refine (htold p hp).mono hstep.grows fun j hj hown => ?_
      exact (List.nodup_append.mp hnodup).2.2 j hown j (List.mem_flatMap.mpr ⟨p, hp, hj⟩) rfl
  · show (owns q' ++ rest.flatMap owns).Nodup
    rcases hstep.took with hsub | ⟨-, hnew⟩
    · exact hnodup.sublist (hsub.append_right _)
    · rw [hnew]
      refine List.nodup_cons.mpr ⟨fun hmem => ?_, (List.nodup_append.mp hnodup).2.1⟩
      obtain ⟨p, hp, hj⟩ := List.mem_flatMap.mp hmem
      exact Nat.lt_irrefl _ (owns_lt (htold p hp) hj)

theorem inv_step {t : Turn Request Access} (h : Inv w) (hok : Service.Heeding Fresh w t)
    (hstep : service.system.step t w = some w') : Inv w' := by
  rcases Service.step_cases hstep with ⟨a, rfl, rfl⟩ | ⟨k, b, q, d', q', rfl, hq, hadv, rfl⟩
  · obtain ⟨htold, howns⟩ := told_begin a w.shared
    refine ⟨h.sound, fun p hp => ?_, ?_⟩
    · rcases List.mem_append.mp hp with hp | hp
      · exact h.told p hp
      · rw [List.mem_singleton.mp hp]
        exact htold
    · show ((w.requests ++ [begin a]).flatMap owns).Nodup
      rw [List.flatMap_append, List.flatMap_singleton, howns, List.append_nil]
      exact h.nodup
  · exact h.advance hq (step_advance h.sound (h.told q (List.mem_of_getElem? hq)) (hok q hq) hadv)

theorem inv_start : Inv start :=
  ⟨⟨List.forall_mem_nil _, (fun _ _ h => by cases h), List.forall_mem_nil _⟩, List.forall_mem_nil _,
    List.nodup_nil⟩

theorem inv_of_run {ts : List (Turn Request Access)}
    (h : service.system.Run (Service.Heeding Fresh) start ts w) : Inv w :=
  System.Run.invariant (I := Inv) (fun _ _ _ hinv hok hstep => inv_step hinv hok hstep) h inv_start

/-- After any run, with power cuts, what the file of a key holds, what a `GetBytes` has answered
with for it and the size a `Head` has told are those of the whole data of one `Put` for it; and
the path of a key is no other key's. -/
theorem reads_complete {ts : List (Turn Request Access)}
    (h : service.system.Run (Service.Heeding Fresh) start ts w) {key : List Char}
    (hkey : relPath key = some p) :
    (∀ data, w.shared.contentOf p = some data → (p, data) ∈ w.shared.offered) ∧
      (∀ data, .got p data ∈ w.requests → (p, data) ∈ w.shared.offered) ∧
      (∀ n, .sized p n ∈ w.requests → ∃ data, (p, data) ∈ w.shared.offered ∧ data.length = n) ∧
      ∀ key', relPath key' = some p → key' = key := by
  have hinv := inv_of_run h
  refine ⟨fun data hdata => hinv.sound.content (relPath_eq hkey).2 hdata,
    fun data hmem => hinv.told _ hmem, fun n hmem => hinv.told _ hmem,
    fun key' hkey' => relPath_injective hkey' hkey⟩

/-- A `Put` that is read back, and one of the same key that the power goes under before the data
is flushed. -/
def tornPut : List (Turn Request Access) :=
  let fine : Access := ⟨.done, ['1'], 1, [], []⟩
  [.arrive (.put ['a'] [1, 2]), .arrive (.getBytes ['a']), .arrive (.put ['a'] [3]), .arrive .powerCut,
    .advance 0 fine, .advance 0 fine, .advance 0 fine, .advance 0 fine, .advance 0 fine, .advance 0 fine,
    .advance 1 fine, .advance 1 fine, .advance 1 fine, .advance 2 fine, .advance 2 ⟨.done, ['2'], 0, [], []⟩,
    .advance 2 fine, .advance 3 ⟨.done, [], 0, [([['a']], 0)], [[], [9]]⟩]

theorem reads_complete_torn : ∃ w, service.system.Run (Service.Heeding Fresh) start tornPut w ∧
    w.shared.contentOf [['a']] = some [1, 2] ∧ ([['a']], [1, 2]) ∈ w.shared.offered := by
  obtain ⟨w, hfollow, hcontent⟩ : ∃ w, service.system.follow tornPut start = some w ∧
      w.shared.contentOf [['a']] = some [1, 2] := ⟨_, rfl, by decide +kernel⟩
  have hrun := System.run_of_trail (p := fun x => decide (Service.Heeding Fresh x.1 x.2))
    (fun _ _ h => of_decide_eq_true h) hfollow (by decide +kernel)
  have hkey : relPath ['a'] = some [['a']] := by decide +kernel
  exact ⟨w, hrun, hcontent, (reads_complete hrun hkey).1 _ hcontent⟩

def Spares (p : Path) : Phase → Prop
  | .rename p' _ _ _ _ | .delete p' => p' ≠ p
  | .powerCut => False
  | _ => True

instance (p : Path) (q : Phase) : Decidable (Spares p q) := by
  unfold Spares
  split <;> infer_instance

@[grind =] theorem lookup_remove {gone : Path} (hp : gone ≠ p) :
    (d.remove gone).names.lookup p = d.names.lookup p := by
  show (d.names.erase gone).lookup p = _
  rw [FinMap.lookup_erase_ite, if_neg (Ne.symm hp)]

@[grind =] theorem lookup_bind {new : Path} (hp : new ≠ p) (i : Nat) :
    (d.bind new i).names.lookup p = d.names.lookup p := by
  show (d.names.insert new i).lookup p = _
  rw [FinMap.lookup_insert_ite, if_neg (Ne.symm hp)]

theorem ne_of_temp (hp : Keyed p) (htmp : ¬ Keyed tmp) : tmp ≠ p := by
  rintro rfl
  exact htmp hp

theorem lookup_live (hq : Told d q) (hp : Keyed p) (hspares : Spares p q)
    (hepoch : epochOf q = some d.epoch) (hadv : advanceLive b d q = some (d', q')) :
    d'.names.lookup p = d.names.lookup p := by
  cases q with
  | create p' data e =>
    have hstep : (if (d.names.lookup (tempPath p' b.random)).isSome then some (d, .create p' data e)
        else some (b.res.outcome d (some (d.create (tempPath p' b.random),
          .write p' data (tempPath p' b.random) d.inodes.length e)) .ended)) = some (d', q') := hadv
    split at hstep
    · cases hstep
      rfl
    · refine Written.outcome_spec (R := fun d' _ => d'.names.lookup p = d.names.lookup p) rfl ?_
        (Option.some.inj hstep)
      rintro d₁ q₁ ⟨rfl, rfl⟩
      have hsame : (d.create (tempPath p' b.random)).names.lookup p = d.names.lookup p :=
        lookup_bind (ne_of_temp hp (not_keyed_tempPath p' b.random)) _
      exact ⟨hsame, hsame⟩
  | write p' data tmp i e =>
    have hstep : (if b.res = .done then
        some (d.modify i fun node => { node with data }, .sync p' data tmp i e)
      else some (d.modify i fun node => { node with data := data.take b.count }, .cleanup tmp)) =
        some (d', q') := hadv
    split at hstep <;> cases hstep <;> rfl
  | sync p' data tmp i e =>
    refine Written.outcome_spec (R := fun d' _ => d'.names.lookup p = d.names.lookup p) rfl ?_
      (Option.some.inj hadv)
    rintro d₁ q₁ ⟨rfl, rfl⟩
    exact ⟨rfl, rfl⟩
  | close p' data tmp i e =>
    cases hadv
    rfl
  | rename p' data tmp i e =>
    cases hepoch
    refine Written.outcome_spec (R := fun d' _ => d'.names.lookup p = d.names.lookup p) rfl
      (fun d₁ q₁ heffect => ?_) (Option.some.inj hadv)
    obtain ⟨d₂, hrename, heq⟩ := Option.map_eq_some_iff.mp heffect
    cases heq
    obtain ⟨j, -, rfl⟩ := Option.map_eq_some_iff.mp hrename
    have hsame : ((d.remove tmp).bind p' j).names.lookup p = d.names.lookup p :=
      (lookup_bind hspares j).trans (lookup_remove (ne_of_temp hp (hq.2.live rfl).1.temp))
    exact ⟨hsame, hsame⟩
  | put | cleanup | get | stat | read | head | delete | powerCut | got | sized | ended => cases hepoch

theorem lookup_advance (hq : Told d q) (hp : Keyed p) (hspares : Spares p q)
    (hadv : advance b d q = some (d', q')) : d'.names.lookup p = d.names.lookup p := by
  cases q with
  | create | write | sync | close | rename =>
    obtain ⟨hepoch, hlive⟩ := live_of_advance rfl hadv
    exact lookup_live hq hp hspares hepoch hlive
  | cleanup tmp =>
    refine Written.outcome_spec (R := fun d' _ => d'.names.lookup p = d.names.lookup p) rfl ?_
      (Option.some.inj hadv)
    rintro d₁ q₁ ⟨rfl, rfl⟩
    exact ⟨lookup_remove (ne_of_temp hp hq), lookup_remove (ne_of_temp hp hq)⟩
  | delete p' =>
    refine Written.outcome_spec (R := fun d' _ => d'.names.lookup p = d.names.lookup p) rfl ?_
      (Option.some.inj hadv)
    rintro d₁ q₁ ⟨rfl, rfl⟩
    exact ⟨lookup_remove hspares, lookup_remove hspares⟩
  | put | get | stat | read | head =>
    cases hadv
    rfl
  | powerCut => exact hspares.elim
  | got | sized | ended => cases hadv

theorem content_same (hs : Sound d) (hp : Keyed p) (hg : Grows own d d')
    (hnames : d'.names.lookup p = d.names.lookup p) : d'.contentOf p = d.contentOf p := by
  rw [Disk.contentOf, Disk.contentOf, hnames]
  cases hi : d.names.lookup p with
  | none => rfl
  | some i =>
    obtain ⟨node, hnode, hsynced, -⟩ := hs.complete hp hi
    rw [Option.bind_some, Option.bind_some, hnode, hg.synced i node hnode hsynced]

/-- What a key reads as is the same after any run on from a state the system has come to, in which
no request publishes data for the key or deletes it and the power is not cut: the calls of a `Put`
before its rename, failed and stopped ones, and all calls for other keys leave it alone. -/
theorem reads_unchanged {ts ts' : List (Turn Request Access)} {key : List Char}
    (h : service.system.Run (Service.Heeding Fresh) start ts w) (hkey : relPath key = some p)
    (h' : service.system.Run (Service.Heeding fun d q b => Fresh d q b ∧ Spares p q) w ts' w') :
    w'.shared.contentOf p = w.shared.contentOf p := by
  have hp := (relPath_eq hkey).2
  refine (System.Run.invariant (I := fun v => Inv v ∧ v.shared.contentOf p = w.shared.contentOf p) ?_ h'
    ⟨inv_of_run h, rfl⟩).2
  rintro t v v' ⟨hinv, hsame⟩ hok hstep
  have hfresh : Service.Heeding Fresh v t := by
    cases t with
    | arrive => trivial
    | advance => exact fun q hq => (hok q hq).1
  refine ⟨inv_step hinv hfresh hstep, ?_⟩
  rcases Service.step_cases hstep with ⟨a, rfl, rfl⟩ | ⟨k, b, q, d', q', rfl, hq, hadv, rfl⟩
  · exact hsame
  · have htold := hinv.told q (List.mem_of_getElem? hq)
    have hg := (step_advance hinv.sound htold (hok q hq).1 hadv).grows
    exact (content_same hinv.sound hp hg (lookup_advance htold hp (hok q hq).2 hadv)).trans hsame

/-- A second `Put` of the key up to its rename, which it does not come to. -/
theorem reads_unchanged_unpublished : ∃ w w', service.system.Run (Service.Heeding Fresh) start
      (tornPut.take 10) w ∧
    service.system.Run (Service.Heeding fun d q b => Fresh d q b ∧ Spares [['a']] q) w
      ((tornPut.drop 10).take 6) w' ∧
    w'.shared.contentOf [['a']] = w.shared.contentOf [['a']] := by
  obtain ⟨w, w', hfollow, hfollow', hspared⟩ : ∃ w w',
      service.system.follow (tornPut.take 10) start = some w ∧
      service.system.follow ((tornPut.drop 10).take 6) w = some w' ∧
      (service.system.trail ((tornPut.drop 10).take 6) w).all (fun x => decide
        (Service.Heeding (fun d q b => Fresh d q b ∧ Spares [['a']] q) x.1 x.2)) = true :=
    ⟨_, _, rfl, rfl, by decide +kernel⟩
  have hrun := System.run_of_trail (p := fun x => decide (Service.Heeding Fresh x.1 x.2))
    (fun _ _ h => of_decide_eq_true h) hfollow (by decide +kernel)
  have hrun' := System.run_of_trail (p := fun x => decide
      (Service.Heeding (fun d q b => Fresh d q b ∧ Spares [['a']] q) x.1 x.2))
    (fun _ _ h => of_decide_eq_true h) hfollow' hspared
  have hkey : relPath ['a'] = some [['a']] := by decide +kernel
  exact ⟨w, w', hrun, hrun', reads_unchanged hrun hkey hrun'⟩

end ProxBack.Blobstore
