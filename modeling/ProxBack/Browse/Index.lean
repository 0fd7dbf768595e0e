import ProxBack.Agent.CleanPath
import ProxBack.Browse.Stream
import ProxBack.Lib.Text

/-! The index of a restore point's tar streams, and the file found in it. -/
namespace ProxBack.Browse
open Lib Engine Agent.Tar

def dropColon : List Char → List Char
  | c :: d :: rest => if d = ':' ∧ c.toNat < 128 then c :: rest else c :: d :: rest
  | p => p

/-- A path to show: no drive colon, no backslashes, and nothing that leads out of the tree. -/
@[irreducible] def normalizePath (name : String) : String :=
  let p := unixClean (.ofList ('/' :: dropColon (Text.toSlashes name.toList)))
  let p := if p.toList.head? = some '/' then .ofList p.toList.tail else p
  if p = "." ∨ p = ".." then "" else p

/-- `size` and `offset` say where the content is in the stream. -/
structure Entry where
  path : String
  size : Nat
  mode : Nat
  mtime : Time
  dir : Bool
  stream : String
  offset : Nat
deriving DecidableEq

@[irreducible] def maxIndexEntries : Nat := 2000000

/-- What `Next` gives, each with the offset of its content: the reader stands there after `Next`. -/
def members (fmt : Format) (size : Nat) (exts : List (Bytes × Bytes)) (b : Body) : List (Item × Nat) × Engine.Err :=
  match _h : next fmt exts b with
  | .ended err => ([], err)
  | .last item err => ([(item, size - b.left.length + blockSize)], err)
  | .extension block data b' => members fmt size (exts ++ [(block, data)]) b'
  | .entry item b' =>
    let rest := members fmt size [] b'
    ((item, size - b.left.length + blockSize) :: rest.1, rest.2)
termination_by b.left.length
decreasing_by
  · exact next_rest (by rw [_h]; rfl)
  · exact next_rest (by rw [_h]; rfl)

theorem members_eq (fmt : Format) (size : Nat) (exts : List (Bytes × Bytes)) (b : Body) :
    members fmt size exts b =
      match next fmt exts b with
      | .ended err => ([], err)
      | .last item err => ([(item, size - b.left.length + blockSize)], err)
      | .extension block data b' => members fmt size (exts ++ [(block, data)]) b'
      | .entry item b' => ((item, size - b.left.length + blockSize) :: (members fmt size [] b').1,
          (members fmt size [] b').2) := by
  rw [members]
  split <;> rename_i h <;> rw [h]

def entryOf (stream : String) (m : Item × Nat) : Option Entry :=
  let h := m.1.header
  let dir : Bool := h.typeflag = .dir ∨ h.name.toList.getLast? = some '/'
  if normalizePath h.name = "" then none
  else some ⟨normalizePath h.name, h.size, h.mode, h.modTime, dir, stream,
    if dir = false ∧ 0 < h.size then m.2 else 0⟩

inductive BrowseErr where
  | readTar (err : Engine.Err)
  | noSuchEntry
  | folder (path : String)
  | noStream (name : String)
deriving DecidableEq

/-- The loop of `IndexTar`. An archive that breaks off is told as far as it goes. -/
def indexLoop (stream : String) : List (Item × Nat) → Engine.Err → List Entry →
    Except BrowseErr (List Entry × Bool)
  | [], err, entries =>
    if err.isEnd then .ok (entries, false)
    else if entries ≠ [] then .ok (entries, true)
    else .error (.readTar err)
  | m :: rest, err, entries =>
    match entryOf stream m with
    | none => indexLoop stream rest err entries
    | some e =>
      if maxIndexEntries ≤ (entries ++ [e]).length then .ok (entries ++ [e], true)
      else indexLoop stream rest err (entries ++ [e])

def indexTar (fmt : Format) (bytes : Bytes) (stream : String) : Except BrowseErr (List Entry × Bool) :=
  let ms := members fmt bytes.length [] ⟨bytes, none⟩
  indexLoop stream ms.1 ms.2 []

def find (entries : List Entry) (p : String) : Option Entry := entries.find? fun e => e.path = normalizePath p

section Browse

variable (fetch : Chunk → Except Engine.Err Bytes)

/-- The readers of a restore point by the names of its streams; a later one takes the place of an
earlier one. -/
def streamNamed (disks : List DiskManifest) (name : String) : Option StreamReaderAt :=
  (disks.reverse.find? fun dm => dm.name = name).map newStreamReaderAt

/-- `BrowseIndex` over the streams from the first on. -/
def indexStreams (fmt : Format) (all : List DiskManifest) :
    List DiskManifest → List Entry × Bool → Except BrowseErr (List Entry × Bool)
  | [], idx => .ok idx
  | dm :: rest, idx =>
    match streamNamed all dm.name with
    | none => .error (.noStream dm.name)
    | some r =>
      match indexTar fmt (r.contents fetch) dm.name with
      | .error err => .error err
      | .ok (entries, truncated) => indexStreams fmt all rest (idx.1 ++ entries, idx.2 || truncated)

def browseIndex (fmt : Format) (disks : List DiskManifest) : Except BrowseErr (List Entry × Bool) :=
  indexStreams fetch fmt disks disks ([], false)

def browseOpenFile (fmt : Format) (disks : List DiskManifest) (path : String) :
    Except BrowseErr (Entry × Option Section) :=
  match browseIndex fetch fmt disks with
  | .error err => .error err
  | .ok (entries, _) =>
    match find entries path with
    | none => .error .noSuchEntry
    | some e =>
      if e.dir then .error (.folder e.path)
      else if e.size = 0 then .ok (e, none)
      else
        match streamNamed disks e.stream with
        | none => .error (.noStream e.stream)
        | some r => .ok (e, some ⟨r, e.offset, e.size⟩)

end Browse

section Members

variable {fmt : Format} {exts : List (Bytes × Bytes)} {b b' : Body} {it : Item}

theorem members_items (size : Nat) : ((members fmt size exts b).1.map Prod.fst, (members fmt size exts b).2) =
    items fmt exts b := by
  induction hn : b.left.length using Nat.strong_induction_on generalizing b exts with
  | _ n ih =>
    have hrest := @next_rest fmt exts b
    rw [members_eq, items_eq]
    cases hnext : next fmt exts b with
    | ended err => rfl
    | last item err => rfl
    | extension block data b' =>
      rw [hnext] at hrest
      exact ih _ (hn ▸ hrest rfl) rfl
    | entry item b' =>
      rw [hnext] at hrest
      have htail : ((members fmt size [] b').1.map Prod.fst, (members fmt size [] b').2) = items fmt [] b' :=
        ih _ (hn ▸ hrest rfl) rfl
      dsimp only
      rw [← htail]
      rfl

def DataAt (b : Body) (it : Item) : Prop :=
  it.err = none → blockSize ≤ b.left.length ∧ it.header.size ≤ (b.left.drop blockSize).length ∧
    it.data = (b.left.drop blockSize).take it.header.size

theorem nextEntry_data {h : Header} {item : Item}
    (hnext : (∃ b', nextEntry h b = .entry item b') ∨ ∃ err, nextEntry h b = .last item err)
    (herr : item.err = none) :
    item.header.size ≤ b.left.length ∧ item.data = b.left.take item.header.size := by
  unfold nextEntry at hnext
  cases hdata : b.readFull h.size with
  | error err =>
    rw [hdata] at hnext
    rcases hnext with ⟨b', hnext⟩ | ⟨err', hnext⟩
    · cases hnext
    · cases hnext
      cases herr
  | ok out =>
    obtain ⟨data, b₁⟩ := out
    obtain ⟨hle, rfl, -⟩ := Body.readFull_ok hdata
    rw [hdata] at hnext
    dsimp only at hnext
    cases hpad : b₁.skipPad h.size with
    | error err =>
      rw [hpad] at hnext
      rcases hnext with ⟨b', hnext⟩ | ⟨err', hnext⟩
      · cases hnext
      · cases hnext
        exact ⟨hle, rfl⟩
    | ok b₂ =>
      rw [hpad] at hnext
      rcases hnext with ⟨b', hnext⟩ | ⟨err', hnext⟩
      · cases hnext
        exact ⟨hle, rfl⟩
      · cases hnext

theorem next_data {item : Item}
    (h : (∃ b', next fmt exts b = .entry item b') ∨ ∃ err, next fmt exts b = .last item err) : DataAt b item := by
  intro herr
  unfold next at h
  cases hblock : b.readFull blockSize with
  | error err =>
    rw [hblock] at h
    rcases h with ⟨b', h⟩ | ⟨err', h⟩ <;> cases h
  | ok out =>
    obtain ⟨block, b₁⟩ := out
    obtain ⟨hle, -, rfl⟩ := Body.readFull_ok hblock
    rw [hblock] at h
    dsimp only at h
    split at h
    · rcases h with ⟨b', h⟩ | ⟨err', h⟩ <;> cases h
    split at h
    · rcases h with ⟨b', h⟩ | ⟨err', h⟩ <;> cases h
    · rename_i size hext
      unfold nextExtension at h
      split at h
      · rcases h with ⟨b', h⟩ | ⟨err', h⟩ <;> cases h
      · split at h
        · rcases h with ⟨b', h⟩ | ⟨err', h⟩ <;> cases h
        · rcases h with ⟨b', h⟩ | ⟨err', h⟩ <;> cases h
    · exact ⟨hle, nextEntry_data h herr⟩

theorem readFull_drop {n : Nat} {d : Bytes} (h : b.readFull n = .ok (d, b')) : b'.left = b.left.drop n := by
  obtain ⟨-, -, rfl⟩ := Body.readFull_ok h
  rfl

theorem skipPad_drop {n : Nat} (h : b.skipPad n = .ok b') : b'.left = b.left.drop (padding n) := by
  obtain ⟨-, rfl⟩ := Body.skipPad_ok h
  rfl

theorem next_drop (h : (next fmt exts b).rest = some b') : ∃ k, b'.left = b.left.drop k := by
  unfold next at h
  cases hblock : b.readFull blockSize with
  | error err =>
    rw [hblock] at h
    cases h
  | ok out =>
    obtain ⟨block, b₁⟩ := out
    have hfirst := readFull_drop hblock
    rw [hblock] at h
    dsimp only at h
    split at h
    · cases h
    split at h
    · cases h
    · unfold nextExtension at h
      split at h
      · cases h
      rename_i hdata
      split at h
      · cases h
      rename_i hpad
      cases h
      rw [skipPad_drop hpad, readFull_drop hdata, hfirst, List.drop_drop, List.drop_drop]
      exact ⟨_, rfl⟩
    · unfold nextEntry at h
      split at h
      · cases h
      rename_i hdata
      split at h
      · cases h
      rename_i hpad
      cases h
      rw [skipPad_drop hpad, readFull_drop hdata, hfirst, List.drop_drop, List.drop_drop]
      exact ⟨_, rfl⟩

theorem members_extent {bytes : Bytes} (hb : ∃ k, b.left = bytes.drop k) {off : Nat}
    (hm : (it, off) ∈ (members fmt bytes.length exts b).1) (herr : it.err = none) :
    off + it.header.size ≤ bytes.length ∧ (bytes.drop off).take it.header.size = it.data := by
  induction hn : b.left.length using Nat.strong_induction_on generalizing b exts with
  | _ n ih =>
    have hrest := @next_rest fmt exts b
    have hdrop := @next_drop fmt exts b
    obtain ⟨k, hk⟩ := hb
    have hhere : DataAt b it → off = bytes.length - b.left.length + blockSize →
        off + it.header.size ≤ bytes.length ∧ (bytes.drop off).take it.header.size = it.data := by
      rintro hdata rfl
      obtain ⟨hblock, hle, hsame⟩ := hdata herr
      have hpos := blockSize_pos
      have hlen : b.left.length = bytes.length - k := by rw [hk, List.length_drop]
      have hoff : bytes.length - b.left.length = k := by omega
      rw [List.length_drop] at hle
      rw [hoff, hsame, hk, List.drop_drop]
      exact ⟨by omega, rfl⟩
    have hnextb : ∀ b', (next fmt exts b).rest = some b' → ∃ k, b'.left = bytes.drop k := by
      intro b' h
      obtain ⟨k', hk'⟩ := hdrop h
      exact ⟨_, by rw [hk', hk, List.drop_drop]⟩
    rw [members_eq] at hm
    cases hnext : next fmt exts b with
    | ended err =>
      rw [hnext] at hm
      cases hm
    | last item err =>
      rw [hnext] at hm
      obtain ⟨rfl, hoff⟩ := Prod.mk.inj (List.mem_singleton.mp hm)
      exact hhere (next_data (.inr ⟨err, hnext⟩)) hoff
    | extension block data b' =>
      rw [hnext] at hm hrest hnextb
      exact ih _ (hn ▸ hrest rfl) (hnextb b' rfl) hm rfl
    | entry item b' =>
      rw [hnext] at hm hrest hnextb
      rcases List.mem_cons.mp hm with heq | hm
      · obtain ⟨rfl, hoff⟩ := Prod.mk.inj heq
        exact hhere (next_data (.inl ⟨b', hnext⟩)) hoff
      · exact ih _ (hn ▸ hrest rfl) (hnextb b' rfl) hm rfl

end Members

end ProxBack.Browse
