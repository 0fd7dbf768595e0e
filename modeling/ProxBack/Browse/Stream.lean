import ProxBack.Engine.PipelineSafe
import ProxBack.Lib.Search

/-! A backed-up stream at random access. -/
namespace ProxBack.Browse
open Lib Engine

inductive ReadErr where
  | eof
  | outOfRange
  | chunk (idx : Nat) (err : Engine.Err)
  | short (idx : Nat)
deriving DecidableEq

/-- `starts` has the offset of every chunk in the stream. -/
structure StreamReaderAt where
  chunks : List Chunk
  starts : List Int
  size : Int

def startsFrom : Int → List Chunk → List Int
  | _, [] => []
  | off, ch :: rest => off :: startsFrom (off + ch.size) rest

def newStreamReaderAt (dm : DiskManifest) : StreamReaderAt where
  chunks := dm.chunks
  starts := startsFrom 0 dm.chunks
  size := (dm.chunks.map Chunk.size).sum

def defaultCacheChunks : Nat := 8

structure Cache where
  data : List (Nat × Bytes)
  order : List Nat

def evict : List (Nat × Bytes) → List Nat → Cache
  | data, [] => ⟨data, []⟩
  | data, idx :: order =>
    if defaultCacheChunks < (idx :: order).length then evict (data.filter fun e => e.1 ≠ idx) order
    else ⟨data, idx :: order⟩

def Cache.put (c : Cache) (idx : Nat) (data : Bytes) : Cache := evict ((idx, data) :: c.data) (c.order ++ [idx])

namespace StreamReaderAt

def chunkAt (r : StreamReaderAt) (off : Nat) : Option Nat :=
  let i := search r.starts.length fun i => off < r.starts.getD i 0
  if i = 0 ∨ r.chunks.length < i then none else some (i - 1)

variable (fetch : Chunk → Except Engine.Err Bytes)

def chunk (r : StreamReaderAt) (c : Cache) (idx : Nat) : Except ReadErr Bytes × Cache :=
  match c.data.lookup idx, r.chunks[idx]? with
  | some data, _ => (.ok data, c)
  | none, none => (.error .outOfRange, c)
  | none, some ch =>
    match fetch ch with
    | .error err => (.error (.chunk idx err), c)
    | .ok data => (.ok data, c.put idx data)

/-- The loop of `ReadAt`, with `room` bytes of the buffer left. -/
def readLoop (r : StreamReaderAt) (room off : Nat) (c : Cache) : Bytes × Option ReadErr × Cache :=
  if _hroom : room = 0 then ([], none, c)
  else if r.size ≤ off then ([], some .eof, c)
  else
    match r.chunkAt off with
    | none => ([], some .outOfRange, c)
    | some idx =>
      match r.chunk fetch c idx with
      | (.error err, c) => ([], some err, c)
      | (.ok data, c) =>
        let part := data.drop (off - r.starts.getD idx 0).toNat
        if _hshort : part = [] then ([], some (.short idx), c)
        else
          let got := part.take room
          let out := readLoop r (room - got.length) (off + got.length) c
          (got ++ out.1, out.2)
termination_by room
decreasing_by
  have hpart : 0 < part.length := List.length_pos_iff.mpr ‹_›
  show room - (part.take room).length < room
  rw [List.length_take]
  omega

def readAt (r : StreamReaderAt) (len off : Nat) (c : Cache) : Bytes × Option ReadErr × Cache :=
  if r.size ≤ off then ([], some .eof, c) else r.readLoop fetch len off c

end StreamReaderAt

/-- `io.SectionReader`. -/
structure Section where
  r : StreamReaderAt
  off : Nat
  n : Nat

/-- A run of reads into buffers of some lengths, until one does not give what it is asked for. -/
def Section.read (fetch : Chunk → Except Engine.Err Bytes) (s : Section) :
    (lens : List Nat) → (pos : Nat) → Cache → Bytes × Option ReadErr
  | [], _, _ => ([], none)
  | len :: lens, pos, c =>
    if s.n ≤ pos then ([], some .eof)
    else
      match s.r.readAt fetch (min len (s.n - pos)) (s.off + pos) c with
      | (got, some err, _) => (got, some err)
      | (got, none, c) =>
        let out := s.read fetch lens (pos + got.length) c
        (got ++ out.1, out.2)

def StreamReaderAt.contents (fetch : Chunk → Except Engine.Err Bytes) (r : StreamReaderAt) : Bytes :=
  (r.readAt fetch r.size.toNat 0 ⟨[], []⟩).1

section Read

variable {fetch : Chunk → Except Engine.Err Bytes} {e : Engine} {units : List Bytes} {name : String}
  {sizeBytes : Int}

structure Served (fetch : Chunk → Except Engine.Err Bytes) (e : Engine) (units : List Bytes) : Prop where
  nonempty : ∀ d ∈ units, d ≠ []
  fetched : ∀ d ∈ units, fetch (chunkOf e d) = .ok d

def Cache.Sound (units : List Bytes) (c : Cache) : Prop := ∀ idx d, (idx, d) ∈ c.data → units[idx]? = some d

def streamOf (e : Engine) (units : List Bytes) : StreamReaderAt :=
  newStreamReaderAt ⟨"", 0, units.map (chunkOf e)⟩

def startOf (units : List Bytes) (i : Nat) : Nat := (units.take i).flatten.length

@[grind =] theorem startsFrom_getD (units : List Bytes) (off : Int) (i : Nat) (hi : i < units.length) :
    (startsFrom off (units.map (chunkOf e))).getD i 0 = off + startOf units i := by
  induction units generalizing off i with
  | nil => cases hi
  | cons d units ih =>
    rw [List.map_cons, startsFrom]
    cases i with
    | zero => exact (Int.add_zero off).symm
    | succ i =>
      rw [List.getD_cons_succ, ih _ i (by simpa using hi)]
      simp [chunkOf, startOf, Int.add_assoc]

@[simp] theorem startsFrom_length (off : Int) (chunks : List Chunk) : (startsFrom off chunks).length = chunks.length := by
  induction chunks generalizing off with
  | nil => rfl
  | cons ch chunks ih => rw [startsFrom, List.length_cons, ih, List.length_cons]

@[simp]
theorem streamOf_size (e : Engine) (units : List Bytes) : (streamOf e units).size = units.flatten.length :=
  sum_sizes e units

theorem startOf_mono (units : List Bytes) {i j : Nat} (h : i ≤ j) : startOf units i ≤ startOf units j := by
  have hpre := (List.take_prefix_take_left h : units.take i <+: units.take j)
  obtain ⟨rest, hrest⟩ := hpre
  rw [startOf, startOf, ← hrest, List.flatten_append, List.length_append]
  omega

@[simp] theorem startOf_length (units : List Bytes) : startOf units units.length = units.flatten.length := by
  rw [startOf, List.take_length]

theorem startOf_succ {d : Bytes} {i : Nat} (h : units[i]? = some d) :
    startOf units (i + 1) = startOf units i + d.length := by
  rw [startOf, startOf, List.take_add_one, h, List.flatten_append, List.length_append]
  simp

theorem drop_flatten {d : Bytes} {i off : Nat} (h : units[i]? = some d) (hlow : startOf units i ≤ off)
    (hhigh : off < startOf units i + d.length) :
    units.flatten.drop off = d.drop (off - startOf units i) ++ (units.drop (i + 1)).flatten := by
  obtain ⟨hi, rfl⟩ := List.getElem?_eq_some_iff.mp h
  have hsplit : units.flatten = (units.take i).flatten ++ (units[i] ++ (units.drop (i + 1)).flatten) := by
    rw [← List.flatten_cons, ← List.drop_eq_getElem_cons hi, ← List.flatten_append, List.take_append_drop]
  rw [hsplit, List.drop_append, List.drop_eq_nil_of_le hlow, List.nil_append, List.drop_append_of_le_length]
  · rfl
  · rw [startOf] at hlow hhigh
    omega

@[simp] theorem startOf_zero (units : List Bytes) : startOf units 0 = 0 := rfl

theorem chunkAt_spec {off : Nat} (hoff : off < units.flatten.length) :
    ∃ i d, (streamOf e units).chunkAt off = some i ∧ units[i]? = some d ∧ startOf units i ≤ off ∧
      off < startOf units i + d.length := by
  let r := streamOf e units
  have hlen : r.starts.length = units.length := by
    show (startsFrom 0 (units.map (chunkOf e))).length = _
    rw [startsFrom_length, List.length_map]
  have hstart : ∀ i < units.length, r.starts.getD i 0 = startOf units i := fun i hi => by
    rw [← Nat.zero_add (startOf units i)]
    exact startsFrom_getD units 0 i hi
  have hmono : ∀ a b, a ≤ b → b < r.starts.length → decide (off < r.starts.getD a 0) = true →
      decide (off < r.starts.getD b 0) = true := by
    intro a b hab hb ha
    rw [hlen] at hb
    rw [hstart a (by omega)] at ha
    rw [hstart b hb]
    have hle := startOf_mono units hab
    simp only [decide_eq_true_eq] at ha ⊢
    omega
  obtain ⟨hle, hfalse, htrue⟩ := search_spec hmono
  generalize hi : search r.starts.length (fun i => decide (off < r.starts.getD i 0)) = i at hle hfalse htrue
  have hpos : i ≠ 0 := by
    rintro rfl
    by_cases hnil : units = []
    · rw [hnil] at hoff
      cases hoff
    · have hzero := htrue 0 (Nat.le_refl 0) (by rw [hlen]; exact List.length_pos_iff.mpr hnil)
      rw [hstart 0 (List.length_pos_iff.mpr hnil), startOf_zero, decide_eq_true_eq] at hzero
      omega
  obtain ⟨k, rfl⟩ := Nat.exists_eq_succ_of_ne_zero hpos
  have hk : k < units.length := by omega
  refine ⟨k, units[k], ?_, List.getElem?_eq_getElem hk, ?_, ?_⟩
  · have hchunks : r.chunks.length = units.length := List.length_map _
    show (if search r.starts.length (fun i => decide (off < r.starts.getD i 0)) = 0 ∨ _ then none else _) = _
    rw [hi, if_neg]
    · rfl
    · show ¬ (k + 1 = 0 ∨ r.chunks.length < k + 1)
      omega
  · have hbelow := hfalse k (Nat.lt_succ_self k)
    rw [hstart k hk] at hbelow
    simpa using hbelow
  · rw [← startOf_succ (List.getElem?_eq_getElem hk)]
    by_cases hlast : k + 1 < units.length
    · have habove := htrue (k + 1) (Nat.le_refl _) (by omega)
      rw [hstart _ hlast] at habove
      simpa using habove
    · have hall : k + 1 = units.length := by omega
      rwa [hall, startOf_length]

theorem evict_sub (data : List (Nat × Bytes)) (order : List Nat) : ∀ x ∈ (evict data order).data, x ∈ data := by
  induction order generalizing data with
  | nil => exact fun x hx => hx
  | cons idx order ih =>
    rw [evict]
    split
    · exact fun x hx => List.mem_of_mem_filter (ih _ x hx)
    · exact fun x hx => hx

theorem chunk_spec (hserved : Served fetch e units) {c : Cache} (hc : c.Sound units) {i : Nat} {d : Bytes}
    (hi : units[i]? = some d) :
    ∃ c', (streamOf e units).chunk fetch c i = (.ok d, c') ∧ c'.Sound units := by
  have hch : (streamOf e units).chunks[i]? = some (chunkOf e d) := by
    show (units.map (chunkOf e))[i]? = _
    rw [List.getElem?_map, hi]
    rfl
  have hd : d ∈ units := List.mem_of_getElem? hi
  rw [StreamReaderAt.chunk, hch]
  cases hlook : c.data.lookup i with
  | some d' =>
    obtain ⟨data₁, data₂, hdata, -⟩ := List.lookup_eq_some_iff.mp hlook
    have hmem := hc i d' (by rw [hdata]; simp)
    rw [hi] at hmem
    cases hmem
    exact ⟨c, rfl, hc⟩
  | none =>
    dsimp only
    rw [hserved.fetched d hd]
    refine ⟨_, rfl, fun idx d' hmem => ?_⟩
    rcases List.mem_cons.mp (evict_sub _ _ _ hmem) with heq | hmem
    · cases heq
      exact hi
    · exact hc idx d' hmem

theorem readLoop_spec (hserved : Served fetch e units) (room off : Nat) {c : Cache} (hc : c.Sound units) :
    ∃ err c', (streamOf e units).readLoop fetch room off c = ((units.flatten.drop off).take room, err, c') ∧
      c'.Sound units ∧ (off + room ≤ units.flatten.length → err = none) := by
  induction room using Nat.strong_induction_on generalizing off c with
  | _ room ih =>
    rw [StreamReaderAt.readLoop]
    by_cases hroom : room = 0
    · rw [dif_pos hroom, hroom]
      exact ⟨none, c, rfl, hc, fun _ => rfl⟩
    rw [dif_neg hroom, streamOf_size]
    by_cases hend : units.flatten.length ≤ off
    · rw [if_pos (Int.ofNat_le.mpr hend), List.drop_eq_nil_of_le hend]
      exact ⟨_, c, by rw [List.take_nil], hc, fun h => by omega⟩
    rw [if_neg (mt Int.ofNat_le.mp hend)]
    obtain ⟨i, d, hat, hi, hlow, hhigh⟩ := chunkAt_spec (e := e) (by omega : off < units.flatten.length)
    obtain ⟨c', hchunk, hc'⟩ := chunk_spec hserved hc hi
    have hlt : i < units.length := (List.getElem?_eq_some_iff.mp hi).1
    have hstart : (streamOf e units).starts.getD i 0 = startOf units i := by
      rw [← Nat.zero_add (startOf units i)]
      exact startsFrom_getD units 0 i hlt
    have hpart : d.drop (off - startOf units i) ≠ [] := by
      rw [Ne, List.drop_eq_nil_iff]
      omega
    have hdrop := drop_flatten hi hlow hhigh
    generalize hgot : (d.drop (off - startOf units i)).take room = got
    have hpos : 0 < got.length := by
      rw [← hgot, List.length_take]
      have hlen := List.length_pos_iff.mpr hpart
      omega
    have hle : got.length ≤ room := by
      rw [← hgot, List.length_take]
      omega
    have hpre : got = (units.flatten.drop off).take got.length := by
      rw [← List.prefix_iff_eq_take, hdrop, ← hgot]
      exact (List.take_prefix _ _).trans (List.prefix_append _ _)
    obtain ⟨err, c'', hrest, hc'', herr⟩ := ih (room - got.length) (by omega) (off + got.length) hc'
    refine ⟨err, c'', ?_, hc'', fun h => herr (by omega)⟩
    rw [hat]
    dsimp only
    rw [hchunk]
    dsimp only
    rw [hstart, Int.toNat_sub, dif_neg hpart, hgot, hrest]
    have htake : (units.flatten.drop off).take room =
        got ++ (units.flatten.drop (off + got.length)).take (room - got.length) := by
      have hsum : room = got.length + (room - got.length) := by omega
      conv_lhs => rw [hsum, List.take_add, ← hpre, List.drop_drop]
    rw [htake]

theorem readAt_spec (hserved : Served fetch e units) {len off : Nat} {c : Cache} (hc : c.Sound units)
    (hle : off + len ≤ units.flatten.length) (hpos : 0 < len) :
    ∃ c', (streamOf e units).readAt fetch len off c = ((units.flatten.drop off).take len, none, c') ∧
      c'.Sound units := by
  obtain ⟨err, c', hread, hc', herr⟩ := readLoop_spec hserved len off hc
  rw [StreamReaderAt.readAt, streamOf_size, if_neg (by omega), hread, herr hle]
  exact ⟨c', rfl, hc'⟩

theorem sound_empty : Cache.Sound units ⟨[], []⟩ := fun _ _ h => nomatch h

theorem contents_eq (hserved : Served fetch e units) : (streamOf e units).contents fetch = units.flatten := by
  rw [StreamReaderAt.contents, streamOf_size]
  by_cases hnil : units.flatten = []
  · rw [StreamReaderAt.readAt, streamOf_size, hnil]
    rfl
  · obtain ⟨c', hread, -⟩ := readAt_spec hserved sound_empty (Nat.le_of_eq (Nat.zero_add _))
      (List.length_pos_iff.mpr hnil)
    rw [Int.toNat_natCast, hread, List.drop_zero, List.take_length]

theorem section_spec (hserved : Served fetch e units) {off n : Nat} (hle : off + n ≤ units.flatten.length)
    (lens : List Nat) (hlens : ∀ len ∈ lens, 0 < len) {pos : Nat} (hpos : pos ≤ n) {c : Cache}
    (hc : c.Sound units) :
    ∃ err, Section.read fetch ⟨streamOf e units, off, n⟩ lens pos c =
      ((((units.flatten.drop off).take n).drop pos).take lens.sum, err) ∧
        (err = none ∨ err = some .eof ∧ n ≤ pos + lens.sum) := by
  induction lens generalizing pos c with
  | nil => exact ⟨none, by simp [Section.read], .inl rfl⟩
  | cons len lens ih =>
    rw [Section.read]
    by_cases hend : n ≤ pos
    · rw [if_pos hend]
      refine ⟨some .eof, ?_, .inr ⟨rfl, by omega⟩⟩
      rw [List.drop_eq_nil_of_le, List.take_nil]
      rw [List.length_take]
      omega
    · have hlen := hlens len List.mem_cons_self
      have hroom : off + pos + min len (n - pos) ≤ units.flatten.length := by omega
      obtain ⟨c', hread, hc'⟩ := readAt_spec hserved hc hroom (by omega)
      generalize hgot : (units.flatten.drop (off + pos)).take (min len (n - pos)) = got at hread
      have hgotlen : got.length = min len (n - pos) := by
        rw [← hgot, List.length_take, List.length_drop]
        omega
      have hpos' : pos + got.length ≤ n := by omega
      obtain ⟨err, hrest, herr⟩ := ih (fun l hl => hlens l (List.mem_cons_of_mem _ hl)) hpos' hc'
      refine ⟨err, ?_, herr.imp_right fun h => ⟨h.1, by rw [List.sum_cons]; omega⟩⟩
      have hextent : ((units.flatten.drop off).take n).drop pos =
          (units.flatten.drop (off + pos)).take (n - pos) := by
        rw [List.drop_take, List.drop_drop]
      rw [← List.drop_drop] at hrest
      generalize ((units.flatten.drop off).take n).drop pos = left at hextent hrest ⊢
      have hleft : left.length = n - pos := by
        rw [hextent, List.length_take, List.length_drop]
        omega
      have hfirst : left.take got.length = got := by
        rw [hextent, List.take_take, hgotlen, ← hgot]
        congr 1
        omega
      have hwhole : left.take (len + lens.sum) = left.take (got.length + lens.sum) := by
        by_cases hshort : len ≤ n - pos
        · rw [hgotlen, Nat.min_eq_left hshort]
        · rw [List.take_of_length_le (by omega), List.take_of_length_le (by omega)]
      rw [if_neg hend]
      dsimp only
      rw [hread]
      dsimp only
      rw [hrest, List.sum_cons, hwhole, List.take_add, hfirst]

end Read

end ProxBack.Browse
