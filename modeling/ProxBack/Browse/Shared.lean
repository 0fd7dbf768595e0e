import ProxBack.Browse.Stream
import ProxBack.Engine.Authentic

/-! A `StreamReaderAt` that any number of goroutines read at once. The lock is held to look a chunk
up and to insert one, and never while a chunk is fetched. -/
namespace ProxBack.Browse
open Lib Engine

inductive ReadAtErr where
  | negative (off : Int)
  | read (err : ReadErr)
deriving DecidableEq

/-- Where a call of `ReadAt` stands: at the head of its loop, at a fetch, at the insertion of what
was fetched, or at its end. -/
inductive ReadState where
  | reading
  | fetching (idx : Nat)
  | storing (idx : Nat) (data : Bytes)
  | returned (err : Option ReadAtErr)
deriving DecidableEq

/-- A call with a buffer of some length, of which it has filled `got`. -/
structure ReadCall where
  off : Int
  len : Nat
  got : Bytes
  st : ReadState
deriving DecidableEq

/-- `ReadChunk`, answered by a target as it is at that moment. -/
def fetchOn (e : Engine) (t : Target) (x : Choice) (ch : Chunk) : Except Engine.Err Bytes :=
  (Prog.run (fun c s => ((Target.exec c x t).1, s)) (e.readChunk ch) ()).1

namespace ReadCall

def pos (c : ReadCall) : Nat := c.off.toNat + c.got.length

def enter (r : StreamReaderAt) (off : Int) (len : Nat) : ReadCall :=
  if off < 0 then ⟨off, len, [], .returned (some (.negative off))⟩
  else if r.size ≤ off then ⟨off, len, [], .returned (some (.read .eof))⟩
  else ⟨off, len, [], .reading⟩

def copy (r : StreamReaderAt) (c : ReadCall) (idx : Nat) (data : Bytes) : ReadCall :=
  let part := data.drop (c.pos - r.starts.getD idx 0).toNat
  if part = [] then { c with st := .returned (some (.read (.short idx))) }
  else { c with got := c.got ++ part.take (c.len - c.got.length), st := .reading }

def step (e : Engine) (r : StreamReaderAt) (t : Target) (x : Choice) (cache : Cache) (c : ReadCall) :
    Option (Cache × ReadCall) :=
  match c.st with
  | .reading =>
    if c.len ≤ c.got.length then some (cache, { c with st := .returned none })
    else if r.size ≤ c.pos then some (cache, { c with st := .returned (some (.read .eof)) })
    else
      match r.chunkAt c.pos with
      | none => some (cache, { c with st := .returned (some (.read .outOfRange)) })
      | some idx =>
        match cache.data.lookup idx with
        | some data => some (cache, c.copy r idx data)
        | none => some (cache, { c with st := .fetching idx })
  | .fetching idx =>
    match r.chunks[idx]? with
    | none => some (cache, { c with st := .returned (some (.read .outOfRange)) })
    | some ch =>
      match fetchOn e t x ch with
      | .error err => some (cache, { c with st := .returned (some (.read (.chunk idx err))) })
      | .ok data => some (cache, { c with st := .storing idx data })
  | .storing idx data =>
    match cache.data.lookup idx with
    | some existing => some (cache, c.copy r idx existing)
    | none => some (cache.put idx data, c.copy r idx data)
  | .returned _ => none

end ReadCall

structure Readers (ι : Type) where
  cache : Cache
  calls : ι → Option ReadCall

/-- A goroutine goes on while the target is as `t` and answers a fetch as `x` has it. -/
inductive ReadersAction (ι : Type) where
  | start (i : ι) (off : Int) (len : Nat)
  | go (i : ι) (t : Target) (x : Choice)
  | leave (i : ι)

variable {ι : Type} [DecidableEq ι]

def Readers.step (e : Engine) (r : StreamReaderAt) : ReadersAction ι → Readers ι → Option (Readers ι)
  | .start i off len, s =>
    match s.calls i with
    | none => some { s with calls := Function.update s.calls i (some (.enter r off len)) }
    | some _ => none
  | .go i t x, s =>
    match s.calls i with
    | none => none
    | some c =>
      (c.step e r t x s.cache).map fun out => ⟨out.1, Function.update s.calls i (some out.2)⟩
  | .leave i, s =>
    match s.calls i with
    | some ⟨_, _, _, .returned _⟩ => some { s with calls := Function.update s.calls i none }
    | _ => none

def readers (ι : Type) [DecidableEq ι] (e : Engine) (dm : DiskManifest) :
    System (Readers ι) (ReadersAction ι) where
  step := Readers.step e (newStreamReaderAt dm)

def Readers.initial : Readers ι := ⟨⟨[], []⟩, fun _ => none⟩

/-- The cache holds the chunks that are in line, each of them once, and no more than it may. -/
structure Cache.Tidy (c : Cache) : Prop where
  listed : (c.data.map Prod.fst).Perm c.order
  once : c.order.Nodup
  bounded : c.order.length ≤ defaultCacheChunks

section Cache

variable {c : Cache} {data : List (Nat × Bytes)} {order : List Nat} {idx : Nat}

theorem Cache.Tidy.size (h : c.Tidy) : c.data.length ≤ defaultCacheChunks := by
  have hlen := h.listed.length_eq
  rw [List.length_map] at hlen
  exact hlen ▸ h.bounded

@[grind =] theorem evict_of_le (data : List (Nat × Bytes)) (h : order.length ≤ defaultCacheChunks) :
    evict data order = ⟨data, order⟩ := by
  cases order with
  | nil => rfl
  | cons idx order => rw [evict, if_neg (Nat.not_lt.mpr h)]

theorem evict_tidy (hlisted : (data.map Prod.fst).Perm order) (honce : order.Nodup)
    (hlen : order.length ≤ defaultCacheChunks + 1) : (evict data order).Tidy := by
  by_cases hfit : order.length ≤ defaultCacheChunks
  · rw [evict_of_le data hfit]
    exact ⟨hlisted, honce, hfit⟩
  cases order with
  | nil => exact absurd (Nat.zero_le _) hfit
  | cons idx order =>
    obtain ⟨hidx, honce⟩ := List.nodup_cons.mp honce
    have hrest : order.length ≤ defaultCacheChunks := Nat.le_of_succ_le_succ hlen
    rw [evict, if_pos (Nat.not_le.mp hfit), evict_of_le _ hrest]
    refine ⟨?_, honce, hrest⟩
    have hkeys := hlisted.filter fun a => decide (a ≠ idx)
    have hsame : order.filter (fun a => decide (a ≠ idx)) = order := by
      refine List.filter_eq_self.mpr fun a ha => decide_eq_true ?_
      rintro rfl
      exact hidx ha
    rw [List.filter_cons_of_neg (by simp), hsame, List.filter_map] at hkeys
    exact hkeys

theorem Cache.Tidy.put (h : c.Tidy) (hidx : c.data.lookup idx = none) (data : Bytes) :
    (c.put idx data).Tidy := by
  have hnew : idx ∉ c.order := by
    intro hmem
    obtain ⟨entry, hentry, rfl⟩ := List.mem_map.mp (h.listed.mem_iff.mpr hmem)
    simpa using List.lookup_eq_none_iff.mp hidx entry hentry
  refine evict_tidy ?_ ?_ ?_
  · exact (h.listed.cons idx).trans (List.perm_append_singleton idx c.order).symm
  · exact (List.perm_append_singleton idx c.order).nodup_iff.mpr (List.nodup_cons.mpr ⟨hnew, h.once⟩)
  · rw [List.length_append]
    exact Nat.succ_le_succ h.bounded

end Cache

section Call

variable {e : Engine} {units : List Bytes} {lost : Nat → Prop} {may : Prop} {t : Target} {x : Choice}
  {ch : Chunk} {data : Bytes} {c c' : ReadCall} {cache cache' : Cache}

theorem fetchOn_held (h : fetchOn e t x ch = .ok data) : Held e t ch data := by
  let answer : (c : Call) → Unit → Reply c × Unit := fun c s => ((Target.exec c x t).1, s)
  have hanswer : ∀ c s, ∃ x, (Target.exec c x t).1 = (answer c s).1 := fun c s => ⟨x, rfl⟩
  exact readChunk_answered.run hanswer () data h

theorem fetchOn_fine (h : Held e t ch data) : fetchOn e t .fine ch = .ok data := by
  obtain ⟨o, ho, rfl, hhash, hsize⟩ := h
  have hget : (Target.exec (.getBytes ch.sha256) .fine t).1 = .ok o.data := by
    simp only [Target.exec, ho]
    rfl
  unfold fetchOn readChunk
  rw [Prog.run_call, hget]
  dsimp only
  rw [if_neg (not_not.mpr hhash), if_neg (by tauto)]
  rfl

def In (units : List Bytes) (idx pos : Nat) (d : Bytes) : Prop :=
  units[idx]? = some d ∧ startOf units idx ≤ pos ∧ pos < startOf units idx + d.length

/-- How a target answers the fetches of a stream: with nothing but what the stream was made of, with no
chunk that is lost and, unless it may fail, with all others. -/
structure Answers (e : Engine) (units : List Bytes) (lost : Nat → Prop) (may : Prop) (t : Target)
    (x : Choice) : Prop where
  right : ∀ d ∈ units, ∀ d', Held e t (chunkOf e d) d' → d' = d
  gone : ∀ j d, lost j → units[j]? = some d → ¬ Held e t (chunkOf e d) d
  sure : ¬ may → x = .fine ∧ ∀ d ∈ units, Held e t (chunkOf e d) d

structure Cache.Spared (units : List Bytes) (lost : Nat → Prop) (c : Cache) : Prop where
  sound : c.Sound units
  spared : ∀ idx d, (idx, d) ∈ c.data → ¬ lost idx

structure ReadCall.Filled (units : List Bytes) (lost : Nat → Prop) (c : ReadCall) : Prop where
  room : c.got.length ≤ c.len
  bytes : c.got <+: units.flatten.drop c.off.toNat
  spared : ∀ j, lost j → ∀ p, c.off.toNat ≤ p → p < c.pos → ¬ (startOf units j ≤ p ∧ p < startOf units (j + 1))

def ReadCall.Stands (units : List Bytes) (lost : Nat → Prop) (may : Prop) (c : ReadCall) : Prop :=
  match c.st with
  | .reading => 0 ≤ c.off
  | .fetching idx => 0 ≤ c.off ∧ c.got.length < c.len ∧ ∃ d, In units idx c.pos d
  | .storing idx data => 0 ≤ c.off ∧ c.got.length < c.len ∧ ¬ lost idx ∧ In units idx c.pos data
  | .returned none => c.got.length = c.len
  | .returned (some (.negative _)) => c.off < 0
  | .returned (some (.read .eof)) => units.flatten.length ≤ c.pos ∧ (0 < c.len → c.got.length < c.len)
  | .returned (some (.read (.chunk _ _))) => may
  | .returned (some (.read .outOfRange)) | .returned (some (.read (.short _))) => False

theorem In.unit {idx pos : Nat} {d : Bytes} (h : In units idx pos d) : d ∈ units :=
  List.mem_of_getElem? h.1

theorem In.below {idx pos : Nat} {d : Bytes} (h : In units idx pos d) : pos < startOf units (idx + 1) := by
  rw [startOf_succ h.1]
  exact h.2.2

theorem ReadCall.Filled.with_st (h : c.Filled units lost) (st : ReadState) :
    ReadCall.Filled units lost { c with st := st } := ⟨h.room, h.bytes, h.spared⟩

theorem ReadCall.copy_filled {idx : Nat} (hc : c.Filled units lost) (hin : In units idx c.pos data)
    (hlost : ¬ lost idx) (hoff : 0 ≤ c.off) :
    (c.copy (streamOf e units) idx data).Filled units lost ∧
      (c.copy (streamOf e units) idx data).Stands units lost may := by
  obtain ⟨hunit, hlow, hhigh⟩ := hin
  have hlt : idx < units.length := (List.getElem?_eq_some_iff.mp hunit).1
  have hstart : (streamOf e units).starts.getD idx 0 = startOf units idx := by
    rw [← Nat.zero_add (startOf units idx)]
    exact startsFrom_getD units 0 idx hlt
  have hpart : data.drop (c.pos - startOf units idx) ≠ [] := by
    rw [Ne, List.drop_eq_nil_iff]
    omega
  unfold ReadCall.copy
  rw [hstart, Int.toNat_sub, if_neg hpart]
  refine ⟨⟨?_, ?_, ?_⟩, hoff⟩
  · show (c.got ++ _).length ≤ c.len
    rw [List.length_append, List.length_take]
    have hroom := hc.room
    omega
  · show c.got ++ _ <+: _
    obtain ⟨rest, hrest⟩ := hc.bytes
    have hdrop : units.flatten.drop c.pos = rest := by
      rw [ReadCall.pos, ← List.drop_drop, ← hrest, List.drop_left]
    rw [← hrest, ← hdrop, drop_flatten hunit hlow hhigh]
    exact (List.prefix_append_right_inj c.got).mpr ((List.take_prefix _ _).trans (List.prefix_append _ _))
  · intro j hj p hp hp' hwithin
    by_cases hold : p < c.pos
    · exact hc.spared j hj p hp hold hwithin
    · have hlen : p < startOf units (idx + 1) := by
        simp only [ReadCall.pos, List.length_append, List.length_take, List.length_drop] at hp' hlow hhigh
        rw [startOf_succ hunit]
        omega
      simp only at hwithin hp
      rcases Nat.lt_trichotomy j idx with hlt | rfl | hlt
      · have hmono : startOf units (j + 1) ≤ startOf units idx := startOf_mono units hlt
        omega
      · exact hlost hj
      · have hmono : startOf units (idx + 1) ≤ startOf units j := startOf_mono units hlt
        omega

theorem ReadCall.enter_filled (e : Engine) (off : Int) (len : Nat) :
    (ReadCall.enter (streamOf e units) off len).Filled units lost ∧
      (ReadCall.enter (streamOf e units) off len).Stands units lost may := by
  have hempty : ∀ st, ReadCall.Filled units lost ⟨off, len, [], st⟩ := fun st => by
    refine ⟨Nat.zero_le len, List.nil_prefix, fun j _ p hp hp' => ?_⟩
    exact absurd hp' (Nat.not_lt.mpr hp)
  unfold ReadCall.enter
  split
  · rename_i hneg
    exact ⟨hempty _, hneg⟩
  rename_i hoff
  split
  · rename_i hend
    rw [streamOf_size] at hend
    have hover : units.flatten.length ≤ off.toNat := by omega
    exact ⟨hempty _, hover, id⟩
  · exact ⟨hempty _, Int.not_lt.mp hoff⟩

theorem Cache.Spared.lookup (h : cache.Spared units lost) {idx : Nat} {d : Bytes}
    (hlook : cache.data.lookup idx = some d) : units[idx]? = some d ∧ ¬ lost idx := by
  obtain ⟨data₁, data₂, hdata, -⟩ := List.lookup_eq_some_iff.mp hlook
  have hmem : (idx, d) ∈ cache.data := by
    rw [hdata]
    exact List.mem_append_right _ List.mem_cons_self
  exact ⟨h.sound idx d hmem, h.spared idx d hmem⟩

theorem Cache.Spared.put (h : cache.Spared units lost) {idx : Nat} (hunit : units[idx]? = some data)
    (hlost : ¬ lost idx) : (cache.put idx data).Spared units lost := by
  constructor
  · intro i d hmem
    rcases List.mem_cons.mp (evict_sub _ _ _ hmem) with heq | hmem
    · cases heq
      exact hunit
    · exact h.sound i d hmem
  · intro i d hmem
    rcases List.mem_cons.mp (evict_sub _ _ _ hmem) with heq | hmem
    · cases heq
      exact hlost
    · exact h.spared i d hmem

theorem ReadCall.step_sound (hx : Answers e units lost may t x) (hcache : cache.Spared units lost)
    (hfilled : c.Filled units lost) (hstands : c.Stands units lost may)
    (h : c.step e (streamOf e units) t x cache = some (cache', c')) :
    cache'.Spared units lost ∧ c'.Filled units lost ∧ c'.Stands units lost may := by
  obtain ⟨off, len, got, st⟩ := c
  cases st with
  | reading =>
    have hoff : 0 ≤ off := hstands
    unfold ReadCall.step at h
    dsimp only at h
    split at h
    · rename_i hfull
      cases h
      exact ⟨hcache, hfilled.with_st _, Nat.le_antisymm hfilled.room hfull⟩
    rename_i hroom
    rw [streamOf_size] at h
    split at h
    · rename_i hend
      cases h
      exact ⟨hcache, hfilled.with_st _, Int.ofNat_le.mp hend, fun _ => Nat.not_le.mp hroom⟩
    rename_i hend
    obtain ⟨idx, d, hat, hin⟩ := chunkAt_spec (e := e) (Nat.not_le.mp (mt Int.ofNat_le.mpr hend))
    rw [hat] at h
    dsimp only at h
    cases hlook : cache.data.lookup idx with
    | none =>
      rw [hlook] at h
      cases h
      exact ⟨hcache, hfilled.with_st _, hoff, Nat.not_le.mp hroom, d, hin⟩
    | some data =>
      rw [hlook] at h
      cases h
      obtain ⟨hunit, hlost⟩ := hcache.lookup hlook
      cases hin.1.symm.trans hunit
      exact ⟨hcache, ReadCall.copy_filled hfilled hin hlost hoff⟩
  | fetching idx =>
    obtain ⟨hoff, hroom, d, hin⟩ := hstands
    have hch : (streamOf e units).chunks[idx]? = some (chunkOf e d) := by
      show (units.map (chunkOf e))[idx]? = _
      rw [List.getElem?_map, hin.1]
      rfl
    unfold ReadCall.step at h
    dsimp only at h
    rw [hch] at h
    dsimp only at h
    split at h
    · rename_i err herr
      cases h
      refine ⟨hcache, hfilled.with_st _, ?_⟩
      show may
      by_contra hmay
      obtain ⟨rfl, hall⟩ := hx.sure hmay
      rw [fetchOn_fine (hall d hin.unit)] at herr
      cases herr
    · rename_i data hdata
      cases h
      have hheld := fetchOn_held hdata
      obtain rfl := hx.right d hin.unit data hheld
      exact ⟨hcache, hfilled.with_st _, hoff, hroom, fun hlost => hx.gone idx data hlost hin.1 hheld, hin⟩
  | storing idx data =>
    obtain ⟨hoff, hroom, hlost, hin⟩ := hstands
    unfold ReadCall.step at h
    dsimp only at h
    cases hlook : cache.data.lookup idx with
    | none =>
      rw [hlook] at h
      cases h
      exact ⟨hcache.put hin.1 hlost, ReadCall.copy_filled hfilled hin hlost hoff⟩
    | some existing =>
      rw [hlook] at h
      cases h
      cases hin.1.symm.trans (hcache.lookup hlook).1
      exact ⟨hcache, ReadCall.copy_filled hfilled hin hlost hoff⟩
  | returned err => cases h

theorem ReadCall.step_cache {r : StreamReaderAt} (h : c.step e r t x cache = some (cache', c')) :
    cache' = cache ∨ ∃ idx data, cache.data.lookup idx = none ∧ cache' = cache.put idx data := by
  obtain ⟨off, len, got, st⟩ := c
  unfold ReadCall.step at h
  cases st with
  | reading =>
    dsimp only at h
    repeat' split at h
    all_goals
      cases h
      exact .inl rfl
  | fetching idx =>
    dsimp only at h
    repeat' split at h
    all_goals
      cases h
      exact .inl rfl
  | storing idx data =>
    dsimp only at h
    split at h
    · cases h
      exact .inl rfl
    · rename_i hlook
      cases h
      exact .inr ⟨idx, data, hlook, rfl⟩
  | returned err => cases h

theorem ReadCall.Filled.ends (hfilled : c.Filled units lost) (hstands : c.Stands units lost may)
    {err : Option ReadAtErr} (hst : c.st = .returned err) (hoff : 0 ≤ c.off) (hlen : 0 < c.len) :
    (c.got = (units.flatten.drop c.off.toNat).take c.len ∧
        err = if c.got.length < c.len then some (.read .eof) else none) ∨
      (may ∧ ∃ idx cause, err = some (.read (.chunk idx cause))) := by
  unfold ReadCall.Stands at hstands
  rw [hst] at hstands
  have hgot := List.prefix_iff_eq_take.mp hfilled.bytes
  rcases err with - | (off | eof | - | ⟨idx, cause⟩ | idx)
  · have hfull : c.got.length = c.len := hstands
    refine .inl ⟨hfull ▸ hgot, ?_⟩
    rw [if_neg (by omega)]
  · have hneg : c.off < 0 := hstands
    omega
  · obtain ⟨hend, hshort⟩ : units.flatten.length ≤ c.pos ∧ (0 < c.len → c.got.length < c.len) := hstands
    have hshort := hshort hlen
    refine .inl ⟨?_, by rw [if_pos hshort]⟩
    have hall : (units.flatten.drop c.off.toNat).length ≤ c.got.length := by
      rw [List.length_drop]
      unfold ReadCall.pos at hend
      omega
    rw [List.take_of_length_le (by omega)]
    exact hfilled.bytes.eq_of_length_le hall
  · exact hstands.elim
  · exact .inr ⟨hstands, idx, cause, rfl⟩
  · exact hstands.elim

def ReadCall.Left (c : ReadCall) (n : Nat) : Prop :=
  match c.st with
  | .reading => n = 3 * (c.len - c.got.length) + 1
  | .fetching _ => c.got.length < c.len ∧ n = 3 * (c.len - c.got.length)
  | .storing _ _ => c.got.length < c.len ∧ n + 1 = 3 * (c.len - c.got.length)
  | .returned _ => n = 0

theorem ReadCall.copy_left {r : StreamReaderAt} (hroom : c.got.length < c.len) (idx : Nat) (data : Bytes) :
    ∃ m, m + 2 ≤ 3 * (c.len - c.got.length) ∧ (c.copy r idx data).Left m := by
  unfold ReadCall.copy
  dsimp only
  split
  · exact ⟨0, by omega, rfl⟩
  · rename_i hpart
    refine ⟨_, ?_, rfl⟩
    have hpos := List.length_pos_iff.mpr hpart
    simp only [List.length_append, List.length_take]
    omega

theorem ReadCall.step_left {r : StreamReaderAt} {n : Nat} (hleft : c.Left n)
    (h : c.step e r t x cache = some (cache', c')) : ∃ m, m < n ∧ c'.Left m := by
  obtain ⟨off, len, got, st⟩ := c
  unfold ReadCall.step at h
  cases st with
  | reading =>
    have hn : n = 3 * (len - got.length) + 1 := hleft
    have hpos : 0 < n := by omega
    dsimp only at h
    split at h
    · cases h
      exact ⟨0, hpos, rfl⟩
    rename_i hroom
    have hroom : got.length < len := Nat.not_le.mp hroom
    split at h
    · cases h
      exact ⟨0, hpos, rfl⟩
    split at h
    · cases h
      exact ⟨0, hpos, rfl⟩
    rename_i idx _
    split at h
    · rename_i data _
      cases h
      obtain ⟨m, hm, hleft⟩ := ReadCall.copy_left (c := ⟨off, len, got, .reading⟩) (r := r) hroom idx data
      exact ⟨m, by dsimp only at hm; omega, hleft⟩
    · cases h
      exact ⟨3 * (len - got.length), by omega, hroom, rfl⟩
  | fetching idx =>
    obtain ⟨hroom, hn⟩ : got.length < len ∧ n = 3 * (len - got.length) := hleft
    dsimp only at h
    split at h
    · cases h
      exact ⟨0, by omega, rfl⟩
    split at h
    · cases h
      exact ⟨0, by omega, rfl⟩
    · cases h
      exact ⟨3 * (len - got.length) - 1, by omega, hroom, by dsimp only; omega⟩
  | storing idx data =>
    obtain ⟨hroom, hn⟩ : got.length < len ∧ n + 1 = 3 * (len - got.length) := hleft
    have hcopy : ∀ d, ∃ m, m < n ∧ (ReadCall.copy r ⟨off, len, got, .storing idx data⟩ idx d).Left m := by
      intro d
      obtain ⟨m, hm, hleft⟩ :=
        ReadCall.copy_left (c := ⟨off, len, got, .storing idx data⟩) (r := r) hroom idx d
      exact ⟨m, by dsimp only at hm; omega, hleft⟩
    dsimp only at h
    split at h
    · cases h
      exact hcopy _
    · cases h
      exact hcopy _
  | returned err => cases h

theorem ReadCall.enter_left (r : StreamReaderAt) (off : Int) (len : Nat) :
    ∃ m, m ≤ 3 * len + 1 ∧ (ReadCall.enter r off len).Left m := by
  unfold ReadCall.enter
  split
  · exact ⟨0, Nat.zero_le _, rfl⟩
  split
  · exact ⟨0, Nat.zero_le _, rfl⟩
  · exact ⟨_, Nat.le_refl _, rfl⟩

theorem ReadCall.step_isSome (e : Engine) (r : StreamReaderAt) (t : Target) (x : Choice) (cache : Cache)
    (c : ReadCall) : (∃ err, c.st = .returned err) ∨ (c.step e r t x cache).isSome := by
  obtain ⟨off, len, got, st⟩ := c
  unfold ReadCall.step
  cases st with
  | returned err => exact .inl ⟨err, rfl⟩
  | reading =>
    right
    dsimp only
    repeat' split
    all_goals rfl
  | fetching idx =>
    right
    dsimp only
    repeat' split
    all_goals rfl
  | storing idx data =>
    right
    dsimp only
    split <;> rfl

end Call

def ReadersAction.Finds (P : Target → Choice → Prop) : ReadersAction ι → Prop
  | .go _ t x => P t x
  | .start _ _ _ | .leave _ => True

def ReadersAction.moves (i : ι) : ReadersAction ι → Bool
  | .go j _ _ => decide (j = i)
  | .start _ _ _ | .leave _ => false

section Runs

variable {e : Engine} {dm : DiskManifest} {units : List Bytes} {lost : Nat → Prop} {may : Prop}
  {s s' : Readers ι} {acts : List (ReadersAction ι)} {i : ι} {a : ReadersAction ι}

inductive ReadersStep (e : Engine) (r : StreamReaderAt) (s : Readers ι) : ReadersAction ι → Readers ι → Prop where
  | start {i off len} (h : s.calls i = none) :
      ReadersStep e r s (.start i off len)
        { s with calls := Function.update s.calls i (some (.enter r off len)) }
  | go {i t x c cache c'} (h : s.calls i = some c) (hstep : c.step e r t x s.cache = some (cache, c')) :
      ReadersStep e r s (.go i t x) ⟨cache, Function.update s.calls i (some c')⟩
  | leave {i c err} (h : s.calls i = some c) (hst : c.st = .returned err) :
      ReadersStep e r s (.leave i) { s with calls := Function.update s.calls i none }

theorem Readers.step_cases {r : StreamReaderAt} (h : Readers.step e r a s = some s') :
    ReadersStep e r s a s' := by
  cases a with
  | start i off len =>
    rw [Readers.step] at h
    split at h
    · rename_i hnone
      cases h
      exact .start hnone
    · cases h
  | go i t x =>
    rw [Readers.step] at h
    split at h
    · cases h
    · rename_i c hc
      obtain ⟨out, hout, rfl⟩ := Option.map_eq_some_iff.mp h
      exact .go hc hout
  | leave i =>
    rw [Readers.step] at h
    split at h
    · rename_i hc
      cases h
      exact .leave hc rfl
    · cases h

structure Readers.Sound (units : List Bytes) (lost : Nat → Prop) (may : Prop) (s : Readers ι) : Prop where
  cache : s.cache.Spared units lost
  calls : ∀ i c, s.calls i = some c → c.Filled units lost ∧ c.Stands units lost may

omit [DecidableEq ι] in
theorem Readers.initial_sound : (Readers.initial : Readers ι).Sound units lost may :=
  ⟨⟨sound_empty, nofun⟩, nofun⟩

theorem Readers.run_sound (hr : newStreamReaderAt dm = streamOf e units)
    (hrun : (readers ι e dm).Run (fun _ a => a.Finds (Answers e units lost may)) s acts s')
    (hs : s.Sound units lost may) : s'.Sound units lost may := by
  refine hrun.invariant (I := Readers.Sound units lost may) (fun a s s' hs ha hstep => ?_) hs
  have hstep : Readers.step e (newStreamReaderAt dm) a s = some s' := hstep
  rw [hr] at hstep
  have hset : ∀ {i : ι} {c'}, c'.Filled units lost ∧ c'.Stands units lost may →
      ∀ j c, Function.update s.calls i (some c') j = some c → c.Filled units lost ∧ c.Stands units lost may := by
    intro i c' hc' j c hc
    by_cases hj : j = i
    · subst hj
      rw [Function.update_self] at hc
      cases hc
      exact hc'
    · rw [Function.update_of_ne hj] at hc
      exact hs.calls j c hc
  cases Readers.step_cases hstep with
  | start hnone => exact ⟨hs.cache, hset (ReadCall.enter_filled e _ _)⟩
  | go hc hout =>
    obtain ⟨hfilled, hstands⟩ := hs.calls _ _ hc
    obtain ⟨hcache, hc'⟩ := ReadCall.step_sound ha hs.cache hfilled hstands hout
    exact ⟨hcache, hset hc'⟩
  | @leave i _ _ hc hst =>
    refine ⟨hs.cache, fun j c hc => ?_⟩
    dsimp only at hc
    by_cases hj : j = i
    · rw [hj, Function.update_self] at hc
      cases hc
    · rw [Function.update_of_ne hj] at hc
      exact hs.calls j c hc

theorem Readers.run_tidy {ok : Readers ι → ReadersAction ι → Prop}
    (hrun : (readers ι e dm).Run ok s acts s') (hs : s.cache.Tidy) : s'.cache.Tidy := by
  refine hrun.invariant (I := fun s => s.cache.Tidy) (fun a s s' hs _ hstep => ?_) hs
  cases Readers.step_cases hstep with
  | start hnone => exact hs
  | go hc hout =>
    rcases ReadCall.step_cache hout with hsame | ⟨idx, data, hnone, hput⟩
    · rw [hsame]
      exact hs
    · rw [hput]
      exact hs.put hnone data
  | leave hc hst => exact hs

theorem Readers.run_left {c : ReadCall} {n : Nat}
    (hrun : (readers ι e dm).Run (fun _ a => a ≠ .leave i) s acts s') (hc : s.calls i = some c)
    (hleft : c.Left n) : acts.countP (·.moves i) ≤ n := by
  induction hrun generalizing c n with
  | nil => exact Nat.zero_le n
  | @cons s a s₁ as t hok hstep _ ih =>
    cases Readers.step_cases hstep with
    | @start j off len hnone =>
      have hj : i ≠ j := by
        rintro rfl
        rw [hc] at hnone
        cases hnone
      rw [List.countP_cons_of_neg (by simp [ReadersAction.moves])]
      exact ih (by rw [← hc]; exact Function.update_of_ne hj _ _) hleft
    | @go j t x cj cache c' hcj hout =>
      by_cases hj : j = i
      · subst hj
        cases hc.symm.trans hcj
        obtain ⟨m, hm, hleft'⟩ := ReadCall.step_left hleft hout
        have hrest := ih (Function.update_self _ _ _) hleft'
        rw [List.countP_cons_of_pos (by simp [ReadersAction.moves])]
        omega
      · rw [List.countP_cons_of_neg (by simpa [ReadersAction.moves] using hj)]
        exact ih (by rw [← hc]; exact Function.update_of_ne (Ne.symm hj) _ _) hleft
    | @leave j cj err hcj hst =>
      have hj : i ≠ j := by
        rintro rfl
        exact hok rfl
      rw [List.countP_cons_of_neg (by simp [ReadersAction.moves])]
      exact ih (by rw [← hc]; exact Function.update_of_ne hj _ _) hleft

end Runs

def chunkStart (dm : DiskManifest) (k : Nat) : Int := ((dm.chunks.take k).map Chunk.size).sum

/-- A target has no object for a chunk, or one that decodes to something else than its bytes. -/
def Altered (e : Engine) (t : Target) (ch : Chunk) (d : Bytes) : Prop :=
  ∀ o, t.chunks.lookup ch.sha256 = some o → decodeChunk e.zstd o.data ≠ d

section Streams

variable {e : Engine} {dm : DiskManifest} {t t' : Target} {S : Bytes} {data : Set Bytes} {units : List Bytes}

theorem units_of_held {chunks : List Chunk} (hpos : ∀ ch ∈ chunks, 0 < ch.size)
    (h : List.Forall₂ (Held e t) chunks units) :
    chunks = units.map (chunkOf e) ∧ ∀ d ∈ units, Held e t (chunkOf e d) d := by
  induction h with
  | nil => exact ⟨rfl, nofun⟩
  | @cons ch d chunks units hheld _ ih =>
    obtain ⟨hchunks, hall⟩ := ih fun c hc => hpos c (List.mem_cons_of_mem _ hc)
    have hch : ch = chunkOf e d := by
      obtain ⟨-, -, -, hhash, hsize⟩ := hheld
      have hne := hpos ch List.mem_cons_self
      rw [chunkOf, hhash, hsize.resolve_left (by omega)]
    rw [hchunks, hch]
    exact ⟨rfl, List.forall_mem_cons.mpr ⟨hch ▸ hheld, hall⟩⟩

theorem reader_of_units (h : dm.chunks = units.map (chunkOf e)) : newStreamReaderAt dm = streamOf e units := by
  unfold streamOf newStreamReaderAt
  rw [h]

theorem chunkStart_of_units (h : dm.chunks = units.map (chunkOf e)) (k : Nat) :
    chunkStart dm k = startOf units k := by
  rw [chunkStart, startOf, h, ← List.map_take, sum_sizes]

theorem answers_same (hall : ∀ d ∈ units, Held e t (chunkOf e d) d) :
    Answers e units (fun _ => False) False t .fine where
  right := fun d hd _ hd' => hd'.unique (hall d hd)
  gone := fun _ _ h => h.elim
  sure := fun _ => ⟨rfl, hall⟩

theorem answers_altered (hinj : Set.InjOn e.hash data) (hall : ∀ d ∈ units, Held e t (chunkOf e d) d)
    (ht : t.Decodes e data) (ht' : t'.Decodes e data) {k : Nat} {d : Bytes} (hk : units[k]? = some d)
    (haltered : Altered e t' (chunkOf e d) d) (x : Choice) : Answers e units (· = k) True t' x where
  right := by
    rintro d₁ hd₁ _ ⟨o', ho', rfl, hhash, -⟩
    obtain ⟨o, ho, rfl, -, -⟩ := hall d₁ hd₁
    exact hinj (ht' _ o' ho') (ht _ o ho) hhash
  gone := by
    rintro _ d₁ rfl hd₁ ⟨o', ho', hdecode, -⟩
    cases hk.symm.trans hd₁
    exact haltered o' ho' hdecode
  sure := fun h => absurd trivial h

end Streams

/-- However many goroutines read a stream, each gets what a restore would have written, or an error. -/
theorem random_access {e : Engine} {dm : DiskManifest} {t : Target} {st st' : Stats} {S : Bytes}
    (hpos : ∀ ch ∈ dm.chunks, 0 < ch.size)
    (hrestore : Prog.run restoreAlone (e.restoreDisk dm st) (t, []) = ((.ok (), st'), (t, S))) :
    (∀ acts s, (readers ι e dm).Run (fun _ a => a.Finds fun t' x => t' = t ∧ x = .fine) .initial acts s →
      ∀ i c err, s.calls i = some c → c.st = .returned err → 0 ≤ c.off → 0 < c.len →
        c.got = (S.drop c.off.toNat).take c.len ∧
        err = if c.got.length < c.len then some (.read .eof) else none) ∧
    (∀ acts s, (readers ι e dm).Run (fun _ _ => True) .initial acts s →
      s.cache.data.length ≤ defaultCacheChunks ∧
      ∀ i c, s.calls i = some c →
        (∃ err, c.st = .returned err) ∨ ∀ t x, ((readers ι e dm).step (.go i t x) s).isSome) ∧
    (∀ s i off len s₁ acts s₂, (readers ι e dm).step (.start i off len) s = some s₁ →
      (readers ι e dm).Run (fun _ a => a ≠ .leave i) s₁ acts s₂ → acts.countP (·.moves i) ≤ 3 * len + 1) ∧
    (∀ data, Set.InjOn e.hash data → t.Decodes e data → ∀ k ch, dm.chunks[k]? = some ch →
      ∀ acts s, (readers ι e dm).Run (fun _ a => a.Finds fun t' _ =>
          t'.Decodes e data ∧ Altered e t' ch ((S.drop (chunkStart dm k).toNat).take ch.size.toNat))
          .initial acts s →
      ∀ i c, s.calls i = some c →
        c.got <+: S.drop c.off.toNat ∧
        (∀ p, c.off.toNat ≤ p → p < c.pos → ¬ (chunkStart dm k ≤ p ∧ p < chunkStart dm k + ch.size)) ∧
        ∀ err p, c.st = .returned err → 0 ≤ c.off → c.off.toNat ≤ p → p < c.off.toNat + c.len →
          chunkStart dm k ≤ p → p < chunkStart dm k + ch.size →
          ∃ idx cause, err = some (.read (.chunk idx cause))) := by
  have hwhole : Whole e t dm S := by
    rcases run_restoreDisk_cases dm st (e := e) (t := t) with ⟨out, st₁, hwhole, hrun⟩ | ⟨err, st₁, out, -, hrun⟩
    · rw [hrun] at hrestore
      cases hrestore
      exact hwhole
    · rw [hrun] at hrestore
      cases hrestore
  obtain ⟨units, hheld, rfl, -⟩ := hwhole
  obtain ⟨hchunks, hall⟩ := units_of_held hpos hheld
  have hr := reader_of_units hchunks
  refine ⟨?_, ?_, ?_, ?_⟩
  · intro acts s hrun i c err hc hst hoff hlen
    have hsound : s.Sound units (fun _ => False) False := by
      refine Readers.run_sound hr (hrun.mono fun s a ha => ?_) Readers.initial_sound
      cases a with
      | start | leave => trivial
      | go i t' x =>
        obtain ⟨rfl, rfl⟩ := ha
        exact answers_same hall
    obtain ⟨hfilled, hstands⟩ := hsound.calls i c hc
    exact (hfilled.ends hstands hst hoff hlen).resolve_right fun h => h.1
  · intro acts s hrun
    have htidy : s.cache.Tidy := Readers.run_tidy hrun ⟨.nil, .nil, Nat.zero_le _⟩
    refine ⟨htidy.size, fun i c hc => ?_⟩
    rw [or_iff_not_imp_left]
    intro hnot t x
    show (Readers.step e (newStreamReaderAt dm) (.go i t x) s).isSome
    rw [Readers.step, hc]
    dsimp only
    rw [Option.isSome_map]
    exact (ReadCall.step_isSome e _ t x s.cache c).resolve_left hnot
  · intro s i off len s₁ acts s₂ hstart hrun
    have hstart : Readers.step e (newStreamReaderAt dm) (.start i off len) s = some s₁ := hstart
    cases Readers.step_cases hstart with
    | start hnone =>
      obtain ⟨m, hm, hleft⟩ := ReadCall.enter_left (newStreamReaderAt dm) off len
      exact (Readers.run_left hrun (Function.update_self _ _ _) hleft).trans hm
  · intro data hinj ht k ch hk acts s hrun i c hc
    obtain ⟨d, hd, rfl⟩ : ∃ d, units[k]? = some d ∧ chunkOf e d = ch := by
      rw [hchunks, List.getElem?_map] at hk
      exact Option.map_eq_some_iff.mp hk
    have hnext := startOf_succ hd
    have hdpos : 0 < d.length := by
      have hmem : chunkOf e d ∈ dm.chunks := List.mem_of_getElem? hk
      exact Int.natCast_pos.mp (hpos _ hmem)
    have hpart : (units.flatten.drop (startOf units k : Int).toNat).take (chunkOf e d).size.toNat = d := by
      show (units.flatten.drop (startOf units k)).take d.length = d
      rw [drop_flatten hd (Nat.le_refl _) (by omega), Nat.sub_self, List.drop_zero]
      exact List.take_left' rfl
    rw [chunkStart_of_units hchunks, hpart] at hrun
    rw [chunkStart_of_units hchunks]
    have hsound : s.Sound units (· = k) True := by
      refine Readers.run_sound hr (hrun.mono fun s a ha => ?_) Readers.initial_sound
      cases a with
      | start | leave => trivial
      | go i t' x => exact answers_altered hinj hall ht ha.1 hd ha.2 x
    obtain ⟨hfilled, hstands⟩ := hsound.calls i c hc
    have hspared : ∀ p, c.off.toNat ≤ p → p < c.pos →
        ¬ (startOf units k ≤ p ∧ p < startOf units k + d.length) := by
      intro p hp hp' hwithin
      exact hfilled.spared k rfl p hp hp' ⟨hwithin.1, hnext ▸ hwithin.2⟩
    have hsize : (chunkOf e d).size = d.length := rfl
    rw [hsize]
    refine ⟨hfilled.bytes, fun p hp hp' hwithin => hspared p hp hp' (by omega),
      fun err p hst hoff hp hplen hlow hhigh => ?_⟩
    rcases hfilled.ends hstands hst hoff (by omega) with ⟨hgot, -⟩ | ⟨-, hcause⟩
    · have hend : startOf units (k + 1) ≤ units.flatten.length := by
        rw [← startOf_length]
        exact startOf_mono units (List.getElem?_eq_some_iff.mp hd).1
      refine absurd ⟨by omega, by omega⟩ (hspared p hp ?_)
      rw [ReadCall.pos, hgot, List.length_take, List.length_drop]
      omega
    · exact hcause

def tailSha : Sha := "e2d0fe1585a63ec6009c8016ff8dda8b17719a637405a4e23c0ff81339148249"

def pairHash (d : Bytes) : Sha :=
  if d = [] then emptySha else if d.head? = some 7 then byteSha else tailSha

def pairEngine : Engine := newWithOptions pairHash ⟨none, none⟩ ⟨1, "off", 0⟩

/-- A chunk of one byte and one of two. -/
def pairDisk : DiskManifest := ⟨"scsi0", 3, [⟨byteSha, 1⟩, ⟨tailSha, 2⟩]⟩

def pairTarget : Target := (Target.putObject ⟨∅, ∅, ∅⟩ byteSha [7] 0).putObject tailSha [8, 9] 0

/-- The second chunk was cut short. -/
def pairCut : Target := (Target.putObject ⟨∅, ∅, ∅⟩ byteSha [7] 0).putObject tailSha [] 0

theorem pairHash_injOn : Set.InjOn pairEngine.hash {[7], [8, 9], []} := by
  rintro a (rfl | rfl | rfl) b (rfl | rfl | rfl) h <;> first | rfl | exact absurd h (by decide)

theorem pair_decodes {body : Bytes} (h : body = [8, 9] ∨ body = []) :
    ((Target.putObject ⟨∅, ∅, ∅⟩ byteSha [7] 0).putObject tailSha body 0).Decodes pairEngine {[7], [8, 9], []} := by
  intro sha o ho
  unfold Target.putObject at ho
  dsimp only at ho
  rw [FinMap.lookup_insert_ite, FinMap.lookup_insert_ite] at ho
  split at ho
  · cases ho
    rcases h with rfl | rfl
    · exact .inr (.inl rfl)
    · exact .inr (.inr rfl)
  · split at ho
    · cases ho
      exact .inl rfl
    · cases ho

/-- One goroutine reads both chunks while the other one reads the second; both miss that one. -/
def raceActs : List (ReadersAction Bool) :=
  let go := fun i => ReadersAction.go i pairTarget .fine
  [.start false 0 4, .start true 1 1, go false, go true, go false, go true] ++
    List.replicate 5 (go false) ++ List.replicate 2 (go true)

theorem race_follow : ∃ s : Readers Bool,
    (readers Bool pairEngine pairDisk).follow raceActs .initial = some s ∧
      s.calls false = some ⟨0, 4, [7, 8, 9], .returned (some (.read .eof))⟩ ∧
      s.calls true = some ⟨1, 1, [8], .returned none⟩ := by
  have hends : ((readers Bool pairEngine pairDisk).follow raceActs .initial).map
      (fun s => (s.calls false, s.calls true)) =
        some (some ⟨0, 4, [7, 8, 9], .returned (some (.read .eof))⟩, some ⟨1, 1, [8], .returned none⟩) := by
    decide +kernel
  obtain ⟨s, hs, hcalls⟩ := Option.map_eq_some_iff.mp hends
  exact ⟨s, hs, congrArg Prod.fst hcalls, congrArg Prod.snd hcalls⟩

/-- A read into the second chunk, which was cut short. -/
def cutActs : List (ReadersAction Bool) := .start false 0 3 :: List.replicate 5 (.go false pairCut .fine)

theorem cut_follow : ∃ s : Readers Bool,
    (readers Bool pairEngine pairDisk).follow cutActs .initial = some s ∧
      ∃ err, s.calls false = some ⟨0, 3, [7], .returned err⟩ := by
  have hends : ((readers Bool pairEngine pairDisk).follow cutActs .initial).map (fun s => s.calls false) =
      some (some ⟨0, 3, [7], .returned (some (.read (.chunk 1 (.hashMismatch tailSha emptySha))))⟩) := by
    decide +kernel
  obtain ⟨s, hs, hcall⟩ := Option.map_eq_some_iff.mp hends
  exact ⟨s, hs, _, hcall⟩

theorem random_access_race : (∃ s : Readers Bool,
      (readers Bool pairEngine pairDisk).follow raceActs .initial = some s ∧
      ([7, 8, 9] : Bytes) = ([7, 8, 9].drop (0 : Int).toNat).take 4 ∧
      s.cache.data.length ≤ defaultCacheChunks) ∧
    ∃ (s : Readers Bool) (err : Option ReadAtErr) (idx : Nat) (cause : Engine.Err),
      (readers Bool pairEngine pairDisk).follow cutActs .initial = some s ∧
      s.calls false = some ⟨0, 3, [7], .returned err⟩ ∧ err = some (.read (.chunk idx cause)) := by
  have hrestore : Prog.run restoreAlone (pairEngine.restoreDisk pairDisk .zero) (pairTarget, []) =
      ((.ok (), (Stats.zero.record 1 0).record 2 0), (pairTarget, [7, 8, 9])) := rfl
  have hpos : ∀ ch ∈ pairDisk.chunks, 0 < ch.size := by decide
  obtain ⟨hreads, hkept, -, hlost⟩ := random_access (ι := Bool) hpos hrestore
  constructor
  · obtain ⟨s, hfollow, hfalse, -⟩ := race_follow
    refine ⟨s, hfollow, ?_, (hkept _ s (System.run_of_follow (fun _ _ _ => trivial) hfollow)).1⟩
    have hrun : (readers Bool pairEngine pairDisk).Run
        (fun _ a => a.Finds fun t' x => t' = pairTarget ∧ x = .fine) .initial raceActs s := by
      refine System.run_of_follow (fun a ha _ => ?_) hfollow
      revert a
      simp [raceActs, ReadersAction.Finds]
    exact (hreads _ s hrun false _ _ hfalse rfl (Int.le_refl 0) (by decide)).1
  · obtain ⟨s, hfollow, err, hc⟩ := cut_follow
    have haltered : Altered pairEngine pairCut ⟨tailSha, 2⟩ [8, 9] := by
      intro o ho
      unfold pairCut Target.putObject at ho
      rw [FinMap.lookup_insert_ite, if_pos rfl] at ho
      cases ho
      decide
    have hcut : pairCut.Decodes pairEngine {[7], [8, 9], []} := pair_decodes (.inr rfl)
    have hrun : (readers Bool pairEngine pairDisk).Run (fun _ a => a.Finds fun t' _ =>
        t'.Decodes pairEngine {[7], [8, 9], []} ∧ Altered pairEngine t' ⟨tailSha, 2⟩ [8, 9])
          .initial cutActs s := by
      refine System.run_of_follow (fun a ha _ => ?_) hfollow
      revert a
      simp [cutActs, ReadersAction.Finds, hcut, haltered]
    obtain ⟨-, -, hfails⟩ := hlost {[7], [8, 9], []} pairHash_injOn (pair_decodes (.inl rfl)) 1
      ⟨tailSha, 2⟩ rfl cutActs s hrun false _ hc
    obtain ⟨idx, cause, herr⟩ := hfails err 1 rfl (Int.le_refl 0) (Nat.zero_le 1)
      (show 1 < 0 + 3 by decide) (by decide) (by decide)
    exact ⟨s, err, idx, cause, hfollow, hc, herr⟩

end ProxBack.Browse
