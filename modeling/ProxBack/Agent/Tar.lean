import ProxBack.Engine.StreamEnd

/-! The tar stream of an agent restore, as `archive/tar` reads it from the body of an
HTTP response. A body that broke off gives the entries of the whole stream, or an error. -/
namespace ProxBack.Agent.Tar
open Engine

/-- A response body: the bytes that come, and the error after them if it broke off. -/
structure Body where
  left : Bytes
  broken : Option Engine.Err
deriving DecidableEq

/-- The error of a read that wants more than is left. `io.ReadFull` calls a clean end
before the first byte `io.EOF` and a later one `io.ErrUnexpectedEOF`. -/
def Body.shortErr (b : Body) : Engine.Err :=
  match b.broken with
  | some err => err
  | none => if b.left = [] then .eof else .unexpectedEOF

/-- `io.ReadFull` of `n` bytes. -/
def Body.readFull (b : Body) (n : Nat) : Except Engine.Err (Bytes × Body) :=
  if n ≤ b.left.length then .ok (b.left.take n, { b with left := b.left.drop n })
  else .error b.shortErr

inductive Typeflag where
  | dir
  | reg
  | other (flag : Char)
deriving DecidableEq, Repr

structure Header where
  name : String
  typeflag : Typeflag
  mode : Nat
  size : Nat
  modTime : Time
deriving DecidableEq, Repr

/-- A header block is one record of an extended header, with data that later blocks are
read by, or the header of an entry. -/
inductive Decoded where
  | extension (size : Nat)
  | entry (h : Header)
deriving DecidableEq

abbrev Format := List (Bytes × Bytes) → Bytes → Except Engine.Err Decoded

def blockSize : Nat := 512

theorem blockSize_pos : 0 < blockSize := by decide

def padding (size : Nat) : Nat := (blockSize - size % blockSize) % blockSize

def isZeroBlock (block : Bytes) : Bool := block.all (· = 0)

/-- `ErrHeader`, a fault of the stream. -/
def errHeader : Engine.Err := .fault (.other 1)

structure Item where
  header : Header
  data : Bytes
  err : Option Engine.Err
deriving DecidableEq

/-- The data of an entry never ends with `io.EOF` while some of it is missing. -/
def Body.dataErr (b : Body) : Engine.Err := b.broken.getD .unexpectedEOF

def Body.skipPad (b : Body) (size : Nat) : Except Engine.Err Body :=
  if padding size ≤ b.left.length then .ok { b with left := b.left.drop (padding size) }
  else .error (b.broken.getD .eof)

theorem Body.readFull_ok {b b' : Body} {n : Nat} {d : Bytes} (h : b.readFull n = .ok (d, b')) :
    n ≤ b.left.length ∧ d = b.left.take n ∧ b' = { b with left := b.left.drop n } := by
  unfold Body.readFull at h
  split at h
  · rename_i hle
    cases h
    exact ⟨hle, rfl, rfl⟩
  · cases h

theorem Body.skipPad_ok {b b' : Body} {size : Nat} (h : b.skipPad size = .ok b') :
    padding size ≤ b.left.length ∧ b' = { b with left := b.left.drop (padding size) } := by
  unfold Body.skipPad at h
  split at h
  · rename_i hle
    cases h
    exact ⟨hle, rfl⟩
  · cases h

/-- What one header block leads to: the end, a record of an extended header, an entry with
more to come, or one after which the next `Next` fails. -/
inductive Next where
  | ended (err : Engine.Err)
  | extension (block data : Bytes) (b : Body)
  | entry (item : Item) (b : Body)
  | last (item : Item) (err : Engine.Err)
deriving DecidableEq

/-- Two zero blocks, or a clean end in their place, are `io.EOF`. -/
def endBlock (b : Body) : Engine.Err :=
  match b.readFull blockSize with
  | .error err => err
  | .ok (block, _) => if isZeroBlock block then .eof else errHeader

def nextExtension (block : Bytes) (size : Nat) (b : Body) : Next :=
  match b.readFull size with
  | .error _ => .ended b.dataErr
  | .ok (data, b₁) =>
    match b₁.skipPad size with
    | .error err => .ended err
    | .ok b₂ => .extension block data b₂

def nextEntry (h : Header) (b : Body) : Next :=
  match b.readFull h.size with
  | .error _ => .last ⟨h, b.left, some b.dataErr⟩ b.dataErr
  | .ok (data, b₁) =>
    match b₁.skipPad h.size with
    | .error err => .last ⟨h, data, none⟩ err
    | .ok b₂ => .entry ⟨h, data, none⟩ b₂

def next (fmt : Format) (exts : List (Bytes × Bytes)) (b : Body) : Next :=
  match b.readFull blockSize with
  | .error err => .ended err
  | .ok (block, b₁) =>
    if isZeroBlock block then .ended (endBlock b₁)
    else
      match fmt exts block with
      | .error err => .ended err
      | .ok (.extension size) => nextExtension block size b₁
      | .ok (.entry h) => nextEntry h b₁

def Next.rest : Next → Option Body
  | .extension _ _ b | .entry _ b => some b
  | .ended _ | .last _ _ => none

theorem nextExtension_rest {block : Bytes} {size : Nat} {b b' : Body}
    (h : (nextExtension block size b).rest = some b') : b'.left.length ≤ b.left.length := by
  unfold nextExtension at h
  split at h
  · cases h
  · rename_i hdata
    split at h
    · cases h
    · rename_i hpad
      cases h
      obtain ⟨-, -, rfl⟩ := Body.readFull_ok hdata
      obtain ⟨-, rfl⟩ := Body.skipPad_ok hpad
      simp only [List.length_drop]
      omega

theorem nextEntry_rest {h : Header} {b b' : Body} (hrest : (nextEntry h b).rest = some b') :
    b'.left.length ≤ b.left.length := by
  unfold nextEntry at hrest
  split at hrest
  · cases hrest
  · rename_i hdata
    split at hrest
    · cases hrest
    · rename_i hpad
      cases hrest
      obtain ⟨-, -, rfl⟩ := Body.readFull_ok hdata
      obtain ⟨-, rfl⟩ := Body.skipPad_ok hpad
      simp only [List.length_drop]
      omega

theorem next_rest {fmt : Format} {exts : List (Bytes × Bytes)} {b b' : Body}
    (h : (next fmt exts b).rest = some b') : b'.left.length < b.left.length := by
  have hpos := blockSize_pos
  unfold next at h
  split at h
  · cases h
  · rename_i block b₁ hblock
    obtain ⟨hle, -, rfl⟩ := Body.readFull_ok hblock
    split at h
    · cases h
    · split at h
      · cases h
      · have hlen := nextExtension_rest h
        simp only [List.length_drop] at hlen
        omega
      · have hlen := nextEntry_rest h
        simp only [List.length_drop] at hlen
        omega

/-- All that `Next` and the reads of the entries' data give, and the error of the last
`Next`. -/
def items (fmt : Format) (exts : List (Bytes × Bytes)) (b : Body) : List Item × Engine.Err :=
  match _h : next fmt exts b with
  | .ended err => ([], err)
  | .last item err => ([item], err)
  | .extension block data b' => items fmt (exts ++ [(block, data)]) b'
  | .entry item b' =>
    let rest := items fmt [] b'
    (item :: rest.1, rest.2)
termination_by b.left.length
decreasing_by
  · exact next_rest (by rw [_h]; rfl)
  · exact next_rest (by rw [_h]; rfl)

theorem items_eq (fmt : Format) (exts : List (Bytes × Bytes)) (b : Body) :
    items fmt exts b =
      match next fmt exts b with
      | .ended err => ([], err)
      | .last item err => ([item], err)
      | .extension block data b' => items fmt (exts ++ [(block, data)]) b'
      | .entry item b' => (item :: (items fmt [] b').1, (items fmt [] b').2) := by
  rw [items]
  split <;> rename_i h <;> rw [h]

theorem items_entry {fmt : Format} {exts : List (Bytes × Bytes)} {b b' : Body} {item : Item}
    (h : next fmt exts b = .entry item b') :
    items fmt exts b = (item :: (items fmt [] b').1, (items fmt [] b').2) := by
  rw [items_eq, h]

theorem items_ended {fmt : Format} {exts : List (Bytes × Bytes)} {b : Body} {err : Engine.Err}
    (h : next fmt exts b = .ended err) : items fmt exts b = ([], err) := by
  rw [items_eq, h]

def Body.whole (b : Body) (more : Bytes) : Body := ⟨b.left ++ more, none⟩

theorem Body.readFull_whole {b b' : Body} {n : Nat} {d : Bytes} (h : b.readFull n = .ok (d, b'))
    (more : Bytes) : (b.whole more).readFull n = .ok (d, b'.whole more) := by
  obtain ⟨hle, rfl, rfl⟩ := Body.readFull_ok h
  have hle' : n ≤ (b.left ++ more).length := by
    rw [List.length_append]
    omega
  rw [Body.readFull, Body.whole, if_pos hle', List.take_append_of_le_length hle,
    List.drop_append_of_le_length hle]
  rfl

theorem Body.skipPad_whole {b b' : Body} {size : Nat} (h : b.skipPad size = .ok b')
    (more : Bytes) : (b.whole more).skipPad size = .ok (b'.whole more) := by
  obtain ⟨hle, rfl⟩ := Body.skipPad_ok h
  have hle' : padding size ≤ (b.left ++ more).length := by
    rw [List.length_append]
    omega
  rw [Body.skipPad, Body.whole, if_pos hle', List.drop_append_of_le_length hle]
  rfl

section Broken

variable {b b' : Body} {err err' : Engine.Err} {n size : Nat} {d : Bytes}

theorem Body.readFull_broken (hb : b.broken = some err) (h : b.readFull n = .error err') :
    err' = err := by
  unfold Body.readFull at h
  split at h
  · cases h
  · cases h
    rw [Body.shortErr, hb]

theorem Body.skipPad_broken (hb : b.broken = some err) (h : b.skipPad size = .error err') :
    err' = err := by
  unfold Body.skipPad at h
  split at h
  · cases h
  · cases h
    rw [hb]
    rfl

theorem Body.broken_readFull (hb : b.broken = some err) (h : b.readFull n = .ok (d, b')) :
    b'.broken = some err := by
  obtain ⟨-, -, rfl⟩ := Body.readFull_ok h
  exact hb

theorem Body.broken_skipPad (hb : b.broken = some err) (h : b.skipPad size = .ok b') :
    b'.broken = some err := by
  obtain ⟨-, rfl⟩ := Body.skipPad_ok h
  exact hb

/-- How a step on a broken body relates to the step on the whole: it is the same, or it
fails with an error that is no end. -/
def Next.Agrees (step : Next) (err : Engine.Err) (more : Bytes) (whole : Next) : Prop :=
  match step with
  | .ended err' => err' = err ∨ whole = .ended err'
  | .last _ err' => err' = err
  | .extension block data b => whole = .extension block data (b.whole more) ∧ b.broken = some err
  | .entry item b => whole = .entry item (b.whole more) ∧ b.broken = some err

theorem endBlock_agrees (hb : b.broken = some err) (more : Bytes) :
    endBlock b = err ∨ endBlock (b.whole more) = endBlock b := by
  cases hread : b.readFull blockSize with
  | error err' =>
    left
    rw [endBlock, hread]
    exact Body.readFull_broken hb hread
  | ok out =>
    right
    rw [endBlock, endBlock, hread, Body.readFull_whole hread more]

theorem nextExtension_agrees (hb : b.broken = some err) (block : Bytes) (size : Nat)
    (more : Bytes) :
    (nextExtension block size b).Agrees err more (nextExtension block size (b.whole more)) := by
  cases hdata : b.readFull size with
  | error err' =>
    rw [nextExtension, hdata]
    exact .inl (by rw [Body.dataErr, hb]; rfl)
  | ok out =>
    cases hpad : out.2.skipPad size with
    | error err' =>
      simp only [nextExtension, hdata, hpad]
      exact .inl (Body.skipPad_broken (Body.broken_readFull hb hdata) hpad)
    | ok b₂ =>
      simp only [nextExtension, hdata, hpad, Body.readFull_whole hdata more,
        Body.skipPad_whole hpad more]
      exact ⟨rfl, Body.broken_skipPad (Body.broken_readFull hb hdata) hpad⟩

theorem nextEntry_agrees (hb : b.broken = some err) (h : Header) (more : Bytes) :
    (nextEntry h b).Agrees err more (nextEntry h (b.whole more)) := by
  cases hdata : b.readFull h.size with
  | error err' =>
    rw [nextEntry, hdata]
    show b.dataErr = err
    rw [Body.dataErr, hb]
    rfl
  | ok out =>
    cases hpad : out.2.skipPad h.size with
    | error err' =>
      simp only [nextEntry, hdata, hpad]
      exact Body.skipPad_broken (Body.broken_readFull hb hdata) hpad
    | ok b₂ =>
      simp only [nextEntry, hdata, hpad, Body.readFull_whole hdata more,
        Body.skipPad_whole hpad more]
      exact ⟨rfl, Body.broken_skipPad (Body.broken_readFull hb hdata) hpad⟩

theorem next_agrees (hb : b.broken = some err) (fmt : Format) (exts : List (Bytes × Bytes))
    (more : Bytes) :
    (next fmt exts b).Agrees err more (next fmt exts (b.whole more)) := by
  cases hblock : b.readFull blockSize with
  | error err' =>
    rw [next, hblock]
    exact .inl (Body.readFull_broken hb hblock)
  | ok out =>
    have hb₁ := Body.broken_readFull hb hblock
    rw [next, next, hblock, Body.readFull_whole hblock more]
    dsimp only
    split
    · rcases endBlock_agrees hb₁ more with h | h
      · exact .inl h
      · exact .inr (by rw [h])
    · split
      · exact .inr rfl
      · exact nextExtension_agrees hb₁ _ _ more
      · exact nextEntry_agrees hb₁ _ more

/-- A reader that comes to the end of the archive before the body broke off has seen all
entries of the stream. -/
theorem items_whole (fmt : Format) (exts : List (Bytes × Bytes)) (hb : b.broken = some err)
    (herr : err.isEnd = false) (hend : (items fmt exts b).2.isEnd = true) (more : Bytes) :
    items fmt exts (b.whole more) = items fmt exts b := by
  induction hn : b.left.length using Nat.strong_induction_on generalizing b exts with
  | _ n ih =>
    have hagrees := next_agrees hb fmt exts more
    have hrest := @next_rest fmt exts b
    rw [items_eq] at hend
    rw [items_eq fmt exts b, items_eq fmt exts (b.whole more)]
    cases hnext : next fmt exts b with
    | ended err' =>
      rw [hnext] at hagrees hend
      rcases hagrees with rfl | hwhole
      · rw [herr] at hend
        cases hend
      · rw [hwhole]
    | last item err' =>
      rw [hnext] at hagrees hend
      obtain rfl : err' = err := hagrees
      rw [herr] at hend
      cases hend
    | extension block data b' =>
      rw [hnext] at hagrees hend hrest
      rw [hagrees.1]
      exact ih _ (hn ▸ hrest rfl) _ hagrees.2 hend rfl
    | entry item b' =>
      rw [hnext] at hagrees hend hrest
      rw [hagrees.1]
      dsimp only at hend ⊢
      rw [ih _ (hn ▸ hrest rfl) _ hagrees.2 hend rfl]

end Broken

end ProxBack.Agent.Tar
