import ProxBack.Agent.Unpack
import ProxBack.Lib.Prog

/-! Writing a tar stream as `archive/tar` does. The stream goes to a writer that may fail at any
write; such an error stays, and nothing is written after it. -/
namespace ProxBack.Agent.Tar
open Lib Prog Engine

inductive SinkCall where
  | write (data : Bytes)

abbrev SinkReply : SinkCall → Type
  | .write _ => Option (Nat × Fault)

abbrev SinkM (α : Type) := Prog SinkCall SinkReply α

inductive WriterErr where
  | sink (f : Fault)
  | missed (left : Nat)
  | header (f : Fault)
  | tooLong
deriving DecidableEq

structure Writer where
  err : Option WriterErr
  left : Nat
  pad : Nat

def zeros (n : Nat) : Bytes := List.replicate n 0

/-- `tar.NewWriter`. -/
def Writer.new : Writer := ⟨none, 0, 0⟩

def Writer.flush (tw : Writer) : SinkM (Option WriterErr × Writer) :=
  match tw.err with
  | some err => .ret (some err, tw)
  | none =>
    if 0 < tw.left then .ret (some (.missed tw.left), tw)
    else
      .call (.write (zeros tw.pad)) fun
      | some (_, f) => .ret (some (.sink f), { tw with err := some (.sink f) })
      | none => .ret (none, { tw with pad := 0 })

/-- `encode` gives the blocks of a header, or fails where no format can hold it. -/
def Writer.writeHeader (encode : Header → Except Fault Bytes) (tw : Writer) (h : Header) :
    SinkM (Option WriterErr × Writer) :=
  tw.flush >>= fun
  | (some err, tw) => .ret (some err, tw)
  | (none, tw) =>
    match encode h with
    | .error f => .ret (some (.header f), tw)
    | .ok blocks =>
      .call (.write blocks) fun
      | some (_, f) => .ret (some (.sink f), { tw with err := some (.sink f) })
      | none => .ret (none, ⟨none, h.size, padding h.size⟩)

def Writer.write (tw : Writer) (data : Bytes) : SinkM (Nat × Option WriterErr × Writer) :=
  match tw.err with
  | some err => .ret (0, some err, tw)
  | none =>
    let part := data.take tw.left
    let excess := if tw.left < data.length then some WriterErr.tooLong else none
    if part = [] then .ret (0, excess, tw)
    else
      .call (.write part) fun
      | some (n, f) =>
        .ret (min n part.length, some (.sink f), { tw with err := some (.sink f), left := tw.left - min n part.length })
      | none => .ret (part.length, excess, { tw with left := tw.left - part.length })

def Writer.close (tw : Writer) : SinkM (Option WriterErr) :=
  tw.flush >>= fun
  | (some err, _) => .ret (some err)
  | (none, _) =>
    .call (.write (zeros blockSize)) fun
    | some (_, f) => .ret (some (.sink f))
    | none =>
      .call (.write (zeros blockSize)) fun
      | some (_, f) => .ret (some (.sink f))
      | none => .ret none

inductive CopyErr where
  | read (err : Engine.Err)
  | write (err : WriterErr)
deriving DecidableEq

def copyBuffer : Nat := 32768

def Writer.writeRead (tw : Writer) (data : Bytes) : SinkM (Nat × Option WriterErr × Writer) :=
  if data = [] then .ret (0, none, tw) else tw.write data

/-- The loop, with `left` bytes of the limit left and `n` bytes copied. An answer longer than the
buffer is taken in parts. -/
def copyLoop (script : List ReadReply) (left n : Nat) (tw : Writer) :
    SinkM (Nat × Option CopyErr × Writer) :=
  if _hleft : left = 0 then .ret (n, none, tw)
  else
    match script with
    | [] => .ret (n, none, tw)
    | r :: rest =>
      let room := min copyBuffer left
      if _hroom : room < r.data.length then
        tw.writeRead (r.data.take room) >>= fun
        | (nw, some err, tw) => .ret (n + nw, some (.write err), tw)
        | (nw, none, tw) => copyLoop (⟨r.data.drop room, r.err⟩ :: rest) (left - room) (n + nw) tw
      else
        tw.writeRead r.data >>= fun
        | (nw, some err, tw) => .ret (n + nw, some (.write err), tw)
        | (nw, none, tw) =>
          match r.err with
          | some err => .ret (n + nw, if err = .eof then none else some (.read err), tw)
          | none => copyLoop rest (left - r.data.length) (n + nw) tw
termination_by pendingBytes script + script.length
decreasing_by
  · simp only [pendingBytes, List.map_cons, List.sum_cons, List.length_cons, List.length_drop]
    have hpos : 0 < min copyBuffer left := by
      unfold copyBuffer
      omega
    omega
  · simp only [pendingBytes, List.map_cons, List.sum_cons, List.length_cons]
    omega

/-- What `io.Copy` copies of a file, and the error it comes upon. -/
def copied : List ReadReply → Nat → Bytes × Option Engine.Err
  | [], _ => ([], none)
  | r :: rest, left =>
    if left = 0 then ([], none)
    else if left < r.data.length then (r.data.take left, none)
    else
      match r.err with
      | some err => (r.data, if err = .eof then none else some err)
      | none =>
        let out := copied rest (left - r.data.length)
        (r.data ++ out.1, out.2)

/-- `io.CopyN` of zeros, which is content with the count. -/
def Writer.fill (tw : Writer) (n : Nat) : SinkM (Option CopyErr × Writer) :=
  if n = 0 then .ret (none, tw)
  else
    copyLoop [⟨zeros n, none⟩] n 0 tw >>= fun out =>
    .ret (if out.1 = n then none else some (out.2.1.getD (.read .eof)), out.2.2)

def readable : List ReadReply → Bytes
  | [] => []
  | r :: rest => r.data ++ if r.err.isNone then readable rest else []

@[simp] theorem copied_zero (script : List ReadReply) : copied script 0 = ([], none) := by
  cases script with
  | nil => rfl
  | cons r rest => rw [copied, if_pos rfl]

@[simp] theorem copied_fst (script : List ReadReply) (left : Nat) :
    (copied script left).1 = (readable script).take left := by
  induction script generalizing left with
  | nil => rw [readable, List.take_nil]; rfl
  | cons r rest ih =>
    rw [copied, readable]
    by_cases hleft : left = 0
    · rw [if_pos hleft, hleft, List.take_zero]
    rw [if_neg hleft]
    by_cases hlong : left < r.data.length
    · rw [if_pos hlong, List.take_append_of_le_length hlong.le]
    rw [if_neg hlong, List.take_append, List.take_of_length_le (Nat.not_lt.mp hlong)]
    cases r.err with
    | some err => rw [Option.isNone_some, if_neg nofun, List.take_nil, List.append_nil]
    | none => rw [Option.isNone_none, if_pos rfl, ← ih]

theorem copied_le (script : List ReadReply) (left : Nat) : (copied script left).1.length ≤ left := by
  rw [copied_fst, List.length_take]
  exact Nat.min_le_left _ _

theorem copied_split {r : ReadReply} {rest : List ReadReply} {room left : Nat} (hroom : room < r.data.length)
    (hle : room ≤ left) (hleft : left ≠ 0) :
    copied (r :: rest) left =
      (r.data.take room ++ (copied (⟨r.data.drop room, r.err⟩ :: rest) (left - room)).1,
        (copied (⟨r.data.drop room, r.err⟩ :: rest) (left - room)).2) := by
  rw [copied, if_neg hleft]
  by_cases hall : room = left
  · rw [hall, Nat.sub_self, copied_zero, if_pos (hall ▸ hroom), List.append_nil]
  have hmore : left - room ≠ 0 := by omega
  have hlen : (r.data.drop room).length = r.data.length - room := List.length_drop
  rw [copied, if_neg hmore]
  dsimp only
  by_cases hlong : left < r.data.length
  · have hlong' : left - room < (r.data.drop room).length := by omega
    rw [if_pos hlong, if_pos hlong']
    have hsum : left = room + (left - room) := by omega
    conv_lhs => rw [hsum, List.take_add]
  · have hlong' : ¬ left - room < (r.data.drop room).length := by omega
    rw [if_neg hlong, if_neg hlong']
    cases r.err with
    | some err =>
      dsimp only
      rw [List.take_append_drop]
    | none =>
      dsimp only
      have hsub : left - room - (r.data.drop room).length = left - r.data.length := by omega
      rw [hsub, ← List.append_assoc, List.take_append_drop]

def sent (bytes : Bytes) : (Σ c, SinkReply c) → Bytes
  | ⟨.write data, none⟩ => bytes ++ data
  | ⟨.write _, some _⟩ => bytes

abbrev Sends {α : Type} (post : α → Bytes → Prop) (p : SinkM α) (bytes : Bytes) : Prop :=
  Wp (Keeping sent) (fun _ _ => True) post p bytes

theorem sends_write {α : Type} {post : α → Bytes → Prop} {data : Bytes}
    {k : SinkReply (.write data) → SinkM α} {bytes : Bytes} :
    Sends post (.call (.write data) k) bytes ↔
      Sends post (k none) (bytes ++ data) ∧ ∀ x, Sends post (k (some x)) bytes := by
  rw [Sends, wp_call_keeping]
  constructor
  · exact fun h => ⟨h.2 none, fun x => h.2 (some x)⟩
  · rintro ⟨hnone, hsome⟩
    refine ⟨trivial, ?_⟩
    rintro (- | x)
    · exact hnone
    · exact hsome x

section
variable {tw : Writer} {bytes data : Bytes} {h : Header} {encode : Header → Except Fault Bytes}

theorem Sends.mono {α : Type} {post post' : α → Bytes → Prop} {p : SinkM α}
    (hp : Sends post p bytes) (h : ∀ a s, post a s → post' a s) : Sends post' p bytes :=
  Wp.post_mono h hp

theorem Sends.bind {α β : Type} {post : α → Bytes → Prop} {post' : β → Bytes → Prop} {p : SinkM α}
    {f : α → SinkM β} (hp : Sends post p bytes) (hf : ∀ a s, post a s → Sends post' (f a) s) :
    Sends post' (p >>= f) bytes :=
  (wp_bind p f bytes).mpr (hp.mono hf)

theorem flush_sends : Sends (fun out bytes' => out.1 = none →
    tw.err = none ∧ tw.left = 0 ∧ out.2 = ⟨none, 0, 0⟩ ∧ bytes' = bytes ++ zeros tw.pad) tw.flush bytes := by
  obtain ⟨err, left, pad⟩ := tw
  unfold Writer.flush
  cases err with
  | some err => exact nofun
  | none =>
    dsimp only
    split
    · exact nofun
    · rename_i hleft
      obtain rfl : left = 0 := Nat.le_zero.mp (Nat.not_lt.mp hleft)
      exact sends_write.mpr ⟨fun _ => ⟨rfl, rfl, rfl, rfl⟩, fun _ => nofun⟩

theorem writeHeader_sends : Sends (fun out bytes' => out.1 = none →
    tw.err = none ∧ tw.left = 0 ∧ ∃ blocks, encode h = .ok blocks ∧
      out.2 = ⟨none, h.size, padding h.size⟩ ∧ bytes' = bytes ++ zeros tw.pad ++ blocks)
    (tw.writeHeader encode h) bytes := by
  refine flush_sends.bind ?_
  rintro ⟨_ | err, tw'⟩ bytes' hflush
  swap
  · exact nofun
  obtain ⟨herr, hleft, -, rfl⟩ := hflush rfl
  dsimp only
  cases hencode : encode h with
  | error f => exact nofun
  | ok blocks => exact sends_write.mpr ⟨fun _ => ⟨herr, hleft, blocks, rfl, rfl, rfl⟩, fun _ => nofun⟩

theorem close_sends : Sends (fun out bytes' => out = none →
    tw.err = none ∧ tw.left = 0 ∧ bytes' = bytes ++ zeros tw.pad ++ zeros blockSize ++ zeros blockSize)
    tw.close bytes := by
  refine flush_sends.bind ?_
  rintro ⟨_ | err, tw'⟩ bytes' hflush
  swap
  · exact nofun
  obtain ⟨herr, hleft, -, rfl⟩ := hflush rfl
  refine sends_write.mpr ⟨sends_write.mpr ⟨fun _ => ⟨herr, hleft, rfl⟩, fun _ => nofun⟩, fun _ => nofun⟩

theorem writeRead_sends (hfit : data.length ≤ tw.left) : Sends (fun out bytes' =>
    out.2.2.err ≠ none ∧ (out.2.1 ≠ none ∨ out.2.2 = tw) ∨
      tw.err = none ∧ out = (data.length, none, { tw with left := tw.left - data.length }) ∧
        bytes' = bytes ++ data) (tw.writeRead data) bytes := by
  unfold Writer.writeRead
  by_cases hdata : data = []
  · rw [if_pos hdata, hdata]
    by_cases herr : tw.err = none
    · exact .inr ⟨herr, rfl, (List.append_nil bytes).symm⟩
    · exact .inl ⟨herr, .inr rfl⟩
  rw [if_neg hdata]
  unfold Writer.write
  cases herr : tw.err with
  | some err =>
    refine .inl ⟨?_, .inl nofun⟩
    rw [herr]
    exact nofun
  | none =>
    dsimp only
    rw [List.take_of_length_le hfit, if_neg hdata, if_neg (Nat.not_lt.mpr hfit)]
    exact sends_write.mpr ⟨.inr ⟨rfl, rfl, rfl⟩, fun x => .inl ⟨nofun, .inl nofun⟩⟩

def Writer.Copied (tw : Writer) (bytes : Bytes) (n : Nat) (got : Bytes × Option Engine.Err)
    (out : Nat × Option CopyErr × Writer) (bytes' : Bytes) : Prop :=
  out.2.2.err ≠ none ∨ tw.err = none ∧
    out = (n + got.1.length, got.2.map .read, { tw with left := tw.left - got.1.length }) ∧ bytes' = bytes ++ got.1

theorem Writer.Copied.nothing (n : Nat) : tw.Copied bytes n ([], none) (n, none, tw) bytes := by
  by_cases herr : tw.err = none
  · exact .inr ⟨herr, rfl, (List.append_nil bytes).symm⟩
  · exact .inl herr

theorem Writer.Copied.after {n : Nat} {got : Bytes × Option Engine.Err} {out : Nat × Option CopyErr × Writer}
    {bytes' : Bytes} (herr : tw.err = none)
    (h : Writer.Copied { tw with left := tw.left - data.length } (bytes ++ data) (n + data.length) got out bytes') :
    tw.Copied bytes n (data ++ got.1, got.2) out bytes' := by
  rcases h with hbroken | ⟨-, rfl, rfl⟩
  · exact .inl hbroken
  · refine .inr ⟨herr, ?_, List.append_assoc _ _ _⟩
    rw [List.length_append, Nat.add_assoc, Nat.sub_sub]

theorem copyLoop_sends (script : List ReadReply) {left n : Nat} (hfit : left ≤ tw.left) :
    Sends (tw.Copied bytes n (copied script left)) (copyLoop script left n tw) bytes := by
  induction hm : pendingBytes script + script.length using Nat.strong_induction_on
    generalizing script left n tw bytes with
  | _ m ih =>
    unfold copyLoop
    by_cases hleft : left = 0
    · rw [dif_pos hleft, hleft, copied_zero]
      exact Writer.Copied.nothing n
    rw [dif_neg hleft]
    cases script with
    | nil => exact Writer.Copied.nothing n
    | cons r rest =>
      dsimp only
      have hroom : 0 < min copyBuffer left := by
        unfold copyBuffer
        omega
      have hroomle : min copyBuffer left ≤ left := Nat.min_le_right _ _
      generalize min copyBuffer left = room at hroom hroomle
      simp only [pendingBytes, List.map_cons, List.sum_cons, List.length_cons] at hm
      by_cases hlong : room < r.data.length
      · rw [dif_pos hlong, copied_split hlong hroomle hleft]
        have hlen : (r.data.take room).length = room := List.length_take_of_le hlong.le
        have hrest : ∀ {tw : Writer} {bytes : Bytes} {n : Nat}, left - room ≤ tw.left →
            Sends (tw.Copied bytes n (copied (⟨r.data.drop room, r.err⟩ :: rest) (left - room)))
              (copyLoop (⟨r.data.drop room, r.err⟩ :: rest) (left - room) n tw) bytes := by
          intro tw bytes n hfit
          refine ih _ ?_ _ hfit rfl
          simp only [pendingBytes, List.map_cons, List.sum_cons, List.length_cons, List.length_drop]
          omega
        refine (writeRead_sends (by omega)).bind ?_
        rintro ⟨nw, err, tw'⟩ bytes' (⟨hbroken, hkept⟩ | ⟨herr, hout, rfl⟩)
        · cases err with
          | some err => exact .inl hbroken
          | none =>
            obtain rfl : tw' = tw := hkept.resolve_left (absurd rfl)
            exact (hrest (by omega)).mono fun out _ h => .inl (h.resolve_right fun h => hbroken h.1)
        · cases hout
          refine (hrest ?_).mono fun out _ h => .after herr ?_
          · show left - room ≤ tw.left - _
            omega
          · rwa [hlen] at h ⊢
      · rw [dif_neg hlong]
        have hlen : r.data.length ≤ left := by omega
        refine (writeRead_sends (hlen.trans hfit)).bind ?_
        rintro ⟨nw, err, tw'⟩ bytes' (⟨hbroken, hkept⟩ | ⟨herr, hout, rfl⟩)
        · cases err with
          | some err => exact .inl hbroken
          | none =>
            obtain rfl : tw' = tw := hkept.resolve_left (absurd rfl)
            dsimp only
            cases r.err with
            | some err => exact .inl hbroken
            | none =>
              refine (ih _ ?_ rest ?_ rfl).mono fun out _ h => .inl (h.resolve_right fun h => hbroken h.1)
              · unfold pendingBytes
                omega
              · omega
        · cases hout
          dsimp only
          rw [copied, if_neg hleft, if_neg (Nat.not_lt.mpr hlen)]
          cases r.err with
          | some err =>
            refine .inr ⟨herr, ?_, rfl⟩
            dsimp only
            split
            · rfl
            · rfl
          | none =>
            dsimp only
            refine (ih _ ?_ rest ?_ rfl).mono fun out _ h => .after herr h
            · unfold pendingBytes
              omega
            · show left - _ ≤ tw.left - _
              omega

@[simp] theorem zeros_length (n : Nat) : (zeros n).length = n := List.length_replicate

theorem fill_broken (n : Nat) (herr : tw.err ≠ none) :
    Sends (fun out _ => out.2.err ≠ none) (tw.fill n) bytes := by
  unfold Writer.fill
  by_cases hn : n = 0
  · rw [if_pos hn]
    exact herr
  rw [if_neg hn]
  obtain ⟨err, herr'⟩ := Option.ne_none_iff_exists'.mp herr
  have hwrite : ∀ data : Bytes, data ≠ [] → tw.writeRead data = .ret (0, some err, tw) := by
    intro data hdata
    unfold Writer.writeRead Writer.write
    rw [if_neg hdata, herr']
  have hcopy : copyLoop [⟨zeros n, none⟩] n 0 tw = .ret (0, some (.write err), tw) := by
    have hne : zeros n ≠ [] := by
      rw [Ne, ← List.length_eq_zero_iff, zeros_length]
      exact hn
    unfold copyLoop
    rw [dif_neg hn]
    dsimp only
    split
    · rw [hwrite _ ?_]
      · rfl
      · have hroom : min copyBuffer n ≠ 0 := by
          unfold copyBuffer
          omega
        rw [Ne, List.take_eq_nil_iff, not_or]
        exact ⟨hroom, hne⟩
    · rw [hwrite _ hne]
      rfl
  rw [hcopy]
  exact herr

theorem fill_sends {n : Nat} (hfit : n ≤ tw.left) : Sends (fun out bytes' => out.2.err ≠ none ∨
    tw.err = none ∧ out = (none, { tw with left := tw.left - n }) ∧ bytes' = bytes ++ zeros n)
    (tw.fill n) bytes := by
  unfold Writer.fill
  by_cases hn : n = 0
  · rw [if_pos hn, hn]
    by_cases herr : tw.err = none
    · exact .inr ⟨herr, rfl, (List.append_nil bytes).symm⟩
    · exact .inl herr
  rw [if_neg hn]
  have hcopied : copied [⟨zeros n, none⟩] n = (zeros n, none) := by
    rw [copied, if_neg hn, if_neg (by rw [zeros_length]; omega)]
    dsimp only
    rw [copied, List.append_nil]
  refine (copyLoop_sends _ hfit).bind ?_
  rintro out bytes' (hbroken | ⟨herr, rfl, rfl⟩)
  · exact .inl hbroken
  · rw [hcopied]
    refine .inr ⟨herr, ?_, rfl⟩
    dsimp only
    rw [zeros_length, Nat.zero_add, if_pos rfl]

end

def octalText (width n : Nat) : String :=
  let digits := Nat.toDigits 8 n
  .ofList (List.replicate (width - digits.length) '0' ++ digits)

def flagOf : Typeflag → UInt8
  | .dir => 53
  | .reg => 48
  | .other flag => flag.toNat.toUInt8

/-- A block of the plain `ustar` format with its checksum field as given. -/
def ustarFields (h : Header) (sum : Bytes) : Bytes :=
  padded h.name 100 ++ padded (octalText 7 h.mode) 8 ++ padded "0000000" 8 ++ padded "0000000" 8 ++
    padded (octalText 11 h.size) 12 ++ padded (octalText 11 (h.modTime / 10 ^ 9 - 62135596800).toNat) 12 ++ sum ++
      [flagOf h.typeflag] ++ zeros 100 ++ padded "ustar" 6 ++ padded "00" 2 ++ zeros 247

def ustarHeader (h : Header) : Except Fault Bytes :=
  if 100 < h.name.length then .error (.other 1)
  else .ok (ustarFields h (padded (octalText 6 (checksum (ustarFields h (List.replicate 8 32)))) 7 ++ [32]))

end ProxBack.Agent.Tar
