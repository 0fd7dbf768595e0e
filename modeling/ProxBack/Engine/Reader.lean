import ProxBack.Engine.Basic

/-! How a stream is read: `io.ReadFull` over a reader that answers in pieces of any
size, and the units of one chunk each that come of it. -/
namespace ProxBack.Engine

structure ReadReply where
  data : Bytes
  err : Option Err

/-- Whether `errors.Is` finds `io.EOF` or `io.ErrUnexpectedEOF` in an error. -/
def Err.isEOF : Err → Bool
  | .eof | .unexpectedEOF => true
  | .chunkIndex err | .rateLimit err | .storeChunk _ _ err | .readStream _ err
  | .restore _ err | .restoreWrite _ err | .gcChunkIndex err | .syncChunkIndex err => err.isEOF
  | _ => false

/-- The loop of `io.ReadAtLeast`: read until the buffer is full or a read errs. An
answer longer than the room left is taken in parts, and an error that comes with
the last byte that fits is dropped. A reader that has said all it has answers EOF. -/
def readLoop : List ReadReply → Nat → Bytes × Option Err × List ReadReply
  | [], room => if room = 0 then ([], none, []) else ([], some .eof, [])
  | r :: rest, room =>
    if room = 0 then ([], none, r :: rest)
    else if room < r.data.length then
      (r.data.take room, none, ⟨r.data.drop room, r.err⟩ :: rest)
    else if r.data.length = room then (r.data, none, rest)
    else match r.err with
      | some err => (r.data, some err, rest)
      | none =>
        let out := readLoop rest (room - r.data.length)
        (r.data ++ out.1, out.2)

def readFull (script : List ReadReply) (room : Nat) : Bytes × Option Err × List ReadReply :=
  let out := readLoop script room
  if out.1 ≠ [] ∧ out.2.1 = some .eof then (out.1, some .unexpectedEOF, out.2.2) else out

def pendingBytes (script : List ReadReply) : Nat := (script.map fun r => r.data.length).sum

theorem readLoop_spec (script : List ReadReply) (room : Nat) :
    (readLoop script room).1.length ≤ room ∧
      ((readLoop script room).2.1 = none → (readLoop script room).1.length = room) ∧
      pendingBytes (readLoop script room).2.2 + (readLoop script room).1.length ≤
        pendingBytes script := by
  induction script generalizing room with
  | nil =>
    unfold readLoop
    by_cases hroom : room = 0 <;> simp [hroom, pendingBytes]
  | cons r rest ih =>
    unfold readLoop
    by_cases hroom : room = 0
    · simp [hroom]
    · by_cases hlong : room < r.data.length
      · simp only [hroom, hlong, if_true, if_false, pendingBytes, List.map_cons, List.sum_cons,
          List.length_take, List.length_drop]
        omega
      · by_cases hfull : r.data.length = room
        · simp [hroom, hfull, pendingBytes]
          omega
        · cases herr : r.err with
          | some err =>
            simp [hroom, hlong, hfull, pendingBytes]
            omega
          | none =>
            obtain ⟨hle, hnone, htotal⟩ := ih (room - r.data.length)
            simp only [hroom, hlong, hfull, if_false, List.length_append]
            refine ⟨by omega, fun h => ?_, ?_⟩
            · have hlen := hnone h
              omega
            · simp only [pendingBytes, List.map_cons, List.sum_cons] at htotal ⊢
              omega

@[simp] theorem readFull_fst (script : List ReadReply) (room : Nat) :
    (readFull script room).1 = (readLoop script room).1 := by
  unfold readFull
  dsimp only
  split <;> rfl

@[simp] theorem readFull_rest (script : List ReadReply) (room : Nat) :
    (readFull script room).2.2 = (readLoop script room).2.2 := by
  unfold readFull
  dsimp only
  split <;> rfl

theorem readFull_ok {script : List ReadReply} {room : Nat} :
    (readFull script room).2.1 = none ↔ (readLoop script room).2.1 = none := by
  unfold readFull
  dsimp only
  split
  · rename_i h
    simp [h.2]
  · rfl

theorem readFull_le (script : List ReadReply) (room : Nat) :
    (readFull script room).1.length ≤ room := by
  rw [readFull_fst]
  exact (readLoop_spec script room).1

@[grind =] theorem readFull_full {script : List ReadReply} {room : Nat}
    (h : (readFull script room).2.1 = none) : (readFull script room).1.length = room := by
  rw [readFull_fst]
  exact (readLoop_spec script room).2.1 (readFull_ok.mp h)

def endErr (name : String) (err : Err) : Option Err :=
  if err.isEOF then none else some (.readStream name err)

/-- The units `readChunks` dispatches if nothing stops it, and the error it then
returns. -/
def unitsOf (name : String) (script : List ReadReply) : List Bytes × Option Err :=
  let out := readFull script chunkSize
  match _h : out.2.1 with
  | none =>
    let rest := unitsOf name out.2.2
    (out.1 :: rest.1, rest.2)
  | some err => (if out.1 = [] then [] else [out.1], endErr name err)
termination_by pendingBytes script
decreasing_by
  have hlen : (readFull script chunkSize).1.length = chunkSize := readFull_full _h
  have htotal := (readLoop_spec script chunkSize).2.2
  rw [← readFull_fst, ← readFull_rest, hlen] at htotal
  have hpos := chunkSize_pos
  show pendingBytes (readFull script chunkSize).2.2 < pendingBytes script
  omega

theorem unitsOf_eq_of_ok {name : String} {script rest : List ReadReply} {d : Bytes}
    (h : readFull script chunkSize = (d, none, rest)) :
    unitsOf name script = (d :: (unitsOf name rest).1, (unitsOf name rest).2) := by
  rw [unitsOf]
  split
  · rw [h]
  · rename_i err herr
    rw [h] at herr
    cases herr

theorem unitsOf_eq_of_err {name : String} {script rest : List ReadReply} {d : Bytes} {err : Err}
    (h : readFull script chunkSize = (d, some err, rest)) :
    unitsOf name script = (if d = [] then [] else [d], endErr name err) := by
  rw [unitsOf]
  split
  · rename_i herr
    rw [h] at herr
    cases herr
  · rename_i err' herr
    rw [h] at herr ⊢
    cases herr
    rfl

theorem unitsOf_sizes (name : String) (script : List ReadReply) :
    (∀ d ∈ (unitsOf name script).1, d ≠ [] ∧ d.length ≤ chunkSize) ∧
      ∀ d ∈ (unitsOf name script).1.dropLast, d.length = chunkSize := by
  have hpos := chunkSize_pos
  induction hn : pendingBytes script using Nat.strong_induction_on generalizing script with
  | _ n ih =>
    obtain ⟨d, err, rest, h⟩ : ∃ d err rest, readFull script chunkSize = (d, err, rest) :=
      ⟨_, _, _, rfl⟩
    have hle := readFull_le script chunkSize
    rw [h] at hle
    cases err with
    | some err =>
      rw [unitsOf_eq_of_err h]
      by_cases hd : d = []
      · simp [hd]
      · simp only [hd, if_false, List.mem_singleton, forall_eq, ne_eq, not_false_eq_true, true_and,
          List.dropLast_singleton, List.not_mem_nil, false_imp_iff, implies_true, and_true]
        exact hle
    | none =>
      have hfull : d.length = chunkSize := by
        have hf : (readFull script chunkSize).1.length = chunkSize :=
          readFull_full (by rw [h])
        rw [h] at hf
        exact hf
      have htotal := (readLoop_spec script chunkSize).2.2
      rw [← readFull_fst, ← readFull_rest, h] at htotal
      dsimp only at htotal
      obtain ⟨ihall, ihlast⟩ := ih (pendingBytes rest) (by omega) rest rfl
      rw [unitsOf_eq_of_ok h]
      have hne : d ≠ [] := by
        rintro rfl
        rw [List.length_nil] at hfull
        omega
      constructor
      · intro u hu
        rcases List.mem_cons.mp hu with rfl | hu
        · exact ⟨hne, hle⟩
        · exact ihall u hu
      · intro u hu
        cases hrest : (unitsOf name rest).1 with
        | nil =>
          rw [hrest] at hu
          cases hu
        | cons v vs =>
          rw [hrest, List.dropLast_cons_of_ne_nil (by simp)] at hu
          rcases List.mem_cons.mp hu with rfl | hu
          · exact hfull
          · rw [hrest] at ihlast
            exact ihlast u hu

/-- `Reads bytes script`: the script is the stream `bytes` cut into reads of any
size, ending in EOF with the last bytes or after them. -/
inductive Reads : Bytes → List ReadReply → Prop where
  | done : Reads [] []
  | last (d : Bytes) : Reads d [⟨d, some .eof⟩]
  | more (d : Bytes) {bytes : Bytes} {rest : List ReadReply} (h : Reads bytes rest) :
      Reads (d ++ bytes) (⟨d, none⟩ :: rest)

theorem readLoop_reads {bytes : Bytes} {script : List ReadReply} (h : Reads bytes script)
    {room : Nat} (hroom : 0 < room) :
    ∃ bytes', Reads bytes' (readLoop script room).2.2 ∧
      bytes = (readLoop script room).1 ++ bytes' ∧
      ((readLoop script room).2.1 = none ∨ (readLoop script room).2.1 = some .eof ∧ bytes' = []) := by
  have hne : room ≠ 0 := by omega
  induction h generalizing room with
  | done =>
    unfold readLoop
    rw [if_neg hne]
    exact ⟨[], .done, rfl, .inr ⟨rfl, rfl⟩⟩
  | last d =>
    unfold readLoop
    rw [if_neg hne]
    dsimp only
    by_cases hlong : room < d.length
    · rw [if_pos hlong]
      exact ⟨d.drop room, .last _, (List.take_append_drop room d).symm, .inl rfl⟩
    · rw [if_neg hlong]
      by_cases hfull : d.length = room
      · rw [if_pos hfull]
        exact ⟨[], .done, (List.append_nil d).symm, .inl rfl⟩
      · rw [if_neg hfull]
        exact ⟨[], .done, (List.append_nil d).symm, .inr ⟨rfl, rfl⟩⟩
  | @more d bytes rest h ih =>
    unfold readLoop
    rw [if_neg hne]
    dsimp only
    by_cases hlong : room < d.length
    · rw [if_pos hlong]
      refine ⟨d.drop room ++ bytes, .more _ h, ?_, .inl rfl⟩
      rw [← List.append_assoc, List.take_append_drop]
    · rw [if_neg hlong]
      by_cases hfull : d.length = room
      · rw [if_pos hfull]
        exact ⟨bytes, h, rfl, .inl rfl⟩
      · rw [if_neg hfull]
        have hleft : 0 < room - d.length := by omega
        obtain ⟨bytes', hreads, heq, herr⟩ := ih hleft (Nat.pos_iff_ne_zero.mp hleft)
        refine ⟨bytes', hreads, ?_, herr⟩
        dsimp only
        rw [List.append_assoc, ← heq]

/-- However a stream is cut into reads, its units put together are the stream,
and the read loop ends without an error. -/
theorem unitsOf_reads (name : String) {bytes : Bytes} {script : List ReadReply}
    (h : Reads bytes script) :
    (unitsOf name script).1.flatten = bytes ∧ (unitsOf name script).2 = none := by
  have hpos := chunkSize_pos
  induction hn : pendingBytes script using Nat.strong_induction_on generalizing script bytes with
  | _ n ih =>
    obtain ⟨bytes', hreads, heq, herr⟩ := readLoop_reads h hpos
    have htotal := (readLoop_spec script chunkSize).2.2
    rw [← readFull_rest] at hreads
    rw [← readFull_fst] at heq
    rw [← readFull_fst, ← readFull_rest] at htotal
    obtain ⟨d, err, rest, hfull⟩ : ∃ d err rest, readFull script chunkSize = (d, err, rest) :=
      ⟨_, _, _, rfl⟩
    rw [hfull] at hreads heq htotal
    rcases herr with herr | ⟨herr, hnil⟩
    · have hok := readFull_ok.mpr herr
      have hlen := readFull_full hok
      rw [hfull] at hok hlen
      cases hok
      dsimp only at hlen htotal
      obtain ⟨ihflat, ihnone⟩ := ih (pendingBytes rest) (by omega) hreads rfl
      rw [unitsOf_eq_of_ok hfull, List.flatten_cons, ihflat, ihnone, heq]
      exact ⟨rfl, rfl⟩
    · have hend : ∃ err', err = some err' ∧ err'.isEOF = true := by
        have h₂ : (readFull script chunkSize).2.1 = err := by rw [hfull]
        unfold readFull at h₂
        dsimp only at h₂
        split at h₂
        · exact ⟨_, h₂.symm, rfl⟩
        · exact ⟨_, h₂.symm.trans herr, rfl⟩
      obtain ⟨err', rfl, heof⟩ := hend
      rw [unitsOf_eq_of_err hfull, heq, hnil, List.append_nil, endErr, if_pos heof]
      refine ⟨?_, rfl⟩
      dsimp only
      split
      · rename_i hd
        rw [hd, List.flatten_nil]
      · rw [List.flatten_singleton]

end ProxBack.Engine
