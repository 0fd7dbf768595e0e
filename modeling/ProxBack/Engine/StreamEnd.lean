import ProxBack.Engine.WorkerCount

/-! How a stream ends. The chunking reader takes `io.ErrUnexpectedEOF` for the end of a
stream, whoever it comes from, and `io.ReadFull` drops an error that comes with the last
byte it wanted; a reader that remembers the errors it passed on sees both. -/
namespace ProxBack.Engine
open Lib

/-- Whether `errors.Is` finds `io.EOF` in an error: the stream ended cleanly. -/
def Err.isEnd : Err → Bool
  | .eof => true
  | .chunkIndex err | .rateLimit err | .storeChunk _ _ err | .readStream _ err
  | .restore _ err | .restoreWrite _ err | .gcChunkIndex err | .syncChunkIndex err => err.isEnd
  | _ => false

/-- The replies up to the first error, which is `err`, and then `post`. -/
def EndsAt (err : Err) (post script : List ReadReply) : Prop :=
  ∃ pre d, script = pre ++ ⟨d, some err⟩ :: post ∧ ∀ r ∈ pre, r.err = none

/-- A reader that ends with `err`, and says so again to whoever reads on, as the body of
an HTTP response does. -/
def EndsWith (err : Err) (script : List ReadReply) : Prop :=
  ∃ post, EndsAt err (⟨[], some err⟩ :: post) script

/-- `errTrackingReader.Read`: the first error that is not a clean end is remembered. -/
def errTrackingRead (tracked : Option Err) (r : ReadReply) : Option Err :=
  match tracked, r.err with
  | none, some err => if err.isEnd then none else some err
  | _, _ => tracked

/-- What an `errTrackingReader` holds when `left` is what was not read of `script`. A
reply that was read in part is still there, with its error. -/
def errTrackingReader (script left : List ReadReply) : Option Err :=
  (script.take (script.length - left.length)).foldl errTrackingRead none

/-- A `ReadFull` stops before the error, meets it, or fills up with the reply that
carries it. -/
theorem readLoop_endsAt {err : Err} {post script : List ReadReply} (h : EndsAt err post script)
    {room : Nat} (hroom : 0 < room) :
    (readLoop script room).2.1 = none ∧
        (EndsAt err post (readLoop script room).2.2 ∨ (readLoop script room).2.2 = post) ∨
      (readLoop script room).2.1 = some err ∧ (readLoop script room).2.2 = post := by
  obtain ⟨pre, d, rfl, hpre⟩ := h
  have hne : room ≠ 0 := by omega
  induction pre generalizing room with
  | nil =>
    rw [List.nil_append, readLoop, if_neg hne]
    dsimp only
    by_cases hlong : room < d.length
    · rw [if_pos hlong]
      exact .inl ⟨rfl, .inl ⟨[], _, rfl, nofun⟩⟩
    · rw [if_neg hlong]
      by_cases hfull : d.length = room
      · rw [if_pos hfull]
        exact .inl ⟨rfl, .inr rfl⟩
      · rw [if_neg hfull]
        exact .inr ⟨rfl, rfl⟩
  | cons r pre ih =>
    have hnone : r.err = none := hpre r List.mem_cons_self
    have hpre' : ∀ r ∈ pre, r.err = none := fun r hr => hpre r (List.mem_cons_of_mem _ hr)
    rw [List.cons_append, readLoop, if_neg hne]
    by_cases hlong : room < r.data.length
    · rw [if_pos hlong]
      refine .inl ⟨rfl, .inl ⟨⟨r.data.drop room, r.err⟩ :: pre, d, rfl, ?_⟩⟩
      intro r' hr'
      rcases List.mem_cons.mp hr' with rfl | hr'
      · exact hnone
      · exact hpre' r' hr'
    · rw [if_neg hlong]
      by_cases hfull : r.data.length = room
      · rw [if_pos hfull]
        exact .inl ⟨rfl, .inl ⟨pre, d, rfl, hpre'⟩⟩
      · rw [if_neg hfull, hnone]
        have hleft : 0 < room - r.data.length := by omega
        exact ih hleft hpre' (Nat.pos_iff_ne_zero.mp hleft)

theorem readFull_endsAt {err : Err} {post script : List ReadReply} (h : EndsAt err post script)
    {room : Nat} (hroom : 0 < room) :
    (readFull script room).2.1 = none ∧
        (EndsAt err post (readFull script room).2.2 ∨ (readFull script room).2.2 = post) ∨
      (∃ err', (readFull script room).2.1 = some err' ∧
        (err' = err ∨ err = .eof ∧ err' = .unexpectedEOF)) ∧
        (readFull script room).2.2 = post := by
  rw [readFull_rest, readFull_ok]
  rcases readLoop_endsAt h hroom with hnone | ⟨herr, hrest⟩
  · exact .inl hnone
  · refine .inr ⟨?_, hrest⟩
    unfold readFull
    dsimp only
    split
    · rename_i hcond
      rw [herr] at hcond
      exact ⟨_, rfl, .inr ⟨Option.some.inj hcond.2, rfl⟩⟩
    · exact ⟨err, herr, .inl rfl⟩

theorem length_readLoop_rest (script : List ReadReply) (room : Nat) :
    (readLoop script room).2.2.length ≤ script.length := by
  induction script generalizing room with
  | nil =>
    unfold readLoop
    split <;> rfl
  | cons r rest ih =>
    unfold readLoop
    split
    · rfl
    · split
      · rfl
      · split
        · exact Nat.le_succ _
        · split
          · exact Nat.le_succ _
          · exact Nat.le_succ_of_le (ih _)

theorem unitsOf_endsWith {err : Err} (name : String) {script : List ReadReply}
    (h : EndsWith err script) : (unitsOf name script).2 = endErr name err := by
  have hpos := chunkSize_pos
  obtain ⟨post, h⟩ := h
  induction hn : pendingBytes script using Nat.strong_induction_on generalizing script with
  | _ n ih =>
    have htotal := (readLoop_spec script chunkSize).2.2
    rw [← readFull_fst, ← readFull_rest] at htotal
    have hends := readFull_endsAt h hpos
    have hfull := @readFull_full script chunkSize
    obtain ⟨d, res, rest, hread⟩ : ∃ d res rest, readFull script chunkSize = (d, res, rest) :=
      ⟨_, _, _, rfl⟩
    rw [hread] at hends htotal hfull
    dsimp only at hends htotal hfull
    rcases hends with ⟨rfl, hrest⟩ | ⟨⟨err', rfl, herr⟩, rfl⟩
    · have hlen := hfull rfl
      rw [unitsOf_eq_of_ok hread]
      rcases hrest with hrest | rfl
      · exact ih (pendingBytes rest) (by omega) hrest rfl
      · -- The error came with the last byte of a full buffer: the next read has it again.
        have hagain : readFull (⟨[], some err⟩ :: post) chunkSize = ([], some err, post) := by
          have hne : chunkSize ≠ 0 := by omega
          have hne' : ¬ (0 = chunkSize) := by omega
          simp [readFull, readLoop, hne, hne']
        rw [unitsOf_eq_of_err hagain]
    · rw [unitsOf_eq_of_err hread]
      rcases herr with rfl | ⟨rfl, rfl⟩
      · rfl
      · rfl

@[grind =] theorem foldl_errTracking_some (err : Err) (l : List ReadReply) :
    l.foldl errTrackingRead (some err) = some err := by
  induction l with
  | nil => rfl
  | cons r l ih => exact ih

@[grind =] theorem foldl_errTracking_quiet {l : List ReadReply} (h : ∀ r ∈ l, r.err = none) :
    l.foldl errTrackingRead none = none := by
  induction l with
  | nil => rfl
  | cons r l ih =>
    have hread : errTrackingRead none r = none := by
      rw [errTrackingRead.eq_def, h r List.mem_cons_self]
    rw [List.foldl_cons, hread]
    exact ih fun r' hr' => h r' (List.mem_cons_of_mem _ hr')

theorem errTrackingReader_endsAt {err : Err} (hend : err.isEnd = false)
    {post script left : List ReadReply} (h : EndsAt err post script)
    (hleft : left.length ≤ post.length) : errTrackingReader script left = some err := by
  obtain ⟨pre, d, rfl, hpre⟩ := h
  obtain ⟨k, hk⟩ : ∃ k, (pre ++ ⟨d, some err⟩ :: post).length - left.length = pre.length + (k + 1) :=
    ⟨post.length - left.length, by
      rw [List.length_append, List.length_cons]
      omega⟩
  have hread : errTrackingRead none ⟨d, some err⟩ = some err := by
    rw [errTrackingRead.eq_def]
    simp [hend]
  rw [errTrackingReader, hk, List.take_length_add_append, List.take_succ_cons, List.foldl_append,
    foldl_errTracking_quiet hpre, List.foldl_cons, hread, foldl_errTracking_some]

def Reader.AtEnd : Reader → Prop
  | .sending _ (some _) | .deciding (some _) | .finished _ => True
  | _ => False

namespace Pipeline

variable {w : Nat} {e : Engine} {name : String} {s s' : Pipeline w} {a : PipelineAction w}
  {err : Err} {post script : List ReadReply}

def Approaches (err : Err) (post : List ReadReply) (s : Pipeline w) : Prop :=
  EndsAt err post s.script ∧ ¬ s.reader.AtEnd ∨ s.script.length ≤ post.length ∨
    ∃ f, s.reader = .finished (some (.fault f))

theorem Approaches.think (h : s.Approaches err post) (hscript : s'.script = s.script)
    (hend : s'.reader.AtEnd → s.reader.AtEnd)
    (hlive : ∀ f, s.reader = .finished (some (.fault f)) → s'.reader = s.reader) :
    s'.Approaches err post := by
  rcases h with ⟨hends, hat⟩ | hlen | ⟨f, hf⟩
  · exact .inl ⟨hscript ▸ hends, fun h => hat (hend h)⟩
  · exact .inr (.inl (hscript ▸ hlen))
  · exact .inr (.inr ⟨f, (hlive f hf).trans hf⟩)

theorem Approaches.read (h : s.Approaches err post) {b : Nat} (hr : s.reader = .filling b)
    {d : Bytes} {res : Option Err} {rest : List ReadReply}
    (hread : readFull s.script chunkSize = (d, res, rest)) (hscript : s'.script = rest)
    (hnone : res = none → ¬ s'.reader.AtEnd) : s'.Approaches err post := by
  rcases h with ⟨hends, -⟩ | hlen | ⟨f, hf⟩
  · have hcases := readFull_endsAt hends chunkSize_pos
    rw [hread, ← hscript] at hcases
    rcases hcases with ⟨hres, hrest | hrest⟩ | ⟨-, hrest⟩
    · exact .inl ⟨hrest, hnone hres⟩
    · exact .inr (.inl (congrArg List.length hrest).le)
    · exact .inr (.inl (congrArg List.length hrest).le)
  · have hle := length_readLoop_rest s.script chunkSize
    rw [← readFull_rest, hread] at hle
    exact .inr (.inl (by rw [hscript]; exact hle.trans hlen))
  · rw [hr] at hf
    cases hf

theorem Approaches.step (h : s.Approaches err post) (hstep : Step e name s a s') :
    s'.Approaches err post := by
  cases hstep with
  | headCanceled hr hctx => exact .inr (.inr ⟨_, rfl⟩)
  | waitCanceled hr hctx => exact .inr (.inr ⟨_, rfl⟩)
  | sendCanceled hr hctx => exact .inr (.inr ⟨_, rfl⟩)
  | fill hr hread hd => exact h.read hr hread rfl fun hres => by simp [hres, Reader.AtEnd]
  | fillNone hr hread => exact h.read hr hread rfl fun hres => by simp [hres, Reader.AtEnd]
  | head hr hctx => exact h.think rfl nofun (by simp [hr])
  | getFree hr hfree => exact h.think rfl nofun (by rcases hr with hr | hr <;> simp [hr])
  | getNone hr hfree => exact h.think rfl nofun (by simp [hr])
  | alloc hr hroom => exact h.think rfl nofun (by simp [hr])
  | allocFull hr hroom => exact h.think rfl nofun (by simp [hr])
  | again hr => exact h.think rfl nofun (by simp [hr])
  | ended hr => exact h.think rfl (fun _ => by rw [hr]; trivial) (by simp [hr])
  | @handOff i u res hr hi =>
    refine h.think rfl (fun hat => ?_) (by simp [hr])
    rw [hr]
    cases res with
    | none => exact hat
    | some err' => trivial
  | _ => exact h.think rfl id fun _ _ => rfl

theorem approaches_run (h : EndsAt err post script) {caller : Option Fault} {t : Target}
    {st : Stats} {acts : List (PipelineAction w)}
    (hrun : (backupStream e w name).Run (fun _ _ => True) (initial caller script t st) acts s) :
    s.Approaches err post :=
  hrun.invariant (I := Approaches err post)
    (fun _ _ _ hs _ hstep => hs.step (step_cases hstep)) (.inl ⟨h, nofun⟩)

end Pipeline

/-- What `BackupStream` left behind: its result, and what it did not read. -/
structure Streamed where
  result : Except Err DiskManifest
  left : List ReadReply

/-- The outcomes `BackupStream` can have on a stream: those of all its runs, whatever the
storage and the context do meanwhile. -/
def Streams (e : Engine) (w : Nat) (name : String) (script : List ReadReply) (r : Streamed) :
    Prop :=
  ∃ caller t st acts, ∃ s : Pipeline w,
    (backupStream e w name).Run (fun _ _ => True) (.initial caller script t st) acts s ∧
      s.result = some r.result ∧ s.script = r.left

section Outcomes

variable {e : Engine} {w : Nat} {name : String} {script : List ReadReply} {r : Streamed}
  {dm : DiskManifest} {err : Err}

theorem Streams.reader_finished (h : Streams e w name script r) (hres : r.result = .ok dm) :
    (unitsOf name script).2 = none ∧
      ∀ err post, EndsAt err post script → r.left.length ≤ post.length := by
  obtain ⟨caller, t, st, acts, s, hrun, hresult, hleft⟩ := h
  rw [hres] at hresult
  have hskip : (backupStream e w name).Run (fun s a => ¬ s.Skips (fun _ => False) a)
      (.initial caller script t st) acts s :=
    hrun.mono fun s a _ hs => by
      obtain ⟨i, m, u, -, -, -, hk⟩ := hs
      exact hk
  obtain ⟨owner, acct, hsane⟩ := Pipeline.sane_run t.soundBut_self hskip
  obtain ⟨err', hr, heq, -⟩ := hsane.result _ hresult
  obtain ⟨-, rfl, -⟩ := streamResult_ok heq.symm
  refine ⟨(hsane.reading.finished hr nofun).2, fun err post hends => ?_⟩
  rcases Pipeline.approaches_run hends hrun with ⟨-, hat⟩ | hlen | ⟨f, hf⟩
  · rw [hr] at hat
    exact absurd trivial hat
  · exact hleft ▸ hlen
  · rw [hr] at hf
    cases hf

theorem Streams.isEOF (h : Streams e w name script r) (hres : r.result = .ok dm)
    (hends : EndsWith err script) : err.isEOF = true := by
  have hnone := (h.reader_finished hres).1
  rw [unitsOf_endsWith name hends, endErr] at hnone
  by_contra hne
  rw [if_neg hne] at hnone
  cases hnone

/-- A stream that was stored through an `errTrackingReader` left every unclean end
there. -/
theorem Streams.tracked (h : Streams e w name script r) (hres : r.result = .ok dm)
    (hends : EndsWith err script) (hend : err.isEnd = false) :
    errTrackingReader script r.left = some err := by
  obtain ⟨post, hends⟩ := hends
  exact errTrackingReader_endsAt hend hends ((h.reader_finished hres).2 err _ hends)

theorem exists_streams (hw : 0 < w) (hhash : ∀ d, e.hash d ≠ "")
    (hend : (unitsOf name script).2 = none) :
    ∃ r dm, Streams e w name script r ∧ r.result = .ok dm := by
  have ht : Target.Sound ⟨∅, ∅, ∅⟩ := fun _ h => nomatch h
  have hreach : ∃ acts s, (backupStream e w name).Run (fun _ a => a.Calm)
      (.initial none script ⟨∅, ∅, ∅⟩ .zero) acts s ∧ ∃ r, s.result = some r := by
    refine System.exists_run_to (fun acts s hrun => Pipeline.progress_run ht hrun) ?_
    intro acts s hrun hnone
    obtain ⟨owner, acct, credit, recorded, hsane, hcounted⟩ := Pipeline.counted_run ht hrun
    have hstocked : s.Stocked := hrun.invariant (I := Pipeline.Stocked)
      (fun _ _ _ hs _ hstep => hs.step (Pipeline.step_cases hstep)) nofun
    exact hsane.progress hw hstocked
      (Option.eq_none_iff_forall_ne_some.mpr fun r hr => hnone ⟨r, hr⟩)
  obtain ⟨acts, s, hrun, r, hres⟩ := hreach
  obtain ⟨owner, acct, credit, recorded, hsane, hcounted⟩ := Pipeline.counted_run ht hrun
  obtain ⟨-, hr⟩ := hsane.returned hcounted hhash hend hres
  exact ⟨⟨r, s.script⟩, _,
    ⟨none, _, _, acts, s, hrun.mono fun _ _ _ => trivial, hres, rfl⟩, hr⟩

end Outcomes

end ProxBack.Engine
