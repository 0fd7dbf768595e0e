import ProxBack.Agent.RunBackup
import ProxBack.Engine.StreamComplete
import ProxBack.Lib.Lists

/-! A backup dispatch with its two goroutines: one writes the archive into a pipe, the other reads
chunks out of it and uploads them. Either may fail at any point, and so close its end of the pipe. -/
namespace ProxBack.Agent.Upload
open Lib Engine

structure BackupRequest where
  runID : String
  paths : List String
  excludePaths : List String
  preScript : String
  postScript : String
deriving DecidableEq, Repr

/-- What `RunBackup` of the server dispatches. -/
def BackupRequest.dispatch (req : BackupRequest) : Dispatch where
  runID := req.runID
  paths := req.paths
  excludePaths := req.excludePaths
  preScript := req.preScript
  postScript := req.postScript
  chunkSize := Engine.chunkSize

@[simp]
theorem BackupRequest.dispatch_size (req : BackupRequest) : req.dispatch.size = Engine.chunkSize := by
  unfold Dispatch.size
  rw [if_neg]
  · exact Int.toNat_natCast _
  · intro h
    have h : (Engine.chunkSize : Int) ≤ 0 := h
    unfold Engine.chunkSize at h
    omega

/-- The goroutine of `writeTar`, which writes whatever it likes and ends in any way. -/
inductive Writer where
  | unstarted
  | running
  | writing (rest : Bytes)
  | leaving (err : Option Engine.Err)
  | closed (err : Option Engine.Err)
  | reported (err : Option Engine.Err)
deriving DecidableEq

inductive WriterMove where
  | write (data : Bytes)
  | refused
  | leave (err : Option Engine.Err)
  | close
  | report

/-- Where `runBackup` stands. -/
inductive Main where
  | starting
  | checking
  | filling (got : Bytes)
  | uploading (got : Bytes) (readErr : Option Engine.Err)
  | closing (err : Option Err)
  | joining (err : Option Err)
  | completing
  | returned (err : Option Err)
deriving DecidableEq

def Main.gone : Main → Bool
  | .joining _ | .completing | .returned _ => true
  | _ => false

def Main.afterRead : Option Engine.Err → Main
  | none => .checking
  | some err => if err.isEOF then .closing none else .closing (some (.readTar err))

/-- `io.ReadFull` at the error the writer's end was closed with. -/
def Main.ended (got : Bytes) (err : Engine.Err) : Main :=
  if got = [] then .afterRead (some err)
  else .uploading got (some (if err = .eof then .unexpectedEOF else err))

/-- Beside the goroutines: all bytes handed to the pipe, and the chunks the server acknowledged. -/
structure Piped where
  main : Main
  writer : Writer
  total : Nat
  stream : DiskManifest
  written : Bytes
  acked : List Bytes

inductive PipedAction where
  | writer (m : WriterMove)
  | read
  | go (f : Option Fault) (total : Nat)

def Piped.initial : Piped := ⟨.starting, .unstarted, 0, ⟨streamName, 0, []⟩, [], []⟩

def Piped.writerStep (s : Piped) : WriterMove → Writer → Option Piped
  | .write data, .running => some { s with writer := .writing data, written := s.written ++ data }
  | .refused, .writing _ => if s.main.gone then some { s with writer := .running } else none
  | .leave err, .running => some { s with writer := .leaving err }
  | .close, .leaving err => some { s with writer := .closed err }
  | .report, .closed err => some { s with writer := .reported err }
  | _, _ => none

section
variable (sha256 : Bytes → Sha) (d : Dispatch)

def Piped.readStep (s : Piped) : Main → Writer → Option Piped
  | .filling got, .writing rest =>
    let room := d.size - got.length
    let got' := got ++ rest.take room
    some { s with
      writer := if rest.drop room = [] then .running else .writing (rest.drop room)
      main := if got'.length = d.size then .uploading got' none else .filling got' }
  | .filling got, .closed err | .filling got, .reported err =>
    some { s with main := .ended got (err.getD .eof) }
  | _, _ => none

def Piped.mainStep (f : Option Fault) (total : Nat) (s : Piped) : Main → Option Piped
  | .starting =>
    if d.paths = [] then some { s with main := .returned (some .noPaths) }
    else
      match f with
      | some f => some { s with main := .returned (some (.estimate f)) }
      | none => some { s with main := .checking, writer := .running, total := total }
  | .checking =>
    match f with
    | some f => some { s with main := .closing (some (.ctx f)) }
    | none => some { s with main := .filling [] }
  | .uploading got readErr =>
    match f with
    | some f => some { s with main := .closing (some (.upload f)) }
    | none =>
      some { s with
        main := .afterRead readErr
        stream := addChunk s.stream (sha256 got) got
        acked := s.acked ++ [got] }
  | .closing err => some { s with main := .joining err }
  | .joining err =>
    match s.writer, err with
    | .reported _, some err => some { s with main := .returned (some err) }
    | .reported (some err), none => some { s with main := .returned (some (.writeTar err)) }
    | .reported none, none => some { s with main := .completing }
    | _, _ => none
  | .completing => some { s with main := .returned (f.map .complete) }
  | .filling _ | .returned _ => none

def Piped.step : PipedAction → Piped → Option Piped
  | .writer m, s => s.writerStep m s.writer
  | .read, s => s.readStep d s.main s.writer
  | .go f total, s => s.mainStep sha256 d f total s.main

def piped : System Piped PipedAction where
  step := Piped.step sha256 d

end

def Writer.rest : Writer → Bytes
  | .writing rest => rest
  | _ => []

def Writer.Over (w : Writer) : Prop := ∃ err, w = .closed err ∨ w = .reported err

theorem Writer.Over.rest {w : Writer} (h : w.Over) : w.rest = [] := by
  obtain ⟨err, rfl | rfl⟩ := h <;> rfl

/-- Every byte written so far was acknowledged, is in the buffer, or waits in the pipe; and once a
read has come upon the end, the writer is over. -/
def Piped.Flow (size : Nat) (s : Piped) : Prop :=
  match s.main with
  | .starting => s.writer = .unstarted ∧ s.acked = [] ∧ s.written = []
  | .checking => (∀ u ∈ s.acked, u.length = size) ∧ s.written = s.acked.flatten ++ s.writer.rest
  | .filling got =>
    (∀ u ∈ s.acked, u.length = size) ∧ got.length < size ∧
      s.written = s.acked.flatten ++ got ++ s.writer.rest
  | .uploading got none =>
    (∀ u ∈ s.acked, u.length = size) ∧ got.length = size ∧
      s.written = s.acked.flatten ++ got ++ s.writer.rest
  | .uploading got (some _) =>
    (∀ u ∈ s.acked, u.length = size) ∧ got ≠ [] ∧ got.length < size ∧ s.writer.Over ∧
      s.written = s.acked.flatten ++ got
  | .closing none | .joining none => Cut size s.acked ∧ s.writer.Over ∧ s.written = s.acked.flatten
  | .completing => Cut size s.acked ∧ s.writer = .reported none ∧ s.written = s.acked.flatten
  | .closing (some _) | .joining (some _) | .returned _ => True

/-- What is known of the archive besides: the manifest lists what was acknowledged. -/
def Piped.Listed (sha256 : Bytes → Sha) (s : Piped) : Prop :=
  s.stream = ⟨streamName, s.acked.flatten.length, s.acked.map fun u => ⟨sha256 u, u.length⟩⟩

section
variable {sha256 : Bytes → Sha} {d : Dispatch} {s s' : Piped} {m : WriterMove} {size : Nat}

/-- A move of the writer adds what it writes to what waits in the pipe, or gives up a write that
nobody reads. -/
theorem Piped.writerStep_cases (h : s.writerStep m s.writer = some s') :
    (∃ rest, s.writer = .writing rest ∧ s.main.gone = true ∧ s' = { s with writer := .running }) ∨
      ∃ w data, s' = { s with writer := w, written := s.written ++ data } ∧ w.rest = s.writer.rest ++ data ∧
        s.writer ≠ .unstarted ∧ (∀ err, s.writer ≠ .reported err) ∧ (s.writer.Over → w.Over ∧ data = []) := by
  have hquiet : ∀ w : Writer, { s with writer := w, written := s.written ++ [] } = { s with writer := w } := by
    intro w
    rw [List.append_nil]
  cases hw : s.writer with
  | unstarted => cases m <;> (rw [hw] at h; cases h)
  | reported err => cases m <;> (rw [hw] at h; cases h)
  | running =>
    rw [hw] at h
    have hover : ¬ Writer.running.Over := by
      rintro ⟨err, h | h⟩ <;> cases h
    cases m with
    | write data =>
      cases h
      exact .inr ⟨.writing data, data, rfl, rfl, nofun, nofun, fun h => absurd h hover⟩
    | leave err =>
      cases h
      exact .inr ⟨.leaving err, [], (hquiet _).symm, rfl, nofun, nofun, fun h => absurd h hover⟩
    | refused | close | report => cases h
  | writing rest =>
    rw [hw] at h
    cases m with
    | refused =>
      rw [Piped.writerStep] at h
      split at h
      · rename_i hgone
        cases h
        exact .inl ⟨rest, rfl, hgone, rfl⟩
      · cases h
    | write | leave | close | report => cases h
  | leaving err =>
    rw [hw] at h
    cases m with
    | close =>
      cases h
      refine .inr ⟨.closed err, [], (hquiet _).symm, rfl, nofun, nofun, ?_⟩
      rintro ⟨err', h | h⟩ <;> cases h
    | write | refused | leave | report => cases h
  | closed err =>
    rw [hw] at h
    cases m with
    | report =>
      cases h
      exact .inr ⟨.reported err, [], (hquiet _).symm, rfl, nofun, nofun, fun _ => ⟨⟨err, .inr rfl⟩, rfl⟩⟩
    | write | refused | leave | close => cases h

theorem Piped.Flow.writer (h : s.Flow size) (hstep : s.writerStep m s.writer = some s') : s'.Flow size := by
  rcases Piped.writerStep_cases hstep with
    ⟨rest, hw, hgone, rfl⟩ | ⟨w, data, rfl, hrest, hstarted, hreported, hover⟩
  · have hnot : ¬ s.writer.Over := by
      rw [hw]
      rintro ⟨err, h | h⟩ <;> cases h
    unfold Piped.Flow at h ⊢
    dsimp only
    split at h
    all_goals simp_all [Main.gone]
  · unfold Piped.Flow at h ⊢
    dsimp only
    split at h
    · exact absurd h.1 hstarted
    · rw [hrest, h.2, List.append_assoc]
      exact ⟨h.1, rfl⟩
    · rw [hrest, h.2.2, List.append_assoc _ _ data]
      exact ⟨h.1, h.2.1, rfl⟩
    · rw [hrest, h.2.2, List.append_assoc _ _ data]
      exact ⟨h.1, h.2.1, rfl⟩
    · obtain ⟨hfull, hne, hlt, hw, hwritten⟩ := h
      obtain ⟨hw', rfl⟩ := hover hw
      rw [List.append_nil]
      exact ⟨hfull, hne, hlt, hw', hwritten⟩
    · obtain ⟨hcut, hw, hwritten⟩ := h
      obtain ⟨hw', rfl⟩ := hover hw
      rw [List.append_nil]
      exact ⟨hcut, hw', hwritten⟩
    · obtain ⟨hcut, hw, hwritten⟩ := h
      obtain ⟨hw', rfl⟩ := hover hw
      rw [List.append_nil]
      exact ⟨hcut, hw', hwritten⟩
    · exact absurd h.2.1 (hreported none)
    all_goals trivial

theorem Piped.Flow.after {err : Engine.Err} (hs : s.main = .afterRead (some err)) (hcut : Cut size s.acked)
    (hover : s.writer.Over) (hwritten : s.written = s.acked.flatten) : s.Flow size := by
  unfold Piped.Flow
  by_cases heof : err.isEOF = true
  · have hmain : s.main = .closing none := hs.trans (if_pos heof)
    rw [hmain]
    exact ⟨hcut, hover, hwritten⟩
  · have hmain : s.main = .closing (some (.readTar err)) := hs.trans (if_neg heof)
    rw [hmain]
    trivial

theorem Piped.Flow.read (h : s.Flow d.size) (hstep : s.readStep d s.main s.writer = some s') :
    s'.Flow d.size := by
  have hpos := d.size_pos
  unfold Piped.Flow at h
  cases hm : s.main with
  | filling got =>
    rw [hm] at h hstep
    obtain ⟨hfull, hlt, hwritten⟩ := h
    have hend : ∀ err, s.writer.Over → s' = { s with main := .ended got err } → s'.Flow d.size := by
      rintro err hover rfl
      rw [hover.rest, List.append_nil] at hwritten
      unfold Main.ended
      by_cases hgot : got = []
      · rw [if_pos hgot]
        rw [hgot, List.append_nil] at hwritten
        exact Piped.Flow.after rfl (Cut.of_full hpos hfull) hover hwritten
      · rw [if_neg hgot]
        exact ⟨hfull, hgot, hlt, hover, hwritten⟩
    cases hw : s.writer with
    | writing rest =>
      rw [hw] at hstep hwritten
      cases hstep
      have hrest : (if rest.drop (d.size - got.length) = [] then Writer.running
          else .writing (rest.drop (d.size - got.length))).rest = rest.drop (d.size - got.length) := by
        split
        · rename_i hdrop
          exact hdrop.symm
        · rfl
      have hsplit : s.written = s.acked.flatten ++ (got ++ rest.take (d.size - got.length)) ++
          rest.drop (d.size - got.length) := by
        rw [hwritten, Writer.rest]
        conv_lhs => rw [← List.take_append_drop (d.size - got.length) rest]
        simp only [List.append_assoc]
      unfold Piped.Flow
      dsimp only
      split
      all_goals (rename_i hmain; split at hmain)
      all_goals cases hmain
      · rename_i hne
        refine ⟨hfull, ?_, by rw [hrest, hsplit]⟩
        rw [List.length_append, List.length_take] at hne ⊢
        omega
      · rename_i heq
        exact ⟨hfull, heq, by rw [hrest, hsplit]⟩
    | closed err =>
      rw [hw] at hstep
      cases hstep
      exact hend (err.getD .eof) ⟨err, .inl hw⟩ rfl
    | reported err =>
      rw [hw] at hstep
      cases hstep
      exact hend (err.getD .eof) ⟨err, .inr hw⟩ rfl
    | unstarted | running | leaving =>
      rw [hw] at hstep
      cases hstep
  | starting | checking | uploading | closing | joining | completing | returned =>
    rw [hm] at hstep
    cases hstep

theorem Piped.Flow.main {f : Option Fault} {total : Nat} (h : s.Flow d.size)
    (hstep : s.mainStep sha256 d f total s.main = some s') : s'.Flow d.size := by
  have hpos := d.size_pos
  unfold Piped.Flow at h
  cases hm : s.main with
  | starting =>
    rw [hm] at h hstep
    obtain ⟨-, hacked, hwritten⟩ := h
    unfold Piped.mainStep at hstep
    dsimp only at hstep
    split at hstep
    · cases hstep
      trivial
    split at hstep
    · cases hstep
      trivial
    · cases hstep
      unfold Piped.Flow
      dsimp only
      rw [hacked, hwritten]
      exact ⟨nofun, rfl⟩
  | checking =>
    rw [hm] at h hstep
    unfold Piped.mainStep at hstep
    dsimp only at hstep
    split at hstep
    · cases hstep
      trivial
    · cases hstep
      exact ⟨h.1, hpos, by rw [List.append_nil]; exact h.2⟩
  | filling got =>
    rw [hm] at hstep
    cases hstep
  | uploading got readErr =>
    rw [hm] at h hstep
    unfold Piped.mainStep at hstep
    dsimp only at hstep
    split at hstep
    · cases hstep
      trivial
    cases hstep
    have hflat : (s.acked ++ [got]).flatten = s.acked.flatten ++ got := by
      rw [List.flatten_append, List.flatten_singleton]
    cases readErr with
    | none =>
      obtain ⟨hfull, hlen, hwritten⟩ := h
      refine ⟨fun u hu => ?_, by rw [hflat]; exact hwritten⟩
      rcases List.mem_append.mp hu with hu | hu
      · exact hfull u hu
      · rw [List.mem_singleton.mp hu, hlen]
    | some err =>
      obtain ⟨hfull, hne, hlt, hover, hwritten⟩ := h
      exact Piped.Flow.after rfl (Cut.append_last hfull hne hlt.le) hover (by rw [hflat]; exact hwritten)
  | closing err =>
    rw [hm] at h hstep
    cases hstep
    cases err with
    | none => exact h
    | some err => trivial
  | joining err =>
    rw [hm] at h hstep
    unfold Piped.mainStep at hstep
    dsimp only at hstep
    split at hstep
    · cases hstep
      trivial
    · cases hstep
      trivial
    · rename_i hw
      cases hstep
      exact ⟨h.1, hw, h.2.2⟩
    · cases hstep
  | completing =>
    rw [hm] at hstep
    cases hstep
    trivial
  | returned err =>
    rw [hm] at hstep
    cases hstep

theorem Piped.Flow.step {a : PipedAction} (h : s.Flow d.size) (hstep : Piped.step sha256 d a s = some s') :
    s'.Flow d.size := by
  cases a with
  | writer m => exact h.writer hstep
  | read => exact h.read hstep
  | go f total => exact h.main hstep

theorem Piped.Listed.step {a : PipedAction} (h : s.Listed sha256) (hstep : Piped.step sha256 d a s = some s') :
    s'.Listed sha256 := by
  unfold Piped.Listed at h ⊢
  cases a with
  | writer m =>
    rcases Piped.writerStep_cases hstep with ⟨rest, -, -, rfl⟩ | ⟨w, data, rfl, -⟩
    · exact h
    · exact h
  | read =>
    rw [Piped.step] at hstep
    unfold Piped.readStep at hstep
    split at hstep
    all_goals
      cases hstep
      try exact h
  | go f total =>
    rw [Piped.step] at hstep
    unfold Piped.mainStep at hstep
    repeat' split at hstep
    all_goals
      cases hstep
      try exact h
    simp [h, addChunk]

end

/-- The manifest that completes a run lists the whole archive, cut as the server cuts a stream, and
every chunk of it was acknowledged. -/
theorem completes_as_server {sha256 : Bytes → Sha} {d : Dispatch} {acts : List PipedAction} {s : Piped}
    (hrun : (piped sha256 d).Run (fun _ _ => True) .initial acts s) (hsend : s.main = .completing) :
    s.writer = .reported none ∧ s.acked.flatten = s.written ∧
      s.stream.chunks = s.acked.map (fun u => ⟨sha256 u, u.length⟩) ∧
      ∀ (req : BackupRequest), d = req.dispatch →
        ∀ (w : Nat) (e : Engine) (name : String) (script : List ReadReply) (caller : Option Fault)
          (t : Target) (st : Stats) (acts' : List (PipelineAction w)) (p : Pipeline w) (dm : Engine.DiskManifest),
          e.hash = sha256 → Reads s.written script →
          (backupStream e w name).Run (fun p a => ¬ p.Skips (IsLast name script) a)
            (.initial caller script t st) acts' p → p.result = some (.ok dm) →
          s.stream.chunks = dm.chunks ∧ s.stream.sizeBytes = dm.sizeBytes := by
  have hflow : s.Flow d.size :=
    hrun.invariant (I := fun s => s.Flow d.size) (fun a s s' hs _ hstep => hs.step hstep) ⟨rfl, rfl, rfl⟩
  have hlisted : s.Listed sha256 :=
    hrun.invariant (I := fun s => s.Listed sha256) (fun a s s' hs _ hstep => hs.step hstep) rfl
  unfold Piped.Flow at hflow
  rw [hsend] at hflow
  obtain ⟨hcut, hwriter, hwritten⟩ := hflow
  have hlisted : s.stream = _ := hlisted
  refine ⟨hwriter, hwritten.symm, by rw [hlisted], ?_⟩
  rintro req rfl w e name script caller t st acts' p dm rfl hreads hserver hres
  obtain ⟨owner, acct, hsane⟩ := Pipeline.sane_run t.soundBut_self hserver
  obtain ⟨-, -, hchunks, -, hsize⟩ := hsane.complete (fun _ => id) hres
  rw [BackupRequest.dispatch_size] at hcut
  have hunits : s.acked = (unitsOf name script).1 := by
    refine Cut.unique hcut ⟨(unitsOf_sizes name script).1, (unitsOf_sizes name script).2⟩ ?_
    rw [← hwritten, (unitsOf_reads name hreads).1]
  rw [hlisted, hchunks, hsize, ← hunits, List.length_flatten]
  exact ⟨rfl, rfl⟩

def byteRequest : BackupRequest := ⟨"r1", ["/etc"], [], "", ""⟩

def pairArchive : List PipedAction :=
  let go := PipedAction.go none 1
  [go, .writer (.write [7]), go, .read, .writer (.write [8, 9]), .read, .writer (.leave none), .writer .close,
    .read, go, .writer .report, go, go]

theorem pairArchive_follow : ∃ s,
    (piped byteEngine.hash byteRequest.dispatch).follow pairArchive .initial = some s ∧
      s.main = .completing ∧ s.written = [7, 8, 9] :=
  ⟨_, rfl, rfl, rfl⟩

/-- The same bytes, cut into reads in another way. -/
def pairScript : List ReadReply := [⟨[7, 8], none⟩, ⟨[9], some .eof⟩]

def pairActs : List (PipelineAction 2) :=
  List.replicate 4 .read ++ [.handOff secondOfTwo] ++
    List.replicate 13 (.worker secondOfTwo (.go .fine)) ++
    [.read, .close, .worker firstOfTwo (.go .fine), .worker secondOfTwo (.go .fine), .finish]

theorem pair_stored : ∃ s, (backupStream byteEngine 2 "scsi0").follow pairActs
    (.initial none pairScript ⟨∅, ∅, ∅⟩ .zero) = some s ∧
    s.result = some (.ok ⟨"scsi0", 3, [⟨byteSha, 3⟩]⟩) ∧
    ((backupStream byteEngine 2 "scsi0").trail pairActs
      (.initial none pairScript ⟨∅, ∅, ∅⟩ .zero)).all (·.1.ctx.isNone) = true :=
  ⟨_, rfl, rfl, rfl⟩

theorem completes_as_server_pair : ∃ (s : Piped) (p : Pipeline 2),
    s.main = .completing ∧ s.writer = .reported none ∧ s.acked.flatten = s.written ∧
      p.result = some (.ok ⟨"scsi0", 3, [⟨byteSha, 3⟩]⟩) ∧ s.stream.chunks = [⟨byteSha, 3⟩] := by
  obtain ⟨s, hfollow, hsend, hwritten⟩ := pairArchive_follow
  obtain ⟨p, hserver, hres, htrail⟩ := pair_stored
  obtain ⟨hwriter, hacked, -, hsame⟩ :=
    completes_as_server (System.run_of_follow (fun _ _ _ => trivial) hfollow) hsend
  have hreads : Reads s.written pairScript := by
    rw [hwritten]
    exact .more [7, 8] (.last [9])
  have hserver : (backupStream byteEngine 2 "scsi0").Run (fun p a => ¬ p.Skips (IsLast "scsi0" pairScript) a)
      (.initial none pairScript ⟨∅, ∅, ∅⟩ .zero) pairActs p :=
    System.run_of_trail (fun p a hctx => Pipeline.not_skips (Option.isNone_iff_eq_none.mp hctx)) hserver htrail
  obtain ⟨hchunks, -⟩ := hsame byteRequest rfl 2 byteEngine "scsi0" pairScript none _ _ pairActs p _ rfl hreads
    hserver hres
  exact ⟨s, p, hsend, hwriter, hacked, hres, hchunks⟩

end ProxBack.Agent.Upload
