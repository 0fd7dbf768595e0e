import ProxBack.Agent.Tar
import ProxBack.Sched.Transfer

/-! An agent restore: the server streams the verified chunks as one response, the agent
unpacks the tar stream in it and then reports completion. -/
namespace ProxBack.Agent.Tar
open Lib Prog Engine

/-- The parts of `path/filepath` that `extractTar` uses; they differ between platforms.
`clean` is `Clean` after `FromSlash`. -/
structure Paths where
  clean : String → String
  isAbs : String → Bool
  join : String → String → String
  dir : String → String
  separator : String

def hasPrefix (s p : String) : Bool := p.toList.isPrefixOf s.toList

inductive UnpackErr where
  | noDestination
  | stream (f : Fault)
  | status (code : Nat)
  | createRestoreDir (dest : String) (f : Fault)
  | resolveRestoreDir (f : Fault)
  | readTar (err : Engine.Err)
  | unsafeEntry (name : String)
  | createDir (target : String) (f : Fault)
  | createParent (target : String) (f : Fault)
  | create (target : String) (f : Fault)
  | write (target : String) (err : Engine.Err)
  | close (target : String) (f : Fault)
  | complete (f : Fault)
  | completeStatus (code : Nat)
deriving DecidableEq

inductive Call where
  | restoreStream (runID : String)
  | complete (runID : String)
  | abs (path : String)
  | mkdirAll (path : String) (perm : Nat)
  | openFile (path : String) (perm : Nat)
  | write (path : String) (data : Bytes)
  | close (path : String)
  | chtimes (path : String) (time : Time)

abbrev Reply : Call → Type
  | .restoreStream _ => Except Fault (Nat × Body)
  | .complete _ => Except Fault Nat
  | .abs _ => Except Fault String
  | .mkdirAll _ _ | .openFile _ _ | .write _ _ | .close _ => Except Fault Unit
  | .chtimes _ _ => Unit

abbrev UnpackM (α : Type) := Prog Call Reply α

def permOf (mode fallback : Nat) : Nat := if mode % 0o1000 = 0 then fallback else mode % 0o1000

def extractFile (paths : Paths) (target : String) (it : Item) : UnpackM (Option UnpackErr) :=
  .call (.mkdirAll (paths.dir target) 0o755) fun
  | .error f => .ret (some (.createParent target f))
  | .ok () =>
    .call (.openFile target (permOf it.header.mode 0o644)) fun
    | .error f => .ret (some (.create target f))
    | .ok () =>
      .call (.write target it.data) fun
      | .error f => .call (.close target) fun _ => .ret (some (.write target (.fault f)))
      | .ok () =>
        match it.err with
        | some err => .call (.close target) fun _ => .ret (some (.write target err))
        | none =>
          .call (.close target) fun
          | .error f => .ret (some (.close target f))
          | .ok () =>
            if it.header.modTime = 0 then .ret none
            else .call (.chtimes target it.header.modTime) fun () => .ret none

/-- One turn of the loop of `extractTar`. -/
def extractEntry (paths : Paths) (absDest : String) (it : Item) : UnpackM (Option UnpackErr) :=
  let rel := paths.clean it.header.name
  let target := paths.join absDest rel
  if rel = "." then .ret none
  else if paths.isAbs rel ∨ rel = ".." ∨ hasPrefix rel (".." ++ paths.separator) then
    .ret (some (.unsafeEntry it.header.name))
  else if ¬ hasPrefix target (absDest ++ paths.separator) then
    .ret (some (.unsafeEntry it.header.name))
  else
    match it.header.typeflag with
    | .dir =>
      .call (.mkdirAll target (permOf it.header.mode 0o755)) fun
      | .error f => .ret (some (.createDir target f))
      | .ok () => .ret none
    | .reg => extractFile paths target it
    | .other _ => .ret none

def extractLoop (paths : Paths) (absDest : String) :
    List Item → Engine.Err → UnpackM (Option UnpackErr)
  | [], err => .ret (if err.isEnd then none else some (.readTar err))
  | it :: rest, err =>
    extractEntry paths absDest it >>= fun
    | some err => .ret (some err)
    | none => extractLoop paths absDest rest err

def extractTar (fmt : Format) (paths : Paths) (body : Body) (dest : String) :
    UnpackM (Option UnpackErr) :=
  .call (.mkdirAll dest 0o755) fun
  | .error f => .ret (some (.createRestoreDir dest f))
  | .ok () =>
    .call (.abs dest) fun
    | .error f => .ret (some (.resolveRestoreDir f))
    | .ok absDest => extractLoop paths absDest (items fmt [] body).1 (items fmt [] body).2

def runRestore (fmt : Format) (paths : Paths) (runID destPath : String) :
    UnpackM (Option UnpackErr) :=
  if destPath = "" then .ret (some .noDestination)
  else
    .call (.restoreStream runID) fun
    | .error f => .ret (some (.stream f))
    | .ok (code, body) =>
      if code ≠ 200 then .ret (some (.status code))
      else
        extractTar fmt paths body destPath >>= fun
        | some err => .ret (some err)
        | none =>
          .call (.complete runID) fun
          | .error f => .ret (some (.complete f))
          | .ok code =>
            if code < 200 ∨ code ≥ 300 then .ret (some (.completeStatus code)) else .ret none

abbrev Event := Σ c : Call, Reply c

/-- The entry is on disk: its directory was made, or its file was written in full. -/
def Extracted (paths : Paths) (absDest : String) (log : List Event) (it : Item) : Prop :=
  let target := paths.join absDest (paths.clean it.header.name)
  match it.header.typeflag with
  | .dir => [⟨.mkdirAll target (permOf it.header.mode 0o755), .ok ()⟩] <:+: log
  | .reg => it.err = none ∧
    [⟨.mkdirAll (paths.dir target) 0o755, .ok ()⟩,
      ⟨.openFile target (permOf it.header.mode 0o644), .ok ()⟩, ⟨.write target it.data, .ok ()⟩,
      ⟨.close target, .ok ()⟩] <:+: log
  | .other _ => False

/-- What `extractTar` passes over: the destination itself, and what is neither a directory
nor a regular file. -/
def Ignored (paths : Paths) (it : Item) : Prop :=
  paths.clean it.header.name = "." ∨ ∃ flag, it.header.typeflag = .other flag

theorem Extracted.mono {paths : Paths} {absDest : String} {log log' : List Event} {it : Item}
    (h : Extracted paths absDest log it) (hsub : log <:+: log') :
    Extracted paths absDest log' it := by
  unfold Extracted at h ⊢
  dsimp only at h ⊢
  split
  · rename_i hflag
    rw [hflag] at h
    exact h.trans hsub
  · rename_i hflag
    rw [hflag] at h
    exact ⟨h.1, h.2.trans hsub⟩
  · rename_i hflag
    rw [hflag] at h
    exact h

theorem extractFile_logs {paths : Paths} {target : String} {it : Item} {log : List Event}
    (h : Logs (extractFile paths target it) log (.ret none)) :
    it.err = none ∧ [⟨.mkdirAll (paths.dir target) 0o755, .ok ()⟩,
      ⟨.openFile target (permOf it.header.mode 0o644), .ok ()⟩, ⟨.write target it.data, .ok ()⟩,
      ⟨.close target, .ok ()⟩] <+: log := by
  obtain ⟨f | ⟨⟩, log, rfl, h₁⟩ := h.of_call
  · cases h₁.of_ret.2
  obtain ⟨f | ⟨⟩, log, rfl, h₂⟩ := h₁.of_call
  · cases h₂.of_ret.2
  obtain ⟨f | ⟨⟩, log, rfl, h₃⟩ := h₂.of_call
  · obtain ⟨r, log, rfl, h₄⟩ := h₃.of_call
    cases h₄.of_ret.2
  dsimp only at h₃
  cases herr : it.err with
  | some err =>
    rw [herr] at h₃
    obtain ⟨r, log, rfl, h₄⟩ := h₃.of_call
    cases h₄.of_ret.2
  | none =>
    rw [herr] at h₃
    obtain ⟨f | ⟨⟩, log, rfl, h₄⟩ := h₃.of_call
    · cases h₄.of_ret.2
    exact ⟨rfl, log, rfl⟩

theorem extractEntry_logs {paths : Paths} {absDest : String} {it : Item} {log : List Event}
    (h : Logs (extractEntry paths absDest it) log (.ret none)) :
    Ignored paths it ∨ Extracted paths absDest log it := by
  unfold extractEntry at h
  dsimp only at h
  split at h
  · rename_i hdot
    exact .inl (.inl hdot)
  split at h
  · cases h.of_ret.2
  split at h
  · cases h.of_ret.2
  split at h
  · rename_i hflag
    obtain ⟨f | ⟨⟩, log, rfl, h₁⟩ := h.of_call
    · cases h₁.of_ret.2
    right
    unfold Extracted
    dsimp only
    rw [hflag]
    exact ⟨[], log, rfl⟩
  · rename_i hflag
    obtain ⟨herr, hlog⟩ := extractFile_logs h
    right
    unfold Extracted
    dsimp only
    rw [hflag]
    exact ⟨herr, hlog.isInfix⟩
  · rename_i flag hflag
    exact .inl (.inr ⟨flag, hflag⟩)

theorem extractLoop_logs {paths : Paths} {absDest : String} {its : List Item} {err : Engine.Err}
    {log : List Event} (h : Logs (extractLoop paths absDest its err) log (.ret none)) :
    err.isEnd = true ∧ ∀ it ∈ its, Ignored paths it ∨ Extracted paths absDest log it := by
  induction its generalizing log with
  | nil =>
    have hret := h.of_ret.2
    refine ⟨?_, nofun⟩
    by_contra hne
    rw [if_neg hne] at hret
    cases hret
  | cons it rest ih =>
    obtain ⟨_ | err', log₁, log₂, rfl, hentry, hrest⟩ := h.of_bind_ret
    rotate_left
    · cases hrest.of_ret.2
    obtain ⟨hend, hall⟩ := ih hrest
    refine ⟨hend, fun it' hit => ?_⟩
    rcases List.mem_cons.mp hit with rfl | hit
    · exact (extractEntry_logs hentry).imp_right fun h => h.mono (List.prefix_append _ _).isInfix
    · exact (hall it' hit).imp_right fun h => h.mono (List.suffix_append _ _).isInfix

/-- The calls of `extractTar`: none of them reports completion. -/
def Call.Unpacks : Call → Prop
  | .complete _ | .restoreStream _ => False
  | _ => True

theorem extractFile_calls (paths : Paths) (target : String) (it : Item) :
    Calls Call.Unpacks (extractFile paths target it) := by
  refine ⟨trivial, ?_⟩
  rintro (f | ⟨⟩)
  · trivial
  refine ⟨trivial, ?_⟩
  rintro (f | ⟨⟩)
  · trivial
  refine ⟨trivial, ?_⟩
  rintro (f | ⟨⟩)
  · exact ⟨trivial, fun _ => trivial⟩
  dsimp only
  split
  · exact ⟨trivial, fun _ => trivial⟩
  refine ⟨trivial, ?_⟩
  rintro (f | ⟨⟩)
  · trivial
  dsimp only
  split
  · trivial
  · exact ⟨trivial, fun _ => trivial⟩

theorem extractLoop_calls (paths : Paths) (absDest : String) (its : List Item) (err : Engine.Err) :
    Calls Call.Unpacks (extractLoop paths absDest its err) := by
  induction its with
  | nil => trivial
  | cons it rest ih =>
    refine Calls.bind ?_ fun out => ?_
    · unfold extractEntry
      dsimp only
      split
      · trivial
      split
      · trivial
      split
      · trivial
      split
      · refine ⟨trivial, ?_⟩
        rintro (f | ⟨⟩) <;> trivial
      · exact extractFile_calls _ _ _
      · trivial
    · split
      · trivial
      · exact ih

theorem extractTar_calls (fmt : Format) (paths : Paths) (body : Body) (dest : String) :
    Calls Call.Unpacks (extractTar fmt paths body dest) := by
  refine ⟨trivial, ?_⟩
  rintro (f | ⟨⟩)
  · trivial
  refine ⟨trivial, ?_⟩
  rintro (f | absDest)
  · trivial
  · exact extractLoop_calls _ _ _ _

theorem extractTar_logs {fmt : Format} {paths : Paths} {body : Body} {dest : String}
    {log : List Event} (h : Logs (extractTar fmt paths body dest) log (.ret none)) :
    (items fmt [] body).2.isEnd = true ∧
      ∃ absDest, ⟨.abs dest, .ok absDest⟩ ∈ log ∧
        ∀ it ∈ (items fmt [] body).1, Ignored paths it ∨ Extracted paths absDest log it := by
  obtain ⟨f | ⟨⟩, log, rfl, h₁⟩ := h.of_call
  · cases h₁.of_ret.2
  obtain ⟨f | absDest, log, rfl, h₂⟩ := h₁.of_call
  · cases h₂.of_ret.2
  obtain ⟨hend, hall⟩ := extractLoop_logs h₂
  refine ⟨hend, absDest, .tail _ (.head _), fun it hit => ?_⟩
  exact (hall it hit).imp_right fun h => h.mono (List.suffix_append [_, _] log).isInfix

theorem runRestore_logs {fmt : Format} {paths : Paths} {runID destPath : String}
    {log : List Event} {q : UnpackM (Option UnpackErr)} {runID' : String} {r : Except Fault Nat}
    (h : Logs (runRestore fmt paths runID destPath) log q) (hdone : ⟨.complete runID', r⟩ ∈ log) :
    ∃ body absDest, ⟨.restoreStream runID, .ok (200, body)⟩ ∈ log ∧
      (items fmt [] body).2.isEnd = true ∧ ⟨.abs destPath, .ok absDest⟩ ∈ log ∧
      ∀ it ∈ (items fmt [] body).1, Ignored paths it ∨ Extracted paths absDest log it := by
  unfold runRestore at h
  split at h
  · obtain ⟨rfl, -⟩ := h.of_ret
    cases hdone
  cases h with
  | nil => cases hdone
  | cons reply h =>
    rcases reply with f | ⟨code, body⟩
    · obtain ⟨rfl, -⟩ := h.of_ret
      cases List.mem_singleton.mp hdone
    dsimp only at h
    split at h
    · obtain ⟨rfl, -⟩ := h.of_ret
      cases List.mem_singleton.mp hdone
    rename_i hcode
    obtain rfl : code = 200 := by simpa using hcode
    have hdone' := List.mem_of_ne_of_mem (by simp) hdone
    rcases h.of_bind with ⟨q', hq⟩ | ⟨out, log₁, log₂, rfl, hlog₁, hlog₂⟩
    · exact absurd ((extractTar_calls fmt paths body destPath).logs hq _ hdone') id
    rcases out with _ | err
    rotate_left
    · obtain ⟨rfl, -⟩ := hlog₂.of_ret
      rw [List.append_nil] at hdone'
      exact absurd ((extractTar_calls fmt paths body destPath).logs hlog₁ _ hdone') id
    obtain ⟨hend, absDest, habs, hall⟩ := extractTar_logs hlog₁
    refine ⟨body, absDest, .head _, hend, .tail _ (List.mem_append_left _ habs), fun it hit => ?_⟩
    refine (hall it hit).imp_right fun h => h.mono ?_
    exact ⟨[_], log₂, rfl⟩

/-- `RestoreStream`: the disks of the restore point one after the other. -/
def restoreStream (e : Engine) : List Engine.DiskManifest → Stats → RestoreM (Option Engine.Err × Stats)
  | [], st => .ret (none, st)
  | disk :: rest, st =>
    e.restoreDisk disk st >>= fun
    | (.error err, st) => .ret (some err, st)
    | (.ok (), st) => restoreStream e rest st

/-- The response to a restore of these disks, with `full` as its tar stream. It ends
cleanly only after all disks were written. Otherwise the handler has aborted it, or the
connection broke: the agent gets a part of the stream and then an error. -/
def Served (e : Engine) (disks : List Engine.DiskManifest) (full : Bytes) (body : Body) : Prop :=
  (∃ st log st', Logs (restoreStream e disks st) log (.ret (none, st')) ∧
      full = wrote log ∧ body = ⟨full, none⟩) ∨
    ∃ err, err.isEnd = false ∧ body.broken = some err ∧ body.left <+: full

theorem Served.items {e : Engine} {disks : List Engine.DiskManifest} {full : Bytes} {body : Body}
    (h : Served e disks full body) (fmt : Format) (hend : (items fmt [] body).2.isEnd = true) :
    items fmt [] ⟨full, none⟩ = items fmt [] body := by
  rcases h with ⟨st, log, st', -, -, rfl⟩ | ⟨err, herr, hb, more, rfl⟩
  · rfl
  · exact items_whole fmt [] hb herr hend more

theorem completed_unpacked {e : Engine} {disks : List Engine.DiskManifest} {full : Bytes}
    {fmt : Format} {paths : Paths} {runID destPath : String} {log : List Event}
    {q : UnpackM (Option UnpackErr)} (hlog : Logs (runRestore fmt paths runID destPath) log q)
    (hserved : ∀ body, ⟨.restoreStream runID, .ok (200, body)⟩ ∈ log → Served e disks full body)
    {r : Except Fault Nat} (hdone : ⟨.complete runID, r⟩ ∈ log) :
    ∃ absDest, ⟨.abs destPath, .ok absDest⟩ ∈ log ∧
      ∀ it ∈ (items fmt [] ⟨full, none⟩).1, Ignored paths it ∨ Extracted paths absDest log it := by
  obtain ⟨body, absDest, hbody, hend, habs, hall⟩ := runRestore_logs hlog hdone
  rw [(hserved body hbody).items fmt hend]
  exact ⟨absDest, habs, hall⟩

def slice (block : Bytes) (start width : Nat) : Bytes := (block.drop start).take width

def octal (field : Bytes) : Nat :=
  (field.takeWhile fun c => 48 ≤ c ∧ c ≤ 55).foldl (fun n c => 8 * n + (c.toNat - 48)) 0

def text (field : Bytes) : String :=
  .ofList ((field.takeWhile (· ≠ 0)).map fun c => .ofNat c.toNat)

def checksum (block : Bytes) : Nat :=
  ((block.take 148 ++ List.replicate 8 32 ++ block.drop 156).map UInt8.toNat).sum

def typeflagOf : UInt8 → Typeflag
  | 53 => .dir
  | 48 | 0 => .reg
  | c => .other (.ofNat c.toNat)

def isHeaderOnly (flag : UInt8) : Bool := 49 ≤ flag ∧ flag ≤ 54

/-- A block of the plain `ustar` format, without extended records. -/
def ustar : Format := fun _ block =>
  if octal (slice block 148 8) ≠ checksum block then .error errHeader
  else
    let flag := (slice block 156 1).headD 0
    let name := text (slice block 0 100)
    let above := text (slice block 345 155)
    .ok (.entry {
      name := if above = "" then name else above ++ "/" ++ name
      typeflag := typeflagOf flag
      mode := octal (slice block 100 8)
      size := if isHeaderOnly flag then 0 else octal (slice block 124 12)
      modTime := (62135596800 + octal (slice block 136 12)) * 10 ^ 9 })

def splitSlash : List Char → List (List Char)
  | [] => [[]]
  | c :: rest =>
    match c, splitSlash rest with
    | '/', segs => [] :: segs
    | c, seg :: segs => (c :: seg) :: segs
    | c, [] => [[c]]

/-- The elements of a path that `Clean` keeps; the last one is on top of the stack. -/
def cleanSegments (rooted : Bool) : List (List Char) → List (List Char) → List (List Char)
  | [], stack => stack.reverse
  | seg :: rest, stack =>
    if seg = [] ∨ seg = ['.'] then cleanSegments rooted rest stack
    else if seg = ['.', '.'] then
      match stack with
      | top :: below =>
        if top = ['.', '.'] then cleanSegments rooted rest (seg :: stack)
        else cleanSegments rooted rest below
      | [] => cleanSegments rooted rest (if rooted then [] else [seg])
    else cleanSegments rooted rest (seg :: stack)

def unixClean (path : String) : String :=
  let rooted : Bool := path.toList.head? = some '/'
  let segs := cleanSegments rooted (splitSlash path.toList) []
  .ofList (match segs, rooted with
    | [], true => ['/']
    | [], false => ['.']
    | segs, true => segs.flatMap fun seg => '/' :: seg
    | segs, false => (segs.flatMap fun seg => '/' :: seg).tail)

def unixPaths : Paths where
  clean := unixClean
  isAbs path := path.toList.head? = some '/'
  join dir path := unixClean (dir ++ "/" ++ path)
  dir path := unixClean (.ofList (path.toList.reverse.dropWhile (· ≠ '/')).reverse)
  separator := "/"

def padded (s : String) (width : Nat) : Bytes :=
  let bytes : Bytes := s.toList.map fun c => c.toNat.toUInt8
  bytes ++ List.replicate (width - bytes.length) 0

def headerBlock (name mode sum : String) (flag : UInt8) (linkname : String) : Bytes :=
  padded name 100 ++ padded mode 8 ++ padded "0000000" 8 ++ padded "0000000" 8 ++
    padded "00000000000" 12 ++ padded "00000000000" 12 ++ padded sum 7 ++ [32, flag] ++
    padded linkname 100 ++ padded "ustar" 6 ++ padded "00" 2 ++ List.replicate 247 0

end ProxBack.Agent.Tar
