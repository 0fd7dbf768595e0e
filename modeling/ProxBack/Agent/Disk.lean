import ProxBack.Agent.CleanPath

/-! The file system a Unix agent unpacks into. Calls fail only for what stands in their way. -/
namespace ProxBack.Agent.Tar
open Lib Prog Engine

inductive DiskNode where
  | dir
  | file (data : Bytes)
deriving DecidableEq

abbrev Disk := List (List Char) → Option DiskNode

def DiskNode.isFile : DiskNode → Bool
  | dir => false
  | file _ => true

namespace Disk

def blocked (d : Disk) (path : List (List Char)) : Bool :=
  path.inits.any fun p => (d p).any DiskNode.isFile

def withDirs (d : Disk) (path : List (List Char)) : Disk := fun p => if p <+: path then some .dir else d p

def withNode (d : Disk) (path : List (List Char)) (node : DiskNode) : Disk :=
  fun p => if p = path then some node else d p

/-- `ENOTDIR`. -/
def notDir : Fault := .other 20

/-- `EISDIR`. -/
def isDir : Fault := .other 21

/-- `ENOENT`. -/
def noEntry : Fault := .other 2

/-- The directories a path leads through; `..` leads back. -/
def route (path : List (List Char)) : List (List (List Char)) :=
  path.inits.map fun p => cleanSegments true p []

def withRoute (d : Disk) (path : List (List Char)) : Disk := fun p => if p ∈ route path then some .dir else d p

/-- `os.MkdirAll`; a file on the way is met before anything is made. -/
def mkdirAll (d : Disk) (path : List (List Char)) : Except Fault Disk :=
  if (route path).any fun p => (d p).any DiskNode.isFile then .error notDir else .ok (d.withRoute path)

/-- `os.OpenFile` for writing, creating or emptying the file. -/
def openFile (d : Disk) (path : List (List Char)) : Except Fault Disk :=
  if d path = some .dir then .error isDir
  else
    match d path.dropLast with
    | some .dir => .ok (d.withNode path (.file []))
    | some (.file _) => .error notDir
    | none => .error noEntry

def write (d : Disk) (path : List (List Char)) (data : Bytes) : Except Fault Disk :=
  match d path with
  | some (.file old) => .ok (d.withNode path (.file (old ++ data)))
  | _ => .error noEntry

end Disk

def answered (d : Disk) : Except Fault Disk → Except Fault Unit × Disk
  | .ok d' => (.ok (), d')
  | .error f => (.error f, d)

/-- The calls of `extractTar` on a disk, for absolute paths; `cwd` is the agent's working directory.
The server is not reached. -/
def serve (cwd : String) : (c : Call) → Disk → Reply c × Disk
  | .abs path, d => (.ok (if unixPaths.isAbs path then unixClean path else unixPaths.join cwd path), d)
  | .mkdirAll path _, d => answered d (d.mkdirAll (pathSegments path))
  | .openFile path _, d => answered d (d.openFile (pathSegments path))
  | .write path data, d => answered d (d.write (pathSegments path) data)
  | .close _, d => (.ok (), d)
  | .chtimes _ _, d => ((), d)
  | .restoreStream _, d | .complete _, d => (.error .canceled, d)

namespace Disk

variable {d : Disk} {path p : List (List Char)}

@[simp]
theorem blocked_iff : d.blocked path = true ↔ ∃ p data, p <+: path ∧ d p = some (.file data) := by
  rw [blocked, List.any_eq_true]
  constructor
  · rintro ⟨p, hp, hfile⟩
    cases hnode : d p with
    | none =>
      rw [hnode] at hfile
      cases hfile
    | some node =>
      rw [hnode] at hfile
      cases node with
      | dir => cases hfile
      | file data => exact ⟨p, data, (List.mem_inits _ _).mp hp, hnode⟩
  · rintro ⟨p, data, hp, hfile⟩
    exact ⟨p, (List.mem_inits _ _).mpr hp, by rw [hfile]; rfl⟩

@[grind =] theorem mem_route (h : Proper path) : p ∈ route path ↔ p <+: path := by
  rw [route, List.mem_map]
  constructor
  · rintro ⟨q, hq, rfl⟩
    obtain ⟨rest, rfl⟩ := (List.mem_inits _ _).mp hq
    rw [cleanSegments_proper true h.left]
    exact List.prefix_append _ _
  · rintro ⟨rest, rfl⟩
    exact ⟨p, (List.mem_inits _ _).mpr (List.prefix_append _ _), cleanSegments_proper true h.left []⟩

@[grind =] theorem mkdirAll_proper (h : Proper path) :
    d.mkdirAll path = if d.blocked path then .error notDir else .ok (d.withDirs path) := by
  have hfile : ((route path).any fun p => (d p).any DiskNode.isFile) = d.blocked path := by
    rw [Bool.eq_iff_iff, blocked, List.any_eq_true, List.any_eq_true]
    exact exists_congr fun p => and_congr_left fun _ => (mem_route h).trans (List.mem_inits _ _).symm
  have hdirs : d.withRoute path = d.withDirs path := funext fun p => if_congr (mem_route h) rfl rfl
  rw [mkdirAll, hfile, hdirs]

def withFile (d : Disk) (path : List (List Char)) (data : Bytes) : Disk :=
  (d.withDirs path.dropLast).withNode path (.file data)

theorem not_prefix_dropLast (hne : path ≠ []) : ¬ path <+: path.dropLast := by
  intro hpre
  have hlen := hpre.length_le
  rw [List.length_dropLast] at hlen
  have hpos := List.length_pos_iff.mpr hne
  omega

end Disk

section Entry

variable {cwd : String} {d : Disk} {dest names : List (List Char)} {it : Item} (hdest : Proper dest)
  (hnames : Proper names) (hne : names ≠ [])

include hdest hnames hne

theorem target_dir :
    pathSegments (unixPaths.dir (absText (dest ++ names))) = (dest ++ names).dropLast := by
  obtain ⟨front, last, rfl⟩ := List.eq_nil_or_concat' names |>.resolve_left hne
  have hproper : Proper ((dest ++ front) ++ [last]) := by
    rw [List.append_assoc]
    exact hdest.append hnames
  rw [← List.append_assoc, dir_absText hproper, pathSegments_absText hproper.left, List.dropLast_concat]

theorem extractFile_run (herr : it.err = none) (hfree : d.blocked (dest ++ names).dropLast = false)
    (hdir : d (dest ++ names) ≠ some .dir) :
    run (serve cwd) (extractFile unixPaths (absText (dest ++ names)) it) d =
      (none, d.withFile (dest ++ names) it.data) := by
  have htarget := pathSegments_absText (hdest.append hnames)
  have hparent := target_dir hdest hnames hne
  have hlong : dest ++ names ≠ [] := List.append_ne_nil_of_right_ne_nil dest hne
  have hparents : Proper (dest ++ names).dropLast := fun seg hseg =>
    (hdest.append hnames) seg ((List.dropLast_sublist _).mem hseg)
  generalize hpath : dest ++ names = path at *
  have hnot := Disk.not_prefix_dropLast hlong
  have hopen : (d.withDirs path.dropLast).openFile path =
      .ok ((d.withDirs path.dropLast).withNode path (.file [])) := by
    rw [Disk.openFile, if_neg]
    · rw [Disk.withDirs, if_pos List.prefix_rfl]
    · rw [Disk.withDirs, if_neg hnot]
      exact hdir
  have hwrite : ((d.withDirs path.dropLast).withNode path (.file [])).write path it.data =
      .ok (d.withFile path it.data) := by
    rw [Disk.write, Disk.withNode, if_pos rfl]
    refine congrArg Except.ok (funext fun p => ?_)
    by_cases hp : p = path
    · rw [Disk.withNode, if_pos hp, Disk.withFile, Disk.withNode, if_pos hp, List.nil_append]
    · rw [Disk.withNode, if_neg hp, Disk.withNode, if_neg hp, Disk.withFile, Disk.withNode, if_neg hp]
  have hmkdir : d.mkdirAll path.dropLast = .ok (d.withDirs path.dropLast) := by
    rw [Disk.mkdirAll_proper hparents, hfree]
    rfl
  have hstep₁ : serve cwd (.mkdirAll (unixPaths.dir (absText path)) 0o755) d =
      (.ok (), d.withDirs path.dropLast) := by
    rw [serve, hparent, hmkdir]
    rfl
  have hstep₂ : serve cwd (.openFile (absText path) (permOf it.header.mode 0o644)) (d.withDirs path.dropLast) =
      (.ok (), (d.withDirs path.dropLast).withNode path (.file [])) := by
    rw [serve, htarget, hopen]
    rfl
  have hstep₃ : serve cwd (.write (absText path) it.data)
      ((d.withDirs path.dropLast).withNode path (.file [])) = (.ok (), d.withFile path it.data) := by
    rw [serve, htarget, hwrite]
    rfl
  rw [extractFile, run_call, hstep₁]
  dsimp only
  rw [run_call, hstep₂]
  dsimp only
  rw [run_call, hstep₃]
  dsimp only
  rw [herr]
  dsimp only
  rw [run_call]
  show run (serve cwd) (if it.header.modTime = 0 then _ else _) _ = _
  split
  · rfl
  · rfl

theorem extractFile_blocked (h : d.blocked (dest ++ names).dropLast = true ∨ d (dest ++ names) = some .dir) :
    (run (serve cwd) (extractFile unixPaths (absText (dest ++ names)) it) d).1 ≠ none := by
  have htarget := pathSegments_absText (hdest.append hnames)
  have hparent := target_dir hdest hnames hne
  have hlong : dest ++ names ≠ [] := List.append_ne_nil_of_right_ne_nil dest hne
  have hparents : Proper (dest ++ names).dropLast := fun seg hseg =>
    (hdest.append hnames) seg ((List.dropLast_sublist _).mem hseg)
  generalize hpath : dest ++ names = path at *
  rw [extractFile, run_call]
  cases hblocked : d.blocked path.dropLast with
  | true =>
    have hstep : serve cwd (.mkdirAll (unixPaths.dir (absText path)) 0o755) d = (.error Disk.notDir, d) := by
      rw [serve, hparent, Disk.mkdirAll_proper hparents, hblocked]
      rfl
    rw [hstep]
    nofun
  | false =>
    have hstep₁ : serve cwd (.mkdirAll (unixPaths.dir (absText path)) 0o755) d =
        (.ok (), d.withDirs path.dropLast) := by
      rw [serve, hparent, Disk.mkdirAll_proper hparents, hblocked]
      rfl
    have hdir : (d.withDirs path.dropLast) path = some .dir := by
      rw [Disk.withDirs, if_neg (Disk.not_prefix_dropLast hlong)]
      exact h.resolve_left (by rw [hblocked]; nofun)
    have hstep₂ : serve cwd (.openFile (absText path) (permOf it.header.mode 0o644))
        (d.withDirs path.dropLast) = (.error Disk.isDir, d.withDirs path.dropLast) := by
      rw [serve, htarget, Disk.openFile, if_pos hdir]
      rfl
    rw [hstep₁]
    dsimp only
    rw [run_call, hstep₂]
    nofun

end Entry

end ProxBack.Agent.Tar
