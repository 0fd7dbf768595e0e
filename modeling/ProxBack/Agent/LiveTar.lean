import ProxBack.Agent.TarWriter
import ProxBack.Agent.Walk

/-! The archive of a file system that lives on: directories and files change, vanish and fail while
the agent walks over them. -/
namespace ProxBack.Agent.Live
open Lib Prog Engine Tar Text

inductive Mode where
  | regular
  | dir
  | other
deriving DecidableEq

structure FileInfo where
  mode : Mode
  size : Nat
  info : Info
deriving DecidableEq

/-- One entry at the moment of the walk: what its directory says of it, `Info`, what comes of opening
and reading it, and the error of listing it. -/
structure Visit where
  isDir : Bool
  info : Except Fault FileInfo
  opened : Except Fault (List ReadReply)
  listed : Option Fault

/-- The entries of a directory, in the order the walk takes them, each with what a listing of it
gives. -/
inductive Tree where
  | nil
  | entry (name : FileName) (v : Visit) (sub rest : Tree)

structure IncludePath where
  path : List Char
  stat : Except Fault FileInfo
  lstat : Except Fault FileInfo
  opened : Except Fault (List ReadReply)
  listed : Option Fault
  sub : Tree

inductive SkipCause where
  | os (f : Fault)
  | copy (err : CopyErr)
deriving DecidableEq

structure Skip where
  root : List Char
  below : Below
  cause : SkipCause
deriving DecidableEq

structure Report where
  files : Nat
  dirs : Nat
  excluded : Nat
  skipped : List Skip
  skippedCount : Nat
  changed : Nat
deriving DecidableEq

def Report.zero : Report := ⟨0, 0, 0, [], 0, 0⟩

def maxRecordedSkips : Nat := 50

def Report.skip (rep : Report) (s : Skip) : Report :=
  { rep with
    skippedCount := rep.skippedCount + 1
    skipped := if rep.skipped.length < maxRecordedSkips then rep.skipped ++ [s] else rep.skipped }

inductive AddErr where
  | dirHeader (name : List Char) (err : WriterErr)
  | fileHeader (name : List Char) (err : WriterErr)
  | padAfterRead (name : List Char) (err : CopyErr)
  | pad (name : List Char) (err : CopyErr)
  | root (f : Fault)
deriving DecidableEq

inductive TarErr where
  | emptyPath
  | stat (root : List Char) (f : Fault)
  | add (err : AddErr)
  | walk (root : List Char) (err : AddErr)
  | finish (err : WriterErr)
deriving DecidableEq

section
variable (pf : Platform) (encode : Header → Except Fault Bytes)

def dirHeader (name : List Char) (info : Info) : Header :=
  let name := if name.getLast? = some '/' then name.dropLast else name
  header (name ++ ['/']) info .dir 0

def addDir (name : List Char) (fi : FileInfo) (tw : Writer) : SinkM (Option AddErr × Writer) :=
  tw.writeHeader encode (dirHeader name fi.info) >>= fun
  | (some err, tw) => .ret (some (.dirHeader name err), tw)
  | (none, tw) => .ret (none, tw)

def addFile (root name : List Char) (x : Below) (fi : FileInfo) (opened : Except Fault (List ReadReply))
    (rep : Report) (tw : Writer) : SinkM (Option AddErr × Report × Writer) :=
  match opened with
  | .error f => .ret (none, rep.skip ⟨root, x, .os f⟩, tw)
  | .ok script =>
    tw.writeHeader encode (header name fi.info .reg fi.size) >>= fun
    | (some err, tw) => .ret (some (.fileHeader name err), rep, tw)
    | (none, tw) =>
      copyLoop script fi.size 0 tw >>= fun
      | (n, some cause, tw) =>
        tw.fill (fi.size - n) >>= fun
        | (some err, tw) => .ret (some (.padAfterRead name err), rep, tw)
        | (none, tw) =>
          let rep := rep.skip ⟨root, x, .copy cause⟩
          .ret (none, { rep with changed := rep.changed + 1, files := rep.files + 1 }, tw)
      | (n, none, tw) =>
        if n < fi.size then
          tw.fill (fi.size - n) >>= fun
          | (some err, tw) => .ret (some (.pad name err), rep, tw)
          | (none, tw) => .ret (none, { rep with changed := rep.changed + 1, files := rep.files + 1 }, tw)
        else .ret (none, { rep with files := rep.files + 1 }, tw)

/-- The callback at an entry that is not left out; `top` is the first element of its name. -/
def visit (root top : List Char) (x : Below) (v : Visit) (rep : Report) (tw : Writer) :
    SinkM (Option AddErr × Report × Writer) :=
  match v.info with
  | .error f => .ret (none, rep.skip ⟨root, x, .os f⟩, tw)
  | .ok fi =>
    if v.isDir then
      addDir encode (archiveName top x) fi tw >>= fun
      | (some err, tw) => .ret (some err, rep, tw)
      | (none, tw) => .ret (none, { rep with dirs := rep.dirs + 1 }, tw)
    else if fi.mode = .regular then addFile encode root (archiveName top x) x fi v.opened rep tw
    else .ret (none, rep, tw)

/-- `filepath.WalkDir` below a directory. A directory that is left out or cannot be listed costs what is
below it, and one without an `Info` does not. -/
def walk (exclude : List (List Char)) (root top : List Char) (above : Below) :
    Tree → Report → Writer → SinkM (Option AddErr × Report × Writer)
  | .nil, rep, tw => .ret (none, rep, tw)
  | .entry name v sub rest, rep, tw =>
    let here := above ++ [name]
    if excluded pf exclude (candidates top here) then
      walk exclude root top above rest { rep with excluded := rep.excluded + 1 } tw
    else
      visit encode root top here v rep tw >>= fun
      | (some err, rep, tw) => .ret (some err, rep, tw)
      | (none, rep, tw) =>
        if v.isDir then
          match v.listed with
          | some f => walk exclude root top above rest (rep.skip ⟨root, here, .os f⟩) tw
          | none =>
            walk exclude root top here sub rep tw >>= fun
            | (some err, rep, tw) => .ret (some err, rep, tw)
            | (none, rep, tw) => walk exclude root top above rest rep tw
        else walk exclude root top above rest rep tw

/-- `filepath.WalkDir` from an include path, which must itself be there. -/
def walkDir (exclude : List (List Char)) (root top : List Char) (p : IncludePath) (rep : Report) (tw : Writer) :
    SinkM (Option AddErr × Report × Writer) :=
  match p.lstat with
  | .error f => .ret (some (.root f), rep, tw)
  | .ok fi =>
    visit encode root top [] ⟨fi.mode = .dir, .ok fi, p.opened, p.listed⟩ rep tw >>= fun
    | (some err, rep, tw) => .ret (some err, rep, tw)
    | (none, rep, tw) =>
      if fi.mode = .dir then
        match p.listed with
        | some f => .ret (some (.root f), rep, tw)
        | none => walk pf encode exclude root top [] p.sub rep tw
      else .ret (none, rep, tw)

/-- `clean` is the platform's `filepath.Clean`. -/
def writeTar (clean : List Char → List Char) (exclude : List (List Char)) :
    List IncludePath → Report → Writer → SinkM (Report × Option TarErr)
  | [], rep, tw =>
    tw.close >>= fun
    | some err => .ret (rep, some (.finish err))
    | none => .ret (rep, none)
  | p :: paths, rep, tw =>
    if trimSpace p.path = [] then .ret (rep, some .emptyPath)
    else
      let root := clean p.path
      match p.stat with
      | .error f => .ret (rep, some (.stat root f))
      | .ok fi =>
        let top := archivePrefix pf root
        if fi.mode = .dir then
          walkDir pf encode exclude root top p rep tw >>= fun
          | (some err, rep, _) => .ret (rep, some (.walk root err))
          | (none, rep, tw) => writeTar clean exclude paths rep tw
        else
          addFile encode root top [] fi p.opened rep tw >>= fun
          | (some err, rep, _) => .ret (rep, some (.add err))
          | (none, rep, tw) => writeTar clean exclude paths rep tw

end

structure Seen where
  root : List Char
  top : List Char
  below : Below
  v : Visit
  leftOut : Bool

def Seen.name (sn : Seen) : List Char := archiveName sn.top sn.below

def Seen.file (sn : Seen) : Option (FileInfo × List ReadReply) :=
  match sn.v.info, sn.v.opened with
  | .ok fi, .ok script => if sn.leftOut = false ∧ sn.v.isDir = false ∧ fi.mode = .regular then some (fi, script) else none
  | _, _ => none

def Seen.dir (sn : Seen) : Option FileInfo :=
  match sn.v.info with
  | .ok fi => if sn.leftOut = false ∧ sn.v.isDir = true then some fi else none
  | .error _ => none

def fileData (fi : FileInfo) (script : List ReadReply) : Bytes :=
  (copied script fi.size).1 ++ zeros (fi.size - (copied script fi.size).1.length)

def Seen.items (sn : Seen) : List Item :=
  match sn.dir, sn.file with
  | some fi, _ => [⟨dirHeader sn.name fi.info, [], none⟩]
  | none, some (fi, script) => [⟨header sn.name fi.info .reg fi.size, fileData fi script, none⟩]
  | none, none => []

def Seen.lost (sn : Seen) : List SkipCause :=
  if sn.leftOut then []
  else
    match sn.v.info with
    | .error f => [.os f]
    | .ok fi =>
      if sn.v.isDir = false ∧ fi.mode = .regular then
        match sn.v.opened with
        | .error f => [.os f]
        | .ok script => ((copied script fi.size).2.map fun err => SkipCause.copy (.read err)).toList
      else []

def Seen.unlisted (sn : Seen) : List SkipCause :=
  if sn.leftOut = false ∧ sn.v.isDir = true then (sn.v.listed.map SkipCause.os).toList else []

def Seen.skips (sn : Seen) : List Skip := (sn.lost ++ sn.unlisted).map fun c => ⟨sn.root, sn.below, c⟩

section
variable (pf : Platform) (exclude : List (List Char))

def seenBelow (root top : List Char) (above : Below) : Tree → List Seen
  | .nil => []
  | .entry name v sub rest =>
    let here := above ++ [name]
    let out := excluded pf exclude (candidates top here)
    ⟨root, top, here, v, out⟩ ::
      ((if out = false ∧ v.isDir = true ∧ v.listed = none then seenBelow root top here sub else []) ++
        seenBelow root top above rest)

/-- At an include path: a file whatever its mode, or a directory with what is below it. -/
def seenAt (clean : List Char → List Char) (p : IncludePath) : List Seen :=
  let root := clean p.path
  let top := archivePrefix pf root
  match p.stat, p.lstat with
  | .error _, _ => []
  | .ok fi, lstat =>
    if fi.mode = .dir then
      match lstat with
      | .error _ => []
      | .ok fi =>
        ⟨root, top, [], ⟨fi.mode = .dir, .ok fi, p.opened, none⟩, false⟩ ::
          if fi.mode = .dir then seenBelow pf exclude root top [] p.sub else []
    else [⟨root, top, [], ⟨false, .ok { fi with mode := .regular }, p.opened, none⟩, false⟩]

end

end ProxBack.Agent.Live
