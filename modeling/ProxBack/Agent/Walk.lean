import ProxBack.Agent.Names
import ProxBack.Agent.Unpack
import ProxBack.Lib.Glob
import ProxBack.Lib.Text

/-! The agent's walk of its include paths: the entries of the archive, and what the exclusion
patterns leave out. -/
namespace ProxBack.Agent
open Lib Glob Text Engine

/-- `strings.Split` at the double stars. -/
def splitStars : List Char → List (List Char)
  | [] => [[]]
  | '*' :: '*' :: s => [] :: splitStars s
  | c :: s => (splitStars s).modifyHead (c :: ·)

/-- `strings.Index`, and what comes after the part found. -/
def afterFirst (part : List Char) : List Char → Option (List Char)
  | [] => if part = [] then some [] else none
  | c :: s => if part <+: c :: s then some ((c :: s).drop part.length) else afterFirst part s

def partsFound (pattern : List Char) : Nat → List (List Char) → List Char → Bool
  | _, [], _ => true
  | i, part :: parts, rest =>
    let part := trimOf ['/'] part
    if part = [] then partsFound pattern (i + 1) parts rest
    else
      match afterFirst part rest with
      | none => false
      | some after =>
        if i = 0 ∧ ¬ part <+: rest ∧ ¬ ['*', '*'] <+: pattern then false
        else partsFound pattern (i + 1) parts after

/-- A pattern `path.Match` rejects does not match. -/
def matchGlob (pattern name : List Char) : Bool :=
  if pattern = name then true
  else if (splitStars pattern).length = 1 then pathMatch pattern name = some true
  else partsFound pattern 0 (splitStars pattern) name

def Platform.patternText (pf : Platform) (pattern : List Char) : List Char :=
  trimSpace (pf.toSlash pattern)

def excluded (pf : Platform) (patterns candidates : List (List Char)) : Bool :=
  patterns.any fun pattern =>
    pf.patternText pattern ≠ [] ∧ candidates.any (matchGlob (pf.patternText pattern))

structure FileName where
  text : List Char
  nonempty : text ≠ []
  no_slash : '/' ∉ text
  not_dot : text ≠ ['.']
  not_dots : text ≠ ['.', '.']
deriving DecidableEq

structure Info where
  perm : Nat
  modTime : Time
deriving DecidableEq

/-- The entries of a directory. What is passed over is neither a directory nor a regular file, or it
cannot be read. -/
inductive Forest where
  | nil
  | file (name : FileName) (info : Info) (data : Bytes) (rest : Forest)
  | dir (name : FileName) (info : Info) (sub rest : Forest)
  | passed (name : FileName) (rest : Forest)

inductive Kind where
  | file (info : Info) (data : Bytes)
  | dir (info : Info)
deriving DecidableEq

def Kind.isFile : Kind → Bool
  | file _ _ => true
  | dir _ => false

inductive Node where
  | file (info : Info) (data : Bytes)
  | dir (info : Info) (sub : Forest)

abbrev Below := List FileName

def segments (x : Below) : List (List Char) := x.map FileName.text

/-- What `filepath.WalkDir` comes to below a directory, without what is left out and what is below
it. -/
def walk (leave : Below → Bool) (above : Below) : Forest → List (Below × Kind)
  | .nil => []
  | .passed _ rest => walk leave above rest
  | .file name info data rest =>
    let here := above ++ [name]
    if leave here then walk leave above rest else (here, .file info data) :: walk leave above rest
  | .dir name info sub rest =>
    let here := above ++ [name]
    if leave here then walk leave above rest
    else (here, .dir info) :: (walk leave here sub ++ walk leave above rest)

def Forest.entries (f : Forest) : List (Below × Kind) := walk (fun _ => false) [] f

def archiveName (root : List Char) (x : Below) : List Char := joined (root :: segments x)

def relName (x : Below) : List Char := joined (segments x)

def baseName (x : Below) : List Char := (segments x).getLastD ['.']

def candidates (root : List Char) (x : Below) : List (List Char) :=
  [archiveName root x, relName x, baseName x]

def walkRoot (pf : Platform) (exclude : List (List Char)) (root : List Char) (info : Info)
    (sub : Forest) : List (Below × Kind) :=
  ([], .dir info) :: walk (fun x => excluded pf exclude (candidates root x)) [] sub

/-- `Truncate` to whole seconds. -/
def truncateSecond (t : Time) : Time := t - t % 10 ^ 9

def header (name : List Char) (info : Info) (typeflag : Tar.Typeflag) (size : Nat) : Tar.Header where
  name := .ofList name
  typeflag := typeflag
  mode := info.perm
  size := size
  modTime := truncateSecond info.modTime

def addDir (name : List Char) (info : Info) : Tar.Item :=
  let name := if name.getLast? = some '/' then name.dropLast else name
  ⟨header (name ++ ['/']) info .dir 0, [], none⟩

def addFile (name : List Char) (info : Info) (data : Bytes) : Tar.Item :=
  ⟨header name info .reg data.length, data, none⟩

def addEntry (root : List Char) : Below × Kind → Tar.Item
  | (x, .file info data) => addFile (archiveName root x) info data
  | (x, .dir info) => addDir (archiveName root x) info

inductive WriteErr where
  | emptyPath
  | stat (root : List Char)
deriving DecidableEq

def rootEntries (pf : Platform) (exclude : List (List Char)) (root : List Char) :
    Node → List (Below × Kind)
  | .file info data => [([], .file info data)]
  | .dir info sub => walkRoot pf exclude root info sub

/-- `clean` is the platform's `filepath.Clean`, `stat` what is at a clean path. -/
def writeTar (pf : Platform) (clean : List Char → List Char) (stat : List Char → Option Node)
    (exclude : List (List Char)) : List (List Char) → Except WriteErr (List Tar.Item)
  | [] => .ok []
  | p :: paths =>
    if trimSpace p = [] then .error .emptyPath
    else
      let root := clean p
      match stat root with
      | none => .error (.stat root)
      | some node =>
        let name := archivePrefix pf root
        match writeTar pf clean stat exclude paths with
        | .error err => .error err
        | .ok items => .ok ((rootEntries pf exclude name node).map (addEntry name) ++ items)

end ProxBack.Agent
