import ProxBack.Lib.Text

/-! The names of include paths on the agent's platform, and the name their contents have in the
archive. -/
namespace ProxBack.Agent
open Lib Text

inductive Platform where
  | posix
  | windows
deriving DecidableEq, Repr

namespace Platform

/-- `os.IsPathSeparator`. -/
def isSep : Platform → Char → Bool
  | posix, c => c = '/'
  | windows, c => c = '/' ∨ c = '\\'

def separator : Platform → Char
  | posix => '/'
  | windows => '\\'

/-- `filepath.ToSlash`. -/
def toSlash : Platform → List Char → List Char
  | posix, s => s
  | windows, s => toSlashes s

end Platform

/-- The beginning of a path, with either separator for a backslash and up to the case of letters.
A path that goes on does so with a separator. -/
def hasPrefixFold : (s p : List Char) → Bool
  | s, [] => s.head?.all Platform.windows.isSep
  | [], _ :: _ => false
  | c :: s, d :: p =>
    (if d = '\\' then Platform.windows.isSep c else c.toUpper = d.toUpper) && hasPrefixFold s p

def uncLen (path : List Char) (start : Nat) : Nat :=
  let host := (path.drop start).takeWhile fun c => ¬ Platform.windows.isSep c
  let share := (path.drop (start + host.length + 1)).takeWhile fun c => ¬ Platform.windows.isSep c
  min path.length (start + host.length + 1 + share.length)

/-- The length of the volume of a path on Windows: a drive, or a host and its share, or a device. -/
def volumeNameLen (path : List Char) : Nat :=
  match path with
  | [] => 0
  | c :: rest =>
    if rest.head? = some ':' ∧ c.toNat < 128 then 2
    else if ¬ Platform.windows.isSep c then 0
    else if hasPrefixFold path "\\\\.\\UNC".toList then uncLen path 8
    else if hasPrefixFold path "\\\\.".toList ∨ hasPrefixFold path "\\\\?".toList ∨
        hasPrefixFold path "\\??".toList then
      min path.length (4 + ((path.drop 4).takeWhile fun c => ¬ Platform.windows.isSep c).length)
    else if rest.head?.any Platform.windows.isSep then uncLen path 2
    else 0

/-- `filepath.VolumeName`. -/
def Platform.volumeName : Platform → List Char → List Char
  | posix, _ => []
  | windows, path => path.take (volumeNameLen path)

/-- `filepath.Base`. -/
def Platform.base (pf : Platform) (path : List Char) : List Char :=
  if path = [] then ['.']
  else
    let path := path.rdropWhile pf.isSep
    let path := path.drop (pf.volumeName path).length
    let last := path.rtakeWhile fun c => ¬ pf.isSep c
    if last = [] then [pf.separator] else last

/-- The name an include path's contents live under inside the archive: the letter of a drive, the
host and the share of a share, `root` for the root, and otherwise the base name. -/
def archivePrefix (pf : Platform) (root : List Char) : List Char :=
  let vol := pf.volumeName root
  if vol ≠ [] ∧ trimOf ['\\', '/'] (root.drop vol.length) = [] then
    trimOf ['_'] ((vol.map fun c => if c = '\\' ∨ c = '/' then '_' else c).filter (· ≠ ':'))
  else
    let base := pf.base root
    if base ∈ [['/'], ['\\'], ['.'], ['.', '.'], []] then "root".toList else base

example : archivePrefix .windows "D:\\".toList = "D".toList := by decide +kernel

example : archivePrefix .windows "\\\\host\\share\\".toList = "host_share".toList := by decide +kernel

theorem not_isSep_of_mem_rtakeWhile {pf : Platform} {path : List Char} {c : Char}
    (h : c ∈ path.rtakeWhile fun c => ¬ pf.isSep c) : pf.isSep c = false := by
  have hall := List.mem_rtakeWhile_imp h
  simpa using hall

theorem archivePrefix_plain (pf : Platform) (root : List Char) : '/' ∉ archivePrefix pf root := by
  intro h
  unfold archivePrefix at h
  dsimp only at h
  split at h
  · have hmem := List.mem_of_mem_filter (mem_of_mem_trimOf h)
    obtain ⟨c, -, hc⟩ := List.mem_map.mp hmem
    split at hc
    · cases hc
    · rename_i hsep
      exact hsep (.inr hc)
  · split at h
    · revert h
      decide
    · rename_i hbase
      unfold Platform.base at h hbase
      dsimp only at h hbase
      split at h
      · revert h
        decide
      · rename_i hne
        rw [if_neg hne] at hbase
        split at h
        · rename_i hlast
          rw [if_pos hlast] at hbase
          cases pf with
          | posix => exact hbase (by decide)
          | windows => exact hbase (by decide)
        · have hsep := not_isSep_of_mem_rtakeWhile h
          cases pf with
          | posix => simp [Platform.isSep] at hsep
          | windows => simp [Platform.isSep] at hsep

end ProxBack.Agent
