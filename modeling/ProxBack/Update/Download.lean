import ProxBack.Engine.Basic
import ProxBack.Lib.Files
import ProxBack.Lib.Text
import ProxBack.Lib.Utf8

/-! What the updaters share: a download into a file, its checksum, and the temporary file it is kept
in until it is put in place. -/
namespace ProxBack.Update
open Lib Text Prog
open Engine (Bytes Fault)

/-- A response as far as it can be read: the pieces its body comes in, and what cuts it off. -/
structure Response where
  status : Nat
  contentType : String
  chunks : List Bytes
  cut : Option Fault
deriving DecidableEq

def Response.body (resp : Response) : Bytes := resp.chunks.flatten

structure Asset where
  name : String
  downloadURL : String
deriving DecidableEq

structure Release where
  tagName : String
  assets : List Asset
deriving DecidableEq

def Release.version (rel : Release) : String :=
  match rel.tagName.toList with
  | 'v' :: rest => .ofList rest
  | _ => rel.tagName

inductive Call where
  | file (c : Files.Call)
  | get (url : String)
  | byTag (tag : String)

abbrev Reply : Call → Type
  | .file c => Files.Reply c
  | .get _ => Except Fault Response
  | .byTag _ => Except Fault Release

abbrev UpdateM (α : Type) := Prog Call Reply α

inductive DownloadErr where
  | unreachable (f : Fault)
  | status (code : Nat)
  | contentType (value : String)
  | read (f : Fault)
  | write (f : Files.Fault)
deriving DecidableEq

inductive Err where
  | noServer
  | stage (f : Files.Fault)
  | download (err : DownloadErr)
  | empty
  | html
  | size (got want : Int)
  | checksum (got want : String)
  | checksums (err : DownloadErr)
  | release (f : Fault)
  | finish (f : Files.Fault)
  | chmod (f : Files.Fault)
  | aside (f : Files.Fault)
  | install (f : Files.Fault) (rollback : Option Files.Fault)
  | label (err : Err)
  | write (f : Files.Fault)
deriving DecidableEq

def copy (dst : Bytes → UpdateM (Option Files.Fault)) (cut : Option Fault) :
    List Bytes → UpdateM (Option DownloadErr)
  | [] => .ret (cut.map .read)
  | chunk :: chunks =>
    dst chunk >>= fun
    | some f => .ret (some (.write f))
    | none => copy dst cut chunks

def toFile (path : String) (chunk : Bytes) : UpdateM (Option Files.Fault) :=
  .call (.file (.write path chunk)) .ret

def toBuffer (_ : Bytes) : UpdateM (Option Files.Fault) := .ret none

/-- `download`: what was handed to the writer, and to the hash beside it. -/
def download (url : String) (dst : Bytes → UpdateM (Option Files.Fault)) : UpdateM (Except DownloadErr Bytes) :=
  .call (.get url) fun
  | .error f => .ret (.error (.unreachable f))
  | .ok resp =>
    if resp.status ≠ 200 then .ret (.error (.status resp.status))
    else
      copy dst resp.cut resp.chunks >>= fun
      | some err => .ret (.error err)
      | none => .ret (.ok resp.body)

def hexDigit (n : Nat) : Char := if n < 10 then Char.ofNat (48 + n) else Char.ofNat (87 + n)

/-- `hex.EncodeToString`. -/
def hexOf (b : Bytes) : List Char := b.flatMap fun x => [hexDigit (x.toNat / 16), hexDigit (x.toNat % 16)]

def checksumLine (lower : Char → Char) (name line : List Char) : Option (List Char) :=
  match fields line with
  | [sum, file] => if file = name ∨ file = '*' :: name then some (sum.map lower) else none
  | _ => none

/-- The sum that `checksums.txt` gives for a file; none if it does not. -/
def checksumFor (lower : Char → Char) (checksums name : List Char) : List Char :=
  ((checksums.splitOn '\n').findSome? (checksumLine lower name)).getD []

def checksumsName : String := "checksums.txt"

/-- `releaseChecksums`: the text of the release's checksums, or nothing if it has none. -/
def releaseChecksums (rel : Release) : UpdateM (Except DownloadErr (List Char)) :=
  match rel.assets.find? fun a => a.name = checksumsName with
  | none => .ret (.ok [])
  | some a =>
    download a.downloadURL toBuffer >>= fun
    | .error err => .ret (.error err)
    | .ok data => .ret (.ok (Utf8.runes data))

def verifyChecksum (lower : Char → Char) (sha256 : Bytes → Bytes) (checksums : List Char) (asset : Asset)
    (data : Bytes) : Option Err :=
  let want := checksumFor lower checksums asset.name.toList
  if checksums = [] then none
  else if want = [] then none
  else if hexOf (sha256 data) ≠ want then
    some (.checksum (.ofList (hexOf (sha256 data))) (.ofList want))
  else none

/-- A file is made under a new name, used, and removed; if it is in place by then, nothing is left
to remove. -/
def withTemp (dir stem : String) (use : String → UpdateM (Option Err)) : UpdateM (Option Err) :=
  .call (.file (.createTemp dir stem)) fun
  | .error f => .ret (some (.stage f))
  | .ok tmp => use tmp >>= fun res => .call (.file (.remove tmp)) fun _ => .ret res

/-- `close`, and what follows where it succeeds. -/
def closed (path : String) (next : UpdateM (Option Err)) : UpdateM (Option Err) :=
  .call (.file (.close path)) fun
  | some f => .ret (some (.finish f))
  | none => next

def executable (path : String) (next : UpdateM (Option Err)) : UpdateM (Option Err) :=
  .call (.file (.chmod path)) fun
  | some f => .ret (some (.chmod f))
  | none => next

end ProxBack.Update
