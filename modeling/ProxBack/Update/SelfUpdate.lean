import ProxBack.Agent.Unpack
import ProxBack.Update.Download

/-! The three updaters: the agent's, the node helper's and the server's. -/
namespace ProxBack.Update
open Lib Text Prog Function
open Engine (Bytes Fault)
open Agent.Tar (Paths hasPrefix)

structure Ask where
  asset : String
  sizeBytes : Int
  sha256 : String

structure Sniffer where
  head : Bytes
  done : Bool

def Sniffer.write (h : Sniffer) (p : Bytes) : Sniffer :=
  if h.done then h
  else
    let head := h.head ++ p
    if 64 ≤ head.length then ⟨head.take 64, true⟩ else ⟨head, false⟩

def sniff (chunks : List Bytes) : Bytes := (chunks.foldl Sniffer.write ⟨[], false⟩).head

theorem sniff_eq (chunks : List Bytes) : sniff chunks = chunks.flatten.take 64 := by
  have hdone : ∀ (chunks : List Bytes) (head : Bytes), (chunks.foldl Sniffer.write ⟨head, true⟩).head = head := by
    intro chunks
    induction chunks with
    | nil => exact fun _ => rfl
    | cons chunk chunks ih => exact ih
  have hgoing : ∀ (chunks : List Bytes) (head : Bytes), head.length < 64 →
      (chunks.foldl Sniffer.write ⟨head, false⟩).head = (head ++ chunks.flatten).take 64 := by
    intro chunks
    induction chunks with
    | nil =>
      intro head hlt
      rw [List.flatten_nil, List.append_nil, List.take_of_length_le hlt.le]
      rfl
    | cons chunk chunks ih =>
      intro head hlt
      rw [List.foldl_cons, List.flatten_cons, ← List.append_assoc]
      unfold Sniffer.write
      dsimp only
      by_cases hfull : 64 ≤ (head ++ chunk).length
      · rw [if_neg (by decide), if_pos hfull]
        refine (hdone chunks _).trans ?_
        rw [List.take_append_of_le_length hfull]
      · rw [if_neg (by decide), if_neg hfull]
        exact ih _ (not_le.mp hfull)
  exact hgoing chunks [] (by decide)

def lowerHead (lower : Char → Char) (head : Bytes) : List Char := (trimSpace (Utf8.runes head)).map lower

def startsWith (text : String) (head : List Char) : Bool := text.toList.isPrefixOf head

def Agent.looksLikeHTML (lower : Char → Char) (head : Bytes) : Bool :=
  let head := lowerHead lower head
  startsWith "<!doctype html" head || startsWith "<html" head ||
    startsWith "<?xml" head && head.tails.any (startsWith "html")

def Helper.looksLikeHTML (lower : Char → Char) (head : Bytes) : Bool :=
  let head := lowerHead lower head
  startsWith "<!doctype html" head || startsWith "<html" head

section
variable (lower : Char → Char) (sha256 : Bytes → Bytes)

def wantedSum (d : Ask) : List Char := (trimSpace d.sha256.toList).map lower

def verifyDownload (d : Ask) (data : Bytes) (html : Bool) : Option Err :=
  if data.length = 0 then some .empty
  else if html then some .html
  else if d.sizeBytes > 0 ∧ (data.length : Int) ≠ d.sizeBytes then some (.size data.length d.sizeBytes)
  else if wantedSum lower d ≠ [] ∧ hexOf (sha256 data) ≠ wantedSum lower d then
    some (.checksum (.ofList (hexOf (sha256 data))) (.ofList (wantedSum lower d)))
  else none

/-- `download`, for the agent and for the helper, which take different pages for binaries. -/
def fetchAsset (html : Bytes → Bool) (url tmp : String) (d : Ask) : UpdateM (Option Err) :=
  .call (.get url) fun
  | .error f => .ret (some (.download (.unreachable f)))
  | .ok resp =>
    if resp.status ≠ 200 then .ret (some (.download (.status resp.status)))
    else if hasPrefix resp.contentType "text/html" then
      .ret (some (.download (.contentType resp.contentType)))
    else
      copy (toFile tmp) resp.cut resp.chunks >>= fun
      | some err => .ret (some (.download err))
      | none => .ret (verifyDownload lower sha256 d resp.body (html (sniff resp.chunks)))

def oldBinarySuffix : String := ".old"

def updateTempPrefix : String := ".proxback-update-"

def installBinary (staged dest : String) : UpdateM (Option Err) :=
  let old := dest ++ oldBinarySuffix
  let place : UpdateM (Option Err) :=
    .call (.file (.rename staged dest)) fun
    | none => .call (.file (.remove old)) fun _ => .ret none
    | some f => .call (.file (.rename old dest)) fun rollback => .ret (some (.install f rollback))
  .call (.file (.remove old)) fun _ =>
    .call (.file (.rename dest old)) fun
    | some f => if f ≠ .notExist then .ret (some (.aside f)) else place
    | none => place

def applyUpdate (html : Bytes → Bool) (paths : Paths) (serverURL : String) (d : Ask) (dest : String) :
    UpdateM (Option Err) :=
  if trimSpace serverURL.toList = [] then .ret (some .noServer)
  else
    withTemp (paths.dir dest) updateTempPrefix fun tmp =>
      fetchAsset lower sha256 html (serverURL ++ "/downloads/" ++ d.asset) tmp d >>= fun
      | some err => .call (.file (.close tmp)) fun _ => .ret (some err)
      | none => closed tmp (executable tmp (installBinary tmp dest))

def Agent.applyUpdate : Paths → String → Ask → String → UpdateM (Option Err) :=
  Update.applyUpdate lower sha256 (Agent.looksLikeHTML lower)

def Helper.applyUpdate : Paths → String → Ask → String → UpdateM (Option Err) :=
  Update.applyUpdate lower sha256 (Helper.looksLikeHTML lower)

/-- The end of `Apply`: the server keeps the previous binary aside, and moves it back where the new
one cannot be put in its place. -/
def swapBinary (tmp binPath : String) : UpdateM (Option Err) :=
  let old := binPath ++ oldBinarySuffix
  .call (.file (.remove old)) fun _ =>
    .call (.file (.rename binPath old)) fun
    | some f => .ret (some (.aside f))
    | none =>
      .call (.file (.rename tmp binPath)) fun
      | none => .ret none
      | some f => .call (.file (.rename old binPath)) fun _ => .ret (some (.install f none))

def Server.apply (paths : Paths) (rel : Release) (asset : Asset) (binPath : String) : UpdateM (Option Err) :=
  withTemp (paths.dir binPath) updateTempPrefix fun tmp =>
    download asset.downloadURL (toFile tmp) >>= fun
    | .error err => .call (.file (.close tmp)) fun _ => .ret (some (.download err))
    | .ok data =>
      closed tmp <| releaseChecksums rel >>= fun
        | .error err => .ret (some (.checksums err))
        | .ok checksums =>
          match verifyChecksum lower sha256 checksums asset data with
          | some err => .ret (some err)
          | none => executable tmp (swapBinary tmp binPath)

end

end ProxBack.Update
