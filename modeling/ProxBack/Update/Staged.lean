import ProxBack.Update.Download

/-! The binaries a server hands out, each with the version of the release it came from beside it.
`dir` is `StagedDir` of the data directory. -/
namespace ProxBack.Update
open Lib Text Prog
open Engine (Bytes Fault)

def stagedArtifacts : List String :=
  ["proxback-agent-linux-amd64", "proxback-agent-windows-amd64.exe", "proxback-helper-linux-amd64"]

def versionSidecarSuffix : String := ".version"

/-- `filepath.Join`, of a clean directory that is no root and the name of a file. -/
def stagedPath (dir name : String) : String := dir ++ "/" ++ name

def stagedVersionPath (dir name : String) : String := stagedPath dir (name ++ versionSidecarSuffix)

inductive VersionErr where
  | unknown
  | read (f : Files.Fault)
deriving DecidableEq

def versionText (raw : Bytes) : String := .ofList (trimSpace (Utf8.runes raw))

def stagedVersion (dir name : String) : UpdateM (Except VersionErr String) :=
  .call (.file (.readFile (stagedVersionPath dir name))) fun
  | .error .notExist => .ret (.error .unknown)
  | .error f => .ret (.error (.read f))
  | .ok raw => .ret (if versionText raw = "" then .error .unknown else .ok (versionText raw))

structure StagedStatus where
  name : String
  present : Bool
  version : String
deriving DecidableEq

def inspectStaged (dir : String) : List String → UpdateM (List StagedStatus)
  | [] => .ret []
  | name :: names =>
    .call (.file (.stat (stagedPath dir name))) fun
    | some _ => inspectStaged dir names >>= fun sts => .ret (⟨name, false, ""⟩ :: sts)
    | none =>
      stagedVersion dir name >>= fun ver =>
        inspectStaged dir names >>= fun sts => .ret (⟨name, true, ver.toOption.getD ""⟩ :: sts)

structure StagedRefresh where
  version : String
  updated : List String
  skipped : List String
  failed : List (String × Err)
  upToDate : List String
deriving DecidableEq

def stagedTempPrefix : String := ".proxback-staged-"

/-- `writeFileAtomic`, `dir` being the directory of `path`. -/
def writeFileAtomic (dir path : String) (data : Bytes) : UpdateM (Option Err) :=
  withTemp dir stagedTempPrefix fun tmp =>
    .call (.file (.write tmp data)) fun
    | some f => .call (.file (.close tmp)) fun _ => .ret (some (.write f))
    | none =>
      closed tmp <| executable tmp <| .call (.file (.rename tmp path)) fun r =>
        .ret (r.map fun f => .install f none)

section
variable (lower : Char → Char) (sha256 : Bytes → Bytes) (dir : String)

def stageAsset (asset : Asset) (checksums : List Char) (ver : String) : UpdateM (Option Err) :=
  withTemp dir stagedTempPrefix fun tmp =>
    download asset.downloadURL (toFile tmp) >>= fun
    | .error err => .call (.file (.close tmp)) fun _ => .ret (some (.download err))
    | .ok data =>
      closed tmp <|
        match verifyChecksum lower sha256 checksums asset data with
        | some err => .ret (some err)
        | none =>
          executable tmp <| .call (.file (.rename tmp (stagedPath dir asset.name))) fun
            | some f => .ret (some (.install f none))
            | none =>
              writeFileAtomic dir (stagedVersionPath dir asset.name) (Utf8.encode (ver ++ "\n").toList) >>=
                fun res => .ret (res.map .label)

def Release.assetNamed (rel : Release) (name : String) : Option Asset :=
  rel.assets.reverse.find? fun a => a.name = name

def stageAll (rel : Release) (checksums : List Char) (only : Option (List String)) :
    List String → StagedRefresh → UpdateM StagedRefresh
  | [], out => .ret out
  | name :: names, out =>
    if only.any fun stale => ¬ stale.contains name then stageAll rel checksums only names out
    else
      match rel.assetNamed name with
      | none => stageAll rel checksums only names { out with skipped := out.skipped ++ [name] }
      | some asset =>
        stageAsset lower sha256 dir asset checksums rel.version >>= fun
        | some err => stageAll rel checksums only names { out with failed := out.failed ++ [(name, err)] }
        | none => stageAll rel checksums only names { out with updated := out.updated ++ [name] }

/-- `refreshStaged`, of the names in `only` where it is given. -/
def refreshStaged (rel : Release) (only : Option (List String)) : UpdateM (StagedRefresh × Option Err) :=
  let out : StagedRefresh := ⟨rel.version, [], [], [], []⟩
  .call (.file (.mkdirAll dir)) fun
  | some f => .ret (out, some (.stage f))
  | none =>
    releaseChecksums rel >>= fun
    | .error err => .ret (out, some (.checksums err))
    | .ok checksums =>
      stageAll lower sha256 dir rel checksums only stagedArtifacts out >>= fun out => .ret (out, none)

/-- The tag of a version, as `ByTag` asks for it. -/
def tagOf (ver : String) : String :=
  .ofList ('v' :: match trimSpace ver.toList with
    | 'v' :: rest => rest
    | rest => rest)

def reconcileStaged (want : String) : UpdateM (StagedRefresh × Option Err) :=
  inspectStaged dir stagedArtifacts >>= fun sts =>
    let current := sts.filter fun st => st.present && st.version = want
    let stale := sts.filter fun st => ¬ (st.present && st.version = want)
    let out : StagedRefresh := ⟨want, [], [], [], current.map (·.name)⟩
    if stale = [] then .ret (out, none)
    else
      .call (.byTag (tagOf want)) fun
      | .error f => .ret (out, some (.release f))
      | .ok rel =>
        refreshStaged lower sha256 dir rel (some (stale.map (·.name))) >>= fun
        | (_, some err) => .ret (out, some err)
        | (res, none) => .ret ({ res with upToDate := out.upToDate }, none)

end

end ProxBack.Update
