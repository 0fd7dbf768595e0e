import ProxBack.Lib.FinMap
import ProxBack.Sched.Plan
import ProxBack.Store.Stamp
import Mathlib.Data.List.Sort

/-! The columns of the database that hold timestamps and are ordered or compared as texts, their
rewriting when the database is opened, and two queries that rest on the order. -/
namespace ProxBack.Store
open Lib
open Engine (SourceKind)
open Sched.Execute (SourceStatus)

structure BackupTimes where
  id : String
  sourceKind : SourceKind
  sourceID : String
  targetID : String
  createdAt : List Char
deriving DecidableEq, Repr

structure SourceTimes where
  sourceID : String
  status : SourceStatus
  finishedAt : Option (List Char)
deriving DecidableEq, Repr

/-- The tables with the columns in question; of those that only one statement compares, the
columns alone. -/
structure TimeTables where
  backups : List BackupTimes
  runSources : List SourceTimes
  runsStarted : List (Option (List Char))
  runsFinished : List (Option (List Char))
  helpersRegistered : List (Option (List Char))
  tokensExpire : List (Option (List Char))
  sessionsExpire : List (Option (List Char))
deriving DecidableEq, Repr

inductive TimeColumn where
  | backupsCreatedAt
  | jobRunsStartedAt
  | jobRunsFinishedAt
  | helpersRegisteredAt
  | enrollTokensExpiresAt
  | sessionsExpiresAt
  | runSourcesFinishedAt
deriving DecidableEq, Repr

def sortedTimeColumns : List TimeColumn :=
  [.backupsCreatedAt, .jobRunsStartedAt, .jobRunsFinishedAt, .helpersRegisteredAt,
    .enrollTokensExpiresAt, .sessionsExpiresAt]

/-- The columns that stand in an `ORDER BY` or in a comparison of some query: the listings of
restore points and runs, the helper of a node, the token that is consumed, the sessions that are
over, and the outcomes of the workloads. -/
def comparedColumns : List TimeColumn :=
  [.backupsCreatedAt, .jobRunsStartedAt, .helpersRegisteredAt, .enrollTokensExpiresAt,
    .sessionsExpiresAt, .runSourcesFinishedAt]

namespace TimeTables

def column (db : TimeTables) : TimeColumn → List (Option (List Char))
  | .backupsCreatedAt => db.backups.map fun row => some row.createdAt
  | .jobRunsStartedAt => db.runsStarted
  | .jobRunsFinishedAt => db.runsFinished
  | .helpersRegisteredAt => db.helpersRegistered
  | .enrollTokensExpiresAt => db.tokensExpire
  | .sessionsExpiresAt => db.sessionsExpire
  | .runSourcesFinishedAt => db.runSources.map SourceTimes.finishedAt

def texts (db : TimeTables) (c : TimeColumn) : List (List Char) :=
  (db.column c).filterMap fun cell => cell.filter (· ≠ [])

def rewrite (db : TimeTables) (f : List Char → List Char) : TimeColumn → TimeTables
  | .backupsCreatedAt =>
    { db with backups := db.backups.map fun row => { row with createdAt := f row.createdAt } }
  | .jobRunsStartedAt => { db with runsStarted := db.runsStarted.map (Option.map f) }
  | .jobRunsFinishedAt => { db with runsFinished := db.runsFinished.map (Option.map f) }
  | .helpersRegisteredAt => { db with helpersRegistered := db.helpersRegistered.map (Option.map f) }
  | .enrollTokensExpiresAt => { db with tokensExpire := db.tokensExpire.map (Option.map f) }
  | .sessionsExpiresAt => { db with sessionsExpire := db.sessionsExpire.map (Option.map f) }
  | .runSourcesFinishedAt =>
    { db with runSources := db.runSources.map fun row => { row with finishedAt := row.finishedAt.map f } }

end TimeTables

/-- The canonical text of a timestamp. What is none of ours, or reads as the zero time, is left
alone. -/
def canonicalText (raw : List Char) : List Char :=
  if raw = [] ∨ parseTime raw = zeroTime then raw else fmtTime (parseTime raw)

/-- The last step of opening the database, and the only one that touches these columns. -/
def normalizeTimestamps (db : TimeTables) : TimeTables :=
  sortedTimeColumns.foldl (fun db c => db.rewrite canonicalText c) db

def NotOlder (a b : BackupTimes) : Prop :=
  b.createdAt < a.createdAt ∨ b.createdAt = a.createdAt ∧ b.id ≤ a.id

instance (a b : BackupTimes) : Decidable (NotOlder a b) := inferInstanceAs (Decidable (_ ∨ _))

namespace TimeTables

def restorePoints (db : TimeTables) (kind : SourceKind) (sourceID targetID : String) : List BackupTimes :=
  db.backups.filter fun b => b.sourceKind = kind ∧ b.sourceID = sourceID ∧ b.targetID = targetID

def latestBackupForSource (db : TimeTables) (kind : SourceKind) (sourceID targetID : String) :
    Option BackupTimes :=
  ((db.restorePoints kind sourceID targetID).insertionSort NotOlder).head?

def attempts (db : TimeTables) : List SourceTimes :=
  db.runSources.filter fun row => row.sourceID ≠ "" ∧ (row.status = .success ∨ row.status = .failed)

end TimeTables

def SourceTimes.finished (row : SourceTimes) : List Char := row.finishedAt.getD []

def NotLater (a b : SourceTimes) : Prop := a.finished ≤ b.finished

instance (a b : SourceTimes) : Decidable (NotLater a b) := inferInstanceAs (Decidable (_ ≤ _))

structure SourceOutcome where
  status : SourceStatus
  finishedAt : Int
deriving DecidableEq, Repr

def SourceTimes.outcome (row : SourceTimes) : SourceOutcome := ⟨row.status, parseTime row.finished⟩

def TimeTables.latestSourceOutcomes (db : TimeTables) : FinMap String SourceOutcome :=
  (db.attempts.insertionSort NotLater).foldl (fun out row => out.insert row.sourceID row.outcome) ∅

end ProxBack.Store
