import ProxBack.Lib.Text
import ProxBack.Store.Backups

/-! What a job says of its membership and of the control of its runs, and the checks that
the job API makes of both. -/
namespace ProxBack.Store
open Lib Text
open Engine (SourceKind)

structure JobSource where
  hostID : String
  vmid : Int
  name : String
  agentID : String
  paths : List String
deriving DecidableEq, Repr

structure VM where
  hostID : String
  hostName : String
  vmid : Int
  name : String
  node : String
  tags : List String
deriving DecidableEq, Repr

/-- `HasTag`, where `lower` is the case mapping of a character. -/
def VM.hasTag (lower : Char → Char) (v : VM) (tag : String) : Bool :=
  let want := (trimSpace tag.toList).map lower
  if want = [] then false else v.tags.any fun t => t.toList = want

structure RunControl where
  excludeDisks : List String
  retryCount : Int
  retryDelayMinutes : Int
  maxDurationMinutes : Int
deriving DecidableEq, Repr

namespace RunControl

def defaultRetryDelayMinutes : Int := 5

def normalized (p : RunControl) : RunControl :=
  if p.retryDelayMinutes = 0 then { p with retryDelayMinutes := defaultRetryDelayMinutes } else p

def minRetryCount : Int := 0

def maxRetryCount : Int := 5

def minRetryDelayMinutes : Int := 1

def maxRetryDelayMinutes : Int := 120

def maxRunDurationMinutes : Int := 10080

def between (field : String) (lo hi n : Int) : Option String :=
  if n < lo ∨ n > hi then
    some (field ++ " must be between " ++ toString lo ++ " and " ++ toString hi ++ ", got " ++
      toString n)
  else none

def validate (p : RunControl) : Option String :=
  let p := p.normalized
  between "policy.retryCount" minRetryCount maxRetryCount p.retryCount <|>
    between "policy.retryDelayMinutes" minRetryDelayMinutes maxRetryDelayMinutes
      p.retryDelayMinutes <|>
    between "policy.maxDurationMinutes" 0 maxRunDurationMinutes p.maxDurationMinutes

theorem le_of_between {field : String} {lo hi n : Int} (h : between field lo hi n = none) :
    lo ≤ n ∧ n ≤ hi := by
  unfold between at h
  split at h
  · cases h
  · omega

theorem retryCount_of_validate {p : RunControl} (h : p.validate = none) :
    0 ≤ p.retryCount ∧ p.retryCount ≤ 5 := by
  have hfirst : between "policy.retryCount" minRetryCount maxRetryCount
      p.normalized.retryCount = none := by
    simp only [validate, Option.orElse_eq_orElse, Option.orElse_eq_or, Option.or_eq_none_iff] at h
    exact h.1
  have hle := le_of_between hfirst
  have hsame : p.normalized.retryCount = p.retryCount := by
    unfold normalized
    split <;> rfl
  rwa [hsame] at hle

end RunControl

def kindText : SourceKind → String
  | .vm => "vm"
  | .agent => "agent"

def agentSourceErr (src : JobSource) : Option String :=
  if src.agentID = "" then some "agent job sources need agentId"
  else if src.paths = [] then some "agent job sources need at least one path"
  else if src.paths.any fun p => trimSpace p.toList = [] then
    some "agent job include paths must not be empty"
  else none

def vmSourceErr (src : JobSource) : Option String :=
  if src.hostID = "" ∨ src.vmid = 0 then some "vm job sources need hostId and vmid" else none

def validateJob (kind : String) (sources : List JobSource) (tagFilter : String) : Option String :=
  if tagFilter ≠ "" ∧ kind ≠ kindText .vm then some "tagFilter is only supported for vm jobs"
  else if sources = [] ∧ tagFilter = "" then some "at least one source is required"
  else if kind = kindText .vm then sources.findSome? vmSourceErr
  else if kind = kindText .agent then sources.findSome? agentSourceErr
  else some "kind must be \"vm\" or \"agent\""

end ProxBack.Store
