import ProxBack.Lib.Race
import ProxBack.Sched.Scripts
import ProxBack.Store.Policy

/-! The script of a guest against the clock: how long the helper lets it run, and how long the
server waits for the answer. -/
namespace ProxBack.Sched.ScriptTimeout
open Lib Text Prog Engine Store Scripts
open Guest (VmPlan)

/-- `time.Duration`, in nanoseconds. -/
abbrev Duration := Int

def second : Duration := 1000000000

/-- How a script would go: when it ends of itself, if ever, and how; and if it is killed, how much
later its output is closed, which what it started may hold open. -/
structure ScriptRun where
  ends : Option Duration
  exit : Except Exit Unit
  lag : Option Duration

-- The helper's side. The moments are counted from the request, and what happens there after the
-- server has gone is of no account.
structure ScriptRequest where
  script : String
  timeoutSeconds : Int
  phase : Phase

def maxScriptTimeout : Duration := 3600 * second

def defaultScriptTimeout : Duration := 30 * second

def ScriptRequest.timeout (req : ScriptRequest) : Duration :=
  let timeout := req.timeoutSeconds * second
  let timeout := if timeout ≤ 0 then defaultScriptTimeout else timeout
  if timeout > maxScriptTimeout then maxScriptTimeout else timeout

/-- `Run` under a timeout: when it returns, if it does, and how the script ended. -/
def ScriptRun.run (r : ScriptRun) (timeout : Duration) : List (Option Duration × Except Exit Unit) :=
  (earliest ((r.ends.map fun d => (d, (some d, r.exit))).toList ++
    [(timeout, (r.lag.map fun lag => timeout + lag, .error .timedOut))])).map fun x => x.2

def answerTo : Except Exit Unit → Response
  | .error _ => ⟨200, some ⟨false⟩⟩
  | .ok () => ⟨200, some ⟨true⟩⟩

def handleScript (req : ScriptRequest) (r : ScriptRun) : List (Option Duration × Response) :=
  if trimSpace req.script.toList = [] then [(some 0, writeErr 400)]
  else (r.run req.timeout).map fun x => (x.1, answerTo x.2)

def scriptHTTPHeaderTimeout : Duration := 30 * second

structure Client where
  responseHeaderTimeout : Duration

def scriptClient : Client := ⟨scriptHTTPHeaderTimeout⟩

def awaitingHeaders : Fault := .other 0

/-- `Do` and the reading of the answer, which is sent as a whole: the answer, or the first of what
ends the wait for it. The context of the run may end at a moment of its own. -/
def Client.roundTrip (c : Client) (deadline : Duration) (cut : Option (Duration × Fault))
    (answer : Option Duration × Response) : List (Duration × Except Fault Response) :=
  earliest ((answer.1.map fun t => (t, .ok answer.2)).toList ++
    [(c.responseHeaderTimeout, .error awaitingHeaders), (deadline, .error .deadlineExceeded)] ++
    (cut.map fun x => (x.1, .error x.2)).toList)

def outcome : Except Fault Response → Except ScriptErr Unit
  | .error f => .error (.transport f)
  | .ok resp => decodeResponse resp

def runHelperScript (phase : Phase) (script : String) (timeout : Duration) (r : ScriptRun)
    (cut : Option (Duration × Fault)) : List (Duration × Except ScriptErr Unit) :=
  (handleScript ⟨script, timeout / second, phase⟩ r).flatMap fun answer =>
    (scriptClient.roundTrip (timeout + scriptHTTPHeaderTimeout) cut answer).map fun x => (x.1, outcome x.2)

def scriptTimeoutSecondsOrDefault (policy : JobPolicy) : Int :=
  if policy.scriptTimeoutSeconds ≤ 0 then defaultScriptTimeoutSecs else policy.scriptTimeoutSeconds

def scriptTimeout (policy : JobPolicy) : Duration := scriptTimeoutSecondsOrDefault policy * second

def dataPolicy (policy : JobPolicy) : DataPolicy := ⟨policy.preScript, policy.postScript, policy.excludePaths⟩

def runVMScript (policy : JobPolicy) (p : VmPlan) (phase : Phase) (r : ScriptRun)
    (cut : Option (Duration × Fault)) : List (Duration × Except ScriptErr Unit) :=
  let script := (dataPolicy policy).script phase
  if script = "" then [(0, .ok ())]
  else if ¬ p.helper then [(0, .error .needsHelper)]
  else runHelperScript phase script (scriptTimeout policy) r cut

section
variable {policy : JobPolicy} {p : VmPlan} {phase : Phase} {r : ScriptRun} {cut : Option (Duration × Fault)}

theorem answered_logs {script : String} {req : ScriptRequest} (hreq : req.script = script)
    {answer : Option Duration × Response} (h : answer ∈ handleScript req r) :
    ∃ log, Logs (Scripts.handleScript phase script) log (.ret answer.2) := by
  unfold handleScript at h
  unfold Scripts.handleScript
  rw [hreq] at h
  split at h
  · rename_i hempty
    rw [if_pos hempty, List.mem_singleton.mp h]
    exact ⟨[], .nil⟩
  · rename_i hscript
    rw [if_neg hscript]
    obtain ⟨x, -, rfl⟩ := List.mem_map.mp h
    match hx : x.2 with
    | .error e =>
      rw [answerTo]
      exact ⟨_, .cons (.error e) .nil⟩
    | .ok () =>
      rw [answerTo]
      exact ⟨_, .cons (.ok ()) .nil⟩

theorem mem_alarms {c : Client} {deadline : Duration} {answer : Option Duration × Response}
    {x : Duration × Except Fault Response} (h : x ∈ c.roundTrip deadline cut answer) :
    (answer.1 = some x.1 ∧ x.2 = .ok answer.2) ∨ ∃ f, x.2 = .error f := by
  have hmem := (mem_earliest.mp h).1
  simp only [List.mem_append, Option.mem_toList, Option.map_eq_some_iff, List.mem_cons, List.not_mem_nil,
    or_false] at hmem
  rcases hmem with (⟨t, ht, rfl⟩ | rfl | rfl) | ⟨y, -, rfl⟩
  · exact .inl ⟨ht, rfl⟩
  · exact .inr ⟨_, rfl⟩
  · exact .inr ⟨_, rfl⟩
  · exact .inr ⟨_, rfl⟩

theorem helper_logs {script : String} {resp : Response} {log : List (Σ c, Scripts.Reply c)}
    (h : Logs (Scripts.handleScript phase script) log (.ret resp)) (back : Option Fault) :
    Logs (Scripts.runHelperScript phase script) (⟨.postScript phase, Arrival.taken⟩ ::
      (log ++ [⟨.readResponse, back⟩]))
      (.ret (outcome (match back with | some f => .error f | none => .ok resp))) := by
  unfold Scripts.runHelperScript
  refine .cons (R := Scripts.Reply) (c := .postScript phase) Arrival.taken ?_
  refine (h.bind _).trans ?_
  cases back with
  | none => exact .cons (R := Scripts.Reply) (c := .readResponse) none .nil
  | some f => exact .cons (R := Scripts.Reply) (c := .readResponse) (some f) .nil

def Meets (r : ScriptRun) (timeout : Duration) (cut : Option (Duration × Fault)) : Prop :=
  r.exit = .ok () ∧ ∃ d, r.ends = some d ∧ d < timeout ∧ ∀ c ∈ cut, d < c.1

def Outlasts (r : ScriptRun) (timeout : Duration) : Prop := ∀ d, r.ends = some d → timeout < d

/-- A script that keeps its timeout succeeds; one that does not fails, before long. -/
structure Heeded (policy : JobPolicy) (p : VmPlan) (phase : Phase) (r : ScriptRun) (cut : Option (Duration × Fault)) :
    Prop where
  returns : ∃ x, x ∈ runVMScript policy p phase r cut
  meets : Meets r (scriptTimeout policy) cut → ∀ x ∈ runVMScript policy p phase r cut, x.2 = .ok ()
  outlasts : Outlasts r (scriptTimeout policy) → ∀ x ∈ runVMScript policy p phase r cut,
    x.2 ≠ .ok () ∧ x.1 ≤ scriptTimeout policy + scriptHTTPHeaderTimeout

theorem run_of_lt {timeout d : Duration} (hends : r.ends = some d) (hd : d < timeout) :
    r.run timeout = [(some d, r.exit)] := by
  have hnot : ¬ timeout ≤ d := not_le_of_gt hd
  simp [ScriptRun.run, hends, earliest, hd.le, hnot]

theorem run_of_outlasts {timeout : Duration} (h : Outlasts r timeout) :
    r.run timeout = [(r.lag.map fun lag => timeout + lag, .error .timedOut)] := by
  cases hends : r.ends with
  | none => simp [ScriptRun.run, hends, earliest]
  | some d =>
    have hlt : timeout < d := h d hends
    have hnot : ¬ d ≤ timeout := not_le_of_gt hlt
    simp [ScriptRun.run, hends, earliest, hlt.le, hnot]

theorem exists_mem_run (r : ScriptRun) (timeout : Duration) : ∃ x, x ∈ r.run timeout := by
  have hkill := List.mem_append_right (r.ends.map fun d => (d, (some d, r.exit))).toList
    (List.mem_singleton_self (timeout, (r.lag.map fun lag => timeout + lag, Except.error Exit.timedOut)))
  obtain ⟨x, hx⟩ := exists_mem_earliest hkill
  exact ⟨x.2, List.mem_map_of_mem hx⟩

theorem timeout_request {n : Int} (hn : 1 ≤ n ∧ n ≤ 3600) (script : String) :
    ScriptRequest.timeout ⟨script, n * second / second, phase⟩ = n * second := by
  have hdiv : n * second / second = n := Int.mul_ediv_cancel n (by decide)
  have hpos : ¬ n * second ≤ 0 := by
    unfold second
    omega
  have hcap : ¬ n * second > maxScriptTimeout := by
    unfold maxScriptTimeout second
    omega
  unfold ScriptRequest.timeout
  dsimp only
  rw [hdiv, if_neg hpos, if_neg hcap]

theorem roundTrip_ends (c : Client) (deadline : Duration) (cut : Option (Duration × Fault))
    (answer : Option Duration × Response) :
    (∃ x, x ∈ c.roundTrip deadline cut answer) ∧
      ∀ x ∈ c.roundTrip deadline cut answer, x.1 ≤ c.responseHeaderTimeout ∧ x.1 ≤ deadline := by
  have hheaders : ∀ l l' : List (Duration × Except Fault Response), (c.responseHeaderTimeout, .error awaitingHeaders) ∈
      l ++ [(c.responseHeaderTimeout, .error awaitingHeaders), (deadline, .error .deadlineExceeded)] ++ l' := by
    simp
  have hdeadline : ∀ l l' : List (Duration × Except Fault Response), (deadline, .error .deadlineExceeded) ∈
      l ++ [(c.responseHeaderTimeout, .error awaitingHeaders), (deadline, .error .deadlineExceeded)] ++ l' := by
    simp
  refine ⟨exists_mem_earliest (hheaders _ _), fun x hx => ?_⟩
  obtain ⟨-, hmin⟩ := mem_earliest.mp hx
  exact ⟨hmin _ (hheaders _ _), hmin _ (hdeadline _ _)⟩

theorem roundTrip_in_time {c : Client} {deadline d : Duration} {resp : Response} (hheaders : d < c.responseHeaderTimeout)
    (hdeadline : d < deadline) (hcut : ∀ x ∈ cut, d < x.1) {x : Duration × Except Fault Response}
    (hx : x ∈ c.roundTrip deadline cut (some d, resp)) : x = (d, .ok resp) := by
  refine eq_of_mem_earliest (by simp) (fun z hz hne => ?_) hx
  simp only [List.mem_append, Option.mem_toList, Option.map_eq_some_iff, List.mem_cons, List.not_mem_nil,
    or_false] at hz
  rcases hz with (⟨t, ht, rfl⟩ | rfl | rfl) | ⟨y, hy, rfl⟩
  · cases ht
    exact absurd rfl hne
  · exact hheaders
  · exact hdeadline
  · exact hcut y hy

theorem roundTrip_late {c : Client} {deadline d : Duration} {resp : Response} (hheaders : c.responseHeaderTimeout ≤ d)
    (hdeadline : c.responseHeaderTimeout ≤ deadline) (hcut : ∀ x ∈ cut, c.responseHeaderTimeout ≤ x.1) :
    (c.responseHeaderTimeout, .error awaitingHeaders) ∈ c.roundTrip deadline cut (some d, resp) := by
  refine mem_earliest.mpr ⟨by simp, fun z hz => ?_⟩
  simp only [List.mem_append, Option.mem_toList, Option.map_eq_some_iff, List.mem_cons, List.not_mem_nil,
    or_false] at hz
  rcases hz with (⟨t, ht, rfl⟩ | rfl | rfl) | ⟨y, hy, rfl⟩
  · cases ht
    exact hheaders
  · exact le_rfl
  · exact hdeadline
  · exact hcut y hy

theorem timeout_of_accepted {m : CaseMap} {kind : String} (hvalid : policy.validate m kind = none) :
    1 ≤ (policy.normalized m).scriptTimeoutSeconds ∧ (policy.normalized m).scriptTimeoutSeconds ≤ 3600 := by
  unfold JobPolicy.validate at hvalid
  simp only [Option.orElse_eq_orElse, Option.orElse_eq_or, Option.or_eq_none_iff,
    Option.map_eq_none_iff] at hvalid
  obtain ⟨-, -, -, -, -, htimeout, -⟩ := hvalid
  exact RunControl.le_of_between htimeout

theorem runVMScript_eq {m : CaseMap} {kind : String} (hvalid : policy.validate m kind = none)
    (hscript : (dataPolicy (policy.normalized m)).script phase ≠ "") (hhelper : p.helper = true) :
    runVMScript (policy.normalized m) p phase r cut =
      (r.run (scriptTimeout (policy.normalized m))).flatMap fun x =>
        (scriptClient.roundTrip (scriptTimeout (policy.normalized m) + scriptHTTPHeaderTimeout) cut
          (x.1, answerTo x.2)).map fun y => (y.1, outcome y.2) := by
  have hbounds := timeout_of_accepted hvalid
  have htimeout : scriptTimeout (policy.normalized m) = (policy.normalized m).scriptTimeoutSeconds * second := by
    rw [scriptTimeout, scriptTimeoutSecondsOrDefault, if_neg (by omega)]
  have htrimmed : ¬ trimSpace ((dataPolicy (policy.normalized m)).script phase).toList = [] := by
    intro hnil
    have hself : trimmed ((dataPolicy (policy.normalized m)).script phase) =
        (dataPolicy (policy.normalized m)).script phase := by
      cases phase <;> exact trimmed_trimmed _
    rw [← hself, trimmed, hnil] at hscript
    exact hscript rfl
  unfold runVMScript
  dsimp only
  rw [if_neg hscript, if_neg (not_not.mpr hhelper), runHelperScript, handleScript, if_neg htrimmed, htimeout,
    timeout_request hbounds, List.flatMap_map]

end

def mailGuest : VmPlan := ⟨"pve1", "mail", "pve1/qemu/100", ["scsi0"], true, by decide⟩

def dumpPolicy : JobPolicy := { JobPolicy.default with preScript := "pg_dumpall", scriptTimeoutSeconds := 60 }

theorem dumpPolicy_normalized : dumpPolicy.normalized asciiCase = dumpPolicy := by decide +kernel

def slowDump : ScriptRun := ⟨some (45 * second), .ok (), none⟩

end ProxBack.Sched.ScriptTimeout
