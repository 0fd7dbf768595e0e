import ProxBack.Sched.RunControl
import ProxBack.Store.PolicyText

/-! What the policy that is read out of a job's column lets a run do. -/
namespace ProxBack.Store
open Lib Text

structure JobPolicy.InBounds (p : JobPolicy) : Prop where
  retryCount : RunControl.minRetryCount ≤ p.retryCount ∧ p.retryCount ≤ RunControl.maxRetryCount
  retryDelayMinutes : RunControl.minRetryDelayMinutes ≤ p.retryDelayMinutes ∧
    p.retryDelayMinutes ≤ RunControl.maxRetryDelayMinutes
  maxDurationMinutes : 0 ≤ p.maxDurationMinutes ∧ p.maxDurationMinutes ≤ RunControl.maxRunDurationMinutes
  scriptTimeoutSeconds : JobPolicy.minScriptTimeoutSecs ≤ p.scriptTimeoutSeconds ∧
    p.scriptTimeoutSeconds ≤ JobPolicy.maxScriptTimeoutSecs

theorem inBounds_default : JobPolicy.default.InBounds := ⟨by decide, by decide, by decide, by decide⟩

theorem inBounds_of_accepted {m : CaseMap} {p : JobPolicy} {kind : String} (hvalid : p.validate m kind = none) :
    (p.normalized m).InBounds := by
  unfold JobPolicy.validate at hvalid
  simp only [Option.orElse_eq_orElse, Option.orElse_eq_or, Option.or_eq_none_iff,
    Option.map_eq_none_iff] at hvalid
  obtain ⟨-, -, -, hcontrol, -, htimeout, -⟩ := hvalid
  have hdelay : (p.normalized m).runControl.normalized = (p.normalized m).runControl := by
    refine if_neg ?_
    dsimp only [JobPolicy.normalized, JobPolicy.runControl]
    split
    · decide
    · assumption
  unfold RunControl.validate at hcontrol
  rw [hdelay] at hcontrol
  simp only [Option.orElse_eq_orElse, Option.orElse_eq_or, Option.or_eq_none_iff] at hcontrol
  obtain ⟨hretries, hdelays, hduration⟩ := hcontrol
  have hretries := RunControl.le_of_between hretries
  have hdelays := RunControl.le_of_between hdelays
  have hduration := RunControl.le_of_between hduration
  have htimeout := RunControl.le_of_between htimeout
  dsimp only [JobPolicy.runControl] at hretries hdelays hduration
  exact ⟨hretries, hdelays, hduration, htimeout⟩

/-- The numbers of a text, as far as it has them, are in bounds or stand for a default. -/
structure PolicyJson.Sane (q : PolicyJson) : Prop where
  retryCount : ∀ n ∈ q.retryCount, RunControl.minRetryCount ≤ n ∧ n ≤ RunControl.maxRetryCount
  retryDelayMinutes : ∀ n ∈ q.retryDelayMinutes, n = 0 ∨
    RunControl.minRetryDelayMinutes ≤ n ∧ n ≤ RunControl.maxRetryDelayMinutes
  maxDurationMinutes : ∀ n ∈ q.maxDurationMinutes, 0 ≤ n ∧ n ≤ RunControl.maxRunDurationMinutes
  scriptTimeoutSeconds : ∀ n ∈ q.scriptTimeoutSeconds, n = 0 ∨
    JobPolicy.minScriptTimeoutSecs ≤ n ∧ n ≤ JobPolicy.maxScriptTimeoutSecs

@[grind =] theorem getD_between_iff {o : Option Int} {lo hi d : Int} (hd : lo ≤ d ∧ d ≤ hi) :
    (lo ≤ o.getD d ∧ o.getD d ≤ hi) ↔ ∀ n ∈ o, lo ≤ n ∧ n ≤ hi := by
  cases o with
  | none => exact iff_of_true hd nofun
  | some n => simp

theorem orDefault_between_iff {o : Option Int} {lo hi d : Int} (hd : lo ≤ d ∧ d ≤ hi) :
    (lo ≤ (if o.getD d = 0 then d else o.getD d) ∧ (if o.getD d = 0 then d else o.getD d) ≤ hi) ↔
      ∀ n ∈ o, n = 0 ∨ lo ≤ n ∧ n ≤ hi := by
  cases o with
  | none =>
    refine iff_of_true ?_ nofun
    dsimp only [Option.getD_none]
    split <;> exact hd
  | some n =>
    simp only [Option.getD_some, Option.mem_some_iff, forall_eq']
    split
    · rename_i hzero
      exact iff_of_true hd (.inl hzero)
    · rename_i hne
      exact ⟨.inr, fun h => h.resolve_left hne⟩

@[simp]
theorem inBounds_fill_iff {m : CaseMap} {q : PolicyJson} : ((q.fill m).normalized m).InBounds ↔ q.Sane := by
  have hretries := getD_between_iff (o := q.retryCount) (d := 0) inBounds_default.retryCount
  have hdelay := orDefault_between_iff (o := q.retryDelayMinutes) (d := RunControl.defaultRetryDelayMinutes)
    inBounds_default.retryDelayMinutes
  have hduration := getD_between_iff (o := q.maxDurationMinutes) (d := 0) inBounds_default.maxDurationMinutes
  have htimeout := orDefault_between_iff (o := q.scriptTimeoutSeconds) (d := defaultScriptTimeoutSecs)
    inBounds_default.scriptTimeoutSeconds
  unfold PolicyJson.fill JobPolicy.normalized JobPolicy.default
  exact ⟨fun ⟨h₁, h₂, h₃, h₄⟩ => ⟨hretries.mp h₁, hdelay.mp h₂, hduration.mp h₃, htimeout.mp h₄⟩,
    fun ⟨h₁, h₂, h₃, h₄⟩ => ⟨hretries.mpr h₁, hdelay.mpr h₂, hduration.mpr h₃, htimeout.mpr h₄⟩⟩

@[simp] theorem inBounds_decode_iff {m : CaseMap} {fold : Char → Char} {raw : String} :
    (decodePolicy m fold raw).InBounds ↔ ∀ q ∈ storedFields fold raw, q.Sane := by
  rw [decodePolicy_eq]
  cases storedFields fold raw with
  | none => exact iff_of_true inBounds_default fun q hq => absurd hq (Option.not_mem_none q)
  | some q =>
    rw [Option.map_some, Option.getD_some, inBounds_fill_iff]
    simp only [Option.mem_some_iff, forall_eq']

theorem inBounds_of_stored {m : CaseMap} {fold : Char → Char} {p : JobPolicy} {kind : String} (hints : p.IsInts)
    (hvalid : p.validate m kind = none) : (decodePolicy m fold (encodePolicy m p)).InBounds := by
  rw [decode_encode hints]
  exact inBounds_of_accepted hvalid

end ProxBack.Store

namespace ProxBack.Sched.Control
open Lib Prog Engine Store

/-- Whatever a run under the policy meets, it makes an attempt, and says it succeeded just when its
last attempt did. -/
def SwitchedOn (p : JobPolicy) : Prop :=
  ∀ (ε : Type) (canceled : ε → Bool) (ended : Option Fault) es res w,
    Steps (machine ε (decide (p.maxDurationMinutes > 0))) (runUnderPolicy canceled p.runControl) ⟨ended, []⟩ es
      (.ret res) w →
    1 ≤ (outcomes w.marks).length ∧ (res = none ↔ (outcomes w.marks).getLast? = some none)

theorem switchedOn {p : JobPolicy} (hretry : 0 ≤ p.retryCount) : SwitchedOn p := by
  intro ε canceled ended es res w hsteps
  have hcontrolled : Controlled p.runControl w res := (wp_runUnderPolicy hretry _ ended).steps hsteps
  exact ⟨hcontrolled.attempts.1, hcontrolled.succeeds⟩

/-- The policy read out of a column is in bounds, and its runs do attempt something, just when the
numbers in the text are in bounds. -/
theorem stored_policy_runs (m : CaseMap) (fold : Char → Char) (raw : String) :
    ((decodePolicy m fold raw).InBounds ∧ SwitchedOn (decodePolicy m fold raw)) ↔
      ∀ q ∈ storedFields fold raw, q.Sane := by
  rw [inBounds_decode_iff]
  refine ⟨fun h => h.1, fun h => ⟨h, ?_⟩⟩
  have hbounds : (decodePolicy m fold raw).InBounds := inBounds_decode_iff.mpr h
  exact switchedOn hbounds.retryCount.1

theorem storedFields_oneField (fold : Char → Char) (n : Int) (h : IsInt n) :
    storedFields fold (oneField .retryCount n) = some { PolicyJson.empty with retryCount := some n } := by
  unfold storedFields
  rw [oneField_read]
  simp only [Option.bind_eq_bind, Option.bind_some, PolicyJson.ofJson, List.foldlM_cons, List.foldlM_nil,
    PolicyJson.step, ofKey_name, PolicyJson.put, intValue_intJson h, Option.map_some]
  rfl

/-- With one retry fewer than none a run attempts nothing and reports success. -/
theorem stored_policy_off :
    oneField .retryCount (-1) = "\x7b\"retryCount\":-1\x7d" ∧
    (decodePolicy asciiCase Char.toLower (oneField .retryCount (-1))).retryCount = -1 ∧
    Steps (machine Unit false)
      (runUnderPolicy (fun _ => false) (decodePolicy asciiCase Char.toLower (oneField .retryCount (-1))).runControl)
      ⟨none, []⟩ [] (.ret none) ⟨none, []⟩ ∧
    ¬ ((decodePolicy asciiCase Char.toLower (oneField .retryCount (-1))).InBounds ∧
      SwitchedOn (decodePolicy asciiCase Char.toLower (oneField .retryCount (-1)))) := by
  have hint : IsInt (-1) := by
    unfold IsInt
    omega
  have hdecoded : decodePolicy asciiCase Char.toLower (oneField .retryCount (-1)) =
      { JobPolicy.default with retryCount := -1 } := by
    rw [decodePolicy_eq, storedFields_oneField _ _ hint]
    have htidy := default_normalized asciiCase
    show { JobPolicy.default.normalized asciiCase with retryCount := -1 } = _
    rw [htidy]
  rw [hdecoded]
  refine ⟨by decide +kernel, rfl, .nil, fun h => ?_⟩
  exact absurd h.1.retryCount.1 (by decide)

end ProxBack.Sched.Control
