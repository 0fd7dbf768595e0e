import ProxBack.Store.Clock
import ProxBack.Store.Cron
import ProxBack.Store.Exclude
import ProxBack.Store.Jobs
import Mathlib.Data.List.Dedup

/-! The protection policy of a job, tidied and checked. -/
namespace ProxBack.Store
open Lib Text

/-- `unicode.ToLower`: what has been mapped stays, as small letters do, and white space is kept
apart from the rest. -/
structure CaseMap where
  lower : Char → Char
  lower_lower : ∀ c, lower (lower c) = lower c
  lower_small : ∀ c, c.isLower = true → lower c = c
  isSpace_lower : ∀ c, isSpace (lower c) = isSpace c

theorem exists_of_isUpper {c : Char} (h : c.isUpper = true) : ∃ n < 26, c = Char.ofNat (65 + n) := by
  have hrange : 65 ≤ c.toNat ∧ c.toNat ≤ 90 := of_decide_eq_true h
  exact ⟨c.toNat - 65, by omega, by rw [Nat.add_sub_cancel' hrange.1, Char.ofNat_toNat]⟩

@[grind =] theorem toLower_of_not_isUpper {c : Char} (h : ¬ c.isUpper = true) : c.toLower = c :=
  dif_neg fun hrange => h (decide_eq_true hrange)

/-- The letters of ASCII, as `unicode.ToLower` has them. -/
def asciiCase : CaseMap where
  lower := Char.toLower
  lower_lower c := by
    by_cases h : c.isUpper = true
    · obtain ⟨n, hn, rfl⟩ := exists_of_isUpper h
      revert n
      decide
    · rw [toLower_of_not_isUpper h, toLower_of_not_isUpper h]
  lower_small c hsmall := by
    by_cases h : c.isUpper = true
    · obtain ⟨n, hn, rfl⟩ := exists_of_isUpper h
      revert n
      decide
    · exact toLower_of_not_isUpper h
  isSpace_lower c := by
    by_cases h : c.isUpper = true
    · obtain ⟨n, hn, rfl⟩ := exists_of_isUpper h
      revert n
      decide
    · rw [toLower_of_not_isUpper h]

structure JobPolicy where
  quiesce : String
  excludeDisks : List String
  excludePaths : List String
  retryCount : Int
  retryDelayMinutes : Int
  maxDurationMinutes : Int
  window : Option BackupWindow
  preScript : String
  postScript : String
  scriptTimeoutSeconds : Int
  uploadLimitMbpsOverride : Int
deriving DecidableEq, Repr

/-- `strings.ToLower`. -/
def CaseMap.fold (m : CaseMap) (s : String) : String := String.ofList (s.toList.map m.lower)

def firsts {α : Type} [DecidableEq α] (l : List α) : List α := l.reverse.dedup.reverse

def normalizeList (l : List String) (fold : String → String) : List String :=
  firsts ((l.map fun v => fold (trimmed v)).filter fun item => item ≠ "")

def quiesceNone : String := "none"

def quiesceGuestAgent : String := "guest-agent"

def defaultScriptTimeoutSecs : Int := 30

def quiesceMode (m : CaseMap) (v : String) : String :=
  let quiesce := m.fold (trimmed v)
  if quiesce = "" then quiesceNone else quiesce

def BackupWindow.normalized (w : BackupWindow) : Option BackupWindow :=
  if trimmed w.start = "" ∧ trimmed w.stop = "" then none else some ⟨trimmed w.start, trimmed w.stop⟩

namespace JobPolicy

def default : JobPolicy :=
  ⟨quiesceNone, [], [], 0, RunControl.defaultRetryDelayMinutes, 0, none, "", "",
    defaultScriptTimeoutSecs, 0⟩

def normalized (m : CaseMap) (p : JobPolicy) : JobPolicy where
  quiesce := quiesceMode m p.quiesce
  excludeDisks := normalizeList p.excludeDisks m.fold
  excludePaths := normalizeList p.excludePaths id
  retryCount := p.retryCount
  retryDelayMinutes :=
    if p.retryDelayMinutes = 0 then RunControl.defaultRetryDelayMinutes else p.retryDelayMinutes
  maxDurationMinutes := p.maxDurationMinutes
  window := p.window.bind BackupWindow.normalized
  preScript := trimmed p.preScript
  postScript := trimmed p.postScript
  scriptTimeoutSeconds :=
    if p.scriptTimeoutSeconds = 0 then defaultScriptTimeoutSecs else p.scriptTimeoutSeconds
  uploadLimitMbpsOverride := p.uploadLimitMbpsOverride

def runControl (p : JobPolicy) : RunControl :=
  ⟨p.excludeDisks, p.retryCount, p.retryDelayMinutes, p.maxDurationMinutes⟩

end JobPolicy

@[simp] theorem CaseMap.fold_trimmed (m : CaseMap) (s : String) :
    m.fold (trimmed (m.fold (trimmed s))) = m.fold (trimmed s) := by
  have htrim : trimmed (m.fold (trimmed s)) = m.fold (trimmed s) := by
    rw [trimmed, fold, String.toList_ofList, trimSpace_map m.isSpace_lower, trimmed,
      String.toList_ofList, trimSpace_trimSpace]
  rw [htrim, fold, fold, String.toList_ofList, List.map_map]
  exact congrArg _ (List.map_congr_left fun c _ => m.lower_lower c)

@[grind =]
theorem CaseMap.fold_of_small (m : CaseMap) {s : String} (h : ∀ c ∈ s.toList, c.isLower = true) :
    m.fold s = s := by
  have hsame : s.toList.map m.lower = s.toList.map id :=
    List.map_congr_left fun c hc => m.lower_small c (h c hc)
  rw [fold, hsame, List.map_id, String.ofList_toList]

@[grind =]
theorem firsts_of_nodup {α : Type} [DecidableEq α] {l : List α} (h : l.Nodup) : firsts l = l := by
  rw [firsts, (List.nodup_reverse.mpr h).dedup, List.reverse_reverse]

@[simp]
theorem mem_firsts {α : Type} [DecidableEq α] {l : List α} {a : α} : a ∈ firsts l ↔ a ∈ l := by
  rw [firsts, List.mem_reverse, List.mem_dedup, List.mem_reverse]

theorem nodup_firsts {α : Type} [DecidableEq α] (l : List α) : (firsts l).Nodup :=
  List.nodup_reverse.mpr (List.nodup_dedup _)

@[simp] theorem normalizeList_normalizeList {fold : String → String}
    (h : ∀ s, fold (trimmed (fold (trimmed s))) = fold (trimmed s)) (l : List String) :
    normalizeList (normalizeList l fold) fold = normalizeList l fold := by
  have hitem : ∀ item ∈ normalizeList l fold, fold (trimmed item) = item ∧ item ≠ "" := by
    intro item hitem
    obtain ⟨hmem, hne⟩ := List.mem_filter.mp (mem_firsts.mp hitem)
    obtain ⟨v, -, rfl⟩ := List.mem_map.mp hmem
    exact ⟨h v, of_decide_eq_true hne⟩
  have hmap : (normalizeList l fold).map (fun v => fold (trimmed v)) = normalizeList l fold := by
    conv_rhs => rw [← List.map_id (normalizeList l fold)]
    exact List.map_congr_left fun item hmem => (hitem item hmem).1
  have hfilter : (normalizeList l fold).filter (fun item => item ≠ "") = normalizeList l fold :=
    List.filter_eq_self.mpr fun item hmem => decide_eq_true (hitem item hmem).2
  rw [normalizeList, hmap, hfilter]
  exact firsts_of_nodup (nodup_firsts _)

@[grind =] theorem BackupWindow.normalized_bind (w : Option BackupWindow) :
    (w.bind normalized).bind normalized = w.bind normalized := by
  cases w with
  | none => rfl
  | some w =>
    show (w.normalized).bind normalized = w.normalized
    unfold normalized
    split
    · rfl
    · rename_i hne
      rw [Option.bind_some, trimmed_trimmed, trimmed_trimmed, if_neg hne]

@[simp] theorem quiesceMode_quiesceMode (m : CaseMap) (v : String) :
    quiesceMode m (quiesceMode m v) = quiesceMode m v := by
  have hnone : m.fold (trimmed quiesceNone) = quiesceNone := by
    have htrim : trimmed quiesceNone = quiesceNone := by decide +kernel
    rw [htrim]
    exact m.fold_of_small (by decide +kernel)
  have hne : quiesceNone ≠ "" := by decide
  by_cases h : m.fold (trimmed v) = ""
  · have hv : quiesceMode m v = quiesceNone := by
      simp only [quiesceMode, h, if_true]
    rw [hv]
    simp only [quiesceMode, hnone, hne, if_false]
  · have hv : quiesceMode m v = m.fold (trimmed v) := by
      simp only [quiesceMode, h, if_false]
    rw [hv]
    simp only [quiesceMode, m.fold_trimmed, h, if_false]

theorem default_of_zero (n d : Int) :
    (if (if n = 0 then d else n) = 0 then d else if n = 0 then d else n) = if n = 0 then d else n := by
  by_cases h : n = 0
  · rw [if_pos h]
    split <;> rfl
  · rw [if_neg h, if_neg h]

@[simp] theorem JobPolicy.normalized_normalized (m : CaseMap) (p : JobPolicy) :
    (p.normalized m).normalized m = p.normalized m := by
  have hpath : ∀ s, id (trimmed (id (trimmed s))) = id (trimmed s) := by
    intro s
    rw [id, id, trimmed_trimmed]
  simp only [normalized, JobPolicy.mk.injEq, true_and]
  exact ⟨quiesceMode_quiesceMode m _, normalizeList_normalizeList m.fold_trimmed _,
    normalizeList_normalizeList hpath _, default_of_zero _ _, BackupWindow.normalized_bind _,
    trimmed_trimmed _, trimmed_trimmed _, default_of_zero _ _, trivial⟩

/-- `policy.quiesce must be "none" or "guest-agent", got %q`, and so on; every message names
the field. -/
inductive JobPolicyErr where
  | quiesce (got : String)
  | excludeDisksKind
  | excludeDisks (key : String)
  | excludePathsKind
  | excludePaths (e : GlobErr)
  | range (text : String)
  | windowStart (got : String)
  | windowEnd (got : String)
  | windowEqual (start stop : String)

def diskKeyPrefixes : List String := ["scsi", "virtio", "ide", "sata", "efidisk", "tpmstate", "unused"]

def validDiskKey (m : CaseMap) (v : String) : Bool :=
  let v := (m.fold (trimmed v)).toList
  match diskKeyPrefixes.find? fun family => family.toList.isPrefixOf v with
  | some family => allDigits (v.drop family.toList.length)
  | none => false

def BackupWindow.validate (w : BackupWindow) : Option JobPolicyErr :=
  if ¬ validClockTime w.start then some (.windowStart w.start)
  else if ¬ validClockTime w.stop then some (.windowEnd w.stop)
  else if w.start = w.stop then some (.windowEqual w.start w.stop)
  else none

namespace JobPolicy

def minScriptTimeoutSecs : Int := 1

def maxScriptTimeoutSecs : Int := 3600

def minUploadLimitMbps : Int := 0

def maxUploadLimitMbps : Int := 10000

def validateDisks (m : CaseMap) (p : JobPolicy) (kind : String) : Option JobPolicyErr :=
  if p.excludeDisks = [] then none
  else if kind ≠ kindText .vm then some .excludeDisksKind
  else (p.excludeDisks.find? fun d => ¬ validDiskKey m d).map .excludeDisks

def validatePaths (p : JobPolicy) (kind : String) : Option JobPolicyErr :=
  if p.excludePaths ≠ [] ∧ kind ≠ kindText .agent then some .excludePathsKind
  else p.excludePaths.findSome? fun pattern =>
    match validateGlob pattern.toList with
    | .error e => some (.excludePaths e)
    | .ok _ => none

def validate (m : CaseMap) (p : JobPolicy) (kind : String) : Option JobPolicyErr :=
  let p := p.normalized m
  (if p.quiesce ≠ quiesceNone ∧ p.quiesce ≠ quiesceGuestAgent then some (.quiesce p.quiesce) else none)
    <|> p.validateDisks m kind <|> p.validatePaths kind <|> p.runControl.validate.map .range
    <|> p.window.bind BackupWindow.validate
    <|> (RunControl.between "policy.scriptTimeoutSeconds" minScriptTimeoutSecs maxScriptTimeoutSecs
      p.scriptTimeoutSeconds).map .range
    <|> (RunControl.between "policy.uploadLimitMbpsOverride" minUploadLimitMbps maxUploadLimitMbps
      p.uploadLimitMbpsOverride).map .range

end JobPolicy

end ProxBack.Store
