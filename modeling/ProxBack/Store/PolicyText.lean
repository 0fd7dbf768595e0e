import ProxBack.Lib.Json
import ProxBack.Store.Policy

/-! The policy of a job as the text of its column. -/
namespace ProxBack.Store
open Lib Text

inductive PolicyField where
  | quiesce
  | excludeDisks
  | excludePaths
  | retryCount
  | retryDelayMinutes
  | maxDurationMinutes
  | window
  | preScript
  | postScript
  | scriptTimeoutSeconds
  | uploadLimitMbpsOverride
deriving DecidableEq, Repr

namespace PolicyField

def name : PolicyField → String
  | .quiesce => "quiesce"
  | .excludeDisks => "excludeDisks"
  | .excludePaths => "excludePaths"
  | .retryCount => "retryCount"
  | .retryDelayMinutes => "retryDelayMinutes"
  | .maxDurationMinutes => "maxDurationMinutes"
  | .window => "window"
  | .preScript => "preScript"
  | .postScript => "postScript"
  | .scriptTimeoutSeconds => "scriptTimeoutSeconds"
  | .uploadLimitMbpsOverride => "uploadLimitMbpsOverride"

def all : List PolicyField :=
  [.quiesce, .excludeDisks, .excludePaths, .retryCount, .retryDelayMinutes, .maxDurationMinutes, .window,
    .preScript, .postScript, .scriptTimeoutSeconds, .uploadLimitMbpsOverride]

end PolicyField

/-- The name that a key stands for: the same, or else one that differs in case only; `fold` is Unicode's
simple case folding. -/
def nameOf (fold : Char → Char) (names : List String) (key : List Char) : Option String :=
  (names.find? fun n => n.toList = key).or (names.find? fun n => n.toList.map fold = key.map fold)

def PolicyField.ofKey (fold : Char → Char) (key : List Char) : Option PolicyField :=
  (PolicyField.all.find? fun f => f.name.toList = key).or
    (PolicyField.all.find? fun f => f.name.toList.map fold = key.map fold)

structure PolicyJson where
  quiesce : Option String
  excludeDisks : Option (List String)
  excludePaths : Option (List String)
  retryCount : Option Int
  retryDelayMinutes : Option Int
  maxDurationMinutes : Option Int
  window : Option BackupWindow
  preScript : Option String
  postScript : Option String
  scriptTimeoutSeconds : Option Int
  uploadLimitMbpsOverride : Option Int

def PolicyJson.empty : PolicyJson := ⟨none, none, none, none, none, none, none, none, none, none, none⟩

def textValue : Json → Option (Option String)
  | .null => some none
  | .str s => some (some (.ofList s))
  | _ => none

def intValue : Json → Option (Option Int)
  | .null => some none
  | .num literal => (Json.toInt 64 literal).map some
  | _ => none

def listValue : Json → Option (Option (List String))
  | .null => some none
  | .arr elems => (elems.mapM fun v => (textValue v).map fun s => s.getD "").map some
  | _ => none

def windowStep (fold : Char → Char) (w : BackupWindow) (m : List Char × Json) : Option BackupWindow :=
  match nameOf fold ["start", "end"] m.1 with
  | none => some w
  | some n =>
    (textValue m.2).map fun s =>
      if n = "start" then { w with start := s.getD w.start } else { w with stop := s.getD w.stop }

def windowValue (fold : Char → Char) (old : Option BackupWindow) : Json → Option (Option BackupWindow)
  | .null => some none
  | .obj members => (members.foldlM (windowStep fold) (old.getD ⟨"", ""⟩)).map some
  | _ => none

def PolicyJson.put (fold : Char → Char) (p : PolicyJson) (v : Json) : PolicyField → Option PolicyJson
  | .quiesce => (textValue v).map fun v => { p with quiesce := v }
  | .excludeDisks => (listValue v).map fun v => { p with excludeDisks := v }
  | .excludePaths => (listValue v).map fun v => { p with excludePaths := v }
  | .retryCount => (intValue v).map fun v => { p with retryCount := v }
  | .retryDelayMinutes => (intValue v).map fun v => { p with retryDelayMinutes := v }
  | .maxDurationMinutes => (intValue v).map fun v => { p with maxDurationMinutes := v }
  | .window => (windowValue fold p.window v).map fun v => { p with window := v }
  | .preScript => (textValue v).map fun v => { p with preScript := v }
  | .postScript => (textValue v).map fun v => { p with postScript := v }
  | .scriptTimeoutSeconds => (intValue v).map fun v => { p with scriptTimeoutSeconds := v }
  | .uploadLimitMbpsOverride => (intValue v).map fun v => { p with uploadLimitMbpsOverride := v }

def PolicyJson.step (fold : Char → Char) (p : PolicyJson) (m : List Char × Json) : Option PolicyJson :=
  match PolicyField.ofKey fold m.1 with
  | none => some p
  | some f => p.put fold m.2 f

def PolicyJson.ofJson (fold : Char → Char) : Json → Option PolicyJson
  | .obj members => members.foldlM (PolicyJson.step fold) .empty
  | .null => some .empty
  | _ => none

section
variable (m : CaseMap) (fold : Char → Char)

def PolicyJson.fill (p : PolicyJson) : JobPolicy where
  quiesce := (p.quiesce.map fun q => m.fold (trimmed q)).getD JobPolicy.default.quiesce
  excludeDisks := p.excludeDisks.getD JobPolicy.default.excludeDisks
  excludePaths := p.excludePaths.getD JobPolicy.default.excludePaths
  retryCount := p.retryCount.getD JobPolicy.default.retryCount
  retryDelayMinutes := p.retryDelayMinutes.getD JobPolicy.default.retryDelayMinutes
  maxDurationMinutes := p.maxDurationMinutes.getD JobPolicy.default.maxDurationMinutes
  window := p.window
  preScript := p.preScript.getD JobPolicy.default.preScript
  postScript := p.postScript.getD JobPolicy.default.postScript
  scriptTimeoutSeconds := p.scriptTimeoutSeconds.getD JobPolicy.default.scriptTimeoutSeconds
  uploadLimitMbpsOverride := p.uploadLimitMbpsOverride.getD JobPolicy.default.uploadLimitMbpsOverride

def unmarshalJSON : Json → Option JobPolicy
  | .null => some .default
  | j => (PolicyJson.ofJson fold j).map fun p => (p.fill m).normalized m

def decodePolicy (raw : String) : JobPolicy :=
  if trimmed raw = "" then .default
  else
    match Json.read (trimmed raw).toList >>= unmarshalJSON m fold with
    | none => .default
    | some p => p.normalized m

def JobPolicy.isDefault (p : JobPolicy) : Bool :=
  let p := p.normalized m
  let d := JobPolicy.default
  p.quiesce = d.quiesce ∧ p.excludeDisks = [] ∧ p.excludePaths = [] ∧ p.retryCount = d.retryCount ∧
    p.retryDelayMinutes = d.retryDelayMinutes ∧ p.maxDurationMinutes = d.maxDurationMinutes ∧
    p.window = none ∧ p.preScript = "" ∧ p.postScript = "" ∧
    p.scriptTimeoutSeconds = d.scriptTimeoutSeconds ∧ p.uploadLimitMbpsOverride = d.uploadLimitMbpsOverride

def textJson (s : String) : Json := .str s.toList

def intJson (n : Int) : Json := .num (Json.intText n)

def BackupWindow.toJson (w : BackupWindow) : Json :=
  .obj [("start".toList, textJson w.start), ("end".toList, textJson w.stop)]

def JobPolicy.toJson (p : JobPolicy) : Json :=
  .obj [
    (PolicyField.quiesce.name.toList, textJson p.quiesce),
    (PolicyField.excludeDisks.name.toList, .arr (p.excludeDisks.map textJson)),
    (PolicyField.excludePaths.name.toList, .arr (p.excludePaths.map textJson)),
    (PolicyField.retryCount.name.toList, intJson p.retryCount),
    (PolicyField.retryDelayMinutes.name.toList, intJson p.retryDelayMinutes),
    (PolicyField.maxDurationMinutes.name.toList, intJson p.maxDurationMinutes),
    (PolicyField.window.name.toList, (p.window.map BackupWindow.toJson).getD .null),
    (PolicyField.preScript.name.toList, textJson p.preScript),
    (PolicyField.postScript.name.toList, textJson p.postScript),
    (PolicyField.scriptTimeoutSeconds.name.toList, intJson p.scriptTimeoutSeconds),
    (PolicyField.uploadLimitMbpsOverride.name.toList, intJson p.uploadLimitMbpsOverride)]

def encodePolicy (p : JobPolicy) : String :=
  let p := p.normalized m
  if p.isDefault m then "" else .ofList p.toJson.print

end

section
variable {m : CaseMap} {fold : Char → Char} {p : JobPolicy}

theorem reads_textJson (s : String) : Json.Reads (textJson s) 0 := Json.reads_str _

theorem reads_list (l : List String) : Json.Reads (.arr (l.map textJson)) 1 :=
  Json.reads_arr fun v hv => by
    obtain ⟨s, -, rfl⟩ := List.mem_map.mp hv
    exact reads_textJson s

theorem reads_window (w : Option BackupWindow) : Json.Reads ((w.map BackupWindow.toJson).getD .null) 1 := by
  cases w with
  | none => exact Json.reads_null.mono (by decide)
  | some w =>
    refine Json.reads_obj ?_
    simp only [List.forall_mem_cons, List.not_mem_nil, false_implies, implies_true, and_true]
    exact ⟨reads_textJson _, reads_textJson _⟩

theorem reads_toJson (p : JobPolicy) : Json.Reads p.toJson 2 := by
  refine Json.reads_obj ?_
  have htext : ∀ s, Json.Reads (textJson s) 1 := fun s => (reads_textJson s).mono (by decide)
  have hint : ∀ n, Json.Reads (intJson n) 1 := fun n => (Json.reads_int n).mono (by decide)
  simp only [List.forall_mem_cons, List.not_mem_nil, false_implies, implies_true, and_true]
  exact ⟨htext _, reads_list _, reads_list _, hint _, hint _, hint _, reads_window _, htext _, htext _, hint _, hint _⟩

@[simp]
theorem ofKey_name (fold : Char → Char) (f : PolicyField) : PolicyField.ofKey fold f.name.toList = some f := by
  have hexact : PolicyField.all.find? (fun g => g.name.toList = f.name.toList) = some f := by
    cases f <;> decide +kernel
  rw [PolicyField.ofKey, hexact]
  rfl

@[simp] theorem textValue_textJson (s : String) : textValue (textJson s) = some (some s) := by
  rw [textJson, textValue, String.ofList_toList]

@[simp]
theorem listValue_list (l : List String) : listValue (.arr (l.map textJson)) = some (some l) := by
  have helems : (l.map textJson).mapM (fun v => (textValue v).map fun s => s.getD "") = some l := by
    induction l with
    | nil => rfl
    | cons s l ih =>
      rw [List.map_cons, List.mapM_cons, textValue_textJson, ih]
      rfl
  rw [listValue, helems]
  rfl

/-- The type `int`. -/
def IsInt (n : Int) : Prop := -2 ^ 63 ≤ n ∧ n < 2 ^ 63

/-- The numbers of a policy are of the type `int`. -/
structure JobPolicy.IsInts (p : JobPolicy) : Prop where
  retryCount : IsInt p.retryCount
  retryDelayMinutes : IsInt p.retryDelayMinutes
  maxDurationMinutes : IsInt p.maxDurationMinutes
  scriptTimeoutSeconds : IsInt p.scriptTimeoutSeconds
  uploadLimitMbpsOverride : IsInt p.uploadLimitMbpsOverride

@[grind =]
theorem intValue_intJson {n : Int} (h : IsInt n) : intValue (intJson n) = some (some n) := by
  rw [intJson, intValue, Json.toInt_intText h.1 h.2]
  rfl

@[simp] theorem windowValue_toJson (fold : Char → Char) (w : Option BackupWindow) :
    windowValue fold none ((w.map BackupWindow.toJson).getD .null) = some w := by
  have hstart : nameOf fold ["start", "end"] "start".toList = some "start" := rfl
  have hend : nameOf fold ["start", "end"] "end".toList = some "end" := rfl
  cases w with
  | none => rfl
  | some w =>
    have hmembers : [("start".toList, textJson w.start), ("end".toList, textJson w.stop)].foldlM (windowStep fold)
        ⟨"", ""⟩ = some w := by
      simp only [List.foldlM_cons, List.foldlM_nil, windowStep, hstart, hend, textValue_textJson, Option.map_some,
        Option.bind_eq_bind, Option.bind_some]
      rfl
    rw [Option.map_some, Option.getD_some, BackupWindow.toJson, windowValue, Option.getD_none, hmembers]
    rfl

theorem ofJson_toJson (fold : Char → Char) (h : p.IsInts) : PolicyJson.ofJson fold p.toJson =
    some ⟨some p.quiesce, some p.excludeDisks, some p.excludePaths, some p.retryCount, some p.retryDelayMinutes,
      some p.maxDurationMinutes, p.window, some p.preScript, some p.postScript, some p.scriptTimeoutSeconds,
      some p.uploadLimitMbpsOverride⟩ := by
  obtain ⟨h₁, h₂, h₃, h₄, h₅⟩ := h
  simp only [PolicyJson.ofJson, JobPolicy.toJson, List.foldlM_cons, List.foldlM_nil, PolicyJson.step, ofKey_name,
    PolicyJson.put, PolicyJson.empty, textValue_textJson, listValue_list, intValue_intJson h₁, intValue_intJson h₂,
    intValue_intJson h₃, intValue_intJson h₄, intValue_intJson h₅, windowValue_toJson, Option.map_some,
    Option.bind_eq_bind, Option.bind_some]
  rfl

@[simp] theorem isDefault_iff : p.isDefault m = true ↔ p.normalized m = .default := by
  unfold JobPolicy.isDefault
  dsimp only
  generalize p.normalized m = q
  rw [decide_eq_true_iff]
  obtain ⟨q₁, q₂, q₃, q₄, q₅, q₆, q₇, q₈, q₉, q₁₀, q₁₁⟩ := q
  rw [JobPolicy.default, JobPolicy.mk.injEq]

theorem IsInt.orDefault {n d : Int} (h : IsInt n) (hd : IsInt d) : IsInt (if n = 0 then d else n) := by
  split
  · exact hd
  · exact h

theorem isInt_small {n : Int} (h : 0 ≤ n ∧ n ≤ 10000) : IsInt n := by
  unfold IsInt
  omega

theorem JobPolicy.IsInts.normalized (h : p.IsInts) : (p.normalized m).IsInts := by
  have hdelay : IsInt RunControl.defaultRetryDelayMinutes := isInt_small (by decide)
  have htimeout : IsInt defaultScriptTimeoutSecs := isInt_small (by decide)
  unfold JobPolicy.normalized
  exact ⟨h.retryCount, h.retryDelayMinutes.orDefault hdelay, h.maxDurationMinutes,
    h.scriptTimeoutSeconds.orDefault htimeout, h.uploadLimitMbpsOverride⟩

theorem fill_normalized (q : JobPolicy) : (PolicyJson.fill m ⟨some q.quiesce, some q.excludeDisks, some q.excludePaths,
    some q.retryCount, some q.retryDelayMinutes, some q.maxDurationMinutes, q.window, some q.preScript,
    some q.postScript, some q.scriptTimeoutSeconds, some q.uploadLimitMbpsOverride⟩).normalized m = q.normalized m := by
  have hquiesce : quiesceMode m (m.fold (trimmed q.quiesce)) = quiesceMode m q.quiesce := by
    unfold quiesceMode
    dsimp only
    rw [m.fold_trimmed]
  unfold JobPolicy.normalized PolicyJson.fill
  dsimp only [Option.map_some, Option.getD_some]
  rw [hquiesce]

@[simp] theorem trimmed_print (members : List (List Char × Json)) :
    trimmed (.ofList (Json.obj members).print) = .ofList (Json.obj members).print := by
  have htext : (Json.obj members).print = '{' :: (Json.printMembers members ++ ['}']) := rfl
  rw [trimmed, String.toList_ofList, trimSpace_of_ends]
  · intro c hc
    rw [htext] at hc
    rw [← Option.some.inj hc]
    decide
  · intro c hc
    rw [htext, ← List.cons_append, List.getLast?_concat] at hc
    rw [← Option.some.inj hc]
    decide

theorem decode_encode (h : p.IsInts) : decodePolicy m fold (encodePolicy m p) = p.normalized m := by
  have hidem := JobPolicy.normalized_normalized m p
  unfold encodePolicy
  dsimp only
  split
  · rename_i hdefault
    rw [isDefault_iff, hidem] at hdefault
    rw [hdefault, decodePolicy, if_pos (by decide +kernel)]
  · have hread := Json.read_print (reads_toJson (p.normalized m)) (by decide)
    have hne : ¬ String.ofList (p.normalized m).toJson.print = "" := by
      intro hempty
      have hnil := congrArg String.toList hempty
      rw [String.toList_ofList] at hnil
      cases hnil
    have hunmarshal : unmarshalJSON m fold (p.normalized m).toJson = some (p.normalized m) := by
      show (PolicyJson.ofJson fold (p.normalized m).toJson).map _ = _
      rw [ofJson_toJson fold h.normalized, Option.map_some, fill_normalized, hidem]
    have htrim : trimmed (.ofList (p.normalized m).toJson.print) = .ofList (p.normalized m).toJson.print :=
      trimmed_print _
    rw [decodePolicy, htrim, if_neg hne, String.toList_ofList, hread]
    dsimp only [Option.bind_eq_bind, Option.bind_some]
    rw [hunmarshal]
    exact hidem

theorem encodePolicy_empty_iff : encodePolicy m p = "" ↔ p.isDefault m = true := by
  have hidem : (p.normalized m).isDefault m = p.isDefault m := by
    rw [Bool.eq_iff_iff, isDefault_iff, isDefault_iff, JobPolicy.normalized_normalized]
  unfold encodePolicy
  dsimp only
  rw [hidem]
  split
  · rename_i hdefault
    exact iff_of_true rfl hdefault
  · rename_i hdefault
    refine iff_of_false (fun hempty => ?_) hdefault
    have hnil := congrArg String.toList hempty
    rw [String.toList_ofList] at hnil
    cases hnil

def PolicyJson.Lacks (p : PolicyJson) : PolicyField → Prop
  | .quiesce => p.quiesce = none
  | .excludeDisks => p.excludeDisks = none
  | .excludePaths => p.excludePaths = none
  | .retryCount => p.retryCount = none
  | .retryDelayMinutes => p.retryDelayMinutes = none
  | .maxDurationMinutes => p.maxDurationMinutes = none
  | .window => p.window = none
  | .preScript => p.preScript = none
  | .postScript => p.postScript = none
  | .scriptTimeoutSeconds => p.scriptTimeoutSeconds = none
  | .uploadLimitMbpsOverride => p.uploadLimitMbpsOverride = none

def JobPolicy.SameAt (p q : JobPolicy) : PolicyField → Prop
  | .quiesce => p.quiesce = q.quiesce
  | .excludeDisks => p.excludeDisks = q.excludeDisks
  | .excludePaths => p.excludePaths = q.excludePaths
  | .retryCount => p.retryCount = q.retryCount
  | .retryDelayMinutes => p.retryDelayMinutes = q.retryDelayMinutes
  | .maxDurationMinutes => p.maxDurationMinutes = q.maxDurationMinutes
  | .window => p.window = q.window
  | .preScript => p.preScript = q.preScript
  | .postScript => p.postScript = q.postScript
  | .scriptTimeoutSeconds => p.scriptTimeoutSeconds = q.scriptTimeoutSeconds
  | .uploadLimitMbpsOverride => p.uploadLimitMbpsOverride = q.uploadLimitMbpsOverride

theorem JobPolicy.SameAt.refl (p : JobPolicy) (f : PolicyField) : p.SameAt p f := by cases f <;> rfl

theorem PolicyJson.Lacks.put {q q' : PolicyJson} {v : Json} {f g : PolicyField} (h : q.Lacks f) (hne : g ≠ f)
    (hput : q.put fold v g = some q') : q'.Lacks f := by
  cases g <;>
    (obtain ⟨x, -, rfl⟩ := Option.map_eq_some_iff.mp hput
     cases f <;> first
      | exact h
      | exact absurd rfl hne)

theorem PolicyJson.Lacks.foldlM {members : List (List Char × Json)} {q q' : PolicyJson} {f : PolicyField}
    (h : q.Lacks f) (hout : ∀ x ∈ members, PolicyField.ofKey fold x.1 ≠ some f)
    (hfold : members.foldlM (PolicyJson.step fold) q = some q') : q'.Lacks f := by
  induction members generalizing q with
  | nil =>
    cases hfold
    exact h
  | cons x members ih =>
    rw [List.foldlM_cons] at hfold
    obtain ⟨q₁, hstep, hrest⟩ := Option.bind_eq_some_iff.mp hfold
    refine ih ?_ (fun y hy => hout y (List.mem_cons_of_mem _ hy)) hrest
    have hkey := hout x List.mem_cons_self
    unfold PolicyJson.step at hstep
    cases hof : PolicyField.ofKey fold x.1 with
    | none =>
      rw [hof] at hstep
      cases hstep
      exact h
    | some g =>
      rw [hof] at hstep hkey
      exact h.put (fun heq => hkey (congrArg some heq)) hstep

theorem PolicyJson.Lacks.fill {q : PolicyJson} {f : PolicyField} (h : q.Lacks f) : (q.fill m).SameAt .default f := by
  cases f <;> (unfold PolicyJson.Lacks at h; unfold JobPolicy.SameAt PolicyJson.fill; dsimp only at h ⊢; rw [h]; rfl)

theorem JobPolicy.SameAt.normalized {q : JobPolicy} {f : PolicyField} (h : p.SameAt q f) :
    (p.normalized m).SameAt (q.normalized m) f := by
  cases f <;> (unfold SameAt at h ⊢; unfold JobPolicy.normalized; dsimp only at h ⊢; rw [h])

@[simp] theorem default_normalized (m : CaseMap) : JobPolicy.default.normalized m = .default := by
  have hempty : trimmed "" = "" := by decide +kernel
  have hquiesce : quiesceMode m "" = quiesceNone := by
    unfold quiesceMode
    rw [hempty]
    rfl
  have hnone : quiesceMode m quiesceNone = quiesceNone := by
    rw [← hquiesce, quiesceMode_quiesceMode]
  unfold JobPolicy.normalized JobPolicy.default
  dsimp only
  rw [hnone, hempty]
  rfl

def storedFields (fold : Char → Char) (raw : String) : Option PolicyJson :=
  Json.read (trimmed raw).toList >>= PolicyJson.ofJson fold

theorem decodePolicy_eq (raw : String) : decodePolicy m fold raw =
    ((storedFields fold raw).map fun q => (q.fill m).normalized m).getD .default := by
  unfold decodePolicy storedFields
  split
  · rename_i hempty
    rw [hempty]
    rfl
  cases hread : Json.read (trimmed raw).toList with
  | none => rfl
  | some j =>
    dsimp only [Option.bind_eq_bind, Option.bind_some]
    have hother : ∀ j : Json, (match (PolicyJson.ofJson fold j).map fun p => (p.fill m).normalized m with
        | none => JobPolicy.default
        | some p => p.normalized m) =
        ((PolicyJson.ofJson fold j).map fun q => (q.fill m).normalized m).getD .default := by
      intro j
      cases PolicyJson.ofJson fold j with
      | none => rfl
      | some q => exact JobPolicy.normalized_normalized m _
    cases j with
    | null =>
      show JobPolicy.default.normalized m = (PolicyJson.empty.fill m).normalized m
      rfl
    | bool b => exact hother (.bool b)
    | num literal => exact hother (.num literal)
    | str s => exact hother (.str s)
    | arr elems => exact hother (.arr elems)
    | obj members => exact hother (.obj members)

theorem sameAt_default {raw : String} {members : List (List Char × Json)} {f : PolicyField}
    (hread : Json.read (trimmed raw).toList = some (.obj members))
    (hout : ∀ x ∈ members, PolicyField.ofKey fold x.1 ≠ some f) : (decodePolicy m fold raw).SameAt .default f := by
  have hempty : PolicyJson.empty.Lacks f := by cases f <;> rfl
  rw [decodePolicy_eq, storedFields, hread]
  dsimp only [Option.bind_eq_bind, Option.bind_some]
  cases hof : PolicyJson.ofJson fold (.obj members) with
  | none => exact .refl _ f
  | some q =>
    have hsame := ((hempty.foldlM hout hof).fill (m := m)).normalized (m := m)
    rw [default_normalized] at hsame
    exact hsame

end

/-- A policy that is stored comes back tidied, a default one as nothing at all; and what a text leaves
out is the default. -/
theorem policy_survives (m : CaseMap) (fold : Char → Char) :
    (∀ p : JobPolicy, p.IsInts → decodePolicy m fold (encodePolicy m p) = p.normalized m) ∧
    (∀ p : JobPolicy, (p.normalized m).normalized m = p.normalized m) ∧
    (∀ p : JobPolicy, encodePolicy m p = "" ↔ p.isDefault m = true) ∧
    ∀ raw members, Json.read (trimmed raw).toList = some (.obj members) → ∀ f : PolicyField,
      (∀ x ∈ members, PolicyField.ofKey fold x.1 ≠ some f) → (decodePolicy m fold raw).SameAt .default f :=
  ⟨fun _ => decode_encode, JobPolicy.normalized_normalized m, fun _ => encodePolicy_empty_iff,
    fun _ _ hread _ => sameAt_default hread⟩

def oneField (f : PolicyField) (n : Int) : String := .ofList (Json.obj [(f.name.toList, intJson n)]).print

@[simp] theorem oneField_read (f : PolicyField) (n : Int) :
    Json.read (trimmed (oneField f n)).toList = some (.obj [(f.name.toList, intJson n)]) := by
  have hreads : Json.Reads (.obj [(f.name.toList, intJson n)]) 1 := by
    refine Json.reads_obj fun x hx => ?_
    rw [List.mem_singleton.mp hx]
    exact Json.reads_int n
  rw [oneField, trimmed_print, String.toList_ofList]
  exact Json.read_print hreads (by decide)

theorem policy_survives_retry :
    decodePolicy asciiCase Char.toLower (encodePolicy asciiCase { JobPolicy.default with excludePaths := [" a", "a", ""] }) =
      { JobPolicy.default with excludePaths := ["a"] } ∧
    oneField .retryCount 2 = "\x7b\"retryCount\":2\x7d" ∧
    (decodePolicy asciiCase Char.toLower (oneField .retryCount 2)).scriptTimeoutSeconds = 30 := by
  obtain ⟨hround, -, -, hout⟩ := policy_survives asciiCase Char.toLower
  have hint : ∀ n : Int, 0 ≤ n ∧ n ≤ 10000 → IsInt n := fun n h => isInt_small h
  refine ⟨(hround _ ⟨hint _ (by decide), hint _ (by decide), hint _ (by decide), hint _ (by decide),
    hint _ (by decide)⟩).trans (by decide +kernel), by decide +kernel, ?_⟩
  refine hout _ _ (oneField_read .retryCount 2) .scriptTimeoutSeconds fun x hx => ?_
  rw [List.mem_singleton.mp hx, ofKey_name]
  decide

end ProxBack.Store
