import ProxBack.Lib.Records
import ProxBack.Lib.Requests
import ProxBack.Store.Stamp

/-! The activity log of a run is what has been appended to it since it was last deleted, less its
oldest lines: never one of the last 500, whatever statements fail and however the requests
interleave. -/
namespace ProxBack.Store
open Lib

def runLogCap : Nat := 500

/-- A row of `run_log`. -/
structure RunLogRow where
  runID : String
  ts : List Char
  line : String

structure RunLogLine where
  ts : Int
  line : String
deriving DecidableEq, Repr

namespace RunLog

def ofRun (runID : String) (row : RunLogRow) : Bool := row.runID = runID

def countRunLog (t : Records RunLogRow) (runID : String) : Nat := (t.select (ofRun runID)).length

def runLog (t : Records RunLogRow) (runID : String) : List RunLogLine :=
  (t.select (ofRun runID)).map fun row => ⟨parseTime row.2.ts, row.2.line⟩

/-- The last statement of `AppendRunLog`. -/
def trimRunLog (t : Records RunLogRow) (runID : String) : Records RunLogRow :=
  t.delete fun row => ofRun runID row.2 && row.1 ∉ t.newest (ofRun runID) runLogCap

/-- `DeleteRunLog` for one run, and what `DeleteJobRunsByStatus` begins with for many. -/
def deleteRunLog (t : Records RunLogRow) (runIDs : List String) : Records RunLogRow :=
  t.delete fun row => row.2.runID ∈ runIDs

/-- The table, and what has been appended for the runs since their lines were last deleted, which
no request reads. -/
structure Shared where
  table : Records RunLogRow
  appended : List (String × RunLogLine)

def Shared.appendedTo (s : Shared) (runID : String) : List RunLogLine :=
  (s.appended.filter fun x => x.1 = runID).map Prod.snd

def Shared.insert (s : Shared) (runID : String) (now : Int) (line : String) : Shared where
  table := s.table.insert ⟨runID, fmtTime now, line⟩
  appended := s.appended ++ [(runID, ⟨now, line⟩)]

def Shared.delete (s : Shared) (runIDs : List String) : Shared where
  table := deleteRunLog s.table runIDs
  appended := s.appended.filter fun x => x.1 ∉ runIDs

inductive Request where
  | append (runID line : String)
  | delete (runIDs : List String)

inductive Phase where
  | insert (runID line : String)
  | count (runID : String)
  | trim (runID : String)
  | delete (runIDs : List String)
  | appended (runID : String) (err : Bool)
  | deleted (err : Bool)

def begin : Request → Phase
  | .append runID line => if runID = "" then .appended runID true else .insert runID line
  | .delete runIDs => .delete runIDs

structure Access where
  now : Int
  res : Written

def advance (b : Access) (s : Shared) : Phase → Option (Shared × Phase)
  | .insert runID line =>
    some (b.res.outcome s (some (s.insert runID b.now line, .count runID)) (.appended runID true))
  | .count runID =>
    some (s, if b.res ≠ .done then .appended runID true
      else if countRunLog s.table runID ≤ runLogCap then .appended runID false
      else .trim runID)
  | .trim runID =>
    some (b.res.outcome s (some ({ s with table := trimRunLog s.table runID },
      .appended runID false)) (.appended runID true))
  | .delete runIDs =>
    some (b.res.outcome s (some (s.delete runIDs, .deleted false)) (.deleted true))
  | .appended _ _ | .deleted _ => none

def service : Service Shared Phase Request Access := ⟨begin, advance⟩

def start : Hall Shared Phase := ⟨⟨Records.empty, []⟩, []⟩

def Clocked (_ : Shared) (_ : Phase) (b : Access) : Prop := InYears (b.now / 10 ^ 9)

instance (s : Shared) (q : Phase) (b : Access) : Decidable (Clocked s q b) :=
  inferInstanceAs (Decidable (_ ∧ _))

variable {s s' : Shared} {q q' : Phase} {b : Access} {t : Records RunLogRow} {runID r : String}

@[simp] theorem length_runLog (t : Records RunLogRow) (r : String) :
    (runLog t r).length = countRunLog t r := List.length_map _

@[simp] theorem ofRun_self (r : String) (ts : List Char) (line : String) : ofRun r ⟨r, ts, line⟩ = true :=
  decide_eq_true rfl

@[grind =]
theorem ofRun_other {row : RunLogRow} (h : row.runID ≠ r) : ofRun r row = false := decide_eq_false h

@[simp] theorem runLog_insert_self (t : Records RunLogRow) (r line : String) {now : Int}
    (hnow : InYears (now / 10 ^ 9)) :
    runLog (t.insert ⟨r, fmtTime now, line⟩) r = runLog t r ++ [⟨now, line⟩] := by
  have hstamp : IsStamp (fmtTime now) now := ⟨hnow, .inl rfl⟩
  rw [runLog, Records.select_insert_self (ofRun_self r _ _), List.map_append, List.map_singleton,
    hstamp.parseTime_eq]
  rfl

@[simp] theorem runLog_insert_other (h : runID ≠ r) (ts : List Char) (line : String) :
    runLog (t.insert ⟨runID, ts, line⟩) r = runLog t r := by
  rw [runLog, Records.select_insert_other (ofRun_other h)]
  rfl

@[grind =] theorem runLog_trim_self (t : Records RunLogRow) (r : String) :
    runLog (trimRunLog t r) r = (runLog t r).drop ((runLog t r).length - runLogCap) := by
  rw [runLog, trimRunLog, Records.select_delete_old, List.map_drop, runLog, List.length_map]

@[simp] theorem runLog_trim_other (h : runID ≠ r) : runLog (trimRunLog t runID) r = runLog t r := by
  rw [runLog, trimRunLog, Records.select_delete_other, runLog]
  intro row hrow
  rw [ofRun_other (r := runID) (by rw [of_decide_eq_true hrow]; exact h.symm), Bool.false_and]

@[simp] theorem runLog_delete_self {runIDs : List String} (h : r ∈ runIDs) :
    runLog (deleteRunLog t runIDs) r = [] := by
  rw [runLog, deleteRunLog, Records.select_delete_all, List.map_nil]
  intro row hrow
  rw [of_decide_eq_true hrow]
  exact decide_eq_true h

@[simp] theorem runLog_delete_other {runIDs : List String} (h : r ∉ runIDs) :
    runLog (deleteRunLog t runIDs) r = runLog t r := by
  rw [runLog, deleteRunLog, Records.select_delete_other, runLog]
  intro row hrow
  rw [of_decide_eq_true hrow]
  exact decide_eq_false h

@[simp] theorem appendedTo_insert (s : Shared) (runID : String) (now : Int) (line r : String) :
    (s.insert runID now line).appendedTo r =
      s.appendedTo r ++ if runID = r then [⟨now, line⟩] else [] := by
  rw [Shared.appendedTo, Shared.insert, List.filter_append, List.map_append]
  by_cases h : runID = r
  · simp [h, Shared.appendedTo]
  · simp [h, Shared.appendedTo]

@[simp] theorem appendedTo_delete (s : Shared) (runIDs : List String) (r : String) :
    (s.delete runIDs).appendedTo r = if r ∈ runIDs then [] else s.appendedTo r := by
  rw [Shared.appendedTo, Shared.delete, List.filter_filter]
  split
  · rename_i hmem
    rw [List.filter_eq_nil_iff.mpr, List.map_nil]
    rintro x - hx
    rw [Bool.and_eq_true, decide_eq_true_eq, decide_eq_true_eq] at hx
    exact hx.2 (hx.1 ▸ hmem)
  · rename_i hmem
    rw [Shared.appendedTo]
    congr 1
    refine List.filter_congr fun x _ => ?_
    by_cases hx : x.1 = r
    · simp [hx, hmem]
    · simp [hx]

def Windowed (s : Shared) : Prop := ∀ r, Window runLogCap (s.appendedTo r) (runLog s.table r)

theorem Windowed.insert (h : Windowed s) (runID line : String) {now : Int}
    (hnow : InYears (now / 10 ^ 9)) : Windowed (s.insert runID now line) := by
  intro r
  rw [appendedTo_insert]
  by_cases hr : runID = r
  · rw [if_pos hr, hr]
    show Window _ _ (runLog (s.table.insert _) r)
    rw [runLog_insert_self _ _ _ hnow]
    exact (h r).append _
  · rw [if_neg hr, List.append_nil]
    show Window _ _ (runLog (s.table.insert _) r)
    rw [runLog_insert_other hr]
    exact h r

theorem Windowed.trim (h : Windowed s) (runID : String) :
    Windowed { s with table := trimRunLog s.table runID } := by
  intro r
  show Window _ (s.appendedTo r) (runLog (trimRunLog s.table runID) r)
  by_cases hr : runID = r
  · rw [hr, runLog_trim_self]
    exact (h r).newest
  · rw [runLog_trim_other hr]
    exact h r

theorem Windowed.delete (h : Windowed s) (runIDs : List String) : Windowed (s.delete runIDs) := by
  intro r
  rw [appendedTo_delete]
  show Window _ _ (runLog (deleteRunLog s.table runIDs) r)
  split
  · rename_i hr
    rw [runLog_delete_self hr]
    exact .refl _ _
  · rename_i hr
    rw [runLog_delete_other hr]
    exact h r

theorem windowed_advance (h : Windowed s) (hok : Clocked s q b) (hadv : advance b s q = some (s', q')) :
    Windowed s' := by
  cases q with
  | insert runID line =>
    refine Written.outcome_spec (R := fun s _ => Windowed s) h ?_ (Option.some.inj hadv)
    rintro s₁ q₁ ⟨rfl, rfl⟩
    exact ⟨h.insert _ _ hok, h.insert _ _ hok⟩
  | count runID =>
    cases hadv
    exact h
  | trim runID =>
    refine Written.outcome_spec (R := fun s _ => Windowed s) h ?_ (Option.some.inj hadv)
    rintro s₁ q₁ ⟨rfl, rfl⟩
    exact ⟨h.trim _, h.trim _⟩
  | delete runIDs =>
    refine Written.outcome_spec (R := fun s _ => Windowed s) h ?_ (Option.some.inj hadv)
    rintro s₁ q₁ ⟨rfl, rfl⟩
    exact ⟨h.delete _, h.delete _⟩
  | appended | deleted => cases hadv

def Concerns (r : String) : Phase → Prop
  | .insert runID _ | .count runID | .trim runID => runID = r
  | .delete runIDs => r ∈ runIDs
  | .appended _ _ | .deleted _ => False

theorem runLog_advance_other (h : ¬ Concerns r q) (hadv : advance b s q = some (s', q')) :
    runLog s'.table r = runLog s.table r := by
  cases q with
  | insert runID line =>
    refine Written.outcome_spec (R := fun s' _ => runLog s'.table r = runLog s.table r) rfl ?_
      (Option.some.inj hadv)
    rintro s₁ q₁ ⟨rfl, rfl⟩
    have hother : runLog (s.insert runID b.now line).table r = runLog s.table r :=
      runLog_insert_other h _ _
    exact ⟨hother, hother⟩
  | count runID =>
    cases hadv
    rfl
  | trim runID =>
    refine Written.outcome_spec (R := fun s' _ => runLog s'.table r = runLog s.table r) rfl ?_
      (Option.some.inj hadv)
    rintro s₁ q₁ ⟨rfl, rfl⟩
    exact ⟨runLog_trim_other h, runLog_trim_other h⟩
  | delete runIDs =>
    refine Written.outcome_spec (R := fun s' _ => runLog s'.table r = runLog s.table r) rfl ?_
      (Option.some.inj hadv)
    rintro s₁ q₁ ⟨rfl, rfl⟩
    exact ⟨runLog_delete_other h, runLog_delete_other h⟩
  | appended | deleted => cases hadv

theorem windowed_start : Windowed start.shared := fun _ => .refl _ _

/-- After any run, what is read of the log of a run is the end of what has been appended to it, in
order and with the times: its last 500 lines, or more of them, or all. No statement about other
runs changes it. -/
theorem runLog_window {ts : List (Turn Request Access)} {w : Hall Shared Phase}
    (h : service.system.Run (Service.Heeding Clocked) start ts w) (r : String) :
    Window runLogCap (w.shared.appendedTo r) (runLog w.shared.table r) ∧
      ∀ q ∈ w.requests, ¬ Concerns r q → ∀ b s' q', advance b w.shared q = some (s', q') →
        runLog s'.table r = runLog w.shared.table r := by
  refine ⟨(Service.serves (I := Windowed) (F := fun _ _ => True) (fun _ _ _ => trivial) ?_ h
    ⟨windowed_start, fun _ _ => trivial⟩).1 r, fun q _ hq b s' q' => runLog_advance_other hq⟩
  rintro b s q s' q' hI - hok hadv
  exact ⟨windowed_advance hI hok hadv, trivial, fun _ _ => trivial⟩

/-- A line is appended to the log of a run while another one's is deleted, and the answer to the
insertion is lost. -/
theorem runLog_window_lost : ∃ w, service.system.Run (Service.Heeding Clocked) start
    [.arrive (.append "run1" "started"), .arrive (.append "run2" "started"), .arrive (.delete ["run2"]),
      .advance 1 ⟨0, .done⟩, .advance 0 ⟨1, .lost⟩, .advance 2 ⟨2, .done⟩] w ∧
    Window runLogCap (w.shared.appendedTo "run1") (runLog w.shared.table "run1") := by
  obtain ⟨w, hfollow⟩ : ∃ w, service.system.follow
    [.arrive (.append "run1" "started"), .arrive (.append "run2" "started"), .arrive (.delete ["run2"]),
      .advance 1 ⟨0, .done⟩, .advance 0 ⟨1, .lost⟩, .advance 2 ⟨2, .done⟩] start = some w :=
    ⟨_, rfl⟩
  have hrun := System.run_of_trail (p := fun x => decide (Service.Heeding Clocked x.1 x.2))
    (fun _ _ h => of_decide_eq_true h) hfollow (by decide +kernel)
  exact ⟨w, hrun, (runLog_window hrun "run1").1⟩

/-- A request has come past its insertion, and has not answered that all went well. -/
def behind (r : String) : Phase → Bool
  | .count runID | .trim runID | .appended runID true => runID = r
  | _ => false

@[simp] theorem countRunLog_insert (t : Records RunLogRow) (row : RunLogRow) (r : String) :
    countRunLog (t.insert row) r = countRunLog t r + (ofRun r row).toNat := by
  cases h : ofRun r row with
  | true =>
    rw [countRunLog, Records.select_insert_self h, List.length_append]
    rfl
  | false =>
    rw [countRunLog, Records.select_insert_other h]
    rfl

@[grind =]
theorem countRunLog_trim_other (h : runID ≠ r) : countRunLog (trimRunLog t runID) r = countRunLog t r := by
  rw [← length_runLog, runLog_trim_other h, length_runLog]

theorem countRunLog_trim_self (t : Records RunLogRow) (r : String) :
    countRunLog (trimRunLog t r) r ≤ runLogCap := by
  rw [← length_runLog, runLog_trim_self, List.length_drop]
  omega

theorem countRunLog_delete (t : Records RunLogRow) (runIDs : List String) (r : String) :
    countRunLog (deleteRunLog t runIDs) r ≤ countRunLog t r := by
  rw [← length_runLog, ← length_runLog]
  by_cases h : r ∈ runIDs
  · rw [runLog_delete_self h]
    exact Nat.zero_le _
  · rw [runLog_delete_other h]

theorem bounded_advance {rest : Nat} (hadv : advance b s q = some (s', q'))
    (hI : countRunLog s.table r ≤ runLogCap + (rest + (behind r q).toNat)) :
    countRunLog s'.table r ≤ runLogCap + (rest + (behind r q').toNat) := by
  cases q with
  | insert runID line =>
    refine Written.outcome_spec
      (R := fun s q => countRunLog s.table r ≤ runLogCap + (rest + (behind r q).toNat))
      (Nat.le_trans hI (Nat.add_le_add_left (Nat.add_le_add_left (Nat.zero_le _) _) _)) ?_
      (Option.some.inj hadv)
    rintro s₁ q₁ ⟨rfl, rfl⟩
    have hadded : countRunLog (s.insert runID b.now line).table r ≤
        runLogCap + (rest + (decide (runID = r)).toNat) := by
      show countRunLog (s.table.insert _) r ≤ _
      rw [countRunLog_insert, ← Nat.add_assoc]
      exact Nat.add_le_add_right hI _
    exact ⟨hadded, hadded⟩
  | count runID =>
    cases hadv
    split
    · exact hI
    · split
      · rename_i hle
        by_cases hr : runID = r
        · rw [← hr]
          exact Nat.le_trans hle (Nat.le_add_right _ _)
        · simpa [behind, hr] using hI
      · exact hI
  | trim runID =>
    refine Written.outcome_spec
      (R := fun s q => countRunLog s.table r ≤ runLogCap + (rest + (behind r q).toNat)) hI ?_
      (Option.some.inj hadv)
    rintro s₁ q₁ ⟨rfl, rfl⟩
    by_cases hr : runID = r
    · have hcap := countRunLog_trim_self s.table r
      rw [hr]
      exact ⟨Nat.le_trans hcap (Nat.le_add_right _ _), Nat.le_trans hcap (Nat.le_add_right _ _)⟩
    · show countRunLog (trimRunLog _ _) r ≤ _ ∧ countRunLog (trimRunLog _ _) r ≤ _
      rw [countRunLog_trim_other hr]
      simpa [behind, hr] using hI
  | delete runIDs =>
    refine Written.outcome_spec
      (R := fun s q => countRunLog s.table r ≤ runLogCap + (rest + (behind r q).toNat)) hI ?_
      (Option.some.inj hadv)
    rintro s₁ q₁ ⟨rfl, rfl⟩
    have hless := Nat.le_trans (countRunLog_delete s.table runIDs r) hI
    exact ⟨hless, hless⟩
  | appended | deleted => cases hadv

/-- The log of a run is never longer than 500 lines and one for each request that has come past
its insertion and has not answered that all went well. -/
theorem runLog_bounded {ts : List (Turn Request Access)} {w : Hall Shared Phase}
    (h : service.system.Run (fun _ _ => True) start ts w) (r : String) :
    (runLog w.shared.table r).length ≤ runLogCap + w.requests.countP (behind r) := by
  rw [length_runLog]
  refine Service.amount_le (fun s => countRunLog s.table r) (behind r) ?_
    (h.mono fun w t _ => Service.heeding_trivial w t) (Nat.zero_le _)
  rintro b s q s' q' rest - hadv hI
  exact bounded_advance hadv hI

/-- One of two insertions is lost; the other request sees the log within the bound. -/
theorem runLog_bounded_lost : ∃ w, service.system.Run (fun _ _ => True) start
    [.arrive (.append "run1" "started"), .arrive (.append "run1" "backing up"), .advance 0 ⟨0, .lost⟩,
      .advance 1 ⟨1, .done⟩, .advance 1 ⟨2, .done⟩] w ∧
    (runLog w.shared.table "run1").length ≤ runLogCap + w.requests.countP (behind "run1") := by
  obtain ⟨w, hfollow⟩ : ∃ w, service.system.follow
    [.arrive (.append "run1" "started"), .arrive (.append "run1" "backing up"), .advance 0 ⟨0, .lost⟩,
      .advance 1 ⟨1, .done⟩, .advance 1 ⟨2, .done⟩] start = some w := ⟨_, rfl⟩
  have hrun := System.run_of_follow (fun _ _ _ => trivial) hfollow
  exact ⟨w, hrun, runLog_bounded hrun "run1"⟩

end RunLog

end ProxBack.Store
