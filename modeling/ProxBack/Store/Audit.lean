import ProxBack.Lib.Records
import ProxBack.Lib.Requests
import ProxBack.Lib.Text
import ProxBack.Store.Stamp
import Mathlib.Data.List.Perm.Subperm

/-! The audit trail is everything that has been recorded, less its oldest entries: never one of the
last 50000, and each request trims it by the id of its own entry only, without counting. -/
namespace ProxBack.Store
open Lib

def auditRetention : Nat := 50000
def defaultAuditLimit : Int := 100
def maxAuditLimit : Int := 1000
def auditOK : String := "ok"

/-- An entry without its id. Its time is an instant, or the text of it in a row of `audit_log`. -/
structure AuditEntry (T : Type) where
  recordedAt : T
  actor : String
  actorID : Int
  action : String
  objectKind : String
  objectID : String
  objectName : String
  result : String
  sourceIP : String
  detail : String

structure AuditFilter where
  limit : Int
  action : String
  actor : String

namespace Audit

abbrev Entry : Type := Nat × AuditEntry Int

def scan (row : Nat × AuditEntry (List Char)) : Entry :=
  (row.1, { row.2 with recordedAt := parseTime row.2.recordedAt })

def trail (t : Records (AuditEntry (List Char))) : List Entry := t.rows.map scan

def pageLimit (f : AuditFilter) : Nat :=
  (min (if f.limit ≤ 0 then defaultAuditLimit else f.limit) maxAuditLimit).toNat

def asks (wanted value : String) : Bool :=
  Text.trimSpace wanted.toList = [] ∨ value.toList = Text.trimSpace wanted.toList

def selects (f : AuditFilter) (x : Entry) : Bool := asks f.action x.2.action && asks f.actor x.2.actor

def auditEntries (t : Records (AuditEntry (List Char))) (f : AuditFilter) : List Entry :=
  ((t.rows.filter fun row => asks f.action row.2.action && asks f.actor row.2.actor).reverse.take
    (pageLimit f)).map scan

/-- The table, and everything that has ever been inserted, which no request reads. -/
structure Shared where
  table : Records (AuditEntry (List Char))
  recorded : List Entry

def Shared.insert (s : Shared) (e : AuditEntry Int) : Shared where
  table := s.table.insert { e with recordedAt := fmtTime e.recordedAt }
  recorded := s.recorded ++ [(s.table.seq + 1, e)]

/-- `DELETE FROM audit_log WHERE id <= cutoff`. -/
def Shared.trim (s : Shared) (cutoff : Nat) : Shared :=
  { s with table := s.table.delete fun row => row.1 ≤ cutoff }

/-- A request inserts its entry, trims the trail, and answers with the entry and an error; the id
is the one its row got, whether it has learned it or not. -/
inductive Phase where
  | insert (e : AuditEntry Int)
  | trim (x : Entry)
  | answered (id : Option Nat) (e : Option Entry) (err : Bool)

/-- `AppendAudit` is called at a time. -/
structure Request where
  now : Int
  e : AuditEntry Int

def Request.filled (a : Request) : AuditEntry Int :=
  { a.e with
    recordedAt := if a.e.recordedAt = zeroTime then a.now else a.e.recordedAt
    result := if a.e.result = "" then auditOK else a.e.result }

def begin (a : Request) : Phase :=
  if a.e.action = "" then .answered none none true else .insert a.filled

def afterInsert (x : Entry) : Phase :=
  if auditRetention < x.1 then .trim x else .answered (some x.1) (some x) false

def advance (res : Written) (s : Shared) : Phase → Option (Shared × Phase)
  | .insert e =>
    match res with
    | .done => some (s.insert e, afterInsert (s.table.seq + 1, e))
    | .failed => some (s, .answered none none true)
    | .lost => some (s.insert e, .answered (some (s.table.seq + 1)) none true)
  | .trim x =>
    match res with
    | .done => some (s.trim (x.1 - auditRetention), .answered (some x.1) (some x) false)
    | .failed => some (s, .answered (some x.1) (some x) true)
    | .lost => some (s.trim (x.1 - auditRetention), .answered (some x.1) (some x) true)
  | .answered _ _ _ => none

def service : Service Shared Phase Request Written := ⟨begin, advance⟩

def start : Hall Shared Phase := ⟨⟨Records.empty, []⟩, []⟩

def Dated (_ : Shared) : Phase → Written → Prop
  | .insert e, _ => InYears (e.recordedAt / 10 ^ 9)
  | _, _ => True

instance (s : Shared) (q : Phase) (b : Written) : Decidable (Dated s q b) := by
  unfold Dated InYears
  split <;> infer_instance

variable {s s' : Shared} {q q' : Phase} {b : Written} {w w' : Hall Shared Phase}

structure Tidy (s : Shared) : Prop where
  ids : s.recorded.map Prod.fst = List.range' 1 s.recorded.length
  seq : s.table.seq = s.recorded.length
  window : Window auditRetention s.recorded (trail s.table)

@[grind =]
theorem trail_insert (s : Shared) {e : AuditEntry Int} (he : InYears (e.recordedAt / 10 ^ 9)) :
    trail (s.insert e).table = trail s.table ++ [(s.table.seq + 1, e)] := by
  have hstamp : IsStamp (fmtTime e.recordedAt) e.recordedAt := ⟨he, .inl rfl⟩
  rw [trail, Shared.insert, Records.insert, List.map_append, List.map_singleton, scan,
    hstamp.parseTime_eq]
  rfl

theorem Tidy.insert (h : Tidy s) {e : AuditEntry Int} (he : InYears (e.recordedAt / 10 ^ 9)) :
    Tidy (s.insert e) where
  ids := by
    show (s.recorded ++ [(s.table.seq + 1, e)]).map Prod.fst = _
    rw [List.map_append, h.ids, h.seq, List.map_singleton]
    show _ = List.range' 1 (s.recorded ++ [(s.table.seq + 1, e)]).length
    rw [List.length_append, List.length_singleton, List.range'_concat, Nat.one_mul, Nat.add_comm 1]
  seq := by
    show s.table.seq + 1 = (s.recorded ++ [(s.table.seq + 1, e)]).length
    rw [h.seq, List.length_append, List.length_singleton]
  window := by
    rw [trail_insert s he]
    exact h.window.append _

theorem Tidy.rows_ids (h : Tidy s) : (trail s.table).map Prod.fst =
    List.range' (s.recorded.length - (trail s.table).length + 1) (trail s.table).length := by
  have hle := h.window.suffix.length_le
  have hdrop := List.suffix_iff_eq_drop.mp h.window.suffix
  set n := (trail s.table).length
  rw [hdrop, List.map_drop, h.ids, List.drop_range']
  congr 1 <;> omega

@[grind =] theorem trail_trim (h : Tidy s) (cutoff : Nat) : trail (s.trim cutoff).table =
    (trail s.table).drop (cutoff - (s.recorded.length - (trail s.table).length)) := by
  rw [← Records.filter_over h.rows_ids cutoff, trail, trail, List.filter_map]
  show (s.table.rows.filter fun row => !decide (row.1 ≤ cutoff)).map scan = _
  refine congrArg _ (List.filter_congr fun row _ => ?_)
  show (!decide (row.1 ≤ cutoff)) = decide (cutoff < row.1)
  rw [← decide_not]
  exact decide_eq_decide.mpr Nat.not_le

theorem Tidy.trim (h : Tidy s) {cutoff : Nat} (hcutoff : cutoff = 0 ∨ cutoff + auditRetention ≤ s.recorded.length) :
    Tidy (s.trim cutoff) where
  ids := h.ids
  seq := h.seq
  window := by
    rw [trail_trim h]
    exact h.window.drop (by omega)

def Told (s : Shared) : Phase → Prop
  | .trim x | .answered _ (some x) _ => x ∈ s.recorded
  | _ => True

theorem Told.mono (h : Told s q) (hsub : ∀ x ∈ s.recorded, x ∈ s'.recorded) : Told s' q := by
  cases q with
  | insert => trivial
  | trim x => exact hsub x h
  | answered id e err =>
    cases e with
    | none => trivial
    | some x => exact hsub x h

theorem mem_insert (s : Shared) (e : AuditEntry Int) :
    (s.table.seq + 1, e) ∈ (s.insert e).recorded := List.mem_append_right _ List.mem_cons_self

theorem told_afterInsert {x : Entry} (h : x ∈ s.recorded) : Told s (afterInsert x) := by
  unfold afterInsert
  split <;> exact h

theorem Tidy.id_le (h : Tidy s) {x : Entry} (hx : x ∈ s.recorded) : x.1 ≤ s.recorded.length := by
  have hmem := List.mem_map_of_mem (f := Prod.fst) hx
  rw [h.ids, List.mem_range'_1] at hmem
  omega

theorem tidy_advance (h : Tidy s) (hq : Told s q) (hok : Dated s q b)
    (hadv : advance b s q = some (s', q')) :
    Tidy s' ∧ Told s' q' ∧ ∀ x ∈ s.recorded, x ∈ s'.recorded := by
  cases q with
  | insert e =>
    have hsub : ∀ x ∈ s.recorded, x ∈ (s.insert e).recorded := fun x hx => List.mem_append_left _ hx
    cases b with
    | done =>
      cases hadv
      exact ⟨h.insert hok, told_afterInsert (mem_insert s e), hsub⟩
    | failed =>
      cases hadv
      exact ⟨h, trivial, fun _ hx => hx⟩
    | lost =>
      cases hadv
      exact ⟨h.insert hok, trivial, hsub⟩
  | trim x =>
    have hle := h.id_le hq
    have htidy : Tidy (s.trim (x.1 - auditRetention)) := h.trim (by omega)
    cases b with
    | done =>
      cases hadv
      exact ⟨htidy, hq, fun _ hx => hx⟩
    | failed =>
      cases hadv
      exact ⟨h, hq, fun _ hx => hx⟩
    | lost =>
      cases hadv
      exact ⟨htidy, hq, fun _ hx => hx⟩
  | answered => cases hadv

theorem told_begin (a : Request) (s : Shared) : Told s (begin a) := by
  unfold begin
  split <;> trivial

theorem tidy_step {t : Turn Request Written} (h : Tidy w.shared ∧ ∀ p ∈ w.requests, Told w.shared p)
    (hok : Service.Heeding Dated w t) (hstep : service.system.step t w = some w') :
    Tidy w'.shared ∧ ∀ p ∈ w'.requests, Told w'.shared p := by
  refine Service.serves_step (fun a s _ => told_begin a s) ?_ h hok hstep
  intro b s q s' q' hI hF hok hadv
  obtain ⟨htidy, htold, hsub⟩ := tidy_advance hI hF hok hadv
  exact ⟨htidy, htold, fun p hp => hp.mono hsub⟩

theorem tidy_start : Tidy start.shared ∧ ∀ p ∈ start.requests, Told start.shared p :=
  ⟨⟨rfl, rfl, .refl _ _⟩, List.forall_mem_nil _⟩

theorem tidy_of_run {ts : List (Turn Request Written)}
    (h : service.system.Run (Service.Heeding Dated) start ts w) :
    Tidy w.shared ∧ ∀ p ∈ w.requests, Told w.shared p :=
  System.Run.invariant (I := fun w => Tidy w.shared ∧ ∀ p ∈ w.requests, Told w.shared p)
    (fun _ _ _ hinv hok hstep => tidy_step hinv hok hstep) h tidy_start

/-- After any run the ids that have been given out are 1, 2, 3 and so on, the trail is the end of
what has been recorded, its last 50000 entries at least or all of them, and every entry that a
request answered with has been recorded. -/
theorem trail_window {ts : List (Turn Request Written)}
    (h : service.system.Run (Service.Heeding Dated) start ts w) :
    w.shared.recorded.map Prod.fst = List.range' 1 w.shared.recorded.length ∧
      Window auditRetention w.shared.recorded (trail w.shared.table) ∧
      ∀ id x err, .answered id (some x) err ∈ w.requests → x ∈ w.shared.recorded := by
  obtain ⟨htidy, htold⟩ := tidy_of_run h
  exact ⟨htidy.ids, htidy.window, fun id x err hmem => htold _ hmem⟩

def signIn : AuditEntry Int :=
  ⟨zeroTime, "admin", 1, "auth.login", "user", "1", "admin", "", "10.0.0.7", ""⟩

def signIns : List (Turn Request Written) :=
  [.arrive ⟨1, signIn⟩, .arrive ⟨2, signIn⟩, .advance 1 .lost, .advance 0 .done]

theorem run_signIns : ∃ w, service.system.Run (Service.Heeding Dated) start signIns w := by
  obtain ⟨w, hfollow⟩ : ∃ w, service.system.follow signIns start = some w := ⟨_, rfl⟩
  exact ⟨w, System.run_of_trail (p := fun x => decide (Service.Heeding Dated x.1 x.2))
    (fun _ _ h => of_decide_eq_true h) hfollow (by decide +kernel)⟩

theorem trail_window_lost : ∃ w, service.system.Run (Service.Heeding Dated) start signIns w ∧
    w.shared.recorded.map Prod.fst = List.range' 1 w.shared.recorded.length ∧
      Window auditRetention w.shared.recorded (trail w.shared.table) ∧
      ∀ id x err, .answered id (some x) err ∈ w.requests → x ∈ w.shared.recorded := by
  obtain ⟨w, hrun⟩ := run_signIns
  exact ⟨w, hrun, trail_window hrun⟩

theorem auditEntries_eq (t : Records (AuditEntry (List Char))) (f : AuditFilter) :
    auditEntries t f = ((trail t).reverse.filter (selects f)).take (pageLimit f) := by
  rw [auditEntries, trail, List.filter_reverse, List.filter_map, ← List.map_reverse, List.map_take]
  rfl

/-- After any run, a page has the newest entries of all that were ever recorded and that the filter
selects, none left out between them; and where it is not full it has all of them that are among
the last 50000. -/
theorem page_newest {ts : List (Turn Request Written)}
    (h : service.system.Run (Service.Heeding Dated) start ts w) (f : AuditFilter) :
    auditEntries w.shared.table f <+: w.shared.recorded.reverse.filter (selects f) ∧
      (auditEntries w.shared.table f).length ≤ pageLimit f ∧
      ((auditEntries w.shared.table f).length < pageLimit f →
        (w.shared.recorded.reverse.take auditRetention).filter (selects f) <+:
          auditEntries w.shared.table f) := by
  have hwindow := (tidy_of_run h).1.window
  rw [auditEntries_eq]
  refine ⟨(List.take_prefix _ _).trans (hwindow.reverse_prefix.filter _), ?_, fun hlt => ?_⟩
  · rw [List.length_take]
    exact Nat.min_le_left _ _
  · rw [List.length_take] at hlt
    have hall : ((trail w.shared.table).reverse.filter (selects f)).length ≤ pageLimit f := by omega
    rw [List.take_of_length_le hall]
    exact hwindow.take_reverse.filter _

theorem page_newest_actor : ∃ w, service.system.Run (Service.Heeding Dated) start signIns w ∧
    auditEntries w.shared.table ⟨0, "", " admin "⟩ <+:
      w.shared.recorded.reverse.filter (selects ⟨0, "", " admin "⟩) := by
  obtain ⟨w, hrun⟩ := run_signIns
  exact ⟨w, hrun, (page_newest hrun _).1⟩

def behind : Phase → Option Nat
  | .trim x => some x.1
  | .answered (some id) _ true => some id
  | _ => none

def TooLong (s : Shared) (id : Nat) : Prop :=
  s.recorded.length + auditRetention < id + (trail s.table).length

def Accounted (w : Hall Shared Phase) : Prop :=
  ∀ id ≤ w.shared.recorded.length, TooLong w.shared id → ∃ q ∈ w.requests, behind q = some id

theorem Accounted.advance {i : Nat} (h : Accounted w) (hi : w.requests[i]? = some q)
    (hstep : ∀ id ≤ s'.recorded.length, TooLong s' id → behind q' = some id ∨
      behind q ≠ some id ∧ id ≤ w.shared.recorded.length ∧ TooLong w.shared id) :
    Accounted ⟨s', w.requests.set i q'⟩ := by
  intro id hid hlong
  rcases hstep id hid hlong with hnew | ⟨hne, hid', hlong'⟩
  · exact ⟨q', mem_set_at hi q', hnew⟩
  · obtain ⟨p, hp, hbehind⟩ := h id hid' hlong'
    refine ⟨p, mem_set_of_ne hi hp ?_, hbehind⟩
    rintro rfl
    exact hne hbehind

@[simp] theorem length_trail_insert (s : Shared) (e : AuditEntry Int) :
    (trail (s.insert e).table).length = (trail s.table).length + 1 := by
  rw [trail, List.length_map, trail, List.length_map]
  exact List.length_append

@[simp] theorem length_recorded_insert (s : Shared) (e : AuditEntry Int) :
    (s.insert e).recorded.length = s.recorded.length + 1 := List.length_append

theorem tooLong_insert {e : AuditEntry Int} {id : Nat} (hid : id ≤ (s.insert e).recorded.length)
    (hlong : TooLong (s.insert e) id) (hne : id ≠ s.recorded.length + 1) :
    id ≤ s.recorded.length ∧ TooLong s id := by
  rw [TooLong, length_recorded_insert, length_trail_insert] at hlong
  rw [length_recorded_insert] at hid
  rw [TooLong]
  omega

theorem tooLong_trim (h : Tidy s) {x : Entry} (hx : x ∈ s.recorded) {id : Nat}
    (hlong : TooLong (s.trim (x.1 - auditRetention)) id) : id ≠ x.1 ∧ TooLong s id := by
  have hle := h.id_le hx
  have hsuffix := h.window.suffix.length_le
  rw [TooLong, trail_trim h, List.length_drop] at hlong
  change s.recorded.length + auditRetention < _ at hlong
  rw [TooLong]
  omega

theorem accounted_insert {i : Nat} {e : AuditEntry Int} (h : Accounted w) (hw : Tidy w.shared)
    (hi : w.requests[i]? = some (.insert e))
    (hq' : auditRetention < w.shared.table.seq + 1 → behind q' = some (w.shared.table.seq + 1)) :
    Accounted ⟨w.shared.insert e, w.requests.set i q'⟩ := by
  refine h.advance hi fun id hid hlong => ?_
  by_cases hid' : id = w.shared.recorded.length + 1
  · left
    have hsuffix := hw.window.suffix.length_le
    rw [TooLong, length_recorded_insert, length_trail_insert] at hlong
    rw [hw.seq] at hq'
    rw [hid']
    exact hq' (by omega)
  · exact .inr ⟨by simp [behind], tooLong_insert hid hlong hid'⟩

theorem accounted_trim {i : Nat} {x : Entry} (h : Accounted w) (hw : Tidy w.shared)
    (hx : x ∈ w.shared.recorded) (hi : w.requests[i]? = some (.trim x)) :
    Accounted ⟨w.shared.trim (x.1 - auditRetention), w.requests.set i q'⟩ := by
  refine h.advance hi fun id hid hlong => .inr ?_
  obtain ⟨hne, hlong'⟩ := tooLong_trim hw hx hlong
  exact ⟨by simpa [behind] using hne.symm, hid, hlong'⟩

theorem accounted_failed {i : Nat} (h : Accounted w) (hi : w.requests[i]? = some q)
    (hq' : ∀ id, behind q = some id → behind q' = some id) :
    Accounted ⟨w.shared, w.requests.set i q'⟩ := by
  refine h.advance hi fun id hid hlong => ?_
  by_cases hbehind : behind q = some id
  · exact .inl (hq' id hbehind)
  · exact .inr ⟨hbehind, hid, hlong⟩

@[grind =] theorem behind_afterInsert {x : Entry} (h : auditRetention < x.1) :
    behind (afterInsert x) = some x.1 := by
  rw [afterInsert, if_pos h]
  rfl

theorem accounted_step {i : Nat} (h : Accounted w) (hw : Tidy w.shared) (hq : Told w.shared q)
    (hi : w.requests[i]? = some q) (hadv : advance b w.shared q = some (s', q')) :
    Accounted ⟨s', w.requests.set i q'⟩ := by
  cases q with
  | insert e =>
    cases b with
    | done =>
      cases hadv
      exact accounted_insert h hw hi (behind_afterInsert (x := (w.shared.table.seq + 1, e)))
    | failed =>
      cases hadv
      exact accounted_failed h hi (by simp [behind])
    | lost =>
      cases hadv
      exact accounted_insert h hw hi fun _ => rfl
  | trim x =>
    cases b with
    | done =>
      cases hadv
      exact accounted_trim h hw hq hi
    | failed =>
      cases hadv
      exact accounted_failed h hi fun id hid => hid
    | lost =>
      cases hadv
      exact accounted_trim h hw hq hi
  | answered => cases hadv

theorem accounted_start : Accounted start := by
  intro id hid hlong
  have hzero : id = 0 := Nat.le_zero.mp hid
  have hlen : 0 + auditRetention < id + 0 := hlong
  omega

theorem Accounted.length_le (h : Accounted w) (hw : Tidy w.shared) :
    (trail w.shared.table).length ≤ auditRetention + w.requests.countP fun q => (behind q).isSome := by
  have hsuffix := hw.window.suffix.length_le
  set n := w.shared.recorded.length with hn
  set k := (trail w.shared.table).length with hk
  have hsub : List.range' (n + auditRetention - k + 1) (k - auditRetention) ⊆
      w.requests.filterMap behind := by
    intro id hid
    rw [List.mem_range'_1] at hid
    have hlong : TooLong w.shared id := by
      rw [TooLong, ← hn, ← hk]
      omega
    obtain ⟨q, hq, hbehind⟩ := h id (by omega) hlong
    exact List.mem_filterMap.mpr ⟨q, hq, hbehind⟩
  have hnodup : (List.range' (n + auditRetention - k + 1) (k - auditRetention)).Nodup :=
    List.nodup_range'
  have hle := (hnodup.subperm hsub).length_le
  rw [List.length_range', List.length_filterMap_eq_countP] at hle
  omega

/-- The trail is never longer than 50000 entries and one for each request whose entry is in, and
whose trimming is still to come or has ended with an error. -/
theorem trail_bounded {ts : List (Turn Request Written)}
    (h : service.system.Run (Service.Heeding Dated) start ts w) :
    (trail w.shared.table).length ≤ auditRetention + w.requests.countP fun q => (behind q).isSome := by
  have hinv : (Tidy w.shared ∧ ∀ p ∈ w.requests, Told w.shared p) ∧ Accounted w := by
    refine System.Run.invariant
      (I := fun w => (Tidy w.shared ∧ ∀ p ∈ w.requests, Told w.shared p) ∧ Accounted w) ?_ h
      ⟨tidy_start, accounted_start⟩
    rintro t w w' ⟨hinv, hacc⟩ hok hstep
    refine ⟨tidy_step hinv hok hstep, ?_⟩
    rcases Service.step_cases hstep with ⟨a, rfl, rfl⟩ | ⟨i, b, q, s, q', rfl, hq, hadv, rfl⟩
    · intro id hid hlong
      obtain ⟨q, hq, hbehind⟩ := hacc id hid hlong
      exact ⟨q, List.mem_append_left _ hq, hbehind⟩
    · exact accounted_step hacc hinv.1 (hinv.2 q (List.mem_of_getElem? hq)) hq hadv
  exact hinv.2.length_le hinv.1.1

theorem trail_bounded_lost : ∃ w, service.system.Run (Service.Heeding Dated) start signIns w ∧
    (trail w.shared.table).length ≤
      auditRetention + w.requests.countP fun q => (behind q).isSome := by
  obtain ⟨w, hrun⟩ := run_signIns
  exact ⟨w, hrun, trail_bounded hrun⟩

end Audit

end ProxBack.Store
