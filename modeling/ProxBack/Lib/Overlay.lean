import ProxBack.Lib.Requests

/-! Records that are changed by reading all of them, laying the named fields over what was read,
and writing all of them back, one statement after the other. -/
namespace ProxBack.Lib

/-- `copy k` is what the statement of a key reads or writes: it takes its fields from the first
record. -/
structure Overlay (R P K : Type) where
  keys : List K
  copy : K → R → R → R
  overlay : P → R → Option R

namespace Overlay

variable {R P K : Type}

/-- What a request does next: it has `left` to read or write. -/
inductive Phase (R P K : Type) where
  | reading (p : P) (left : List K) (acc : R)
  | writing (p : P) (left : List K) (read values : R)
  | returned (p : P)
  | refused
  | failed (p : P) (left : List K)

/-- `check` stands for what is asked of others before anything is written. -/
inductive Access where
  | read (ok : Bool)
  | check (ok : Bool)
  | write (res : Written)

section
variable (M : Overlay R P K)

def afterWrite (p : P) (left : List K) (read values : R) : Phase R P K :=
  match left with
  | [] => .returned p
  | _ => .writing p left read values

def advance : Access → R → Phase R P K → Option (R × Phase R P K)
  | .read ok, s, .reading p (k :: left) acc =>
    some (s, if ok then .reading p left (M.copy k s acc) else .refused)
  | .check ok, s, .reading p [] acc =>
    some (s, match ok, M.overlay p acc with
      | true, some values => afterWrite p M.keys acc values
      | _, _ => .refused)
  | .write res, s, .writing p (k :: left) read values =>
    match res with
    | .done => some (M.copy k values s, afterWrite p left read values)
    | .lost => some (M.copy k values s, .failed p left)
    | .failed => some (s, .failed p (k :: left))
  | _, _, _ => none

def service (blank : R) : Service R (Phase R P K) P Access :=
  ⟨fun p => .reading p M.keys blank, M.advance⟩

/-- A field: the statement it goes with, what a request asks for where it names the field, and
that all the operations respect it. -/
structure Column where
  Value : Type
  [decEq : DecidableEq Value]
  key : K
  get : R → Value
  asked : P → Option Value
  mem : key ∈ M.keys
  get_copy : ∀ a b, get (M.copy key a b) = get a
  get_copy_ne : ∀ k, k ≠ key → ∀ a b, get (M.copy k a b) = get b
  get_overlay : ∀ p r v, M.overlay p r = some v → get v = (asked p).getD (get r)

end

variable {M : Overlay R P K}

instance (c : Column M) : DecidableEq c.Value := c.decEq

def Undisturbed (columns : List (Column M)) (s : R) : Phase R P K → Access → Prop
  | .writing p (k :: _) read _, .write _ =>
    ∀ c ∈ columns, c.key = k → c.asked p = none → c.get s = c.get read
  | _, _ => True

instance [DecidableEq K] (columns : List (Column M)) (s : R) (q : Phase R P K) (b : Access) :
    Decidable (Undisturbed columns s q b) :=
  match q, b with
  | .writing p (k :: _) read _, .write _ => inferInstanceAs
    (Decidable (∀ c ∈ columns, c.key = k → c.asked p = none → c.get s = c.get read))
  | .writing _ [] _ _, .write _ => isTrue trivial
  | .writing _ [] _ _, .read _ => isTrue trivial
  | .writing _ [] _ _, .check _ => isTrue trivial
  | .writing _ (_ :: _) _ _, .read _ => isTrue trivial
  | .writing _ (_ :: _) _ _, .check _ => isTrue trivial
  | .reading _ _ _, _ => isTrue trivial
  | .returned _, _ => isTrue trivial
  | .refused, _ => isTrue trivial
  | .failed _ _, _ => isTrue trivial

/-- The request whose patch a phase belongs to, once its statement for the field is through. -/
def Column.wrote [DecidableEq K] (c : Column M) : Phase R P K → List P
  | .writing p left _ _ => if c.key ∈ left then [] else [p]
  | .failed p left => if c.key ∈ left then [] else [p]
  | .returned p => [p]
  | _ => []

/-- The field holds what one of these requests asked for, or none has named it and it is as it
was. -/
def Column.Kept (c : Column M) (before s : R) (ps : List P) : Prop :=
  (∃ p ∈ ps, c.asked p = some (c.get s)) ∨ ((∀ p ∈ ps, c.asked p = none) ∧ c.get s = c.get before)

def Column.Ready (c : Column M) : Phase R P K → Prop
  | .writing p left read values => left.Nodup ∧ c.get values = (c.asked p).getD (c.get read)
  | _ => True

variable {c : Column M} {before s s' : R} {ps ps' : List P} {p : P}

theorem Column.Kept.perm (h : c.Kept before s ps) (hperm : ps.Perm ps') : c.Kept before s ps' := by
  rcases h with ⟨p, hp, hasked⟩ | ⟨hnone, hsame⟩
  · exact .inl ⟨p, hperm.mem_iff.mp hp, hasked⟩
  · exact .inr ⟨fun p hp => hnone p (hperm.mem_iff.mpr hp), hsame⟩

theorem Column.Kept.same (h : c.Kept before s ps) (hget : c.get s' = c.get s) : c.Kept before s' ps := by
  unfold Column.Kept
  rw [hget]
  exact h

theorem Column.Kept.named (hasked : c.asked p = some (c.get s)) : c.Kept before s (p :: ps) :=
  .inl ⟨p, List.mem_cons_self, hasked⟩

theorem Column.Kept.unnamed (h : c.Kept before s ps) (hasked : c.asked p = none) :
    c.Kept before s (p :: ps) := by
  rcases h with ⟨p', hp', hasked'⟩ | ⟨hnone, hsame⟩
  · exact .inl ⟨p', List.mem_cons_of_mem _ hp', hasked'⟩
  · refine .inr ⟨fun p' hp' => ?_, hsame⟩
    rcases List.mem_cons.mp hp' with rfl | hp'
    · exact hasked
    · exact hnone p' hp'

theorem Column.ready_afterWrite {left : List K} {read values : R} (hnodup : left.Nodup)
    (hget : c.get values = (c.asked p).getD (c.get read)) :
    c.Ready (afterWrite p left read values) := by
  cases left with
  | nil => trivial
  | cons k left => exact ⟨hnodup, hget⟩

variable [DecidableEq K]

@[grind =]
theorem Column.wrote_afterWrite (c : Column M) (p : P) (left : List K) (read values : R) :
    c.wrote (afterWrite p left read values) = if c.key ∈ left then [] else [p] := by
  cases left with
  | nil => rfl
  | cons k left => rfl

theorem Column.advance_cases (c : Column M) {columns : List (Column M)} (hc : c ∈ columns)
    (hkeys : M.keys.Nodup) {b : Access} {q q' : Phase R P K} (hready : c.Ready q)
    (hundisturbed : Undisturbed columns s q b) (h : M.advance b s q = some (s', q')) :
    c.Ready q' ∧ ((c.get s' = c.get s ∧ c.wrote q' = c.wrote q) ∨
      ∃ p, c.wrote q = [] ∧ c.wrote q' = [p] ∧
        ((c.asked p = none ∧ c.get s' = c.get s) ∨ c.asked p = some (c.get s'))) := by
  unfold advance at h
  split at h
  · cases h
    refine ⟨?_, .inl ⟨rfl, ?_⟩⟩ <;> split <;> trivial
  · cases h
    split
    · rename_i values hvalues
      have hget := c.get_overlay _ _ _ hvalues
      refine ⟨ready_afterWrite hkeys hget, .inl ⟨rfl, ?_⟩⟩
      rw [wrote_afterWrite, if_pos c.mem]
      rfl
    · exact ⟨trivial, .inl ⟨rfl, rfl⟩⟩
  · rename_i res p k left read values
    obtain ⟨hnodup, hget⟩ : (k :: left).Nodup ∧ c.get values = (c.asked p).getD (c.get read) := hready
    obtain ⟨hnot, hleft⟩ := List.nodup_cons.mp hnodup
    have hwrote : c.wrote (.writing p (k :: left) read values) =
        if c.key ∈ k :: left then [] else [p] := rfl
    -- what the statement does to the field, whatever it answers
    have hstatement : ∀ q', c.wrote q' = (if c.key ∈ left then [] else [p]) →
        (c.get (M.copy k values s) = c.get s ∧ c.wrote q' = c.wrote (.writing p (k :: left) read values)) ∨
          ∃ p', c.wrote (.writing p (k :: left) read values) = [] ∧ c.wrote q' = [p'] ∧
            ((c.asked p' = none ∧ c.get (M.copy k values s) = c.get s) ∨
              c.asked p' = some (c.get (M.copy k values s))) := by
      intro q' hq'
      by_cases hk : k = c.key
      · subst hk
        refine .inr ⟨p, ?_, ?_, ?_⟩
        · rw [hwrote, if_pos List.mem_cons_self]
        · rw [hq', if_neg hnot]
        · rw [c.get_copy, hget]
          cases hasked : c.asked p with
          | none => exact .inl ⟨rfl, (hundisturbed c hc rfl hasked).symm⟩
          | some v => exact .inr rfl
      · refine .inl ⟨c.get_copy_ne k hk values s, ?_⟩
        have hiff : c.key ∈ k :: left ↔ c.key ∈ left := by
          rw [List.mem_cons, or_iff_right (Ne.symm hk)]
        rw [hq', hwrote]
        exact if_congr hiff.symm rfl rfl
    split at h
    · cases h
      exact ⟨ready_afterWrite hleft hget, hstatement _ (wrote_afterWrite _ _ _ _ _)⟩
    · cases h
      exact ⟨trivial, hstatement _ rfl⟩
    · cases h
      exact ⟨trivial, .inl ⟨rfl, rfl⟩⟩
  · cases h

theorem kept_of_run {columns : List (Column M)} (hc : c ∈ columns) (hkeys : M.keys.Nodup)
    {blank : R} {ts : List (Turn P Access)} {w : Hall R (Phase R P K)}
    (h : (M.service blank).system.Run (Service.Heeding (Undisturbed columns)) ⟨before, []⟩ ts w) :
    c.Kept before w.shared (w.requests.flatMap c.wrote) := by
  have hrun : (∀ q ∈ w.requests, c.Ready q) ∧
      c.Kept before w.shared (w.requests.flatMap c.wrote) := by
    refine System.Run.invariant (I := fun w => (∀ q ∈ w.requests, c.Ready q) ∧
      c.Kept before w.shared (w.requests.flatMap c.wrote)) ?_ h ⟨nofun, .inr ⟨nofun, rfl⟩⟩
    rintro t w w' ⟨hready, hkept⟩ hok hstep
    rcases Service.step_cases hstep with ⟨p, rfl, rfl⟩ | ⟨i, b, q, s, q', rfl, hq, hadv, rfl⟩
    · refine ⟨fun q hq => ?_, ?_⟩
      · rcases List.mem_append.mp hq with hq | hq
        · exact hready q hq
        · rw [List.mem_singleton.mp hq]
          trivial
      · rw [List.flatMap_append, List.flatMap_cons, List.flatMap_nil]
        show c.Kept before w.shared (_ ++ ([] ++ []))
        rw [List.append_nil, List.append_nil]
        exact hkept
    · obtain ⟨hready', hcases⟩ :=
        c.advance_cases hc hkeys (hready q (List.mem_of_getElem? hq)) (hok q hq) hadv
      refine ⟨fun p hp => ?_, ?_⟩
      · rcases List.mem_or_eq_of_mem_set hp with hp | rfl
        · exact hready p hp
        · exact hready'
      · obtain ⟨rest, hold, hnew⟩ := flatMap_set_perm hq q' c.wrote
        rcases hcases with ⟨hget, hwrote⟩ | ⟨p, hnone, hwrote, hget⟩
        · rw [hwrote] at hnew
          exact (hkept.same hget).perm (hold.trans hnew.symm)
        · rw [hwrote] at hnew
          rw [hnone] at hold
          have hrest : c.Kept before w.shared rest := hkept.perm hold
          rcases hget with ⟨hasked, hget⟩ | hasked
          · exact ((hrest.same hget).unnamed hasked).perm hnew.symm
          · exact (Column.Kept.named hasked).perm hnew.symm
  exact hrun.2

def patches (w : Hall R (Phase R P K)) : List P :=
  w.requests.flatMap fun q =>
    match q with
    | .returned p => [p]
    | _ => []

/-- Every request has returned success, or has been refused before it wrote anything. -/
def Quiet (w : Hall R (Phase R P K)) : Prop := ∀ q ∈ w.requests, (∃ p, q = .returned p) ∨ q = .refused

@[grind =] theorem wrote_of_quiet {w : Hall R (Phase R P K)} (h : Quiet w) :
    w.requests.flatMap c.wrote = patches w := by
  refine List.flatMap_congr fun q hq => ?_
  rcases h q hq with ⟨p, rfl⟩ | rfl <;> rfl

omit [DecidableEq K] in
theorem quiet_of_returned {w : Hall R (Phase R P K)} {ps : List P}
    (h : w.requests = ps.map Phase.returned) : Quiet w ∧ patches w = ps := by
  refine ⟨fun q hq => ?_, ?_⟩
  · rw [h] at hq
    obtain ⟨p, -, rfl⟩ := List.mem_map.mp hq
    exact .inl ⟨p, rfl⟩
  · rw [patches, h, List.flatMap_map]
    exact List.flatMap_singleton' ps

theorem kept_of_quiet {columns : List (Column M)} (hkeys : M.keys.Nodup) {blank : R}
    {ts : List (Turn P Access)} {w : Hall R (Phase R P K)}
    (h : (M.service blank).system.Run (Service.Heeding (Undisturbed columns)) ⟨before, []⟩ ts w)
    (hquiet : Quiet w) : ∀ c ∈ columns, c.Kept before w.shared (patches w) := by
  intro c hc
  have hkept := kept_of_run hc hkeys h
  rwa [wrote_of_quiet hquiet] at hkept

end Overlay

end ProxBack.Lib
