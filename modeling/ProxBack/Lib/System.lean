import Mathlib.Order.Basic

/-! Systems that move by labelled steps. A run is a list of actions the system
took one after the other; a condition on the steps singles out some runs. -/
namespace ProxBack.Lib

structure System (S A : Type) where
  step : A → S → Option S

namespace System

variable {S A : Type}

/-- `M.Run ok s as t`: the actions `as` lead from `s` to `t`, each taken in a
state where `ok` allows it. -/
inductive Run (M : System S A) (ok : S → A → Prop) : S → List A → S → Prop where
  | nil {s} : Run M ok s [] s
  | cons {s a s₁ as t} (hok : ok s a) (h : M.step a s = some s₁) (rest : Run M ok s₁ as t) :
      Run M ok s (a :: as) t

variable {M : System S A} {ok ok' : S → A → Prop} {s t u : S}

theorem Run.trans {as bs : List A} (h : M.Run ok s as t) (h' : M.Run ok t bs u) :
    M.Run ok s (as ++ bs) u := by
  induction h with
  | nil => exact h'
  | cons hok hstep _ ih => exact .cons hok hstep (ih h')

theorem Run.mono {as : List A} (hok : ∀ s a, ok s a → ok' s a) (h : M.Run ok s as t) :
    M.Run ok' s as t := by
  induction h with
  | nil => exact .nil
  | cons h hstep _ ih => exact .cons (hok _ _ h) hstep ih

theorem Run.invariant {I : S → Prop} (hstep : ∀ a s s', I s → ok s a → M.step a s = some s' → I s')
    {as : List A} (h : M.Run ok s as t) (hs : I s) : I t := by
  induction h with
  | nil => exact hs
  | cons hok hs₁ _ ih => exact ih (hstep _ _ _ hs hok hs₁)

theorem Run.length_le {R : S → Nat → Prop}
    (hstep : ∀ a s s' n, R s n → ok s a → M.step a s = some s' → ∃ m, m < n ∧ R s' m)
    {as : List A} (h : M.Run ok s as t) {n : Nat} (hs : R s n) : as.length ≤ n := by
  induction h generalizing n with
  | nil => exact Nat.zero_le n
  | cons hok hs₁ _ ih =>
    obtain ⟨m, hm, hrank⟩ := hstep _ _ _ n hs hok hs₁
    exact Nat.succ_le_of_lt (Nat.lt_of_le_of_lt (ih hrank) hm)

theorem exists_run_to {D : S → Prop} {n : Nat}
    (hbound : ∀ as t, M.Run ok s as t → as.length ≤ n)
    (hgo : ∀ as t, M.Run ok s as t → ¬ D t → ∃ a, ok t a ∧ (M.step a t).isSome) :
    ∃ as t, M.Run ok s as t ∧ D t := by
  by_contra hnone
  have hlong : ∀ k, ∃ as t, M.Run ok s as t ∧ as.length = k := by
    intro k
    induction k with
    | zero => exact ⟨[], s, .nil, rfl⟩
    | succ k ih =>
      obtain ⟨as, t, hrun, hlen⟩ := ih
      obtain ⟨a, hok, hsome⟩ := hgo as t hrun fun hD => hnone ⟨as, t, hrun, hD⟩
      obtain ⟨u, hu⟩ := Option.isSome_iff_exists.mp hsome
      exact ⟨as ++ [a], u, hrun.trans (.cons hok hu .nil), by simp [hlen]⟩
  obtain ⟨as, t, hrun, hlen⟩ := hlong (n + 1)
  have hle := hbound as t hrun
  omega

def follow (M : System S A) : List A → S → Option S
  | [], s => some s
  | a :: as, s => (M.step a s).bind (M.follow as)

@[simp] theorem follow_singleton (a : A) (s : S) : M.follow [a] s = M.step a s := by
  unfold follow
  cases M.step a s <;> rfl

@[simp] theorem follow_append (as bs : List A) (s : S) :
    M.follow (as ++ bs) s = (M.follow as s).bind (M.follow bs) := by
  induction as generalizing s with
  | nil => rfl
  | cons a as ih =>
    rw [List.cons_append, follow, follow, Option.bind_assoc]
    exact congrArg ((M.step a s).bind) (funext ih)

theorem run_of_follow {as : List A} (hok : ∀ a ∈ as, ∀ s, ok s a) (h : M.follow as s = some t) :
    M.Run ok s as t := by
  induction as generalizing s with
  | nil =>
    cases h
    exact .nil
  | cons a as ih =>
    obtain ⟨s₁, hs₁, hrest⟩ := Option.bind_eq_some_iff.mp h
    have hrest' := ih (fun b hb => hok b (List.mem_cons_of_mem a hb)) hrest
    exact .cons (hok a List.mem_cons_self s) hs₁ hrest'

def trail (M : System S A) : List A → S → List (S × A)
  | [], _ => []
  | a :: as, s =>
    (s, a) :: match M.step a s with
      | some s₁ => M.trail as s₁
      | none => []

theorem trail_append {as : List A} (bs : List A) (h : M.follow as s = some t) :
    M.trail (as ++ bs) s = M.trail as s ++ M.trail bs t := by
  induction as generalizing s with
  | nil =>
    cases h
    rfl
  | cons a as ih =>
    obtain ⟨s₁, hs₁, hrest⟩ := Option.bind_eq_some_iff.mp h
    rw [List.cons_append, trail, trail, hs₁]
    exact congrArg ((s, a) :: ·) (ih hrest)

theorem mem_of_mem_trail {as : List A} {x : S × A} (h : x ∈ M.trail as s) : x.2 ∈ as := by
  induction as generalizing s with
  | nil => cases h
  | cons a as ih =>
    rcases List.mem_cons.mp h with rfl | h
    · exact List.mem_cons_self
    · split at h
      · exact List.mem_cons_of_mem a (ih h)
      · cases h

theorem run_of_trail {as : List A} {p : S × A → Bool} (hok : ∀ s a, p (s, a) = true → ok s a)
    (h : M.follow as s = some t) (hall : (M.trail as s).all p = true) : M.Run ok s as t := by
  induction as generalizing s with
  | nil =>
    cases h
    exact .nil
  | cons a as ih =>
    obtain ⟨s₁, hs₁, hrest⟩ := Option.bind_eq_some_iff.mp h
    rw [trail, hs₁, List.all_cons, Bool.and_eq_true] at hall
    exact .cons (hok s a hall.1) hs₁ (ih hrest hall.2)

theorem Run.trail_invariant {I : List (S × A) → S → Prop}
    (hstep : ∀ tr a s s', I tr s → ok s a → M.step a s = some s' → I (tr ++ [(s, a)]) s')
    {as : List A} (h : M.Run ok s as t) {tr : List (S × A)} (hs : I tr s) :
    I (tr ++ M.trail as s) t := by
  induction h generalizing tr with
  | nil =>
    rw [trail, List.append_nil]
    exact hs
  | cons hok hs₁ _ ih =>
    have hrest := ih (hstep _ _ _ _ hs hok hs₁)
    rw [trail, hs₁]
    rwa [List.append_assoc] at hrest

theorem Run.while_back {D : S → Prop}
    (hback : ∀ a s s', M.step a s = some s' → D s' → D s) {as : List A} (h : M.Run ok s as t)
    (ht : D t) : D s ∧ M.Run (fun s a => ok s a ∧ D s) s as t := by
  induction h with
  | nil => exact ⟨ht, .nil⟩
  | cons hok hs₁ _ ih =>
    obtain ⟨hD, hrest⟩ := ih ht
    have hD' := hback _ _ _ hs₁ hD
    exact ⟨hD', .cons ⟨hok, hD'⟩ hs₁ hrest⟩

theorem Run.follow_eq {as : List A} (h : M.Run ok s as t) : M.follow as s = some t := by
  induction h with
  | nil => rfl
  | cons _ hstep _ ih => rw [follow, hstep, Option.bind_some, ih]

end System

end ProxBack.Lib
