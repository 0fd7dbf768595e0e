import ProxBack.Lib.System
import Mathlib.Data.List.Perm.Basic

/-! Requests served at once: each is at a phase of its own, and every step advances one of
them by one access to what they share. -/
namespace ProxBack.Lib

theorem flatMap_set_perm {α β : Type} {l : List α} {i : Nat} {a : α} (h : l[i]? = some a) (b : α)
    (f : α → List β) :
    ∃ rest, (l.flatMap f).Perm (f a ++ rest) ∧ ((l.set i b).flatMap f).Perm (f b ++ rest) := by
  obtain ⟨hlt, rfl⟩ := List.getElem?_eq_some_iff.mp h
  refine ⟨(l.eraseIdx i).flatMap f, ?_, ?_⟩
  · have hperm := (List.getElem_cons_eraseIdx_perm hlt).symm.flatMap_right f
    rwa [List.flatMap_cons] at hperm
  · have hlt' : i < (l.set i b).length := by rwa [List.length_set]
    have hperm := (List.getElem_cons_eraseIdx_perm hlt').symm.flatMap_right f
    rwa [List.flatMap_cons, List.getElem_set_self, List.eraseIdx_set_eq] at hperm

theorem mem_set_of_ne {α : Type} {l : List α} {i : Nat} {a b c : α} (hi : l[i]? = some a)
    (hc : c ∈ l) (hne : c ≠ a) : c ∈ l.set i b := by
  obtain ⟨k, hk⟩ := List.mem_iff_getElem?.mp hc
  have hki : k ≠ i := by
    rintro rfl
    rw [hi] at hk
    exact hne (Option.some.inj hk).symm
  exact List.mem_iff_getElem?.mpr ⟨k, by rw [List.getElem?_set_ne hki.symm, hk]⟩

theorem mem_set_at {α : Type} {l : List α} {i : Nat} {a : α} (hi : l[i]? = some a) (b : α) :
    b ∈ l.set i b :=
  List.mem_iff_getElem?.mpr ⟨i, List.getElem?_set_self (List.getElem?_eq_some_iff.mp hi).1⟩

/-- How a statement that writes ends; a `lost` one took effect and still answers an error. -/
inductive Written where
  | done
  | failed
  | lost
deriving DecidableEq, Repr

/-- The state after a statement with this effect, if it has one, and what follows. -/
def Written.outcome {σ P : Type} (res : Written) (s : σ) (effect : Option (σ × P)) (error : P) :
    σ × P :=
  match res, effect with
  | .done, some out => out
  | .lost, some out => (out.1, error)
  | _, _ => (s, error)

theorem Written.outcome_cases {σ P : Type} (res : Written) (s : σ) (effect : Option (σ × P))
    (error : P) : res.outcome s effect error = (s, error) ∨
      ∃ out, effect = some out ∧ (res.outcome s effect error = out ∨
        res.outcome s effect error = (out.1, error)) := by
  cases effect with
  | none => cases res <;> exact .inl rfl
  | some out =>
    cases res with
    | done => exact .inr ⟨out, rfl, .inl rfl⟩
    | failed => exact .inl rfl
    | lost => exact .inr ⟨out, rfl, .inr rfl⟩

theorem Written.outcome_spec {σ P : Type} {R : σ → P → Prop} {res : Written} {s s' : σ}
    {effect : Option (σ × P)} {error q' : P} (hfailed : R s error)
    (heffect : ∀ s₁ q₁, effect = some (s₁, q₁) → R s₁ q₁ ∧ R s₁ error)
    (h : res.outcome s effect error = (s', q')) : R s' q' := by
  rcases Written.outcome_cases res s effect error with hout | ⟨⟨s₁, q₁⟩, heq, hout | hout⟩
  · cases h.symm.trans hout
    exact hfailed
  · cases h.symm.trans hout
    exact (heffect _ _ heq).1
  · cases h.symm.trans hout
    exact (heffect _ _ heq).2

structure Hall (σ P : Type) where
  shared : σ
  requests : List P

inductive Turn (A B : Type) where
  | arrive (a : A)
  | advance (i : Nat) (b : B)

/-- How requests begin, and what the next access of one does, where it can be made. -/
structure Service (σ P A B : Type) where
  arrive : A → P
  advance : B → σ → P → Option (σ × P)

namespace Service

variable {σ P A B : Type} {S : Service σ P A B} {w w' : Hall σ P}

def step (S : Service σ P A B) : Turn A B → Hall σ P → Option (Hall σ P)
  | .arrive a, w => some ⟨w.shared, w.requests ++ [S.arrive a]⟩
  | .advance i b, w =>
    match w.requests[i]? with
    | none => none
    | some q => (S.advance b w.shared q).map fun out => ⟨out.1, w.requests.set i out.2⟩

def system (S : Service σ P A B) : System (Hall σ P) (Turn A B) := ⟨S.step⟩

theorem step_cases {t : Turn A B} (h : S.system.step t w = some w') :
    (∃ a, t = .arrive a ∧ w' = ⟨w.shared, w.requests ++ [S.arrive a]⟩) ∨
      ∃ i b q s q', t = .advance i b ∧ w.requests[i]? = some q ∧
        S.advance b w.shared q = some (s, q') ∧ w' = ⟨s, w.requests.set i q'⟩ := by
  cases t with
  | arrive a => exact .inl ⟨a, rfl, (Option.some.inj h).symm⟩
  | advance i b =>
    right
    have hstep : (match w.requests[i]? with
        | none => none
        | some q => (S.advance b w.shared q).map fun out =>
          (⟨out.1, w.requests.set i out.2⟩ : Hall σ P)) = some w' := h
    cases hq : w.requests[i]? with
    | none =>
      rw [hq] at hstep
      cases hstep
    | some q =>
      rw [hq] at hstep
      obtain ⟨⟨s, q'⟩, hadv, rfl⟩ := Option.map_eq_some_iff.mp hstep
      exact ⟨i, b, q, s, q', rfl, hq, hadv, rfl⟩

/-- A condition on the accesses, told by what is shared and by the phase of the request. -/
def Heeding (ok : σ → P → B → Prop) (w : Hall σ P) : Turn A B → Prop
  | .arrive _ => True
  | .advance i b => ∀ q, w.requests[i]? = some q → ok w.shared q b

theorem heeding_trivial (w : Hall σ P) (t : Turn A B) : Heeding (fun _ _ _ => True) w t := by
  cases t with
  | arrive => trivial
  | advance => exact fun _ _ => trivial

instance (ok : σ → P → B → Prop) [∀ s q b, Decidable (ok s q b)] (w : Hall σ P) (t : Turn A B) :
    Decidable (Heeding ok w t) :=
  match t with
  | .arrive _ => isTrue trivial
  | .advance i b =>
    match h : w.requests[i]? with
    | none => isTrue fun _ hq => by rw [h] at hq; cases hq
    | some q => decidable_of_iff (ok w.shared q b)
        ⟨fun hok q' hq => by rw [h] at hq; cases hq; exact hok, fun hall => hall q h⟩

/-- What holds of what the requests share, and of each request in view of it: an access keeps it
for the request that makes it, and for every other one. -/
theorem serves_step {ok : σ → P → B → Prop} {I : σ → Prop} {F : σ → P → Prop}
    (harrive : ∀ a s, I s → F s (S.arrive a))
    (hadvance : ∀ b s q s' q', I s → F s q → ok s q b → S.advance b s q = some (s', q') →
      I s' ∧ F s' q' ∧ ∀ p, F s p → F s' p)
    {t : Turn A B} (hw : I w.shared ∧ ∀ p ∈ w.requests, F w.shared p) (hok : Heeding ok w t)
    (hstep : S.system.step t w = some w') :
    I w'.shared ∧ ∀ p ∈ w'.requests, F w'.shared p := by
  obtain ⟨hI, hF⟩ := hw
  rcases step_cases hstep with ⟨a, rfl, rfl⟩ | ⟨i, b, q, s, q', rfl, hq, hadv, rfl⟩
  · refine ⟨hI, fun p hp => ?_⟩
    rcases List.mem_append.mp hp with hp | hp
    · exact hF p hp
    · rw [List.mem_singleton.mp hp]
      exact harrive a _ hI
  · obtain ⟨hI', hown, hothers⟩ :=
      hadvance _ _ _ _ _ hI (hF q (List.mem_of_getElem? hq)) (hok q hq) hadv
    refine ⟨hI', fun p hp => ?_⟩
    rcases List.mem_or_eq_of_mem_set hp with hp | rfl
    · exact hothers p (hF p hp)
    · exact hown

theorem serves {ok : σ → P → B → Prop} {I : σ → Prop} {F : σ → P → Prop}
    (harrive : ∀ a s, I s → F s (S.arrive a))
    (hadvance : ∀ b s q s' q', I s → F s q → ok s q b → S.advance b s q = some (s', q') →
      I s' ∧ F s' q' ∧ ∀ p, F s p → F s' p)
    {ts : List (Turn A B)} (h : S.system.Run (Heeding ok) w ts w')
    (hw : I w.shared ∧ ∀ p ∈ w.requests, F w.shared p) :
    I w'.shared ∧ ∀ p ∈ w'.requests, F w'.shared p :=
  System.Run.invariant (I := fun w => I w.shared ∧ ∀ p ∈ w.requests, F w.shared p)
    (fun _ _ _ hw hok hstep => serves_step harrive hadvance hw hok hstep) h hw

/-- An amount that only grows by what requests owe: it exceeds `n` by no more than the number of
them that owe something. -/
theorem amount_le (amount : σ → Nat) (due : P → Bool) {ok : σ → P → B → Prop} {n : Nat}
    (hadvance : ∀ b s q s' q' rest, ok s q b → S.advance b s q = some (s', q') →
      amount s ≤ n + (rest + (due q).toNat) → amount s' ≤ n + (rest + (due q').toNat))
    {ts : List (Turn A B)} (h : S.system.Run (Heeding ok) w ts w')
    (hw : amount w.shared ≤ n + w.requests.countP due) :
    amount w'.shared ≤ n + w'.requests.countP due := by
  refine System.Run.invariant (I := fun w => amount w.shared ≤ n + w.requests.countP due) ?_ h hw
  intro t w w' hI hok hstep
  rcases step_cases hstep with ⟨a, rfl, rfl⟩ | ⟨i, b, q, s, q', rfl, hq, hadv, rfl⟩
  · rw [List.countP_append]
    exact Nat.le_trans hI (Nat.add_le_add_left (Nat.le_add_right _ _) n)
  · obtain ⟨hlt, rfl⟩ := List.getElem?_eq_some_iff.mp hq
    obtain ⟨rest, hrest⟩ : ∃ rest, ∀ p, (w.requests.set i p).countP due = rest + (due p).toNat := by
      refine ⟨(w.requests.eraseIdx i).countP due, fun p => ?_⟩
      have hlt' : i < (w.requests.set i p).length := by rwa [List.length_set]
      have hperm := (List.getElem_cons_eraseIdx_perm hlt').countP_eq due
      rw [← hperm, List.getElem_set_self, List.eraseIdx_set_eq, List.countP_cons]
      cases due p <;> rfl
    have hsame := hrest w.requests[i]
    rw [List.set_getElem_self] at hsame
    rw [hrest q']
    exact hadvance b _ _ _ _ rest (hok _ hq) hadv (hsame ▸ hI)

def Pending (C : σ → Prop) (U : P → Prop) (w : Hall σ P) : Prop :=
  C w.shared ∨ ∃ p ∈ w.requests, U p

/-- What holds while something is under way: nothing gets under way but where it holds, and no
access breaks it in the meantime. -/
theorem excludes {ok : Hall σ P → Turn A B → Prop} {I C Q : σ → Prop} {U : P → Prop}
    (harrive : ∀ a, ¬ U (S.arrive a))
    (hadvance : ∀ w i b q s q', I w.shared → (Pending C U w → Q w.shared) →
      w.requests[i]? = some q → ok w (.advance i b) → S.advance b w.shared q = some (s, q') →
      I s ∧ (Pending C U w → Q w.shared → Q s) ∧ (C s ∨ U q' → Pending C U w ∨ Q s))
    {ts : List (Turn A B)} (h : S.system.Run ok w ts w')
    (hw : I w.shared ∧ (Pending C U w → Q w.shared)) :
    I w'.shared ∧ (Pending C U w' → Q w'.shared) := by
  refine System.Run.invariant (I := fun w => I w.shared ∧ (Pending C U w → Q w.shared)) ?_ h hw
  rintro t w w' ⟨hI, hQ⟩ hok hstep
  rcases step_cases hstep with ⟨a, rfl, rfl⟩ | ⟨i, b, q, s, q', rfl, hq, hadv, rfl⟩
  · refine ⟨hI, ?_⟩
    rintro (hC | ⟨p, hp, hU⟩)
    · exact hQ (.inl hC)
    · rcases List.mem_append.mp hp with hp | hp
      · exact hQ (.inr ⟨p, hp, hU⟩)
      · rw [List.mem_singleton.mp hp] at hU
        exact absurd hU (harrive a)
  · obtain ⟨hI', hkeeps, hgets⟩ := hadvance w i b q s q' hI hQ hq hok hadv
    have hnew : C s ∨ U q' → Q s := fun h => (hgets h).elim (fun hw => hkeeps hw (hQ hw)) id
    refine ⟨hI', ?_⟩
    rintro (hC | ⟨p, hp, hU⟩)
    · exact hnew (.inl hC)
    · rcases List.mem_or_eq_of_mem_set hp with hp | rfl
      · exact hkeeps (.inr ⟨p, hp, hU⟩) (hQ (.inr ⟨p, hp, hU⟩))
      · exact hnew (.inr hU)

end Service

end ProxBack.Lib
