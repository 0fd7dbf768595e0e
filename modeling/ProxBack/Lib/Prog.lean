import Mathlib.Control.Basic
import Mathlib.Logic.Relation
import Mathlib.Order.Basic

/-! Programs whose only effects are calls to a world outside them. The same
program is run to its end, cut off after any call, or interleaved with others;
a single weakest-precondition predicate carries the reasoning in all three. -/
namespace ProxBack.Lib

inductive Prog (C : Type) (R : C → Type) (α : Type) : Type where
  | ret (value : α)
  | call (c : C) (k : R c → Prog C R α)

namespace Prog

variable {C : Type} {R : C → Type} {α β σ : Type}

def bind : Prog C R α → (α → Prog C R β) → Prog C R β
  | ret a, f => f a
  | call c k, f => call c fun r => (k r).bind f

instance : Monad (Prog C R) where
  pure := ret
  bind := bind

@[simp] theorem ret_bind (a : α) (f : α → Prog C R β) : (ret a >>= f) = f a := rfl

@[simp] theorem call_bind (c : C) (k : R c → Prog C R α) (f : α → Prog C R β) :
    (call c k >>= f) = call c fun r => k r >>= f := rfl

theorem bind_assoc {γ : Type} (p : Prog C R α) (f : α → Prog C R β) (g : β → Prog C R γ) :
    (p >>= f >>= g) = p >>= fun a => f a >>= g := by
  induction p with
  | ret a => rfl
  | call c k ih => exact congrArg (call c) (funext ih)

-- The demonic weakest precondition. `T` says which replies and next states a
-- call may have, `pre` is what must hold whenever a call is issued.
def Wp (T : (c : C) → σ → R c → σ → Prop) (pre : C → σ → Prop)
    (post : α → σ → Prop) : Prog C R α → σ → Prop
  | ret a, s => post a s
  | call c k, s => pre c s ∧ ∀ r s', T c s r s' → Wp T pre post (k r) s'

section Rules

variable {T T' : (c : C) → σ → R c → σ → Prop} {pre pre' : C → σ → Prop}
  {post post' : α → σ → Prop}

@[simp] theorem wp_ret (a : α) (s : σ) : Wp T pre post (ret a) s ↔ post a s := Iff.rfl

@[simp] theorem wp_call (c : C) (k : R c → Prog C R α) (s : σ) :
    Wp T pre post (call c k) s ↔
      pre c s ∧ ∀ r s', T c s r s' → Wp T pre post (k r) s' := Iff.rfl

@[simp] theorem wp_bind {post : β → σ → Prop} (p : Prog C R α) (f : α → Prog C R β) (s : σ) :
    Wp T pre post (p >>= f) s ↔ Wp T pre (fun a => Wp T pre post (f a)) p s := by
  induction p generalizing s with
  | ret a => rfl
  | call c k ih =>
    simp only [call_bind, wp_call]
    refine and_congr_right fun _ => forall_congr' fun r => forall_congr' fun s' => ?_
    exact imp_congr_right fun _ => ih r s'

theorem Wp.mono (hT : ∀ c s r s', T' c s r s' → T c s r s')
    (hpre : ∀ c s, pre c s → pre' c s) (hpost : ∀ a s, post a s → post' a s)
    {p : Prog C R α} {s : σ} (h : Wp T pre post p s) : Wp T' pre' post' p s := by
  induction p generalizing s with
  | ret a => exact hpost a s h
  | call c k ih =>
    exact ⟨hpre c s h.1, fun r s' hstep => ih r (h.2 r s' (hT c s r s' hstep))⟩

theorem Wp.post_mono (hpost : ∀ a s, post a s → post' a s)
    {p : Prog C R α} {s : σ} (h : Wp T pre post p s) : Wp T pre post' p s :=
  h.mono (fun _ _ _ _ => id) (fun _ _ => id) hpost

theorem Wp.and {p : Prog C R α} {s : σ} (h : Wp T pre post p s) (h' : Wp T pre post' p s) :
    Wp T pre (fun a t => post a t ∧ post' a t) p s := by
  induction p generalizing s with
  | ret a => exact ⟨h, h'⟩
  | call c k ih => exact ⟨h.1, fun r t ht => ih r (h.2 r t ht) (h'.2 r t ht)⟩

/-- Every call the program can ever make, on whatever replies, satisfies `P`. -/
def Calls (P : C → Prop) : Prog C R α → Prop
  | ret _ => True
  | call c k => P c ∧ ∀ r, Calls P (k r)

theorem Calls.mono {P Q : C → Prop} (hPQ : ∀ c, P c → Q c) {p : Prog C R α}
    (h : Calls P p) : Calls Q p := by
  induction p with
  | ret a => trivial
  | call c k ih => exact ⟨hPQ c h.1, fun r => ih r (h.2 r)⟩

theorem Calls.bind {P : C → Prop} {p : Prog C R α} {f : α → Prog C R β}
    (hp : Calls P p) (hf : ∀ a, Calls P (f a)) : Calls P (p >>= f) := by
  induction p with
  | ret a => exact hf a
  | call c k ih => exact ⟨hp.1, fun r => ih r (hp.2 r)⟩

theorem Calls.wp {P : C → Prop} {p : Prog C R α} (h : Calls P p) (s : σ) :
    Wp T (fun c _ => P c) (fun _ _ => True) p s := by
  induction p generalizing s with
  | ret a => trivial
  | call c k ih => exact ⟨h.1, fun r s' _ => ih r (h.2 r) s'⟩

theorem Calls.wp_invariant {P : C → Prop} {I : σ → Prop} {p : Prog C R α} (h : Calls P p)
    (hstep : ∀ c s, P c → I s → pre c s ∧ ∀ r s', T c s r s' → I s') {s : σ} (hs : I s) :
    Wp T pre (fun _ s' => I s') p s := by
  induction p generalizing s with
  | ret a => exact hs
  | call c k ih =>
    obtain ⟨hpre, hnext⟩ := hstep c s h.1 hs
    exact ⟨hpre, fun r s' hT => ih r (h.2 r) (hnext r s' hT)⟩

theorem Calls.wp_bind {P : C → Prop} {post : β → σ → Prop} {p : Prog C R α}
    {f : α → Prog C R β} (h : Calls P p) (hpre : ∀ c s, P c → pre c s)
    (hf : ∀ a s, Wp T pre post (f a) s) (s : σ) : Wp T pre post (p >>= f) s := by
  rw [Prog.wp_bind]
  exact (h.wp s).mono (fun _ _ _ _ => id) hpre fun a s _ => hf a s

theorem Wp.frame {τ : Type} {P : C → Prop} {T' : (c : C) → τ × σ → R c → τ × σ → Prop}
    {pre' : C → τ × σ → Prop} {a : τ}
    (hT : ∀ c, P c → ∀ s r t, T' c (a, s) r t → t.1 = a ∧ T c s r t.2)
    (hpre : ∀ c, P c → ∀ s, pre c s → pre' c (a, s)) {p : Prog C R α} {s : σ}
    (hcalls : Calls P p) (h : Wp T pre post p s) :
    Wp T' pre' (fun x t => t.1 = a ∧ post x t.2) p (a, s) := by
  induction p generalizing s with
  | ret x => exact ⟨rfl, h⟩
  | call c k ih =>
    refine ⟨hpre c hcalls.1 s h.1, fun r t ht => ?_⟩
    obtain ⟨t₁, t₂⟩ := t
    obtain ⟨rfl, ht₂⟩ := hT c hcalls.1 s r (t₁, t₂) ht
    exact ih r (hcalls.2 r) (h.2 r t₂ ht₂)

theorem Wp.calls {P : C → Prop} {post : α → Unit → Prop} {p : Prog C R α}
    (h : Wp (fun _ _ _ _ => True) (fun c _ => P c) post p ()) : Calls P p := by
  induction p with
  | ret a => trivial
  | call c k ih => exact ⟨h.1, fun r => ih r (h.2 r () trivial)⟩

theorem Wp.invariant {T₀ : (c : C) → Unit → R c → Unit → Prop} {P : C → Prop} {I : σ → Prop}
    {post₀ : α → Unit → Prop} {p : Prog C R α} (h : Wp T₀ (fun c _ => P c) post₀ p ())
    (hstep : ∀ c s r s', I s → P c → T c s r s' → T₀ c () r () ∧ I s') {s : σ} (hs : I s) :
    Wp T (fun _ _ => True) (fun _ s' => I s') p s := by
  induction p generalizing s with
  | ret a => exact hs
  | call c k ih =>
    refine ⟨trivial, fun r s' hT => ?_⟩
    obtain ⟨h₀, hs'⟩ := hstep c s r s' hs h.1 hT
    exact ih r (h.2 r () h₀) hs'

theorem Wp.forall {ι : Type} {post : ι → α → σ → Prop} {p : Prog C R α} {s : σ}
    (h : ∀ i, Wp T (fun _ _ => True) (post i) p s) :
    Wp T (fun _ _ => True) (fun a s' => ∀ i, post i a s') p s := by
  induction p generalizing s with
  | ret a => exact h
  | call c k ih => exact ⟨trivial, fun r s' hT => ih r fun i => (h i).2 r s' hT⟩

end Rules

/-- Calls during which the account of the state may grow, and never shrinks; `E` is what
a reply says about it. -/
def Growing [Preorder σ] (E : (c : C) → R c → σ → Prop) (c : C) (s : σ) (r : R c) (s' : σ) : Prop :=
  s ≤ s' ∧ E c r s'

theorem Wp.grow [Preorder σ] {E : (c : C) → R c → σ → Prop} {pre : C → σ → Prop}
    {post : α → σ → Prop} {p : Prog C R α} {s s' : σ} (h : Wp (Growing E) pre post p s)
    (hpre : ∀ c s s', s ≤ s' → pre c s → pre c s')
    (hpost : ∀ a s s', s ≤ s' → post a s → post a s') (hle : s ≤ s') :
    Wp (Growing E) pre post p s' := by
  cases p with
  | ret a => exact hpost a s s' hle h
  | call c k => exact ⟨hpre c s s' hle h.1, fun r s'' hr => h.2 r s'' ⟨hle.trans hr.1, hr.2⟩⟩

theorem wp_growing [Preorder σ] {E : (c : C) → R c → σ → Prop} (p : Prog C R α) {s s' : σ}
    (hle : s ≤ s') : Wp (Growing E) (fun _ _ => True) (fun _ t => s ≤ t) p s' := by
  induction p generalizing s' with
  | ret a => exact hle
  | call c k ih => exact ⟨trivial, fun r t ht => ih r (hle.trans ht.1)⟩

/-- `I` holds of what is left to run, at every point the program can reach. -/
def Everywhere (I : Prog C R α → Prop) : Prog C R α → Prop
  | ret a => I (ret a)
  | call c k => I (call c k) ∧ ∀ r, Everywhere I (k r)

theorem Everywhere.bind {I : Prog C R β → Prop} {P : C → Prop}
    (hI : ∀ c k, P c → I (call c k)) {p : Prog C R α} {f : α → Prog C R β}
    (hp : Calls P p) (hf : ∀ a, Everywhere I (f a)) : Everywhere I (p >>= f) := by
  induction p with
  | ret a => exact hf a
  | call c k ih => exact ⟨hI c _ hp.1, fun r => ih r (hp.2 r)⟩

theorem Everywhere.of_calls {I : Prog C R α → Prop} {P : C → Prop}
    (hI : ∀ c k, P c → I (call c k)) (hret : ∀ a, I (ret a)) {p : Prog C R α}
    (hp : Calls P p) : Everywhere I p := by
  induction p with
  | ret a => exact hret a
  | call c k ih => exact ⟨hI c k hp.1, fun r => ih r (hp.2 r)⟩

/-- Whatever the replies, the program makes only calls in `P` and returns a result
in `Q`. -/
def Ends (P : C → Prop) (Q : α → Prop) (p : Prog C R α) : Prop :=
  Wp (fun _ (_ : Unit) _ _ => True) (fun c _ => P c) (fun a _ => Q a) p ()

theorem Ends.bind {P : C → Prop} {Q : α → Prop} {Q' : β → Prop} {p : Prog C R α}
    {f : α → Prog C R β} (hp : Ends P Q p) (hf : ∀ a, Q a → Ends P Q' (f a)) :
    Ends P Q' (p >>= f) :=
  (wp_bind p f ()).mpr (hp.post_mono fun a _ => hf a)

theorem Ends.calls {P : C → Prop} {Q : α → Prop} {p : Prog C R α} (h : Ends P Q p) : Calls P p :=
  Wp.calls h

theorem Ends.of_calls {P : C → Prop} {Q : α → Prop} {p : Prog C R α} (h : Calls P p)
    (hQ : ∀ a, Q a) : Ends P Q p :=
  (h.wp ()).post_mono fun a _ _ => hQ a

/-- With replies in `F` the program returns a result in `Q`. -/
def Under (F : (c : C) → R c → Prop) (Q : α → Prop) : Prog C R α → Prop
  | ret a => Q a
  | call c k => ∀ r, F c r → Under F Q (k r)

theorem Under.mono {F : (c : C) → R c → Prop} {Q Q' : α → Prop} {p : Prog C R α}
    (h : Under F Q p) (hQ : ∀ a, Q a → Q' a) : Under F Q' p := by
  induction p with
  | ret a => exact hQ a h
  | call c k ih => exact fun r hr => ih r (h r hr)

theorem Under.bind {F : (c : C) → R c → Prop} {Q : α → Prop} {Q' : β → Prop} {p : Prog C R α}
    {f : α → Prog C R β} (hp : Under F Q p) (hf : ∀ a, Q a → Under F Q' (f a)) :
    Under F Q' (p >>= f) := by
  induction p with
  | ret a => exact hf a hp
  | call c k ih => exact fun r hr => ih r (hp r hr)

theorem Under.of_all {F : (c : C) → R c → Prop} {Q : α → Prop} (p : Prog C R α) (hQ : ∀ a, Q a) :
    Under F Q p := by
  induction p with
  | ret a => exact hQ a
  | call c k ih => exact fun r _ => ih r

/-- The program makes at most `n` calls, whatever the replies. -/
def Within : Nat → Prog C R α → Prop
  | _, ret _ => True
  | 0, call _ _ => False
  | n + 1, call _ k => ∀ r, Within n (k r)

theorem within_ret (n : Nat) (a : α) : Within n (ret a : Prog C R α) := by cases n <;> trivial

theorem Within.succ {n : Nat} {p : Prog C R α} (h : Within n p) : Within (n + 1) p := by
  induction p generalizing n with
  | ret a => trivial
  | call c k ih =>
    cases n with
    | zero => cases h
    | succ n => exact fun r => ih r (h r)

theorem Within.bind {m n : Nat} {p : Prog C R α} {f : α → Prog C R β} (hp : Within m p)
    (hf : ∀ a, Within n (f a)) : Within (m + n) (p >>= f) := by
  induction p generalizing m with
  | ret a =>
    clear hp
    induction m with
    | zero =>
      rw [Nat.zero_add]
      exact hf a
    | succ m ih =>
      rw [Nat.add_right_comm]
      exact ih.succ
  | call c k ih =>
    cases m with
    | zero => cases hp
    | succ m =>
      rw [Nat.add_right_comm]
      exact fun r => ih r (hp r)

-- Executions. A choice resolves everything the program does not decide: the
-- outcome of the call, the clock, what a listing happens to show.
structure Machine (C : Type) (R : C → Type) (σ : Type) where
  Choice : Type
  exec : (c : C) → Choice → σ → R c × σ

def Machine.T (M : Machine C R σ) (c : C) (s : σ) (r : R c) (s' : σ) : Prop :=
  ∃ x, M.exec c x s = (r, s')

abbrev Machine.Event (M : Machine C R σ) : Type := C × M.Choice

/-- `Steps M p s es q t`: running `p` from `s` through the events `es` leaves
the program `q` still to run in state `t`. Any prefix of a run qualifies, which
is what a process that stops between two calls leaves behind. -/
inductive Steps (M : Machine C R σ) :
    Prog C R α → σ → List M.Event → Prog C R α → σ → Prop where
  | nil {p s} : Steps M p s [] p s
  | cons {c k s es q t} (x : M.Choice)
      (h : Steps M (k (M.exec c x s).1) (M.exec c x s).2 es q t) :
      Steps M (call c k) s ((c, x) :: es) q t

theorem Wp.steps {M : Machine C R σ} {pre : C → σ → Prop} {post : α → σ → Prop}
    {p q : Prog C R α} {s t : σ} {es : List M.Event} (hp : Wp M.T pre post p s)
    (h : Steps M p s es q t) : Wp M.T pre post q t := by
  induction h with
  | nil => exact hp
  | cons x _ ih => exact ih (hp.2 _ _ ⟨x, rfl⟩)

/-- The same for an abstract account of the state: if every call the program may
issue keeps `Rel` between the account and the machine, so does every prefix. -/
theorem Wp.simulate {τ : Type} {M : Machine C R σ} {T : (c : C) → τ → R c → τ → Prop}
    {pre : C → τ → Prop} {post : α → τ → Prop} {Rel : τ → σ → Prop}
    (hsim : ∀ c u s x, Rel u s → pre c u →
      ∃ u', T c u (M.exec c x s).1 u' ∧ Rel u' (M.exec c x s).2)
    {p q : Prog C R α} {u : τ} {s t : σ} {es : List M.Event}
    (hp : Wp T pre post p u) (hrel : Rel u s) (h : Steps M p s es q t) :
    ∃ u', Rel u' t ∧ Wp T pre post q u' := by
  induction h generalizing u with
  | nil => exact ⟨u, hrel, hp⟩
  | cons x _ ih =>
    obtain ⟨u', hT, hrel'⟩ := hsim _ u _ x hrel hp.1
    exact ih (hp.2 _ _ hT) hrel'

def follow (M : Machine C R σ) : Prog C R α → σ → List M.Choice → Option (α × σ)
  | ret a, s, _ => some (a, s)
  | call _ _, _, [] => none
  | call c k, s, x :: xs => follow M (k (M.exec c x s).1) (M.exec c x s).2 xs

theorem steps_of_follow {M : Machine C R σ} {p : Prog C R α} {s : σ} {xs : List M.Choice} {a : α}
    (h : (follow M p s xs).map Prod.fst = some a) : ∃ es t, Steps M p s es (ret a) t := by
  induction xs generalizing p s with
  | nil =>
    cases p with
    | ret b =>
      cases h
      exact ⟨[], s, .nil⟩
    | call c k => cases h
  | cons x xs ih =>
    cases p with
    | ret b =>
      cases h
      exact ⟨[], s, .nil⟩
    | call c k =>
      obtain ⟨es, t, hrest⟩ := ih h
      exact ⟨_, t, .cons x hrest⟩

/-- `Logs p log q`: with the calls and replies of `log` the program `p` comes to `q`. -/
inductive Logs : Prog C R α → List (Σ c, R c) → Prog C R α → Prop where
  | nil {p} : Logs p [] p
  | cons {c k log q} (r : R c) (h : Logs (k r) log q) : Logs (call c k) (⟨c, r⟩ :: log) q

theorem Logs.bind {p q : Prog C R α} {log : List (Σ c, R c)} (h : Logs p log q)
    (f : α → Prog C R β) : Logs (p >>= f) log (q >>= f) := by
  induction h with
  | nil => exact .nil
  | cons r _ ih => exact .cons r ih

theorem Logs.trans {p q q' : Prog C R α} {log log' : List (Σ c, R c)} (h : Logs p log q)
    (h' : Logs q log' q') : Logs p (log ++ log') q' := by
  induction h with
  | nil => exact h'
  | cons r _ ih => exact .cons r (ih h')

theorem Logs.of_ret {a : α} {log : List (Σ c, R c)} {q : Prog C R α} (h : Logs (ret a) log q) :
    log = [] ∧ q = ret a := by
  cases h
  exact ⟨rfl, rfl⟩

theorem Logs.of_call {c : C} {k : R c → Prog C R α} {a : α} {log : List (Σ c, R c)}
    (h : Logs (call c k) log (ret a)) :
    ∃ r log', log = ⟨c, r⟩ :: log' ∧ Logs (k r) log' (ret a) := by
  cases h with
  | cons r h => exact ⟨r, _, rfl, h⟩

theorem Logs.of_bind {p : Prog C R α} {f : α → Prog C R β} {log : List (Σ c, R c)}
    {q : Prog C R β} (h : Logs (p >>= f) log q) :
    (∃ q', Logs p log q') ∨
      ∃ a log₁ log₂, log = log₁ ++ log₂ ∧ Logs p log₁ (ret a) ∧ Logs (f a) log₂ q := by
  induction p generalizing log with
  | ret a => exact .inr ⟨a, [], log, rfl, .nil, h⟩
  | call c k ih =>
    cases h with
    | nil => exact .inl ⟨_, .nil⟩
    | cons r h =>
      rcases ih r h with ⟨q', hq⟩ | ⟨a, log₁, log₂, rfl, hp, hf⟩
      · exact .inl ⟨q', .cons r hq⟩
      · exact .inr ⟨a, _ :: log₁, log₂, rfl, .cons r hp, hf⟩

theorem Logs.of_bind_ret {p : Prog C R α} {f : α → Prog C R β} {log : List (Σ c, R c)} {b : β}
    (h : Logs (p >>= f) log (ret b)) :
    ∃ a log₁ log₂, log = log₁ ++ log₂ ∧ Logs p log₁ (ret a) ∧ Logs (f a) log₂ (ret b) := by
  induction p generalizing log with
  | ret a => exact ⟨a, [], log, rfl, .nil, h⟩
  | call c k ih =>
    obtain ⟨r, log, rfl, h'⟩ := h.of_call
    obtain ⟨a, log₁, log₂, rfl, hp, hf⟩ := ih r h'
    exact ⟨a, _ :: log₁, log₂, rfl, .cons r hp, hf⟩

theorem Calls.logs {P : C → Prop} {p q : Prog C R α} {log : List (Σ c, R c)} (h : Calls P p)
    (hlog : Logs p log q) : ∀ ev ∈ log, P ev.1 := by
  induction hlog with
  | nil => nofun
  | cons r _ ih =>
    intro ev hev
    rcases List.mem_cons.mp hev with rfl | hev
    · exact h.1
    · exact ih (h.2 r) ev hev

/-- Calls that leave marks, `F` being what their replies can be. -/
def Tracing {M : Type} (f : C → List M) (F : (c : C) → R c → Prop) (c : C) (s : List M) (r : R c)
    (s' : List M) : Prop := F c r ∧ s' = s ++ f c

theorem Wp.traced {M : Type} {f : C → List M} {F : (c : C) → R c → Prop} {I : List M → Prop}
    {post : α → List M → Prop} {p q : Prog C R α} {s : List M} {log : List (Σ c, R c)}
    (h : Wp (Tracing f F) (fun c s => I (s ++ f c)) post p s) (hs : I s)
    (hF : ∀ ev ∈ log, F ev.1 ev.2) (hlog : Logs p log q) :
    I (s ++ log.flatMap fun ev => f ev.1) := by
  induction hlog generalizing s with
  | nil => simpa using hs
  | @cons c k log q r _ ih =>
    have hrest := h.2 r (s ++ f c) ⟨hF _ List.mem_cons_self, rfl⟩
    have hmarks := ih hrest h.1 fun ev hev => hF ev (List.mem_cons_of_mem _ hev)
    rwa [List.append_assoc] at hmarks

theorem wp_unmarked {M : Type} {f : C → List M} {F : (c : C) → R c → Prop} {I : List M → Prop}
    {post : α → List M → Prop} {c : C} {k : R c → Prog C R α} {s : List M} (hc : f c = [])
    (hs : I s)
    (h : ∀ r, F c r → Wp (Tracing f F) (fun c s => I (s ++ f c)) post (k r) s) :
    Wp (Tracing f F) (fun c s => I (s ++ f c)) post (call c k) s := by
  have hsame : s ++ f c = s := by rw [hc, List.append_nil]
  have hpre : I (s ++ f c) := by rwa [hsame]
  refine ⟨hpre, fun r t ht => ?_⟩
  obtain ⟨hF, rfl⟩ := ht
  rw [hsame]
  exact h r hF

theorem Ends.traced {M : Type} {f : C → List M} {F : (c : C) → R c → Prop} {I : List M → Prop}
    {P : C → Prop} {Q : α → Prop} {p : Prog C R α} {s : List M} (h : Ends P Q p)
    (hP : ∀ c, P c → f c = []) (hs : I s) :
    Wp (Tracing f F) (fun c s => I (s ++ f c)) (fun a t => t = s ∧ Q a) p s := by
  induction p with
  | ret a => exact ⟨rfl, h⟩
  | call c k ih => exact wp_unmarked (hP c h.1) hs fun r _ => ih r (h.2 r () trivial)

theorem Ends.logs {P : C → Prop} {Q : α → Prop} {p : Prog C R α} {log : List (Σ c, R c)} {a : α}
    (h : Ends P Q p) (hlog : Logs p log (ret a)) : Q a := by
  induction p generalizing log with
  | ret b =>
    obtain ⟨-, hb⟩ := hlog.of_ret
    cases hb
    exact h
  | call c k ih =>
    obtain ⟨r, log, rfl, hlog₁⟩ := hlog.of_call
    exact ih r (h.2 r () trivial) hlog₁

def run (handle : (c : C) → σ → R c × σ) : Prog C R α → σ → α × σ
  | ret a, s => (a, s)
  | call c k, s => run handle (k (handle c s).1) (handle c s).2

@[simp] theorem run_ret (handle : (c : C) → σ → R c × σ) (a : α) (s : σ) :
    run handle (ret a) s = (a, s) := rfl

@[simp] theorem run_call (handle : (c : C) → σ → R c × σ) (c : C)
    (k : R c → Prog C R α) (s : σ) :
    run handle (call c k) s = run handle (k (handle c s).1) (handle c s).2 := rfl

@[simp] theorem run_bind (handle : (c : C) → σ → R c × σ) (p : Prog C R α)
    (f : α → Prog C R β) (s : σ) :
    run handle (p >>= f) s = run handle (f (run handle p s).1) (run handle p s).2 := by
  induction p generalizing s with
  | ret a => rfl
  | call c k ih => exact ih _ _

def lift {C' : Type} {R' : C' → Type} (inj : C → C') (reply : ∀ c, R' (inj c) → R c) :
    Prog C R α → Prog C' R' α
  | ret a => ret a
  | call c k => call (inj c) fun r => lift inj reply (k (reply c r))

theorem Calls.lift {C' : Type} {R' : C' → Type} {inj : C → C'} {reply : ∀ c, R' (inj c) → R c}
    {P : C' → Prop} {p : Prog C R α} (h : Calls (fun c => P (inj c)) p) :
    Calls P (lift inj reply p) := by
  induction p with
  | ret a => trivial
  | call c k ih => exact ⟨h.1, fun r => ih _ (h.2 _)⟩

theorem calls_true (p : Prog C R α) : Calls (fun _ => True) p := by
  induction p with
  | ret a => trivial
  | call c k ih => exact ⟨trivial, ih⟩

theorem Logs.lift {C' : Type} {R' : C' → Type} {inj : C → C'} {reply : ∀ c, R' (inj c) → R c}
    (embed : ∀ c, R c → R' (inj c)) (hembed : ∀ c r, reply c (embed c r) = r)
    {p q : Prog C R α} {log : List (Σ c, R c)} (h : Logs p log q) :
    Logs (p.lift inj reply) (log.map fun ev => ⟨inj ev.1, embed ev.1 ev.2⟩) (q.lift inj reply) := by
  induction h with
  | nil => exact .nil
  | @cons c k log q r _ ih =>
    refine .cons (embed c r) ?_
    rw [hembed]
    exact ih

theorem Wp.lift {C' : Type} {R' : C' → Type} {inj : C → C'} {reply : ∀ c, R' (inj c) → R c}
    {T : (c : C') → σ → R' c → σ → Prop} {pre : C' → σ → Prop} {post : α → σ → Prop}
    {p : Prog C R α} {s : σ}
    (h : Wp (fun c s r s' => ∃ r', reply c r' = r ∧ T (inj c) s r' s') (fun c => pre (inj c))
      post p s) : Wp T pre post (lift inj reply p) s := by
  induction p generalizing s with
  | ret a => exact h
  | call c k ih => exact ⟨h.1, fun r s' hr => ih _ (h.2 _ s' ⟨r, rfl, hr⟩)⟩

theorem Under.lift {C' : Type} {R' : C' → Type} {inj : C → C'} {reply : ∀ c, R' (inj c) → R c}
    {F : (c : C) → R c → Prop} {F' : (c : C') → R' c → Prop} {Q : α → Prop} {p : Prog C R α}
    (h : Under F Q p) (hF : ∀ c r, F' (inj c) r → F c (reply c r)) :
    Under F' Q (lift inj reply p) := by
  induction p with
  | ret a => exact h
  | call c k ih => exact fun r hr => ih _ (h _ (hF c r hr))

theorem Under.logs {F : (c : C) → R c → Prop} {Q : α → Prop} {p : Prog C R α}
    {log : List (Σ c, R c)} {a : α} (h : Under F Q p) (hF : ∀ ev ∈ log, F ev.1 ev.2)
    (hlog : Logs p log (ret a)) : Q a := by
  induction p generalizing log with
  | ret b =>
    obtain ⟨-, hb⟩ := hlog.of_ret
    cases hb
    exact h
  | call c k ih =>
    obtain ⟨r, log, rfl, hlog₁⟩ := hlog.of_call
    exact ih r (h r (hF _ List.mem_cons_self)) (fun ev hev => hF ev (List.mem_cons_of_mem _ hev)) hlog₁

theorem Under.run {F : (c : C) → R c → Prop} {Q : α → Prop} {handle : (c : C) → σ → R c × σ}
    {p : Prog C R α} (h : Under F Q p) (hF : ∀ c s, F c (handle c s).1) (s : σ) :
    Q (run handle p s).1 := by
  induction p generalizing s with
  | ret a => exact h
  | call c k ih => exact ih _ (h _ (hF c s)) _

theorem Under.of_logs {F : (c : C) → R c → Prop} {Q : α → Prop} {p : Prog C R α}
    (h : ∀ log a, (∀ ev ∈ log, F ev.1 ev.2) → Logs p log (ret a) → Q a) : Under F Q p := by
  induction p with
  | ret a => exact h [] a nofun .nil
  | call c k ih =>
    intro r hr
    refine ih r fun log a hF hlog => h (⟨c, r⟩ :: log) a ?_ (.cons r hlog)
    exact List.forall_mem_cons.mpr ⟨hr, hF⟩

theorem Wp.logs [Preorder σ] {E : (c : C) → R c → σ → Prop} {pre : C → σ → Prop}
    {post : α → σ → Prop} {p : Prog C R α} {s : σ} {log : List (Σ c, R c)} {a : α}
    (h : Wp (Growing E) pre post p s) (hE : ∀ ev ∈ log, E ev.1 ev.2 s)
    (hlog : Logs p log (ret a)) : post a s := by
  induction p generalizing log with
  | ret b =>
    obtain ⟨-, hb⟩ := hlog.of_ret
    cases hb
    exact h
  | call c k ih =>
    obtain ⟨r, log, rfl, hlog₁⟩ := hlog.of_call
    have hrest := h.2 r s ⟨le_rfl, hE _ List.mem_cons_self⟩
    exact ih r hrest (fun ev hev => hE ev (List.mem_cons_of_mem _ hev)) hlog₁

def interp {C' : Type} {R' : C' → Type} (H : (c : C) → Prog C' R' (R c)) :
    Prog C R α → Prog C' R' α
  | ret a => ret a
  | call c k => H c >>= fun r => interp H (k r)

section Interp

variable {C' : Type} {R' : C' → Type} {H : (c : C) → Prog C' R' (R c)}

@[simp] theorem interp_bind (p : Prog C R α) (f : α → Prog C R β) :
    interp H (p >>= f) = interp H p >>= fun a => interp H (f a) := by
  induction p with
  | ret a => rfl
  | call c k ih =>
    have hrest : (fun r => interp H (k r >>= f)) = fun r => interp H (k r) >>= fun a => interp H (f a) :=
      funext ih
    rw [call_bind, interp, interp, bind_assoc, hrest]

theorem Calls.interp {P : C → Prop} {P' : C' → Prop} {p : Prog C R α} (h : Calls P p)
    (hH : ∀ c, P c → Calls P' (H c)) : Calls P' (interp H p) := by
  induction p with
  | ret a => trivial
  | call c k ih => exact (hH c h.1).bind fun r => ih r (h.2 r)

theorem Under.interp {F : (c : C) → R c → Prop} {F' : (c : C') → R' c → Prop} {Q : α → Prop}
    {p : Prog C R α} (h : Under F Q p) (hH : ∀ c, Under F' (F c) (H c)) :
    Under F' Q (interp H p) := by
  induction p with
  | ret a => exact h
  | call c k ih => exact (hH c).bind fun r hr => ih r (h r hr)

/-- A program satisfies in the larger account what it does in the smaller one, where the
handler of each call does what the smaller account says of the call. -/
theorem Wp.interp {T : (c : C) → σ → R c → σ → Prop} {pre : C → σ → Prop}
    {T' : (c : C') → σ → R' c → σ → Prop} {pre' : C' → σ → Prop} {post : α → σ → Prop}
    (hH : ∀ c s, pre c s → Wp T' pre' (fun r s' => T c s r s') (H c) s) {p : Prog C R α} {s : σ}
    (h : Wp T pre post p s) : Wp T' pre' post (interp H p) s := by
  induction p generalizing s with
  | ret a => exact h
  | call c k ih =>
    refine (wp_bind _ _ s).mpr ((hH c s h.1).post_mono fun r s' hr => ?_)
    exact ih r (h.2 r s' hr)

end Interp

def Returns : Prog C R α → α → Prop
  | ret a, b => a = b
  | call _ k, b => ∃ r, (k r).Returns b

@[simp] theorem returns_ret {a b : α} : (ret a : Prog C R α).Returns b ↔ a = b := Iff.rfl

@[simp] theorem returns_call {c : C} {k : R c → Prog C R α} {b : α} :
    (call c k).Returns b ↔ ∃ r, (k r).Returns b := Iff.rfl

@[simp] theorem returns_bind {p : Prog C R α} {f : α → Prog C R β} {b : β} :
    (p >>= f).Returns b ↔ ∃ a, p.Returns a ∧ (f a).Returns b := by
  induction p with
  | ret a =>
    refine ⟨fun h => ⟨a, rfl, h⟩, ?_⟩
    rintro ⟨a', rfl, h⟩
    exact h
  | call c k ih =>
    simp only [call_bind, returns_call, ih]
    exact ⟨fun ⟨r, a, hr, h⟩ => ⟨a, ⟨r, hr⟩, h⟩, fun ⟨a, ⟨r, hr⟩, h⟩ => ⟨r, a, hr, h⟩⟩

theorem returns_iff_logs {p : Prog C R α} {a : α} :
    p.Returns a ↔ ∃ log, Logs p log (ret a) := by
  induction p with
  | ret b =>
    refine ⟨?_, fun ⟨log, h⟩ => ?_⟩
    · rintro rfl
      exact ⟨[], .nil⟩
    · obtain ⟨-, hb⟩ := h.of_ret
      cases hb
      rfl
  | call c k ih =>
    refine ⟨fun ⟨r, hr⟩ => ?_, fun ⟨log, h⟩ => ?_⟩
    · obtain ⟨log, hlog⟩ := (ih r).mp hr
      exact ⟨_, .cons r hlog⟩
    · obtain ⟨r, log, rfl, hrest⟩ := h.of_call
      exact ⟨r, (ih r).mpr ⟨log, hrest⟩⟩

theorem Returns.of_interp {C' : Type} {R' : C' → Type} {H : (c : C) → Prog C' R' (R c)}
    {p : Prog C R α} {a : α} (h : (interp H p).Returns a) : p.Returns a := by
  induction p with
  | ret b => exact h
  | call c k ih =>
    obtain ⟨r, -, hrest⟩ := returns_bind.mp h
    exact ⟨r, ih r hrest⟩

theorem returns_lift {C' : Type} {R' : C' → Type} {inj : C → C'} {reply : ∀ c, R' (inj c) → R c}
    (hreply : ∀ c, Function.Surjective (reply c)) {p : Prog C R α} {a : α} :
    (p.lift inj reply).Returns a ↔ p.Returns a := by
  induction p with
  | ret b => rfl
  | call c k ih =>
    refine ⟨fun ⟨r, hr⟩ => ⟨_, (ih _).mp hr⟩, fun ⟨r, hr⟩ => ?_⟩
    obtain ⟨r', rfl⟩ := hreply c r
    exact ⟨r', (ih _).mpr hr⟩

def Keeping (note : σ → (Σ c, R c) → σ) (c : C) (s : σ) (r : R c) (s' : σ) : Prop :=
  s' = note s ⟨c, r⟩

theorem wp_call_keeping {note : σ → (Σ c, R c) → σ} {pre : C → σ → Prop} {post : α → σ → Prop}
    {c : C} {k : R c → Prog C R α} {s : σ} :
    Wp (Keeping note) pre post (call c k) s ↔
      pre c s ∧ ∀ r, Wp (Keeping note) pre post (k r) (note s ⟨c, r⟩) :=
  and_congr_right fun _ => ⟨fun h r => h r _ rfl, fun h r _ hs => hs ▸ h r⟩

theorem Wp.kept {note : σ → (Σ c, R c) → σ} {pre : C → σ → Prop} {post : α → σ → Prop}
    {p q : Prog C R α} {s : σ} {log : List (Σ c, R c)} (h : Wp (Keeping note) pre post p s)
    (hlog : Logs p log q) :
    (∀ l₁ ev l₂, log = l₁ ++ ev :: l₂ → pre ev.1 (l₁.foldl note s)) ∧
      Wp (Keeping note) pre post q (log.foldl note s) := by
  induction hlog generalizing s with
  | nil => exact ⟨fun l₁ ev l₂ hl => absurd hl (by simp), h⟩
  | @cons c k log q r _ ih =>
    obtain ⟨hcalls, hrest⟩ := ih (h.2 r _ rfl)
    refine ⟨fun l₁ ev l₂ hl => ?_, hrest⟩
    cases l₁ with
    | nil =>
      cases hl
      exact h.1
    | cons ev₁ l₁ =>
      obtain ⟨rfl, rfl⟩ := List.cons.inj hl
      exact hcalls l₁ ev l₂ rfl

theorem exists_logs_run (handle : (c : C) → σ → R c × σ) (p : Prog C R α) (s : σ) :
    ∃ log, Logs p log (ret (run handle p s).1) := by
  induction p generalizing s with
  | ret a => exact ⟨[], .nil⟩
  | call c k ih =>
    obtain ⟨log, hlog⟩ := ih (handle c s).1 (handle c s).2
    exact ⟨⟨c, (handle c s).1⟩ :: log, .cons _ hlog⟩

theorem Wp.run {T : (c : C) → σ → R c → σ → Prop} {pre : C → σ → Prop}
    {post : α → σ → Prop} {handle : (c : C) → σ → R c × σ}
    (hT : ∀ c s, T c s (handle c s).1 (handle c s).2) {p : Prog C R α} {s : σ}
    (h : Wp T pre post p s) : post (run handle p s).1 (run handle p s).2 := by
  induction p generalizing s with
  | ret a => exact h
  | call c k ih => exact ih _ (h.2 _ _ (hT c s))

end Prog

end ProxBack.Lib
