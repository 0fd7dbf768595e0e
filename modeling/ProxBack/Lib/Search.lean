import Mathlib.Order.Basic

/-! Binary search for the first number with a property that is kept from there on. -/
namespace ProxBack.Lib

/-- The search between `i` and `j`. -/
def searchLoop (p : Nat → Bool) (i j : Nat) : Nat :=
  if i < j then
    let h := (i + j) / 2
    if p h then searchLoop p i h else searchLoop p (h + 1) j
  else i
termination_by j - i

/-- `sort.Search`. -/
def search (n : Nat) (p : Nat → Bool) : Nat := searchLoop p 0 n

section Spec

variable {p : Nat → Bool} {n : Nat} (hmono : ∀ a b, a ≤ b → b < n → p a = true → p b = true)

include hmono

theorem searchLoop_spec {i j : Nat} (hij : i ≤ j) (hjn : j ≤ n) (hlow : ∀ k < i, p k = false)
    (hhigh : ∀ k, j ≤ k → k < n → p k = true) :
    searchLoop p i j ≤ j ∧ (∀ k < searchLoop p i j, p k = false) ∧
      ∀ k, searchLoop p i j ≤ k → k < n → p k = true := by
  fun_induction searchLoop p i j with
  | case1 i j hlt h hp ih =>
    have hmid : h ≤ j := by omega
    obtain ⟨hle, hrest⟩ := ih (by omega) (by omega) hlow fun k hk hkn => hmono h k hk hkn hp
    exact ⟨Nat.le_trans hle hmid, hrest⟩
  | case2 i j hlt h hp ih =>
    refine ih (by omega) hjn (fun k hk => ?_) hhigh
    by_contra hk'
    exact hp (hmono k h (by omega) (by omega) (by simpa using hk'))
  | case3 i j hge =>
    obtain rfl : i = j := by omega
    exact ⟨Nat.le_refl i, hlow, hhigh⟩

theorem search_spec : search n p ≤ n ∧ (∀ k < search n p, p k = false) ∧
    ∀ k, search n p ≤ k → k < n → p k = true :=
  searchLoop_spec hmono (Nat.zero_le n) (Nat.le_refl n) (fun _ hk => absurd hk (Nat.not_lt_zero _))
    fun k hk hk' => absurd hk (by omega)

end Spec

end ProxBack.Lib
