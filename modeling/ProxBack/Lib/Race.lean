import Mathlib.Data.Set.Finite.Lemmas
import Mathlib.Order.Defs.LinearOrder

/-! Things that happen each at a time of their own, of which the first decides. -/
namespace ProxBack.Lib

variable {τ α : Type} [LinearOrder τ] {l : List (τ × α)} {x : τ × α}

def earliest (l : List (τ × α)) : List (τ × α) := l.filter fun x => ∀ y ∈ l, x.1 ≤ y.1

@[simp] theorem mem_earliest : x ∈ earliest l ↔ x ∈ l ∧ ∀ y ∈ l, x.1 ≤ y.1 := by
  rw [earliest, List.mem_filter, decide_eq_true_iff]

theorem exists_mem_earliest (h : x ∈ l) : ∃ y, y ∈ earliest l := by
  obtain ⟨y, hy, hmin⟩ := Set.exists_min_image {y | y ∈ l} Prod.fst l.finite_toSet ⟨x, h⟩
  exact ⟨y, mem_earliest.mpr ⟨hy, hmin⟩⟩

theorem eq_of_mem_earliest {y : τ × α} (hy : y ∈ l) (hfirst : ∀ z ∈ l, z ≠ y → y.1 < z.1) (hx : x ∈ earliest l) :
    x = y := by
  obtain ⟨hmem, hmin⟩ := mem_earliest.mp hx
  by_contra hne
  exact absurd (hmin y hy) (not_le_of_gt (hfirst x hmem hne))

end ProxBack.Lib
