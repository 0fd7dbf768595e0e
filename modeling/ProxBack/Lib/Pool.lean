import Mathlib.Data.List.Nodup
import Mathlib.Data.List.Range
import Mathlib.Data.Finset.Card
import Mathlib.Logic.Function.Basic

/-! A pool of numbered resources with a free list. Every resource made so far is in
the free list or with exactly one of the parties that may hold one. -/
namespace ProxBack.Lib

/-- `held k` is the resource party `k` holds, if any. -/
structure Pool {κ : Type} (most made : Nat) (free : List Nat) (held : κ → Option Nat) : Prop where
  bound : made ≤ most
  nodup : free.Nodup
  lt_free : ∀ b ∈ free, b < made
  lt_held : ∀ k b, held k = some b → b < made
  not_free : ∀ k b, held k = some b → b ∉ free
  single : ∀ k l b, held k = some b → held l = some b → k = l
  covered : ∀ b, b < made → b ∈ free ∨ ∃ k, held k = some b

namespace Pool

variable {κ : Type} {most made b : Nat} {free : List Nat} {held : κ → Option Nat} {k l : κ}

theorem initial (most : Nat) : Pool most 0 [] fun _ : κ => none where
  bound := Nat.zero_le most
  nodup := List.nodup_nil
  lt_free := nofun
  lt_held := nofun
  not_free := nofun
  single := nofun
  covered := nofun

theorem free_subset (h : Pool most made free held) : free ⊆ List.range made := fun b hb =>
  List.mem_range.mpr (h.lt_free b hb)

/-- While a resource is held the free list is not full: putting it back never
finds the list without room. -/
theorem length_free_lt (h : Pool most made free held) (hk : held k = some b) :
    free.length < most := by
  have hnodup : (b :: free).Nodup := List.nodup_cons.mpr ⟨h.not_free k b hk, h.nodup⟩
  have hsub : b :: free ⊆ List.range made :=
    List.cons_subset.mpr ⟨List.mem_range.mpr (h.lt_held k b hk), h.free_subset⟩
  have hlen := (hnodup.subperm hsub).length_le
  rw [List.length_cons, List.length_range] at hlen
  exact Nat.lt_of_lt_of_le hlen h.bound

theorem free_ne_nil (h : Pool most made free held) (hmade : 0 < made)
    (hnone : ∀ k, held k = none) : free ≠ [] := by
  intro hnil
  rcases h.covered 0 hmade with h0 | ⟨k, hk⟩
  · rw [hnil] at h0
    cases h0
  · rw [hnone k] at hk
    cases hk

variable [DecidableEq κ]

theorem of_update {v : Option Nat} (hk : Function.update held k v l = some b) :
    (l = k ∧ v = some b) ∨ (l ≠ k ∧ held l = some b) := by
  by_cases hl : l = k
  · rw [hl, Function.update_self] at hk
    exact .inl ⟨hl, hk⟩
  · rw [Function.update_of_ne hl] at hk
    exact .inr ⟨hl, hk⟩

theorem take (h : Pool most made (b :: free) held) (hk : held k = none) :
    Pool most made free (Function.update held k (some b)) where
  bound := h.bound
  nodup := (List.nodup_cons.mp h.nodup).2
  lt_free c hc := h.lt_free c (List.mem_cons_of_mem _ hc)
  lt_held l c hl := by
    rcases of_update hl with ⟨-, hc⟩ | ⟨-, hl⟩
    · cases hc
      exact h.lt_free b List.mem_cons_self
    · exact h.lt_held l c hl
  not_free l c hl := by
    rcases of_update hl with ⟨-, hc⟩ | ⟨-, hl⟩
    · cases hc
      exact (List.nodup_cons.mp h.nodup).1
    · exact fun hc => h.not_free l c hl (List.mem_cons_of_mem _ hc)
  single l m c hl hm := by
    rcases of_update hl with ⟨hlk, hc⟩ | ⟨-, hl⟩
    · rcases of_update hm with ⟨hmk, -⟩ | ⟨-, hm⟩
      · rw [hlk, hmk]
      · cases hc
        exact absurd List.mem_cons_self (h.not_free m b hm)
    · rcases of_update hm with ⟨-, hc⟩ | ⟨-, hm⟩
      · cases hc
        exact absurd List.mem_cons_self (h.not_free l b hl)
      · exact h.single l m c hl hm
  covered c hc := by
    rcases h.covered c hc with hfree | ⟨l, hl⟩
    · rcases List.mem_cons.mp hfree with rfl | hfree
      · exact .inr ⟨k, Function.update_self ..⟩
      · exact .inl hfree
    · have hne : l ≠ k := by
        rintro rfl
        rw [hk] at hl
        cases hl
      exact .inr ⟨l, (Function.update_of_ne hne ..).trans hl⟩

theorem alloc (h : Pool most made free held) (hk : held k = none) (hmade : made < most) :
    Pool most (made + 1) free (Function.update held k (some made)) where
  bound := hmade
  nodup := h.nodup
  lt_free c hc := Nat.lt_succ_of_lt (h.lt_free c hc)
  lt_held l c hl := by
    rcases of_update hl with ⟨-, hc⟩ | ⟨-, hl⟩
    · cases hc
      exact Nat.lt_succ_self made
    · exact Nat.lt_succ_of_lt (h.lt_held l c hl)
  not_free l c hl := by
    rcases of_update hl with ⟨-, hc⟩ | ⟨-, hl⟩
    · cases hc
      exact fun hc => absurd (h.lt_free made hc) (Nat.lt_irrefl made)
    · exact h.not_free l c hl
  single l m c hl hm := by
    rcases of_update hl with ⟨hlk, hc⟩ | ⟨-, hl⟩
    · rcases of_update hm with ⟨hmk, -⟩ | ⟨-, hm⟩
      · rw [hlk, hmk]
      · cases hc
        exact absurd (h.lt_held m made hm) (Nat.lt_irrefl made)
    · rcases of_update hm with ⟨-, hc⟩ | ⟨-, hm⟩
      · cases hc
        exact absurd (h.lt_held l made hl) (Nat.lt_irrefl made)
      · exact h.single l m c hl hm
  covered c hc := by
    by_cases hcm : c = made
    · exact .inr ⟨k, by rw [Function.update_self, hcm]⟩
    · rcases h.covered c (by omega) with hfree | ⟨l, hl⟩
      · exact .inl hfree
      · have hne : l ≠ k := by
          rintro rfl
          rw [hk] at hl
          cases hl
        exact .inr ⟨l, (Function.update_of_ne hne ..).trans hl⟩

theorem give (h : Pool most made free held) (hk : held k = some b) :
    Pool most made (free ++ [b]) (Function.update held k none) where
  bound := h.bound
  nodup := by
    rw [List.nodup_append]
    refine ⟨h.nodup, List.nodup_singleton b, ?_⟩
    intro c hc d hd
    rw [List.mem_singleton.mp hd]
    rintro rfl
    exact h.not_free k c hk hc
  lt_free c hc := by
    rcases List.mem_append.mp hc with hc | hc
    · exact h.lt_free c hc
    · rw [List.mem_singleton.mp hc]
      exact h.lt_held k b hk
  lt_held l c hl := by
    rcases of_update hl with ⟨-, hc⟩ | ⟨-, hl⟩
    · cases hc
    · exact h.lt_held l c hl
  not_free l c hl := by
    rcases of_update hl with ⟨-, hc⟩ | ⟨hne, hl⟩
    · cases hc
    · intro hc
      rcases List.mem_append.mp hc with hc | hc
      · exact h.not_free l c hl hc
      · rw [List.mem_singleton.mp hc] at hl
        exact hne (h.single l k b hl hk)
  single l m c hl hm := by
    rcases of_update hl with ⟨-, hc⟩ | ⟨-, hl⟩
    · cases hc
    · rcases of_update hm with ⟨-, hc⟩ | ⟨-, hm⟩
      · cases hc
      · exact h.single l m c hl hm
  covered c hc := by
    rcases h.covered c hc with hfree | ⟨l, hl⟩
    · exact .inl (List.mem_append_left _ hfree)
    · by_cases hlk : l = k
      · rw [hlk, hk] at hl
        cases hl
        exact .inl (List.mem_append_right _ List.mem_cons_self)
      · exact .inr ⟨l, (Function.update_of_ne hlk ..).trans hl⟩

theorem pass (h : Pool most made free held) (hk : held k = some b) (hl : held l = none) :
    Pool most made free (Function.update (Function.update held k none) l (some b)) where
  bound := h.bound
  nodup := h.nodup
  lt_free := h.lt_free
  lt_held m c hm := by
    rcases of_update hm with ⟨-, hc⟩ | ⟨-, hm⟩
    · cases hc
      exact h.lt_held k b hk
    · rcases of_update hm with ⟨-, hc⟩ | ⟨-, hm⟩
      · cases hc
      · exact h.lt_held m c hm
  not_free m c hm := by
    rcases of_update hm with ⟨-, hc⟩ | ⟨-, hm⟩
    · cases hc
      exact h.not_free k b hk
    · rcases of_update hm with ⟨-, hc⟩ | ⟨-, hm⟩
      · cases hc
      · exact h.not_free m c hm
  single m n c hm hn := by
    have hold : ∀ m, m ≠ l → Function.update held k none m = some b → False := by
      intro m _ hm
      rcases of_update hm with ⟨-, hc⟩ | ⟨hne, hm⟩
      · cases hc
      · exact hne (h.single m k b hm hk)
    rcases of_update hm with ⟨hml, hc⟩ | ⟨hml, hm⟩
    · cases hc
      rcases of_update hn with ⟨hnl, -⟩ | ⟨hnl, hn⟩
      · rw [hml, hnl]
      · exact (hold n hnl hn).elim
    · rcases of_update hn with ⟨-, hc⟩ | ⟨hnl, hn⟩
      · cases hc
        exact (hold m hml hm).elim
      · rcases of_update hm with ⟨-, hc⟩ | ⟨-, hm⟩
        · cases hc
        · rcases of_update hn with ⟨-, hc⟩ | ⟨-, hn⟩
          · cases hc
          · exact h.single m n c hm hn
  covered c hc := by
    rcases h.covered c hc with hfree | ⟨m, hm⟩
    · exact .inl hfree
    · by_cases hmk : m = k
      · rw [hmk, hk] at hm
        cases hm
        exact .inr ⟨l, Function.update_self ..⟩
      · have hml : m ≠ l := by
          rintro rfl
          rw [hl] at hm
          cases hm
        refine .inr ⟨m, ?_⟩
        rw [Function.update_of_ne hml, Function.update_of_ne hmk]
        exact hm

end Pool

end ProxBack.Lib
