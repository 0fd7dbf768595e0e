import Mathlib.Data.List.Perm.Basic

/-! Lists that change at one place, and texts that are gone through. -/
namespace ProxBack.Lib

section
variable {p : Char → Prop} [DecidablePred p]

instance (priority := high) decidableForallChar (s : List Char) : Decidable (∀ c, c ∈ s → p c) :=
  List.decidableBAll p s

instance (priority := high) decidableExistsChar (s : List Char) : Decidable (∃ c, c ∈ s ∧ p c) :=
  List.decidableBEx p s

instance (priority := high) decidableForallCharOption (o : Option Char) : Decidable (∀ c, c ∈ o → p c) :=
  Option.decidableForallMem o

instance (priority := high) decidableExistsCharOption (o : Option Char) : Decidable (∃ c, c ∈ o ∧ p c) :=
  Option.decidableExistsMem o

end

variable {α β : Type} {l : List α} {a b c : α} {i k : Nat}

theorem forall_set {P : α → Prop} (h : ∀ a ∈ l, P a) (hb : P b) (a : α) (ha : a ∈ l.set i b) :
    P a :=
  (List.mem_or_eq_of_mem_set ha).elim (h a) fun heq => heq ▸ hb

theorem getElem?_set_of (h : l[k]? = some a) (b : α) (i : Nat) :
    (l.set k b)[i]? = if k = i then some b else l[i]? := by
  have hlt : k < l.length := (List.getElem?_eq_some_iff.mp h).1
  rw [List.getElem?_set, if_pos hlt]

theorem mem_set_cases (hi : l[i]? = some a) (h : c ∈ l.set i b) :
    c = b ∨ ∃ k, k ≠ i ∧ l[k]? = some c := by
  obtain ⟨k, hk⟩ := List.mem_iff_getElem?.mp h
  rw [getElem?_set_of hi] at hk
  split at hk
  · cases hk
    exact .inl rfl
  · rename_i hne
    exact .inr ⟨k, Ne.symm hne, hk⟩

theorem map_set_same {f : α → β} (h : l[i]? = some a) (hf : f b = f a) :
    (l.set i b).map f = l.map f := by
  obtain ⟨hlt, rfl⟩ := List.getElem?_eq_some_iff.mp h
  calc (l.set i b).map f = (l.map f).set i (f l[i]) := by rw [List.map_set, hf]
    _ = (l.set i l[i]).map f := List.map_set.symm
    _ = l.map f := by rw [List.set_getElem_self]

theorem count_map_eraseIdx {f : α → String} (h : l[i]? = some a) (k : String) :
    (l.map f).count k = ((l.eraseIdx i).map f).count k + if f a = k then 1 else 0 := by
  obtain ⟨hlt, rfl⟩ := List.getElem?_eq_some_iff.mp h
  have hperm := (List.getElem_cons_eraseIdx_perm hlt).map f
  rw [← hperm.count_eq k, List.map_cons, List.count_cons]
  simp

theorem key_ne {f : α → β} (hdistinct : (l.map f).Nodup) (hi : l[i]? = some a)
    (hk : l[k]? = some b) (hne : k ≠ i) : f b ≠ f a := by
  intro heq
  have hkey : (l.map f)[k]? = (l.map f)[i]? := by
    rw [List.getElem?_map, List.getElem?_map, hi, hk, Option.map_some, Option.map_some, heq]
  have hlt : k < (l.map f).length := by
    rw [List.length_map]
    exact (List.getElem?_eq_some_iff.mp hk).1
  exact hne ((List.getElem?_inj hlt hdistinct).mp hkey)

theorem mapM_congr {f g : α → Option β} {l : List α} (h : ∀ a ∈ l, f a = g a) :
    l.mapM f = l.mapM g := by
  induction l with
  | nil => rfl
  | cons a l ih =>
    rw [List.mapM_cons, List.mapM_cons, h a List.mem_cons_self,
      ih fun b hb => h b (List.mem_cons_of_mem _ hb)]

theorem mapM_mem {f : α → Option β} {l : List α} {r : List β} (h : l.mapM f = some r) :
    r.length = l.length ∧ ∀ b ∈ r, ∃ a ∈ l, f a = some b := by
  induction l generalizing r with
  | nil =>
    cases h
    exact ⟨rfl, nofun⟩
  | cons a l ih =>
    rw [List.mapM_cons] at h
    obtain ⟨b, hb, h⟩ := Option.bind_eq_some_iff.mp h
    obtain ⟨r', hr', h⟩ := Option.bind_eq_some_iff.mp h
    cases h
    obtain ⟨hlen, hmem⟩ := ih hr'
    refine ⟨by rw [List.length_cons, hlen, List.length_cons], fun x hx => ?_⟩
    rcases List.mem_cons.mp hx with rfl | hx
    · exact ⟨a, List.mem_cons_self, hb⟩
    · obtain ⟨a', ha', hx⟩ := hmem x hx
      exact ⟨a', List.mem_cons_of_mem _ ha', hx⟩

structure Cut (n : Nat) (pieces : List (List α)) : Prop where
  sizes : ∀ u ∈ pieces, u ≠ [] ∧ u.length ≤ n
  full : ∀ u ∈ pieces.dropLast, u.length = n

section Cut
variable {n : Nat} {u v : List α} {us vs : List (List α)}

theorem Cut.tail (h : Cut n (u :: us)) : Cut n us := by
  refine ⟨fun v hv => h.sizes v (List.mem_cons_of_mem u hv), fun v hv => ?_⟩
  cases us with
  | nil => cases hv
  | cons w us => exact h.full v (List.mem_cons_of_mem u hv)

theorem Cut.head_length (h : Cut n (u :: us)) : u.length = min n (u :: us).flatten.length := by
  have hle := (h.sizes u List.mem_cons_self).2
  rw [List.flatten_cons, List.length_append]
  cases us with
  | nil =>
    rw [List.flatten_nil, List.length_nil]
    omega
  | cons w us =>
    have hfull := h.full u List.mem_cons_self
    omega

theorem Cut.unique (h : Cut n us) (h' : Cut n vs) (hflat : us.flatten = vs.flatten) : us = vs := by
  induction us generalizing vs with
  | nil =>
    cases vs with
    | nil => rfl
    | cons v vs =>
      have hnil : v = [] := (List.append_eq_nil_iff.mp hflat.symm).1
      exact absurd hnil (h'.sizes v List.mem_cons_self).1
  | cons u us ih =>
    cases vs with
    | nil =>
      have hnil : u = [] := (List.append_eq_nil_iff.mp hflat).1
      exact absurd hnil (h.sizes u List.mem_cons_self).1
    | cons v vs =>
      have hlen : u.length = v.length := by rw [h.head_length, h'.head_length, hflat]
      obtain ⟨rfl, hrest⟩ := List.append_inj hflat hlen
      rw [ih h.tail h'.tail hrest]

theorem Cut.append_last (hfull : ∀ u ∈ us, u.length = n) (hne : v ≠ []) (hlen : v.length ≤ n) :
    Cut n (us ++ [v]) := by
  have hn : 0 < n := Nat.lt_of_lt_of_le (List.length_pos_iff.mpr hne) hlen
  constructor
  · intro u hu
    rcases List.mem_append.mp hu with hu | hu
    · have hu := hfull u hu
      exact ⟨List.length_pos_iff.mp (by omega), by omega⟩
    · rw [List.mem_singleton.mp hu]
      exact ⟨hne, hlen⟩
  · rw [List.dropLast_concat]
    exact hfull

theorem Cut.of_full (hn : 0 < n) (hfull : ∀ u ∈ us, u.length = n) : Cut n us := by
  refine ⟨fun u hu => ?_, fun u hu => hfull u (List.dropLast_subset us hu)⟩
  have hu := hfull u hu
  exact ⟨List.length_pos_iff.mp (by omega), by omega⟩

end Cut

end ProxBack.Lib
