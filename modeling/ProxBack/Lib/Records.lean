import Mathlib.Data.List.Basic
import Mathlib.Data.List.Infix

/-! Tables whose rows are added at the end, under ids that are given out in order, and of which
the oldest rows may be dropped. -/
namespace ProxBack.Lib

/-- `kept` is the end of `all`: its last `n`, or more of it, or all of it. -/
structure Window {α : Type} (n : Nat) (all kept : List α) : Prop where
  suffix : kept <:+ all
  enough : min n all.length ≤ kept.length

namespace Window

variable {α β : Type} {n : Nat} {all kept : List α}

theorem refl (n : Nat) (all : List α) : Window n all all :=
  ⟨List.suffix_rfl, Nat.min_le_right _ _⟩

theorem append (h : Window n all kept) (added : List α) : Window n (all ++ added) (kept ++ added) where
  suffix := by
    obtain ⟨dropped, rfl⟩ := h.suffix
    exact ⟨dropped, by rw [List.append_assoc]⟩
  enough := by
    have hlen := h.enough
    rw [List.length_append, List.length_append]
    omega

theorem drop (h : Window n all kept) {k : Nat} (hk : k = 0 ∨ k + n ≤ kept.length) :
    Window n all (kept.drop k) where
  suffix := (List.drop_suffix k kept).trans h.suffix
  enough := by
    have hlen := h.enough
    rw [List.length_drop]
    omega

theorem newest (h : Window n all kept) : Window n all (kept.drop (kept.length - n)) :=
  h.drop (by omega)

theorem map (h : Window n all kept) (f : α → β) : Window n (all.map f) (kept.map f) where
  suffix := h.suffix.map f
  enough := by
    rw [List.length_map, List.length_map]
    exact h.enough

theorem reverse_prefix (h : Window n all kept) : kept.reverse <+: all.reverse :=
  List.reverse_prefix.mpr h.suffix

theorem take_reverse (h : Window n all kept) : all.reverse.take n <+: kept.reverse := by
  refine List.prefix_of_prefix_length_le (List.take_prefix _ _) h.reverse_prefix ?_
  rw [List.length_take, List.length_reverse, List.length_reverse]
  exact h.enough

end Window

/-- Rows in the order of their ids; `seq` is the last id that was given out. -/
structure Records (E : Type) where
  rows : List (Nat × E)
  seq : Nat
  sorted : (rows.map Prod.fst).Pairwise (· < ·)
  le_seq : ∀ id ∈ rows.map Prod.fst, id ≤ seq

namespace Records

variable {E : Type}

def empty : Records E := ⟨[], 0, .nil, List.forall_mem_nil _⟩

def insert (t : Records E) (e : E) : Records E where
  rows := t.rows ++ [(t.seq + 1, e)]
  seq := t.seq + 1
  sorted := by
    rw [List.map_append, List.pairwise_append]
    refine ⟨t.sorted, List.pairwise_singleton _ _, fun id hid new hnew => ?_⟩
    rw [List.mem_singleton.mp hnew]
    exact Nat.lt_succ_of_le (t.le_seq id hid)
  le_seq := by
    intro id hid
    rw [List.map_append] at hid
    rcases List.mem_append.mp hid with hid | hid
    · exact Nat.le_succ_of_le (t.le_seq id hid)
    · exact Nat.le_of_eq (List.mem_singleton.mp hid)

def delete (t : Records E) (p : Nat × E → Bool) : Records E where
  rows := t.rows.filter fun row => !p row
  seq := t.seq
  sorted := t.sorted.sublist (List.filter_sublist.map _)
  le_seq id hid := t.le_seq id ((List.filter_sublist.map _).subset hid)

def select (t : Records E) (p : E → Bool) : List (Nat × E) := t.rows.filter fun row => p row.2

def newest (t : Records E) (p : E → Bool) (n : Nat) : List Nat :=
  ((t.select p).reverse.take n).map Prod.fst

variable {t : Records E} {p : E → Bool} {d : Nat × E → Bool}

@[simp] theorem select_insert_self {e : E} (h : p e = true) :
    (t.insert e).select p = t.select p ++ [(t.seq + 1, e)] := by
  rw [select, insert, List.filter_append]
  exact congrArg _ (List.filter_cons_of_pos h)

@[simp]
theorem select_insert_other {e : E} (h : p e = false) : (t.insert e).select p = t.select p := by
  rw [select, insert, List.filter_append, List.filter_cons_of_neg (by rw [h]; simp),
    List.filter_nil, List.append_nil]
  rfl

@[simp] theorem select_delete_other (h : ∀ row, p row.2 = true → d row = false) :
    (t.delete d).select p = t.select p := by
  rw [select, delete, List.filter_filter]
  refine List.filter_congr fun row _ => ?_
  cases hp : p row.2 with
  | false => rfl
  | true => rw [h row hp]; rfl

@[simp]
theorem select_delete_all (h : ∀ row, p row.2 = true → d row = true) : (t.delete d).select p = [] := by
  rw [select, delete, List.filter_filter, List.filter_eq_nil_iff]
  intro row _
  cases hp : p row.2 with
  | false => simp
  | true => simp [h row hp]

theorem filter_newest {l : List (Nat × E)} (h : (l.map Prod.fst).Pairwise (· < ·)) (n : Nat) :
    (l.filter fun row => row.1 ∈ (l.reverse.take n).map Prod.fst) = l.drop (l.length - n) := by
  set k := l.length - n
  have hids : ∀ id, id ∈ (l.reverse.take n).map Prod.fst ↔ id ∈ (l.drop k).map Prod.fst := by
    intro id
    rw [List.take_reverse, List.map_reverse, List.mem_reverse]
  have hsplit : ((l.take k).map Prod.fst ++ (l.drop k).map Prod.fst).Pairwise (· < ·) := by
    rwa [← List.map_append, List.take_append_drop]
  have hold : ∀ row ∈ l.take k, row.1 ∉ (l.drop k).map Prod.fst := fun row hrow hmem =>
    Nat.lt_irrefl _ ((List.pairwise_append.mp hsplit).2.2 _ (List.mem_map_of_mem hrow) _ hmem)
  calc (l.filter fun row => row.1 ∈ (l.reverse.take n).map Prod.fst)
      = (l.take k ++ l.drop k).filter fun row => row.1 ∈ (l.drop k).map Prod.fst := by
        rw [List.take_append_drop]
        exact List.filter_congr fun row _ => decide_eq_decide.mpr (hids row.1)
    _ = [] ++ l.drop k := by
        rw [List.filter_append]
        congr 1
        · exact List.filter_eq_nil_iff.mpr fun row hrow h =>
            hold row hrow (of_decide_eq_true h)
        · exact List.filter_eq_self.mpr fun row hrow => decide_eq_true (List.mem_map_of_mem hrow)
    _ = l.drop k := List.nil_append _

theorem select_delete_old (t : Records E) (p : E → Bool) (n : Nat) :
    (t.delete fun row => p row.2 && row.1 ∉ t.newest p n).select p =
      (t.select p).drop ((t.select p).length - n) := by
  have hsorted : ((t.select p).map Prod.fst).Pairwise (· < ·) :=
    t.sorted.sublist (List.filter_sublist.map _)
  rw [← filter_newest hsorted n, newest]
  generalize (List.take n (t.select p).reverse).map Prod.fst = ids
  rw [select, select, delete, List.filter_filter, List.filter_filter]
  refine List.filter_congr fun row _ => ?_
  cases p row.2 <;> simp

theorem filter_over {α : Type} {f : α → Nat} {l : List α} {a : Nat}
    (h : l.map f = List.range' (a + 1) l.length) (k : Nat) :
    (l.filter fun row => k < f row) = l.drop (k - a) := by
  induction l generalizing a with
  | nil => simp
  | cons row l ih =>
    have hcons : f row :: l.map f = (a + 1) :: List.range' (a + 1 + 1) l.length := h
    obtain ⟨hrow, hrest⟩ := List.cons.inj hcons
    by_cases hk : k ≤ a
    · rw [Nat.sub_eq_zero_of_le hk, List.drop_zero, List.filter_cons_of_pos (by simp [hrow]; omega),
        ih hrest, Nat.sub_eq_zero_of_le (by omega), List.drop_zero]
    · have hnext : k - a = k - (a + 1) + 1 := by omega
      rw [List.filter_cons_of_neg (by simp [hrow]; omega), ih hrest, hnext, List.drop_succ_cons]

end Records

end ProxBack.Lib
