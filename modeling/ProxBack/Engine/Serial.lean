import ProxBack.Engine.Pipeline
import ProxBack.Engine.GcExact
import Mathlib.Algebra.BigOperators.Group.Finset.Basic
import Mathlib.Algebra.BigOperators.Ring.Finset
import Mathlib.Data.Set.Function
import Mathlib.Tactic.Ring

/-! The serial run that stores the chunks one at a time in order, and why its
counters do not depend on which of several equal chunks gets the upload. -/
namespace ProxBack.Engine
open Lib Prog
open scoped BigOperators

def storeSerial (e : Engine) (name : String) :
    List Bytes → List Chunk → Stats → EngineM (Except Err DiskManifest × Stats)
  | [], chunks, st => .ret (streamResult name none none chunks, st)
  | d :: rest, chunks, st =>
    e.putChunk (e.hash d) d >>= fun
    | .error err => .ret (.error (.storeChunk chunks.length name err), st)
    | .ok uploaded =>
      e.storeSerial name rest (chunks ++ [⟨e.hash d, d.length⟩]) (st.record d.length uploaded)

/-- The counters after the chunks at the positions of `S`, with the given sizes
and uploaded bytes. -/
def Stats.plus (st : Stats) (S : Finset Nat) (size uploaded : Nat → Nat) : Stats where
  bytesProcessed := st.bytesProcessed + ∑ k ∈ S, size k
  bytesUploaded := st.bytesUploaded + ∑ k ∈ S, uploaded k
  bytesDeduped := st.bytesDeduped + ∑ k ∈ S, if 0 < uploaded k then 0 else size k
  chunksTotal := st.chunksTotal + S.card
  chunksUploaded := st.chunksUploaded + ∑ k ∈ S, if 0 < uploaded k then 1 else 0
  chunksDeduped := st.chunksDeduped + ∑ k ∈ S, if 0 < uploaded k then 0 else 1

@[simp] theorem Stats.plus_empty (st : Stats) (size uploaded : Nat → Nat) :
    st.plus ∅ size uploaded = st := by
  simp [Stats.plus]

theorem Stats.plus_record (st : Stats) {S : Finset Nat} {k : Nat} (hk : k ∉ S)
    (size uploaded : Nat → Nat) :
    (st.plus S size uploaded).record (size k) (uploaded k) =
      st.plus (insert k S) size uploaded := by
  unfold Stats.record Stats.plus
  simp only [Finset.sum_insert hk, Finset.card_insert_of_notMem hk]
  by_cases hup : 0 < uploaded k
  · simp only [hup, if_true, Stats.mk.injEq]
    omega
  · simp only [hup, if_false, Stats.mk.injEq]
    omega

theorem Stats.plus_congr (st : Stats) {S : Finset Nat} {size uploaded uploaded' : Nat → Nat}
    (h : ∀ k ∈ S, uploaded k = uploaded' k) :
    st.plus S size uploaded = st.plus S size uploaded' := by
  have hsum : ∀ f : Nat → Nat → Nat,
      ∑ k ∈ S, f k (uploaded k) = ∑ k ∈ S, f k (uploaded' k) := fun f =>
    Finset.sum_congr rfl fun k hk => by rw [h k hk]
  unfold Stats.plus
  rw [hsum fun _ u => u, hsum fun k u => if 0 < u then 0 else size k,
    hsum fun _ u => if 0 < u then 1 else 0, hsum fun _ u => if 0 < u then 0 else 1]

def unitAt (units : List Bytes) (k : Nat) : Bytes := units[k]?.getD []

theorem unitAt_eq {units : List Bytes} {k : Nat} {d : Bytes} (h : units[k]? = some d) :
    unitAt units k = d := by
  rw [unitAt, h, Option.getD_some]

/-- Of the units with a hash the target did not have, exactly one is credited with
the upload, and the others with nothing. -/
structure Fair (e : Engine) (t : Target) (units : List Bytes) (credit : Nat → Nat) : Prop where
  amount : ∀ k, k < units.length → 0 < credit k →
    credit k = (e.body (unitAt units k)).length ∧ ¬ t.Present (e.hash (unitAt units k))
  once : ∀ k l, k < units.length → l < units.length → 0 < credit k → 0 < credit l →
    e.hash (unitAt units k) = e.hash (unitAt units l) → k = l
  some : ∀ k, k < units.length → ¬ t.Present (e.hash (unitAt units k)) →
    ∃ l, l < units.length ∧ 0 < credit l ∧
      e.hash (unitAt units l) = e.hash (unitAt units k)

section Fair

variable {e : Engine} {t : Target} {units : List Bytes} {credit credit' : Nat → Nat}

theorem unitAt_mem {k : Nat} (hk : k < units.length) : unitAt units k ∈ units := by
  rw [unitAt_eq (List.getElem?_eq_getElem hk)]
  exact List.getElem_mem hk

def credited (units : List Bytes) (credit : Nat → Nat) : Finset Nat :=
  (Finset.range units.length).filter fun k => 0 < credit k

theorem Fair.image_subset (h : Fair e t units credit) (h' : Fair e t units credit')
    (hinj : Set.InjOn e.hash {d | d ∈ units}) :
    (credited units credit).image (unitAt units) ⊆
      (credited units credit').image (unitAt units) := by
  intro d hd
  obtain ⟨k, hk, rfl⟩ := Finset.mem_image.mp hd
  obtain ⟨hlt, hpos⟩ := Finset.mem_filter.mp hk
  have hlt := Finset.mem_range.mp hlt
  obtain ⟨l, hl, hlpos, hhash⟩ := h'.some k hlt (h.amount k hlt hpos).2
  have hsame : unitAt units l = unitAt units k := hinj (unitAt_mem hl) (unitAt_mem hlt) hhash
  exact Finset.mem_image.mpr
    ⟨l, Finset.mem_filter.mpr ⟨Finset.mem_range.mpr hl, hlpos⟩, hsame⟩

/-- A sum over the units is what they give uncredited, and the difference an
upload makes for each new one. -/
theorem Fair.sum_eq (h : Fair e t units credit) (f : Bytes → Nat → Nat) :
    ((∑ k ∈ Finset.range units.length, f (unitAt units k) (credit k) : Nat) : Int) =
      ∑ k ∈ Finset.range units.length, (f (unitAt units k) 0 : Int) +
        ∑ d ∈ (credited units credit).image (unitAt units),
          ((f d (e.body d).length : Int) - f d 0) := by
  have hinj : Set.InjOn (unitAt units) (credited units credit) := by
    intro k hk l hl heq
    obtain ⟨hklt, hkpos⟩ := Finset.mem_filter.mp hk
    obtain ⟨hllt, hlpos⟩ := Finset.mem_filter.mp hl
    exact h.once k l (Finset.mem_range.mp hklt) (Finset.mem_range.mp hllt) hkpos hlpos
      (by rw [heq])
  rw [Finset.sum_image hinj, credited, Finset.sum_filter, ← Finset.sum_add_distrib,
    Nat.cast_sum]
  apply Finset.sum_congr rfl
  intro k hk
  by_cases hpos : 0 < credit k
  · rw [if_pos hpos, (h.amount k (Finset.mem_range.mp hk) hpos).1]
    ring
  · have hzero : credit k = 0 := by omega
    rw [if_neg hpos, hzero, add_zero]

theorem Fair.sum_congr (h : Fair e t units credit) (h' : Fair e t units credit')
    (hinj : Set.InjOn e.hash {d | d ∈ units}) (f : Bytes → Nat → Nat) :
    ∑ k ∈ Finset.range units.length, f (unitAt units k) (credit k) =
      ∑ k ∈ Finset.range units.length, f (unitAt units k) (credit' k) := by
  have himage := Finset.Subset.antisymm (h.image_subset h' hinj) (h'.image_subset h hinj)
  have hsum := h.sum_eq f
  rw [himage, ← h'.sum_eq f] at hsum
  exact_mod_cast hsum

theorem Fair.plus_congr (h : Fair e t units credit) (h' : Fair e t units credit')
    (hinj : Set.InjOn e.hash {d | d ∈ units}) (st : Stats) :
    st.plus (Finset.range units.length) (fun k => (unitAt units k).length) credit =
      st.plus (Finset.range units.length) (fun k => (unitAt units k).length) credit' := by
  unfold Stats.plus
  rw [h.sum_congr h' hinj fun _ u => u, h.sum_congr h' hinj fun d u => if 0 < u then 0 else d.length,
    h.sum_congr h' hinj fun _ u => if 0 < u then 1 else 0,
    h.sum_congr h' hinj fun _ u => if 0 < u then 0 else 1]

end Fair

section Run

variable {e : Engine} {t : Target}

/-- One undisturbed `putChunk`: the chunk is there afterwards, and bytes were sent
exactly when it was not there before. -/
theorem run_putChunk (e : Engine) (now : Time) {t : Target} (ht : t.Sound) (sha : Sha)
    (data : Bytes) :
    ∃ t', run (Target.alone now) (e.putChunk sha data) t =
        (.ok (if t.Present sha then 0 else (e.body data).length), t') ∧
      t'.Sound ∧ ∀ a, t'.Present a ↔ t.Present a ∨ a = sha := by
  have hhas : Target.alone now (.hasChunk sha) t = (.ok (t.index.lookup sha).isSome, t) := rfl
  have hhead : Target.alone now (.head sha) t =
      (.ok ((t.chunks.lookup sha).map fun o => o.data.length), t) := rfl
  unfold putChunk
  rw [run_call, hhas]
  dsimp only
  cases hidx : (t.index.lookup sha).isSome with
  | true =>
    have hpresent : t.Present sha := ht sha hidx
    refine ⟨t, ?_, ht, fun a => ?_⟩
    · rw [run_ret, if_pos hpresent]
    · exact ⟨.inl, fun h => h.elim id fun ha => ha ▸ hpresent⟩
  | false =>
    rw [run_call, hhead]
    dsimp only
    cases hobj : t.chunks.lookup sha with
    | some o =>
      have hpresent : t.Present sha := by rw [Target.Present, hobj]; rfl
      refine ⟨t.addRow sha data.length now, ?_, ?_, fun a => ?_⟩
      · rw [if_pos hpresent]
        rfl
      · intro a ha
        rcases (t.indexed_addRow a sha _ _).mp ha with rfl | ha
        · exact hpresent
        · exact ht a ha
      · rw [t.present_addRow]
        exact ⟨.inl, fun h => h.elim id fun ha => ha ▸ hpresent⟩
    | none =>
      have hmiss : ¬ t.Present sha := by rw [Target.Present, hobj]; simp
      refine ⟨(t.putObject sha (e.body data) 0).addRow sha data.length now, ?_, ?_, fun a => ?_⟩
      · rw [if_neg hmiss]
        rfl
      · intro a ha
        rw [Target.present_addRow, t.present_putObject]
        rcases (Target.indexed_addRow _ a sha _ _).mp ha with rfl | ha
        · exact .inl rfl
        · exact .inr (ht a ha)
      · rw [Target.present_addRow, t.present_putObject]
        exact or_comm

def serialCredit (e : Engine) (t : Target) (units : List Bytes) (k : Nat) : Nat :=
  if t.Present (e.hash (unitAt units k)) ∨
      ∃ l < k, e.hash (unitAt units l) = e.hash (unitAt units k) then 0
  else (e.body (unitAt units k)).length

variable {units : List Bytes}

theorem serialCredit_pos {k : Nat} (h : 0 < serialCredit e t units k) :
    serialCredit e t units k = (e.body (unitAt units k)).length ∧
      ¬ t.Present (e.hash (unitAt units k)) ∧
      ∀ l < k, e.hash (unitAt units l) ≠ e.hash (unitAt units k) := by
  unfold serialCredit at h ⊢
  split at h
  · exact absurd h (Nat.lt_irrefl 0)
  · rename_i hnew
    rw [if_neg hnew]
    rw [not_or] at hnew
    exact ⟨rfl, hnew.1, fun l hl heq => hnew.2 ⟨l, hl, heq⟩⟩

theorem serialCredit_fair (hne : ∀ d ∈ units, d ≠ []) :
    Fair e t units (serialCredit e t units) where
  amount k _ hpos := ⟨(serialCredit_pos hpos).1, (serialCredit_pos hpos).2.1⟩
  once k l _ _ hk hl heq := by
    rcases Nat.lt_trichotomy k l with hlt | rfl | hlt
    · exact absurd heq ((serialCredit_pos hl).2.2 k hlt)
    · rfl
    · exact absurd heq.symm ((serialCredit_pos hk).2.2 l hlt)
  some k hk hmiss := by
    have hex : ∃ l, e.hash (unitAt units l) = e.hash (unitAt units k) := ⟨k, rfl⟩
    have hfind := Nat.find_spec hex
    have hlt : Nat.find hex < units.length := Nat.lt_of_le_of_lt (Nat.find_le rfl) hk
    refine ⟨Nat.find hex, hlt, ?_, hfind⟩
    unfold serialCredit
    rw [if_neg]
    · apply List.length_pos_of_ne_nil
      exact e.body_ne_nil (hne _ (unitAt_mem hlt))
    · rintro (hpresent | ⟨l, hl, heq⟩)
      · rw [hfind] at hpresent
        exact hmiss hpresent
      · exact Nat.find_min hex hl (heq.trans hfind)

theorem run_storeSerial_from (name : String) (st : Stats) (now : Time) {t₀ : Target}
    (pre rest : List Bytes) (hunits : units = pre ++ rest) (ht : t.Sound)
    (hpresent : ∀ a, t.Present a ↔ t₀.Present a ∨ ∃ k < pre.length, a = e.hash (unitAt units k)) :
    ∃ t', run (Target.alone now) (e.storeSerial name rest (pre.map fun d => ⟨e.hash d, d.length⟩)
        (st.plus (Finset.range pre.length) (fun k => (unitAt units k).length)
          (serialCredit e t₀ units))) t =
      ((streamResult name none none (units.map fun d => ⟨e.hash d, d.length⟩),
        st.plus (Finset.range units.length) (fun k => (unitAt units k).length)
          (serialCredit e t₀ units)), t') := by
  induction rest generalizing pre t with
  | nil =>
    rw [List.append_nil] at hunits
    rw [hunits]
    exact ⟨t, rfl⟩
  | cons d rest ih =>
    have hd : unitAt units pre.length = d := by
      apply unitAt_eq
      rw [hunits]
      simp
    obtain ⟨t₁, hput, ht₁, hpresent₁⟩ := run_putChunk e now ht (e.hash d) d
    have hcredit : (if t.Present (e.hash d) then 0 else (e.body d).length) =
        serialCredit e t₀ units pre.length := by
      unfold serialCredit
      rw [hd]
      have hiff : t.Present (e.hash d) ↔ (t₀.Present (e.hash d) ∨
          ∃ l < pre.length, e.hash (unitAt units l) = e.hash d) := by
        rw [hpresent]
        simp only [eq_comm]
      by_cases hthere : t.Present (e.hash d)
      · rw [if_pos hthere, if_pos (hiff.mp hthere)]
      · rw [if_neg hthere, if_neg fun h => hthere (hiff.mpr h)]
    have hstats : (st.plus (Finset.range pre.length) (fun k => (unitAt units k).length)
          (serialCredit e t₀ units)).record d.length (serialCredit e t₀ units pre.length) =
        st.plus (Finset.range (pre ++ [d]).length) (fun k => (unitAt units k).length)
          (serialCredit e t₀ units) := by
      have hrecord := st.plus_record (S := Finset.range pre.length) (k := pre.length)
        Finset.notMem_range_self (fun k => (unitAt units k).length) (serialCredit e t₀ units)
      rw [hd] at hrecord
      rw [hrecord, ← Finset.range_add_one, List.length_append, List.length_singleton]
    obtain ⟨t', hrest⟩ := ih (pre ++ [d]) (by rw [hunits, List.append_assoc]; rfl) ht₁ (by
      intro a
      rw [hpresent₁, hpresent, List.length_append, List.length_singleton, or_assoc]
      apply or_congr_right
      constructor
      · rintro (⟨k, hk, rfl⟩ | rfl)
        · exact ⟨k, Nat.lt_succ_of_lt hk, rfl⟩
        · exact ⟨pre.length, Nat.lt_succ_self _, by rw [hd]⟩
      · rintro ⟨k, hk, rfl⟩
        by_cases hkp : k = pre.length
        · right
          rw [hkp, hd]
        · exact .inl ⟨k, by omega, rfl⟩)
    refine ⟨t', ?_⟩
    rw [storeSerial, run_bind, hput, hcredit]
    dsimp only
    rw [hstats]
    rw [List.map_append] at hrest
    exact hrest

theorem run_storeSerial (e : Engine) (name : String) (units : List Bytes) (st : Stats)
    (now : Time) {t : Target} (ht : t.Sound) :
    (run (Target.alone now) (e.storeSerial name units [] st) t).1 =
      (streamResult name none none (units.map fun d => ⟨e.hash d, d.length⟩),
        st.plus (Finset.range units.length) (fun k => (unitAt units k).length)
          (serialCredit e t units)) := by
  have hnone : ∀ a, t.Present a ↔
      t.Present a ∨ ∃ k < ([] : List Bytes).length, a = e.hash (unitAt units k) := by simp
  obtain ⟨t', hrun⟩ := run_storeSerial_from name st now [] units (List.nil_append units).symm ht hnone
  rw [List.map_nil, List.length_nil, Finset.range_zero, Stats.plus_empty] at hrun
  rw [hrun]

end Run

end ProxBack.Engine
