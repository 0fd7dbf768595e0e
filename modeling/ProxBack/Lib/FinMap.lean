import Mathlib.Data.List.AList

/-! Finite maps with non-dependent values, over association lists without
repeated keys. The order of the entries is the order a listing shows them in. -/
namespace ProxBack.Lib

abbrev FinMap (K V : Type) : Type := AList fun _ : K => V

namespace FinMap

variable {K V W : Type}

def mapVal (f : V → W) (m : FinMap K V) : FinMap K W where
  entries := m.entries.map fun e => ⟨e.1, f e.2⟩
  nodupKeys := by
    have h := m.nodupKeys
    simpa [List.NodupKeys, List.keys, Function.comp_def] using h

@[simp] theorem keys_mapVal (f : V → W) (m : FinMap K V) :
    (mapVal f m).keys = m.keys := by
  simp [AList.keys, mapVal, List.keys, Function.comp_def]

variable [DecidableEq K]

@[simp] theorem lookup_insert_ite (k a : K) (v : V) (m : FinMap K V) :
    (m.insert a v).lookup k = if k = a then some v else m.lookup k := by
  split
  · rename_i h
    rw [h, AList.lookup_insert]
  · rename_i h
    exact AList.lookup_insert_ne h

@[simp] theorem lookup_erase_ite (k a : K) (m : FinMap K V) :
    (m.erase a).lookup k = if k = a then none else m.lookup k := by
  split
  · rename_i h
    rw [h, AList.lookup_erase]
  · rename_i h
    exact AList.lookup_erase_ne h

theorem entries_perm_erase {m : FinMap K V} {k : K} {v : V} (h : m.lookup k = some v) :
    m.entries.Perm (⟨k, v⟩ :: (m.erase k).entries) := by
  obtain ⟨b, before, after, -, hentries, herase⟩ :=
    List.exists_of_kerase (AList.lookup_isSome.mp (Option.isSome_of_eq_some h))
  have hb : b = v := by
    have hmem : (⟨k, b⟩ : Sigma fun _ : K => V) ∈ m.entries := by
      rw [hentries]
      exact List.mem_append_right _ List.mem_cons_self
    exact Option.some.inj ((AList.mem_lookup_iff.mpr hmem).symm.trans h)
  show m.entries.Perm (⟨k, v⟩ :: List.kerase k m.entries)
  rw [herase, hentries, hb]
  exact List.perm_middle

@[simp] theorem lookup_mapVal (f : V → W) (m : FinMap K V) (k : K) :
    (mapVal f m).lookup k = (m.lookup k).map f := by
  obtain ⟨entries, nodup⟩ := m
  simp only [AList.lookup, mapVal]
  induction entries with
  | nil => rfl
  | cons e es ih =>
    obtain ⟨a, v⟩ := e
    by_cases h : k = a
    · subst h
      simp
    · simp only [List.map_cons]
      rw [List.dlookup_cons_ne _ _ h, List.dlookup_cons_ne _ _ h]
      exact ih (List.nodupKeys_of_nodupKeys_cons nodup)

theorem lookup_foldl_insert {updates : List (K × V)} {m : FinMap K V} {k : K} {v : Option V}
    (h : ∀ c ∈ updates, c.1 = k → some c.2 = v)
    (hv : (∃ c ∈ updates, c.1 = k) ∨ m.lookup k = v) :
    (updates.foldl (fun m c => m.insert c.1 c.2) m).lookup k = v := by
  induction updates generalizing m with
  | nil => exact hv.resolve_left fun ⟨_, hc, _⟩ => nomatch hc
  | cons c rest ih =>
    refine ih (fun c' hc' => h c' (List.mem_cons_of_mem _ hc')) ?_
    by_cases hk : c.1 = k
    · right
      rw [lookup_insert_ite, if_pos hk.symm]
      exact h c List.mem_cons_self hk
    · rcases hv with ⟨c', hc', hk'⟩ | hv
      · rcases List.mem_cons.mp hc' with rfl | hc'
        · exact absurd hk' hk
        · exact .inl ⟨c', hc', hk'⟩
      · right
        rw [lookup_insert_ite, if_neg fun heq => hk heq.symm, hv]

end FinMap

end ProxBack.Lib
