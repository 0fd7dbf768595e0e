import ProxBack.Agent.Exclusion
import ProxBack.Agent.Unarchive

/-! The archive as the list of its entries, each with the include path it comes from. -/
namespace ProxBack.Agent
open Lib Text Engine Tar

def Forest.names : Forest → List FileName
  | .nil => []
  | .file name _ _ rest | .passed name rest | .dir name _ _ rest => name :: rest.names

def Forest.Distinct : Forest → Prop
  | .nil => True
  | .file name _ _ rest | .passed name rest => name ∉ rest.names ∧ rest.Distinct
  | .dir name _ sub rest => name ∉ rest.names ∧ sub.Distinct ∧ rest.Distinct

structure Mount where
  stat : List Char → Option Node
  distinct : ∀ root info sub, stat root = some (.dir info sub) → sub.Distinct

def Node.entries : Node → List (Below × Kind)
  | .file info data => [([], .file info data)]
  | .dir info sub => ([], .dir info) :: sub.entries

def Kept (pf : Platform) (exclude : List (List Char)) (root : List Char) (x : Below) : Prop :=
  ∀ y, y ≠ [] → y <+: x → excluded pf exclude (candidates root y) = false

section Walked

variable {leave : Below → Bool} {above x y : Below} {k : Kind} {f : Forest}

theorem head_of_mem_walk (h : (x, k) ∈ walk leave above f) :
    ∃ name ∈ f.names, ∃ rest, x = above ++ name :: rest := by
  induction f generalizing above with
  | nil => cases h
  | passed name rest ih =>
    obtain ⟨name', hname, rest', rfl⟩ := ih h
    exact ⟨name', List.mem_cons_of_mem _ hname, rest', rfl⟩
  | file name info data rest ih =>
    rw [walk] at h
    split at h
    · obtain ⟨name', hname, rest', rfl⟩ := ih h
      exact ⟨name', List.mem_cons_of_mem _ hname, rest', rfl⟩
    · rcases List.mem_cons.mp h with heq | h
      · cases heq
        exact ⟨name, List.mem_cons_self, [], rfl⟩
      · obtain ⟨name', hname, rest', rfl⟩ := ih h
        exact ⟨name', List.mem_cons_of_mem _ hname, rest', rfl⟩
  | dir name info sub rest ihsub ih =>
    have hrest : (x, k) ∈ walk leave above rest → ∃ name' ∈ (Forest.dir name info sub rest).names,
        ∃ rest', x = above ++ name' :: rest' := by
      intro h
      obtain ⟨name', hname, rest', heq⟩ := ih h
      exact ⟨name', List.mem_cons_of_mem _ hname, rest', heq⟩
    rw [walk] at h
    split at h
    · exact hrest h
    · rcases List.mem_cons.mp h with heq | h
      · cases heq
        exact ⟨name, List.mem_cons_self, [], rfl⟩
      rcases List.mem_append.mp h with h | h
      · obtain ⟨name', -, rest', rfl⟩ := ihsub h
        exact ⟨name, List.mem_cons_self, name' :: rest', by rw [List.append_assoc, List.singleton_append]⟩
      · exact hrest h

theorem ne_of_names {name : FileName} {rest : Forest} (hname : name ∉ rest.names) {t : Below}
    (h : (y, k) ∈ walk leave above rest) : y ≠ above ++ name :: t := by
  rintro rfl
  obtain ⟨name', hmem, rest', heq⟩ := head_of_mem_walk h
  rw [(List.cons.inj (List.append_cancel_left heq)).1] at hname
  exact hname hmem

theorem walk_nodup (hf : f.Distinct) : ((walk leave above f).map Prod.fst).Nodup := by
  induction f generalizing above with
  | nil => exact List.nodup_nil
  | passed name rest ih => exact ih hf.2
  | file name info data rest ih =>
    rw [walk]
    split
    · exact ih hf.2
    · rw [List.map_cons, List.nodup_cons]
      refine ⟨fun hmem => ?_, ih hf.2⟩
      obtain ⟨⟨y, k⟩, hy, heq⟩ := List.mem_map.mp hmem
      exact ne_of_names hf.1 hy heq
  | dir name info sub rest ihsub ih =>
    obtain ⟨hname, hsub, hrest⟩ := hf
    rw [walk]
    split
    · exact ih hrest
    · rw [List.map_cons, List.nodup_cons]
      refine ⟨fun hmem => ?_, ?_⟩
      · obtain ⟨⟨y, k⟩, hy, heq⟩ := List.mem_map.mp hmem
        rcases List.mem_append.mp hy with hy | hy
        · obtain ⟨name', rest', hy'⟩ := below_of_mem_walk hy
          dsimp only at heq
          rw [hy'] at heq
          exact List.cons_ne_nil _ _ (List.append_right_eq_self.mp heq)
        · exact ne_of_names hname hy heq
      · rw [List.map_append, List.nodup_append]
        refine ⟨ihsub hsub, ih hrest, ?_⟩
        rintro y hy y' hy' rfl
        obtain ⟨⟨y₁, k₁⟩, hy₁, rfl⟩ := List.mem_map.mp hy
        obtain ⟨⟨y₂, k₂⟩, hy₂, heq⟩ := List.mem_map.mp hy'
        obtain ⟨name', rest', hy₁'⟩ := below_of_mem_walk hy₁
        dsimp only at heq
        rw [hy₁', List.append_assoc, List.singleton_append] at heq
        exact ne_of_names hname hy₂ heq

end Walked

section Rooted

variable {pf : Platform} {exclude : List (List Char)} {root : List Char} {x y : Below} {k : Kind} {node : Node}

@[simp] theorem mem_rootEntries : (x, k) ∈ rootEntries pf exclude root node ↔
    (x, k) ∈ node.entries ∧ Kept pf exclude root x := by
  have hnil : Kept pf exclude root [] := fun y hy hpre => absurd (List.prefix_nil.mp hpre) hy
  cases node with
  | file info data =>
    rw [rootEntries, Node.entries, List.mem_singleton]
    refine ⟨fun heq => ⟨heq, ?_⟩, fun h => h.1⟩
    cases heq
    exact hnil
  | dir info sub =>
    rw [rootEntries, walkRoot, Node.entries, List.mem_cons, List.mem_cons, mem_walk, or_and_right]
    refine or_congr ?_ ?_
    · refine ⟨fun heq => ⟨heq, ?_⟩, fun h => h.1⟩
      cases heq
      exact hnil
    · refine and_congr_right fun _ => ?_
      simp only [between_nil, Kept, and_imp]

theorem rootEntries_nodup (h : ∀ info sub, node = .dir info sub → sub.Distinct) :
    ((rootEntries pf exclude root node).map Prod.fst).Nodup := by
  cases node with
  | file info data => exact List.nodup_singleton _
  | dir info sub =>
    rw [rootEntries, walkRoot, List.map_cons, List.nodup_cons]
    refine ⟨fun hmem => ?_, walk_nodup (h info sub rfl)⟩
    obtain ⟨⟨y, k⟩, hy, heq⟩ := List.mem_map.mp hmem
    obtain ⟨name, rest, hy'⟩ := below_of_mem_walk hy
    dsimp only at heq
    rw [heq] at hy'
    cases hy'

theorem ancestor_of_rootEntries (h : (x, k) ∈ rootEntries pf exclude root node) (hpre : y <+: x) :
    ∃ k', (y, k') ∈ rootEntries pf exclude root node ∧ (y ≠ x → k'.isFile = false) := by
  obtain ⟨hx, hkept⟩ := mem_rootEntries.mp h
  have hkept' : Kept pf exclude root y := fun z hz hpre' => hkept z hz (hpre'.trans hpre)
  cases node with
  | file info data =>
    obtain rfl : x = [] := (Prod.mk.inj (List.mem_singleton.mp hx)).1
    obtain rfl := List.prefix_nil.mp hpre
    exact ⟨k, h, fun hne => absurd rfl hne⟩
  | dir info sub =>
    by_cases hy : y = []
    · subst hy
      exact ⟨.dir info, List.mem_cons_self, fun _ => rfl⟩
    rcases List.mem_cons.mp hx with heq | hx
    · cases heq
      exact absurd (List.prefix_nil.mp hpre) hy
    · obtain ⟨k', hentry, hkind⟩ := ancestor_of_mem hx (between_nil.mpr ⟨hy, hpre⟩)
      exact ⟨k', mem_rootEntries.mpr ⟨List.mem_cons_of_mem _ hentry, hkept'⟩, hkind⟩

theorem file_not_above {info : Info} {data : Bytes} (hdistinct : ∀ info sub, node = .dir info sub → sub.Distinct)
    (hx : (x, .file info data) ∈ rootEntries pf exclude root node)
    (hy : (y, k) ∈ rootEntries pf exclude root node) (hne : x ≠ y) : ¬ x <+: y := by
  intro hpre
  obtain ⟨k', hdir, hkind⟩ := ancestor_of_rootEntries hy hpre
  have hsame := List.inj_on_of_nodup_map (rootEntries_nodup hdistinct) hx hdir rfl
  have hfile := hkind hne
  rw [← (Prod.mk.inj hsame).2] at hfile
  cases hfile

end Rooted

section Whole

variable {pf : Platform} {clean : List Char → List Char} {m : Mount} {exclude paths : List (List Char)}

def archivedAt (pf : Platform) (clean : List Char → List Char) (m : Mount) (exclude : List (List Char))
    (p : List Char) : List (List Char × (Below × Kind)) :=
  match m.stat (clean p) with
  | none => []
  | some node => (rootEntries pf exclude (archivePrefix pf (clean p)) node).map fun e => (clean p, e)

def archived (pf : Platform) (clean : List Char → List Char) (m : Mount) (exclude paths : List (List Char)) :
    List (List Char × (Below × Kind)) := paths.flatMap (archivedAt pf clean m exclude)

theorem archivedAt_some {p : List Char} {node : Node} (h : m.stat (clean p) = some node) :
    archivedAt pf clean m exclude p =
      (rootEntries pf exclude (archivePrefix pf (clean p)) node).map fun e => (clean p, e) := by
  rw [archivedAt, h]

@[simp] theorem archived_cons (p : List Char) : archived pf clean m exclude (p :: paths) =
    archivedAt pf clean m exclude p ++ archived pf clean m exclude paths := rfl

def entryOf (pf : Platform) (e : List Char × (Below × Kind)) : Entry :=
  (archivePrefix pf e.1 :: segments e.2.1, e.2.2)

/-- Nothing that `writeTar` refuses. -/
def Readable (clean : List Char → List Char) (m : Mount) (paths : List (List Char)) : Prop :=
  ∀ p ∈ paths, trimSpace p ≠ [] ∧ (m.stat (clean p)).isSome

instance : Decidable (Readable clean m paths) := inferInstanceAs (Decidable (∀ _ ∈ _, _))

theorem writeTar_eq (h : Readable clean m paths) :
    writeTar pf clean m.stat exclude paths =
      .ok (((archived pf clean m exclude paths).map (entryOf pf)).map itemOf) := by
  induction paths with
  | nil => rfl
  | cons p paths ih =>
    obtain ⟨hblank, hstat⟩ := h p List.mem_cons_self
    obtain ⟨node, hnode⟩ := Option.isSome_iff_exists.mp hstat
    have hitems : ∀ es : List (Below × Kind), es.map (addEntry (archivePrefix pf (clean p))) =
        ((es.map fun e => (clean p, e)).map (entryOf pf)).map itemOf := by
      intro es
      rw [List.map_map, List.map_map]
      exact List.map_congr_left fun e _ => addEntry_eq _ e.1 e.2
    rw [writeTar, if_neg hblank]
    dsimp only
    rw [hnode]
    dsimp only
    rw [ih fun q hq => h q (List.mem_cons_of_mem _ hq), archived_cons, archivedAt_some hnode]
    dsimp only
    rw [hitems, List.map_append, List.map_append]

theorem readable_of_writeTar {its : List Item} (h : writeTar pf clean m.stat exclude paths = .ok its) :
    Readable clean m paths := by
  induction paths generalizing its with
  | nil => nofun
  | cons p paths ih =>
    rw [writeTar] at h
    split at h
    · cases h
    rename_i hblank
    dsimp only at h
    split at h
    · cases h
    rename_i node hnode
    split at h
    · cases h
    rename_i rest hrest
    exact List.forall_mem_cons.mpr ⟨⟨hblank, by rw [hnode]; rfl⟩, ih hrest⟩

@[simp] theorem mem_archivedAt {root p : List Char} {e : Below × Kind} :
    (root, e) ∈ archivedAt pf clean m exclude p ↔
      clean p = root ∧ ∃ node, m.stat root = some node ∧
        e ∈ rootEntries pf exclude (archivePrefix pf root) node := by
  constructor
  · intro h
    cases hnode : m.stat (clean p) with
    | none =>
      rw [archivedAt, hnode] at h
      cases h
    | some node =>
      rw [archivedAt_some hnode] at h
      obtain ⟨e', he', heq⟩ := List.mem_map.mp h
      obtain ⟨rfl, rfl⟩ := Prod.mk.inj heq
      exact ⟨rfl, node, hnode, he'⟩
  · rintro ⟨rfl, node, hnode, he⟩
    rw [archivedAt_some hnode]
    exact List.mem_map_of_mem he

@[simp] theorem mem_archived {root : List Char} {e : Below × Kind} :
    (root, e) ∈ archived pf clean m exclude paths ↔
      ∃ p ∈ paths, clean p = root ∧ ∃ node, m.stat root = some node ∧
        e ∈ rootEntries pf exclude (archivePrefix pf root) node := by
  rw [archived, List.mem_flatMap]
  simp only [mem_archivedAt]

theorem distinct_of_stat {root : List Char} {node : Node} (h : m.stat root = some node) (info : Info)
    (sub : Forest) (hnode : node = .dir info sub) : sub.Distinct :=
  m.distinct root info sub (hnode ▸ h)

theorem archived_nodup (hroots : (paths.map clean).Nodup) :
    ((archived pf clean m exclude paths).map fun e => (e.1, e.2.1)).Nodup := by
  induction paths with
  | nil => exact List.nodup_nil
  | cons p paths ih =>
    rw [List.map_cons, List.nodup_cons] at hroots
    rw [archived_cons, List.map_append, List.nodup_append]
    refine ⟨?_, ih hroots.2, ?_⟩
    · cases hnode : m.stat (clean p) with
      | none =>
        rw [archivedAt, hnode]
        exact List.nodup_nil
      | some node =>
        have honce : ((rootEntries pf exclude (archivePrefix pf (clean p)) node).map Prod.fst).Nodup :=
          rootEntries_nodup (distinct_of_stat hnode)
        have hpairs : ((rootEntries pf exclude (archivePrefix pf (clean p)) node).map
            fun e => (clean p, e.1)).Nodup := by
          have hmap := honce.map (f := fun x => (clean p, x)) fun a b heq => (Prod.mk.inj heq).2
          rwa [List.map_map] at hmap
        rw [archivedAt_some hnode, List.map_map]
        exact hpairs
    · rintro c hc c' hc' rfl
      obtain ⟨⟨root, e⟩, he, rfl⟩ := List.mem_map.mp hc
      obtain ⟨⟨root', e'⟩, he', heq⟩ := List.mem_map.mp hc'
      obtain ⟨rfl, -⟩ := Prod.mk.inj heq
      obtain ⟨hroot, -⟩ := mem_archivedAt.mp he
      obtain ⟨q, hq, hclean, -⟩ := mem_archived.mp he'
      refine hroots.1 ?_
      rw [hroot, ← hclean]
      exact List.mem_map_of_mem hq

end Whole

end ProxBack.Agent
