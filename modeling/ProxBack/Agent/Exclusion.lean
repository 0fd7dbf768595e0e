import ProxBack.Agent.Spanning

/-! The agent leaves out what the server's rule says, as long as no pattern and no name is one that
the two read differently. -/
namespace ProxBack.Agent
open Lib Glob Text
open Store (doubleStar globText matchSegments validateGlob)

theorem below_of_mem_walk {leave : Below → Bool} {above x : Below} {k : Kind} {f : Forest}
    (h : (x, k) ∈ walk leave above f) : ∃ name rest, x = above ++ name :: rest := by
  induction f generalizing above with
  | nil => cases h
  | passed name rest ih => exact ih h
  | file name info data rest ih =>
    rw [walk] at h
    split at h
    · exact ih h
    · rcases List.mem_cons.mp h with heq | h
      · cases heq
        exact ⟨name, [], rfl⟩
      · exact ih h
  | dir name info sub rest ihsub ih =>
    rw [walk] at h
    split at h
    · exact ih h
    · rcases List.mem_cons.mp h with heq | h
      · cases heq
        exact ⟨name, [], rfl⟩
      rcases List.mem_append.mp h with h | h
      · obtain ⟨name', rest', rfl⟩ := ihsub h
        exact ⟨name, name' :: rest', by rw [List.append_assoc, List.singleton_append]⟩
      · exact ih h

def Between (above y x : Below) : Prop := (∃ name rest, y = above ++ name :: rest) ∧ y <+: x

theorem between_concat {above y : Below} {name : FileName} (h : Between above y (above ++ [name])) :
    y = above ++ [name] := by
  obtain ⟨⟨name', rest, rfl⟩, hpre⟩ := h
  obtain ⟨t, ht⟩ := hpre
  rw [List.append_assoc] at ht
  have hcancel := List.append_cancel_left ht
  rw [List.cons_append, List.cons.injEq, List.append_eq_nil_iff] at hcancel
  rw [hcancel.1, hcancel.2.1]

theorem between_dir {above y x : Below} {name : FileName} (hx : above ++ [name] <+: x)
    (h : Between above y x) : y = above ++ [name] ∨ Between (above ++ [name]) y x := by
  obtain ⟨⟨name', rest, rfl⟩, hpre⟩ := h
  have hhere : above ++ [name'] = above ++ [name] := by
    have hpre' : above ++ [name'] <+: x := by
      refine List.IsPrefix.trans ⟨rest, ?_⟩ hpre
      rw [List.append_assoc, List.singleton_append]
    have hlen : (above ++ [name']).length = (above ++ [name]).length := by
      rw [List.length_append, List.length_append]
      rfl
    exact (List.prefix_of_prefix_length_le hpre' hx hlen.le).eq_of_length hlen
  cases rest with
  | nil => exact .inl hhere
  | cons next rest =>
    refine .inr ⟨⟨next, rest, ?_⟩, hpre⟩
    rw [← hhere, List.append_assoc, List.singleton_append]

@[simp]
theorem walk_all_file (above : Below) (name : FileName) (info : Info) (data : Engine.Bytes) (rest : Forest) :
    walk (fun _ => false) above (.file name info data rest) =
      (above ++ [name], .file info data) :: walk (fun _ => false) above rest := rfl

@[simp] theorem walk_all_dir (above : Below) (name : FileName) (info : Info) (sub rest : Forest) :
    walk (fun _ => false) above (.dir name info sub rest) =
      (above ++ [name], .dir info) ::
        (walk (fun _ => false) (above ++ [name]) sub ++ walk (fun _ => false) above rest) := rfl

theorem mem_walk {leave : Below → Bool} {above x : Below} {k : Kind} {f : Forest} :
    (x, k) ∈ walk leave above f ↔
      (x, k) ∈ walk (fun _ => false) above f ∧ ∀ y, Between above y x → leave y = false := by
  induction f generalizing above with
  | nil => exact iff_of_false nofun fun h => nomatch h.1
  | passed name rest ih => exact ih
  | file name info data rest ih =>
    have hself : Between above (above ++ [name]) (above ++ [name]) := ⟨⟨name, [], rfl⟩, List.prefix_rfl⟩
    rw [walk_all_file, walk]
    by_cases hleave : leave (above ++ [name])
    · rw [if_pos hleave, ih, List.mem_cons, or_and_right]
      refine (or_iff_right ?_).symm
      rintro ⟨heq, hall⟩
      cases heq
      rw [hall _ hself] at hleave
      cases hleave
    · rw [if_neg hleave, List.mem_cons, List.mem_cons, ih, or_and_right]
      refine or_congr_left ?_
      refine ⟨fun heq => ⟨heq, ?_⟩, fun h => h.1⟩
      cases heq
      intro y hy
      rw [between_concat hy]
      simpa using hleave
  | dir name info sub rest ihsub ih =>
    rw [walk_all_dir, walk]
    have hdown : ∀ {leave' : Below → Bool}, (x, k) ∈ walk leave' (above ++ [name]) sub →
        above ++ [name] <+: x := by
      intro leave' h
      obtain ⟨name', rest', rfl⟩ := below_of_mem_walk h
      exact List.prefix_append _ _
    by_cases hleave : leave (above ++ [name])
    · rw [if_pos hleave, ih, List.mem_cons, List.mem_append, ← or_assoc, or_and_right]
      refine (or_iff_right ?_).symm
      rintro ⟨hthere, hall⟩
      have hx : above ++ [name] <+: x := by
        rcases hthere with heq | hsub
        · cases heq
          exact List.prefix_rfl
        · exact hdown hsub
      rw [hall _ ⟨⟨name, [], rfl⟩, hx⟩] at hleave
      cases hleave
    · rw [if_neg hleave, List.mem_cons, List.mem_cons, List.mem_append, List.mem_append, ih, ihsub,
        or_and_right, or_and_right]
      have hhere : leave (above ++ [name]) = false := by simpa using hleave
      refine or_congr ?_ (or_congr_left ?_)
      · refine ⟨fun heq => ⟨heq, ?_⟩, fun h => h.1⟩
        cases heq
        intro y hy
        rw [between_concat hy]
        exact hhere
      · refine and_congr_right fun hsub => ⟨fun hall y hy => ?_, fun hall y hy => hall y ?_⟩
        · rcases between_dir (hdown hsub) hy with rfl | hy
          · exact hhere
          · exact hall y hy
        · obtain ⟨⟨name', rest', rfl⟩, hpre⟩ := hy
          exact ⟨⟨name, name' :: rest', by rw [List.append_assoc, List.singleton_append]⟩, hpre⟩

theorem ancestor_of_mem {above x y : Below} {k : Kind} {f : Forest}
    (h : (x, k) ∈ walk (fun _ => false) above f) (hy : Between above y x) :
    ∃ k', (y, k') ∈ walk (fun _ => false) above f ∧ (y ≠ x → k'.isFile = false) := by
  induction f generalizing above with
  | nil => cases h
  | passed name rest ih => exact ih h hy
  | file name info data rest ih =>
    rw [walk_all_file] at h ⊢
    rcases List.mem_cons.mp h with heq | h
    · cases heq
      obtain rfl := between_concat hy
      exact ⟨_, List.mem_cons_self, fun hne => absurd rfl hne⟩
    · obtain ⟨k', hk', hkind⟩ := ih h hy
      exact ⟨k', List.mem_cons_of_mem _ hk', hkind⟩
  | dir name info sub rest ihsub ih =>
    rw [walk_all_dir] at h ⊢
    rcases List.mem_cons.mp h with heq | h
    · cases heq
      obtain rfl := between_concat hy
      exact ⟨_, List.mem_cons_self, fun hne => absurd rfl hne⟩
    rcases List.mem_append.mp h with h | h
    · have hx : above ++ [name] <+: x := by
        obtain ⟨name', rest', rfl⟩ := below_of_mem_walk h
        exact List.prefix_append _ _
      rcases between_dir hx hy with rfl | hy
      · exact ⟨_, List.mem_cons_self, fun _ => rfl⟩
      · obtain ⟨k', hk', hkind⟩ := ihsub h hy
        exact ⟨k', List.mem_cons_of_mem _ (List.mem_append_left _ hk'), hkind⟩
    · obtain ⟨k', hk', hkind⟩ := ih h hy
      exact ⟨k', List.mem_cons_of_mem _ (List.mem_append_right _ hk'), hkind⟩

def candidateSegments (root : List Char) (x : Below) : List (List (List Char)) :=
  [root :: segments x, segments x, [baseName x]]

@[grind =] theorem candidates_eq (root : List Char) (x : Below) :
    candidates root x = (candidateSegments root x).map joined := by
  simp only [candidates, candidateSegments, List.map_cons, List.map_nil, joined_singleton, archiveName, relName]

theorem segments_named (x : Below) : Named (segments x) := by
  intro seg hseg
  obtain ⟨name, -, rfl⟩ := List.mem_map.mp hseg
  exact ⟨name.nonempty, name.no_slash⟩

theorem baseName_mem {x : Below} (h : x ≠ []) : baseName x ∈ segments x := by
  have hne : segments x ≠ [] := by simpa [segments] using h
  rw [baseName, List.getLastD_eq_getLast?, List.getLast?_eq_some_getLast hne]
  exact List.getLast_mem hne

section Names

variable {root : List Char} {x : Below} {ns : List (List Char)}

theorem mem_candidateSegments (hx : x ≠ []) (h : ns ∈ candidateSegments root x) :
    ns ≠ [] ∧ ∀ seg ∈ ns, seg = root ∨ seg ∈ segments x := by
  rcases List.mem_cons.mp h with rfl | h
  · exact ⟨List.cons_ne_nil _ _, fun seg hseg => List.mem_cons.mp hseg⟩
  rcases List.mem_cons.mp h with rfl | h
  · exact ⟨by simpa [segments] using hx, fun seg hseg => .inr hseg⟩
  rw [List.mem_singleton.mp h]
  refine ⟨List.cons_ne_nil _ _, fun seg hseg => .inr ?_⟩
  rw [List.mem_singleton.mp hseg]
  exact baseName_mem hx

theorem candidateSegments_slash (hslash : '/' ∉ root) (hx : x ≠ []) (hns : ns ∈ candidateSegments root x) :
    ∀ seg ∈ ns, '/' ∉ seg := by
  intro seg hseg
  rcases (mem_candidateSegments hx hns).2 seg hseg with rfl | hseg
  · exact hslash
  · exact (segments_named x seg hseg).2

theorem globText_joined (hnamed : Named ns) (hback : ∀ seg ∈ ns, '\\' ∉ seg) :
    globText (joined ns) = joined ns := by
  have hmem : '\\' ∉ joined ns := by
    intro h
    rcases mem_joined h with h | ⟨seg, hseg, h⟩
    · cases h
    · exact hback seg hseg h
  rw [globText, toSlashes_of_not_mem hmem]
  refine trimOf_of_ends (fun c hc => ?_) fun c hc => ?_
  · simpa using joined_head hnamed c hc
  · simpa using joined_last hnamed c hc

theorem store_matchGlob (hnamed : Named ns) (hne : ns ≠ []) (hback : ∀ seg ∈ ns, '\\' ∉ seg)
    (pattern : List Char) :
    Store.matchGlob pattern (joined ns) = matchSegments ((globText pattern).splitOn '/') ns := by
  rw [Store.matchGlob, globText_joined hnamed hback, splitOn_joined hnamed.plain hne]

end Names

@[grind =]
theorem splitStars_length {t : List Char} (h : ¬ doubleStar <:+: t) : (splitStars t).length = 1 := by
  fun_induction splitStars t with
  | case1 => rfl
  | case2 s => exact absurd ⟨[], s, rfl⟩ h
  | case3 c s _ ih =>
    rw [List.length_modifyHead]
    exact ih fun hs => h (hs.trans (List.suffix_cons c s).isInfix)

theorem ne_doubleStar {t : List Char} (h : ¬ doubleStar <:+: t) : ∀ seg ∈ t.splitOn '/', seg ≠ doubleStar := by
  rintro seg hseg rfl
  refine h ?_
  have hinfix := infix_joined hseg
  rwa [joined_splitOn] at hinfix

theorem matchGlob_plain {t : List Char} {ns : List (List Char)} (hstars : ¬ doubleStar <:+: t)
    (hsafe : ∀ seg ∈ t.splitOn '/', SafePattern seg) (hback : '\\' ∉ t) (hcls : '[' ∈ t → t ≠ joined ns)
    (hplain : Plain ns) (hne : ns ≠ []) :
    matchGlob t (joined ns) = true ↔
      List.Forall₂ (fun seg name => pathMatch seg name = some true) (t.splitOn '/') ns := by
  rw [← pathMatch_joined hsafe (plain_splitOn t) hplain (List.splitOn_ne_nil '/' t) hne, joined_splitOn,
    matchGlob]
  by_cases heq : t = joined ns
  · rw [if_pos heq]
    refine iff_of_true rfl ?_
    rw [← heq]
    exact pathMatch_self (fun h => hcls h heq) hback
  · rw [if_neg heq, if_pos (splitStars_length hstars), decide_eq_true_iff]

/-- The server's rule for an entry below the root: a pattern matches a name of the entry or of a
directory it is in. -/
def LeftOut (patterns : List (List Char)) (root : List Char) (x : Below) : Prop :=
  ∃ y, y ≠ [] ∧ y <+: x ∧ ∃ p ∈ patterns, ∃ c ∈ candidates root y, Store.matchGlob p c = some true

def AppliesRule (pf : Platform) (patterns : List (List Char)) (path : List Char) (f : Forest) : Prop :=
  ∀ info, ∀ e ∈ f.entries, e ∉ walkRoot pf patterns (archivePrefix pf path) info f ↔
    LeftOut patterns (archivePrefix pf path) e.1

def Matched (patterns : List (List Char)) (root : List Char) (x : Below) : Prop :=
  ∃ p ∈ patterns, ∃ c ∈ candidates root x, Store.matchGlob p c = some true

def Visited (pf : Platform) (patterns : List (List Char)) (root : List Char) (x : Below) : Prop :=
  ∀ y ∈ x.inits, y ≠ [] → y ≠ x → excluded pf patterns (candidates root y) = false

/-- The agent's test of an entry that the walk comes to and the server's have one answer. -/
def OneAnswer (pf : Platform) (patterns : List (List Char)) (root : List Char) (f : Forest) : Prop :=
  ∀ e ∈ f.entries, Visited pf patterns root e.1 →
    (excluded pf patterns (candidates root e.1) = true ↔ Matched patterns root e.1)

/-- The patterns and names that `excluded` tries on an entry, each with each, up to the first
that match. -/
def tried (pf : Platform) (patterns : List (List Char)) (root : List Char) (x : Below) :
    List (List Char × List (List Char)) :=
  let all := patterns.product (candidateSegments root x)
  all.take (all.findIdx (fun q => matchGlob (pf.patternText q.1) (joined q.2)) + 1)

/-- A pattern without double stars, whose classes leave the separator alone and whose text is not
the name if it has a class. -/
def PlainIn (t : List Char) (ns : List (List Char)) : Prop :=
  ¬ doubleStar <:+: t ∧ (∀ seg ∈ t.splitOn '/', ∀ ts ∈ parse seg, Safe ts) ∧ ('[' ∈ t → t ≠ joined ns)

/-- A pattern of double stars and plain text, which the name only has as whole segments. -/
def SpansIn (t : List Char) (ns : List (List Char)) : Prop :=
  doubleStar ∈ t.splitOn '/' ∧ Spanning (t.splitOn '/') ∧
    ∀ run ∈ (t.splitOn '/').splitOn doubleStar, run ≠ [] → Aligned (joined run) (joined ns)

def ReadAlike (pf : Platform) (p : List Char) (ns : List (List Char)) : Prop :=
  pf.patternText p = globText p ∧ (PlainIn (globText p) ns ∨ SpansIn (globText p) ns) ∧
    ∀ seg ∈ ns, seg ≠ [] ∧ '\\' ∉ seg

instance (t : List Char) (ns : List (List Char)) : Decidable (PlainIn t ns) :=
  inferInstanceAs (Decidable (_ ∧ _ ∧ _))

instance (t : List Char) (ns : List (List Char)) : Decidable (SpansIn t ns) :=
  inferInstanceAs (Decidable (_ ∧ _ ∧ _))

instance (pf : Platform) (p : List Char) (ns : List (List Char)) : Decidable (ReadAlike pf p ns) :=
  inferInstanceAs (Decidable (_ ∧ _ ∧ _))

instance (pf : Platform) (patterns : List (List Char)) (root : List Char) (x : Below) :
    Decidable (Visited pf patterns root x) :=
  inferInstanceAs (Decidable (∀ _ ∈ _, _))

/-- What is tried on the entries that the walk comes to is read alike, and where an entry is kept
no pattern matches the name of the root. -/
structure OneRule (pf : Platform) (patterns : List (List Char)) (root : List Char) (f : Forest) : Prop where
  pair : ∀ e ∈ f.entries, Visited pf patterns root e.1 →
    ∀ q ∈ tried pf patterns root e.1, ReadAlike pf q.1 q.2
  top : ∀ e ∈ f.entries, Visited pf patterns root e.1 →
    excluded pf patterns (candidates root e.1) = false →
    ∀ p ∈ patterns, ¬ doubleStar <:+: globText p → pathMatch (globText p) root ≠ some true

theorem patternText_ne_nil {pf : Platform} {p : List Char} (h : validateGlob p = .ok ()) :
    pf.patternText p ≠ [] := by
  intro hnil
  refine Store.ne_nil_of_validateGlob h ?_
  rw [Platform.patternText, trimSpace_eq_nil] at hnil
  rw [trimSpace_eq_nil]
  intro c hc
  cases pf with
  | posix => exact hnil c hc
  | windows =>
    have hspace := hnil _ (List.mem_map_of_mem hc)
    split at hspace
    · cases hspace
    · exact hspace

theorem not_mem_trimOf_toSlashes (p : List Char) : '\\' ∉ globText p :=
  fun h => not_mem_toSlashes p (mem_of_mem_trimOf h)

section Rule

variable {pf : Platform} {patterns : List (List Char)} {root : List Char} {f : Forest} {x y : Below}
  {k : Kind} {p : List Char} {ns : List (List Char)}

@[simp] theorem between_nil : Between [] y x ↔ y ≠ [] ∧ y <+: x := by
  constructor
  · rintro ⟨⟨name, rest, rfl⟩, hpre⟩
    exact ⟨List.cons_ne_nil _ _, hpre⟩
  · rintro ⟨hne, hpre⟩
    obtain ⟨name, rest, rfl⟩ := List.exists_cons_of_ne_nil hne
    exact ⟨⟨name, rest, rfl⟩, hpre⟩

@[grind =] theorem excluded_iff : excluded pf patterns (candidates root y) = true ↔
    ∃ p ∈ patterns, pf.patternText p ≠ [] ∧
      ∃ ns ∈ candidateSegments root y, matchGlob (pf.patternText p) (joined ns) = true := by
  rw [excluded, List.any_eq_true, candidates_eq]
  refine exists_congr fun p => and_congr_right fun _ => ?_
  rw [decide_eq_true_iff, List.any_map, List.any_eq_true]
  rfl

theorem not_mem_walk_iff (h : (x, k) ∈ f.entries) :
    (x, k) ∉ walk (fun x => excluded pf patterns (candidates root x)) [] f ↔
      ∃ y, y ≠ [] ∧ y <+: x ∧ excluded pf patterns (candidates root y) = true := by
  have hall : (x, k) ∈ walk (fun _ => false) [] f := h
  rw [mem_walk, not_and, imp_iff_right hall]
  simp only [between_nil]
  push Not
  simp only [Bool.not_eq_false, and_assoc]

theorem visited_iff : Visited pf patterns root x ↔
    ∀ y, y ≠ [] → y <+: x → y ≠ x → excluded pf patterns (candidates root y) = false := by
  simp only [Visited, List.mem_inits]
  exact forall_congr' fun y => forall_comm

theorem Visited.above (h : Visited pf patterns root x) (hpre : y <+: x) : Visited pf patterns root y := by
  rw [visited_iff] at h ⊢
  intro z hz hzy hne
  refine h z hz (hzy.trans hpre) fun heq => hne ?_
  exact hzy.eq_of_length_le (heq ▸ hpre.length_le)

theorem exists_first (hy : y ≠ []) (hpre : y <+: x) (h : excluded pf patterns (candidates root y) = true) :
    ∃ z, z ≠ [] ∧ z <+: x ∧ Visited pf patterns root z ∧
      excluded pf patterns (candidates root z) = true := by
  induction hn : y.length using Nat.strong_induction_on generalizing y with
  | _ n ih =>
    by_cases hv : Visited pf patterns root y
    · exact ⟨y, hy, hpre, hv, h⟩
    · rw [visited_iff] at hv
      push Not at hv
      obtain ⟨z, hz, hzy, hne, hleft⟩ := hv
      have hlt : z.length < n := by
        rw [← hn]
        exact lt_of_le_of_ne hzy.length_le fun hlen => hne (hzy.eq_of_length hlen)
      exact ih _ hlt hz (hzy.trans hpre) (by simpa using hleft) rfl

/-- The walk leaves out what the rule says when, and only when, the two tests have one answer at
each entry it comes to. -/
theorem appliesRule_iff {path : List Char} :
    AppliesRule pf patterns path f ↔ OneAnswer pf patterns (archivePrefix pf path) f := by
  have hwalk : ∀ info {x k}, (x, k) ∈ f.entries →
      ((x, k) ∉ walkRoot pf patterns (archivePrefix pf path) info f ↔
        ∃ y, y ≠ [] ∧ y <+: x ∧ excluded pf patterns (candidates (archivePrefix pf path) y) = true) := by
    intro info x k hx
    have hne : x ≠ [] := by
      obtain ⟨name, rest, rfl⟩ := below_of_mem_walk hx
      exact List.cons_ne_nil _ _
    rw [walkRoot, List.mem_cons, not_or, and_iff_right fun heq => hne (Prod.mk.inj heq).1]
    exact not_mem_walk_iff hx
  constructor
  · -- above an entry that the walk comes to nothing is left out, so nothing there is matched
    rintro h ⟨x, k⟩ hx hv
    have hne : x ≠ [] := by
      obtain ⟨name, rest, rfl⟩ := below_of_mem_walk hx
      exact List.cons_ne_nil _ _
    rw [visited_iff] at hv
    have hhere := (hwalk ⟨0, 0⟩ hx).symm.trans (h ⟨0, 0⟩ _ hx)
    constructor
    · intro hleft
      obtain ⟨y, hy, hpre, hmatched⟩ := hhere.mp ⟨x, hne, List.prefix_rfl, hleft⟩
      by_cases hyx : y = x
      · exact hyx ▸ hmatched
      · obtain ⟨k', hentry, -⟩ := ancestor_of_mem hx (between_nil.mpr ⟨hy, hpre⟩)
        obtain ⟨z, hz, hzy, hleft'⟩ := ((hwalk ⟨0, 0⟩ hentry).symm.trans (h ⟨0, 0⟩ _ hentry)).mpr
          ⟨y, hy, List.prefix_rfl, hmatched⟩
        have hzx : z ≠ x := by
          rintro rfl
          exact hyx (hpre.eq_of_length_le hzy.length_le)
        rw [hv z hz (hzy.trans hpre) hzx] at hleft'
        cases hleft'
    · intro hmatched
      obtain ⟨y, hy, hpre, hleft⟩ := hhere.mpr ⟨x, hne, List.prefix_rfl, hmatched⟩
      by_cases hyx : y = x
      · exact hyx ▸ hleft
      · rw [hv y hy hpre hyx] at hleft
        cases hleft
  · rintro h info ⟨x, k⟩ hx
    have hentry : ∀ {y}, y ≠ [] → y <+: x → ∃ k', (y, k') ∈ f.entries := by
      intro y hy hpre
      obtain ⟨k', hk', -⟩ := ancestor_of_mem hx (between_nil.mpr ⟨hy, hpre⟩)
      exact ⟨k', hk'⟩
    rw [hwalk info hx]
    constructor
    · rintro ⟨y, hy, hpre, hleft⟩
      obtain ⟨z, hz, hzx, hv, hleft⟩ := exists_first hy hpre hleft
      obtain ⟨k', hk'⟩ := hentry hz hzx
      exact ⟨z, hz, hzx, (h _ hk' hv).mp hleft⟩
    · rintro ⟨y, hy, hpre, hmatched⟩
      by_contra hnone
      push Not at hnone
      obtain ⟨k', hk'⟩ := hentry hy hpre
      have hv : Visited pf patterns (archivePrefix pf path) y :=
        visited_iff.mpr fun z hz hzy _ => by simpa using hnone z hz (hzy.trans hpre)
      exact hnone y hy hpre ((h _ hk' hv).mpr hmatched)

variable (hvalid : ∀ p ∈ patterns, validateGlob p = .ok ())

theorem mem_pairs : (p, ns) ∈ patterns.product (candidateSegments root x) ↔
    p ∈ patterns ∧ ns ∈ candidateSegments root x := List.pair_mem_product

theorem mem_of_tried {q : List Char × List (List Char)} (h : q ∈ tried pf patterns root x) :
    q.1 ∈ patterns ∧ q.2 ∈ candidateSegments root x := mem_pairs.mp (List.mem_of_mem_take h)

theorem exists_tried (h : excluded pf patterns (candidates root x) = true) :
    ∃ q ∈ tried pf patterns root x, matchGlob (pf.patternText q.1) (joined q.2) = true := by
  obtain ⟨p, hp, -, ns, hns, hmatch⟩ := excluded_iff.mp h
  have hlt := List.findIdx_lt_length_of_exists
    (p := fun q : List Char × List (List Char) => matchGlob (pf.patternText q.1) (joined q.2))
    ⟨(p, ns), mem_pairs.mpr ⟨hp, hns⟩, hmatch⟩
  refine ⟨_, List.mem_take_iff_getElem.mpr ⟨_, ?_, rfl⟩, List.findIdx_getElem (w := hlt)⟩
  exact lt_min (Nat.lt_succ_self _) hlt

include hvalid in
@[grind =] theorem not_excluded_iff : excluded pf patterns (candidates root x) = false ↔
    ∀ p ∈ patterns, ∀ ns ∈ candidateSegments root x, matchGlob (pf.patternText p) (joined ns) = false := by
  rw [← Bool.not_eq_true, excluded_iff]
  push Not
  simp only [Bool.not_eq_true]
  exact forall₂_congr fun p hp => imp_iff_right (patternText_ne_nil (hvalid p hp))

include hvalid in
theorem tried_of_kept (h : excluded pf patterns (candidates root x) = false) (hp : p ∈ patterns)
    (hns : ns ∈ candidateSegments root x) : (p, ns) ∈ tried pf patterns root x := by
  rw [not_excluded_iff hvalid] at h
  have hall : ∀ q ∈ patterns.product (candidateSegments root x),
      matchGlob (pf.patternText q.1) (joined q.2) = false :=
    fun q hq => h q.1 (mem_pairs.mp hq).1 q.2 (mem_pairs.mp hq).2
  rw [tried, List.findIdx_eq_length.mpr hall, List.take_of_length_le (Nat.le_succ _)]
  exact mem_pairs.mpr ⟨hp, hns⟩

end Rule

section Pair

variable {pf : Platform} {p : List Char} {ns a : List (List Char)}

theorem safePattern_of_valid (hvalid : validateGlob p = .ok ())
    (hsafe : ∀ seg ∈ (globText p).splitOn '/', ∀ ts ∈ parse seg, Safe ts) :
    ∀ seg ∈ (globText p).splitOn '/', SafePattern seg := by
  intro seg hseg
  obtain ⟨ts, hts⟩ := Option.isSome_iff_exists.mp (Store.parse_of_validateGlob hvalid seg hseg)
  exact ⟨ts, hts, hsafe seg hseg ts hts⟩

variable (hvalid : validateGlob p = .ok ()) (h : ReadAlike pf p ns) (hslash : ∀ seg ∈ ns, '/' ∉ seg)
  (hne : ns ≠ [])

include h hslash in
theorem ReadAlike.segments_named : Named ns := fun seg hseg => ⟨(h.2.2 seg hseg).1, hslash seg hseg⟩

include hvalid h hslash hne

theorem server_of_agent (hmatch : matchGlob (pf.patternText p) (joined ns) = true) :
    Store.matchGlob p (joined ns) = some true := by
  have hnamed := h.segments_named hslash
  rw [store_matchGlob hnamed hne fun seg hseg => (h.2.2 seg hseg).2]
  rw [h.1] at hmatch
  rcases h.2.1 with ⟨hstars, hsafe, hcls⟩ | ⟨hstar, hspan, haligned⟩
  · have hall := (matchGlob_plain hstars (safePattern_of_valid hvalid hsafe) (not_mem_trimOf_toSlashes p)
      hcls hnamed.plain hne).mp hmatch
    rw [Store.matchSegments_iff (ne_doubleStar hstars)]
    exact ⟨ns, [], (List.append_nil ns).symm, hall⟩
  · exact (matchGlob_spanning hspan hnamed hne haligned hstar).mp hmatch

theorem agent_of_segments (hstars : ¬ doubleStar <:+: globText p)
    (hmatch : List.Forall₂ (fun seg name => pathMatch seg name = some true)
      ((globText p).splitOn '/') ns) : matchGlob (pf.patternText p) (joined ns) = true := by
  have hnamed := h.segments_named hslash
  rw [h.1]
  rcases h.2.1 with ⟨-, hsafe, hcls⟩ | ⟨hstar, -, -⟩
  · exact (matchGlob_plain hstars (safePattern_of_valid hvalid hsafe) (not_mem_trimOf_toSlashes p)
      hcls hnamed.plain hne).mpr hmatch
  · exact absurd rfl (ne_doubleStar hstars _ hstar)

omit hvalid in
/-- A name the server matches, the agent matches, or the pattern has no double stars and matches
the first segments of the name. -/
theorem agent_of_server (hmatch : Store.matchGlob p (joined ns) = some true) :
    matchGlob (pf.patternText p) (joined ns) = true ∨ ¬ doubleStar <:+: globText p ∧
      ∃ a b, ns = a ++ b ∧ a ≠ [] ∧
        List.Forall₂ (fun seg name => pathMatch seg name = some true) ((globText p).splitOn '/') a := by
  have hnamed := h.segments_named hslash
  rw [store_matchGlob hnamed hne fun seg hseg => (h.2.2 seg hseg).2] at hmatch
  rcases h.2.1 with ⟨hstars, -, -⟩ | ⟨hstar, hspan, haligned⟩
  · obtain ⟨a, b, hab, hall⟩ := (Store.matchSegments_iff (ne_doubleStar hstars)).mp hmatch
    refine .inr ⟨hstars, a, b, hab, ?_, hall⟩
    rintro rfl
    exact List.splitOn_ne_nil '/' (globText p) (List.forall₂_nil_right_iff.mp hall)
  · rw [h.1]
    exact .inl ((matchGlob_spanning hspan hnamed hne haligned hstar).mpr hmatch)

end Pair

section Entry

variable {pf : Platform} {patterns : List (List Char)} {root : List Char} {f : Forest} {x : Below}
  {k : Kind}

/-- The segments of a name that are the first ones of a name of the entry: the root's own name, or
those of a directory it is in or its own. -/
theorem candidate_of_prefix {ns a b : List (List Char)} (hx : x ≠ []) (hns : ns ∈ candidateSegments root x)
    (hab : ns = a ++ b) (ha : a ≠ []) :
    a = [root] ∨ ∃ y, y ≠ [] ∧ y <+: x ∧ a ∈ candidateSegments root y := by
  rcases List.mem_cons.mp hns with rfl | hns
  · obtain ⟨first, a, rfl⟩ := List.exists_cons_of_ne_nil ha
    obtain ⟨rfl, hbelow⟩ := List.cons.inj hab
    obtain ⟨y, z, rfl, rfl, -⟩ := List.map_eq_append_iff.mp hbelow
    cases y with
    | nil => exact .inl rfl
    | cons name y =>
      exact .inr ⟨_, List.cons_ne_nil name y, List.prefix_append _ z, List.mem_cons_self⟩
  rcases List.mem_cons.mp hns with rfl | hns
  · obtain ⟨y, z, rfl, rfl, -⟩ := List.map_eq_append_iff.mp hab
    refine .inr ⟨y, by simpa using ha, List.prefix_append _ z, ?_⟩
    exact List.mem_cons_of_mem _ List.mem_cons_self
  · have heq : a = ns := by
      rw [List.mem_singleton.mp hns] at hab ⊢
      obtain ⟨first, a, rfl⟩ := List.exists_cons_of_ne_nil ha
      obtain ⟨rfl, hnil⟩ := List.cons.inj hab
      rw [(List.append_eq_nil_iff.mp hnil.symm).1]
    rw [heq]
    exact .inr ⟨x, hx, List.prefix_rfl, List.mem_cons_of_mem _ (List.mem_cons_of_mem _ hns)⟩

variable (hvalid : ∀ p ∈ patterns, validateGlob p = .ok ()) (hslash : '/' ∉ root)
  (hrule : OneRule pf patterns root f)

include hvalid hslash hrule in
theorem oneAnswer : OneAnswer pf patterns root f := by
  rintro ⟨x, k⟩ hx hv
  have hxne : x ≠ [] := by
    obtain ⟨name, rest, rfl⟩ := below_of_mem_walk hx
    exact List.cons_ne_nil _ _
  constructor
  · intro hleft
    obtain ⟨⟨p, ns⟩, htried, hmatch⟩ := exists_tried hleft
    obtain ⟨hp, hns⟩ := mem_of_tried htried
    refine ⟨p, hp, joined ns, ?_, server_of_agent (hvalid p hp) (hrule.pair _ hx hv _ htried)
      (candidateSegments_slash hslash hxne hns) (mem_candidateSegments hxne hns).1 hmatch⟩
    rw [candidates_eq]
    exact List.mem_map_of_mem hns
  · rintro ⟨p, hp, c, hc, hmatch⟩
    by_contra hkept
    rw [Bool.not_eq_true] at hkept
    rw [candidates_eq] at hc
    obtain ⟨ns, hns, rfl⟩ := List.mem_map.mp hc
    have halike := hrule.pair _ hx hv _ (tried_of_kept hvalid hkept hp hns)
    rcases agent_of_server halike (candidateSegments_slash hslash hxne hns)
      (mem_candidateSegments hxne hns).1 hmatch with hagent | ⟨hstars, a, b, hab, hane, hall⟩
    · rw [(not_excluded_iff hvalid).mp hkept p hp ns hns] at hagent
      cases hagent
    rcases candidate_of_prefix hxne hns hab hane with rfl | ⟨y, hy, hpre, ha⟩
    · -- the pattern matches the root itself
      obtain ⟨seg, segs, hseg, hnil, hsegs⟩ := List.forall₂_cons_right_iff.mp hall
      obtain rfl : segs = [] := List.forall₂_nil_right_iff.mp hnil
      refine hrule.top _ hx hv hkept p hp hstars ?_
      rw [← joined_splitOn (globText p), hsegs, joined_singleton, hseg]
    · -- the directories above are kept too, so the pair was tried there
      obtain ⟨k', hentry, -⟩ := ancestor_of_mem hx (between_nil.mpr ⟨hy, hpre⟩)
      have hkept' : excluded pf patterns (candidates root y) = false := by
        by_cases heq : y = x
        · exact heq ▸ hkept
        · exact visited_iff.mp hv y hy hpre heq
      have hagent := agent_of_segments (hvalid p hp)
        (hrule.pair _ hentry (hv.above hpre) _ (tried_of_kept hvalid hkept' hp ha))
        (candidateSegments_slash hslash hy ha) hane hstars hall
      rw [(not_excluded_iff hvalid).mp hkept' p hp a ha] at hagent
      cases hagent

end Entry

def appTree : Forest :=
  .dir ⟨"node_modules".toList, by decide, by decide, by decide, by decide⟩ ⟨0o755, 0⟩
    (.file ⟨"index.js".toList, by decide, by decide, by decide, by decide⟩ ⟨0o644, 0⟩ [] .nil)
    (.file ⟨"scratch.tmp".toList, by decide, by decide, by decide, by decide⟩ ⟨0o644, 0⟩ []
      (.file ⟨"main.js".toList, by decide, by decide, by decide, by decide⟩ ⟨0o644, 0⟩ [] .nil))

def notesTree : Forest :=
  .file ⟨"node_modules_notes.txt".toList, by decide, by decide, by decide, by decide⟩ ⟨0o644, 0⟩ [] .nil

end ProxBack.Agent
