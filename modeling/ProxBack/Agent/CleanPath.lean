import ProxBack.Agent.Unpack
import ProxBack.Lib.SlashPath

/-! Clean paths on a Unix agent: what `filepath.Clean`, `Join` and `Dir` make of names that are
already clean. -/
namespace ProxBack.Agent.Tar
open Lib

def Proper (segs : List (List Char)) : Prop :=
  ∀ seg ∈ segs, (seg ≠ [] ∧ '/' ∉ seg) ∧ seg ≠ ['.'] ∧ seg ≠ ['.', '.']

instance (segs : List (List Char)) : Decidable (Proper segs) := inferInstanceAs (Decidable (∀ _ ∈ _, _))

variable {segs a b : List (List Char)} {seg : List Char}

theorem proper_nil : Proper [] := fun _ h => nomatch h

theorem Proper.named (h : Proper segs) : Named segs := fun seg hseg => (h seg hseg).1

theorem Proper.tail (h : Proper (seg :: segs)) : Proper segs := fun s hs => h s (List.mem_cons_of_mem _ hs)

theorem Proper.append (ha : Proper a) (hb : Proper b) : Proper (a ++ b) :=
  fun s hs => (List.mem_append.mp hs).elim (ha s) (hb s)

theorem Proper.left (h : Proper (a ++ b)) : Proper a := fun s hs => h s (List.mem_append_left _ hs)

theorem Proper.right (h : Proper (a ++ b)) : Proper b := fun s hs => h s (List.mem_append_right _ hs)

theorem splitSlash_eq (s : List Char) : splitSlash s = s.splitOn '/' := by
  induction s with
  | nil => rfl
  | cons c s ih =>
    obtain ⟨part, parts, hparts⟩ := List.exists_cons_of_ne_nil (List.splitOn_ne_nil '/' s)
    rw [List.splitOn_cons_eq_if_modifyHead, hparts]
    by_cases hc : c = '/'
    · rw [hc, splitSlash, ih, hparts]
      rfl
    · rw [if_neg (by simpa using hc), List.modifyHead_cons]
      unfold splitSlash
      rw [ih, hparts]
      split
      · exact absurd rfl hc
      · rename_i heq
        cases heq
        rfl
      · rename_i heq
        cases heq

theorem cleanSegments_push (rooted : Bool) (h : Proper (seg :: segs)) (rest stack : List (List Char)) :
    cleanSegments rooted (seg :: rest) stack = cleanSegments rooted rest (seg :: stack) := by
  obtain ⟨⟨hne, -⟩, hdot, hdots⟩ := h seg List.mem_cons_self
  cases stack <;> simp [cleanSegments, hne, hdot, hdots]

@[simp] theorem cleanSegments_nil (rooted : Bool) (segs stack : List (List Char)) :
    cleanSegments rooted ([] :: segs) stack = cleanSegments rooted segs stack := by
  cases stack <;> simp [cleanSegments]

@[grind =]
theorem cleanSegments_proper (rooted : Bool) (h : Proper segs) (stack : List (List Char)) :
    cleanSegments rooted segs stack = stack.reverse ++ segs := by
  induction segs generalizing stack with
  | nil => rw [cleanSegments, List.append_nil]
  | cons seg segs ih =>
    rw [cleanSegments_push rooted h, ih h.tail, List.reverse_cons, List.append_assoc, List.singleton_append]

@[grind =] theorem cleanSegments_concat (rooted : Bool) (h : Proper segs) :
    cleanSegments rooted (segs ++ [[]]) [] = segs := by
  have hgo : ∀ stack, cleanSegments rooted (segs ++ [[]]) stack = stack.reverse ++ segs := by
    induction segs with
    | nil =>
      intro stack
      rw [List.nil_append, cleanSegments_nil, cleanSegments, List.append_nil]
    | cons seg segs ih =>
      intro stack
      rw [List.cons_append, cleanSegments_push rooted h, ih h.tail, List.reverse_cons, List.append_assoc,
        List.singleton_append]
  exact hgo []

def absText (segs : List (List Char)) : String := .ofList (if segs = [] then ['/'] else slashed segs)

def relText (segs : List (List Char)) : String := .ofList (joined segs)

@[simp]
theorem toList_slash (a b : String) : (a ++ "/" ++ b).toList = a.toList ++ '/' :: b.toList := by
  rw [String.toList_append, String.toList_append, List.append_assoc]
  rfl

theorem relText_append (ha : a ≠ []) (hb : b ≠ []) : relText (a ++ b) = relText a ++ "/" ++ relText b := by
  refine String.toList_injective ?_
  rw [toList_slash, relText, relText, relText, String.toList_ofList, String.toList_ofList, String.toList_ofList,
    joined_append ha, cons_joined hb]

theorem unixClean_of_rooted {text : List Char} {segs : List (List Char)} (hhead : text.head? = some '/')
    (hsegs : cleanSegments true (text.splitOn '/') [] = segs) : unixClean (.ofList text) = absText segs := by
  have hrooted : (decide ((String.ofList text).toList.head? = some '/')) = true := by
    rw [String.toList_ofList, hhead]
    rfl
  unfold unixClean
  dsimp only
  rw [hrooted, String.toList_ofList, splitSlash_eq, hsegs]
  cases segs with
  | nil => rfl
  | cons seg segs => rfl

theorem unixClean_of_relative {text : List Char} {segs : List (List Char)} (hhead : text.head? ≠ some '/')
    (hne : segs ≠ []) (hsegs : cleanSegments false (text.splitOn '/') [] = segs) :
    unixClean (.ofList text) = relText segs := by
  have hrooted : (decide ((String.ofList text).toList.head? = some '/')) = false := by
    rw [String.toList_ofList]
    exact decide_eq_false hhead
  unfold unixClean
  dsimp only
  rw [hrooted, String.toList_ofList, splitSlash_eq, hsegs]
  obtain ⟨seg, segs, rfl⟩ := List.exists_cons_of_ne_nil hne
  rw [relText, joined_cons]
  rfl

theorem splitOn_slashed (h : Plain segs) (hne : segs ≠ []) : (slashed segs).splitOn '/' = [] :: segs := by
  rw [← cons_joined hne, List.splitOn_cons_eq_if_modifyHead, if_pos (by rfl), splitOn_joined h hne]

theorem head_joined (h : Proper segs) : (joined segs).head? ≠ some '/' :=
  fun hhead => joined_head h.named '/' hhead rfl

theorem unixClean_relText (h : Proper segs) (hne : segs ≠ []) : unixClean (relText segs) = relText segs := by
  refine unixClean_of_relative (head_joined h) hne ?_
  rw [splitOn_joined h.named.plain hne, cleanSegments_proper false h]
  rfl

theorem unixClean_concat (h : Proper segs) (hne : segs ≠ []) :
    unixClean (.ofList (joined segs ++ ['/'])) = relText segs := by
  refine unixClean_of_relative ?_ hne ?_
  · obtain ⟨seg, segs, rfl⟩ := List.exists_cons_of_ne_nil hne
    obtain ⟨c, rest, hseg⟩ := List.exists_cons_of_ne_nil (h seg List.mem_cons_self).1.1
    have hhead := head_joined h
    rw [joined_cons, hseg] at hhead ⊢
    exact hhead
  · rw [List.splitOn_append_cons_self, splitOn_joined h.named.plain hne]
    exact cleanSegments_concat false h

theorem join_absText (ha : Proper a) (hb : Proper b) (hne : b ≠ []) :
    unixPaths.join (absText a) (relText b) = absText (a ++ b) := by
  have hab : a ++ b ≠ [] := List.append_ne_nil_of_right_ne_nil a hne
  have htext : absText a ++ "/" ++ relText b =
      .ofList ((if a = [] then ['/'] else slashed a) ++ slashed b) := by
    have hslash : String.ofList (slashed b) = "/" ++ relText b := by
      rw [← cons_joined hne]
      exact (String.ofList_append : String.ofList (['/'] ++ joined b) = _)
    rw [String.ofList_append, hslash, absText, String.append_assoc]
  show unixClean (absText a ++ "/" ++ relText b) = _
  rw [htext]
  refine unixClean_of_rooted ?_ ?_
  · split
    · rfl
    · rename_i hane
      rw [← cons_joined hane]
      rfl
  · split
    · rename_i hnil
      subst hnil
      rw [List.singleton_append, List.splitOn_cons_eq_if_modifyHead, if_pos (by rfl),
        splitOn_slashed hb.named.plain hne, cleanSegments_nil, cleanSegments_nil, cleanSegments_proper true hb]
      rfl
    · rw [← slashed_append, splitOn_slashed (ha.append hb).named.plain hab, cleanSegments_nil,
        cleanSegments_proper true (ha.append hb)]
      rfl

@[grind =]
theorem dir_absText (h : Proper (segs ++ [seg])) : unixPaths.dir (absText (segs ++ [seg])) = absText segs := by
  have hne : segs ++ [seg] ≠ [] := List.append_ne_nil_of_right_ne_nil segs (List.cons_ne_nil _ _)
  have hseg : '/' ∉ seg := (h seg (List.mem_append_right _ List.mem_cons_self)).1.2
  have hdrop : (seg.reverse ++ ['/'] ++ (slashed segs).reverse).dropWhile (· ≠ '/') =
      ['/'] ++ (slashed segs).reverse := by
    rw [List.append_assoc, List.dropWhile_append_of_pos fun c hc => by
      simpa using fun heq : c = '/' => hseg (heq ▸ List.mem_reverse.mp hc)]
    rfl
  have htext : (absText (segs ++ [seg])).toList.reverse = seg.reverse ++ ['/'] ++ (slashed segs).reverse := by
    rw [absText, if_neg hne, String.toList_ofList, slashed_append, List.reverse_append]
    simp [slashed]
  have hdir : unixPaths.dir (absText (segs ++ [seg])) = unixClean (.ofList (slashed segs ++ ['/'])) := by
    unfold unixPaths
    dsimp only
    rw [htext, hdrop, List.reverse_append, List.reverse_reverse]
    rfl
  rw [hdir]
  refine unixClean_of_rooted ?_ ?_
  · cases segs with
    | nil => rfl
    | cons s segs => rfl
  · by_cases hnil : segs = []
    · subst hnil
      rfl
    · rw [List.splitOn_append_cons_self, splitOn_slashed h.left.named.plain hnil, List.cons_append,
        cleanSegments_nil]
      exact cleanSegments_concat true h.left

def pathSegments (path : String) : List (List Char) := (path.toList.splitOn '/').filter (· ≠ [])

@[grind =] theorem pathSegments_absText (h : Proper segs) : pathSegments (absText segs) = segs := by
  by_cases hne : segs = []
  · subst hne
    rfl
  · rw [pathSegments, absText, if_neg hne, String.toList_ofList, splitOn_slashed h.named.plain hne,
      List.filter_cons_of_neg (by simp), List.filter_eq_self]
    exact fun seg hseg => decide_eq_true (h seg hseg).1.1

@[grind =] theorem cleanSegments_filter (rooted : Bool) (segs stack : List (List Char)) :
    cleanSegments rooted (segs.filter (· ≠ [])) stack = cleanSegments rooted segs stack := by
  induction segs generalizing stack with
  | nil => rfl
  | cons seg segs ih =>
    by_cases hseg : seg = []
    · rw [List.filter_cons_of_neg (by simpa using hseg), hseg, cleanSegments_nil, ih]
    · rw [List.filter_cons_of_pos (by simpa using hseg)]
      cases stack <;> simp only [cleanSegments, ih]

theorem proper_cleanSegments (h : Plain segs) {stack : List (List Char)} (hstack : Proper stack) :
    Proper (cleanSegments true segs stack) := by
  induction segs generalizing stack with
  | nil => exact fun seg hseg => hstack seg (List.mem_reverse.mp hseg)
  | cons seg segs ih =>
    have htail : Plain segs := fun s hs => h s (List.mem_cons_of_mem _ hs)
    have hpush : seg ≠ [] → seg ≠ ['.'] → seg ≠ ['.', '.'] → Proper (seg :: stack) := by
      intro hne hdot hdots
      exact List.forall_mem_cons.mpr ⟨⟨⟨hne, h seg List.mem_cons_self⟩, hdot, hdots⟩, hstack⟩
    cases stack with
    | nil =>
      rw [cleanSegments]
      split
      · exact ih htail hstack
      split
      · exact ih htail hstack
      · rename_i hskip hdots
        exact ih htail (hpush (fun h => hskip (.inl h)) (fun h => hskip (.inr h)) hdots)
    | cons top below =>
      rw [cleanSegments]
      split
      · exact ih htail hstack
      split
      · rw [if_neg (hstack top List.mem_cons_self).2.2]
        exact ih htail hstack.tail
      · rename_i hskip hdots
        exact ih htail (hpush (fun h => hskip (.inl h)) (fun h => hskip (.inr h)) hdots)

theorem pathSegments_plain (path : String) : Plain (pathSegments path) :=
  fun seg hseg => plain_splitOn _ seg (List.mem_of_mem_filter hseg)

@[grind =] theorem unixClean_rooted {path : String} (h : unixPaths.isAbs path = true) :
    unixClean path = absText (cleanSegments true (pathSegments path) []) := by
  have hhead : path.toList.head? = some '/' := of_decide_eq_true h
  have hclean := unixClean_of_rooted hhead rfl
  rwa [String.ofList_toList, ← cleanSegments_filter] at hclean

theorem relText_ne {text : List Char} (h : Proper segs) (hne : segs ≠ [])
    (htext : ¬ Proper [text]) (hplain : '/' ∉ text) : relText segs ≠ .ofList text := by
  intro heq
  have hjoined : joined segs = joined [text] := by
    rw [joined_singleton]
    exact String.ofList_injective heq
  have hsegs := joined_injective h.named.plain (fun s hs => List.mem_singleton.mp hs ▸ hplain) hne
    (List.cons_ne_nil _ _) hjoined
  rw [hsegs] at h
  exact htext h

theorem not_hasPrefix_dots (h : Proper segs) : hasPrefix (relText segs) (".." ++ "/") = false := by
  have hdots : (".." ++ "/" : String).toList = ['.', '.', '/'] := by decide +kernel
  rw [hasPrefix, relText, hdots, String.toList_ofList]
  by_contra hpre
  have hpre' : ['.', '.', '/'] <+: joined segs := by
    rw [← List.isPrefixOf_iff_prefix]
    simpa using hpre
  obtain ⟨rest, hrest⟩ := hpre'
  cases segs with
  | nil => cases hrest
  | cons seg segs =>
    obtain ⟨⟨-, hslash⟩, -, hne⟩ := h seg List.mem_cons_self
    cases segs with
    | nil =>
      rw [joined_singleton] at hrest
      exact hslash (hrest ▸ List.mem_append_left _ (by decide))
    | cons next segs =>
      rw [joined_cons, slashed_cons] at hrest
      have hcut := cut_unique (x := ['.', '.']) (u := rest) (by decide) hslash (by rw [← hrest]; rfl)
      exact hne hcut.1.symm

theorem passes (h : Proper segs) (hne : segs ≠ []) :
    relText segs ≠ "." ∧ ¬ (unixPaths.isAbs (relText segs) = true ∨ relText segs = ".." ∨
      hasPrefix (relText segs) (".." ++ unixPaths.separator) = true) := by
  refine ⟨relText_ne h hne (fun hdot => (hdot _ List.mem_cons_self).2.1 rfl) (by decide), ?_⟩
  rintro (habs | hdots | hpre)
  · have hhead : (joined segs).head? = some '/' := by
      have habs' := of_decide_eq_true habs
      rwa [relText, String.toList_ofList] at habs'
    exact head_joined h hhead
  · exact relText_ne h hne (fun hd => (hd _ List.mem_cons_self).2.2 rfl) (by decide) hdots
  · have hfalse : hasPrefix (relText segs) (".." ++ unixPaths.separator) = false := not_hasPrefix_dots h
    rw [hfalse] at hpre
    cases hpre

theorem hasPrefix_absText (hb : Proper b) (hne : b ≠ []) :
    hasPrefix (absText (a ++ b)) (absText a ++ unixPaths.separator) = decide (a ≠ []) := by
  have hab : a ++ b ≠ [] := List.append_ne_nil_of_right_ne_nil a hne
  have hsep : (absText a ++ unixPaths.separator).toList = (if a = [] then ['/'] else slashed a) ++ ['/'] := by
    rw [String.toList_append, absText, String.toList_ofList]
    rfl
  rw [hasPrefix, hsep, absText, if_neg hab, String.toList_ofList, Bool.eq_iff_iff,
    List.isPrefixOf_iff_prefix, decide_eq_true_iff]
  by_cases hnil : a = []
  · subst hnil
    refine iff_of_false ?_ fun h => h rfl
    rintro ⟨rest, hrest⟩
    rw [if_pos rfl, List.nil_append, ← cons_joined hne] at hrest
    obtain ⟨seg, b, rfl⟩ := List.exists_cons_of_ne_nil hne
    have hhead := head_joined hb
    rw [← (List.cons.inj hrest).2] at hhead
    exact hhead rfl
  · rw [if_neg hnil, slashed_append, ← cons_joined hne]
    exact iff_of_true ⟨joined b, by simp⟩ hnil

end ProxBack.Agent.Tar
