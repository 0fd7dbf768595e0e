import Mathlib.Data.String.Basic
import Mathlib.Data.Prod.Lex
import ProxBack.Browse.Names
import ProxBack.Lib.FinMap

/-! The listing of one directory of an index. -/
namespace ProxBack.Browse
open Lib Agent.Tar

/-- `path.Base`. -/
def pathBase (p : String) : String :=
  if p = "" then "."
  else
    let last := (p.toList.rdropWhile (· = '/')).rtakeWhile (· ≠ '/')
    if last = [] then "/" else .ofList last

section
variable (lower : String → String)

def less (a b : Entry) : Bool :=
  if a.dir ≠ b.dir then a.dir else lower (pathBase a.path) < lower (pathBase b.path)

def sortEntries (out : List Entry) : List Entry := out.mergeSort fun a b => !less lower b a

def placeholder (path : String) : Entry := ⟨path, 0, 0, 0, true, "", 0⟩

/-- One turn of the loop of `Children`: `seen` says where in the listing a name stands. -/
def childrenStep (dir pre : List Char) (s : FinMap (List Char) Nat × List Entry) (e : Entry) :
    FinMap (List Char) Nat × List Entry :=
  if ¬ pre.isPrefixOf e.path.toList ∨ e.path.toList = dir then s
  else
    let rest := e.path.toList.drop pre.length
    if rest = [] then s
    else if '/' ∈ rest then
      let name := rest.takeWhile (· ≠ '/')
      if (s.1.lookup name).isSome then s
      else (s.1.insert name s.2.length, s.2 ++ [placeholder (.ofList (pre ++ name))])
    else
      match s.1.lookup rest with
      | some i => (s.1, s.2.set i e)
      | none => (s.1.insert rest s.2.length, s.2 ++ [e])

/-- `strings.ToLower` is a parameter. -/
def children (narrow : Char → Bool) (entries : List Entry) (dir : String) : List Entry :=
  let dir := Text.trimOf ['/'] (normalizeName narrow dir).toList
  let pre := if dir ≠ [] then dir ++ ['/'] else []
  sortEntries lower (entries.foldl (childrenStep dir pre) (∅, [])).2

end

section
variable {narrow : Char → Bool} {dir segs : List (List Char)} {name : List Char} {e : Entry}

def prefixOf (dir : List (List Char)) : List Char := if dir = [] then [] else joined dir ++ ['/']

@[grind =]
theorem prefixOf_append (hne : segs ≠ []) : joined (dir ++ segs) = prefixOf dir ++ joined segs := by
  unfold prefixOf
  split
  · rename_i hnil
    rw [hnil]
    rfl
  · rename_i hdir
    rw [joined_append hdir, ← cons_joined hne, List.append_assoc]
    rfl

theorem prefixOf_prefix (hdir : Proper dir) (h : Proper segs) (hne : segs ≠ []) :
    prefixOf dir <+: joined segs ↔ ∃ rest, rest ≠ [] ∧ segs = dir ++ rest := by
  unfold prefixOf
  split
  · rename_i hnil
    subst hnil
    exact iff_of_true List.nil_prefix ⟨segs, hne, rfl⟩
  · rename_i hd
    exact joined_below hdir.named.plain h.named.plain hd hne

def within (dir : List (List Char)) (name : List Char) : String := relText (dir ++ [name])

theorem childrenStep_other (hdir : Proper dir) (h : Proper segs) (hpath : e.path = relText segs) (hne : segs ≠ [])
    (hother : ∀ rest, rest ≠ [] → segs ≠ dir ++ rest) (s : FinMap (List Char) Nat × List Entry) :
    childrenStep (joined dir) (prefixOf dir) s e = s := by
  unfold childrenStep
  rw [hpath, relText, String.toList_ofList, if_pos]
  left
  rw [List.isPrefixOf_iff_prefix, prefixOf_prefix hdir h hne]
  rintro ⟨rest, hrest, heq⟩
  exact hother rest hrest heq

theorem childrenStep_below (hdir : Proper dir) (h : Proper (dir ++ name :: segs))
    (hpath : e.path = relText (dir ++ name :: segs)) (s : FinMap (List Char) Nat × List Entry) :
    childrenStep (joined dir) (prefixOf dir) s e =
      if segs = [] then
        match s.1.lookup name with
        | some i => (s.1, s.2.set i e)
        | none => (s.1.insert name s.2.length, s.2 ++ [e])
      else if (s.1.lookup name).isSome then s
      else (s.1.insert name s.2.length, s.2 ++ [placeholder (within dir name)]) := by
  have hbelow : Proper (name :: segs) := h.right
  have hname : '/' ∉ name := (hbelow name List.mem_cons_self).1.2
  have htext : e.path.toList = prefixOf dir ++ joined (name :: segs) := by
    rw [hpath, relText, String.toList_ofList, prefixOf_append (List.cons_ne_nil name segs)]
  have hrest : joined (name :: segs) ≠ [] := by
    rw [joined_cons]
    exact List.append_ne_nil_of_left_ne_nil (hbelow name List.mem_cons_self).1.1 _
  have hdiffer : e.path.toList ≠ joined dir := by
    intro heq
    have hsame : relText (dir ++ name :: segs) = relText dir := by
      rw [← hpath, relText, ← heq, String.ofList_toList]
    have hlen := congrArg List.length (relText_injective h hdir hsame)
    simp at hlen
  unfold childrenStep
  rw [if_neg (not_or.mpr ⟨not_not.mpr (List.isPrefixOf_iff_prefix.mpr ⟨_, htext.symm⟩), hdiffer⟩), htext,
    List.drop_left]
  dsimp only
  rw [if_neg hrest]
  cases segs with
  | nil => rw [joined_singleton, if_neg hname, if_pos rfl]
  | cons next segs =>
    have hslash : '/' ∈ joined (name :: next :: segs) := by
      rw [joined_cons, slashed_cons]
      exact List.mem_append_right _ List.mem_cons_self
    have hfirst : (joined (name :: next :: segs)).takeWhile (· ≠ '/') = name := by
      rw [joined_cons, slashed_cons, List.takeWhile_append_of_pos fun c hc => by
        simpa using fun heq : c = '/' => hname (heq ▸ hc)]
      simp
    rw [if_pos hslash, hfirst, if_neg (List.cons_ne_nil next segs), within, relText,
      prefixOf_append (List.cons_ne_nil name []), joined_singleton]

end

/-- An entry for a name of the directory: the one at its path, or one for the directory that the
entries below it need. -/
def Stands (entries : List Entry) (dir : List (List Char)) (name : List Char) (x : Entry) : Prop :=
  x.path = within dir name ∧ (x ∈ entries ∨ x = placeholder (within dir name) ∧
    (∀ e ∈ entries, e.path ≠ within dir name) ∧
    ∃ e ∈ entries, ∃ rest, rest ≠ [] ∧ Proper (dir ++ name :: rest) ∧ e.path = relText (dir ++ name :: rest))

def Relative (path : String) : Prop := ∃ segs, segs ≠ [] ∧ Proper segs ∧ path = relText segs

structure Lists (dir : List (List Char)) (entries : List Entry) (s : FinMap (List Char) Nat × List Entry) : Prop where
  seen : ∀ name i, s.1.lookup name = some i ↔
    Proper (dir ++ [name]) ∧ (s.2.map Entry.path)[i]? = some (within dir name)
  nodup : (s.2.map Entry.path).Nodup
  stands : ∀ x ∈ s.2, ∃ name, Proper (dir ++ [name]) ∧ Stands entries dir name x
  all : ∀ e ∈ entries, ∀ name rest, Proper (dir ++ name :: rest) → e.path = relText (dir ++ name :: rest) →
    within dir name ∈ s.2.map Entry.path

section
variable {dir segs : List (List Char)} {name : List Char} {e x : Entry} {entries : List Entry}
  {s : FinMap (List Char) Nat × List Entry}

theorem proper_first {rest : List (List Char)} (h : Proper (dir ++ name :: rest)) : Proper (dir ++ [name]) := by
  rw [← List.singleton_append, ← List.append_assoc] at h
  exact h.left

theorem within_inj {name' : List Char} (h : Proper (dir ++ [name])) (h' : Proper (dir ++ [name']))
    (heq : within dir name = within dir name') : name = name' := by
  have hsame := relText_injective h h' heq
  exact (List.cons.inj (List.append_cancel_left hsame)).1

theorem Stands.snoc (h : Stands entries dir name x) (hne : x ∉ entries → e.path ≠ within dir name) :
    Stands (entries ++ [e]) dir name x := by
  obtain ⟨hpath, hreal | ⟨hmade, hnone, e', he', hbelow⟩⟩ := h
  · exact ⟨hpath, .inl (List.mem_append_left _ hreal)⟩
  · have hx : x ∉ entries := fun hx => hnone x hx hpath
    refine ⟨hpath, .inr ⟨hmade, ?_, e', List.mem_append_left _ he', hbelow⟩⟩
    intro e'' he''
    rcases List.mem_append.mp he'' with he'' | he''
    · exact hnone e'' he''
    · rw [List.mem_singleton.mp he'']
      exact hne hx

theorem Lists.zero : Lists dir [] (∅, []) where
  seen name i := by simp
  nodup := .nil
  stands _ hx := nomatch hx
  all _ he := nomatch he

theorem Lists.pass (h : Lists dir entries s)
    (hother : ∀ name rest, Proper (dir ++ name :: rest) → e.path ≠ relText (dir ++ name :: rest)) :
    Lists dir (entries ++ [e]) s where
  seen := h.seen
  nodup := h.nodup
  stands x hx := by
    obtain ⟨name, hname, hx⟩ := h.stands x hx
    exact ⟨name, hname, hx.snoc fun _ => hother name [] hname⟩
  all e' he' name rest hproper hpath := by
    rcases List.mem_append.mp he' with he' | he'
    · exact h.all e' he' name rest hproper hpath
    · rw [List.mem_singleton.mp he'] at hpath
      exact absurd hpath (hother name rest hproper)

theorem Lists.add (h : Lists dir entries s) (hname : Proper (dir ++ [name])) (hnew : s.1.lookup name = none)
    (hfirst : ∀ name' rest, Proper (dir ++ name' :: rest) → e.path = relText (dir ++ name' :: rest) → name' = name)
    (hx : Stands (entries ++ [e]) dir name x) :
    Lists dir (entries ++ [e]) (s.1.insert name s.2.length, s.2 ++ [x]) := by
  have hunseen : within dir name ∉ s.2.map Entry.path := by
    intro hmem
    obtain ⟨i, hi⟩ := List.mem_iff_getElem?.mp hmem
    rw [(h.seen name i).mpr ⟨hname, hi⟩] at hnew
    cases hnew
  refine ⟨fun name' i => ?_, ?_, fun x' hx' => ?_, fun e' he' name' rest hproper hpath => ?_⟩
  · dsimp only
    rw [FinMap.lookup_insert_ite, List.map_append, List.map_singleton, hx.1, List.getElem?_append,
      List.length_map]
    split
    · rename_i heq
      subst heq
      split
      · rename_i hi
        refine iff_of_false (fun hsome => ?_) fun hall => hunseen (List.mem_of_getElem? hall.2)
        obtain rfl := Option.some.inj hsome
        exact Nat.lt_irrefl _ hi
      · rename_i hi
        constructor
        · intro hsome
          obtain rfl := Option.some.inj hsome
          exact ⟨hname, by rw [Nat.sub_self]; rfl⟩
        · rintro ⟨-, hlast⟩
          have hzero := (List.getElem?_eq_some_iff.mp hlast).1
          simp at hzero
          exact congrArg some (by omega)
    · rename_i hne
      rw [h.seen name' i]
      refine and_congr_right fun hname' => ?_
      split
      · rfl
      · rename_i hi
        refine iff_of_false (fun hsome => ?_) fun hlast => ?_
        · have hlt := (List.getElem?_eq_some_iff.mp hsome).1
          rw [List.length_map] at hlt
          exact hi hlt
        · have hmem := List.mem_singleton.mp (List.mem_of_getElem? hlast)
          exact hne (within_inj hname' hname hmem)
  · rw [List.map_append, List.map_singleton, hx.1]
    exact List.nodup_append.mpr ⟨h.nodup, List.nodup_singleton _, fun p hp q hq heq =>
      hunseen (List.mem_singleton.mp hq ▸ heq ▸ hp)⟩
  · rcases List.mem_append.mp hx' with hold | hx'
    · obtain ⟨name', hname', hstands⟩ := h.stands x' hold
      refine ⟨name', hname', hstands.snoc fun _ heq => ?_⟩
      obtain rfl := hfirst name' [] hname' heq
      exact hunseen (hstands.1 ▸ List.mem_map_of_mem hold)
    · rw [List.mem_singleton.mp hx']
      exact ⟨name, hname, hx⟩
  · rw [List.map_append, List.map_singleton, hx.1]
    rcases List.mem_append.mp he' with he' | he'
    · exact List.mem_append_left _ (h.all e' he' name' rest hproper hpath)
    · rw [List.mem_singleton.mp he'] at hpath
      rw [hfirst name' rest hproper hpath]
      exact List.mem_append_right _ List.mem_cons_self

theorem Lists.put {i : Nat} (h : Lists dir entries s) (hname : Proper (dir ++ [name]))
    (hseen : s.1.lookup name = some i) (hpath : e.path = within dir name) :
    Lists dir (entries ++ [e]) (s.1, s.2.set i e) := by
  have hi := ((h.seen name i).mp hseen).2
  have hpaths : (s.2.set i e).map Entry.path = s.2.map Entry.path := by
    rw [List.map_set, hpath]
    refine List.ext_getElem? fun j => ?_
    rw [List.getElem?_set]
    split
    · rename_i heq
      rw [← heq, hi, if_pos (List.getElem?_eq_some_iff.mp hi).1]
    · rfl
  refine ⟨fun name' j => ?_, ?_, fun x hx => ?_, fun e' he' name' rest hproper he => ?_⟩
  · dsimp only
    rw [hpaths]
    exact h.seen name' j
  · dsimp only
    rw [hpaths]
    exact h.nodup
  · obtain ⟨j, hj⟩ := List.mem_iff_getElem?.mp hx
    dsimp only at hj
    rw [List.getElem?_set] at hj
    split at hj
    · split at hj
      · obtain rfl := Option.some.inj hj
        exact ⟨name, hname, hpath, .inl (List.mem_append_right _ List.mem_cons_self)⟩
      · cases hj
    · rename_i hij
      obtain ⟨name', hname', hstands⟩ := h.stands x (List.mem_of_getElem? hj)
      refine ⟨name', hname', hstands.snoc fun _ heq => hij ?_⟩
      -- no other place has the path
      have hj' : (s.2.map Entry.path)[j]? = some (within dir name) := by
        rw [List.getElem?_map, hj, ← hpath, heq, ← hstands.1]
        rfl
      exact (List.getElem?_inj (List.getElem?_eq_some_iff.mp hi).1 h.nodup).mp (hi.trans hj'.symm)
  · dsimp only
    rw [hpaths]
    rcases List.mem_append.mp he' with he' | he'
    · exact h.all e' he' name' rest hproper he
    · rw [List.mem_singleton.mp he', hpath] at he
      have hsame := relText_injective hname hproper he
      obtain ⟨rfl, -⟩ := List.cons.inj (List.append_cancel_left hsame)
      exact List.mem_of_getElem? hi

theorem Lists.step (hdir : Proper dir) (he : Relative e.path) (h : Lists dir entries s) :
    Lists dir (entries ++ [e]) (childrenStep (joined dir) (prefixOf dir) s e) := by
  obtain ⟨segs, hne, hproper, hpath⟩ := he
  by_cases hbelow : ∃ rest, rest ≠ [] ∧ segs = dir ++ rest
  · obtain ⟨rest, hrest, rfl⟩ := hbelow
    obtain ⟨name, segs, rfl⟩ := List.exists_cons_of_ne_nil hrest
    have hname := proper_first hproper
    have hfirst : ∀ name' rest, Proper (dir ++ name' :: rest) → e.path = relText (dir ++ name' :: rest) →
        name' = name ∧ rest = segs := by
      intro name' rest hproper' hpath'
      have hsame := relText_injective hproper' hproper (hpath'.symm.trans hpath)
      exact List.cons.inj (List.append_cancel_left hsame)
    rw [childrenStep_below hdir hproper hpath]
    split
    · rename_i hnil
      subst hnil
      split
      · rename_i i hseen
        exact h.put hname hseen hpath
      · rename_i hnew
        exact h.add hname hnew (fun name' rest hp hpath' => (hfirst name' rest hp hpath').1)
          ⟨hpath, .inl (List.mem_append_right _ List.mem_cons_self)⟩
    · rename_i hdeep
      have hother : ∀ name', Proper (dir ++ [name']) → e.path ≠ within dir name' := fun name' hp heq =>
        hdeep (hfirst name' [] hp heq).2.symm
      split
      · rename_i hseen
        obtain ⟨i, hi⟩ := Option.isSome_iff_exists.mp hseen
        refine ⟨h.seen, h.nodup, fun x hx => ?_, fun e' he' name' rest hp hpath' => ?_⟩
        · obtain ⟨name', hname', hx⟩ := h.stands x hx
          exact ⟨name', hname', hx.snoc fun _ => hother name' hname'⟩
        · rcases List.mem_append.mp he' with he' | he'
          · exact h.all e' he' name' rest hp hpath'
          · rw [List.mem_singleton.mp he'] at hpath'
            obtain ⟨rfl, -⟩ := hfirst name' rest hp hpath'
            exact List.mem_of_getElem? ((h.seen name' i).mp hi).2
      · rename_i hnew
        refine h.add hname (Option.not_isSome_iff_eq_none.mp hnew) (fun name' rest hp hpath' => (hfirst name' rest hp hpath').1)
          ⟨rfl, .inr ⟨rfl, ?_, e, List.mem_append_right _ List.mem_cons_self, segs, hdeep, hproper, hpath⟩⟩
        intro e' he'
        rcases List.mem_append.mp he' with he' | he'
        · intro heq
          have hmem := h.all e' he' name [] hname heq
          obtain ⟨i, hi⟩ := List.mem_iff_getElem?.mp hmem
          rw [(h.seen name i).mpr ⟨hname, hi⟩] at hnew
          exact hnew rfl
        · rw [List.mem_singleton.mp he']
          exact hother name hname
  · have hother : ∀ rest, rest ≠ [] → segs ≠ dir ++ rest := fun rest hrest heq => hbelow ⟨rest, hrest, heq⟩
    rw [childrenStep_other hdir hproper hpath hne hother]
    refine h.pass fun name rest hp heq => ?_
    exact hother _ (List.cons_ne_nil name rest) (relText_injective hproper hp (hpath.symm.trans heq))

theorem lists_foldl (hdir : Proper dir) {done : List Entry} (hrel : ∀ e ∈ entries, Relative e.path)
    (h : Lists dir done s) :
    Lists dir (done ++ entries) (entries.foldl (childrenStep (joined dir) (prefixOf dir)) s) := by
  induction entries generalizing done s with
  | nil => rwa [List.append_nil]
  | cons e entries ih =>
    have hstep := ih (fun e' he' => hrel e' (List.mem_cons_of_mem _ he'))
      (h.step hdir (hrel e List.mem_cons_self))
    rwa [List.append_assoc, List.singleton_append] at hstep

end

section
variable {lower : String → String} {narrow : Char → Bool} {entries : List Entry} {d : String} {x : Entry}

def orderKey (lower : String → String) (e : Entry) : Bool ×ₗ String := toLex (!e.dir, lower (pathBase e.path))

@[simp]
theorem less_iff {a b : Entry} : less lower a b = true ↔ orderKey lower a < orderKey lower b := by
  unfold less orderKey
  rw [Prod.Lex.toLex_lt_toLex]
  cases a.dir <;> cases b.dir <;> simp

theorem sortEntries_perm (out : List Entry) : (sortEntries lower out).Perm out := List.mergeSort_perm _ _

theorem sortEntries_sorted (out : List Entry) :
    (sortEntries lower out).Pairwise fun a b => orderKey lower a ≤ orderKey lower b := by
  have hle : ∀ {a b : Entry}, (!less lower b a) = true ↔ orderKey lower a ≤ orderKey lower b := by
    intro a b
    rw [Bool.not_eq_true', ← Bool.not_eq_true, less_iff, not_lt]
  have htotal : ∀ a b, (!less lower b a || !less lower a b) = true := by
    intro a b
    rw [Bool.or_eq_true, hle, hle]
    exact le_total _ _
  have htrans : ∀ a b c, (!less lower b a) = true → (!less lower c b) = true → (!less lower c a) = true :=
    fun a b c hab hbc => hle.mpr ((hle.mp hab).trans (hle.mp hbc))
  have hsorted : (sortEntries lower out).Pairwise fun a b => (!less lower b a) = true :=
    List.pairwise_mergeSort htrans htotal out
  exact hsorted.imp hle.mp

theorem orderKey_perm {out out' : List Entry} (h : out.Perm out') :
    (sortEntries lower out).map (orderKey lower) = (sortEntries lower out').map (orderKey lower) := by
  refine List.Perm.eq_of_pairwise (fun a b _ _ hab hba => le_antisymm hab hba)
    (List.pairwise_map.mpr (sortEntries_sorted out)) (List.pairwise_map.mpr (sortEntries_sorted out')) ?_
  exact (((sortEntries_perm out).trans h).trans (sortEntries_perm out').symm).map _

theorem lists_children (hrel : ∀ e ∈ entries, Relative e.path) : ∃ s, Lists (cleaned narrow d) entries s ∧
    children lower narrow entries d = sortEntries lower s.2 := by
  have htrim : Text.trimOf ['/'] (normalizeName narrow d).toList = joined (cleaned narrow d) := by
    rw [normalizeName_eq, relText, String.toList_ofList]
    refine Text.trimOf_of_ends (fun c hc hmem => ?_) fun c hc hmem => ?_
    · exact joined_head (cleaned_proper d).named c hc (List.mem_singleton.mp hmem)
    · exact joined_last (cleaned_proper d).named c hc (List.mem_singleton.mp hmem)
  have hpre : (if joined (cleaned narrow d) ≠ [] then joined (cleaned narrow d) ++ ['/'] else []) =
      prefixOf (cleaned narrow d) := by
    unfold prefixOf
    by_cases hnil : cleaned narrow d = []
    · rw [if_pos hnil, hnil]
      rfl
    · rw [if_neg hnil, if_pos]
      intro hjoined
      exact hnil (relText_injective (cleaned_proper d) proper_nil (congrArg String.ofList hjoined))
  refine ⟨_, lists_foldl (cleaned_proper d) hrel Lists.zero, ?_⟩
  unfold children
  dsimp only
  rw [htrim, hpre]

theorem children_nodup (hrel : ∀ e ∈ entries, Relative e.path) :
    ((children lower narrow entries d).map Entry.path).Nodup := by
  obtain ⟨s, hs, heq⟩ : ∃ s, Lists (cleaned narrow d) entries s ∧
      children lower narrow entries d = sortEntries lower s.2 := lists_children hrel
  rw [heq]
  exact ((sortEntries_perm s.2).map _).nodup_iff.mpr hs.nodup

theorem of_mem_children (hrel : ∀ e ∈ entries, Relative e.path) (hx : x ∈ children lower narrow entries d) :
    ∃ name, Proper (cleaned narrow d ++ [name]) ∧ Stands entries (cleaned narrow d) name x := by
  obtain ⟨s, hs, heq⟩ : ∃ s, Lists (cleaned narrow d) entries s ∧
      children lower narrow entries d = sortEntries lower s.2 := lists_children hrel
  rw [heq, (sortEntries_perm s.2).mem_iff] at hx
  exact hs.stands x hx

theorem exists_child (hrel : ∀ e ∈ entries, Relative e.path) {e : Entry} (he : e ∈ entries) {name : List Char}
    {rest : List (List Char)} (hproper : Proper (cleaned narrow d ++ name :: rest))
    (hpath : e.path = relText (cleaned narrow d ++ name :: rest)) :
    ∃ x ∈ children lower narrow entries d, x.path = within (cleaned narrow d) name := by
  obtain ⟨s, hs, heq⟩ : ∃ s, Lists (cleaned narrow d) entries s ∧
      children lower narrow entries d = sortEntries lower s.2 := lists_children hrel
  obtain ⟨x, hx, hxpath⟩ := List.mem_map.mp (hs.all e he name rest hproper hpath)
  rw [heq]
  exact ⟨x, (sortEntries_perm s.2).mem_iff.mpr hx, hxpath⟩

/-- The paths of the entries are normalised, no two are the same, and nothing is below a file. -/
structure Indexed (narrow : Char → Bool) (entries : List Entry) : Prop where
  normal : ∀ e ∈ entries, e.path ≠ "" ∧ normalizeName narrow e.path = e.path
  distinct : (entries.map Entry.path).Nodup
  files : ∀ f ∈ entries, f.dir = false → ∀ e ∈ entries, ∀ s, e.path ≠ f.path ++ "/" ++ s

theorem Indexed.relative (h : Indexed narrow entries) : ∀ e ∈ entries, Relative e.path := by
  intro e he
  obtain ⟨hne, hfix⟩ := h.normal e he
  rw [normalizeName_eq] at hfix
  refine ⟨cleaned narrow e.path, ?_, cleaned_proper _, hfix.symm⟩
  intro hnil
  rw [hnil] at hfix
  exact hne hfix.symm

theorem Indexed.perm {entries' : List Entry} (h : Indexed narrow entries) (hperm : entries.Perm entries') :
    Indexed narrow entries' where
  normal e he := h.normal e (hperm.mem_iff.mpr he)
  distinct := (hperm.map _).nodup_iff.mp h.distinct
  files f hf hdir e he := h.files f (hperm.mem_iff.mpr hf) hdir e (hperm.mem_iff.mpr he)

@[grind =]
theorem Indexed.mem_children (h : Indexed narrow entries) : x ∈ children lower narrow entries d ↔
    ∃ name, Proper (cleaned narrow d ++ [name]) ∧ Stands entries (cleaned narrow d) name x := by
  refine ⟨of_mem_children h.relative, ?_⟩
  rintro ⟨name, hname, hpath, hx⟩
  -- what stands for the name in the listing is the same entry
  have hsame : ∀ y, y ∈ children lower narrow entries d → y.path = within (cleaned narrow d) name →
      y ∈ entries ∨ y = placeholder (within (cleaned narrow d) name) ∧ ∀ e ∈ entries, e.path ≠ y.path := by
    intro y hy hypath
    obtain ⟨name', hname', hypath', hy⟩ := of_mem_children h.relative hy
    rw [← hypath', hypath] at hy
    exact hy.imp_right fun ⟨hmade, hnone, _⟩ => ⟨hmade, hypath ▸ hnone⟩
  rcases hx with hreal | ⟨rfl, hnone, e, he, rest, -, hproper, hepath⟩
  · obtain ⟨y, hy, hypath⟩ : ∃ y ∈ children lower narrow entries d, y.path = within (cleaned narrow d) name :=
      exists_child h.relative hreal hname hpath
    rcases hsame y hy hypath with hyreal | ⟨-, hnone⟩
    · rwa [List.inj_on_of_nodup_map h.distinct hreal hyreal (hpath.trans hypath.symm)]
    · exact absurd (hpath.trans hypath.symm) (hnone x hreal)
  · obtain ⟨y, hy, hypath⟩ : ∃ y ∈ children lower narrow entries d, y.path = within (cleaned narrow d) name :=
      exists_child h.relative he hproper hepath
    rcases hsame y hy hypath with hyreal | ⟨rfl, -⟩
    · exact absurd hypath (hnone y hyreal)
    · exact hy

theorem Indexed.children_perm {entries' : List Entry} (h : Indexed narrow entries) (hperm : entries.Perm entries') :
    (children lower narrow entries d).Perm (children lower narrow entries' d) := by
  have h' := h.perm hperm
  refine (List.perm_ext_iff_of_nodup (children_nodup h.relative).of_map (children_nodup h'.relative).of_map).mpr ?_
  intro x
  have hstands : ∀ name, Stands entries (cleaned narrow d) name x ↔ Stands entries' (cleaned narrow d) name x := by
    intro name
    unfold Stands
    simp only [hperm.mem_iff]
  rw [h.mem_children, h'.mem_children]
  exact exists_congr fun name => and_congr_right fun _ => hstands name

inductive Reached (lower : String → String) (narrow : Char → Bool) (entries : List Entry) : String → Prop where
  | root : Reached lower narrow entries ""
  | step {d : String} {x : Entry} : Reached lower narrow entries d → x ∈ children lower narrow entries d →
      x.dir = true → Reached lower narrow entries x.path

theorem cleaned_above {segs rest : List (List Char)} {path : String} (hproper : Proper (segs ++ rest))
    (hpath : path = relText (segs ++ rest)) (hfix : normalizeName narrow path = path) :
    cleaned narrow (relText segs) = segs := by
  rw [hpath] at hfix
  have hsame : cleaned narrow (relText (segs ++ rest)) = segs ++ rest := by
    rw [normalizeName_eq] at hfix
    exact relText_injective (cleaned_proper _) hproper hfix
  have hback : ∀ s ∈ segs ++ rest, '\\' ∉ s := by
    rw [← hsame]
    exact cleaned_slashes _
  have hhead := (fixed_iff hproper hback).mp hfix
  have habove : normalizeName narrow (relText segs) = relText segs := by
    refine (fixed_iff hproper.left fun s hs => hback s (List.mem_append_left _ hs)).mpr fun seg hseg => hhead seg ?_
    rw [List.head?_append, Option.mem_def.mp hseg]
    rfl
  rw [normalizeName_eq] at habove
  exact relText_injective (cleaned_proper _) hproper.left habove

theorem Indexed.reached (h : Indexed narrow entries) {e : Entry} (he : e ∈ entries) {segs rest : List (List Char)}
    (hproper : Proper (segs ++ rest)) (hrest : rest ≠ []) (hpath : e.path = relText (segs ++ rest)) :
    Reached lower narrow entries (relText segs) := by
  induction segs using List.reverseRecOn generalizing rest with
  | nil => exact .root
  | append_singleton segs name ih =>
    rw [List.append_assoc] at hproper hpath
    have habove := cleaned_above hproper hpath (h.normal e he).2
    have hdir := ih hproper nofun hpath
    have hbelow : Proper (cleaned narrow (relText segs) ++ name :: rest) := habove.symm ▸ hproper
    obtain ⟨x, hx, hxpath⟩ : ∃ x ∈ children lower narrow entries (relText segs),
        x.path = within (cleaned narrow (relText segs)) name :=
      exists_child h.relative he hbelow (by rw [habove]; exact hpath)
    rw [habove] at hxpath
    rw [← show within segs name = relText (segs ++ [name]) from rfl, ← hxpath]
    refine hdir.step hx ?_
    obtain ⟨name', -, -, hreal | ⟨rfl, -⟩⟩ := h.mem_children.mp hx
    · by_contra hfile
      refine h.files x hreal (Bool.eq_false_of_not_eq_true hfile) e he (relText rest) ?_
      rw [hxpath, hpath, ← List.append_assoc]
      exact relText_append (List.append_ne_nil_of_right_ne_nil segs nofun) hrest
    · rfl

/-- A listing has every name of its directory once, with the entry there is for it, and nothing else, in
an order that the order of the index does not change; and it leads to every entry. -/
theorem children_complete (lower : String → String) (h : Indexed narrow entries) :
    (∀ d dir, Proper dir → normalizeName narrow d = relText dir →
      ((children lower narrow entries d).map Entry.path).Nodup ∧
      (∀ x, x ∈ children lower narrow entries d ↔ ∃ name, Proper (dir ++ [name]) ∧ Stands entries dir name x) ∧
      (∀ e ∈ entries, ∀ name rest, Proper (dir ++ name :: rest) → e.path = relText (dir ++ name :: rest) →
        ∃ x ∈ children lower narrow entries d, x.path = within dir name) ∧
      (children lower narrow entries d).Pairwise (fun a b => orderKey lower a ≤ orderKey lower b) ∧
      ∀ entries', entries.Perm entries' →
        (children lower narrow entries d).Perm (children lower narrow entries' d) ∧
        (children lower narrow entries d).map (orderKey lower) =
          (children lower narrow entries' d).map (orderKey lower)) ∧
    ∀ e ∈ entries, ∃ d, Reached lower narrow entries d ∧ e ∈ children lower narrow entries d := by
  refine ⟨fun d dir hdir hd => ?_, fun e he => ?_⟩
  · rw [normalizeName_eq] at hd
    obtain rfl := relText_injective (cleaned_proper d) hdir hd
    obtain ⟨s, -, hs⟩ : ∃ s, Lists (cleaned narrow d) entries s ∧
        children lower narrow entries d = sortEntries lower s.2 := lists_children h.relative
    refine ⟨children_nodup h.relative, fun x => h.mem_children, ?_, hs ▸ sortEntries_sorted s.2, ?_⟩
    · intro e he name rest hproper hpath
      exact exists_child h.relative he hproper hpath
    · intro entries' hperm
      obtain ⟨s', -, hs'⟩ : ∃ s', Lists (cleaned narrow d) entries' s' ∧
          children lower narrow entries' d = sortEntries lower s'.2 := lists_children (h.perm hperm).relative
      refine ⟨h.children_perm hperm, ?_⟩
      have hsame : s.2.Perm s'.2 := by
        have hchildren : (children lower narrow entries d).Perm (children lower narrow entries' d) := h.children_perm hperm
        rw [hs, hs'] at hchildren
        exact ((sortEntries_perm s.2).symm.trans hchildren).trans (sortEntries_perm s'.2)
      rw [hs, hs', orderKey_perm hsame]
  · obtain ⟨segs, hne, hproper, hpath⟩ := h.relative e he
    obtain ⟨above, name, rfl⟩ := (List.eq_nil_or_concat' segs).resolve_left hne
    have habove := cleaned_above hproper hpath (h.normal e he).2
    refine ⟨relText above, h.reached he hproper (List.cons_ne_nil name []) hpath, ?_⟩
    rw [h.mem_children, habove]
    exact ⟨name, hproper, hpath, .inl he⟩

end

-- Two files with names that differ in case only, the first of which comes before the directory
-- they are in.
def deepFile : Entry := ⟨"a/b", 1, 0o644, 0, false, "files.tar", 512⟩

def deepDir : Entry := ⟨"a", 0, 0o755, 0, true, "files.tar", 1536⟩

def deepUpper : Entry := ⟨"a/B", 1, 0o644, 0, false, "files.tar", 2048⟩

def deepEntries : List Entry :=
  [deepFile, deepDir, deepUpper, ⟨"c/d", 1, 0o644, 0, false, "files.tar", 3072⟩]

def foldB (s : String) : String := if s = "B" then "b" else s

theorem deep_indexed : Indexed ascii deepEntries where
  normal := by decide +kernel
  distinct := by decide
  files f hf hfile e he s heq := by
    have hlen := congrArg String.length heq
    rw [String.length_append, String.length_append] at hlen
    have hslash : "/".length = 1 := by decide
    have hshort : ∀ e ∈ deepEntries, e.path.length ≤ 3 := by decide
    have hlong : ∀ f ∈ deepEntries, f.dir = false → f.path.length = 3 := by decide
    have hle := hshort e he
    rw [hlen, hlong f hf hfile, hslash] at hle
    omega

theorem deep_listed :
    (∀ e ∈ deepEntries, ∃ d, Reached foldB ascii deepEntries d ∧ e ∈ children foldB ascii deepEntries d) ∧
    deepDir ∈ children foldB ascii deepEntries "" ∧ placeholder "a" ∉ children foldB ascii deepEntries "" ∧
    placeholder "c" ∈ children foldB ascii deepEntries "" ∧
    deepFile ∈ children foldB ascii deepEntries "a" ∧ deepUpper ∈ children foldB ascii deepEntries "a" ∧
    orderKey foldB deepFile = orderKey foldB deepUpper := by
  obtain ⟨hlist, hreach⟩ := children_complete foldB deep_indexed
  have hproper : Proper [['a']] := by decide
  obtain ⟨-, htop, -⟩ := hlist "" [] proper_nil (by decide +kernel)
  obtain ⟨-, hbelow, -⟩ := hlist "a" [['a']] hproper (by decide +kernel)
  refine ⟨hreach, ?_, ?_, ?_, ?_, ?_, by decide +kernel⟩
  · exact (htop _).mpr ⟨['a'], hproper, by decide +kernel, .inl (by decide)⟩
  · intro hmem
    obtain ⟨name, -, hpath, hin | ⟨-, hnone, -⟩⟩ := (htop _).mp hmem
    · exact absurd hin (by decide)
    · exact hnone deepDir (by decide) hpath
  · refine (htop _).mpr ⟨['c'], by decide, by decide +kernel, .inr ⟨by decide +kernel, by decide +kernel,
      ⟨"c/d", 1, 0o644, 0, false, "files.tar", 3072⟩, by decide, [['d']], by decide, by decide, by decide +kernel⟩⟩
  · exact (hbelow _).mpr ⟨['b'], by decide, by decide +kernel, .inl (by decide)⟩
  · exact (hbelow _).mpr ⟨['B'], by decide, by decide +kernel, .inl (by decide)⟩

end ProxBack.Browse
