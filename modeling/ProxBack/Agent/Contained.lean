import ProxBack.Agent.Disk

/-! Where an extraction may write: the destination, and what its text is a directory of. -/
namespace ProxBack.Agent.Tar
open Lib Prog Engine

/-- `Abs`, for an agent in the directory `wd`. -/
def unixAbs (wd path : String) : String :=
  if unixPaths.isAbs path then unixClean path else unixPaths.join wd path

/-- A cleaned name that starts at the root, or leads out of where it is joined to. -/
def Strays (paths : Paths) (rel : String) : Prop :=
  paths.isAbs rel = true ∨ rel = ".." ∨ ∃ rest, rel = ".." ++ paths.separator ++ rest

def Call.path : Call → Option String
  | .mkdirAll path _ | .openFile path _ | .write path _ | .close path | .chtimes path _ => some path
  | .abs _ | .restoreStream _ | .complete _ => none

/-- A call for one entry: at its target, which the destination is the start of, or the one that
makes the directory of the target. -/
def Call.For (paths : Paths) (absDest : String) (it : Item) (c : Call) : Prop :=
  ∃ rest, paths.join absDest (paths.clean it.header.name) = absDest ++ paths.separator ++ rest ∧
    (c.path = some (paths.join absDest (paths.clean it.header.name)) ∨
      c = .mkdirAll (paths.dir (paths.join absDest (paths.clean it.header.name))) 0o755)

def OnWay (dir path : String) : Prop := path = dir ∨ ∃ rest, dir = path ++ "/" ++ rest

def StrictlyBelow (dir path : String) : Prop :=
  ∃ segs, segs ≠ [] ∧ Proper segs ∧ path = dir ++ "/" ++ relText segs

/-- The paths that a call creates, opens for writing or changes the times of; a directory is made with
all that is missing above it. -/
def Call.Touches (path : String) : Call → Prop
  | .mkdirAll dir _ => OnWay dir path
  | .openFile file _ | .write file _ | .close file | .chtimes file _ => path = file
  | .abs _ | .restoreStream _ | .complete _ => False

@[simp] theorem hasPrefix_iff {s p : String} : hasPrefix s p = true ↔ ∃ rest, s = p ++ rest := by
  rw [hasPrefix, List.isPrefixOf_iff_prefix]
  constructor
  · rintro ⟨rest, hrest⟩
    refine ⟨.ofList rest, ?_⟩
    rw [← s.ofList_toList, ← hrest, String.ofList_append, p.ofList_toList]
  · rintro ⟨rest, rfl⟩
    rw [String.toList_append]
    exact List.prefix_append _ _

section
variable {paths : Paths} {absDest : String} {it : Item} {its : List Item} {err : Engine.Err}

theorem extractFile_for {rest : String}
    (hbelow : paths.join absDest (paths.clean it.header.name) = absDest ++ paths.separator ++ rest) :
    Calls (Call.For paths absDest it) (extractFile paths (paths.join absDest (paths.clean it.header.name)) it) := by
  have hat : ∀ {c : Call}, c.path = some (paths.join absDest (paths.clean it.header.name)) →
      Call.For paths absDest it c := fun hc => ⟨rest, hbelow, .inl hc⟩
  refine ⟨⟨rest, hbelow, .inr rfl⟩, ?_⟩
  rintro (f | ⟨⟩)
  · trivial
  refine ⟨hat rfl, ?_⟩
  rintro (f | ⟨⟩)
  · trivial
  refine ⟨hat rfl, ?_⟩
  rintro (f | ⟨⟩)
  · exact ⟨hat rfl, fun _ => trivial⟩
  dsimp only
  split
  · exact ⟨hat rfl, fun _ => trivial⟩
  refine ⟨hat rfl, ?_⟩
  rintro (f | ⟨⟩)
  · trivial
  dsimp only
  split
  · trivial
  · exact ⟨hat rfl, fun _ => trivial⟩

theorem extractEntry_for : Calls (Call.For paths absDest it) (extractEntry paths absDest it) := by
  unfold extractEntry
  dsimp only
  split
  · trivial
  split
  · trivial
  split
  · trivial
  rename_i hbelow
  obtain ⟨rest, hrest⟩ := hasPrefix_iff.mp (Decidable.not_not.mp hbelow)
  split
  · refine ⟨⟨rest, hrest, .inl rfl⟩, ?_⟩
    rintro (f | ⟨⟩) <;> trivial
  · exact extractFile_for hrest
  · trivial

theorem extractEntry_strays (hne : paths.clean it.header.name ≠ ".")
    (h : Strays paths (paths.clean it.header.name)) :
    extractEntry paths absDest it = .ret (some (.unsafeEntry it.header.name)) := by
  unfold extractEntry
  dsimp only
  rw [if_neg hne, if_pos]
  exact h.imp_right fun h => h.imp_right hasPrefix_iff.mpr

theorem extractLoop_for :
    Calls (fun c => ∃ it ∈ its, Call.For paths absDest it c) (extractLoop paths absDest its err) := by
  induction its with
  | nil => trivial
  | cons it rest ih =>
    refine Calls.bind (extractEntry_for.mono fun c hc => ⟨it, List.mem_cons_self, hc⟩) fun out => ?_
    cases out with
    | some err => trivial
    | none => exact ih.mono fun c ⟨it', hit, hc⟩ => ⟨it', List.mem_cons_of_mem _ hit, hc⟩

theorem extractLoop_strays {pre post : List Item} (hne : paths.clean it.header.name ≠ ".")
    (h : Strays paths (paths.clean it.header.name)) :
    Ends (fun c => ∃ it' ∈ pre, Call.For paths absDest it' c) (· ≠ none)
      (extractLoop paths absDest (pre ++ it :: post) err) := by
  induction pre with
  | nil =>
    rw [List.nil_append, extractLoop, extractEntry_strays hne h]
    exact nofun
  | cons it' pre ih =>
    have hentry : Ends (fun c => ∃ it'' ∈ it' :: pre, Call.For paths absDest it'' c) (fun _ => True)
        (extractEntry paths absDest it') :=
      .of_calls (extractEntry_for.mono fun c hc => ⟨it', List.mem_cons_self, hc⟩) fun _ => trivial
    refine hentry.bind fun out _ => ?_
    cases out with
    | some err => exact nofun
    | none =>
      refine Wp.mono (fun _ _ _ _ => id) ?_ (fun _ _ => id) ih
      rintro c - ⟨it'', hit, hc⟩
      exact ⟨it'', List.mem_cons_of_mem _ hit, hc⟩

end

section
variable {dest rest : List (List Char)} {path : String}

@[simp] theorem absText_toList (h : dest ≠ []) : (absText dest).toList = slashed dest := by
  rw [absText, if_neg h, String.toList_ofList]

theorem absText_append (h : dest ≠ []) (hrest : rest ≠ []) :
    absText (dest ++ rest) = absText dest ++ "/" ++ relText rest := by
  refine String.toList_injective ?_
  rw [toList_slash, absText_toList (List.append_ne_nil_of_left_ne_nil h rest), absText_toList h, slashed_append,
    ← cons_joined hrest, relText, String.toList_ofList]

theorem below_absText {target : List (List Char)} (hdest : Proper dest) (htarget : Proper target) {s : String}
    (h : absText target = absText dest ++ "/" ++ s) :
    dest ≠ [] ∧ ∃ rest, rest ≠ [] ∧ target = dest ++ rest := by
  have htext : (absText target).toList = (absText dest).toList ++ '/' :: s.toList := by
    rw [h, toList_slash]
  have hroot : (absText []).toList = ['/'] := String.toList_ofList
  by_cases hne : target = []
  · subst hne
    have hnil : (absText dest).toList = [] := by
      rw [hroot] at htext
      refine (List.append_eq_singleton_iff.mp htext.symm).elim And.left fun h => absurd h.2 nofun
    by_cases hd : dest = []
    · rw [hd, hroot] at hnil
      cases hnil
    · rw [absText_toList hd, ← cons_joined hd] at hnil
      cases hnil
  rw [absText_toList hne] at htext
  by_cases hd : dest = []
  · rw [hd, hroot, ← cons_joined hne] at htext
    have hhead := head_joined htarget
    rw [(List.cons.inj htext).2] at hhead
    exact absurd rfl hhead
  rw [absText_toList hd] at htext
  obtain ⟨a, b, rfl, ha, hb⟩ := slashed_split htarget.named.plain htext
  refine ⟨hd, b, ?_, by rw [slashed_injective htarget.left.named.plain hdest.named.plain ha]⟩
  rintro rfl
  cases hb

/-- What is made on the way to a path below the destination is on the way to the destination, or below
it as well. -/
theorem onWay_below (hd : dest ≠ []) (hproper : Proper (dest ++ rest))
    (h : OnWay (absText (dest ++ rest)) path) :
    OnWay (absText dest) path ∨ StrictlyBelow (absText dest) path := by
  have hpart : ∀ {part}, Proper (dest ++ part) → path = absText (dest ++ part) →
      OnWay (absText dest) path ∨ StrictlyBelow (absText dest) path := by
    intro part hpart heq
    by_cases hnil : part = []
    · exact .inl (.inl (by rw [heq, hnil, List.append_nil]))
    · exact .inr ⟨part, hnil, hpart.right, by rw [heq, absText_append hd hnil]⟩
  rcases h with h | ⟨s, hs⟩
  · exact hpart hproper h
  have htext : slashed (dest ++ rest) = path.toList ++ '/' :: s.toList := by
    rw [← absText_toList (List.append_ne_nil_of_left_ne_nil hd rest), hs, toList_slash]
  obtain ⟨a, b, hab, ha, hb⟩ := slashed_split hproper.named.plain htext
  have hbne : b ≠ [] := by
    rintro rfl
    cases hb
  rcases List.append_eq_append_iff.mp hab with ⟨c, rfl, rfl⟩ | ⟨c, rfl, rfl⟩
  · refine hpart (List.append_assoc dest c b ▸ hproper).left (String.toList_injective ?_)
    rw [← ha, absText_toList (List.append_ne_nil_of_left_ne_nil hd c)]
  by_cases hnil : c = []
  · refine .inl (.inl (String.toList_injective ?_))
    rw [← ha, absText_toList hd, hnil, List.append_nil]
  · refine .inl (.inr ⟨relText c, String.toList_injective ?_⟩)
    rw [absText_toList hd, slashed_append, ha, ← cons_joined hnil, toList_slash, relText, String.toList_ofList]

theorem clean_rooted (h : unixPaths.isAbs path = true) : ∃ segs, Proper segs ∧ unixClean path = absText segs :=
  ⟨_, proper_cleanSegments (pathSegments_plain path) proper_nil, unixClean_rooted h⟩

@[grind =]
theorem isAbs_slash {a b : String} (h : a.toList.head? = some '/') : unixPaths.isAbs (a ++ "/" ++ b) = true := by
  refine decide_eq_true ?_
  rw [toList_slash, List.head?_append, h]
  rfl

theorem unixAbs_eq {wd : String} (hwd : unixPaths.isAbs wd = true) :
    ∃ segs, Proper segs ∧ unixAbs wd path = absText segs := by
  unfold unixAbs
  split
  · rename_i habs
    exact clean_rooted habs
  · exact clean_rooted (isAbs_slash (of_decide_eq_true hwd))

@[simp]
theorem head_absText (dest : List (List Char)) : (absText dest).toList.head? = some '/' := by
  cases dest with
  | nil => rw [absText, if_pos rfl, String.toList_ofList]; rfl
  | cons seg dest => rw [absText_toList (List.cons_ne_nil seg dest)]; rfl

theorem for_below {it : Item} {c : Call} (hdest : Proper dest) (h : c.For unixPaths (absText dest) it)
    (htouch : c.Touches path) : OnWay (absText dest) path ∨ StrictlyBelow (absText dest) path := by
  obtain ⟨s, hs, hcall⟩ := h
  obtain ⟨target, htarget, hclean⟩ := clean_rooted (isAbs_slash (b := unixPaths.clean it.header.name) (head_absText dest))
  have hjoin : unixPaths.join (absText dest) (unixPaths.clean it.header.name) = absText target := hclean
  rw [hjoin] at hs hcall
  obtain ⟨hd, rest, hrest, rfl⟩ := below_absText hdest htarget hs
  rcases hcall with hat | rfl
  · refine onWay_below hd htarget ?_
    cases c with
    | mkdirAll dir perm =>
      cases hat
      exact htouch
    | openFile file _ | write file _ | close file | chtimes file _ =>
      cases hat
      exact .inl htouch
    | abs _ | restoreStream _ | complete _ => cases hat
  · obtain ⟨init, last, rfl⟩ := (List.eq_nil_or_concat' rest).resolve_left hrest
    rw [← List.append_assoc] at htarget htouch
    have htouch : OnWay _ path := htouch
    rw [dir_absText htarget] at htouch
    exact onWay_below hd htarget.left htouch

end

section
variable {fmt : Format} {paths : Paths} {body : Body} {dest : String} {log : List Event}
  {q : UnpackM (Option UnpackErr)}

theorem extractTar_events {P : String → Call → Prop}
    (hloop : ∀ absDest, Calls (P absDest) (extractLoop paths absDest (items fmt [] body).1 (items fmt [] body).2))
    (hlog : Logs (extractTar fmt paths body dest) log q) (ev : Event) (hev : ev ∈ log) :
    ev.1 = .mkdirAll dest 0o755 ∨ ev.1 = .abs dest ∨ ∃ absDest, ⟨.abs dest, .ok absDest⟩ ∈ log ∧ P absDest ev.1 := by
  cases hlog with
  | nil => exact absurd hev List.not_mem_nil
  | cons made h₁ =>
    rcases List.mem_cons.mp hev with rfl | hev₁
    · exact .inl rfl
    rcases made with f | ⟨⟩
    · obtain ⟨rfl, -⟩ := h₁.of_ret
      exact absurd hev₁ List.not_mem_nil
    cases h₁ with
    | nil => exact absurd hev₁ List.not_mem_nil
    | cons resolved h₂ =>
      rcases List.mem_cons.mp hev₁ with rfl | hev₂
      · exact .inr (.inl rfl)
      rcases resolved with f | absDest
      · obtain ⟨rfl, -⟩ := h₂.of_ret
        exact absurd hev₂ List.not_mem_nil
      exact .inr (.inr ⟨absDest, .tail _ (.head _), (hloop absDest).logs h₂ ev hev₂⟩)

theorem extractTar_strays {it : Item} {pre post : List Item} (hitems : (items fmt [] body).1 = pre ++ it :: post)
    (hne : paths.clean it.header.name ≠ ".") (h : Strays paths (paths.clean it.header.name)) :
    Ends (fun _ => True) (· ≠ none) (extractTar fmt paths body dest) := by
  refine ⟨trivial, fun made _ _ => ?_⟩
  rcases made with f | ⟨⟩
  · exact nofun
  refine ⟨trivial, fun resolved _ _ => ?_⟩
  rcases resolved with f | absDest
  · exact nofun
  have hloop : Ends (fun c => ∃ it' ∈ pre, Call.For paths absDest it' c) (· ≠ none)
      (extractLoop paths absDest (items fmt [] body).1 (items fmt [] body).2) := by
    rw [hitems]
    exact extractLoop_strays hne h
  exact hloop.mono (fun _ _ _ _ => id) (fun _ _ _ => trivial) fun _ _ => id

/-- Nothing is created, written or changed but the destination, what it is in, and what is strictly
below it; and an entry whose name strays ends the extraction before anything is done for it. -/
theorem stays_below (hlog : Logs (extractTar fmt paths body dest) log q) :
    (∀ ev ∈ log, ev.1 = .mkdirAll dest 0o755 ∨ ev.1 = .abs dest ∨ ∃ absDest, ⟨.abs dest, .ok absDest⟩ ∈ log ∧
      ∃ it ∈ (items fmt [] body).1, ev.1.For paths absDest it) ∧
    (∀ pre it post, (items fmt [] body).1 = pre ++ it :: post → paths.clean it.header.name ≠ "." →
      Strays paths (paths.clean it.header.name) → (∀ out, q = .ret out → out ≠ none) ∧
        ∀ ev ∈ log, ev.1 = .mkdirAll dest 0o755 ∨ ev.1 = .abs dest ∨
          ∃ absDest, ⟨.abs dest, .ok absDest⟩ ∈ log ∧ ∃ it' ∈ pre, ev.1.For paths absDest it') ∧
    (paths = unixPaths →
      (∀ absDest, ⟨.abs dest, .ok absDest⟩ ∈ log → ∃ wd, unixPaths.isAbs wd = true ∧ absDest = unixAbs wd dest) →
      ∀ ev ∈ log, ∀ path, ev.1.Touches path → OnWay dest path ∨
        ∃ absDest, ⟨.abs dest, .ok absDest⟩ ∈ log ∧ (OnWay absDest path ∨ StrictlyBelow absDest path)) := by
  have hevents := extractTar_events (P := fun absDest c => ∃ it ∈ (items fmt [] body).1, c.For paths absDest it)
    (fun _ => extractLoop_for) hlog
  refine ⟨hevents, fun pre it post hitems hne h => ⟨?_, ?_⟩, ?_⟩
  · rintro out rfl
    exact (extractTar_strays hitems hne h).logs hlog
  · refine extractTar_events (P := fun absDest c => ∃ it' ∈ pre, c.For paths absDest it') (fun absDest => ?_) hlog
    rw [hitems]
    exact (extractLoop_strays hne h).calls
  · rintro rfl habs ev hev path htouch
    rcases hevents ev hev with hmake | hresolve | ⟨absDest, hok, it, -, hfor⟩
    · rw [hmake] at htouch
      exact .inl htouch
    · rw [hresolve] at htouch
      cases htouch
    · obtain ⟨wd, hwd, rfl⟩ := habs absDest hok
      obtain ⟨segs, hsegs, heq⟩ : ∃ segs, Proper segs ∧ unixAbs wd dest = absText segs := unixAbs_eq hwd
      rw [heq] at hok hfor
      exact .inr ⟨_, hok, for_below hsegs hfor htouch⟩

end

def strayTar : Bytes :=
  headerBlock "d" "0000755" "006111" 53 "" ++ headerBlock "../x" "0000755" "006350" 53 "" ++
    List.replicate 1024 0

def insideItem : Item := ⟨⟨"d", .dir, 0o755, 0, 62135596800 * 10 ^ 9⟩, [], none⟩

def strayItem : Item := ⟨⟨"../x", .dir, 0o755, 0, 62135596800 * 10 ^ 9⟩, [], none⟩

theorem items_strayTar : items ustar [] ⟨strayTar, none⟩ = ([insideItem, strayItem], .eof) := by
  have hinside : next ustar [] ⟨strayTar, none⟩ =
      .entry insideItem ⟨headerBlock "../x" "0000755" "006350" 53 "" ++ List.replicate 1024 0, none⟩ := by
    decide +kernel
  have hstray : next ustar [] ⟨headerBlock "../x" "0000755" "006350" 53 "" ++ List.replicate 1024 0, none⟩ =
      .entry strayItem ⟨List.replicate 1024 0, none⟩ := by decide +kernel
  have hend : next ustar [] ⟨List.replicate 1024 0, none⟩ = .ended .eof := by decide +kernel
  rw [items_entry hinside, items_entry hstray, items_ended hend]

def strayLog : List Event :=
  [⟨.mkdirAll "/restore" 0o755, .ok ()⟩, ⟨.abs "/restore", .ok "/restore"⟩, ⟨.mkdirAll "/restore/d" 0o755, .ok ()⟩]

theorem strayLog_logs :
    Logs (extractTar ustar unixPaths ⟨strayTar, none⟩ "/restore") strayLog (.ret (some (.unsafeEntry "../x"))) := by
  have hstrays : Strays unixPaths (unixPaths.clean strayItem.header.name) :=
    .inr (.inr ⟨"x", by decide +kernel⟩)
  have hclean : unixPaths.clean insideItem.header.name = "d" := by decide +kernel
  have hjoin : unixPaths.join "/restore" "d" = "/restore/d" := by decide +kernel
  have habs : ¬ (unixPaths.isAbs "d" ∨ "d" = ".." ∨ hasPrefix "d" (".." ++ unixPaths.separator)) := by
    decide +kernel
  have hbelow : hasPrefix "/restore/d" ("/restore" ++ unixPaths.separator) = true := by decide +kernel
  have hdot : ¬ "d" = "." := by decide
  have hentry : Logs (extractEntry unixPaths "/restore" insideItem) [⟨.mkdirAll "/restore/d" 0o755, .ok ()⟩]
      (.ret none) := by
    rw [extractEntry]
    simp only [hclean, hjoin, hdot, habs, hbelow, not_true_eq_false, if_false]
    exact .cons _ .nil
  rw [extractTar, items_strayTar]
  refine .cons _ (.cons _ ?_)
  have hloop : Logs (extractLoop unixPaths "/restore" [insideItem, strayItem] .eof)
      ([⟨.mkdirAll "/restore/d" 0o755, .ok ()⟩] ++ []) (.ret (some (.unsafeEntry "../x"))) := by
    refine (hentry.bind _).trans ?_
    dsimp only [ret_bind]
    rw [extractLoop, extractEntry_strays (by decide +kernel) hstrays]
    exact .nil
  exact hloop

theorem stays_below_stray :
    Logs (extractTar ustar unixPaths ⟨strayTar, none⟩ "/restore") strayLog (.ret (some (.unsafeEntry "../x"))) ∧
      StrictlyBelow "/restore" "/restore/d" ∧
      (∀ ev ∈ strayLog, ∀ path, ev.1.Touches path → OnWay "/restore" path ∨ StrictlyBelow "/restore" path) ∧
      ∀ ev ∈ strayLog, ev.1 = .mkdirAll "/restore" 0o755 ∨ ev.1 = .abs "/restore" ∨
        ∃ absDest, ⟨.abs "/restore", .ok absDest⟩ ∈ strayLog ∧ ∃ it' ∈ [insideItem], ev.1.For unixPaths absDest it' := by
  obtain ⟨-, hstrays, hbelow⟩ := stays_below strayLog_logs
  have hresolved : ∀ absDest, ⟨.abs "/restore", .ok absDest⟩ ∈ strayLog → absDest = "/restore" := by
    intro absDest h
    simp only [strayLog, List.mem_cons, List.not_mem_nil, or_false] at h
    rcases h with h | h | h
    · cases h
    · cases h
      rfl
    · cases h
  refine ⟨strayLog_logs, ⟨[['d']], by decide, by decide, by decide +kernel⟩, ?_, ?_⟩
  · intro ev hev path htouch
    have habs : ∀ absDest, ⟨.abs "/restore", .ok absDest⟩ ∈ strayLog →
        ∃ wd, unixPaths.isAbs wd = true ∧ absDest = unixAbs wd "/restore" := by
      intro absDest h
      exact ⟨"/", by decide +kernel, (hresolved absDest h).trans (by decide +kernel)⟩
    rcases hbelow rfl habs ev hev path htouch with h | ⟨absDest, hok, h⟩
    · exact .inl h
    · rwa [hresolved absDest hok] at h
  · refine (hstrays [insideItem] strayItem [] ?_ (by decide +kernel) (.inr (.inr ⟨"x", by decide +kernel⟩))).2
    rw [items_strayTar]
    rfl

end ProxBack.Agent.Tar
