import ProxBack.Update.SelfUpdate
import ProxBack.Update.Held

/-! An update that fails leaves the machine its binary. Until the renames only the temporary file
changes; from the first rename to the end of the last, one of two names holds a whole binary. -/
namespace ProxBack.Update
open Lib Text Prog Function
open Engine (Bytes Fault)
open Agent.Tar (Paths unixPaths)

abbrev oldPath (dest : String) : String := dest ++ oldBinarySuffix

/-- The temporary file holds `data`; every other file is as on `d`, that of an earlier update
apart. -/
structure Cleared (d : Files.Disk) (dest tmp : String) (data : Bytes) (w : World) : Prop where
  held : w.disk tmp = some data
  others : ∀ path, path ≠ tmp → path ≠ oldPath dest → w.disk path = d path

structure Aside (d : Files.Disk) (dest tmp : String) (data prev : Bytes) (w : World) : Prop where
  held : w.disk tmp = some data
  aside : w.disk (oldPath dest) = some prev
  others : ∀ path, path ≠ tmp → path ≠ dest → path ≠ oldPath dest → w.disk path = d path

/-- What an update leaves, its temporary file apart: `Good` is what the installed bytes went
through. -/
structure Left (d : Files.Disk) (dest tmp : String) (prev : Bytes) (Good : Bytes → List Fetch → Prop)
    (res : Option Err) (w : World) : Prop where
  installed : res = none → ∃ data, w.disk dest = some data ∧ Good data w.fetched
  failed : res ≠ none → w.disk dest = some prev ∨
    w.disk (oldPath dest) = some prev ∧ .rename (oldPath dest) dest ∈ w.failed
  others : ∀ path, path ≠ tmp → path ≠ dest → path ≠ oldPath dest → w.disk path = d path

section
variable {α : Type} {post : α → World → Prop} {d : Files.Disk} {dest tmp : String} {data prev : Bytes}
  {w : World}

theorem oldPath_ne (dest : String) : oldPath dest ≠ dest := by
  intro h
  have hlen := congrArg String.length h
  rw [String.length_append] at hlen
  have hsuffix : oldBinarySuffix.length = 4 := rfl
  omega

theorem Cleared.dest_eq (h : Cleared d dest tmp data w) (hprev : d dest = some prev) (htmp : tmp ≠ dest) :
    w.disk dest = some prev := by
  rw [h.others dest htmp.symm (oldPath_ne dest).symm]
  exact hprev

theorem Cleared.left {Good : Bytes → List Fetch → Prop} (h : Cleared d dest tmp data w)
    (hprev : d dest = some prev) (htmp : tmp ≠ dest) (err : Err) :
    Left d dest tmp prev Good (some err) w :=
  ⟨nofun, fun _ => .inl (h.dest_eq hprev htmp), fun path ht _ ho => h.others path ht ho⟩

theorem Held.cleared (h : Held d tmp data w) (dest : String) : Cleared d dest tmp data w :=
  ⟨h.held, fun path ht _ => h.others path ht⟩

theorem Held.left {Good : Bytes → List Fetch → Prop} (h : Held d tmp data w) (hprev : d dest = some prev)
    (htmp : tmp ≠ dest) (err : Err) : Left d dest tmp prev Good (some err) w :=
  (h.cleared dest).left hprev htmp err

theorem sure_removeOld {k : Option Files.Fault → UpdateM α} (h : Held d tmp data w)
    (htmp : tmp ≠ oldPath dest)
    (hk : ∀ r w', Cleared d dest tmp data w' → w'.fetched = w.fetched → Sure post (k r) w') :
    Sure post (.call (.file (.remove (oldPath dest))) k) w := by
  refine sure_file fun r disk hT => ?_
  rcases Files.remove_cases hT with ⟨rfl, rfl⟩ | ⟨f, rfl, rfl, -⟩
  · refine hk _ _ ⟨?_, fun path ht ho => ?_⟩ rfl
    · exact (update_of_ne htmp _ _).trans h.held
    · exact (update_of_ne ho _ _).trans (h.others path ht)
  · exact hk _ _ (h.after.cleared dest) rfl

theorem sure_aside {k : Option Files.Fault → UpdateM α} (h : Cleared d dest tmp data w)
    (hprev : d dest = some prev) (htmp : tmp ≠ dest) (htmpOld : tmp ≠ oldPath dest)
    (hdone : ∀ w', Aside d dest tmp data prev w' → w'.fetched = w.fetched → Sure post (k none) w')
    (hfail : ∀ f w', f ≠ .notExist → Cleared d dest tmp data w' → Sure post (k (some f)) w') :
    Sure post (.call (.file (.rename dest (oldPath dest))) k) w := by
  have hdest := h.dest_eq hprev htmp
  refine sure_file fun r disk hT => ?_
  rcases Files.rename_cases hT with ⟨rfl, moved, hmoved, rfl⟩ | ⟨f, rfl, rfl, hmissing⟩
  · refine hdone _ ⟨?_, ?_, fun path ht hd ho => ?_⟩ rfl
    · rw [World.after_disk, update_of_ne htmpOld, update_of_ne htmp]
      exact h.held
    · rw [World.after_disk, update_self, ← hmoved]
      exact hdest
    · rw [World.after_disk, update_of_ne ho, update_of_ne hd]
      exact h.others path ht ho
  · refine hfail f _ (fun hf => ?_) ⟨h.held, h.others⟩
    rw [hmissing hf] at hdest
    cases hdest

theorem sure_place {k : Option Files.Fault → UpdateM α} (h : Aside d dest tmp data prev w)
    (hdone : ∀ w', w'.disk dest = some data → w'.fetched = w.fetched →
      (∀ path, path ≠ tmp → path ≠ dest → path ≠ oldPath dest → w'.disk path = d path) →
      Sure post (k none) w')
    (hfail : ∀ f w', Aside d dest tmp data prev w' → Sure post (k (some f)) w') :
    Sure post (.call (.file (.rename tmp dest)) k) w := by
  refine sure_file fun r disk hT => ?_
  rcases Files.rename_cases hT with ⟨rfl, moved, hmoved, rfl⟩ | ⟨f, rfl, rfl, -⟩
  · refine hdone _ ?_ rfl fun path ht hd ho => ?_
    · rw [World.after_disk, update_self, ← hmoved]
      exact h.held
    · rw [World.after_disk, update_of_ne hd, update_of_ne ht]
      exact h.others path ht hd ho
  · exact hfail f _ ⟨h.held, h.aside, h.others⟩

theorem sure_back {Good : Bytes → List Fetch → Prop} {err : Option Files.Fault → Err}
    (h : Aside d dest tmp data prev w) :
    Sure (Left d dest tmp prev Good)
      (.call (.file (.rename (oldPath dest) dest)) fun rollback => .ret (some (err rollback))) w := by
  refine sure_file fun r disk hT => ?_
  rcases Files.rename_cases hT with ⟨rfl, moved, hmoved, rfl⟩ | ⟨f, rfl, rfl, hmissing⟩
  · refine ⟨nofun, fun _ => .inl ?_, fun path ht hd ho => ?_⟩
    · rw [World.after_disk, update_self, ← hmoved]
      exact h.aside
    · rw [World.after_disk, update_of_ne hd, update_of_ne ho]
      exact h.others path ht hd ho
  · refine ⟨nofun, fun _ => .inr ⟨h.aside, World.mem_failed_self ?_⟩, h.others⟩
    cases f with
    | notExist =>
      have hgone := hmissing rfl
      rw [h.aside] at hgone
      cases hgone
    | exist => rfl
    | code n => rfl

variable {Good : Bytes → List Fetch → Prop}

theorem sure_installBinary (h : Held d tmp data w) (hprev : d dest = some prev) (htmp : tmp ≠ dest)
    (htmpOld : tmp ≠ oldPath dest) (hgood : Good data w.fetched) :
    Sure (Left d dest tmp prev Good) (installBinary tmp dest) w := by
  refine sure_removeOld h htmpOld fun r w₁ h₁ hfetched₁ => ?_
  refine sure_aside h₁ hprev htmp htmpOld (fun w₂ h₂ hfetched₂ => ?_) fun f w₂ hf h₂ => ?_
  · refine sure_place h₂ (fun w₃ hplaced hfetched₃ hothers => ?_) fun f w₃ h₃ => sure_back h₃
    have hgood₃ : Good data w₃.fetched := by rwa [hfetched₃, hfetched₂, hfetched₁]
    refine sure_file fun r disk hT => ?_
    have hkeep : ∀ path, path ≠ oldPath dest → disk path = w₃.disk path := by
      intro path ho
      rcases Files.remove_cases hT with ⟨-, rfl⟩ | ⟨f, -, rfl, -⟩
      · exact update_of_ne ho _ _
      · rfl
    refine ⟨fun _ => ⟨data, ?_, hgood₃⟩, fun hres => absurd rfl hres, fun path ht hd ho => ?_⟩
    · exact (hkeep dest (oldPath_ne dest).symm).trans hplaced
    · exact (hkeep path ho).trans (hothers path ht hd ho)
  · dsimp only
    rw [if_pos hf]
    exact h₂.left hprev htmp _

theorem sure_swapBinary (h : Held d tmp data w) (hprev : d dest = some prev) (htmp : tmp ≠ dest)
    (htmpOld : tmp ≠ oldPath dest) (hgood : Good data w.fetched) :
    Sure (Left d dest tmp prev Good) (swapBinary tmp dest) w := by
  refine sure_removeOld h htmpOld fun r w₁ h₁ hfetched₁ => ?_
  refine sure_aside h₁ hprev htmp htmpOld (fun w₂ h₂ hfetched₂ => ?_) fun f w₂ hf h₂ => ?_
  · refine sure_place h₂ (fun w₃ hplaced hfetched₃ hothers => ?_) fun f w₃ h₃ => sure_back h₃
    have hgood₃ : Good data w₃.fetched := by rwa [hfetched₃, hfetched₂, hfetched₁]
    exact ⟨fun _ => ⟨data, hplaced, hgood₃⟩, fun hres => absurd rfl hres, hothers⟩
  · exact h₂.left hprev htmp _

theorem sure_closed {next : UpdateM (Option Err)} (h : Held d tmp data w) (hprev : d dest = some prev)
    (htmp : tmp ≠ dest)
    (hnext : ∀ w', Held d tmp data w' → w'.fetched = w.fetched →
      Sure (Left d dest tmp prev Good) next w') :
    Sure (Left d dest tmp prev Good) (closed tmp next) w := by
  refine sure_quiet rfl fun r => ?_
  cases r with
  | some f => exact h.after.left hprev htmp _
  | none => exact hnext _ h.after rfl

theorem sure_executable {next : UpdateM (Option Err)} (h : Held d tmp data w)
    (hprev : d dest = some prev) (htmp : tmp ≠ dest)
    (hnext : ∀ w', Held d tmp data w' → w'.fetched = w.fetched →
      Sure (Left d dest tmp prev Good) next w') :
    Sure (Left d dest tmp prev Good) (executable tmp next) w := by
  refine sure_quiet rfl fun r => ?_
  cases r with
  | some f => exact h.after.left hprev htmp _
  | none => exact hnext _ h.after rfl

theorem sure_abandon (h : Held d tmp data w) (hprev : d dest = some prev) (htmp : tmp ≠ dest)
    (err : Err) :
    Sure (Left d dest tmp prev Good) (.call (.file (.close tmp)) fun _ => .ret (some err)) w :=
  sure_quiet rfl fun _ => h.after.left hprev htmp err

end

/-- They are the whole of what the server offers, and what the dispatch said of it is so. -/
structure Checked (lower : Char → Char) (sha256 : Bytes → Bytes) (html : Bytes → Bool) (url : String) (ask : Ask)
    (data : Bytes) (fetched : List Fetch) : Prop where
  came : ∃ f ∈ fetched, f.Whole url ∧ f.resp.body = data
  nonempty : data ≠ []
  binary : html (data.take 64) = false
  size : 0 < ask.sizeBytes → (data.length : Int) = ask.sizeBytes
  sum : wantedSum lower ask ≠ [] → hexOf (sha256 data) = wantedSum lower ask

/-- They are the whole of the asset, and what the release's checksums say of it is so. -/
structure Listed (lower : Char → Char) (sha256 : Bytes → Bytes) (rel : Release) (asset : Asset)
    (data : Bytes) (fetched : List Fetch) : Prop where
  came : ∃ f ∈ fetched, f.Whole asset.downloadURL ∧ f.resp.body = data
  sum : ∀ a, rel.assets.find? (fun a => a.name = checksumsName) = some a →
    ∃ f ∈ fetched, f.Whole a.downloadURL ∧
      (checksumFor lower (Utf8.runes f.resp.body) asset.name.toList ≠ [] →
        hexOf (sha256 data) = checksumFor lower (Utf8.runes f.resp.body) asset.name.toList)

section
variable {lower : Char → Char} {sha256 : Bytes → Bytes} {d : Files.Disk} {dest tmp : String}
  {data prev : Bytes} {w : World} {res : Option Err}

theorem verifyDownload_none {ask : Ask} {page : Bool} (h : verifyDownload lower sha256 ask data page = none) :
    data ≠ [] ∧ page = false ∧ (0 < ask.sizeBytes → (data.length : Int) = ask.sizeBytes) ∧
      (wantedSum lower ask ≠ [] → hexOf (sha256 data) = wantedSum lower ask) := by
  unfold verifyDownload at h
  split_ifs at h with hempty hpage hsize hsum
  refine ⟨fun hnil => hempty (by rw [hnil]; rfl), by simpa using hpage, fun hpos => ?_, fun hne => ?_⟩
  · by_contra hlen
    exact hsize ⟨hpos, hlen⟩
  · by_contra hdiff
    exact hsum ⟨hne, hdiff⟩

theorem sure_fetchAsset {html : Bytes → Bool} {url : String} {ask : Ask} (h : Held d tmp [] w) :
    Sure (fun res w' => ∃ data, Held d tmp data w' ∧
        (res = none → Checked lower sha256 html url ask data w'.fetched))
      (fetchAsset lower sha256 html url tmp ask) w := by
  refine sure_get (fun f => ⟨[], h, nofun⟩) fun resp => ?_
  have h' : Held d tmp [] { w with fetched := w.fetched ++ [⟨w.release, url, resp⟩] } :=
    ⟨h.held, h.others⟩
  dsimp only
  split_ifs with hstatus htype
  · exact ⟨[], h', nofun⟩
  · exact ⟨[], h', nofun⟩
  refine (wp_bind _ _ _).mpr ((sure_copy resp.cut resp.chunks h').post_mono fun res w' hpost => ?_)
  obtain ⟨data, hheld, hdone⟩ := hpost
  cases res with
  | some err => exact ⟨data, hheld, nofun⟩
  | none =>
    refine ⟨data, hheld, fun hres => ?_⟩
    obtain ⟨hcut, hdata, hfetched⟩ := hdone rfl
    obtain ⟨hne, hpage, hsize, hsum⟩ := verifyDownload_none hres
    have hbody : resp.body = data := by rw [hdata, List.nil_append, Response.body]
    rw [sniff_eq, ← Response.body, hbody] at hpage
    rw [hbody] at hne hsize hsum
    refine ⟨⟨⟨w.release, url, resp⟩, ?_, ⟨rfl, not_not.mp hstatus, hcut⟩, hbody⟩, hne, hpage, hsize, hsum⟩
    rw [hfetched]
    exact List.mem_append_right _ List.mem_cons_self

/-- What an update leaves, from a machine whose binary is `prev`. -/
structure Safe (d : Files.Disk) (dest : String) (prev : Bytes) (Good : Bytes → List Fetch → Prop)
    (res : Option Err) (w : World) : Prop where
  installed : res = none → ∃ data, w.disk dest = some data ∧ Good data w.fetched
  failed : res ≠ none → w.disk dest = some prev ∨
    w.disk (oldPath dest) = some prev ∧ .rename (oldPath dest) dest ∈ w.failed
  clean : ∀ path, path ≠ dest → path ≠ oldPath dest → w.disk path = d path ∨ .remove path ∈ w.failed

variable {Good : Bytes → List Fetch → Prop}

theorem Left.remove (h : Left d dest tmp prev Good res w) (hnew : d tmp = none) (htmp : tmp ≠ dest)
    (htmpOld : tmp ≠ oldPath dest) :
    Sure (Safe d dest prev Good) (.call (.file (.remove tmp)) fun _ => .ret res) w := by
  refine sure_file fun r disk hT => ?_
  have hkeep : ∀ path, path ≠ tmp → disk path = w.disk path := by
    intro path ht
    rcases Files.remove_cases hT with ⟨-, rfl⟩ | ⟨f, -, rfl, -⟩
    · exact update_of_ne ht _ _
    · rfl
  refine ⟨fun hres => ?_, fun hres => ?_, fun path hd ho => ?_⟩
  · obtain ⟨data, hdata, hgood⟩ := h.installed hres
    exact ⟨data, (hkeep dest htmp.symm).trans hdata, hgood⟩
  · refine (h.failed hres).imp (fun hprev => ?_) fun ⟨hprev, hback⟩ => ⟨?_, World.mem_failed hback⟩
    · exact (hkeep dest htmp.symm).trans hprev
    · exact (hkeep _ htmpOld.symm).trans hprev
  · by_cases ht : path = tmp
    · subst ht
      rw [hnew]
      rcases Files.remove_cases hT with ⟨rfl, rfl⟩ | ⟨f, rfl, rfl, hmissing⟩
      · exact .inl (update_self _ _ _)
      · cases f with
        | notExist => exact .inl (hmissing rfl)
        | exist => exact .inr (World.mem_failed_self rfl)
        | code n => exact .inr (World.mem_failed_self rfl)
    · exact .inl ((hkeep path ht).trans (h.others path ht hd ho))

theorem tempPath_ne_oldPath (dir : String) (n : Nat) :
    Files.tempPath dir updateTempPrefix n ≠ oldPath dest := by
  have hlast : (oldPath dest).toList.getLast? = some 'd' := by
    rw [oldPath, String.toList_append]
    exact List.getLast?_append_of_ne_nil _ (by decide)
  exact Files.tempPath_ne hlast rfl

theorem sure_withTemp {dir : String} {use : String → UpdateM (Option Err)} (hprev : w.disk dest = some prev)
    (huse : ∀ tmp w', tmp ≠ dest → tmp ≠ oldPath dest → Held w.disk tmp [] w' →
      Sure (Left w.disk dest tmp prev Good) (use tmp) w') :
    Sure (Safe w.disk dest prev Good) (withTemp dir updateTempPrefix use) w := by
  refine sure_file fun r disk hT => ?_
  rcases Files.createTemp_cases hT with ⟨n, rfl, hnew, rfl⟩ | ⟨f, rfl, rfl⟩
  · have htmp : Files.tempPath dir updateTempPrefix n ≠ dest := by
      rintro rfl
      rw [hprev] at hnew
      cases hnew
    have htmpOld : Files.tempPath dir updateTempPrefix n ≠ oldPath dest := tempPath_ne_oldPath dir n
    refine (wp_bind _ _ _).mpr ((huse _ _ htmp htmpOld ⟨?_, fun path ht => ?_⟩).post_mono fun res w' h => ?_)
    · exact update_self _ _ _
    · exact update_of_ne ht _ _
    · exact h.remove hnew htmp htmpOld
  · exact ⟨nofun, fun _ => .inl hprev, fun path _ _ => .inl rfl⟩

theorem sure_applyUpdate {html : Bytes → Bool} {paths : Paths} {serverURL : String} {ask : Ask}
    (hprev : w.disk dest = some prev) :
    Sure (Safe w.disk dest prev
        (Checked lower sha256 html (serverURL ++ "/downloads/" ++ ask.asset) ask))
      (applyUpdate lower sha256 html paths serverURL ask dest) w := by
  unfold applyUpdate
  split_ifs
  · exact ⟨nofun, fun _ => .inl hprev, fun path _ _ => .inl rfl⟩
  refine sure_withTemp hprev fun tmp w₁ htmp htmpOld h₁ => ?_
  refine (wp_bind _ _ _).mpr ((sure_fetchAsset h₁).post_mono fun res w₂ hpost => ?_)
  obtain ⟨data, h₂, hchecked⟩ := hpost
  cases res with
  | some err => exact sure_abandon h₂ hprev htmp err
  | none =>
    refine sure_closed h₂ hprev htmp fun w₃ h₃ hfetched₃ => ?_
    refine sure_executable h₃ hprev htmp fun w₄ h₄ hfetched₄ => ?_
    refine sure_installBinary h₄ hprev htmp htmpOld ?_
    rw [hfetched₄, hfetched₃]
    exact hchecked rfl

theorem sure_apply {paths : Paths} {rel : Release} {asset : Asset} (hprev : w.disk dest = some prev) :
    Sure (Safe w.disk dest prev (Listed lower sha256 rel asset))
      (Server.apply lower sha256 paths rel asset dest) w := by
  refine sure_withTemp hprev fun tmp w₁ htmp htmpOld h₁ => ?_
  refine (wp_bind _ _ _).mpr ((sure_download h₁).post_mono fun res w₂ hpost => ?_)
  obtain ⟨data, h₂, hcame⟩ := hpost
  cases res with
  | error err => exact sure_abandon h₂ hprev htmp _
  | ok b =>
    obtain ⟨rfl, f, hf, -, hwhole, hbody⟩ := hcame b rfl
    refine sure_closed h₂ hprev htmp fun w₃ h₃ hfetched₃ => ?_
    refine (wp_bind _ _ _).mpr ((sure_releaseChecksums h₃).post_mono fun res w₄ hpost => ?_)
    obtain ⟨h₄, hsub, hsums⟩ := hpost
    cases res with
    | error err => exact h₄.left hprev htmp _
    | ok checksums =>
      dsimp only
      split
      · exact h₄.left hprev htmp _
      · rename_i hverified
        refine sure_executable h₄ hprev htmp fun w₅ h₅ hfetched₅ => ?_
        refine sure_swapBinary h₅ hprev htmp htmpOld ⟨⟨f, ?_, hwhole, hbody⟩, fun a ha => ?_⟩
        · rw [hfetched₅]
          exact hsub (hfetched₃ ▸ hf)
        · obtain ⟨g, hg, hgwhole, rfl⟩ := hsums checksums rfl a ha
          rw [hfetched₅]
          exact ⟨g, hg, hgwhole, verifyChecksum_none hverified⟩

/-- All three updaters, from a machine with a binary, whatever fails on the way. -/
theorem updates_safe (lower : Char → Char) (sha256 : Bytes → Bytes) (paths : Paths) (d : Files.Disk)
    (dest : String) (prev : Bytes) (hprev : d dest = some prev) :
    (∀ serverURL ask res w es,
      Steps machine (Agent.applyUpdate lower sha256 paths serverURL ask dest) (.start d) es (.ret res) w →
      Safe d dest prev (Checked lower sha256 (Agent.looksLikeHTML lower)
        (serverURL ++ "/downloads/" ++ ask.asset) ask) res w) ∧
    (∀ serverURL ask res w es,
      Steps machine (Helper.applyUpdate lower sha256 paths serverURL ask dest) (.start d) es (.ret res) w →
      Safe d dest prev (Checked lower sha256 (Helper.looksLikeHTML lower)
        (serverURL ++ "/downloads/" ++ ask.asset) ask) res w) ∧
    (∀ rel asset res w es,
      Steps machine (Server.apply lower sha256 paths rel asset dest) (.start d) es (.ret res) w →
      Safe d dest prev (Listed lower sha256 rel asset) res w) := by
  refine ⟨fun serverURL ask res w es h => ?_, fun serverURL ask res w es h => ?_,
    fun rel asset res w es h => ?_⟩
  · exact (sure_applyUpdate (w := .start d) hprev).steps h
  · exact (sure_applyUpdate (w := .start d) hprev).steps h
  · exact (sure_apply (w := .start d) hprev).steps h

def updatedDisk : Files.Disk := fun path => if path = "/opt/agent" then some [1] else none

def calm : Choice := ⟨⟨none, 7, 0⟩, .ok ⟨200, "", [[2]], none⟩, .error .canceled⟩

def denied : Choice := { calm with file := ⟨some 13, 0, 0⟩ }

/-- The new binary cannot be put in place, and the previous one is moved back. -/
theorem updates_safe_rolled_back : ∃ es w,
    Steps machine (Agent.applyUpdate id (fun _ => []) unixPaths "https://proxback" ⟨"agent", 0, ""⟩ "/opt/agent")
      (.start updatedDisk) es (.ret (some (.install (.code 13) none))) w ∧
    Safe updatedDisk "/opt/agent" [1]
      (Checked id (fun _ => []) (Agent.looksLikeHTML id)
        ("https://proxback" ++ "/downloads/" ++ (⟨"agent", 0, ""⟩ : Ask).asset) ⟨"agent", 0, ""⟩)
      (some (.install (.code 13) none)) w := by
  have hrun : (follow machine
      (Agent.applyUpdate id (fun _ => []) unixPaths "https://proxback" ⟨"agent", 0, ""⟩ "/opt/agent")
      (.start updatedDisk) [calm, calm, calm, calm, calm, calm, calm, denied, calm, calm]).map Prod.fst =
      some (some (.install (.code 13) none)) := by decide +kernel
  obtain ⟨es, w, hsteps⟩ := steps_of_follow hrun
  have hprev : updatedDisk "/opt/agent" = some [1] := if_pos rfl
  obtain ⟨hagent, -, -⟩ := updates_safe id (fun _ => []) unixPaths updatedDisk "/opt/agent" [1] hprev
  exact ⟨es, w, hsteps, hagent _ _ _ _ _ hsteps⟩

end

end ProxBack.Update
