import Mathlib.Data.List.Nodup
import ProxBack.Lib.System
import ProxBack.Update.Held
import ProxBack.Update.Staged

/-! What a recorded version says of the binary beside it. A binary and its version are two files
with a rename each, so a pass for another release shows, between the two, its binary under the
version of the previous one; a pass that ends there leaves it so. -/
namespace ProxBack.Update
open Lib Text Prog Function
open Engine (Bytes Fault)

def recorded (disk : Files.Disk) (dir name : String) : Option String :=
  (disk (stagedVersionPath dir name)).bind fun raw =>
    if versionText raw = "" then none else some (versionText raw)

instance (f : Fetch) (url : String) : Decidable (f.Whole url) :=
  decidable_of_iff (f.url = url ∧ f.resp.status = 200 ∧ f.resp.cut = none)
    ⟨fun ⟨h₁, h₂, h₃⟩ => ⟨h₁, h₂, h₃⟩, fun h => ⟨h.url_eq, h.status, h.uncut⟩⟩

/-- `data` is the whole of an asset of that name, fetched from a release of that version. -/
def OfRelease (fetched : List Fetch) (ver name : String) (data : Bytes) : Prop :=
  ∃ f ∈ fetched, ∃ rel ∈ f.release, trimmed rel.version = ver ∧
    ∃ a ∈ rel.assets, a.name = name ∧ f.Whole a.downloadURL ∧ f.resp.body = data

instance (fetched : List Fetch) (ver name : String) (data : Bytes) :
    Decidable (OfRelease fetched ver name data) :=
  inferInstanceAs (Decidable (∃ _, _ ∧ _))

def Described (dir : String) (w : World) : Prop :=
  ∀ name ∈ stagedArtifacts, ∀ ver ∈ recorded w.disk dir name, ∀ data ∈ w.disk (stagedPath dir name),
    OfRelease w.fetched ver name data

structure Pass where
  want : Option String
  prog : UpdateM (StagedRefresh × Option Err)

structure Staging where
  world : World
  pass : Option Pass

inductive Action where
  | refresh (rel : Release)
  | reconcile (want : String)
  | call (x : Choice)
  | crash

def Staging.idle (s : Staging) : Bool :=
  match s.pass with
  | some ⟨_, .call _ _⟩ => false
  | _ => true

section
variable (lower : Char → Char) (sha256 : Bytes → Bytes) (dir : String)

def Staging.step : Action → Staging → Option Staging
  | .refresh rel, s =>
    if s.idle then
      some ⟨{ s.world with release := some rel }, some ⟨none, refreshStaged lower sha256 dir rel none⟩⟩
    else none
  | .reconcile want, s =>
    if s.idle then
      some ⟨{ s.world with release := none }, some ⟨some want, reconcileStaged lower sha256 dir want⟩⟩
    else none
  | .call x, ⟨w, some ⟨want, .call c k⟩⟩ =>
    let (r, w') := World.exec c x w
    some ⟨w', some ⟨want, k r⟩⟩
  | .call _, _ => none
  | .crash, s => some ⟨s.world, none⟩

def staging : System Staging Action := ⟨Staging.step lower sha256 dir⟩

end

/-- What a pass that is over reported as up to date is of the version that was asked for. -/
def Honest (dir : String) (s : Staging) : Prop :=
  ∀ want report err, s.pass = some ⟨some want, .ret (report, err)⟩ → ∀ name ∈ report.upToDate,
    ∃ data, s.world.disk (stagedPath dir name) = some data ∧ OfRelease s.world.fetched want name data

/-- A binary is put in place only where no version is recorded yet, or that of the same release. -/
def allowed (dir : String) (w : World) : Call → Choice → Bool
  | .file (.rename _ dst), x =>
    x.file.fault.isSome || stagedArtifacts.all fun name =>
      dst ≠ stagedPath dir name || recorded w.disk dir name = none ||
        recorded w.disk dir name = w.release.map fun rel => trimmed rel.version
  | _, _ => true

def orderly (dir : String) : Staging → Action → Bool
  | ⟨w, some ⟨_, .call c _⟩⟩, .call x => allowed dir w c x
  | _, .reconcile want => want ≠ ""
  | _, _ => true

def IsStaged (dir path : String) : Prop :=
  ∃ name ∈ stagedArtifacts, path = stagedPath dir name ∨ path = stagedVersionPath dir name

section
variable {dir name other : String}

theorem stagedPath_inj (h : stagedPath dir name = stagedPath dir other) : name = other :=
  (String.append_right_inj (dir ++ "/")).mp h

theorem stagedVersionPath_inj (h : stagedVersionPath dir name = stagedVersionPath dir other) : name = other :=
  (String.append_left_inj versionSidecarSuffix).mp (stagedPath_inj h)

theorem stagedVersionPath_ne (hname : name ∈ stagedArtifacts) (hother : other ∈ stagedArtifacts) :
    stagedVersionPath dir name ≠ stagedPath dir other := by
  have hall : ∀ a ∈ stagedArtifacts, ∀ b ∈ stagedArtifacts, a ++ versionSidecarSuffix ≠ b := by decide
  exact fun h => hall name hname other hother (stagedPath_inj h)

theorem tempPath_eq (dir : String) (n : Nat) : Files.tempPath dir stagedTempPrefix n =
    stagedPath dir (stagedTempPrefix ++ .ofList (Decimal.numeral n)) :=
  String.append_assoc

theorem tempPath_not_staged (dir : String) (n : Nat) :
    ¬ IsStaged dir (Files.tempPath dir stagedTempPrefix n) := by
  have hhead : (stagedTempPrefix ++ String.ofList (Decimal.numeral n)).toList.head? = some '.' := by
    rw [String.toList_append]
    rfl
  have hnames : ∀ a ∈ stagedArtifacts, a.toList.head? = some 'p' ∧
      (a ++ versionSidecarSuffix).toList.head? = some 'p' := by decide
  rw [tempPath_eq]
  rintro ⟨name, hname, heq | heq⟩
  · rw [stagedPath_inj heq, (hnames name hname).1] at hhead
    cases hhead
  · rw [stagedPath_inj heq, (hnames name hname).2] at hhead
    cases hhead

end

/-- The binaries named by `P` and their versions are as they were. -/
structure Kept (dir : String) (P : String → Prop) (w w' : World) : Prop where
  binary : ∀ name ∈ stagedArtifacts, P name → w'.disk (stagedPath dir name) = w.disk (stagedPath dir name)
  version : ∀ name ∈ stagedArtifacts, P name →
    w'.disk (stagedVersionPath dir name) = w.disk (stagedVersionPath dir name)
  fetched : w.fetched ⊆ w'.fetched
  release : w'.release = w.release

section
variable {dir name ver : String} {P Q : String → Prop} {w w₁ w₂ : World} {data : Bytes}

theorem Kept.refl (dir : String) (P : String → Prop) (w : World) : Kept dir P w w :=
  ⟨fun _ _ _ => rfl, fun _ _ _ => rfl, List.Subset.refl _, rfl⟩

theorem Kept.trans (h : Kept dir P w w₁) (h' : Kept dir P w₁ w₂) : Kept dir P w w₂ where
  binary name hname hP := (h'.binary name hname hP).trans (h.binary name hname hP)
  version name hname hP := (h'.version name hname hP).trans (h.version name hname hP)
  fetched := List.Subset.trans h.fetched h'.fetched
  release := h'.release.trans h.release

theorem Kept.mono (hPQ : ∀ name, Q name → P name) (h : Kept dir P w w₁) : Kept dir Q w w₁ where
  binary name hname hQ := h.binary name hname (hPQ name hQ)
  version name hname hQ := h.version name hname (hPQ name hQ)
  fetched := h.fetched
  release := h.release

theorem OfRelease.mono {fetched fetched' : List Fetch} (hsub : fetched ⊆ fetched')
    (h : OfRelease fetched ver name data) : OfRelease fetched' ver name data :=
  h.imp fun _ hf => ⟨hsub hf.1, hf.2⟩

theorem Kept.recorded (h : Kept dir P w w₁) (hname : name ∈ stagedArtifacts) (hP : P name) :
    recorded w₁.disk dir name = recorded w.disk dir name := by
  unfold Update.recorded
  rw [h.version name hname hP]

abbrev All : String → Prop := fun _ => True

theorem Described.kept (hw : Described dir w) (h : Kept dir All w w₁) : Described dir w₁ := by
  intro name hname ver hver data hdata
  rw [h.recorded hname trivial] at hver
  rw [h.binary name hname trivial] at hdata
  exact (hw name hname ver hver data hdata).mono h.fetched

theorem kept_of_disk (hdisk : ∀ path, IsStaged dir path → w₁.disk path = w.disk path)
    (hfetched : w.fetched ⊆ w₁.fetched) (hrelease : w₁.release = w.release) : Kept dir P w w₁ :=
  ⟨fun name hname _ => hdisk _ ⟨name, hname, .inl rfl⟩, fun name hname _ => hdisk _ ⟨name, hname, .inr rfl⟩,
    hfetched, hrelease⟩

end

def Allowed (dir : String) (c : Call) (w : World) (r : Reply c) (w' : World) : Prop :=
  ∃ x, allowed dir w c x = true ∧ World.exec c x w = (r, w')

abbrev Steady {α : Type} (dir : String) (post : α → World → Prop) (p : UpdateM α) (w : World) : Prop :=
  Wp (Allowed dir) (fun _ w => Described dir w) post p w

def Beside (dir : String) : Call → Prop
  | .file c => ∀ path, IsStaged dir path → ¬ c.Writes path
  | .get _ => True
  | .byTag _ => False

section
variable {α : Type} {dir : String} {post : α → World → Prop} {w w' : World}

theorem Beside.kept {c : Call} {r : Reply c} (hc : Beside dir c) (h : machine.T c w r w') :
    Kept dir All w w' := by
  obtain ⟨x, h⟩ := h
  change World.exec c x w = (r, w') at h
  cases c with
  | file c =>
    cases h
    exact kept_of_disk (fun path hpath => Files.frame ⟨x.file, rfl⟩ (hc path hpath)) (List.Subset.refl _) rfl
  | get url =>
    dsimp only [World.exec] at h
    split at h
    · cases h
      exact .refl dir _ w
    · cases h
      exact kept_of_disk (fun _ _ => rfl) (List.subset_append_left _ _) rfl
  | byTag tag => cases hc

/-- A part that stays away from the staged files leaves them described, and comes to what it comes
to anyway. -/
theorem steady_of_sure {p : UpdateM α} (hcalls : Calls (Beside dir) p) (h : Sure post p w)
    (hw : Described dir w) : Steady dir (fun a w' => post a w' ∧ Kept dir All w w') p w := by
  induction p generalizing w with
  | ret a => exact ⟨h, .refl dir _ w⟩
  | call c k ih =>
    refine ⟨hw, fun r w₁ ⟨x, _, hx⟩ => ?_⟩
    have hT : machine.T c w r w₁ := ⟨x, hx⟩
    have hkept := Beside.kept hcalls.1 hT
    refine (ih r (hcalls.2 r) (h.2 r w₁ hT) (hw.kept hkept)).post_mono fun a w₂ hpost => ?_
    exact ⟨hpost.1, hkept.trans hpost.2⟩

theorem steady_allowed {c : Files.Call} {k : Files.Reply c → UpdateM α} (hw : Described dir w)
    (h : ∀ x r disk, allowed dir w (.file c) x = true → Files.exec c x.file w.disk = (r, disk) →
      Steady dir post (k r) (w.after c r disk)) : Steady dir post (.call (.file c) k) w := by
  refine ⟨hw, fun r w' ⟨x, hok, hx⟩ => ?_⟩
  cases hx
  exact h x _ _ hok rfl

theorem steady_file {c : Files.Call} {k : Files.Reply c → UpdateM α} (hw : Described dir w)
    (h : ∀ r disk, Files.machine.T c w.disk r disk → Steady dir post (k r) (w.after c r disk)) :
    Steady dir post (.call (.file c) k) w :=
  steady_allowed hw fun x r disk _ hx => h r disk ⟨x.file, hx⟩

theorem steady_quiet {c : Files.Call} {k : Files.Reply c → UpdateM α} (hc : c.quiet) (hw : Described dir w)
    (h : ∀ r, Steady dir post (k r) (w.after c r w.disk)) : Steady dir post (.call (.file c) k) w := by
  refine steady_file hw fun r disk hT => ?_
  rw [Files.quiet_cases hc hT]
  exact h r

theorem Described.after {c : Files.Call} {r : Files.Reply c} (hw : Described dir w) :
    Described dir (w.after c r w.disk) := hw

theorem kept_after {c : Files.Call} {r : Files.Reply c} {P : String → Prop} :
    Kept dir P w (w.after c r w.disk) :=
  kept_of_disk (fun _ _ => rfl) (List.Subset.refl _) rfl

variable {name ver tmp : String} {data : Bytes} {d : Files.Disk} {P : String → Prop}

theorem kept_rename {dst : String} {w' : World} (htmp : ¬ IsStaged dir tmp)
    (hdst : dst = stagedPath dir name ∨ dst = stagedVersionPath dir name) (hname : name ∈ stagedArtifacts)
    (hdisk : w'.disk = update (update w.disk tmp none) dst (some data)) (hfetched : w'.fetched = w.fetched)
    (hrelease : w'.release = w.release) : Kept dir (· ≠ name) w w' := by
  have hother : ∀ path, IsStaged dir path → path ≠ dst → w'.disk path = w.disk path := by
    intro path hpath hne
    have hnetmp : path ≠ tmp := fun heq => htmp (heq ▸ hpath)
    rw [hdisk, update_of_ne hne, update_of_ne hnetmp]
  refine ⟨fun a ha hne => hother _ ⟨a, ha, .inl rfl⟩ ?_, fun a ha hne => hother _ ⟨a, ha, .inr rfl⟩ ?_, ?_,
    hrelease⟩
  · rcases hdst with rfl | rfl
    · exact fun heq => hne (stagedPath_inj heq)
    · exact (stagedVersionPath_ne hname ha).symm
  · rcases hdst with rfl | rfl
    · exact stagedVersionPath_ne ha hname
    · exact fun heq => hne (stagedVersionPath_inj heq)
  · rw [hfetched]
    exact List.Subset.refl _

theorem Described.of_others (hw : Described dir w) (h : Kept dir (· ≠ name) w w')
    (hname : ∀ ver ∈ recorded w'.disk dir name, ∀ data ∈ w'.disk (stagedPath dir name),
      OfRelease w'.fetched ver name data) : Described dir w' := by
  intro a ha ver hver data hdata
  by_cases heq : a = name
  · subst heq
    exact hname ver hver data hdata
  · rw [h.recorded ha heq] at hver
    rw [h.binary a ha heq] at hdata
    exact (hw a ha ver hver data hdata).mono h.fetched

theorem steady_placeBinary {rel : Release} {k : Option Files.Fault → UpdateM α}
    (hname : name ∈ stagedArtifacts) (hw : Described dir w) (htmp : ¬ IsStaged dir tmp)
    (hheld : w.disk tmp = some data) (hrel : w.release = some rel)
    (hof : OfRelease w.fetched (trimmed rel.version) name data)
    (hdone : ∀ w', Described dir w' → Kept dir (· ≠ name) w w' →
      w'.disk (stagedPath dir name) = some data → Steady dir post (k none) w')
    (hfail : ∀ f w', Described dir w' → Kept dir All w w' → Steady dir post (k (some f)) w') :
    Steady dir post (.call (.file (.rename tmp (stagedPath dir name))) k) w := by
  refine steady_allowed hw fun x r disk hok hx => ?_
  cases hfault : x.file.fault with
  | some n =>
    simp only [Files.exec, hheld, hfault] at hx
    cases hx
    exact hfail _ _ hw.after kept_after
  | none =>
    simp only [Files.exec, hheld, hfault] at hx
    obtain ⟨rfl, rfl⟩ := Prod.mk.inj hx
    have hkept : Kept dir (· ≠ name) w (w.after (.rename tmp (stagedPath dir name)) none
        (update (update w.disk tmp none) (stagedPath dir name) (some data))) :=
      kept_rename htmp (.inl rfl) hname rfl rfl rfl
    refine hdone _ (hw.of_others hkept fun ver hver data' hdata' => ?_) hkept (update_self _ _ _)
    have hsame : data' = data := by
      rw [World.after_disk, update_self] at hdata'
      exact (Option.some.inj hdata').symm
    have hrecorded : recorded w.disk dir name = some ver := by
      rw [← hver]
      unfold recorded
      rw [World.after_disk, update_of_ne (stagedVersionPath_ne hname hname),
        update_of_ne fun heq => htmp ⟨name, hname, .inr heq.symm⟩]
    have hrule : recorded w.disk dir name = none ∨
        recorded w.disk dir name = w.release.map fun rel => trimmed rel.version := by
      simp only [allowed, hfault, Option.isSome_none, Bool.false_or, List.all_eq_true] at hok
      simpa using hok name hname
    rcases hrule with hnone | hthis
    · rw [hrecorded] at hnone
      cases hnone
    · rw [hrecorded, hrel] at hthis
      cases hthis
      rw [hsame]
      exact hof

@[simp] theorem versionText_encode (ver : String) :
    versionText (Utf8.encode (ver ++ "\n").toList) = trimmed ver := by
  rw [versionText, Utf8.runes_encode, String.toList_append, trimmed]
  exact congrArg String.ofList (trimSpace_concat rfl)

theorem steady_placeVersion {k : Option Files.Fault → UpdateM α} (hname : name ∈ stagedArtifacts)
    (hw : Described dir w) (htmp : ¬ IsStaged dir tmp)
    (hheld : w.disk tmp = some (Utf8.encode (ver ++ "\n").toList))
    (hof : ∀ data ∈ w.disk (stagedPath dir name), OfRelease w.fetched (trimmed ver) name data)
    (hk : ∀ r w', Described dir w' → Kept dir (· ≠ name) w w' → Steady dir post (k r) w') :
    Steady dir post (.call (.file (.rename tmp (stagedVersionPath dir name))) k) w := by
  refine steady_file hw fun r disk hT => ?_
  rcases Files.rename_cases hT with ⟨rfl, moved, hmoved, rfl⟩ | ⟨f, rfl, rfl, -⟩
  · rw [hheld] at hmoved
    cases hmoved
    have hkept : Kept dir (· ≠ name) w (w.after (.rename tmp (stagedVersionPath dir name)) none
        (update (update w.disk tmp none) (stagedVersionPath dir name)
          (some (Utf8.encode (ver ++ "\n").toList)))) :=
      kept_rename htmp (.inr rfl) hname rfl rfl rfl
    refine hk _ _ (hw.of_others hkept fun v hv data hdata => ?_) hkept
    rw [World.after_disk, update_of_ne (stagedVersionPath_ne hname hname).symm,
      update_of_ne fun heq => htmp ⟨name, hname, .inl heq.symm⟩] at hdata
    have hver : v = trimmed ver := by
      rw [recorded, World.after_disk, update_self, Option.bind_some, versionText_encode] at hv
      split at hv
      · cases hv
      · exact (Option.some.inj hv).symm
    rw [hver]
    exact hof data hdata
  · exact hk _ _ hw.after kept_after

theorem beside_temp {c : Files.Call} (htmp : ¬ IsStaged dir tmp) (hc : ∀ path, c.Writes path → path = tmp) :
    Beside dir (.file c) := fun path hpath hwrites => htmp (hc path hwrites ▸ hpath)

/-- The binaries are described, and those named by `P` are as they were. -/
abbrev Leaves {α : Type} (dir : String) (P : String → Prop) (w : World) (_ : α) (w' : World) : Prop :=
  Described dir w' ∧ Kept dir P w w'

theorem Kept.all (h : Kept dir All w w') : Kept dir P w w' := h.mono fun _ _ => trivial

theorem steady_after {p : UpdateM α} (hkept : Kept dir P w w')
    (h : Steady dir (Leaves dir P w') p w') : Steady dir (Leaves dir P w) p w' :=
  h.post_mono fun _ _ hpost => ⟨hpost.1, hkept.trans hpost.2⟩

theorem steady_of_calls {p : UpdateM α} (hcalls : Calls (Beside dir) p) (hw : Described dir w) :
    Steady dir (Leaves dir P w) p w := by
  have hsure : Sure (fun _ _ => True) p w := (calls_true p).wp w
  refine (steady_of_sure hcalls hsure hw).post_mono fun a w' hpost => ?_
  exact ⟨hw.kept hpost.2, hpost.2.all⟩

theorem steady_withTemp {use : String → UpdateM (Option Err)} (hw : Described dir w)
    (huse : ∀ tmp w₁, ¬ IsStaged dir tmp → Held w.disk tmp [] w₁ → Described dir w₁ → Kept dir All w w₁ →
      Steady dir (Leaves dir P w) (use tmp) w₁) :
    Steady dir (Leaves dir P w) (withTemp dir stagedTempPrefix use) w := by
  refine steady_file hw fun r disk hT => ?_
  rcases Files.createTemp_cases hT with ⟨n, rfl, hnew, rfl⟩ | ⟨f, rfl, rfl⟩
  · have htmp := tempPath_not_staged dir n
    have hheld : Held w.disk (Files.tempPath dir stagedTempPrefix n) []
        (w.after (.createTemp dir stagedTempPrefix) (.ok (Files.tempPath dir stagedTempPrefix n))
          (update w.disk (Files.tempPath dir stagedTempPrefix n) (some []))) :=
      ⟨update_self _ _ _, fun path hne => update_of_ne hne _ _⟩
    have hkept : Kept dir All w (w.after (.createTemp dir stagedTempPrefix)
        (.ok (Files.tempPath dir stagedTempPrefix n))
        (update w.disk (Files.tempPath dir stagedTempPrefix n) (some []))) :=
      kept_of_disk (fun path hpath => hheld.others path fun heq => htmp (heq ▸ hpath)) (List.Subset.refl _) rfl
    refine (wp_bind _ _ _).mpr ((huse _ _ htmp hheld (hw.kept hkept) hkept).post_mono fun res w₂ hpost => ?_)
    have hcall : Beside dir (.file (.remove (Files.tempPath dir stagedTempPrefix n))) :=
      beside_temp htmp fun _ hpath => hpath
    exact steady_after hpost.2 (steady_of_calls ⟨hcall, fun _ => trivial⟩ hpost.1)
  · exact ⟨hw.after, kept_after⟩

theorem steady_write {chunk : Bytes} {k : Option Files.Fault → UpdateM α} (hw : Described dir w)
    (htmp : ¬ IsStaged dir tmp) (h : Held d tmp data w)
    (hdone : ∀ w', Held d tmp (data ++ chunk) w' → Described dir w' → Kept dir All w w' →
      Steady dir post (k none) w')
    (hfail : ∀ f w', Described dir w' → Kept dir All w w' → Steady dir post (k (some f)) w') :
    Steady dir post (.call (.file (.write tmp chunk)) k) w := by
  have hcall : Calls (Beside dir) (toFile tmp chunk) := ⟨beside_temp htmp fun _ hpath => hpath, fun _ => trivial⟩
  have hsure : Sure (fun r w' => r = none → Held d tmp (data ++ chunk) w') (toFile tmp chunk) w :=
    sure_write h (fun w' h' _ _ => h') fun _ _ _ _ => nofun
  change Steady dir post (toFile tmp chunk >>= k) w
  refine (wp_bind _ _ _).mpr ((steady_of_sure hcall hsure hw).post_mono fun r w' hpost => ?_)
  obtain ⟨hheld, hkept⟩ := hpost
  cases r with
  | some f => exact hfail f w' (hw.kept hkept) hkept
  | none => exact hdone w' (hheld rfl) (hw.kept hkept) hkept

theorem steady_closed {next : UpdateM (Option Err)} (hw : Described dir w)
    (hnext : ∀ w', Described dir w' → Kept dir All w w' → w'.disk = w.disk →
      Steady dir (Leaves dir P w) next w') : Steady dir (Leaves dir P w) (closed tmp next) w := by
  refine steady_quiet rfl hw fun r => ?_
  cases r with
  | some f => exact ⟨hw.after, kept_after⟩
  | none => exact hnext _ hw.after kept_after rfl

theorem steady_executable {next : UpdateM (Option Err)} (hw : Described dir w)
    (hnext : ∀ w', Described dir w' → Kept dir All w w' → w'.disk = w.disk →
      Steady dir (Leaves dir P w) next w') : Steady dir (Leaves dir P w) (executable tmp next) w := by
  refine steady_quiet rfl hw fun r => ?_
  cases r with
  | some f => exact ⟨hw.after, kept_after⟩
  | none => exact hnext _ hw.after kept_after rfl

theorem steady_writeFileAtomic (hname : name ∈ stagedArtifacts) (hw : Described dir w)
    (hof : ∀ data ∈ w.disk (stagedPath dir name), OfRelease w.fetched (trimmed ver) name data) :
    Steady dir (Leaves dir (· ≠ name) w)
      (writeFileAtomic dir (stagedVersionPath dir name) (Utf8.encode (ver ++ "\n").toList)) w := by
  refine steady_withTemp hw fun tmp w₁ htmp h₁ hw₁ hk₁ => ?_
  refine steady_write hw₁ htmp h₁ (fun w₂ h₂ hw₂ hk₂ => ?_) fun f w₂ hw₂ hk₂ => ?_
  · refine steady_after (hk₁.trans hk₂).all (steady_closed hw₂ fun w₃ hw₃ hk₃ hdisk₃ => ?_)
    refine steady_after hk₃.all (steady_executable hw₃ fun w₄ hw₄ hk₄ hdisk₄ => ?_)
    have hk := ((hk₁.trans hk₂).trans hk₃).trans hk₄
    have hheld : w₄.disk tmp = some (Utf8.encode (ver ++ "\n").toList) := by
      rw [hdisk₄, hdisk₃]
      exact h₂.held
    refine steady_after hk₄.all (steady_placeVersion hname hw₄ htmp hheld (fun data hdata => ?_)
      fun r w₅ hw₅ hk₅ => ⟨hw₅, hk₅⟩)
    rw [hk.binary name hname trivial] at hdata
    exact (hof data hdata).mono hk.fetched
  · exact steady_quiet rfl hw₂ fun r => ⟨hw₂.after, ((hk₁.trans hk₂).trans kept_after).all⟩

theorem calls_copy {C : Call → Prop} {dst : Bytes → UpdateM (Option Files.Fault)} {cut : Option Fault}
    {chunks : List Bytes} (h : ∀ chunk, Calls C (dst chunk)) : Calls C (copy dst cut chunks) := by
  induction chunks with
  | nil => trivial
  | cons chunk chunks ih =>
    refine (h chunk).bind fun res => ?_
    cases res with
    | some f => trivial
    | none => exact ih

theorem calls_download {url : String} {dst : Bytes → UpdateM (Option Files.Fault)}
    (h : ∀ chunk, Calls (Beside dir) (dst chunk)) : Calls (Beside dir) (download url dst) := by
  refine ⟨trivial, fun res => ?_⟩
  cases res with
  | error f => trivial
  | ok resp =>
    dsimp only
    split
    · trivial
    · refine (calls_copy h).bind fun res => ?_
      cases res <;> trivial

theorem calls_releaseChecksums {rel : Release} : Calls (Beside dir) (releaseChecksums rel) := by
  unfold releaseChecksums
  split
  · trivial
  · have hbuffer : ∀ chunk, Calls (Beside dir) (toBuffer chunk) := fun _ => trivial
    refine (calls_download hbuffer).bind fun res => ?_
    cases res <;> trivial

variable {lower : Char → Char} {sha256 : Bytes → Bytes} {rel : Release} {asset : Asset}
  {checksums : List Char}

/-- Only the binary at hand and its version change, and a version that is there at the end describes
the binary. -/
theorem steady_stageAsset (hname : asset.name ∈ stagedArtifacts) (hasset : asset ∈ rel.assets)
    (hrel : w.release = some rel) (hw : Described dir w) :
    Steady dir (Leaves dir (· ≠ asset.name) w) (stageAsset lower sha256 dir asset checksums rel.version) w := by
  refine steady_withTemp hw fun tmp w₁ htmp h₁ hw₁ hk₁ => ?_
  have hcalls : Calls (Beside dir) (download asset.downloadURL (toFile tmp)) :=
    calls_download fun chunk => ⟨beside_temp htmp fun _ hpath => hpath, fun _ => trivial⟩
  refine (wp_bind _ _ _).mpr ((steady_of_sure hcalls (sure_download h₁) hw₁).post_mono fun res w₂ hpost => ?_)
  obtain ⟨⟨data, h₂, hcame⟩, hk₂⟩ := hpost
  have hw₂ := hw₁.kept hk₂
  have hk := hk₁.trans hk₂
  cases res with
  | error err => exact steady_quiet rfl hw₂ fun r => ⟨hw₂.after, (hk.trans kept_after).all⟩
  | ok b =>
    obtain ⟨rfl, f, hf, hfrel, hwhole, hbody⟩ := hcame b rfl
    have hof : OfRelease w₂.fetched (trimmed rel.version) asset.name b := by
      rw [hk₁.release, hrel] at hfrel
      exact ⟨f, hf, rel, hfrel, rfl, asset, hasset, rfl, hwhole, hbody⟩
    refine steady_after hk.all (steady_closed hw₂ fun w₃ hw₃ hk₃ hdisk₃ => ?_)
    split
    · exact ⟨hw₃, hk₃.all⟩
    · refine steady_after hk₃.all (steady_executable hw₃ fun w₄ hw₄ hk₄ hdisk₄ => ?_)
      have hheld : w₄.disk tmp = some b := by
        rw [hdisk₄, hdisk₃]
        exact h₂.held
      have hk' := hk₃.trans hk₄
      have hrel₄ : w₄.release = some rel := by rw [hk'.release, hk.release, hrel]
      refine steady_placeBinary hname hw₄ htmp hheld hrel₄ (hof.mono hk'.fetched)
        (fun w₅ hw₅ hk₅ hbinary => ?_) fun f w₅ hw₅ hk₅ => ?_
      · refine (wp_bind _ _ _).mpr ((steady_writeFileAtomic hname hw₅ fun data hdata => ?_).post_mono
          fun res w₆ hpost => ?_)
        · rw [hbinary] at hdata
          cases hdata
          exact (hof.mono hk'.fetched).mono hk₅.fetched
        · exact ⟨hpost.1, (hk₄.all.trans hk₅).trans hpost.2⟩
      · exact ⟨hw₅, (hk₄.trans hk₅).all⟩

theorem steady_stageAll {only : Option (List String)} {names : List String} {out : StagedRefresh}
    (hnames : ∀ name ∈ names, name ∈ stagedArtifacts) (hrel : w.release = some rel) (hw : Described dir w) :
    Steady dir (Leaves dir (fun name => ∃ stale ∈ only, name ∉ stale) w)
      (stageAll lower sha256 dir rel checksums only names out) w := by
  induction names generalizing w out with
  | nil => exact ⟨hw, .refl dir _ w⟩
  | cons name names ih =>
    have hrest : ∀ name ∈ names, name ∈ stagedArtifacts := fun a ha => hnames a (List.mem_cons_of_mem _ ha)
    unfold stageAll
    split_ifs with honly
    · exact ih hrest hrel hw
    split
    · exact ih hrest hrel hw
    · rename_i asset hasset
      have hmem : asset ∈ rel.assets := List.mem_reverse.mp (List.mem_of_find?_eq_some hasset)
      have hname : asset.name = name := by simpa using List.find?_some hasset
      have hstaged : asset.name ∈ stagedArtifacts := hname ▸ hnames name List.mem_cons_self
      refine (wp_bind _ _ _).mpr ((steady_stageAsset hstaged hmem hrel hw).post_mono fun res w₁ hpost => ?_)
      obtain ⟨hw₁, hk₁⟩ := hpost
      have hrel₁ : w₁.release = some rel := by rw [hk₁.release, hrel]
      have hk : Kept dir (fun name => ∃ stale ∈ only, name ∉ stale) w w₁ := by
        refine hk₁.mono fun other ⟨stale, hstale, hother⟩ heq => honly ?_
        rw [heq, hname] at hother
        rw [Option.mem_def.mp hstale]
        simpa using hother
      cases res with
      | some err => exact steady_after hk (ih hrest hrel₁ hw₁)
      | none => exact steady_after hk (ih hrest hrel₁ hw₁)

theorem steady_refreshStaged {only : Option (List String)} (hrel : w.release = some rel)
    (hw : Described dir w) :
    Steady dir (Leaves dir (fun name => ∃ stale ∈ only, name ∉ stale) w)
      (refreshStaged lower sha256 dir rel only) w := by
  refine steady_quiet rfl hw fun r => ?_
  cases r with
  | some f => exact ⟨hw.after, kept_after⟩
  | none =>
    refine steady_after kept_after ((wp_bind _ _ _).mpr
      ((steady_of_calls (P := All) calls_releaseChecksums hw.after).post_mono fun res w₁ hpost => ?_))
    obtain ⟨hw₁, hk₁⟩ := hpost
    have hrel₁ : w₁.release = some rel := by rw [hk₁.release, World.after_release, hrel]
    cases res with
    | error err => exact ⟨hw₁, hk₁.all⟩
    | ok checksums =>
      have hall : Steady dir (Leaves dir (fun name => ∃ stale ∈ only, name ∉ stale) w₁)
          (stageAll lower sha256 dir rel checksums only stagedArtifacts ⟨rel.version, [], [], [], []⟩) w₁ :=
        steady_stageAll (fun name hname => hname) hrel₁ hw₁
      exact (wp_bind _ _ _).mpr ((steady_after hk₁.all hall).post_mono fun _ _ hpost => hpost)

structure Seen (dir : String) (disk : Files.Disk) (st : StagedStatus) : Prop where
  binary : st.present = true → (disk (stagedPath dir st.name)).isSome
  version : st.version ≠ "" → recorded disk dir st.name = some st.version

theorem sure_stagedVersion :
    Sure (fun ver w' => w'.disk = w.disk ∧ (ver.toOption.getD "" ≠ "" →
      recorded w.disk dir name = some (ver.toOption.getD ""))) (stagedVersion dir name) w := by
  refine sure_file fun r disk hT => ?_
  obtain ⟨rfl, ⟨raw, rfl, hraw⟩ | ⟨f, rfl, -⟩⟩ := Files.readFile_cases hT
  · refine ⟨rfl, fun hver => ?_⟩
    by_cases hempty : versionText raw = ""
    · rw [if_pos hempty] at hver
      exact absurd rfl hver
    · rw [recorded, hraw, if_neg hempty, Option.bind_some, if_neg hempty]
      rfl
  · cases f with
    | notExist => exact ⟨rfl, fun hver => absurd rfl hver⟩
    | exist => exact ⟨rfl, fun hver => absurd rfl hver⟩
    | code n => exact ⟨rfl, fun hver => absurd rfl hver⟩

theorem sure_inspectStaged (names : List String) :
    Sure (fun sts w' => w'.disk = w.disk ∧ sts.map (·.name) = names ∧ ∀ st ∈ sts, Seen dir w.disk st)
      (inspectStaged dir names) w := by
  induction names generalizing w with
  | nil => exact ⟨rfl, rfl, nofun⟩
  | cons name names ih =>
    refine sure_file fun r disk hT => ?_
    obtain rfl : disk = w.disk := Files.quiet_cases rfl hT
    cases r with
    | some f =>
      refine (wp_bind _ _ _).mpr (ih.post_mono fun sts w₁ hpost => ?_)
      obtain ⟨hdisk, hnames, hseen⟩ := hpost
      refine ⟨hdisk, congrArg (name :: ·) hnames, List.forall_mem_cons.mpr ⟨⟨nofun, fun h => absurd rfl h⟩, hseen⟩⟩
    | none =>
      have hpresent : (w.disk (stagedPath dir name)).isSome := by
        obtain ⟨x, hx⟩ := hT
        dsimp only [Files.machine, Files.exec] at hx
        split at hx
        · cases hx
        · rename_i data _ hdata
          rw [hdata]
          rfl
      refine (wp_bind _ _ _).mpr (sure_stagedVersion.post_mono fun ver w₁ hpost => ?_)
      obtain ⟨hdisk₁, hver⟩ := hpost
      refine (wp_bind _ _ _).mpr (ih.post_mono fun sts w₂ hpost => ?_)
      obtain ⟨hdisk, hnames, hseen⟩ := hpost
      rw [hdisk₁] at hdisk hseen
      exact ⟨hdisk, congrArg (name :: ·) hnames, List.forall_mem_cons.mpr ⟨⟨fun _ => hpresent, hver⟩, hseen⟩⟩

theorem calls_inspectStaged (names : List String) : Calls (Beside dir) (inspectStaged dir names) := by
  induction names with
  | nil => trivial
  | cons name names ih =>
    refine ⟨fun _ _ => id, fun r => ?_⟩
    cases r with
    | some f => exact ih.bind fun sts => trivial
    | none =>
      have hversion : Calls (Beside dir) (stagedVersion dir name) := by
        refine ⟨fun _ _ => id, fun r => ?_⟩
        cases r with
        | ok raw => trivial
        | error f => cases f <;> trivial
      exact hversion.bind fun ver => ih.bind fun sts => trivial

theorem steady_byTag {tag : String} {k : Except Fault Release → UpdateM α} (hw : Described dir w)
    (hlost : ∀ f, Steady dir post (k (.error f)) w)
    (hcame : ∀ rel, Steady dir post (k (.ok rel)) { w with release := some rel }) :
    Steady dir post (.call (.byTag tag) k) w := by
  refine ⟨hw, fun r w' ⟨x, _, hx⟩ => ?_⟩
  dsimp only [World.exec] at hx
  split at hx
  · cases hx
    exact hlost _
  · cases hx
    exact hcame _

def Reports (dir : String) (want : Option String) (res : StagedRefresh × Option Err) (w : World) : Prop :=
  Described dir w ∧ ∀ ver ∈ want, ∀ name ∈ res.1.upToDate,
    ∃ data, w.disk (stagedPath dir name) = some data ∧ OfRelease w.fetched ver name data

/-- What is up to date as `InspectStaged` saw it, and what is not. -/
abbrev currentNames (want : String) (sts : List StagedStatus) : List String :=
  (sts.filter fun st => st.present && st.version = want).map (·.name)

abbrev staleNames (want : String) (sts : List StagedStatus) : List String :=
  (sts.filter fun st => ¬ (st.present && st.version = want)).map (·.name)

variable {want : String} {sts : List StagedStatus}

theorem current_not_stale (hnodup : (sts.map (·.name)).Nodup) (h : name ∈ currentNames want sts) :
    name ∉ staleNames want sts := by
  obtain ⟨st, hst, rfl⟩ := List.mem_map.mp h
  obtain ⟨hmem, hmatch⟩ := List.mem_filter.mp hst
  intro hstale
  obtain ⟨other, hother, heq⟩ := List.mem_map.mp hstale
  obtain ⟨hmemOther, hno⟩ := List.mem_filter.mp hother
  have hsame : other = st := List.inj_on_of_nodup_map hnodup hmemOther hmem heq
  rw [hsame, hmatch] at hno
  cases hno

theorem reports_of_current {res : StagedRefresh} {err : Option Err} (hwant : want ≠ "")
    (hw : Described dir w) (hstaged : ∀ st ∈ sts, st.name ∈ stagedArtifacts)
    (hseen : ∀ st ∈ sts, Seen dir w.disk st) (hw' : Described dir w')
    (hbinary : ∀ name ∈ currentNames want sts, w'.disk (stagedPath dir name) = w.disk (stagedPath dir name))
    (hfetched : w.fetched ⊆ w'.fetched) (hres : res.upToDate = currentNames want sts) :
    Reports dir (some want) (res, err) w' := by
  refine ⟨hw', fun ver hver name hname => ?_⟩
  cases hver
  rw [hres] at hname
  rw [hbinary name hname]
  obtain ⟨st, hst, rfl⟩ := List.mem_map.mp hname
  obtain ⟨hmem, hmatch⟩ := List.mem_filter.mp hst
  have hmatch' : st.present = true ∧ st.version = want := by simpa using hmatch
  obtain ⟨data, hdata⟩ := Option.isSome_iff_exists.mp ((hseen st hmem).binary hmatch'.1)
  have hver : recorded w.disk dir st.name = some want := by
    rw [← hmatch'.2]
    exact (hseen st hmem).version (hmatch'.2 ▸ hwant)
  exact ⟨data, hdata, (hw st.name (hstaged st hmem) want hver data hdata).mono hfetched⟩

theorem steady_reconcileStaged (hwant : want ≠ "") (hw : Described dir w) :
    Steady dir (Reports dir (some want)) (reconcileStaged lower sha256 dir want) w := by
  refine (wp_bind _ _ _).mpr ((steady_of_sure (calls_inspectStaged stagedArtifacts)
    (sure_inspectStaged stagedArtifacts) hw).post_mono fun sts w₁ hpost => ?_)
  obtain ⟨⟨hdisk, hnames, hseen⟩, hk₁⟩ := hpost
  have hw₁ := hw.kept hk₁
  rw [← hdisk] at hseen
  have hstaged : ∀ st ∈ sts, st.name ∈ stagedArtifacts := by
    intro st hst
    rw [← hnames]
    exact List.mem_map_of_mem hst
  have hnodup : (sts.map (·.name)).Nodup := by
    rw [hnames]
    decide
  dsimp only
  split
  · exact reports_of_current hwant hw₁ hstaged hseen hw₁ (fun _ _ => rfl) (List.Subset.refl _) rfl
  refine steady_byTag hw₁ (fun f => ?_) fun rel => ?_
  · exact reports_of_current hwant hw₁ hstaged hseen hw₁ (fun _ _ => rfl) (List.Subset.refl _) rfl
  have hw₂ : Described dir { w₁ with release := some rel } := hw₁
  refine (wp_bind _ _ _).mpr ((steady_refreshStaged rfl hw₂).post_mono fun res w₃ hpost => ?_)
  obtain ⟨hw₃, hk₃⟩ := hpost
  have hbinary : ∀ name ∈ currentNames want sts,
      w₃.disk (stagedPath dir name) = w₁.disk (stagedPath dir name) := by
    intro name hname
    have hmem : name ∈ stagedArtifacts := by
      obtain ⟨st, hst, rfl⟩ := List.mem_map.mp hname
      exact hstaged st (List.mem_of_mem_filter hst)
    exact hk₃.binary name hmem ⟨_, rfl, current_not_stale hnodup hname⟩
  obtain ⟨res, err⟩ := res
  cases err with
  | some err => exact reports_of_current hwant hw₁ hstaged hseen hw₃ hbinary hk₃.fetched rfl
  | none => exact reports_of_current hwant hw₁ hstaged hseen hw₃ hbinary hk₃.fetched rfl

/-- Between two steps: the binaries are described, and what is left of the pass keeps them so. -/
structure Sound (dir : String) (s : Staging) : Prop where
  described : Described dir s.world
  steady : ∀ p ∈ s.pass, Steady dir (Reports dir p.want) p.prog s.world

theorem Steady.described {want : Option String} {p : UpdateM (StagedRefresh × Option Err)}
    (h : Steady dir (Reports dir want) p w) : Described dir w := by
  cases p with
  | ret res => exact h.1
  | call c k => exact h.1

theorem Sound.of_pass {p : Pass} (h : Steady dir (Reports dir p.want) p.prog w) :
    Sound dir ⟨w, some p⟩ := by
  refine ⟨Steady.described h, fun q hq => ?_⟩
  cases hq
  exact h

theorem Sound.step {a : Action} {s s' : Staging} (hs : Sound dir s) (hok : orderly dir s a = true)
    (hstep : (staging lower sha256 dir).step a s = some s') : Sound dir s' := by
  cases a with
  | refresh rel =>
    change (if s.idle then some _ else none) = some s' at hstep
    split at hstep
    · cases hstep
      have hw : Described dir { s.world with release := some rel } := hs.described
      refine .of_pass ((steady_refreshStaged rfl hw).post_mono fun res w' hpost => ?_)
      exact ⟨hpost.1, nofun⟩
    · cases hstep
  | reconcile want =>
    have hwant : want ≠ "" := by simpa [orderly] using hok
    change (if s.idle then some _ else none) = some s' at hstep
    split at hstep
    · cases hstep
      have hw : Described dir { s.world with release := none } := hs.described
      exact .of_pass (steady_reconcileStaged hwant hw)
    · cases hstep
  | call x =>
    obtain ⟨w, pass⟩ := s
    cases pass with
    | none => cases hstep
    | some p =>
      obtain ⟨want, prog⟩ := p
      cases prog with
      | ret res => cases hstep
      | call c k =>
        cases hstep
        have hnow := hs.steady _ rfl
        exact .of_pass (hnow.2 _ _ ⟨x, hok, rfl⟩)
  | crash =>
    cases hstep
    exact ⟨hs.described, fun p hp => absurd hp (Option.not_mem_none p)⟩

end

/-- Where no binary is put over one of another release that has its version recorded, nor a version
asked for that is empty, the versions describe the binaries at every step. -/
theorem labels_describe (lower : Char → Char) (sha256 : Bytes → Bytes) (dir : String) (w : World)
    (as : List Action) (t : Staging) (hstart : Described dir w)
    (hrun : (staging lower sha256 dir).Run (fun s a => orderly dir s a = true) ⟨w, none⟩ as t) :
    Described dir t.world ∧ Honest dir t := by
  have hsound : Sound dir t := by
    refine hrun.invariant (I := Sound dir) (fun a s s' hs hok hstep => hs.step hok hstep) ⟨hstart, ?_⟩
    exact fun p hp => absurd hp (Option.not_mem_none p)
  refine ⟨hsound.described, fun want report err hpass name hname => ?_⟩
  exact (hsound.steady _ hpass).2 want rfl name hname

def agentName : String := "proxback-agent-linux-amd64"

def released (ver : String) : Release := ⟨"v" ++ ver, [⟨agentName, "/" ++ ver⟩]⟩

def answered (data : UInt8) (n : Nat) : Action :=
  .call ⟨⟨none, n, 0⟩, .ok ⟨200, "", [[data]], none⟩, .error .canceled⟩

def emptyServer : Staging := ⟨.start fun _ => none, none⟩

def reported (s : Staging) : Option (Option String × List String) :=
  match s.pass with
  | some ⟨want, .ret (report, _)⟩ => some (want, report.upToDate)
  | _ => none

def firstPasses : List Action :=
  .refresh (released "1") :: (List.range 14).map (answered 1) ++
    .reconcile "1" :: (List.range 5).map (answered 3)

/-- The server is killed while it stages the second release, and reconciles with the first when it
starts again. -/
def killedPasses : List Action :=
  .refresh (released "1") :: (List.range 14).map (answered 1) ++
    .refresh (released "2") :: (List.range 7).map (answered 2) ++
      .crash :: .reconcile "1" :: (List.range 5).map (answered 3)

theorem emptyServer_described (dir : String) : Described dir emptyServer.world := by
  intro name hname ver hver
  cases hver

theorem labels_describe_first : ∃ t,
    (staging id (fun _ => []) "/d").Run (fun s a => orderly "/d" s a = true) emptyServer firstPasses t ∧
    reported t = some (some "1", [agentName]) ∧ Described "/d" t.world ∧ Honest "/d" t := by
  have hend : ((staging id (fun _ => []) "/d").follow firstPasses emptyServer).map reported =
      some (some (some "1", [agentName])) := by decide +kernel
  have horderly : (((staging id (fun _ => []) "/d").trail firstPasses emptyServer).all fun step =>
      orderly "/d" step.1 step.2) = true := by decide +kernel
  obtain ⟨t, ht, hreported⟩ := Option.map_eq_some_iff.mp hend
  have hrun : (staging id (fun _ => []) "/d").Run (fun s a => orderly "/d" s a = true) emptyServer
      firstPasses t := System.run_of_trail (fun s a => id) ht horderly
  have hsound := labels_describe id (fun _ => []) "/d" emptyServer.world firstPasses t
    (emptyServer_described "/d") hrun
  exact ⟨t, hrun, hreported, hsound⟩

theorem exists_pass_of_reported {s : Staging} {want : String} {names : List String}
    (h : reported s = some (some want, names)) :
    ∃ report err, s.pass = some ⟨some want, .ret (report, err)⟩ ∧ report.upToDate = names := by
  obtain ⟨w, pass⟩ := s
  unfold reported at h
  split at h
  · rename_i want' report err hpass
    cases h
    exact ⟨report, err, hpass, rfl⟩
  · cases h

/-- The second release's binary stands under the first one's version, and is reported up to date. -/
theorem label_of_previous : ∃ t,
    (staging id (fun _ => []) "/d").Run (fun _ _ => True) emptyServer killedPasses t ∧
    ¬ Described "/d" t.world ∧ ¬ Honest "/d" t := by
  have hend : ((staging id (fun _ => []) "/d").follow killedPasses emptyServer).map (fun t =>
      (reported t, recorded t.world.disk "/d" agentName, t.world.disk (stagedPath "/d" agentName),
        decide (OfRelease t.world.fetched "1" agentName [2]))) =
      some (some (some "1", [agentName]), some "1", some [2], false) := by decide +kernel
  obtain ⟨t, ht, heq⟩ := Option.map_eq_some_iff.mp hend
  obtain ⟨hreported, heq⟩ := Prod.mk.inj heq
  obtain ⟨hrecorded, heq⟩ := Prod.mk.inj heq
  obtain ⟨hbinary, hof⟩ := Prod.mk.inj heq
  have hnot : ¬ OfRelease t.world.fetched "1" agentName [2] := of_decide_eq_false hof
  refine ⟨t, System.run_of_follow (fun _ _ _ => trivial) ht, fun hdescribed => ?_, fun hhonest => ?_⟩
  · exact hnot (hdescribed agentName (by decide) "1" hrecorded [2] hbinary)
  · obtain ⟨report, err, hpass, hnames⟩ := exists_pass_of_reported hreported
    have hmem : agentName ∈ report.upToDate := by
      rw [hnames]
      exact List.mem_cons_self
    obtain ⟨data, hdata, hdataOf⟩ := hhonest "1" report err hpass agentName hmem
    rw [hbinary] at hdata
    cases hdata
    exact hnot hdataOf

end ProxBack.Update
