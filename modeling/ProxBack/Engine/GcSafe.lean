import ProxBack.Engine.Gc

/-! A pass never deletes a chunk that some manifest names, whatever else the
world answers: it is enough that the manifest is there while the pass walks. -/
namespace ProxBack.Engine
open Lib Prog

/-- The replies a world gives that holds the manifest `m` under `key`. -/
def Shows (key : ManifestKey) (m : Manifest) : (c : Call) → Reply c → Prop
  | .walkManifests => fun r => ∀ keys, r = .ok keys → key ∈ keys
  | .getManifest k => fun r => k = key → r = .ok (some m) ∨ ∃ f, r = .error (.fault f)
  | _ => fun _ => True

/-- The calls a pass may make that leave the chunk `sha` and every manifest
where they are. -/
def Call.Keeps (sha : Sha) : Call → Prop
  | .delete a => a ≠ sha
  | .put _ _ | .addChunk _ _ | .putManifest _ _ | .deleteManifest _ => False
  | _ => True

theorem exec_shows {t : Target} {key : ManifestKey} {m : Manifest}
    (h : t.manifests.lookup key = some (some m)) (c : Call) (x : Choice) :
    Shows key m c (Target.exec c x t).1 := by
  cases c with
  | walkManifests =>
    intro keys hk
    have hok := (Choice.answer_eq_ok hk).2
    cases hok
    have hmem : key ∈ t.manifests := AList.lookup_isSome.mp (by rw [h]; rfl)
    exact List.mem_append_left _ (AList.mem_keys.mp hmem)
  | getManifest k =>
    rintro rfl
    simp only [Target.exec, h, Choice.answer]
    cases x.fault with
    | none => exact .inl rfl
    | some f => exact .inr ⟨f, rfl⟩
  | _ => trivial

theorem exec_keeps {sha : Sha} {c : Call} (h : c.Keeps sha) (x : Choice) (t : Target) :
    (Target.exec c x t).2.manifests = t.manifests ∧
      (Target.exec c x t).2.chunks.lookup sha = t.chunks.lookup sha := by
  cases c with
  | delete a =>
    have hne : sha ≠ a := fun he => h he.symm
    exact x.outcome_of (P := fun s => s.manifests = t.manifests ∧
      s.chunks.lookup sha = t.chunks.lookup sha) ⟨rfl, rfl⟩ ⟨rfl, AList.lookup_erase_ne hne⟩
  | deleteChunk a =>
    exact x.outcome_of (P := fun s => s.manifests = t.manifests ∧
      s.chunks.lookup sha = t.chunks.lookup sha) ⟨rfl, rfl⟩ ⟨rfl, rfl⟩
  | put | addChunk | putManifest | deleteManifest => exact h.elim
  | _ => exact ⟨rfl, rfl⟩

-- What a pass may call, from what its first walk establishes about the hashes
-- in use.
section Calls

variable {T : (c : Call) → Unit → Reply c → Unit → Prop} {pre : Call → Unit → Prop}

private theorem gcVisit_doomed (e : Engine) (now : Time) (indexed : FinMap Sha Time)
    (referenced : List Sha) (acc : Sweep) (o : Object)
    (hacc : ∀ d ∈ acc.doomed, d.sha ∉ referenced) :
    ∀ d ∈ (e.gcVisit now indexed referenced acc o).doomed, d.sha ∉ referenced := by
  unfold gcVisit
  dsimp only
  split
  · exact hacc
  · rename_i href
    split
    · exact hacc
    · intro d hd
      rcases List.mem_append.mp hd with hd | hd
      · exact hacc d hd
      · rw [List.mem_singleton.mp hd]
        exact href

theorem forChunks_doomed (hread : ∀ c : Call, c.Reads → pre c ()) (e : Engine)
    (now : Time) (indexed : FinMap Sha Time) (referenced shas : List Sha) (acc : Sweep)
    (hacc : ∀ d ∈ acc.doomed, d.sha ∉ referenced) :
    Wp T pre (fun out _ => ∀ d ∈ out.1.doomed, d.sha ∉ referenced)
      (forChunks (fun acc o => .ret (e.gcVisit now indexed referenced acc o, none))
        shas acc) () := by
  induction shas generalizing acc with
  | nil => exact hacc
  | cons a rest ih =>
    refine ⟨hread _ trivial, fun r _ _ => ?_⟩
    match r with
    | .error err => exact hacc
    | .ok none => exact ih acc hacc
    | .ok (some o) => exact ih _ (gcVisit_doomed e now indexed referenced acc o hacc)

theorem gcReconcile_wp (hdrop : ∀ a, pre (.deleteChunk a) ()) (present shas : List Sha)
    (res : GCResult) : Wp T pre (fun _ _ => True) (gcReconcile present shas res) () := by
  induction shas generalizing res with
  | nil => trivial
  | cons a rest ih =>
    unfold gcReconcile
    split
    · exact ih res
    · refine ⟨hdrop a, fun r _ _ => ?_⟩
      match r with
      | .error err => trivial
      | .ok () => exact ih _

private theorem gcDelete_wp (hdrop : ∀ a, pre (.deleteChunk a) ()) (doomed : List Object)
    (res : GCResult) (hdoomed : ∀ d ∈ doomed, pre (.delete d.sha) ()) :
    Wp T pre (fun _ _ => True) (gcDelete doomed res) () := by
  induction doomed generalizing res with
  | nil => trivial
  | cons d rest ih =>
    refine ⟨hdoomed d List.mem_cons_self, fun r _ _ => ?_⟩
    match r with
    | .error err => trivial
    | .ok () =>
      refine ⟨hdrop d.sha, fun r _ _ => ?_⟩
      match r with
      | .error err => trivial
      | .ok () => exact ih _ fun d hd => hdoomed d (List.mem_cons_of_mem _ hd)

/-- If the first walk establishes `R` of the hashes it gathers, and `R` allows
the deletion of every hash not among them, the whole pass keeps to `pre`. -/
theorem gc_wp {R : List Sha → Prop} (e : Engine) (hread : ∀ c : Call, c.Reads → pre c ())
    (hdrop : ∀ a, pre (.deleteChunk a) ())
    (hwalk : ∀ keys, T .walkManifests () (.ok keys) () →
      Wp T pre (fun out _ => ∀ ref, out.2 = .ok ref → R ref) (gcManifests keys .zero []) ())
    (hdelete : ∀ ref a, R ref → a ∉ ref → pre (.delete a) ()) :
    Wp T pre (fun _ _ => True) e.gc () := by
  refine ⟨hread _ trivial, fun r _ hr => ?_⟩
  match r with
  | .error err => trivial
  | .ok keys =>
    refine (wp_bind _ _ _).mpr ((hwalk keys hr).post_mono ?_)
    rintro ⟨res, out⟩ _ hR
    cases out with
    | error err => trivial
    | ok referenced =>
      have hR := hR referenced rfl
      refine ⟨hread _ trivial, fun r _ _ => ?_⟩
      match r with
      | .error err => trivial
      | .ok indexed =>
        refine ⟨hread _ trivial, fun now _ _ => ⟨hread _ trivial, fun r _ _ => ?_⟩⟩
        match r with
        | .error err => trivial
        | .ok shas =>
          refine (wp_bind _ _ _).mpr ((forChunks_doomed hread e now indexed referenced shas _
            (by simp)).post_mono ?_)
          rintro ⟨acc, err⟩ _ hdoomed
          cases err with
          | some err => trivial
          | none =>
            have hacc : ∀ d ∈ acc.doomed, pre (.delete d.sha) () :=
              fun d hd => hdelete referenced d.sha hR (hdoomed d hd)
            refine (wp_bind _ _ _).mpr ((gcDelete_wp hdrop acc.doomed acc.res hacc).post_mono ?_)
            rintro ⟨res, err⟩ _ _
            cases err with
            | some err => trivial
            | none => exact gcReconcile_wp hdrop _ _ _

theorem gcManifests_wp (hread : ∀ c : Call, c.Reads → pre c ())
    (keys : List ManifestKey) (res : GCResult) (referenced : List Sha) :
    Wp T pre (fun _ _ => True) (gcManifests keys res referenced) () := by
  induction keys generalizing res referenced with
  | nil => trivial
  | cons key rest ih =>
    refine ⟨hread _ trivial, fun r _ _ => ?_⟩
    match r with
    | .error err =>
      dsimp only
      split
      · exact ih _ _
      · trivial
    | .ok none => trivial
    | .ok (some m) => exact ih _ _

theorem gc_calls (e : Engine) {P : Call → Prop} (hread : ∀ c : Call, c.Reads → P c)
    (hdrop : ∀ a, P (.deleteChunk a)) (hdelete : ∀ a, P (.delete a)) : Calls P e.gc := by
  have hwp : Wp (fun _ _ _ _ => True) (fun c _ => P c) (fun _ _ => True) e.gc () := by
    apply gc_wp (R := fun _ => True) e hread hdrop
    · intro keys _
      exact (gcManifests_wp hread keys _ _).post_mono fun _ _ _ _ _ => trivial
    · exact fun _ a _ _ => hdelete a
  exact hwp.calls

end Calls

section Named

variable {key : ManifestKey} {m : Manifest} {sha : Sha}

private theorem gcManifests_named (hsha : sha ∈ m.hashes) (keys : List ManifestKey)
    (res : GCResult) (referenced : List Sha)
    (hin : key ∈ keys ∨ sha ∈ referenced) :
    Wp (fun c (_ : Unit) r _ => Shows key m c r) (fun c _ => c.Keeps sha)
      (fun out _ => ∀ ref, out.2 = .ok ref → sha ∈ ref)
      (gcManifests keys res referenced) () := by
  induction keys generalizing res referenced with
  | nil =>
    intro ref href
    cases href
    simpa using hin
  | cons k rest ih =>
    refine ⟨trivial, fun r _ hr => ?_⟩
    by_cases hk : k = key
    · rcases hr hk with rfl | ⟨f, rfl⟩
      · exact ih _ _ (.inr (List.mem_append_left _ hsha))
      · intro ref href
        cases href
    · have hin' : key ∈ rest ∨ sha ∈ referenced := by
        rcases hin with h | h
        · exact .inl ((List.mem_cons.mp h).resolve_left fun he => hk he.symm)
        · exact .inr h
      match r with
      | .error err =>
        dsimp only
        split
        · exact ih _ _ hin'
        · exact fun ref href => nomatch href
      | .ok none => exact fun ref href => nomatch href
      | .ok (some m') => exact ih _ _ (hin'.imp_right (List.mem_append_right _))

theorem gc_keeps_named (e : Engine) (hsha : sha ∈ m.hashes) :
    Wp (fun c (_ : Unit) r _ => Shows key m c r) (fun c _ => c.Keeps sha)
      (fun _ _ => True) e.gc () := by
  refine gc_wp (R := fun ref => sha ∈ ref) e ?_ (fun _ => trivial) ?_ ?_
  · intro c hc
    cases c <;> trivial
  · intro keys hkeys
    exact gcManifests_named hsha keys _ _ (.inl (hkeys keys rfl))
  · rintro ref a href ha rfl
    exact ha href

end Named

def Target.Named (t : Target) (sha : Sha) : Prop :=
  ∃ key m, t.manifests.lookup key = some (some m) ∧ sha ∈ m.hashes

/-- However many calls of a pass have been made, and whichever of them failed,
the manifests and the chunks they name are as they were. -/
theorem gc_steps_keep {e : Engine} {t t' : Target} {es : List Target.machine.Event}
    {q : EngineM (GCResult × Option Err)} (h : Steps Target.machine e.gc t es q t')
    {sha : Sha} (hsha : t.Named sha) :
    t'.manifests = t.manifests ∧ t'.chunks.lookup sha = t.chunks.lookup sha := by
  obtain ⟨key, m, hm, hmem⟩ := hsha
  have hsim : ∀ c (u : Unit) s x,
      (s.manifests = t.manifests ∧ s.chunks.lookup sha = t.chunks.lookup sha) →
      c.Keeps sha → ∃ _ : Unit, Shows key m c (Target.machine.exec c x s).1 ∧
        ((Target.machine.exec c x s).2.manifests = t.manifests ∧
          (Target.machine.exec c x s).2.chunks.lookup sha = t.chunks.lookup sha) := by
    intro c u s x hs hc
    have hk := exec_keeps hc x s
    exact ⟨(), exec_shows (by rw [hs.1]; exact hm) c x, hk.1.trans hs.1, hk.2.trans hs.2⟩
  obtain ⟨_, hend, _⟩ := (gc_keeps_named e hmem).simulate hsim ⟨rfl, rfl⟩ h
  exact hend

end ProxBack.Engine
