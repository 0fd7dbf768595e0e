import ProxBack.Update.World

/-! What a download leaves in a temporary file, whatever fails. -/
namespace ProxBack.Update
open Lib Text Prog Function
open Engine (Bytes Fault)

/-- The temporary file holds `data`, and every other file is as on `d`. -/
structure Held (d : Files.Disk) (tmp : String) (data : Bytes) (w : World) : Prop where
  held : w.disk tmp = some data
  others : ∀ path, path ≠ tmp → w.disk path = d path

section
variable {α : Type} {post : α → World → Prop} {d : Files.Disk} {tmp : String} {data : Bytes} {w : World}

theorem Held.after {c : Files.Call} {r : Files.Reply c} (h : Held d tmp data w) :
    Held d tmp data (w.after c r w.disk) := ⟨h.held, h.others⟩

theorem Held.fetch {fetched : List Fetch} (h : Held d tmp data w) :
    Held d tmp data { w with fetched } := ⟨h.held, h.others⟩

theorem sure_write {chunk : Bytes} {k : Option Files.Fault → UpdateM α} (h : Held d tmp data w)
    (hdone : ∀ w', Held d tmp (data ++ chunk) w' → w'.fetched = w.fetched → Sure post (k none) w')
    (hfail : ∀ f part w', Held d tmp (data ++ part) w' → Sure post (k (some f)) w') :
    Sure post (.call (.file (.write tmp chunk)) k) w := by
  have hheld : ∀ (part : Bytes) (w' : World),
      w'.disk = update w.disk tmp ((w.disk tmp).map (· ++ part)) → Held d tmp (data ++ part) w' := by
    intro part w' hdisk
    refine ⟨?_, fun path hpath => ?_⟩
    · rw [hdisk, update_self, h.held, Option.map_some]
    · rw [hdisk, update_of_ne hpath]
      exact h.others path hpath
  refine sure_file fun r disk hT => ?_
  rcases Files.write_cases hT with ⟨rfl, hdisk⟩ | ⟨f, part, rfl, hdisk⟩
  · exact hdone _ (hheld chunk _ hdisk) rfl
  · exact hfail f part _ (hheld part _ hdisk)

theorem sure_copy (cut : Option Fault) (chunks : List Bytes) (h : Held d tmp data w) :
    Sure (fun res w' => ∃ data', Held d tmp data' w' ∧
        (res = none → cut = none ∧ data' = data ++ chunks.flatten ∧ w'.fetched = w.fetched))
      (copy (toFile tmp) cut chunks) w := by
  induction chunks generalizing data w with
  | nil =>
    refine ⟨data, h, fun hres => ⟨Option.map_eq_none_iff.mp hres, ?_, rfl⟩⟩
    rw [List.flatten_nil, List.append_nil]
  | cons chunk chunks ih =>
    refine sure_write h (fun w' h' hfetched => ?_) (fun f part w' h' => ⟨_, h', nofun⟩)
    refine (ih h').post_mono fun res w'' hpost => ?_
    obtain ⟨data', hheld, hdone⟩ := hpost
    refine ⟨data', hheld, fun hres => ?_⟩
    obtain ⟨hcut, hdata, hsame⟩ := hdone hres
    rw [hdata, hsame, hfetched, List.flatten_cons, List.append_assoc]
    exact ⟨hcut, rfl, rfl⟩

/-- A response to the download of `url` that came whole. -/
structure Came (w : World) (url : String) (data : Bytes) (f : Fetch) : Prop where
  release : f.release = w.release
  whole : f.Whole url
  body : f.resp.body = data

theorem sure_download {url : String} (h : Held d tmp [] w) :
    Sure (fun res w' => ∃ data, Held d tmp data w' ∧ ∀ b, res = .ok b →
        b = data ∧ ∃ f ∈ w'.fetched, Came w url data f)
      (download url (toFile tmp)) w := by
  refine sure_get (fun f => ⟨[], h, nofun⟩) fun resp => ?_
  dsimp only
  split_ifs with hstatus
  · exact ⟨[], h.fetch, nofun⟩
  refine (wp_bind _ _ _).mpr ((sure_copy resp.cut resp.chunks h.fetch).post_mono fun res w' hpost => ?_)
  obtain ⟨data, hheld, hdone⟩ := hpost
  cases res with
  | some err => exact ⟨data, hheld, nofun⟩
  | none =>
    obtain ⟨hcut, hdata, hfetched⟩ := hdone rfl
    have hbody : resp.body = data := by rw [hdata, List.nil_append, Response.body]
    refine ⟨data, hheld, fun b hb => ?_⟩
    cases hb
    refine ⟨hbody, ⟨w.release, url, resp⟩, ?_, rfl, ⟨rfl, not_not.mp hstatus, hcut⟩, hbody⟩
    rw [hfetched]
    exact List.mem_append_right _ List.mem_cons_self

@[grind =] theorem copy_toBuffer (cut : Option Fault) (chunks : List Bytes) :
    copy toBuffer cut chunks = .ret (cut.map .read) := by
  induction chunks with
  | nil => rfl
  | cons chunk chunks ih => exact ih

theorem sure_releaseChecksums {rel : Release} (h : Held d tmp data w) :
    Sure (fun res w' => Held d tmp data w' ∧ w.fetched ⊆ w'.fetched ∧ ∀ checksums, res = .ok checksums →
        ∀ a, rel.assets.find? (fun a => a.name = checksumsName) = some a →
          ∃ f ∈ w'.fetched, f.Whole a.downloadURL ∧ checksums = Utf8.runes f.resp.body)
      (releaseChecksums rel) w := by
  unfold releaseChecksums
  split
  · rename_i hnone
    refine ⟨h, List.Subset.refl _, fun _ _ a ha => ?_⟩
    rw [hnone] at ha
    cases ha
  · rename_i a ha
    refine (wp_bind _ _ _).mpr (sure_get (fun f => ⟨h, List.Subset.refl _, nofun⟩) fun resp => ?_)
    dsimp only
    have h' : Held d tmp data { w with fetched := w.fetched ++ [⟨w.release, a.downloadURL, resp⟩] } :=
      ⟨h.held, h.others⟩
    have hsub : w.fetched ⊆ w.fetched ++ [⟨w.release, a.downloadURL, resp⟩] := List.subset_append_left _ _
    split_ifs with hstatus
    · exact ⟨h', hsub, nofun⟩
    rw [copy_toBuffer, ret_bind]
    cases hcut : resp.cut with
    | some f => exact ⟨h', hsub, nofun⟩
    | none =>
      refine ⟨h', hsub, fun checksums hok a' ha' => ?_⟩
      rw [ha] at ha'
      cases ha'
      cases hok
      exact ⟨⟨w.release, a.downloadURL, resp⟩, List.mem_append_right _ List.mem_cons_self,
        ⟨rfl, not_not.mp hstatus, hcut⟩, rfl⟩

end

section
variable {lower : Char → Char} {sha256 : Bytes → Bytes} {data : Bytes}

@[simp] theorem checksumFor_nil (name : List Char) : checksumFor lower [] name = [] := rfl

theorem verifyChecksum_none {checksums : List Char} {asset : Asset}
    (h : verifyChecksum lower sha256 checksums asset data = none)
    (hwant : checksumFor lower checksums asset.name.toList ≠ []) :
    hexOf (sha256 data) = checksumFor lower checksums asset.name.toList := by
  unfold verifyChecksum at h
  dsimp only at h
  split_ifs at h with hempty hsum
  · rw [hempty, checksumFor_nil] at hwant
    exact absurd rfl hwant
  · exact not_not.mp hsum

end

end ProxBack.Update
