import ProxBack.Agent.LiveTar

/-! What the archive of a live file system holds, and what the report on it says. -/
namespace ProxBack.Agent.Live
open Lib Prog Engine Tar Text

section
variable (encode : Header → Except Fault Bytes)

def headerBytes (h : Header) : Bytes := (encode h).toOption.getD []

def entryBytes (it : Item) : Bytes := headerBytes encode it.header ++ it.data ++ zeros (padding it.header.size)

def Fits (items : List Item) : Prop :=
  ∀ it ∈ items, it.data.length = it.header.size ∧ (encode it.header).isOk = true

structure Between (items : List Item) (tw : Writer) (bytes : Bytes) : Prop where
  fine : tw.err = none
  whole : tw.left = 0
  stream : bytes ++ zeros tw.pad = items.flatMap (entryBytes encode)
  fits : Fits encode items

end

structure Reported (seen : List Seen) (rep : Report) : Prop where
  files : rep.files = (seen.flatMap Seen.items).countP fun it => it.header.typeflag = .reg
  dirs : rep.dirs = (seen.flatMap Seen.items).countP fun it => it.header.typeflag = .dir
  excluded : rep.excluded = seen.countP (·.leftOut)
  skippedCount : rep.skippedCount = (seen.flatMap Seen.skips).length
  skipped : rep.skipped = (seen.flatMap Seen.skips).take maxRecordedSkips

def Account (encode : Header → Except Fault Bytes) (seen : List Seen) (rep : Report) (tw : Writer)
    (bytes : Bytes) : Prop :=
  tw.err ≠ none ∨ Between encode (seen.flatMap Seen.items) tw bytes ∧ Reported seen rep

section
variable {encode : Header → Except Fault Bytes} {items : List Item} {tw : Writer} {bytes blocks data : Bytes}
  {seen : List Seen} {sn sn' : Seen} {rep rep' : Report} {h : Header}

theorem Between.add (hb : Between encode items tw bytes) (hblocks : encode h = .ok blocks)
    (hdata : data.length = h.size) :
    Between encode (items ++ [⟨h, data, none⟩]) ⟨none, 0, padding h.size⟩ (bytes ++ zeros tw.pad ++ blocks ++ data) where
  fine := rfl
  whole := rfl
  stream := by
    rw [List.flatMap_append, List.flatMap_singleton, ← hb.stream]
    have hbytes : headerBytes encode h = blocks := by rw [headerBytes, hblocks]; rfl
    simp only [entryBytes, hbytes, List.append_assoc]
  fits := by
    intro it hit
    rcases List.mem_append.mp hit with hit | hit
    · exact hb.fits it hit
    · rw [List.mem_singleton.mp hit, hblocks]
      exact ⟨hdata, rfl⟩

@[simp] theorem Report.skipped_skip (hle : rep.skipped.length ≤ maxRecordedSkips) (s : Skip) :
    (rep.skip s).skipped = (rep.skipped ++ [s]).take maxRecordedSkips := by
  unfold Report.skip
  dsimp only
  split
  · rename_i hlt
    rw [List.take_of_length_le]
    rw [List.length_append]
    exact hlt
  · rename_i hfull
    have hlen : rep.skipped.length = maxRecordedSkips := Nat.le_antisymm hle (Nat.not_lt.mp hfull)
    rw [← hlen, List.take_left]

theorem Reported.skipped_le (hr : Reported seen rep) : rep.skipped.length ≤ maxRecordedSkips := by
  rw [hr.skipped, List.length_take]
  exact Nat.min_le_left _ _

theorem Reported.snoc (hr : Reported seen rep)
    (hfiles : rep'.files = rep.files + sn.items.countP fun it => it.header.typeflag = .reg)
    (hdirs : rep'.dirs = rep.dirs + sn.items.countP fun it => it.header.typeflag = .dir)
    (hexcluded : rep'.excluded = rep.excluded + if sn.leftOut then 1 else 0)
    (hcount : rep'.skippedCount = rep.skippedCount + sn.skips.length)
    (hskipped : rep'.skipped = (rep.skipped ++ sn.skips).take maxRecordedSkips) :
    Reported (seen ++ [sn]) rep' where
  files := by rw [hfiles, hr.files, List.flatMap_append, List.flatMap_singleton, List.countP_append]
  dirs := by rw [hdirs, hr.dirs, List.flatMap_append, List.flatMap_singleton, List.countP_append]
  excluded := by rw [hexcluded, hr.excluded, List.countP_append, List.countP_singleton]
  skippedCount := by rw [hcount, hr.skippedCount, List.flatMap_append, List.flatMap_singleton, List.length_append]
  skipped := by
    rw [hskipped, hr.skipped, List.flatMap_append, List.flatMap_singleton, List.take_append, List.take_append,
      List.take_take, Nat.min_self, List.length_take]
    congr 2
    omega

theorem Account.pass (h : Account encode seen rep tw bytes) (hitems : sn.items = [])
    (hr : Reported seen rep → Reported (seen ++ [sn]) rep') : Account encode (seen ++ [sn]) rep' tw bytes := by
  rcases h with hbroken | ⟨hb, hreported⟩
  · exact .inl hbroken
  · refine .inr ⟨?_, hr hreported⟩
    rwa [List.flatMap_append, List.flatMap_singleton, hitems, List.append_nil]

theorem Account.congr (h : Account encode (seen ++ [sn]) rep tw bytes) (hitems : sn'.items = sn.items)
    (hskips : sn'.skips = sn.skips) (hout : sn'.leftOut = sn.leftOut) :
    Account encode (seen ++ [sn']) rep tw bytes := by
  have hall : (seen ++ [sn']).flatMap Seen.items = (seen ++ [sn]).flatMap Seen.items := by
    simp only [List.flatMap_append, List.flatMap_singleton, hitems]
  have hlost : (seen ++ [sn']).flatMap Seen.skips = (seen ++ [sn]).flatMap Seen.skips := by
    simp only [List.flatMap_append, List.flatMap_singleton, hskips]
  rcases h with hbroken | ⟨hb, hfiles, hdirs, hexcluded, hcount, hskipped⟩
  · exact .inl hbroken
  · refine .inr ⟨hall ▸ hb, ⟨hall ▸ hfiles, hall ▸ hdirs, ?_, hlost ▸ hcount, hlost ▸ hskipped⟩⟩
    rw [hexcluded, List.countP_append, List.countP_append, List.countP_singleton, List.countP_singleton, hout]

theorem Account.unlisted {s : Skip} (h : Account encode (seen ++ [sn]) rep tw bytes)
    (hitems : sn'.items = sn.items) (hskips : sn'.skips = sn.skips ++ [s]) (hout : sn'.leftOut = sn.leftOut) :
    Account encode (seen ++ [sn']) (rep.skip s) tw bytes := by
  have hall : (seen ++ [sn']).flatMap Seen.items = (seen ++ [sn]).flatMap Seen.items := by
    simp only [List.flatMap_append, List.flatMap_singleton, hitems]
  have hlost : (seen ++ [sn']).flatMap Seen.skips = (seen ++ [sn]).flatMap Seen.skips ++ [s] := by
    simp only [List.flatMap_append, List.flatMap_singleton, hskips, List.append_assoc]
  rcases h with hbroken | ⟨hb, hr⟩
  · exact .inl hbroken
  refine .inr ⟨hall ▸ hb, ⟨hall ▸ hr.files, hall ▸ hr.dirs, ?_, ?_, ?_⟩⟩
  · show rep.excluded = _
    rw [hr.excluded, List.countP_append, List.countP_append, List.countP_singleton, List.countP_singleton, hout]
  · show rep.skippedCount + 1 = _
    rw [hr.skippedCount, hlost, List.length_append, List.length_singleton]
  · rw [Report.skipped_skip hr.skipped_le, hr.skipped, hlost, List.take_append, List.take_append, List.take_take,
      Nat.min_self, List.length_take]
    congr 2
    omega

end

/-- A file as `addFile` takes it. -/
def fileSeen (root top : List Char) (x : Below) (fi : FileInfo) (opened : Except Fault (List ReadReply)) : Seen :=
  ⟨root, top, x, ⟨false, .ok { fi with mode := .regular }, opened, none⟩, false⟩

section
variable {pf : Platform} {encode : Header → Except Fault Bytes} {exclude : List (List Char)} {tw : Writer}
  {bytes : Bytes} {seen : List Seen} {rep : Report} {root top : List Char} {x above : Below} {fi : FileInfo}
  {v : Visit}

abbrev Adds (encode : Header → Except Fault Bytes) (seen : List Seen)
    (out : Option AddErr × Report × Writer) (bytes : Bytes) : Prop :=
  out.1 = none → Account encode seen out.2.1 out.2.2 bytes

@[grind =]
theorem fileSeen_skips (script : List ReadReply) : (fileSeen root top x fi (.ok script)).skips =
    ((copied script fi.size).2.map fun err => (⟨root, x, .copy (.read err)⟩ : Skip)).toList := by
  show ((((copied script fi.size).2.map fun err => SkipCause.copy (.read err)).toList ++ []).map fun c =>
    (⟨root, x, c⟩ : Skip)) = _
  cases (copied script fi.size).2 with
  | none => rfl
  | some err => rfl

theorem addFile_sends (h : Account encode seen rep tw bytes) (opened : Except Fault (List ReadReply)) :
    Sends (Adds encode (seen ++ [fileSeen root top x fi opened]))
      (addFile encode root (archiveName top x) x fi opened rep tw) bytes := by
  cases opened with
  | error f =>
    intro _
    refine h.pass rfl fun hr => hr.snoc rfl rfl rfl rfl ?_
    exact Report.skipped_skip hr.skipped_le _
  | ok script =>
    refine writeHeader_sends.bind ?_
    rintro ⟨_ | err, tw₁⟩ bytes₁ hheader
    swap
    · exact nofun
    obtain ⟨herr, -, blocks, hblocks, htw₁, rfl⟩ := hheader rfl
    obtain ⟨hb, hr⟩ := h.resolve_left (absurd herr)
    cases htw₁
    dsimp only
    have hle := copied_le script fi.size
    have hskips : (fileSeen root top x fi (.ok script)).skips = _ := fileSeen_skips script
    have hwhole : ∀ {rep' : Report}, rep'.files = rep.files + 1 → rep'.dirs = rep.dirs →
        rep'.excluded = rep.excluded → rep'.skippedCount = rep.skippedCount + (fileSeen root top x fi (.ok script)).skips.length →
        rep'.skipped = (rep.skipped ++ (fileSeen root top x fi (.ok script)).skips).take maxRecordedSkips →
        Account encode (seen ++ [fileSeen root top x fi (.ok script)]) rep'
          ⟨none, 0, padding fi.size⟩ (bytes ++ zeros tw.pad ++ blocks ++ fileData fi script) := by
      intro rep' hfiles hdirs hexcluded hcount hskipped
      refine .inr ⟨?_, hr.snoc hfiles hdirs hexcluded hcount hskipped⟩
      rw [List.flatMap_append, List.flatMap_singleton]
      refine hb.add hblocks ?_
      show (fileData fi script).length = fi.size
      rw [fileData, List.length_append, zeros_length]
      omega
    refine (copyLoop_sends script (Nat.le_refl fi.size)).bind ?_
    rintro ⟨n, cause, tw₂⟩ bytes₂ (hbroken | ⟨-, hout, rfl⟩)
    · cases cause with
      | some cause =>
        refine (fill_broken _ hbroken).bind ?_
        rintro ⟨_ | err, tw₃⟩ bytes₃ hstays
        · exact fun _ => .inl hstays
        · exact nofun
      | none =>
        dsimp only
        split
        · refine (fill_broken _ hbroken).bind ?_
          rintro ⟨_ | err, tw₃⟩ bytes₃ hstays
          · exact fun _ => .inl hstays
          · exact nofun
        · exact fun _ => .inl hbroken
    have hfill : ∀ {post : Option AddErr × Report × Writer → Bytes → Prop}
        {f : Option CopyErr × Writer → SinkM (Option AddErr × Report × Writer)},
        (∀ err tw bytes, Sends post (f (some err, tw)) bytes) →
        (∀ tw bytes, tw.err ≠ none → Sends post (f (none, tw)) bytes) →
        Sends post (f (none, ⟨none, 0, padding fi.size⟩)) (bytes ++ zeros tw.pad ++ blocks ++ fileData fi script) →
        Sends post ((Writer.fill ⟨none, fi.size - (copied script fi.size).1.length, padding fi.size⟩
          (fi.size - (copied script fi.size).1.length)) >>= f)
          (bytes ++ zeros tw.pad ++ blocks ++ (copied script fi.size).1) := by
      intro post f hfails hbroken hgood
      refine (fill_sends (Nat.le_refl _)).bind ?_
      rintro ⟨_ | err, tw₃⟩ bytes₃ (hstays | ⟨-, hout, rfl⟩)
      · exact hbroken _ _ hstays
      · cases hout
        rwa [Nat.sub_self, List.append_assoc _ (copied script fi.size).1]
      · exact hfails _ _ _
      · exact hfails _ _ _
    rw [Nat.zero_add] at hout
    cases hout
    cases herr : (copied script fi.size).2 with
    | some err =>
      rw [herr] at hskips
      refine hfill (fun _ _ _ => nofun) (fun _ _ hstays _ => .inl hstays) fun _ => hwhole rfl rfl rfl ?_ ?_
      · rw [hskips]
        rfl
      · rw [hskips]
        exact Report.skipped_skip hr.skipped_le _
    | none =>
      rw [herr] at hskips
      have hcount : rep.skippedCount = rep.skippedCount +
          (fileSeen root top x fi (.ok script)).skips.length := by rw [hskips]; rfl
      have hskipped : rep.skipped = (rep.skipped ++ (fileSeen root top x fi (.ok script)).skips).take
          maxRecordedSkips := by
        rw [hskips]
        show rep.skipped = (rep.skipped ++ []).take maxRecordedSkips
        rw [List.append_nil, List.take_of_length_le hr.skipped_le]
      dsimp only [Option.map_none]
      split
      · exact hfill (fun _ _ _ => nofun) (fun _ _ hstays _ => .inl hstays) fun _ =>
          hwhole rfl rfl rfl hcount hskipped
      · rename_i hfull
        have hall : (copied script fi.size).1.length = fi.size := by omega
        have hdata : fileData fi script = (copied script fi.size).1 := by
          rw [fileData, hall, Nat.sub_self]
          exact List.append_nil _
        have hleft : fi.size - (copied script fi.size).1.length = 0 := by omega
        have hdone : Account encode _ { rep with files := rep.files + 1 } _ _ :=
          hwhole rfl rfl rfl hcount hskipped
        rw [hdata, ← hleft] at hdone
        exact fun _ => hdone

theorem dir_sends (h : Account encode seen rep tw bytes) (name : List Char) :
    Sends (fun out bytes' => out.1 = none → out.2.err ≠ none ∨
      Between encode (seen.flatMap Seen.items ++ [⟨dirHeader name fi.info, [], none⟩]) out.2 bytes' ∧
        Reported seen rep) (addDir encode name fi tw) bytes := by
  refine writeHeader_sends.bind ?_
  rintro ⟨_ | err, tw₁⟩ bytes₁ hheader
  swap
  · exact nofun
  obtain ⟨herr, -, blocks, hblocks, htw₁, rfl⟩ := hheader rfl
  obtain ⟨hb, hr⟩ := h.resolve_left (absurd herr)
  cases htw₁
  have hempty : ([] : Bytes).length = (dirHeader name fi.info).size := rfl
  have hadd := hb.add hblocks hempty
  rw [List.append_nil] at hadd
  exact fun _ => .inr ⟨hadd, hr⟩

def entered (root top : List Char) (x : Below) (v : Visit) : Seen :=
  ⟨root, top, x, { v with listed := none }, false⟩

theorem visit_sends (h : Account encode seen rep tw bytes) :
    Sends (Adds encode (seen ++ [entered root top x v])) (visit encode root top x v rep tw) bytes := by
  obtain ⟨isDir, info, opened, listed⟩ := v
  unfold visit
  cases info with
  | error f =>
    refine fun _ => h.pass rfl fun hr => ?_
    have hskips : (entered root top x ⟨isDir, .error f, opened, listed⟩).skips = [⟨root, x, .os f⟩] := by
      cases isDir <;> rfl
    exact hr.snoc rfl rfl rfl (by rw [hskips]; rfl) (by rw [hskips]; exact Report.skipped_skip hr.skipped_le _)
  | ok fi =>
    dsimp only
    cases isDir with
    | true =>
      have hitems : (entered root top x ⟨true, .ok fi, opened, listed⟩).items =
          [⟨dirHeader (archiveName top x) fi.info, [], none⟩] := by
        cases opened <;> rfl
      have hskips : (entered root top x ⟨true, .ok fi, opened, listed⟩).skips = [] := rfl
      rw [if_pos rfl]
      refine (dir_sends h (archiveName top x)).bind ?_
      rintro ⟨_ | err, tw₁⟩ bytes₁ hdir
      swap
      · exact nofun
      intro _
      rcases hdir rfl with hbroken | ⟨hb, hr⟩
      · exact .inl hbroken
      refine .inr ⟨?_, hr.snoc ?_ ?_ rfl ?_ ?_⟩
      · rwa [List.flatMap_append, List.flatMap_singleton, hitems]
      · rw [hitems]
        rfl
      · rw [hitems]
        rfl
      · rw [hskips]
        rfl
      · rw [hskips, List.append_nil, List.take_of_length_le hr.skipped_le]
    | false =>
      rw [if_neg Bool.false_ne_true]
      by_cases hmode : fi.mode = .regular
      · rw [if_pos hmode]
        have hfile : entered root top x ⟨false, .ok fi, opened, listed⟩ = fileSeen root top x fi opened := by
          unfold entered fileSeen
          rw [← hmode]
        rw [hfile]
        exact addFile_sends h opened
      · rw [if_neg hmode]
        have hitems : (entered root top x ⟨false, .ok fi, opened, listed⟩).items = [] := by
          unfold Seen.items Seen.dir Seen.file entered
          cases opened <;> simp [hmode]
        have hskips : (entered root top x ⟨false, .ok fi, opened, listed⟩).skips = [] := by
          unfold Seen.skips Seen.lost Seen.unlisted entered
          simp [hmode]
        refine fun _ => h.pass hitems fun hr => hr.snoc ?_ ?_ rfl ?_ ?_
        · rw [hitems]
          rfl
        · rw [hitems]
          rfl
        · rw [hskips]
          rfl
        · rw [hskips, List.append_nil, List.take_of_length_le hr.skipped_le]

theorem leftOut_items {sn : Seen} (h : sn.leftOut = true) : sn.items = [] := by
  unfold Seen.items Seen.dir Seen.file
  rw [h]
  cases sn.v.info <;> cases sn.v.opened <;> simp

theorem leftOut_skips {sn : Seen} (h : sn.leftOut = true) : sn.skips = [] := by
  unfold Seen.skips Seen.lost Seen.unlisted
  rw [h]
  rfl

theorem entered_items (v : Visit) :
    (⟨root, top, x, v, false⟩ : Seen).items = (entered root top x v).items := rfl

theorem entered_skips (hdir : v.isDir = false) :
    (⟨root, top, x, v, false⟩ : Seen).skips = (entered root top x v).skips := by
  unfold Seen.skips Seen.lost Seen.unlisted entered
  rw [hdir]
  rfl

theorem entered_unlisted {f : Fault} (hdir : v.isDir = true) (hlisted : v.listed = some f) :
    (⟨root, top, x, v, false⟩ : Seen).skips = (entered root top x v).skips ++ [⟨root, x, .os f⟩] := by
  unfold Seen.skips Seen.lost Seen.unlisted entered
  rw [hdir, hlisted]
  simp

theorem walk_sends (t : Tree) (h : Account encode seen rep tw bytes) :
    Sends (Adds encode (seen ++ seenBelow pf exclude root top above t))
      (walk pf encode exclude root top above t rep tw) bytes := by
  induction t generalizing seen rep tw bytes above with
  | nil =>
    intro _
    rw [seenBelow, List.append_nil]
    exact h
  | entry name v sub rest ihsub ihrest =>
    unfold walk seenBelow
    dsimp only
    by_cases hout : excluded pf exclude (candidates top (above ++ [name])) = true
    · rw [if_pos hout, hout, if_neg (by simp), List.nil_append, List.append_cons]
      refine ihrest (h.pass (leftOut_items rfl) fun hr => hr.snoc ?_ ?_ rfl ?_ ?_)
      · rw [leftOut_items rfl]
        rfl
      · rw [leftOut_items rfl]
        rfl
      · rw [leftOut_skips rfl]
        rfl
      · rw [leftOut_skips rfl, List.append_nil, List.take_of_length_le hr.skipped_le]
    simp only [Bool.not_eq_true] at hout
    simp only [hout, Bool.false_eq_true, if_false, true_and]
    refine (visit_sends h).bind ?_
    rintro ⟨_ | err, rep₁, tw₁⟩ bytes₁ hvisit
    swap
    · exact nofun
    have hvisit : Account encode (seen ++ [entered root top (above ++ [name]) v]) rep₁ tw₁ bytes₁ := hvisit rfl
    dsimp only
    cases hdir : v.isDir with
    | false =>
      simp only [Bool.false_eq_true, if_false, false_and, List.nil_append]
      rw [List.append_cons]
      exact ihrest (hvisit.congr (entered_items v) (entered_skips hdir) rfl)
    | true =>
      simp only [if_true, true_and]
      cases hlisted : v.listed with
      | some f =>
        simp only [reduceCtorEq, if_false, List.nil_append]
        rw [List.append_cons]
        exact ihrest (hvisit.unlisted (entered_items v) (entered_unlisted hdir hlisted) rfl)
      | none =>
        have hsame : entered root top (above ++ [name]) v = ⟨root, top, above ++ [name], v, false⟩ := by
          unfold entered
          rw [← hlisted]
        rw [hsame] at hvisit
        rw [if_pos rfl, List.append_cons, ← List.append_assoc]
        refine (ihsub hvisit).bind ?_
        rintro ⟨_ | err, rep₂, tw₂⟩ bytes₂ hsub
        · exact ihrest (hsub rfl)
        · exact nofun

theorem walkDir_sends (h : Account encode seen rep tw bytes) (p : IncludePath) :
    Sends (fun out bytes' => out.1 = none → ∃ fi, p.lstat = .ok fi ∧
      Account encode (seen ++ ⟨root, top, [], ⟨fi.mode = .dir, .ok fi, p.opened, none⟩, false⟩ ::
        if fi.mode = .dir then seenBelow pf exclude root top [] p.sub else []) out.2.1 out.2.2 bytes')
      (walkDir pf encode exclude root top p rep tw) bytes := by
  unfold walkDir
  cases hlstat : p.lstat with
  | error f => exact nofun
  | ok fi =>
    refine (visit_sends h).bind ?_
    rintro ⟨_ | err, rep₁, tw₁⟩ bytes₁ hvisit
    swap
    · exact nofun
    have hvisit := hvisit rfl
    dsimp only
    by_cases hdir : fi.mode = .dir
    · rw [if_pos hdir]
      cases hlisted : p.listed with
      | some f => exact nofun
      | none =>
        refine (walk_sends p.sub hvisit).mono fun out bytes' hwalk hnone => ⟨fi, rfl, ?_⟩
        rw [if_pos hdir, List.append_cons]
        exact hwalk hnone
    · rw [if_neg hdir]
      refine fun _ => ⟨fi, rfl, ?_⟩
      rw [if_neg hdir]
      exact hvisit

theorem writeTar_sends (clean : List Char → List Char) (paths : List IncludePath)
    (h : Account encode seen rep tw bytes) :
    Sends (fun out bytes' => out.2 = none →
      let all := seen ++ paths.flatMap (seenAt pf exclude clean)
      bytes' = (all.flatMap Seen.items).flatMap (entryBytes encode) ++ zeros blockSize ++ zeros blockSize ∧
        Fits encode (all.flatMap Seen.items) ∧ Reported all out.1)
      (writeTar pf encode clean exclude paths rep tw) bytes := by
  induction paths generalizing seen rep tw bytes with
  | nil =>
    unfold writeTar
    refine close_sends.bind ?_
    rintro (_ | err) bytes₁ hclose
    swap
    · exact nofun
    intro _
    obtain ⟨herr, -, rfl⟩ := hclose rfl
    obtain ⟨hb, hr⟩ := h.resolve_left (absurd herr)
    dsimp only
    rw [List.flatMap_nil, List.append_nil, ← hb.stream]
    exact ⟨rfl, hb.fits, hr⟩
  | cons p paths ih =>
    unfold writeTar
    dsimp only
    by_cases hempty : trimSpace p.path = []
    · rw [if_pos hempty]
      exact nofun
    rw [if_neg hempty]
    cases hstat : p.stat with
    | error f => exact nofun
    | ok fi =>
      dsimp only
      rw [List.flatMap_cons, ← List.append_assoc]
      by_cases hdir : fi.mode = .dir
      · rw [if_pos hdir]
        refine (walkDir_sends h p).bind ?_
        rintro ⟨_ | err, rep₁, tw₁⟩ bytes₁ hwalk
        swap
        · exact nofun
        obtain ⟨fi', hlstat, hwalk⟩ := hwalk rfl
        have hseen : seenAt pf exclude clean p =
            ⟨clean p.path, archivePrefix pf (clean p.path), [], ⟨fi'.mode = .dir, .ok fi', p.opened, none⟩, false⟩ ::
              if fi'.mode = .dir then
                seenBelow pf exclude (clean p.path) (archivePrefix pf (clean p.path)) [] p.sub else [] := by
          unfold seenAt
          rw [hstat, hlstat]
          exact if_pos hdir
        rw [hseen]
        exact ih hwalk
      · rw [if_neg hdir]
        have hname : archiveName (archivePrefix pf (clean p.path)) [] = archivePrefix pf (clean p.path) :=
          joined_singleton _
        have hadd : Sends (Adds encode (seen ++ [fileSeen (clean p.path) (archivePrefix pf (clean p.path)) [] fi
            p.opened])) (addFile encode (clean p.path) (archiveName (archivePrefix pf (clean p.path)) []) [] fi
              p.opened rep tw) bytes := addFile_sends h p.opened
        rw [hname] at hadd
        refine hadd.bind ?_
        rintro ⟨_ | err, rep₁, tw₁⟩ bytes₁ hfile
        swap
        · exact nofun
        have hseen : seenAt pf exclude clean p =
            [fileSeen (clean p.path) (archivePrefix pf (clean p.path)) [] fi p.opened] := by
          unfold seenAt
          rw [hstat]
          exact if_neg hdir
        rw [hseen]
        exact ih (hfile rfl)

end

theorem fileData_eq (fi : FileInfo) (script : List ReadReply) : fileData fi script =
    (readable script).take fi.size ++ zeros (fi.size - (readable script).length) := by
  unfold fileData
  rw [copied_fst, List.length_take]
  congr 2
  omega

theorem Seen.file_item {sn : Seen} {it : Item} (hit : it ∈ sn.items) (hreg : it.header.typeflag = .reg) :
    ∃ script, sn.v.opened = .ok script ∧ it.header.name = .ofList sn.name ∧
      it.data = (readable script).take it.header.size ++ zeros (it.header.size - (readable script).length) := by
  unfold Seen.items at hit
  split at hit
  · rw [List.mem_singleton.mp hit] at hreg
    cases hreg
  · rename_i fi script _ hfile
    rw [List.mem_singleton.mp hit]
    refine ⟨script, ?_, rfl, fileData_eq fi script⟩
    unfold Seen.file at hfile
    split at hfile
    · rename_i hopened
      split at hfile
      · cases hfile
        exact hopened
      · cases hfile
    · cases hfile
  · cases hit

theorem Seen.accounted {sn : Seen} {fi : FileInfo} (hdir : sn.v.isDir = false) (hinfo : sn.v.info = .ok fi)
    (hmode : fi.mode = .regular) :
    sn.leftOut = true ∨ sn.skips ≠ [] ∨ ∃ it ∈ sn.items, it.header.typeflag = .reg := by
  cases hout : sn.leftOut with
  | true => exact .inl rfl
  | false =>
    right
    cases hopened : sn.v.opened with
    | error f =>
      left
      unfold Seen.skips Seen.lost
      rw [hout, hinfo]
      simp [hdir, hmode, hopened]
    | ok script =>
      right
      refine ⟨⟨header sn.name fi.info .reg fi.size, fileData fi script, none⟩, ?_, rfl⟩
      unfold Seen.items Seen.dir Seen.file
      rw [hinfo, hopened]
      simp [hout, hdir, hmode]

/-- Whatever the files do during the walk, an archive that is finished without an error is well formed
and the report counts what was seen. -/
theorem live_archive (pf : Platform) (encode : Header → Except Fault Bytes) (clean : List Char → List Char)
    (exclude : List (List Char)) (paths : List IncludePath) (log : List (Σ c, SinkReply c)) (rep : Report)
    (hlog : Logs (writeTar pf encode clean exclude paths .zero .new) log (.ret (rep, none))) :
    let seen := paths.flatMap (seenAt pf exclude clean)
    let items := seen.flatMap Seen.items
    log.foldl sent [] = items.flatMap (entryBytes encode) ++ zeros blockSize ++ zeros blockSize ∧
      Fits encode items ∧
      (∀ it ∈ items, it.header.typeflag = .reg → ∃ sn ∈ seen, ∃ script, sn.v.opened = .ok script ∧
        it.header.name = .ofList sn.name ∧
        it.data = (readable script).take it.header.size ++ zeros (it.header.size - (readable script).length)) ∧
      (∀ sn ∈ seen, ∀ fi, sn.v.isDir = false → sn.v.info = .ok fi → fi.mode = .regular →
        sn.leftOut = true ∨ sn.skips ≠ [] ∨ ∃ it ∈ sn.items, it.header.typeflag = .reg) ∧
      Reported seen rep := by
  have hstart : Account encode [] .zero .new [] :=
    .inr ⟨⟨rfl, rfl, rfl, fun _ h => nomatch h⟩, ⟨rfl, rfl, rfl, rfl, rfl⟩⟩
  obtain ⟨hstream, hfits, hreported⟩ := ((writeTar_sends clean paths hstart).kept hlog).2 rfl
  refine ⟨hstream, hfits, ?_, fun sn _ fi => Seen.accounted, hreported⟩
  intro it hit hreg
  obtain ⟨sn, hsn, hit⟩ := List.mem_flatMap.mp hit
  obtain ⟨script, hfile⟩ := Seen.file_item hit hreg
  exact ⟨sn, hsn, script, hfile⟩

def quietFile (info : Info) (data : Bytes) : Visit :=
  ⟨false, .ok ⟨.regular, data.length, info⟩, .ok [⟨data, some .eof⟩], none⟩

def quiet : Forest → Tree
  | .nil => .nil
  | .file name info data rest => .entry name (quietFile info data) .nil (quiet rest)
  | .dir name info sub rest =>
    .entry name ⟨true, .ok ⟨.dir, 0, info⟩, .error (.other 21), none⟩ (quiet sub) (quiet rest)
  | .passed name rest =>
    .entry name ⟨false, .ok ⟨.other, 0, ⟨0, 0⟩⟩, .error (.other 21), none⟩ .nil (quiet rest)

@[grind =] theorem fileData_quiet (info : Info) (data : Bytes) :
    fileData ⟨.regular, data.length, info⟩ [⟨data, some .eof⟩] = data := by
  have hreadable : readable [⟨data, some .eof⟩] = data := List.append_nil data
  rw [fileData_eq, hreadable, List.take_length, Nat.sub_self]
  exact List.append_nil data

theorem quiet_items (pf : Platform) (exclude : List (List Char)) (root top : List Char) (above : Below) (f : Forest) :
    (seenBelow pf exclude root top above (quiet f)).flatMap Seen.items =
      (Agent.walk (fun x => excluded pf exclude (candidates top x)) above f).map (addEntry top) := by
  induction f generalizing above with
  | nil => rfl
  | passed name rest ih =>
    rw [quiet, seenBelow, Agent.walk, List.flatMap_cons, ← ih]
    cases excluded pf exclude (candidates top (above ++ [name])) <;> rfl
  | file name info data rest ih =>
    rw [quiet, seenBelow, Agent.walk, List.flatMap_cons]
    cases excluded pf exclude (candidates top (above ++ [name])) with
    | true =>
      rw [if_pos rfl, ← ih]
      rfl
    | false =>
      rw [if_neg Bool.false_ne_true, List.map_cons, ← ih]
      show [(⟨_, fileData ⟨.regular, data.length, info⟩ [⟨data, some .eof⟩], none⟩ : Item)] ++ _ = _
      rw [fileData_quiet]
      rfl
  | dir name info sub rest ihsub ih =>
    rw [quiet, seenBelow, Agent.walk, List.flatMap_cons]
    cases excluded pf exclude (candidates top (above ++ [name])) with
    | true =>
      rw [if_pos rfl, ← ih]
      rfl
    | false =>
      rw [if_neg Bool.false_ne_true, List.map_cons, List.map_append, ← ih, ← ihsub, if_pos ⟨rfl, rfl, rfl⟩,
        List.flatMap_append]
      rfl

def logName : FileName := ⟨"log".toList, by decide, by decide, by decide, by decide⟩

def lockName : FileName := ⟨"lock".toList, by decide, by decide, by decide, by decide⟩

def plainInfo : Info := ⟨0o644, 62135596800 * 10 ^ 9⟩

def srvPath : IncludePath where
  path := "/srv".toList
  stat := .ok ⟨.dir, 0, plainInfo⟩
  lstat := .ok ⟨.dir, 0, plainInfo⟩
  opened := .error (.other 21)
  listed := none
  sub :=
    .entry lockName ⟨false, .ok ⟨.regular, 5, plainInfo⟩, .error (.other 13), none⟩ .nil
      (.entry logName ⟨false, .ok ⟨.regular, 3, plainInfo⟩, .ok [⟨[7], some .eof⟩], none⟩ .nil .nil)

def srvReport : Report :=
  ⟨1, 1, 0, [⟨"/srv".toList, [lockName], .os (.other 13)⟩], 1, 1⟩

def cleanText (path : List Char) : List Char := (unixClean (.ofList path)).toList

theorem srv_run : (Prog.run (fun (.write _) (_ : Unit) => (none, ()))
    (writeTar .posix ustarHeader cleanText [] [srvPath] .zero .new) ()).1 = (srvReport, none) := by
  decide +kernel

theorem live_archive_srv : ∃ log : List (Σ c, SinkReply c),
    Logs (writeTar .posix ustarHeader cleanText [] [srvPath] .zero .new) log (.ret (srvReport, none)) ∧
      log.foldl sent [] = (([srvPath].flatMap (seenAt .posix [] cleanText)).flatMap Seen.items).flatMap
        (entryBytes ustarHeader) ++ zeros blockSize ++ zeros blockSize := by
  obtain ⟨log, hlog⟩ := exists_logs_run (fun (.write _) (_ : Unit) => (none, ()))
    (writeTar .posix ustarHeader cleanText [] [srvPath] .zero .new) ()
  rw [srv_run] at hlog
  exact ⟨log, hlog, (live_archive .posix ustarHeader cleanText [] [srvPath] log srvReport hlog).1⟩

end ProxBack.Agent.Live
