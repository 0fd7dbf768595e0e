import ProxBack.Store.Timestamps

/-! Whether the order of the texts is the order of the instants after the database was opened. -/
namespace ProxBack.Store
open Lib Calendar Decimal
open Engine (SourceKind)

section
variable {v : List Char} {t : Int}

theorem IsStamp.ne_nil (h : IsStamp v t) : v ≠ [] := by
  obtain ⟨f, rest, rfl, -⟩ := h.fraction
  simp

@[simp] theorem canonicalText_eq_nil {raw : List Char} : canonicalText raw = [] ↔ raw = [] := by
  unfold canonicalText
  split
  · exact Iff.rfl
  · rename_i hraw
    refine iff_of_false (fun hnil => ?_) fun hnil => hraw (.inl hnil)
    exact absurd (List.append_eq_nil_iff.mp hnil).2 (List.cons_ne_nil _ _)

theorem IsStamp.canonical (h : IsStamp v t) : canonicalText v = if t = zeroTime then v else fmtTime t := by
  rw [canonicalText, h.parseTime_eq]
  simp [h.ne_nil]

theorem IsStamp.isStamp_canonical (h : IsStamp v t) : IsStamp (canonicalText v) t := by
  rw [h.canonical]
  split
  · exact h
  · exact ⟨h.years, .inl rfl⟩

def zeroText : List Char := fmtNano zeroTime

theorem zeroText_spec : InYears (zeroTime / 10 ^ 9) ∧
    zeroText = secondText (zeroTime / 10 ^ 9) ++ ([] ++ ['Z']) := by decide +kernel

theorem isStamp_zeroText : IsStamp zeroText zeroTime := ⟨zeroText_spec.1, .inr rfl⟩

@[simp]
theorem zeroText_eq : zeroText = secondText (zeroTime / 10 ^ 9) ++ ([] ++ ['Z']) := zeroText_spec.2

theorem continues_zeroText (h : IsStamp v t) :
    Continues zeroText v ↔ t / 10 ^ 9 = zeroTime / 10 ^ 9 ∧ zeroText ≠ v := by
  obtain ⟨f, rest, rfl, -⟩ := h.fraction
  rw [Continues, and_congr_left_iff]
  intro _
  rw [zeroText_eq, body_eq, body_eq, List.append_nil]
  constructor
  · rintro ⟨tail, htail⟩
    obtain ⟨hsecond, -⟩ := List.append_inj htail (by rw [length_secondText isStamp_zeroText.years, length_secondText h.years])
    exact (secondText_injective isStamp_zeroText.years h.years hsecond).symm
  · intro hsecond
    rw [hsecond]
    exact List.prefix_append _ _

theorem canonicalText_eq_zeroText (h : IsStamp v t) : zeroText = canonicalText v ↔ zeroText = v := by
  by_cases ht : t = zeroTime
  · rw [h.canonical, if_pos ht]
  · refine iff_of_false (fun heq => ht ?_) fun heq => ht ?_
    · exact Option.some.inj (h.isStamp_canonical.parse.symm.trans (heq ▸ isStamp_zeroText.parse))
    · exact Option.some.inj (h.parse.symm.trans (heq ▸ isStamp_zeroText.parse))

/-- A rewritten timestamp goes on with another one only where the other is the zero time in the
old layout, which is left alone. -/
theorem continues_canonical {v' : List Char} {t' : Int} (h : IsStamp v t) (h' : IsStamp v' t') :
    Continues (canonicalText v) (canonicalText v') ↔ v = zeroText ∧ Continues zeroText v' := by
  have hright : Continues zeroText (canonicalText v') ↔ Continues zeroText v' := by
    rw [continues_zeroText h'.isStamp_canonical, continues_zeroText h', Ne, Ne, canonicalText_eq_zeroText h']
  by_cases hv : v = zeroText
  · have hsame : canonicalText v = zeroText := by
      rw [hv, isStamp_zeroText.canonical, if_pos rfl]
    rw [hsame, hright]
    exact ⟨fun hc => ⟨hv, hc⟩, And.right⟩
  · refine iff_of_false (fun hc => ?_) fun hc => hv hc.1
    -- it has all its digits, so that nothing can go on
    have hfull : canonicalText v = fmtTime t := by
      rw [h.canonical]
      split
      · rename_i ht
        refine h.written.resolve_right fun hnano => hv ?_
        rw [hnano, ht]
        rfl
      · rfl
    obtain ⟨hbegins, hne⟩ := hc
    obtain ⟨f, rest, htext, hf⟩ := h'.isStamp_canonical.fraction
    have hlen := congrArg List.length hf.full
    simp only [List.length_cons, length_fixed, List.length_append] at hlen
    have hlen' := congrArg List.length htext
    simp only [List.length_append, length_secondText h'.years, List.length_singleton] at hlen'
    have hsize : (canonicalText v').dropLast.length ≤ (canonicalText v).dropLast.length := by
      rw [List.length_dropLast, List.length_dropLast, hfull, length_fmtTime h.years]
      omega
    have hbody := hbegins.eq_of_length_le hsize
    refine hne ?_
    rw [htext, body_eq] at hbody
    have hZ : fmtTime t = (fmtTime t).dropLast ++ ['Z'] := by
      have hlast : fmtTime t = (secondText (t / 10 ^ 9) ++ '.' :: fixed 9 (t % 10 ^ 9).toNat) ++ ['Z'] := by
        simp [fmtTime]
      rw [hlast, List.dropLast_concat]
    rw [htext, hfull, hZ, ← hfull, hbody, List.append_assoc]

end

section
variable {db : TimeTables}

@[grind =] theorem column_normalizeTimestamps (db : TimeTables) (c : TimeColumn) :
    (normalizeTimestamps db).column c =
      if c ∈ sortedTimeColumns then (db.column c).map (Option.map canonicalText) else db.column c := by
  cases c <;> simp [normalizeTimestamps, sortedTimeColumns, TimeTables.rewrite, TimeTables.column]

@[grind =] theorem filterMap_canonical (cells : List (Option (List Char))) :
    (cells.map (Option.map canonicalText)).filterMap (fun cell => cell.filter (· ≠ [])) =
      (cells.filterMap fun cell => cell.filter (· ≠ [])).map canonicalText := by
  induction cells with
  | nil => rfl
  | cons cell cells ih =>
    cases cell with
    | none => exact ih
    | some raw =>
      rw [List.map_cons, List.filterMap_cons, List.filterMap_cons, ih]
      by_cases hraw : raw = []
      · simp [Option.filter, hraw, canonicalText]
      · have hraw' : canonicalText raw ≠ [] := fun h => hraw (canonicalText_eq_nil.mp h)
        simp [Option.filter, hraw, hraw']

@[grind =] theorem texts_normalizeTimestamps (db : TimeTables) (c : TimeColumn) :
    (normalizeTimestamps db).texts c =
      if c ∈ sortedTimeColumns then (db.texts c).map canonicalText else db.texts c := by
  rw [TimeTables.texts, column_normalizeTimestamps]
  split
  · exact filterMap_canonical _
  · rfl

def Written (db : TimeTables) : Prop := ∀ c, ∀ v ∈ db.texts c, ∃ t, IsStamp v t

/-- No finish time of a workload goes on with another one, and no column holds the zero time in
the old layout beside another timestamp of its second. -/
structure Unambiguous (db : TimeTables) : Prop where
  finished : ∀ v ∈ db.texts .runSourcesFinishedAt, ∀ v' ∈ db.texts .runSourcesFinishedAt, ¬ Continues v v'
  zero : ∀ c ∈ comparedColumns, c ∈ sortedTimeColumns → zeroText ∈ db.texts c →
    ∀ v ∈ db.texts c, ¬ Continues zeroText v

theorem textOrdered_sorted (hdb : Written db) {c : TimeColumn} (hc : c ∈ sortedTimeColumns) :
    TextOrdered ((normalizeTimestamps db).texts c) ↔
      (zeroText ∈ db.texts c → ∀ v ∈ db.texts c, ¬ Continues zeroText v) := by
  rw [texts_normalizeTimestamps, if_pos hc, textOrdered_iff]
  · constructor
    · intro hnone hzero v hv hcont
      obtain ⟨t, ht⟩ := hdb c v hv
      exact hnone _ (List.mem_map_of_mem hzero) _ (List.mem_map_of_mem hv)
        ((continues_canonical isStamp_zeroText ht).mpr ⟨rfl, hcont⟩)
    · intro hzero v hv v' hv' hcont
      obtain ⟨raw, hraw, rfl⟩ := List.mem_map.mp hv
      obtain ⟨raw', hraw', rfl⟩ := List.mem_map.mp hv'
      obtain ⟨t, ht⟩ := hdb c raw hraw
      obtain ⟨t', ht'⟩ := hdb c raw' hraw'
      obtain ⟨rfl, hcont'⟩ := (continues_canonical ht ht').mp hcont
      exact hzero hraw raw' hraw' hcont'
  · intro v hv
    obtain ⟨raw, hraw, rfl⟩ := List.mem_map.mp hv
    obtain ⟨t, ht⟩ := hdb c raw hraw
    exact ⟨t, ht.isStamp_canonical⟩

theorem textOrdered_finished (hdb : Written db) :
    TextOrdered ((normalizeTimestamps db).texts .runSourcesFinishedAt) ↔
      ∀ v ∈ db.texts .runSourcesFinishedAt, ∀ v' ∈ db.texts .runSourcesFinishedAt, ¬ Continues v v' := by
  rw [texts_normalizeTimestamps, if_neg (by decide), textOrdered_iff (hdb _)]

theorem columns_ordered_iff (hdb : Written db) :
    (∀ c ∈ comparedColumns, TextOrdered ((normalizeTimestamps db).texts c)) ↔ Unambiguous db := by
  constructor
  · intro h
    exact ⟨(textOrdered_finished hdb).mp (h _ (by decide)), fun c hc hsorted =>
      (textOrdered_sorted hdb hsorted).mp (h c hc)⟩
  · rintro ⟨hfinished, hzero⟩ c hc
    by_cases hsorted : c ∈ sortedTimeColumns
    · exact (textOrdered_sorted hdb hsorted).mpr (hzero c hc hsorted)
    · have hlast : c = .runSourcesFinishedAt := by
        revert hc hsorted
        cases c <;> decide
      rw [hlast]
      exact (textOrdered_finished hdb).mpr hfinished

end

section
variable {db : TimeTables}

instance : Std.Total NotOlder := ⟨fun a b => by
  unfold NotOlder
  rcases lt_trichotomy a.createdAt b.createdAt with hlt | heq | hgt
  · exact .inr (.inl hlt)
  · rcases le_total a.id b.id with hle | hle
    · exact .inr (.inr ⟨heq, hle⟩)
    · exact .inl (.inr ⟨heq.symm, hle⟩)
  · exact .inl (.inl hgt)⟩

instance : IsTrans BackupTimes NotOlder := ⟨fun a b c hab hbc => by
  unfold NotOlder at *
  rcases hab with hab | ⟨hab, hid⟩
  · rcases hbc with hbc | ⟨hbc, -⟩
    · exact .inl (hbc.trans hab)
    · exact .inl (hbc ▸ hab)
  · rcases hbc with hbc | ⟨hbc, hid'⟩
    · exact .inl (hab ▸ hbc)
    · exact .inr ⟨hbc.trans hab, hid'.trans hid⟩⟩

instance : Std.Total NotLater := ⟨fun a b => le_total a.finished b.finished⟩

instance : IsTrans SourceTimes NotLater := ⟨fun _ _ _ hab hbc => le_trans hab hbc⟩

theorem le_latest {kind : SourceKind} {sourceID targetID : String} {b : BackupTimes}
    (h : db.latestBackupForSource kind sourceID targetID = some b) :
    b ∈ db.restorePoints kind sourceID targetID ∧
      ∀ b' ∈ db.restorePoints kind sourceID targetID, b'.createdAt ≤ b.createdAt := by
  have hsorted := List.pairwise_insertionSort NotOlder (db.restorePoints kind sourceID targetID)
  unfold TimeTables.latestBackupForSource at h
  obtain ⟨rest, hrest⟩ := List.head?_eq_some_iff.mp h
  have hmem : ∀ b', b' ∈ db.restorePoints kind sourceID targetID ↔ b' ∈ b :: rest := fun b' => by
    rw [← hrest, List.mem_insertionSort]
  rw [hrest, List.pairwise_cons] at hsorted
  refine ⟨(hmem b).mpr List.mem_cons_self, fun b' hb' => ?_⟩
  rcases List.mem_cons.mp ((hmem b').mp hb') with rfl | hb'
  · exact le_rfl
  · rcases hsorted.1 b' hb' with hlt | ⟨heq, -⟩
    · exact hlt.le
    · exact heq.le

theorem le_outcome {rows : List SourceTimes} (hsorted : rows.Pairwise NotLater) {id : String}
    {o : SourceOutcome}
    (h : (rows.foldl (fun out row => out.insert row.sourceID row.outcome)
      (∅ : FinMap String SourceOutcome)).lookup id = some o) :
    ∃ row ∈ rows, row.sourceID = id ∧ o = row.outcome ∧
      ∀ row' ∈ rows, row'.sourceID = id → row'.finished ≤ row.finished := by
  induction rows using List.reverseRecOn with
  | nil => cases h
  | append_singleton rows last ih =>
    rw [List.foldl_append, List.foldl_cons, List.foldl_nil, FinMap.lookup_insert_ite] at h
    obtain ⟨hrows, -, hlast⟩ := List.pairwise_append.mp hsorted
    by_cases hid : id = last.sourceID
    · rw [if_pos hid] at h
      cases h
      refine ⟨last, by simp, hid.symm, rfl, fun row' hrow' _ => ?_⟩
      rcases List.mem_append.mp hrow' with hrow' | hrow'
      · exact hlast row' hrow' last List.mem_cons_self
      · rw [List.mem_singleton.mp hrow']
    · rw [if_neg hid] at h
      obtain ⟨row, hrow, hsource, ho, hle⟩ := ih hrows h
      refine ⟨row, List.mem_append_left _ hrow, hsource, ho, fun row' hrow' hid' => ?_⟩
      rcases List.mem_append.mp hrow' with hrow' | hrow'
      · exact hle row' hrow' hid'
      · rw [List.mem_singleton.mp hrow'] at hid'
        exact absurd hid'.symm hid

theorem exists_outcome {rows : List SourceTimes} {row : SourceTimes} (h : row ∈ rows) :
    ∃ o, (rows.foldl (fun out row => out.insert row.sourceID row.outcome)
      (∅ : FinMap String SourceOutcome)).lookup row.sourceID = some o := by
  induction rows using List.reverseRecOn with
  | nil => cases h
  | append_singleton rows last ih =>
    rw [List.foldl_append, List.foldl_cons, List.foldl_nil, FinMap.lookup_insert_ite]
    split
    · exact ⟨_, rfl⟩
    · rename_i hne
      rcases List.mem_append.mp h with h | h
      · exact ih h
      · exact absurd (congrArg SourceTimes.sourceID (List.mem_singleton.mp h)) hne

/-- The order of the texts is that of the instants in every column that is compared; so the query
for the outcomes tells the last one of each workload, and that for a restore point the newest. -/
structure TextIsTime (db : TimeTables) : Prop where
  columns : ∀ c ∈ comparedColumns, TextOrdered (db.texts c)
  outcomes : ∀ row ∈ db.attempts, ∃ last ∈ db.attempts, last.sourceID = row.sourceID ∧
    db.latestSourceOutcomes.lookup row.sourceID = some last.outcome ∧
    (row.finished ≠ [] → parseTime row.finished ≤ last.outcome.finishedAt)
  latest : ∀ b ∈ db.backups, ∃ last ∈ db.restorePoints b.sourceKind b.sourceID b.targetID,
    db.latestBackupForSource b.sourceKind b.sourceID b.targetID = some last ∧
    (b.createdAt ≠ [] → parseTime b.createdAt ≤ parseTime last.createdAt)

theorem TextOrdered.le {vs : List (List Char)} (h : TextOrdered vs) {v v' : List Char} (hv : v ∈ vs)
    (hv' : v' ∈ vs) (hle : v ≤ v') : parseTime v ≤ parseTime v' :=
  not_lt.mp fun hlt => hle.not_gt ((h v' hv' v hv).mpr hlt)

theorem ne_nil_of_le {v v' : List Char} (hv : v ≠ []) (hle : v ≤ v') : v' ≠ [] := by
  rintro rfl
  obtain ⟨c, v, rfl⟩ := List.exists_cons_of_ne_nil hv
  exact hle.not_gt (List.nil_lt_cons c v)

theorem createdAt_mem {b : BackupTimes} (hb : b ∈ db.backups) (hne : b.createdAt ≠ []) :
    b.createdAt ∈ db.texts .backupsCreatedAt := by
  refine List.mem_filterMap.mpr ⟨some b.createdAt, List.mem_map.mpr ⟨b, hb, rfl⟩, ?_⟩
  simp [Option.filter, hne]

theorem finished_mem {row : SourceTimes} (hrow : row ∈ db.attempts) (hne : row.finished ≠ []) :
    row.finished ∈ db.texts .runSourcesFinishedAt := by
  refine List.mem_filterMap.mpr ⟨row.finishedAt, List.mem_map.mpr ⟨row, (List.mem_filter.mp hrow).1, rfl⟩, ?_⟩
  unfold SourceTimes.finished at *
  cases hcell : row.finishedAt with
  | none =>
    rw [hcell] at hne
    exact absurd rfl hne
  | some v =>
    rw [hcell] at hne
    simpa [Option.filter] using hne

theorem outcomes_of_ordered (h : TextOrdered (db.texts .runSourcesFinishedAt)) {row : SourceTimes}
    (hrow : row ∈ db.attempts) :
    ∃ last ∈ db.attempts, last.sourceID = row.sourceID ∧
      db.latestSourceOutcomes.lookup row.sourceID = some last.outcome ∧
      (row.finished ≠ [] → parseTime row.finished ≤ last.outcome.finishedAt) := by
  have hmem : ∀ row, row ∈ db.attempts.insertionSort NotLater ↔ row ∈ db.attempts := fun _ =>
    List.mem_insertionSort _
  obtain ⟨o, ho⟩ := exists_outcome ((hmem row).mpr hrow)
  obtain ⟨last, hlast, hid, rfl, hle⟩ := le_outcome (List.pairwise_insertionSort _ _) ho
  refine ⟨last, (hmem last).mp hlast, hid, ho, fun hne => ?_⟩
  have hle' := hle row ((hmem row).mpr hrow) rfl
  exact h.le (finished_mem hrow hne) (finished_mem ((hmem last).mp hlast) (ne_nil_of_le hne hle')) hle'

theorem latest_of_ordered (h : TextOrdered (db.texts .backupsCreatedAt)) {b : BackupTimes}
    (hb : b ∈ db.backups) :
    ∃ last ∈ db.restorePoints b.sourceKind b.sourceID b.targetID,
      db.latestBackupForSource b.sourceKind b.sourceID b.targetID = some last ∧
      (b.createdAt ≠ [] → parseTime b.createdAt ≤ parseTime last.createdAt) := by
  have hmem : b ∈ db.restorePoints b.sourceKind b.sourceID b.targetID :=
    List.mem_filter.mpr ⟨hb, decide_eq_true ⟨rfl, rfl, rfl⟩⟩
  obtain ⟨last, hlast⟩ : ∃ last, db.latestBackupForSource b.sourceKind b.sourceID b.targetID = some last := by
    refine Option.isSome_iff_exists.mp (List.isSome_head?.mpr ?_)
    exact List.ne_nil_of_mem ((List.mem_insertionSort _).mpr hmem)
  obtain ⟨hlast', hle⟩ := le_latest hlast
  have hle' := hle b hmem
  exact ⟨last, hlast', hlast, fun hne => h.le (createdAt_mem hb hne)
    (createdAt_mem (List.mem_filter.mp hlast').1 (ne_nil_of_le hne hle')) hle'⟩

/-- After the database was opened, the order of the texts is that of the instants exactly where no
two of them were ambiguous. -/
theorem textIsTime_iff (hdb : Written db) : TextIsTime (normalizeTimestamps db) ↔ Unambiguous db := by
  rw [← columns_ordered_iff hdb]
  constructor
  · exact TextIsTime.columns
  · intro h
    exact ⟨h, fun row hrow => outcomes_of_ordered (h _ (by decide)) hrow,
      fun b hb => latest_of_ordered (h _ (by decide)) hb⟩

end

/-- Two attempts at one workload, of which the second failed, as an earlier release wrote them. -/
def twoAttempts (first second : Int) : TimeTables where
  backups := []
  runSources := [⟨"h1_100", .success, some (fmtNano first)⟩, ⟨"h1_100", .failed, some (fmtNano second)⟩]
  runsStarted := []
  runsFinished := []
  helpersRegistered := []
  tokensExpire := []
  sessionsExpire := []

theorem written_twoAttempts {first second : Int} (h : InYears (first / 10 ^ 9))
    (h' : InYears (second / 10 ^ 9)) : Written (twoAttempts first second) := by
  have hstamp : IsStamp (fmtNano first) first := ⟨h, .inr rfl⟩
  have hstamp' : IsStamp (fmtNano second) second := ⟨h', .inr rfl⟩
  have htexts : (twoAttempts first second).texts .runSourcesFinishedAt = [fmtNano first, fmtNano second] := by
    simp [TimeTables.texts, TimeTables.column, twoAttempts, Option.filter, hstamp.ne_nil, hstamp'.ne_nil]
  intro c v hv
  cases c with
  | runSourcesFinishedAt =>
    rw [htexts] at hv
    rcases List.mem_cons.mp hv with rfl | hv
    · exact ⟨first, hstamp⟩
    · rw [List.mem_singleton.mp hv]
      exact ⟨second, hstamp'⟩
  | _ => cases hv

/-- In different seconds they are told apart. -/
theorem attempts_seconds_apart :
    Written (twoAttempts (15 * 10 ^ 8) (2 * 10 ^ 9)) ∧
      TextIsTime (normalizeTimestamps (twoAttempts (15 * 10 ^ 8) (2 * 10 ^ 9))) := by
  have hdb : Written (twoAttempts (15 * 10 ^ 8) (2 * 10 ^ 9)) :=
    written_twoAttempts (by decide +kernel) (by decide +kernel)
  refine ⟨hdb, (textIsTime_iff hdb).mpr ⟨by decide +kernel, ?_⟩⟩
  decide +kernel

/-- Half a second apart, the one on the whole second is taken for the last. -/
theorem attempts_half_second_apart :
    Written (twoAttempts (10 ^ 9) (15 * 10 ^ 8)) ∧
      (normalizeTimestamps (twoAttempts (10 ^ 9) (15 * 10 ^ 8))).latestSourceOutcomes.lookup "h1_100" =
        some ⟨.success, 10 ^ 9⟩ ∧
      ¬ TextIsTime (normalizeTimestamps (twoAttempts (10 ^ 9) (15 * 10 ^ 8))) := by
  have hdb : Written (twoAttempts (10 ^ 9) (15 * 10 ^ 8)) :=
    written_twoAttempts (by decide +kernel) (by decide +kernel)
  refine ⟨hdb, by decide +kernel, fun h => ?_⟩
  have hclear := ((columns_ordered_iff hdb).mp h.columns).finished
  revert hclear
  decide +kernel

end ProxBack.Store
