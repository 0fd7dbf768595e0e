import ProxBack.Lib.Lists
import ProxBack.Sched.HistoryRows

/-! When the posture tells that a workload's last run failed. -/
namespace ProxBack.Sched.Execute.History
open Lib Prog Engine Api
open Store (RunStatus Backup)

/-- The run `r` was started after the run `r'`. -/
def State.Later (s : State) (r r' : String) : Prop := ∃ l l', s.begun = l ++ l' ∧ r ∈ l ∧ r' ∈ l'

def SourceRow.Ended (x : SourceRow) (w : Workload) (status : SourceStatus) : Prop :=
  x.source.sourceID = w.2 ∧ x.status = status

/-- The run made a restore point of the workload, or has a row that says it failed. Rows
without an id of their source are not read. -/
def State.Told (s : State) (w : Workload) (runID : String) : Prop :=
  (runID, w) ∈ s.recorded ∨ w.2 ≠ "" ∧ ∃ x ∈ s.sources, x.runID = runID ∧ x.Ended w .failed

section
variable (lower : Char → Char) (e : Engine) (w : Workload) (jobID : String)

/-- No run was started after `runID` in which the workload failed already. -/
def State.Newest (s : State) (runID : String) : Prop :=
  ∀ y ∈ s.sources, y.Ended w .failed → y.runID = runID ∨ s.Later runID y.runID

/-- What is asked of a step. The plan of a run is written down, and says of which kind the
workload is. A workload is backed up with success only by a run that no run was started
after in which it failed already; the row that a panic leaves as a success has its restore
point. And a run of the job ends as failed only once it has made a restore point of the
workload or has a row that says that it failed. -/
def Tidy (s : State) : Action → Prop
  | .answer i _ took => ∀ runID c k, s.bodies[i]? = some ⟨runID, .call c k⟩ →
    (∀ rows, c = .planSources rows →
      took = true ∧ ∀ row ∈ rows, row.sourceID = w.2 → row.kind = w.1) ∧
    (∀ seq, c = .finishSource seq .success →
      ∀ x ∈ s.sources, x.runID = runID → x.source.seq = seq → x.source.sourceID = w.2 →
        s.Newest w runID)
  | .finish i _ => ∀ runID err, s.bodies[i]? = some ⟨runID, .ret (some err)⟩ →
    err.canceled = false → (∃ r ∈ s.runs, r.id = runID ∧ r.jobID = jobID) → s.Told w runID
  | .panic i ended _ => ∀ b, s.bodies[i]? = some b →
    (ended = true → ∀ x ∈ s.sources, x.runID = b.runID → x.source.kind = .agent → x.isOpen = true →
      x.source.sourceID = w.2 → (b.runID, w) ∈ s.recorded ∧ s.Newest w b.runID) ∧
    ((∃ r ∈ s.runs, r.id = b.runID ∧ r.jobID = jobID) → s.Told w b.runID)
  | .restart => ∀ r ∈ s.runs, r.jobID = jobID → r.status = .running → s.Told w r.id
  | _ => True

/-- What the breakdown says of the workload is so: a success has its restore point, and a
success after a failure is that of the same run or of a later one. -/
structure Rows (s : State) : Prop where
  times : ∀ x ∈ s.sources, ∀ t, x.finishedAt = some t → t < s.now
  ended : ∀ x ∈ s.sources, x.status = .success ∨ x.status = .failed → x.finishedAt ≠ none
  kinds : ∀ x ∈ s.sources, x.source.sourceID = w.2 → x.source.kind = w.1
  backed : ∀ x ∈ s.sources, x.Ended w .success → (x.runID, w) ∈ s.recorded
  order : ∀ x ∈ s.sources, ∀ y ∈ s.sources, x.Ended w .failed → y.Ended w .success →
    x.finishedAt.getD 0 ≤ y.finishedAt.getD 0 → y.runID = x.runID ∨ s.Later y.runID x.runID

/-- The rows that the run has planned and the workloads it has a restore point of. -/
def State.account (s : State) (runID : String) : Account :=
  ((s.sources.filter fun x => x.runID = runID).map SourceRow.source,
    {w | (runID, w) ∈ s.recorded})

structure Bodies (s : State) : Prop where
  distinct : (s.bodies.map Body.runID).Nodup
  listed : ∀ b ∈ s.bodies, ∃ r ∈ s.runs, r.id = b.runID
  running : ∀ b ∈ s.bodies, ∀ r ∈ s.runs, r.id = b.runID → r.status = .running
  begun : ∀ r ∈ s.runs, r.id ∈ s.begun
  accounts : ∀ b ∈ s.bodies, Wp Accounts Backed (fun _ _ => True) b.prog (s.account b.runID)

structure Kept (s : State) : Prop where
  rows : Rows w s
  bodies : Bodies s
  told : ∀ r ∈ s.runs, r.jobID = jobID → r.status = .failed → s.Told w r.id

end

section
variable {lower : Char → Char} {e : Engine} {w : Workload} {jobID : String} {s s' : State}

theorem kept_initial : Kept w jobID .initial := by
  refine ⟨⟨?_, ?_, ?_, ?_, ?_⟩, ⟨?_, ?_, ?_, ?_, ?_⟩, ?_⟩ <;> simp [State.initial]

theorem State.Later.cons {r r' : String} (h : s.Later r r') {q : String} (hbegun : s'.begun = q :: s.begun) :
    s'.Later r r' := by
  obtain ⟨l, l', hl, hr, hr'⟩ := h
  exact ⟨q :: l, l', by rw [hbegun, hl]; rfl, List.mem_cons_of_mem _ hr, hr'⟩

theorem State.Later.same {r r' : String} (h : s.Later r r') (hbegun : s'.begun = s.begun) :
    s'.Later r r' := by
  obtain ⟨l, l', hl, hr⟩ := h
  exact ⟨l, l', hbegun.trans hl, hr⟩

structure Silent (w : Workload) (s : State) (x : SourceRow) : Prop where
  success : x.status ≠ .success
  failed : x.status ≠ .failed
  times : ∀ t, x.finishedAt = some t → t < s.now
  kinds : x.source.sourceID = w.2 → x.source.kind = w.1

theorem Rows.silent (h : Rows w s) (hnow : s.now ≤ s'.now)
    (hrec : ∀ p ∈ s.recorded, p ∈ s'.recorded)
    (hlater : ∀ {r r'}, s.Later r r' → s'.Later r r')
    (hrows : ∀ x ∈ s'.sources, x ∈ s.sources ∨ Silent w s' x) : Rows w s' where
  times := fun x hx t ht => (hrows x hx).elim
    (fun hold => lt_of_lt_of_le (h.times x hold t ht) hnow) fun hnew => hnew.times t ht
  ended := fun x hx hstatus => (hrows x hx).elim (fun hold => h.ended x hold hstatus)
    fun hnew => hstatus.elim (absurd · hnew.success) (absurd · hnew.failed)
  kinds := fun x hx hid => (hrows x hx).elim (fun hold => h.kinds x hold hid) fun hnew => hnew.kinds hid
  backed := fun x hx hend => (hrows x hx).elim (fun hold => hrec _ (h.backed x hold hend))
    fun hnew => absurd hend.2 hnew.success
  order := by
    intro x hx y hy hfailed hsuccess hle
    rcases hrows x hx with hx | hnew
    · rcases hrows y hy with hy | hnew
      · exact (h.order x hx y hy hfailed hsuccess hle).imp_right hlater
      · exact absurd hsuccess.2 hnew.success
    · exact absurd hfailed.2 hnew.failed

theorem SourceRow.skip_cases (x : SourceRow) (now : Time) :
    x.skip now = x ∨ x.isOpen = true ∧ x.skip now = { x with status := .skipped, finishedAt := some now } := by
  unfold SourceRow.skip
  split
  · rename_i hopen
    exact .inr ⟨hopen, rfl⟩
  · exact .inl rfl

@[grind =] theorem SourceRow.skip_failed {x : SourceRow} (h : x.status = .failed) (now : Time) :
    x.skip now = x := by
  rcases x.skip_cases now with hsame | ⟨hopen, -⟩
  · exact hsame
  · unfold SourceRow.isOpen at hopen
    rw [h] at hopen
    cases hopen

theorem silent_skip (h : Rows w s) {x : SourceRow} (hx : x ∈ s.sources)
    (hnow : s'.now = s.now + 1) : x.skip s.now ∈ s.sources ∨ Silent w s' (x.skip s.now) := by
  rcases x.skip_cases s.now with hsame | ⟨-, hskip⟩
  · rw [hsame]
    exact .inl hx
  · rw [hskip]
    refine .inr ⟨nofun, nofun, fun t ht => ?_, h.kinds x hx⟩
    cases ht
    rw [hnow]
    exact Int.lt_succ s.now

inductive RowChange (s : State) (runID : String) (c : Call) (x' : SourceRow) : Prop where
  | same (h : x' ∈ s.sources)
  | planned (rows : List PlannedSource) (hc : c = .planSources rows) (row : PlannedSource)
      (hrow : row ∈ rows) (h : x' = SourceRow.pending runID row)
  | begun (x : SourceRow) (hx : x ∈ s.sources) (h : x' = { x with status := .running })
  | ended (x : SourceRow) (hx : x ∈ s.sources) (seq : Nat) (status : SourceStatus)
      (hc : c = .finishSource seq status) (hrun : x.runID = runID) (hseq : x.source.seq = seq)
      (h : x' = { x with status, finishedAt := some s.now })

theorem rowChange_of_mem {runID : String} {c : Call} {x' : SourceRow}
    (h : x' ∈ s.sourcesAfter runID c) : RowChange s runID c x' := by
  unfold State.sourcesAfter at h
  split at h
  · rename_i rows
    rcases List.mem_append.mp h with h | h
    · exact .same (List.mem_of_mem_filter h)
    · obtain ⟨row, hrow, rfl⟩ := List.mem_map.mp h
      exact .planned rows rfl row hrow rfl
  · obtain ⟨x, hx, rfl⟩ := List.mem_map.mp h
    unfold SourceRow.update
    split
    · exact .begun x hx rfl
    · exact .same hx
  · obtain ⟨x, hx, rfl⟩ := List.mem_map.mp h
    unfold SourceRow.update
    split
    · rename_i seq status hmatch
      exact .ended x hx seq status rfl hmatch.1 hmatch.2 rfl
    · exact .same hx
  · exact .same h

theorem mem_sourcesAfter {runID : String} {c : Call} {x : SourceRow} (hx : x ∈ s.sources)
    (hne : x.runID ≠ runID) : x ∈ s.sourcesAfter runID c := by
  have hupdate : ∀ seq status finishedAt, x.update runID seq status finishedAt = x := by
    intro seq status finishedAt
    exact if_neg fun h => hne h.1
  unfold State.sourcesAfter
  split
  · refine List.mem_append_left _ (List.mem_filter.mpr ⟨hx, decide_eq_true hne⟩)
  · exact List.mem_map.mpr ⟨x, hx, hupdate _ _ _⟩
  · exact List.mem_map.mpr ⟨x, hx, hupdate _ _ _⟩
  · exact hx

theorem update_same (x : SourceRow) (runID : String) (seq : Nat) (status : SourceStatus)
    (finishedAt : Option Time) : (x.update runID seq status finishedAt).runID = x.runID ∧
      (x.update runID seq status finishedAt).source = x.source := by
  unfold SourceRow.update
  split <;> exact ⟨rfl, rfl⟩

theorem planned_map {rows : List SourceRow} {f : SourceRow → SourceRow}
    (hf : ∀ x, (f x).runID = x.runID ∧ (f x).source = x.source) (r : String) :
    ((rows.map f).filter fun x => x.runID = r).map SourceRow.source =
      (rows.filter fun x => x.runID = r).map SourceRow.source := by
  induction rows with
  | nil => rfl
  | cons x rows ih =>
    rw [List.map_cons, List.filter_cons, List.filter_cons, (hf x).1]
    split
    · rw [List.map_cons, List.map_cons, ih, (hf x).2]
    · exact ih

theorem planned_after (runID : String) (c : Call) :
    ((s.sourcesAfter runID c).filter fun x => x.runID = runID).map SourceRow.source =
      (Plans c).getD ((s.sources.filter fun x => x.runID = runID).map SourceRow.source) := by
  unfold State.sourcesAfter
  split
  · rename_i rows
    have hold : ((s.sources.filter fun x => x.runID ≠ runID).filter fun x => x.runID = runID) = [] := by
      rw [List.filter_filter, List.filter_eq_nil_iff]
      intro x _
      simp
    have hnew : ((rows.map (SourceRow.pending runID)).filter fun x => x.runID = runID) =
        rows.map (SourceRow.pending runID) := by
      rw [List.filter_eq_self]
      intro x hx
      obtain ⟨row, -, rfl⟩ := List.mem_map.mp hx
      exact decide_eq_true rfl
    rw [State.replaceRunSources, List.filter_append, hold, hnew, List.nil_append, List.map_map]
    exact List.map_id rows
  · exact planned_map (fun x => update_same x _ _ _ _) runID
  · exact planned_map (fun x => update_same x _ _ _ _) runID
  · rename_i hplan _ _
    cases c <;> first | rfl | exact absurd rfl (hplan _)

theorem planned_other {runID r : String} (hne : r ≠ runID) (c : Call) :
    ((s.sourcesAfter runID c).filter fun x => x.runID = r).map SourceRow.source =
      (s.sources.filter fun x => x.runID = r).map SourceRow.source := by
  unfold State.sourcesAfter
  split
  · rename_i rows
    have hold : ((s.sources.filter fun x => x.runID ≠ runID).filter fun x => x.runID = r) =
        s.sources.filter fun x => x.runID = r := by
      rw [List.filter_filter]
      refine List.filter_congr fun x _ => ?_
      by_cases hx : x.runID = r
      · simp [hx, hne]
      · simp [hx]
    have hnew : ((rows.map (SourceRow.pending runID)).filter fun x => x.runID = r) = [] := by
      rw [List.filter_eq_nil_iff]
      intro x hx
      obtain ⟨row, -, rfl⟩ := List.mem_map.mp hx
      exact fun h => hne (of_decide_eq_true h).symm
    rw [State.replaceRunSources, List.filter_append, hold, hnew, List.append_nil]
  · exact planned_map (fun x => update_same x _ _ _ _) r
  · exact planned_map (fun x => update_same x _ _ _ _) r
  · rfl

theorem mem_recordedAfter {runID : String} {c : Call} {r : Reply c} {took : Bool}
    {p : String × Workload} (h : p ∈ s.recorded) : p ∈ s.recordedAfter runID c r took := by
  unfold State.recordedAfter
  split
  · exact h
  · split
    · exact List.mem_cons_of_mem _ h
    · exact h

@[grind =]
theorem recordedAfter_other {runID r' : String} (hne : r' ≠ runID) {c : Call} {r : Reply c}
    {took : Bool} {w' : Workload} :
    (r', w') ∈ s.recordedAfter runID c r took ↔ (r', w') ∈ s.recorded := by
  unfold State.recordedAfter
  split
  · rfl
  · split
    · rw [List.mem_cons]
      constructor
      · rintro (heq | h)
        · cases heq
          exact absurd rfl hne
        · exact h
      · exact .inr
    · rfl

theorem created_recorded {runID : String} {c : Call} {r : Reply c} {took : Bool} {b : Backup}
    (h : created c r = some b) :
    (runID, (b.sourceKind, b.sourceID)) ∈ s.recordedAfter runID c r took := by
  unfold created at h
  split at h
  · cases h
    unfold State.recordedAfter
    dsimp only [pointOf]
    rw [if_pos (.inl rfl)]
    exact List.mem_cons_self
  · cases h

inductive Outcome (w : Workload) (s s' : State) (runID : String) (x' : SourceRow) : Prop where
  | same (h : x' ∈ s.sources)
  | silent (h : Silent w s' x')
  | ended (hrun : x'.runID = runID) (ht : x'.finishedAt = some s.now)
      (hkind : x'.source.sourceID = w.2 → x'.source.kind = w.1)
      (hbacked : x'.Ended w .success → (runID, w) ∈ s.recorded)
      (horder : x'.Ended w .success →
        ∀ y ∈ s.sources, y.Ended w .failed → y.runID = runID ∨ s.Later runID y.runID)

theorem Rows.outcome (h : Rows w s) (runID : String) (hnow : s'.now = s.now + 1)
    (hrec : ∀ p ∈ s.recorded, p ∈ s'.recorded) (hbegun : s'.begun = s.begun)
    (hrows : ∀ x ∈ s'.sources, Outcome w s s' runID x) : Rows w s' where
  times := by
    intro x hx t ht
    have hlt : s.now < s'.now := hnow ▸ Int.lt_succ s.now
    cases hrows x hx with
    | same hold => exact (h.times x hold t ht).trans hlt
    | silent hnew => exact hnew.times t ht
    | ended _ hend =>
      cases hend.symm.trans ht
      exact hlt
  ended := by
    intro x hx hstatus
    cases hrows x hx with
    | same hold => exact h.ended x hold hstatus
    | silent hnew => exact hstatus.elim (absurd · hnew.success) (absurd · hnew.failed)
    | ended _ hend =>
      rw [hend]
      nofun
  kinds := by
    intro x hx hid
    cases hrows x hx with
    | same hold => exact h.kinds x hold hid
    | silent hnew => exact hnew.kinds hid
    | ended _ _ hkind => exact hkind hid
  backed := by
    intro x hx hend
    cases hrows x hx with
    | same hold => exact hrec _ (h.backed x hold hend)
    | silent hnew => exact absurd hend.2 hnew.success
    | ended hrun _ _ hbacked =>
      rw [hrun]
      exact hrec _ (hbacked hend)
  order := by
    intro x hx y hy hfailed hsuccess hle
    have hlater : ∀ {r r'}, s.Later r r' → s'.Later r r' := fun hl => hl.same hbegun
    cases hrows x hx with
    | silent hnew => exact absurd hfailed.2 hnew.failed
    | same hx =>
      cases hrows y hy with
      | silent hnew => exact absurd hsuccess.2 hnew.success
      | same hy => exact (h.order x hx y hy hfailed hsuccess hle).imp_right hlater
      | ended hrun _ _ _ horder =>
        rw [hrun]
        exact (horder hsuccess x hx hfailed).imp Eq.symm hlater
    | ended hrun hend =>
      cases hrows y hy with
      | silent hnew => exact absurd hsuccess.2 hnew.success
      | same hy =>
        -- what has just failed is later than every success there is
        obtain ⟨t, ht⟩ := Option.ne_none_iff_exists'.mp (h.ended y hy (.inl hsuccess.2))
        have hlt := h.times y hy t ht
        rw [hend, ht] at hle
        exact absurd hlt (not_lt_of_ge hle)
      | ended hrun' => exact .inl (hrun'.trans hrun.symm)

theorem outcome_of_answer (h : Rows w s) {i : Nat} {reply : ∀ c, Reply c} {took : Bool}
    {runID : String} {c : Call} {k : Reply c → ExecM (Option Err)}
    (hbody : s.bodies[i]? = some ⟨runID, .call c k⟩)
    (hbacked : Backed c (s.account runID)) (htidy : Tidy w jobID s (.answer i reply took))
    (hnow : s'.now = s.now + 1) {x' : SourceRow} (hx' : x' ∈ s.sourcesAfter runID c) :
    Outcome w s s' runID x' := by
  obtain ⟨hplan, hsuccess⟩ := htidy runID c k hbody
  have hlt : s.now < s'.now := hnow ▸ Int.lt_succ s.now
  cases rowChange_of_mem hx' with
  | same hx => exact .same hx
  | planned rows hc row hrow heq =>
    subst heq
    exact .silent ⟨nofun, nofun, nofun, (hplan rows hc).2 row hrow⟩
  | begun x hx heq =>
    subst heq
    exact .silent ⟨nofun, nofun, fun t ht => (h.times x hx t ht).trans hlt, h.kinds x hx⟩
  | ended x hx seq status hc hrun hseq heq =>
    subst heq
    have hmem : x.source ∈ (s.account runID).1 :=
      List.mem_map_of_mem (List.mem_filter.mpr ⟨hx, decide_eq_true hrun⟩)
    refine .ended hrun rfl (h.kinds x hx) ?_ ?_
    · rintro ⟨hid, hstatus⟩
      have hpoint := hbacked seq (hstatus ▸ hc) x.source hmem hseq
      rw [h.kinds x hx hid, hid] at hpoint
      exact hpoint
    · rintro ⟨hid, hstatus⟩ y hy hfailed
      exact hsuccess seq (hstatus ▸ hc) x hx hrun hseq hid y hy hfailed

theorem account_answer {runID : String} {c : Call} {r : Reply c} {took : Bool}
    (hsources : s'.sources = if took then s.sourcesAfter runID c else s.sources)
    (hrec : s'.recorded = s.recordedAfter runID c r took)
    (hplan : ∀ rows, c = .planSources rows → took = true) :
    Accounts c (s.account runID) r (s'.account runID) := by
  refine ⟨?_, ?_, ?_⟩
  · unfold State.account
    dsimp only
    rw [hsources]
    cases took with
    | true => exact planned_after runID c
    | false =>
      have hnone : Plans c = none := by
        cases c with
        | planSources rows => cases hplan rows rfl
        | _ => rfl
      rw [hnone]
      rfl
  · intro w' hw'
    change (runID, w') ∈ s'.recorded
    rw [hrec]
    exact mem_recordedAfter hw'
  · intro b hb
    change _ ∈ s'.recorded
    rw [hrec]
    exact created_recorded hb

theorem account_other {runID r' : String} (hne : r' ≠ runID) {c : Call} {r : Reply c} {took : Bool}
    (hsources : s'.sources = if took then s.sourcesAfter runID c else s.sources)
    (hrec : s'.recorded = s.recordedAfter runID c r took) :
    s'.account r' = s.account r' := by
  refine Prod.ext ?_ ?_
  · change (s'.sources.filter _).map _ = _
    rw [hsources]
    cases took with
    | true => exact planned_other hne c
    | false => rfl
  · ext w'
    change (r', w') ∈ s'.recorded ↔ _
    rw [hrec]
    exact recordedAfter_other hne

theorem told_other {runID r' : String} (hne : r' ≠ runID) {c : Call} {r : Reply c} {took : Bool}
    (hsources : s'.sources = if took then s.sourcesAfter runID c else s.sources)
    (hrec : s'.recorded = s.recordedAfter runID c r took) (h : s.Told w r') : s'.Told w r' := by
  rcases h with h | ⟨hne', x, hx, hrun, hfailed⟩
  · refine .inl ?_
    rw [hrec]
    exact mem_recordedAfter h
  · refine .inr ⟨hne', x, ?_, hrun, hfailed⟩
    rw [hsources]
    split
    · exact mem_sourcesAfter hx (hrun ▸ hne)
    · exact hx

theorem mem_bodies_erase {i : Nat} {b b' : Body} (hdistinct : (s.bodies.map Body.runID).Nodup)
    (hi : s.bodies[i]? = some b) (h : b' ∈ s.bodies.eraseIdx i) :
    b' ∈ s.bodies ∧ b'.runID ≠ b.runID := by
  obtain ⟨k, hne, hk⟩ := List.mem_eraseIdx_iff_getElem?.mp h
  exact ⟨List.mem_of_getElem? hk, key_ne hdistinct hi hk hne⟩

theorem mem_bodies_set {i : Nat} {b b' b'' : Body} (hdistinct : (s.bodies.map Body.runID).Nodup)
    (hi : s.bodies[i]? = some b) (h : b' ∈ s.bodies.set i b'') :
    b' = b'' ∨ b' ∈ s.bodies ∧ b'.runID ≠ b.runID :=
  (mem_set_cases hi h).imp_right fun ⟨_, hne, hk⟩ =>
    ⟨List.mem_of_getElem? hk, key_ne hdistinct hi hk hne⟩

theorem Kept.answer (h : Kept w jobID s) {i : Nat} {reply : ∀ c, Reply c} {took : Bool}
    (htidy : Tidy w jobID s (.answer i reply took)) {runID : String} {c : Call}
    {k : Reply c → ExecM (Option Err)} (hbody : s.bodies[i]? = some ⟨runID, .call c k⟩) :
    Kept w jobID { s with
      now := s.now + 1
      bodies := s.bodies.set i ⟨runID, k (reply c)⟩
      sources := if took then s.sourcesAfter runID c else s.sources
      recorded := s.recordedAfter runID c (reply c) took } := by
  have hmem := List.mem_of_getElem? hbody
  obtain ⟨hbacked, hnext⟩ := h.bodies.accounts _ hmem
  refine ⟨?_, ⟨?_, ?_, ?_, h.bodies.begun, ?_⟩, ?_⟩
  · refine h.rows.outcome runID rfl (fun _ => mem_recordedAfter) rfl fun x hx => ?_
    by_cases htook : took = true
    · dsimp only at hx
      rw [if_pos htook] at hx
      exact outcome_of_answer h.rows hbody hbacked htidy rfl hx
    · dsimp only at hx
      rw [if_neg htook] at hx
      exact .same hx
  · have hsame : (s.bodies.set i ⟨runID, k (reply c)⟩).map Body.runID = s.bodies.map Body.runID :=
      map_set_same hbody rfl
    dsimp only
    rw [hsame]
    exact h.bodies.distinct
  · exact forall_set h.bodies.listed (h.bodies.listed ⟨runID, .call c k⟩ hmem)
  · exact forall_set h.bodies.running (h.bodies.running ⟨runID, .call c k⟩ hmem)
  · intro b hb
    rcases mem_bodies_set h.bodies.distinct hbody hb with rfl | ⟨hold, hne⟩
    · exact hnext _ _ (account_answer rfl rfl fun rows hc => ((htidy _ _ _ hbody).1 rows hc).1)
    · rw [account_other hne rfl rfl]
      exact h.bodies.accounts b hold
  · intro r hr hjob hfailed
    refine told_other ?_ rfl rfl (h.told r hr hjob hfailed)
    rintro heq
    rw [h.bodies.running _ hmem r hr heq] at hfailed
    cases hfailed

theorem closeOut_same (runID : String) (now : Time) (x : SourceRow) :
    (if x.runID = runID then x.skip now else x).runID = x.runID ∧
      (if x.runID = runID then x.skip now else x).source = x.source := by
  split
  · rcases x.skip_cases now with hsame | ⟨-, hskip⟩
    · rw [hsame]
      exact ⟨rfl, rfl⟩
    · rw [hskip]
      exact ⟨rfl, rfl⟩
  · exact ⟨rfl, rfl⟩

theorem rows_finish (h : Rows w s) (i : Nat) (runID : String) (status : RunStatus) (took : Bool) :
    Rows w (s.finish i runID status took) := by
  refine h.silent (Int.le_of_lt (Int.lt_succ s.now)) (fun _ => id) (fun hl => hl.same rfl) ?_
  intro x' hx'
  obtain ⟨x, hx, rfl⟩ := List.mem_map.mp hx'
  split
  · exact silent_skip h hx rfl
  · exact .inl hx

@[simp] theorem account_finish (i : Nat) (runID r : String) (status : RunStatus) (took : Bool) :
    (s.finish i runID status took).account r = s.account r :=
  Prod.ext (planned_map (closeOut_same runID s.now) r) rfl

theorem told_finish {r : String} (h : s.Told w r) (i : Nat) (runID : String) (status : RunStatus)
    (took : Bool) : (s.finish i runID status took).Told w r := by
  rcases h with h | ⟨hne, x, hx, hrun, hid, hfailed⟩
  · exact .inl h
  · refine .inr ⟨hne, x, List.mem_map.mpr ⟨x, hx, ?_⟩, hrun, hid, hfailed⟩
    split
    · exact SourceRow.skip_failed hfailed s.now
    · rfl

theorem runs_finish {i : Nat} {runID : String} {status : RunStatus} {took : Bool} {r' : RunRow}
    (h : r' ∈ (s.finish i runID status took).runs) :
    r' ∈ s.runs ∨ ∃ r ∈ s.runs, r.id = runID ∧ r' = { r with status, finishedAt := some s.now } := by
  unfold State.finish at h
  dsimp only at h
  split at h
  · obtain ⟨r, hr, rfl⟩ := List.mem_map.mp h
    split
    · rename_i hid
      exact .inr ⟨r, hr, hid, rfl⟩
    · exact .inl hr
  · exact .inl h

theorem mem_runs_finish {i : Nat} {runID : String} {status : RunStatus} {took : Bool} {r : RunRow}
    (h : r ∈ s.runs) (hne : r.id ≠ runID) : r ∈ (s.finish i runID status took).runs := by
  unfold State.finish
  dsimp only
  split
  · exact List.mem_map.mpr ⟨r, h, if_neg hne⟩
  · exact h

theorem unwind_cases (x : SourceRow) (runID : String) (now : Time) :
    x.unwind runID now = x ∨ x.runID = runID ∧ x.source.kind = .agent ∧ x.isOpen = true ∧
      x.unwind runID now = { x with status := .success, finishedAt := some now } := by
  unfold SourceRow.unwind
  split
  · rename_i hopen
    exact .inr ⟨hopen.1, hopen.2.1, hopen.2.2, rfl⟩
  · exact .inl rfl

theorem unwind_same (x : SourceRow) (runID : String) (now : Time) :
    (x.unwind runID now).runID = x.runID ∧ (x.unwind runID now).source = x.source := by
  unfold SourceRow.unwind
  split <;> exact ⟨rfl, rfl⟩

@[simp] theorem account_unwind (runID r : String) : (s.unwind runID).account r = s.account r :=
  Prod.ext (planned_map (fun x => unwind_same x runID s.now) r) rfl

theorem told_unwind {r : String} (h : s.Told w r) (runID : String) : (s.unwind runID).Told w r := by
  rcases h with h | ⟨hne, x, hx, hrun, hid, hfailed⟩
  · exact .inl h
  · refine .inr ⟨hne, x, List.mem_map.mpr ⟨x, hx, ?_⟩, hrun, hid, hfailed⟩
    rcases unwind_cases x runID s.now with hsame | ⟨-, -, hopen, -⟩
    · exact hsame
    · unfold SourceRow.isOpen at hopen
      rw [hfailed] at hopen
      cases hopen

theorem Kept.unwind (h : Kept w jobID s) {runID : String}
    (hopen : ∀ x ∈ s.sources, x.runID = runID → x.source.kind = .agent → x.isOpen = true →
      x.source.sourceID = w.2 → (runID, w) ∈ s.recorded ∧ s.Newest w runID) :
    Kept w jobID (s.unwind runID) := by
  refine ⟨h.rows.outcome runID rfl (fun _ => id) rfl fun x' hx' => ?_,
    ⟨h.bodies.distinct, h.bodies.listed, h.bodies.running, h.bodies.begun, fun b hb => ?_⟩,
    fun r hr hjob hfailed => told_unwind (h.told r hr hjob hfailed) runID⟩
  · obtain ⟨x, hx, rfl⟩ := List.mem_map.mp hx'
    rcases unwind_cases x runID s.now with hsame | ⟨hrun, hkind, hisopen, hended⟩
    · rw [hsame]
      exact .same hx
    · rw [hended]
      exact .ended hrun rfl (h.rows.kinds x hx)
        (fun hend => (hopen x hx hrun hkind hisopen hend.1).1)
        (fun hend => (hopen x hx hrun hkind hisopen hend.1).2)
  · rw [account_unwind]
    exact h.bodies.accounts b hb

theorem Kept.finish (h : Kept w jobID s) {i : Nat} {b : Body} (hbody : s.bodies[i]? = some b)
    {status : RunStatus} (took : Bool)
    (htold : status = .failed → (∃ r ∈ s.runs, r.id = b.runID ∧ r.jobID = jobID) →
      s.Told w b.runID) : Kept w jobID (s.finish i b.runID status took) := by
  have hsub : List.Sublist ((s.bodies.eraseIdx i).map Body.runID) (s.bodies.map Body.runID) :=
    (List.eraseIdx_sublist s.bodies i).map _
  refine ⟨rows_finish h.rows i b.runID status took,
    ⟨h.bodies.distinct.sublist hsub, ?_, ?_, ?_, ?_⟩, ?_⟩
  · intro b' hb'
    obtain ⟨hold, hne⟩ := mem_bodies_erase h.bodies.distinct hbody hb'
    obtain ⟨r, hr, hid⟩ := h.bodies.listed b' hold
    exact ⟨r, mem_runs_finish hr (hid ▸ hne), hid⟩
  · intro b' hb' r' hr' hid'
    obtain ⟨hold, hne⟩ := mem_bodies_erase h.bodies.distinct hbody hb'
    rcases runs_finish hr' with hr | ⟨r, hr, hid, rfl⟩
    · exact h.bodies.running b' hold r' hr hid'
    · exact absurd (hid'.symm.trans hid) hne
  · intro r' hr'
    rcases runs_finish hr' with hr | ⟨r, hr, -, rfl⟩
    · exact h.bodies.begun r' hr
    · exact h.bodies.begun r hr
  · intro b' hb'
    rw [account_finish]
    exact h.bodies.accounts b' (mem_bodies_erase h.bodies.distinct hbody hb').1
  · intro r' hr' hjob hfailed
    refine told_finish ?_ i b.runID status took
    rcases runs_finish hr' with hr | ⟨r, hr, hid, rfl⟩
    · exact h.told r' hr hjob hfailed
    · have hr'told := htold hfailed ⟨r, hr, hid, hjob⟩
      rwa [← hid] at hr'told

theorem Kept.restart (h : Kept w jobID s) (htidy : Tidy w jobID s .restart) :
    Kept w jobID s.restart := by
  have htold : ∀ r, s.Told w r → s.restart.Told w r := by
    rintro r (hrec | ⟨hne, x, hx, hrun, hid, hfailed⟩)
    · exact .inl hrec
    · have hx' : x ∈ s.restart.sources :=
        List.mem_map.mpr ⟨x, hx, SourceRow.skip_failed hfailed s.now⟩
      exact .inr ⟨hne, x, hx', hrun, hid, hfailed⟩
  refine ⟨?_, ⟨List.nodup_nil, nofun, nofun, ?_, nofun⟩, ?_⟩
  · refine h.rows.silent (Int.le_of_lt (Int.lt_succ s.now)) (fun _ => id) (fun hl => hl.same rfl) ?_
    intro x' hx'
    obtain ⟨x, hx, rfl⟩ := List.mem_map.mp hx'
    exact silent_skip h.rows hx rfl
  · intro r' hr'
    obtain ⟨r, hr, rfl⟩ := List.mem_map.mp hr'
    split <;> exact h.bodies.begun r hr
  · intro r' hr' hjob hfailed
    obtain ⟨r, hr, rfl⟩ := List.mem_map.mp hr'
    by_cases hrunning : r.status = .running
    · rw [if_pos hrunning] at hjob ⊢
      exact htold _ (htidy r hr hjob hrunning)
    · rw [if_neg hrunning] at hjob hfailed ⊢
      exact htold _ (h.told r hr hjob hfailed)

theorem Kept.start (h : Kept w jobID s) {runID : String} (hnew : runID ∉ s.begun) (j : BackupJob) :
    Kept w jobID { s with
      now := s.now + 1
      runs := ⟨runID, j.job.id, .running, none⟩ :: s.runs
      bodies := s.bodies ++ [⟨runID, executeBackup lower e j runID⟩]
      begun := runID :: s.begun } := by
  have hne : ∀ b ∈ s.bodies, b.runID ≠ runID := by
    intro b hb heq
    obtain ⟨r, hr, hid⟩ := h.bodies.listed b hb
    exact hnew (heq ▸ hid ▸ h.bodies.begun r hr)
  refine ⟨?_, ⟨?_, ?_, ?_, ?_, ?_⟩, ?_⟩
  · exact h.rows.silent (Int.le_of_lt (Int.lt_succ s.now)) (fun _ => id) (fun hl => hl.cons rfl)
      fun x hx => .inl hx
  · dsimp only
    rw [List.map_append, List.map_singleton, List.nodup_append]
    refine ⟨h.bodies.distinct, List.nodup_singleton _, ?_⟩
    rintro r hr r' hr'
    obtain ⟨b, hb, rfl⟩ := List.mem_map.mp hr
    cases List.mem_singleton.mp hr'
    exact hne b hb
  · intro b hb
    rcases List.mem_append.mp hb with hb | hb
    · obtain ⟨r, hr, hid⟩ := h.bodies.listed b hb
      exact ⟨r, List.mem_cons_of_mem _ hr, hid⟩
    · cases List.mem_singleton.mp hb
      exact ⟨_, List.mem_cons_self, rfl⟩
  · intro b hb r hr hid
    rcases List.mem_cons.mp hr with rfl | hr
    · rfl
    rcases List.mem_append.mp hb with hb | hb
    · exact h.bodies.running b hb r hr hid
    · cases List.mem_singleton.mp hb
      have hid' : r.id = runID := hid
      exact absurd (hid' ▸ h.bodies.begun r hr) hnew
  · intro r hr
    rcases List.mem_cons.mp hr with rfl | hr
    · exact List.mem_cons_self
    · exact List.mem_cons_of_mem _ (h.bodies.begun r hr)
  · intro b hb
    rcases List.mem_append.mp hb with hb | hb
    · exact h.bodies.accounts b hb
    · cases List.mem_singleton.mp hb
      exact executeBackup_backed lower e j runID _
  · intro r hr hjob hfailed
    rcases List.mem_cons.mp hr with rfl | hr
    · cases hfailed
    · exact h.told r hr hjob hfailed

theorem Kept.deleteRun (h : Kept w jobID s) {runID : String}
    (hidle : ¬ s.runs.any (fun r => r.id = runID ∧ r.status = .running)) :
    Kept w jobID { s with
      runs := s.runs.filter fun r => r.id ≠ runID
      sources := s.sources.filter fun x => x.runID ≠ runID } := by
  have hne : ∀ b ∈ s.bodies, b.runID ≠ runID := by
    intro b hb heq
    obtain ⟨r, hr, hid⟩ := h.bodies.listed b hb
    have hrunning := h.bodies.running b hb r hr hid
    exact hidle (List.any_eq_true.mpr ⟨r, hr, decide_eq_true ⟨hid.trans heq, hrunning⟩⟩)
  have hmem : ∀ r ∈ s.runs.filter (fun r => r.id ≠ runID), r ∈ s.runs :=
    fun r hr => List.mem_of_mem_filter hr
  refine ⟨?_, ⟨h.bodies.distinct, ?_, ?_, ?_, ?_⟩, ?_⟩
  · exact h.rows.silent le_rfl (fun _ => id) (fun hl => hl.same rfl)
      fun x hx => .inl (List.mem_of_mem_filter hx)
  · intro b hb
    obtain ⟨r, hr, hid⟩ := h.bodies.listed b hb
    exact ⟨r, List.mem_filter.mpr ⟨hr, decide_eq_true (hid ▸ hne b hb)⟩, hid⟩
  · exact fun b hb r hr => h.bodies.running b hb r (hmem r hr)
  · exact fun r hr => h.bodies.begun r (hmem r hr)
  · intro b hb
    have hsame : (s.sources.filter fun x => x.runID ≠ runID).filter (fun x => x.runID = b.runID) =
        s.sources.filter fun x => x.runID = b.runID := by
      rw [List.filter_filter]
      refine List.filter_congr fun x _ => ?_
      by_cases hx : x.runID = b.runID
      · simp [hx, hne b hb]
      · simp [hx]
    unfold State.account
    dsimp only
    rw [hsame]
    exact h.bodies.accounts b hb
  · intro r hr hjob hfailed
    have hid : r.id ≠ runID := of_decide_eq_true (List.mem_filter.mp hr).2
    rcases h.told r (hmem r hr) hjob hfailed with hrec | ⟨hne', x, hx, hrun, hend⟩
    · exact .inl hrec
    · exact .inr ⟨hne', x, List.mem_filter.mpr ⟨hx, decide_eq_true (hrun ▸ hid)⟩, hrun, hend⟩

theorem Kept.step {a : Action} (h : Kept w jobID s) (htidy : Tidy w jobID s a)
    (hstep : (system lower e).step a s = some s') : Kept w jobID s' := by
  change s.step lower e a = some s' at hstep
  cases a with
  | start runID j =>
    dsimp only [State.step] at hstep
    split at hstep
    · cases hstep
    · rename_i hnew
      cases hstep
      exact h.start hnew j
  | answer i reply took =>
    dsimp only [State.step] at hstep
    split at hstep
    · rename_i hbody
      cases hstep
      exact h.answer htidy hbody
    · cases hstep
  | finish i took =>
    dsimp only [State.step] at hstep
    split at hstep
    · rename_i runID res hbody
      cases hstep
      refine h.finish hbody took fun hfailed hrow => ?_
      cases res with
      | none => cases hfailed
      | some err =>
        refine htidy runID err hbody ?_ hrow
        unfold runStatus at hfailed
        dsimp only at hfailed
        split at hfailed
        · cases hfailed
        · rename_i hcanceled
          simpa using hcanceled
    · cases hstep
  | panic i ended took =>
    dsimp only [State.step] at hstep
    split at hstep
    · rename_i b hbody
      cases hstep
      obtain ⟨hopen, htold⟩ := htidy b hbody
      by_cases hended : ended = true
      · rw [if_pos hended]
        exact (h.unwind (hopen hended)).finish hbody took fun _ hrow =>
          told_unwind (htold hrow) b.runID
      · rw [if_neg hended]
        exact h.finish hbody took fun _ hrow => htold hrow
    · cases hstep
  | cancelQueued i took =>
    dsimp only [State.step] at hstep
    split at hstep
    · rename_i b hbody
      cases hstep
      exact h.finish hbody took nofun
    · cases hstep
  | deleteRun runID =>
    dsimp only [State.step] at hstep
    split at hstep
    · cases hstep
    · rename_i hidle
      cases hstep
      exact h.deleteRun hidle
  | restart =>
    cases hstep
    exact h.restart htidy

/-- Where a run has a row that says that the workload failed, and neither it nor a later run
made a restore point, the last outcome is a failure. -/
theorem Rows.latest_failed (h : Rows w s) (hid : w.2 ≠ "") {x : SourceRow} (hx : x ∈ s.sources)
    (hfailed : x.Ended w .failed) (hrun : (x.runID, w) ∉ s.recorded)
    (hlater : ∀ r, s.Later r x.runID → (r, w) ∉ s.recorded) :
    ∃ o, s.latestSourceOutcomes w.2 = some o ∧ o.status = .failed := by
  let order : SourceRow → SourceRow → Prop :=
    fun x y => x.finishedAt.getD 0 ≤ y.finishedAt.getD 0
  have hmem : x ∈ (s.outcomeRows w.2).insertionSort order :=
    (List.mem_insertionSort order).mpr
      (List.mem_filter.mpr ⟨hx, decide_eq_true ⟨hfailed.1, .inr hfailed.2⟩⟩)
  obtain ⟨y, hy⟩ := List.getLast?_isSome.mpr (List.ne_nil_of_mem hmem) |> Option.isSome_iff_exists.mp
  refine ⟨⟨y.status, y.finishedAt.getD 0⟩, ?_, ?_⟩
  · unfold State.latestSourceOutcomes
    rw [if_neg hid]
    change ((s.outcomeRows w.2).insertionSort order).getLast?.map _ = _
    rw [hy]
    rfl
  · -- the last row cannot be a success: it would be one of the run or of a later one
    have hyrow := (List.mem_insertionSort order).mp (List.mem_of_getLast? hy)
    obtain ⟨hy', hyid, hystatus⟩ := List.mem_filter.mp hyrow |>.imp_right of_decide_eq_true
    refine hystatus.resolve_left fun hsuccess => ?_
    have hle : order x y := by
      have hrefl : Std.Refl order := ⟨fun _ => Int.le_refl _⟩
      have htotal : Std.Total order := ⟨fun _ _ => Int.le_total _ _⟩
      have htrans : IsTrans SourceRow order := ⟨fun _ _ _ => Int.le_trans⟩
      have hlast := (List.pairwise_insertionSort order (s.outcomeRows w.2)).rel_getLast hmem
      rw [List.getLast?_eq_some_getLast (List.ne_nil_of_mem hmem), Option.some_inj] at hy
      rwa [hy] at hlast
    have hpoint := h.backed y hy' ⟨hyid, hsuccess⟩
    rcases h.order x hx y hy' hfailed ⟨hyid, hsuccess⟩ hle with heq | hl
    · exact hrun (heq ▸ hpoint)
    · exact hlater _ hl hpoint

end

/-- What the posture is asked about: the jobs, the inventory and the restore points. -/
structure Inventory where
  jobs : List PostureJob
  vms : List Store.VM
  agents : List AgentRow
  backups : List Backup

def State.collected (s : State) (lower : Char → Char) (inv : Inventory) : List PostureWorkload :=
  collectWorkloads lower inv.jobs inv.vms inv.agents inv.backups s.latestSourceOutcomes

def State.ShownProtected (s : State) (lower : Char → Char) (inv : Inventory) (now : Time)
    (w : Workload) (jobID : String) : Prop :=
  ∃ (k : Nat) (wl : PostureWorkload) (d : PostureEntry),
    (s.collected lower inv)[k]? = some wl ∧ (wl.kind, wl.id) = w ∧
    (∃ j, wl.job = some j ∧ j.job.id = jobID) ∧
    (evaluatePosture (s.collected lower inv) now).workloads[k]? = some d ∧ d.status = .isProtected

/-- The most recent run of the job that has finished failed without a restore point of the
workload, and no later run has made one. -/
structure State.FailedLast (s : State) (w : Workload) (jobID : String) (r : RunRow) : Prop where
  mem : r ∈ s.runs
  job : r.jobID = jobID
  failed : r.status = .failed
  last : ∀ r' ∈ s.runs, r'.jobID = jobID → r'.finishedAt ≠ none →
    r'.finishedAt.getD 0 ≤ r.finishedAt.getD 0
  unrecorded : (r.id, w) ∉ s.recorded
  since : ∀ r', s.Later r' r.id → (r', w) ∉ s.recorded

theorem collected_failed {s : State} {lower : Char → Char} {inv : Inventory} {wl : PostureWorkload}
    (hwl : wl ∈ s.collected lower inv)
    (h : ∃ o, s.latestSourceOutcomes wl.id = some o ∧ o.status = .failed) :
    wl.lastOutcomeFailed = true := by
  obtain ⟨o, ho, hstatus⟩ := h
  have hcollect : ∀ kind id name job, wl = collectWorkload inv.backups s.latestSourceOutcomes kind id name job →
      wl.lastOutcomeFailed = true := by
    rintro kind id name job rfl
    have ho' : s.latestSourceOutcomes id = some o := ho
    unfold collectWorkload
    dsimp only
    rw [ho', Option.filter_some, if_pos (decide_eq_true hstatus)]
    rfl
  rcases List.mem_append.mp hwl with hwl | hwl
  · obtain ⟨vm, -, rfl⟩ := List.mem_map.mp hwl
    exact hcollect _ _ _ _ rfl
  · obtain ⟨a, -, rfl⟩ := List.mem_map.mp hwl
    exact hcollect _ _ _ _ rfl

/-- In every history whose steps are tidy, a workload that the last run of its job failed
without a restore point of is not shown as protected. -/
theorem failed_not_shown (lower : Char → Char) (e : Engine) (w : Workload) (jobID : String)
    {as : List Action} {s : State} (hrun : (system lower e).Run (Tidy w jobID) .initial as s)
    {r : RunRow} (hlast : s.FailedLast w jobID r) (inv : Inventory) (now : Time) :
    ¬ s.ShownProtected lower inv now w jobID := by
  have hkept : Kept w jobID s := hrun.invariant (fun a s s' => Kept.step) kept_initial
  obtain ⟨hid, x, hx, hxrun, hfailed⟩ :=
    (hkept.told r hlast.mem hlast.job hlast.failed).resolve_left hlast.unrecorded
  have hlatest := hkept.rows.latest_failed hid hx hfailed (hxrun ▸ hlast.unrecorded)
    (hxrun ▸ hlast.since)
  rintro ⟨k, wl, d, hwl, rfl, -, hd, hstatus⟩
  have hentry : d = evaluateWorkload wl now := by
    change ((s.collected lower inv).map _)[k]? = some d at hd
    rw [List.getElem?_map, hwl] at hd
    exact (Option.some.inj hd).symm
  rw [hentry] at hstatus
  exact status_of_failed (collected_failed (List.mem_of_getElem? hwl) hlatest) now hstatus

def engineAnswers : (c : Engine.Call) → Engine.Reply c
  | .hasChunk _ | .headManifest _ => .ok false
  | .addChunk _ _ | .deleteChunk _ | .put _ _ | .delete _ | .putManifest _ _ | .deleteManifest _
  | .waitUpload _ => .ok ()
  | .chunkAddedAt => .ok ∅
  | .head _ | .walkChunk _ | .getManifest _ => .ok none
  | .getBytes _ | .walkChunks | .walkManifests => .ok []
  | .now => 0

def schedAnswers : (c : Sched.Call) → Sched.Reply c
  | .engine _ c => engineAnswers c
  | .jobByID _ | .backupByID _ | .latestBackupForSource _ _ _ => .error .notFound
  | .listBackups _ => .ok []
  | .createBackup _ | .clearBackupParent _ | .deleteBackup _ | .openTarget _ | .script _ => .ok ()
  | .exported => .ok ([], 0)
  | .ctxErr => none
  | .newID => "b1"
  | .now => 0
  | .markTargetActive _ => ()
  | .markTargetIdle _ | .targetIdle _ => false

def guestAnswers : (c : Guest.Call) → Guest.Reply c
  | .sched c => schedAnswers c
  | .createSnapshot | .deleteSnapshot => .ok "task"
  | .waitTask _ => .ok ()
  | .exportDisk _ | .exportGuest => .ok []
  | .backupStream _ _ => ⟨.error .eof, []⟩
  | .close => none
  | .stats => .zero

def answers (online : Bool) (sent : Except Fault (List DiskManifest)) : (c : Call) → Reply c
  | .guest c => guestAnswers c
  | .listCachedVMs => .ok []
  | .pveHost _ | .cachedVM _ _ => .error .notFound
  | .findNodeForVM _ _ => .ok ""
  | .config _ _ _ => .ok ⟨"", []⟩
  | .helperForNode _ _ => .ok false
  | .agentByID _ => .ok ⟨"laptop", online⟩
  | .runBackup _ _ => sent
  | .runCtxErr | .retryWait _ => none
  | .planSources _ | .beginSource _ | .finishSource _ _ => ()

def fullRun (runID : String) (n : Nat) (reply : (c : Call) → Reply c) : List Action :=
  .start runID (agentJob [home "a1"]) :: List.replicate n (.answer 0 reply true) ++ [.finish 0 true]

def agentPoint : Backup where
  id := "b1"
  jobID := "job1"
  runID := "run1"
  sourceKind := .agent
  sourceID := "a1"
  sourceName := "laptop"
  targetID := "t1"
  createdAt := 0
  sizeBytes := 0
  uploadedBytes := 0
  kind := .full
  parentID := ""
  disks := []
  sourceID_ne := by decide

def agentInventory : Inventory where
  jobs := [⟨agentJob [home "a1"], true, ⟨.daily, 0, "02:00", [], 0, ""⟩⟩]
  vms := []
  agents := [⟨"a1", "laptop"⟩]
  backups := [agentPoint]

theorem not_later {s : State} {r : String} {rest : List String} (hbegun : s.begun = r :: rest)
    (hnew : r ∉ rest) (r' : String) : ¬ s.Later r' r := by
  rintro ⟨l, l', hl, hr', hr⟩
  cases l with
  | nil => cases hr'
  | cons q l =>
    rw [hbegun, List.cons_append] at hl
    refine hnew ?_
    rw [(List.cons.inj hl).2]
    exact List.mem_append_right l hr

/-- The agent was offline when the second run came to it: it has no row in the breakdown of
that run, and is shown as protected. -/
theorem offline_shown_protected :
    ∃ as s r, (system Char.toLower byteEngine).Run (fun _ _ => True) .initial as s ∧
      s.FailedLast (.agent, "a1") "job1" r ∧
      s.ShownProtected Char.toLower agentInventory 10 (.agent, "a1") "job1" := by
  obtain ⟨s, hrun, hruns, hbegun, hrecorded, hshown⟩ :
      ∃ s, (system Char.toLower byteEngine).follow (fullRun "run1" 15 (answers true (.ok [])) ++
          fullRun "run2" 5 (answers false (.ok []))) .initial = some s ∧
        s.runs = [⟨"run2", "job1", .failed, some 23⟩, ⟨"run1", "job1", .success, some 16⟩] ∧
        s.begun = ["run2", "run1"] ∧ s.recorded = [("run1", .agent, "a1")] ∧
        s.ShownProtected Char.toLower agentInventory 10 (.agent, "a1") "job1" :=
    ⟨_, rfl, rfl, rfl, rfl, 0, _, _, rfl, rfl, ⟨_, rfl, rfl⟩, rfl, rfl⟩
  refine ⟨_, s, ⟨"run2", "job1", .failed, some 23⟩,
    System.run_of_follow (fun _ _ _ => trivial) hrun, ⟨?_, rfl, rfl, ?_, ?_, ?_⟩, hshown⟩
  · rw [hruns]
    exact List.mem_cons_self
  · rw [hruns]
    decide
  · rw [hrecorded]
    decide
  · exact fun r' hlater => absurd hlater (not_later hbegun (by decide) r')

def tidyCheck (w : Workload) : State × Action → Bool
  | (_, .start _ _) => true
  | (s, .answer i _ took) =>
    match s.bodies[i]? with
    | some ⟨_, .call (.planSources rows) _⟩ =>
      took ∧ ∀ row ∈ rows, row.sourceID = w.2 → row.kind = w.1
    | some ⟨_, .call (.finishSource _ .success) _⟩ =>
      ∀ y ∈ s.sources, ¬ (y.source.sourceID = w.2 ∧ y.status = .failed)
    | _ => true
  | (s, .finish i _) =>
    match s.bodies[i]? with
    | some ⟨runID, .ret (some _)⟩ =>
      w.2 ≠ "" ∧ ∃ x ∈ s.sources, x.runID = runID ∧ x.source.sourceID = w.2 ∧ x.status = .failed
    | _ => true
  | _ => false

theorem tidy_of_check (w : Workload) (jobID : String) (s : State) (a : Action)
    (h : tidyCheck w (s, a) = true) : Tidy w jobID s a := by
  unfold tidyCheck at h
  cases a with
  | start | cancelQueued | deleteRun => trivial
  | panic | restart => cases h
  | answer i reply took =>
    intro runID c k hbody
    dsimp only at h
    rw [hbody] at h
    constructor
    · rintro rows rfl
      exact of_decide_eq_true h
    · rintro seq rfl x hx hxrun hseq hid y hy hfailed
      exact absurd hfailed (of_decide_eq_true h y hy)
  | finish i took =>
    intro runID err hbody _ _
    dsimp only at h
    rw [hbody] at h
    have hrow := of_decide_eq_true h
    exact .inr hrow

/-- An agent that was online and could not be read is not shown as protected. -/
theorem failed_not_shown_agent :
    ∃ as s r, (system Char.toLower byteEngine).Run (Tidy (.agent, "a1") "job1") .initial as s ∧
      s.FailedLast (.agent, "a1") "job1" r ∧
      ¬ s.ShownProtected Char.toLower agentInventory 10 (.agent, "a1") "job1" := by
  obtain ⟨s, hrun, hruns, hbegun, hrecorded⟩ :
      ∃ s, (system Char.toLower byteEngine).Run (Tidy (.agent, "a1") "job1") .initial
          (fullRun "run1" 15 (answers true (.ok [])) ++
            fullRun "run2" 9 (answers true (.error (.other 5)))) s ∧
        s.runs = [⟨"run2", "job1", .failed, some 27⟩, ⟨"run1", "job1", .success, some 16⟩] ∧
        s.begun = ["run2", "run1"] ∧ s.recorded = [("run1", .agent, "a1")] :=
    ⟨_, System.run_of_trail (p := tidyCheck (.agent, "a1")) (tidy_of_check _ _) rfl rfl,
      rfl, rfl, rfl⟩
  have hlast : s.FailedLast (.agent, "a1") "job1" ⟨"run2", "job1", .failed, some 27⟩ := by
    refine ⟨?_, rfl, rfl, ?_, ?_, ?_⟩
    · rw [hruns]
      exact List.mem_cons_self
    · rw [hruns]
      decide
    · rw [hrecorded]
      decide
    · exact fun r' hlater => absurd hlater (not_later hbegun (by decide) r')
  exact ⟨_, s, _, hrun, hlast,
    failed_not_shown Char.toLower byteEngine _ _ hrun hlast agentInventory 10⟩

end ProxBack.Sched.Execute.History
