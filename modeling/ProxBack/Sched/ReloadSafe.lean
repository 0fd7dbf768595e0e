import ProxBack.Sched.Reload

/-! The runner's table follows the jobs where reloads take turns at clearing it: no reload
clears while another one has entries left to add, or after one of newer jobs has. -/
namespace ProxBack.Sched.Reload
open Lib
open Store (Schedule)

section
variable (accepts : List Char → Bool)

def JobRow.scheduled (row : JobRow) : Bool :=
  row.enabled ∧ row.schedule.cron ≠ [] ∧ accepts row.schedule.cron = true

abbrev Key : Type := String × List Char × Schedule

def Entry.key (e : Entry) : Key := (e.jobID, e.spec, e.schedule)

def JobRow.key (jobID : String) (row : JobRow) : Key := (jobID, row.schedule.cron, row.schedule)

def due (jobs : List (String × JobRow)) : List Key :=
  (jobs.filter fun j => j.2.scheduled accepts).map fun j => j.2.key j.1

def Follows (s : Shared) : Prop :=
  ∀ jobID, (s.cron.filter fun e => e.jobID = jobID).map Entry.key =
    match s.jobs.lookup jobID with
    | some row => if row.scheduled accepts then [row.key jobID] else []
    | none => []

/-- Every request has returned, and none without the reload that its change needs. -/
def Quiet (w : Hall Shared Phase) : Prop := ∀ q ∈ w.requests, q = .returned ∨ q = .refused

instance (w : Hall Shared Phase) : Decidable (Quiet w) :=
  inferInstanceAs (Decidable (∀ q ∈ w.requests, _))

def Phase.owes : Phase → Bool
  | .adding todo => todo.any fun j => j.2.scheduled accepts
  | .recording _ _ _ => true
  | _ => false

def InTurn (w : Hall Shared Phase) : Turn Arrival Access → Prop
  | .advance i .clear =>
    match w.requests[i]? with
    | some (.clearing version _) =>
      w.shared.cleared ≤ version ∧ ∀ q ∈ w.requests, q.owes accepts = false
    | _ => True
  | _ => True

instance (w : Hall Shared Phase) (t : Turn Arrival Access) : Decidable (InTurn accepts w t) := by
  unfold InTurn
  split
  · split
    · exact inferInstanceAs (Decidable (_ ∧ ∀ q ∈ w.requests, _))
    · infer_instance
  · infer_instance

def Phase.left : Phase → List Key
  | .adding todo | .recording _ _ todo => due accepts todo
  | _ => []

/-- The runner's table and what is left to add make up what is due for `applied`, and the
manager's own map knows every entry but those being recorded. -/
structure Table (w : Hall Shared Phase) (applied : List (String × JobRow)) : Prop where
  distinct : (applied.map Prod.fst).Nodup
  held : (w.shared.cron.map Entry.key ++ w.requests.flatMap (Phase.left accepts)).Perm
    (due accepts applied)
  recorded : ∀ e ∈ w.shared.cron, w.shared.entries.lookup e.jobID = some e.id ∨
    ∃ todo, Phase.recording e.jobID e.id todo ∈ w.requests
  recording : ∀ jobID id todo, Phase.recording jobID id todo ∈ w.requests →
    ∃ e ∈ w.shared.cron, e.jobID = jobID ∧ e.id = id

end

/-- What was cleared for last, what the waiting reloads have read, and who brings the runner
up to the jobs. -/
structure Fresh (w : Hall Shared Phase) (applied : List (String × JobRow)) : Prop where
  snapshot : ∀ version jobs, Phase.clearing version jobs ∈ w.requests →
    version ≤ w.shared.version ∧ (jobs.map Prod.fst).Nodup ∧
      (version = w.shared.version → jobs = w.shared.listJobs)
  bounded : w.shared.cleared ≤ w.shared.version
  current : w.shared.cleared = w.shared.version → applied = w.shared.listJobs
  owed : w.shared.cleared = w.shared.version ∨ Phase.listing ∈ w.requests ∨
    (∃ jobs, Phase.clearing w.shared.version jobs ∈ w.requests) ∨ Phase.failed ∈ w.requests

variable {accepts : List Char → Bool} {w : Hall Shared Phase} {applied : List (String × JobRow)}
  {i : Nat} {q q' : Phase} {s : Shared}

theorem nodup_listJobs (s : Shared) : (s.listJobs.map Prod.fst).Nodup := by
  have hkeys := s.jobs.nodupKeys
  rw [Shared.listJobs, List.map_map]
  exact hkeys

@[grind =] theorem left_of_owes (h : q.owes accepts = false) : q.left accepts = [] := by
  cases q with
  | adding todo =>
    have hnone : ∀ j ∈ todo, j.2.scheduled accepts = false := by
      simpa [Phase.owes] using h
    rw [Phase.left, due, List.filter_eq_nil_iff.mpr fun j hj => by simp [hnone j hj]]
    rfl
  | recording jobID id todo => cases h
  | _ => rfl

theorem Table.same (h : Table accepts w applied) (hi : w.requests[i]? = some q)
    (hcron : s.cron = w.shared.cron) (hentries : s.entries = w.shared.entries)
    (hleft : q'.left accepts = q.left accepts)
    (hq : ∀ jobID id todo, q ≠ .recording jobID id todo)
    (hq' : ∀ jobID id todo, q' ≠ .recording jobID id todo) :
    Table accepts ⟨s, w.requests.set i q'⟩ applied where
  distinct := h.distinct
  held := by
    obtain ⟨rest, hbefore, hafter⟩ := flatMap_set_perm hi q' (Phase.left accepts)
    rw [hleft] at hafter
    rw [hcron]
    exact ((hafter.trans hbefore.symm).append_left _).trans h.held
  recorded := by
    intro e he
    rw [hentries]
    refine (h.recorded e (hcron ▸ he)).imp_right ?_
    rintro ⟨todo, htodo⟩
    exact ⟨todo, mem_set_of_ne hi htodo fun heq => hq _ _ _ heq.symm⟩
  recording := by
    intro jobID id todo htodo
    rw [hcron]
    rcases List.mem_or_eq_of_mem_set htodo with htodo | heq
    · exact h.recording _ _ _ htodo
    · exact absurd heq.symm (hq' _ _ _)

theorem Table.clear (h : Table accepts w applied) {version : Nat} {jobs : List (String × JobRow)}
    (hi : w.requests[i]? = some (.clearing version jobs)) (hjobs : (jobs.map Prod.fst).Nodup)
    (howes : ∀ q ∈ w.requests, q.owes accepts = false) :
    Table accepts ⟨w.shared.clear version, w.requests.set i (.adding jobs)⟩ jobs := by
  have hempty : (w.shared.clear version).cron = [] := by
    refine List.filter_eq_nil_iff.mpr fun e he => ?_
    rcases h.recorded e he with hlookup | ⟨todo, htodo⟩
    · have hmem : (⟨e.jobID, e.id⟩ : Sigma fun _ : String => Nat) ∈ w.shared.entries.entries :=
        AList.mem_lookup_iff.mp hlookup
      have hid : e.id ∈ w.shared.entries.entries.map fun r => r.2 := List.mem_map.mpr ⟨_, hmem, rfl⟩
      simpa using hid
    · cases howes _ htodo
  have hnone : ∀ jobID id todo, Phase.recording jobID id todo ∉ w.requests.set i (.adding jobs) := by
    intro jobID id todo hmem
    rcases List.mem_or_eq_of_mem_set hmem with hmem | heq
    · cases howes _ hmem
    · cases heq
  refine ⟨hjobs, ?_, fun e he => ?_, fun jobID id todo htodo => absurd htodo (hnone _ _ _)⟩
  · obtain ⟨rest, hbefore, hafter⟩ := flatMap_set_perm hi (.adding jobs) (Phase.left accepts)
    have hrest : rest = [] := by
      have hnil : w.requests.flatMap (Phase.left accepts) = [] :=
        List.flatMap_eq_nil_iff.mpr fun q hq => left_of_owes (howes q hq)
      rw [hnil] at hbefore
      exact (List.append_eq_nil_iff.mp (List.nil_perm.mp hbefore)).2
    rw [hempty, List.map_nil, List.nil_append]
    rw [hrest, List.append_nil] at hafter
    exact hafter
  · rw [hempty] at he
    cases he

@[grind =] theorem due_cons (jobID : String) (row : JobRow) (todo : List (String × JobRow)) :
    due accepts ((jobID, row) :: todo) =
      if row.scheduled accepts then row.key jobID :: due accepts todo else due accepts todo := by
  unfold due
  rw [List.filter_cons]
  split <;> rfl

theorem Table.add (h : Table accepts w applied) {jobID : String} {row : JobRow}
    {todo : List (String × JobRow)} (hi : w.requests[i]? = some (.adding ((jobID, row) :: todo)))
    (hrow : row.scheduled accepts = true) :
    Table accepts ⟨w.shared.addFunc jobID row.schedule,
      w.requests.set i (.recording jobID (w.shared.nextID + 1) todo)⟩ applied where
  distinct := h.distinct
  held := by
    obtain ⟨rest, hbefore, hafter⟩ :=
      flatMap_set_perm hi (.recording jobID (w.shared.nextID + 1) todo) (Phase.left accepts)
    have hleft : (Phase.adding ((jobID, row) :: todo)).left accepts = row.key jobID :: due accepts todo := by
      rw [Phase.left, due_cons, if_pos hrow]
    rw [hleft] at hbefore
    have hdue := ((hbefore.append_left (w.shared.cron.map Entry.key)).symm.trans h.held)
    refine List.Perm.trans ?_ hdue
    show ((w.shared.cron ++ [_]).map Entry.key ++ _).Perm _
    rw [List.map_append, List.append_assoc]
    exact (hafter.append_left [row.key jobID]).append_left _
  recorded := by
    intro e he
    rcases List.mem_append.mp he with he | he
    · refine (h.recorded e he).imp_right ?_
      rintro ⟨todo', htodo'⟩
      exact ⟨todo', mem_set_of_ne hi htodo' nofun⟩
    · rw [List.mem_singleton.mp he]
      exact .inr ⟨todo, mem_set_at hi _⟩
  recording := by
    intro jobID' id todo' htodo'
    rcases List.mem_or_eq_of_mem_set htodo' with htodo' | heq
    · obtain ⟨e, he, hkey⟩ := h.recording _ _ _ htodo'
      exact ⟨e, List.mem_append_left _ he, hkey⟩
    · cases heq
      exact ⟨_, List.mem_append_right _ (List.mem_singleton_self _), rfl, rfl⟩

theorem Table.entries_distinct (h : Table accepts w applied) :
    (w.shared.cron.map Entry.jobID).Nodup := by
  have hdue : ((due accepts applied).map fun k => k.1).Nodup := by
    have hsub := (List.filter_sublist (p := fun j : String × JobRow => j.2.scheduled accepts)
      (l := applied)).map Prod.fst
    rw [due, List.map_map]
    exact h.distinct.sublist hsub
  have hall := (h.held.map fun k : Key => k.1).nodup_iff.mpr hdue
  rw [List.map_append, List.map_map] at hall
  exact (List.nodup_append.mp hall).1

theorem Table.record (h : Table accepts w applied) {jobID : String} {id : Nat}
    {todo : List (String × JobRow)} (hi : w.requests[i]? = some (.recording jobID id todo)) :
    Table accepts ⟨w.shared.record jobID id, w.requests.set i (.adding todo)⟩ applied where
  distinct := h.distinct
  held := by
    obtain ⟨rest, hbefore, hafter⟩ := flatMap_set_perm hi (.adding todo) (Phase.left accepts)
    exact ((hafter.trans hbefore.symm).append_left _).trans h.held
  recorded := by
    intro e he
    show (w.shared.entries.insert jobID id).lookup e.jobID = _ ∨ _
    rw [FinMap.lookup_insert_ite]
    by_cases hjob : e.jobID = jobID
    · -- the entry of the job is the one being recorded
      obtain ⟨e', he', hjob', hid'⟩ := h.recording _ _ _ (List.mem_of_getElem? hi)
      have hsame : e = e' := List.inj_on_of_nodup_map h.entries_distinct he he' (hjob.trans hjob'.symm)
      rw [if_pos hjob, hsame, hid']
      exact .inl rfl
    · rw [if_neg hjob]
      refine (h.recorded e he).imp_right ?_
      rintro ⟨todo', htodo'⟩
      refine ⟨todo', mem_set_of_ne hi htodo' fun heq => ?_⟩
      cases heq
      exact hjob rfl
  recording := by
    intro jobID' id' todo' htodo'
    rcases List.mem_or_eq_of_mem_set htodo' with htodo' | heq
    · exact h.recording _ _ _ htodo'
    · cases heq

theorem Table.arrival (h : Table accepts w applied) (a : Arrival) :
    Table accepts ⟨w.shared, w.requests ++ [arrive a]⟩ applied := by
  have hquiet : (arrive a).left accepts = [] ∧ ∀ jobID id todo, arrive a ≠ .recording jobID id todo := by
    cases a <;> exact ⟨rfl, nofun⟩
  refine ⟨h.distinct, ?_, ?_, ?_⟩
  · rw [List.flatMap_append, List.flatMap_cons, hquiet.1, List.nil_append, List.flatMap_nil,
      List.append_nil]
    exact h.held
  · intro e he
    refine (h.recorded e he).imp_right ?_
    rintro ⟨todo, htodo⟩
    exact ⟨todo, List.mem_append_left _ htodo⟩
  · intro jobID id todo htodo
    rcases List.mem_append.mp htodo with htodo | htodo
    · exact h.recording _ _ _ htodo
    · exact absurd (List.mem_singleton.mp htodo).symm (hquiet.2 _ _ _)

theorem Fresh.same (h : Fresh w applied) (hi : w.requests[i]? = some q)
    (hjobs : s.jobs = w.shared.jobs) (hversion : s.version = w.shared.version)
    (hcleared : s.cleared = w.shared.cleared) (hlisting : q ≠ .listing) (hfailed : q ≠ .failed)
    (hclearing : ∀ version jobs, q ≠ .clearing version jobs)
    (hq' : ∀ version jobs, q' ≠ .clearing version jobs) :
    Fresh ⟨s, w.requests.set i q'⟩ applied := by
  have hlist : s.listJobs = w.shared.listJobs := by rw [Shared.listJobs, hjobs, Shared.listJobs]
  refine ⟨fun version jobs hmem => ?_, ?_, ?_, ?_⟩
  · rcases List.mem_or_eq_of_mem_set hmem with hmem | heq
    · rw [hversion, hlist]
      exact h.snapshot _ _ hmem
    · exact absurd heq.symm (hq' _ _)
  · rw [hversion, hcleared]
    exact h.bounded
  · rw [hversion, hcleared, hlist]
    exact h.current
  · rw [hversion, hcleared]
    refine h.owed.imp_right (Or.imp ?_ (Or.imp ?_ ?_))
    · exact fun hmem => mem_set_of_ne hi hmem hlisting.symm
    · exact fun ⟨jobs, hmem⟩ => ⟨jobs, mem_set_of_ne hi hmem (hclearing _ _).symm⟩
    · exact fun hmem => mem_set_of_ne hi hmem hfailed.symm

theorem Fresh.change (h : Fresh w applied) {c : Change} {jobs : JobTable}
    (hi : w.requests[i]? = some (.writing c)) (hq' : q' = .listing ∨ q' = .failed) :
    Fresh ⟨w.shared.change jobs, w.requests.set i q'⟩ applied where
  snapshot version jobs' hmem := by
    rcases List.mem_or_eq_of_mem_set hmem with hmem | heq
    · obtain ⟨hle, hnodup, -⟩ := h.snapshot _ _ hmem
      exact ⟨Nat.le_succ_of_le hle, hnodup, fun heq => absurd hle (by rw [heq]; exact Nat.not_succ_le_self _)⟩
    · rcases hq' with rfl | rfl <;> cases heq
  bounded := Nat.le_succ_of_le h.bounded
  current heq := absurd h.bounded (by
    have hsucc : w.shared.cleared = w.shared.version + 1 := heq
    rw [hsucc]
    exact Nat.not_succ_le_self _)
  owed := by
    rcases hq' with rfl | rfl
    · exact .inr (.inl (mem_set_at hi _))
    · exact .inr (.inr (.inr (mem_set_at hi _)))

theorem Fresh.list (h : Fresh w applied) (hi : w.requests[i]? = some .listing)
    (hq' : q' = .clearing w.shared.version w.shared.listJobs ∨ q' = .failed) :
    Fresh ⟨w.shared, w.requests.set i q'⟩ applied where
  snapshot version jobs hmem := by
    rcases List.mem_or_eq_of_mem_set hmem with hmem | heq
    · exact h.snapshot _ _ hmem
    · rcases hq' with rfl | rfl
      · cases heq
        exact ⟨Nat.le_refl _, nodup_listJobs _, fun _ => rfl⟩
      · cases heq
  bounded := h.bounded
  current := h.current
  owed := by
    rcases hq' with rfl | rfl
    · exact .inr (.inr (.inl ⟨_, mem_set_at hi _⟩))
    · exact .inr (.inr (.inr (mem_set_at hi _)))

theorem Fresh.clear (h : Fresh w applied) {version : Nat} {jobs : List (String × JobRow)}
    (hi : w.requests[i]? = some (.clearing version jobs)) (hle : w.shared.cleared ≤ version) :
    Fresh ⟨w.shared.clear version, w.requests.set i (.adding jobs)⟩ jobs := by
  obtain ⟨hversion, -, hread⟩ := h.snapshot _ _ (List.mem_of_getElem? hi)
  refine ⟨fun version' jobs' hmem => ?_, hversion, hread, ?_⟩
  · rcases List.mem_or_eq_of_mem_set hmem with hmem | heq
    · exact h.snapshot _ _ hmem
    · cases heq
  · show version = w.shared.version ∨ _
    rcases h.owed with hcleared | hmem | ⟨jobs', hmem⟩ | hmem
    · exact .inl (Nat.le_antisymm hversion (hcleared ▸ hle))
    · exact .inr (.inl (mem_set_of_ne hi hmem nofun))
    · by_cases hsame : version = w.shared.version
      · exact .inl hsame
      · refine .inr (.inr (.inl ⟨jobs', mem_set_of_ne hi hmem fun heq => ?_⟩))
        exact hsame (Phase.clearing.inj heq).1.symm
    · exact .inr (.inr (.inr (mem_set_of_ne hi hmem nofun)))

theorem Fresh.arrival (h : Fresh w applied) (a : Arrival) :
    Fresh ⟨w.shared, w.requests ++ [arrive a]⟩ applied where
  snapshot version jobs hmem := by
    rcases List.mem_append.mp hmem with hmem | hmem
    · exact h.snapshot _ _ hmem
    · cases a <;> cases List.mem_singleton.mp hmem
  bounded := h.bounded
  current := h.current
  owed := by
    refine h.owed.imp_right (Or.imp (List.mem_append_left _) (Or.imp ?_ (List.mem_append_left _)))
    exact fun ⟨jobs, hmem⟩ => ⟨jobs, List.mem_append_left _ hmem⟩

/-- There are jobs that the runner's table and what is left to add make up, and somebody is
to bring it up to the ones in force. -/
def Inv (accepts : List Char → Bool) (w : Hall Shared Phase) : Prop :=
  ∃ applied, Table accepts w applied ∧ Fresh w applied

theorem advance_cases {b : Access} {s s' : Shared} (h : advance accepts b s q = some (s', q')) :
    (∃ jobID body fault, q = .reading jobID body ∧ b = .jobByID fault ∧ s' = s ∧
        ((∃ row, q' = .writing (.update jobID row)) ∨ q' = .refused)) ∨
      (∃ c, q = .writing c ∧
        ((∃ jobs, s' = s.change jobs ∧ (q' = .listing ∨ q' = .failed)) ∨ s' = s ∧ q' = .refused)) ∨
      (q = .listing ∧ s' = s ∧ (q' = .clearing s.version s.listJobs ∨ q' = .failed)) ∨
      (∃ version jobs, q = .clearing version jobs ∧ b = .clear ∧ s' = s.clear version ∧
        q' = .adding jobs) ∨
      (∃ todo, q = .adding todo ∧ (s', q') = addNext accepts s todo) ∨
      ∃ jobID id todo, q = .recording jobID id todo ∧ s' = s.record jobID id ∧ q' = .adding todo := by
  unfold advance at h
  split at h
  · split at h
    · cases h
      exact .inl ⟨_, _, _, rfl, rfl, rfl, .inl ⟨_, rfl⟩⟩
    · cases h
      exact .inl ⟨_, _, _, rfl, rfl, rfl, .inr rfl⟩
  · split at h
    · cases h
      exact .inr (.inl ⟨_, rfl, .inl ⟨_, rfl, .inl rfl⟩⟩)
    · cases h
      exact .inr (.inl ⟨_, rfl, .inl ⟨_, rfl, .inr rfl⟩⟩)
    · cases h
      exact .inr (.inl ⟨_, rfl, .inr ⟨rfl, rfl⟩⟩)
  · split at h
    · cases h
      exact .inr (.inr (.inl ⟨rfl, rfl, .inl rfl⟩))
    · cases h
      exact .inr (.inr (.inl ⟨rfl, rfl, .inr rfl⟩))
  · cases h
    exact .inr (.inr (.inr (.inl ⟨_, _, rfl, rfl, rfl, rfl⟩)))
  · exact .inr (.inr (.inr (.inr (.inl ⟨_, rfl, (Option.some.inj h).symm⟩))))
  · cases h
    exact .inr (.inr (.inr (.inr (.inr ⟨_, _, _, rfl, rfl, rfl⟩))))
  · cases h

theorem addNext_cases {s s' : Shared} {todo : List (String × JobRow)}
    (h : (s', q') = addNext accepts s todo) :
    (∃ jobID row rest, todo = (jobID, row) :: rest ∧ row.scheduled accepts = true ∧
        s' = s.addFunc jobID row.schedule ∧ q' = .recording jobID (s.nextID + 1) rest) ∨
      s' = s ∧ (q' = .returned ∨ ∃ rest, q' = .adding rest) ∧
        q'.left accepts = (Phase.adding todo).left accepts := by
  cases todo with
  | nil =>
    cases h
    exact .inr ⟨rfl, .inl rfl, rfl⟩
  | cons job rest =>
    obtain ⟨jobID, row⟩ := job
    have hpassed : row.scheduled accepts = false →
        (Phase.adding rest).left accepts = (Phase.adding ((jobID, row) :: rest)).left accepts := by
      intro hrow
      rw [Phase.left, Phase.left, due_cons, hrow, if_neg Bool.false_ne_true]
    rw [addNext] at h
    split at h
    · rename_i hskip
      cases h
      refine .inr ⟨rfl, .inr ⟨_, rfl⟩, hpassed ?_⟩
      rcases hskip with hoff | hspec
      · simp [JobRow.scheduled, hoff]
      · simp [JobRow.scheduled, hspec]
    · rename_i hskip
      split at h
      · rename_i haccepts
        cases h
        obtain ⟨hon, hspec⟩ := not_or.mp hskip
        refine .inl ⟨_, _, _, rfl, ?_, rfl, rfl⟩
        simp [JobRow.scheduled, not_not.mp hon, hspec, haccepts]
      · rename_i haccepts
        cases h
        exact .inr ⟨rfl, .inr ⟨_, rfl⟩, hpassed (by simp [JobRow.scheduled, haccepts])⟩

theorem Inv.initial (jobs : JobTable) : Inv accepts (initial jobs) := by
  refine ⟨[], ⟨List.nodup_nil, List.Perm.nil, nofun, fun jobID id todo hmem => ?_⟩,
    fun version jobs' hmem => ?_, Nat.zero_le _, nofun, .inr (.inl (List.mem_singleton_self _))⟩
  · cases List.mem_singleton.mp hmem
  · cases List.mem_singleton.mp hmem

theorem Inv.advance (h : Inv accepts w) {b : Access} (hi : w.requests[i]? = some q)
    (hturn : InTurn accepts w (.advance i b)) (hadv : advance accepts b w.shared q = some (s, q')) :
    Inv accepts ⟨s, w.requests.set i q'⟩ := by
  obtain ⟨applied, htable, hfresh⟩ := h
  rcases advance_cases hadv with ⟨jobID, body, fault, rfl, rfl, rfl, hq'⟩ | ⟨c, rfl, hwrite⟩ |
    ⟨rfl, rfl, hq'⟩ | ⟨version, jobs, rfl, rfl, rfl, rfl⟩ | ⟨todo, rfl, hnext⟩ |
    ⟨jobID, id, todo, rfl, rfl, rfl⟩
  · rcases hq' with ⟨row, rfl⟩ | rfl <;>
    exact ⟨applied, htable.same hi rfl rfl rfl nofun nofun,
      hfresh.same hi rfl rfl rfl nofun nofun nofun nofun⟩
  · rcases hwrite with ⟨jobs, rfl, hq'⟩ | ⟨rfl, rfl⟩
    · refine ⟨applied, ?_, hfresh.change hi hq'⟩
      rcases hq' with rfl | rfl <;> exact htable.same hi rfl rfl rfl nofun nofun
    · exact ⟨applied, htable.same hi rfl rfl rfl nofun nofun,
        hfresh.same hi rfl rfl rfl nofun nofun nofun nofun⟩
  · refine ⟨applied, ?_, hfresh.list hi hq'⟩
    rcases hq' with rfl | rfl <;> exact htable.same hi rfl rfl rfl nofun nofun
  · obtain ⟨hle, howes⟩ : w.shared.cleared ≤ version ∧ ∀ q ∈ w.requests, q.owes accepts = false := by
      simpa only [InTurn, hi] using hturn
    obtain ⟨-, hjobs, -⟩ := hfresh.snapshot _ _ (List.mem_of_getElem? hi)
    exact ⟨jobs, htable.clear hi hjobs howes, hfresh.clear hi hle⟩
  · rcases addNext_cases hnext with ⟨jobID, row, rest, rfl, hrow, rfl, rfl⟩ | ⟨rfl, hq', hleft⟩
    · exact ⟨applied, htable.add hi hrow, hfresh.same hi rfl rfl rfl nofun nofun nofun nofun⟩
    · rcases hq' with rfl | ⟨rest, rfl⟩ <;>
      exact ⟨applied, htable.same hi rfl rfl hleft nofun nofun,
        hfresh.same hi rfl rfl rfl nofun nofun nofun nofun⟩
  · exact ⟨applied, htable.record hi, hfresh.same hi rfl rfl rfl nofun nofun nofun nofun⟩

theorem Inv.of_run {ts : List (Turn Arrival Access)} {w' : Hall Shared Phase}
    (h : (service accepts).system.Run (InTurn accepts) w ts w') (hinv : Inv accepts w) :
    Inv accepts w' := by
  refine System.Run.invariant ?_ h hinv
  intro t w w' hinv hturn hstep
  rcases Service.step_cases hstep with ⟨a, rfl, rfl⟩ | ⟨i, b, q, s, q', rfl, hi, hadv, rfl⟩
  · obtain ⟨applied, htable, hfresh⟩ := hinv
    exact ⟨applied, htable.arrival a, hfresh.arrival a⟩
  · exact hinv.advance hi hturn hadv

theorem filter_entries (jobs : JobTable) (jobID : String) :
    (jobs.entries.map fun e => (e.1, e.2)).filter (fun j => j.1 = jobID) =
      match jobs.lookup jobID with
      | some row => [(jobID, row)]
      | none => [] := by
  obtain ⟨entries, nodup⟩ := jobs
  simp only [AList.lookup]
  induction entries with
  | nil => rfl
  | cons e es ih =>
    obtain ⟨a, row⟩ := e
    obtain ⟨hnot, hes⟩ := List.nodupKeys_cons.mp nodup
    rw [List.map_cons, List.filter_cons]
    by_cases h : a = jobID
    · subst h
      rw [if_pos (decide_eq_true rfl), List.dlookup_cons_eq, ih hes,
        List.dlookup_eq_none.mpr hnot]
    · rw [if_neg (by simpa using h), List.dlookup_cons_ne _ _ (Ne.symm h), ih hes]

theorem due_of_job (s : Shared) (jobID : String) :
    (due accepts s.listJobs).filter (fun k => k.1 = jobID) =
      match s.jobs.lookup jobID with
      | some row => if row.scheduled accepts then [row.key jobID] else []
      | none => [] := by
  have hswap : (due accepts s.listJobs).filter (fun k => k.1 = jobID) =
      due accepts (s.listJobs.filter fun j => j.1 = jobID) := by
    rw [due, due, List.filter_map, List.filter_filter, List.filter_filter]
    refine congrArg _ (List.filter_congr fun j _ => ?_)
    exact Bool.and_comm _ _
  rw [hswap, Shared.listJobs, filter_entries]
  cases s.jobs.lookup jobID with
  | none => rfl
  | some row =>
    show due accepts [(jobID, row)] = _
    rw [due_cons]
    rfl

theorem eq_of_perm_option {α : Type} {l : List α} {b : Bool} {a : α}
    (h : l.Perm (if b then [a] else [])) : l = if b then [a] else [] := by
  cases b
  · exact List.perm_nil.mp h
  · exact List.perm_singleton.mp h

theorem Inv.follows (h : Inv accepts w) (hquiet : Quiet w) : Follows accepts w.shared := by
  obtain ⟨applied, htable, hfresh⟩ := h
  have hno : ∀ q ∈ w.requests, q ≠ .returned → q ≠ .refused → False := fun q hq hreturned hrefused =>
    (hquiet q hq).elim hreturned hrefused
  have hcleared : w.shared.cleared = w.shared.version := by
    rcases hfresh.owed with hcleared | hmem | ⟨jobs, hmem⟩ | hmem
    · exact hcleared
    · exact (hno _ hmem nofun nofun).elim
    · exact (hno _ hmem nofun nofun).elim
    · exact (hno _ hmem nofun nofun).elim
  have hnone : w.requests.flatMap (Phase.left accepts) = [] := by
    refine List.flatMap_eq_nil_iff.mpr fun q hq => ?_
    rcases hquiet q hq with rfl | rfl <;> rfl
  have hheld := htable.held
  rw [hnone, List.append_nil, hfresh.current hcleared] at hheld
  intro jobID
  have hjob := hheld.filter fun k : Key => decide (k.1 = jobID)
  rw [due_of_job, List.filter_map] at hjob
  cases hlookup : w.shared.jobs.lookup jobID with
  | none =>
    rw [hlookup] at hjob
    exact List.perm_nil.mp hjob
  | some row =>
    rw [hlookup] at hjob
    exact eq_of_perm_option hjob

theorem follows_of_inTurn (accepts : List Char → Bool) (jobs : JobTable)
    {ts : List (Turn Arrival Access)} {w : Hall Shared Phase}
    (h : (service accepts).system.Run (InTurn accepts) (initial jobs) ts w) (hquiet : Quiet w) :
    Follows accepts w.shared :=
  (Inv.of_run h (Inv.initial jobs)).follows hquiet

def hourly : Schedule := ⟨.hourly, 0, "", [], 0, ""⟩

def oneJob : JobTable := (∅ : JobTable).insert "job1" ⟨true, hourly⟩

def reload (i : Nat) : List (Turn Arrival Access) :=
  [.advance i .clear, .advance i .add, .advance i .record, .advance i .add]

def patches : List (Turn Arrival Access) :=
  .advance 0 (.listJobs none) :: reload 0 ++
    [.arrive (.patchJob "job1" ⟨some true, none⟩), .arrive (.patchJob "job1" ⟨some true, none⟩),
      .advance 1 (.jobByID none), .advance 2 (.jobByID none), .advance 1 (.write .done),
      .advance 2 (.write .done), .advance 1 (.listJobs none), .advance 2 (.listJobs none)]

theorem follows_of_inTurn_patches : ∃ w,
    (service fun _ => true).system.Run (InTurn fun _ => true) (initial oneJob)
      (patches ++ (reload 1 ++ reload 2)) w ∧
    Quiet w ∧ Follows (fun _ => true) w.shared ∧ w.shared.cron.length = 1 := by
  obtain ⟨w, hfollow, hquiet, hlen⟩ : ∃ w,
      (service fun _ => true).system.follow (patches ++ (reload 1 ++ reload 2)) (initial oneJob) = some w ∧
        Quiet w ∧ w.shared.cron.length = 1 := ⟨_, rfl, by decide +kernel, rfl⟩
  have hrun : (service fun _ => true).system.Run (InTurn fun _ => true) (initial oneJob)
      (patches ++ (reload 1 ++ reload 2)) w :=
    System.run_of_trail (p := fun x => decide (InTurn (fun _ => true) x.1 x.2))
      (fun _ _ h => of_decide_eq_true h) hfollow (by decide +kernel)
  exact ⟨w, hrun, hquiet, follows_of_inTurn _ _ hrun hquiet, hlen⟩

/-- Both reloads clear before either adds: the job fires twice. -/
theorem crossed_reloads_double : ∃ w,
    (service fun _ => true).system.Run (fun _ _ => True) (initial oneJob)
      (patches ++ [.advance 1 .clear, .advance 2 .clear, .advance 1 .add, .advance 1 .record,
        .advance 1 .add, .advance 2 .add, .advance 2 .record, .advance 2 .add]) w ∧
    Quiet w ∧ w.shared.cron.length = 2 ∧ ¬ Follows (fun _ => true) w.shared := by
  refine ⟨_, System.run_of_follow (fun _ _ _ => trivial) rfl, by decide +kernel, rfl, fun h => ?_⟩
  have hlen := congrArg List.length (h "job1")
  exact absurd hlen (by decide +kernel)

end ProxBack.Sched.Reload
