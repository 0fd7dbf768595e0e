import ProxBack.Sched.ExecuteRuns
import ProxBack.Sched.Scripts

/-! The scripts of a policy guard the data: what an attempt's calls and replies say of the
scripts of the source at hand, and which attempts let no data by them. -/
namespace ProxBack.Sched.Scripts
open Lib Text Prog Engine Store Execute
open Guest (VmPlan)

abbrev Event := Σ c : Call, Reply c

/-- What the events so far say: whether each script of the source at hand succeeded, for
the post-script since its data last moved, and the sources begun and reported successful. -/
structure Watch where
  pre : Bool
  post : Bool
  begun : List Nat
  succeeded : List Nat
deriving DecidableEq, Repr

namespace Watch

def fresh : Watch := ⟨false, false, [], []⟩

def ran (w : Watch) : Phase → Bool
  | .pre => w.pre
  | .post => w.post

def success (w : Watch) : Phase → Watch
  | .pre => { w with pre := true }
  | .post => { w with post := true }

def moved (w : Watch) : Watch := { w with post := false }

end Watch

def Call.Moves : Call → Prop
  | .exec (.guest (.exportDisk _)) | .exec (.guest .exportGuest)
  | .exec (.guest (.backupStream _ _)) | .agent (.writeTar _ _) | .agent (.uploadChunk _ _ _ _) =>
    True
  | _ => False

instance : DecidablePred Call.Moves := fun c => by unfold Call.Moves; split <;> infer_instance

def note (s : DataPolicy) (w : Watch) : Event → Watch
  | ⟨.exec (.beginSource i), _⟩ => { w with pre := false, post := false, begun := i :: w.begun }
  | ⟨.exec (.finishSource i .success), _⟩ => { w with succeeded := i :: w.succeeded }
  | ⟨.shell phase script, .ok ()⟩ => if script = s.script phase then w.success phase else w
  | ⟨c, _⟩ => if c.Moves then w.moved else w

def Done (s : DataPolicy) (phase : Phase) (w : Watch) : Prop :=
  s.script phase = "" ∨ w.ran phase = true

/-- Data moves after the pre-script, and success is reported after the post-script. -/
def Allowed (s : DataPolicy) (c : Call) (w : Watch) : Prop :=
  (c.Moves → Done s .pre w) ∧ ∀ i, c = .exec (.finishSource i .success) → Done s .post w

/-- Wherever an attempt stops, every step of it was allowed; and one that comes to its end
without an error has reported the success of every source it began. -/
def Guarded (s : DataPolicy) (p : ScriptM (Option Execute.Err)) : Prop :=
  ∀ log q, Logs p log q →
    (∀ l₁ ev l₂, log = l₁ ++ ev :: l₂ → Allowed s ev.1 (l₁.foldl (note s) .fresh)) ∧
    (q = .ret none → ∀ i ∈ (log.foldl (note s) .fresh).begun,
      i ∈ (log.foldl (note s) .fresh).succeeded)

variable {s : DataPolicy} {w w' : Watch}

abbrev Watched (s : DataPolicy) {α : Type} (post : α → Watch → Prop) (p : ScriptM α) (w : Watch) :
    Prop :=
  Wp (Keeping (note s)) (Allowed s) post p w

def AllReported (res : Option Execute.Err) (w : Watch) : Prop :=
  res = none → ∀ i ∈ w.begun, i ∈ w.succeeded

theorem guarded_of_watched {p : ScriptM (Option Execute.Err)} (h : Watched s AllReported p .fresh) :
    Guarded s p := by
  intro log q hlog
  obtain ⟨hsteps, hrest⟩ := h.kept hlog
  refine ⟨hsteps, ?_⟩
  rintro rfl
  exact hrest rfl

def Quiet (s : DataPolicy) (c : Call) : Prop :=
  (∀ w, Allowed s c w) ∧ ∀ w r, note s w ⟨c, r⟩ = w

theorem wp_quiet {α : Type} {post : α → Watch → Prop} {c : Call} {k : Reply c → ScriptM α}
    (hc : Quiet s c) (h : ∀ r, Watched s post (k r) w) : Watched s post (.call c k) w := by
  refine wp_call_keeping.mpr ⟨hc.1 w, fun r => ?_⟩
  rw [hc.2]
  exact h r

theorem quiet_wp {α : Type} {Q : α → Prop} {post : α → Watch → Prop} {p : ScriptM α}
    (h : Ends (Quiet s) Q p) (hpost : ∀ a, Q a → post a w) : Watched s post p w := by
  induction p with
  | ret a => exact hpost a h
  | call c k ih => exact wp_quiet h.1 fun r => ih r (h.2 r () trivial)

def Still : Execute.Call → Prop
  | .guest (.exportDisk _) | .guest .exportGuest | .guest (.backupStream _ _) | .beginSource _
  | .finishSource _ _ => False
  | _ => True

theorem Still.quiet {c : Execute.Call} (h : Still c) : Quiet s (.exec c) := by
  refine ⟨fun w => ⟨?_, ?_⟩, fun w r => ?_⟩
  · cases c with
    | guest c => cases c <;> first | exact absurd h id | exact nofun
    | _ => exact nofun
  · rintro i hi
    cases hi
    exact absurd h id
  · cases c with
    | guest c => cases c <;> first | exact absurd h id | rfl
    | beginSource i => exact absurd h id
    | finishSource i status => exact absurd h id
    | _ => rfl

def Data : Guest.Call → Prop
  | .exportDisk _ | .exportGuest | .backupStream _ _ => True
  | _ => False

structure Extends (s : DataPolicy) (w w' : Watch) : Prop where
  begun : w'.begun = w.begun
  succeeded : w'.succeeded = w.succeeded
  pre : Done s .pre w → Done s .pre w'

theorem Extends.refl (s : DataPolicy) (w : Watch) : Extends s w w := ⟨rfl, rfl, id⟩

theorem Extends.trans {w'' : Watch} (h : Extends s w w') (h' : Extends s w' w'') :
    Extends s w w'' :=
  ⟨h'.begun.trans h.begun, h'.succeeded.trans h.succeeded, h'.pre ∘ h.pre⟩

def Told (s : DataPolicy) : (c : Guest.Call) → Watch → Guest.Reply c → Watch → Prop
  | .sched (.script phase), w, r, w' => Extends s w w' ∧ (r = .ok () → Done s phase w')
  | .exportDisk _, w, _, w' => Extends s w w'
  | .exportGuest, w, _, w' => Extends s w w'
  | .backupStream _ _, w, _, w' => Extends s w w'
  | _, w, _, w' => w' = w

theorem Told.extends {c : Guest.Call} {r : Guest.Reply c} (h : Told s c w r w') :
    Extends s w w' := by
  unfold Told at h
  split at h
  · exact h.1
  · exact h
  · exact h
  · exact h
  · rw [h]
    exact .refl s w

theorem extends_moved (s : DataPolicy) (w : Watch) : Extends s w w.moved := ⟨rfl, rfl, id⟩

theorem extends_success (s : DataPolicy) (phase : Phase) (w : Watch) :
    Extends s w (w.success phase) := by
  cases phase with
  | pre => exact ⟨rfl, rfl, fun _ => .inr rfl⟩
  | post => exact ⟨rfl, rfl, id⟩

theorem done_success (s : DataPolicy) (phase : Phase) (w : Watch) : Done s phase (w.success phase) := by
  cases phase <;> exact .inr rfl

/-- The end of `runHelperScript`. -/
def readScriptAnswer (resp : Response) : ScriptM (Except ScriptErr Unit) :=
  .call .readResponse fun
  | some f => .ret (.error (.transport f))
  | none => .ret (decodeResponse resp)

theorem runVMScript_watched (p : VmPlan) (phase : Phase) (w : Watch) :
    Watched s (fun r w' => Extends s w w' ∧ (r = .ok () → Done s phase w')) (runVMScript s p phase)
      w := by
  have hreq : Quiet s (.postScript phase) := ⟨fun _ => ⟨by rintro ⟨⟩, by rintro _ ⟨⟩⟩, fun _ _ => rfl⟩
  have hread : Quiet s .readResponse := ⟨fun _ => ⟨by rintro ⟨⟩, by rintro _ ⟨⟩⟩, fun _ _ => rfl⟩
  -- an answer that is not of a script that ran reports no success
  have hfailed : ∀ resp : Response, resp.body ≠ some ⟨true⟩ →
      Watched s (fun r w' => Extends s w w' ∧ (r = .ok () → Done s phase w'))
        (readScriptAnswer resp) w := by
    intro resp hbody
    refine wp_quiet hread ?_
    rintro (- | f)
    · refine ⟨.refl s w, fun hok => ?_⟩
      unfold decodeResponse at hok
      split at hok
      · cases hok
      · split at hok
        · cases hok
        · rename_i out hout
          split at hok
          · cases hok
          · rename_i h
            obtain ⟨ok⟩ := out
            simp only [not_or, not_not] at h
            have hok' : ok = true := h.2
            rw [hout, hok'] at hbody
            exact absurd rfl hbody
    · exact ⟨.refl s w, by simp⟩
  unfold runVMScript
  by_cases hempty : s.script phase = ""
  · rw [if_pos hempty]
    exact ⟨.refl s w, fun _ => .inl hempty⟩
  rw [if_neg hempty]
  by_cases hhelper : p.helper
  · rw [if_neg (by simp [hhelper])]
    refine wp_quiet hreq ?_
    rintro (f | - | - | - | -)
    · exact ⟨.refl s w, by simp⟩
    · exact hfailed ⟨404, none⟩ (by simp)
    · exact hfailed (writeErr 401) (by rintro ⟨⟩)
    · exact hfailed (writeErr 400) (by rintro ⟨⟩)
    · refine (wp_bind _ _ w).mpr ?_
      show Watched s _ (handleScript phase (s.script phase)) w
      unfold handleScript
      split
      · exact hfailed (writeErr 400) (by rintro ⟨⟩)
      · refine wp_call_keeping.mpr ⟨⟨by rintro ⟨⟩, by rintro _ ⟨⟩⟩, ?_⟩
        rintro (err | ⟨⟩)
        · exact hfailed ⟨200, some ⟨false⟩⟩ (by simp)
        · have hnote : note s w ⟨.shell phase (s.script phase), .ok ()⟩ = w.success phase := if_pos rfl
          rw [hnote]
          refine wp_quiet hread ?_
          rintro (- | f)
          · exact ⟨extends_success s phase w, fun _ => done_success s phase w⟩
          · exact ⟨extends_success s phase w, by simp⟩
  · rw [if_pos hhelper]
    exact ⟨.refl s w, by simp⟩

theorem onGuest_watched (p : VmPlan) (c : Guest.Call) (w : Watch) (hdata : Data c → Done s .pre w) :
    Watched s (fun r w' => Told s c w r w') (onGuest s p c) w := by
  have hmove : ∀ c : Guest.Call, Data c → (Data c → Done s .pre w) →
      (∀ r w', Extends s w w' → Told s c w r w') →
      Watched s (fun r w' => Told s c w r w') (.call (.exec (.guest c)) .ret) w := by
    intro c hc hdata htold
    have hmoves : (Call.exec (.guest c)).Moves := by cases c <;> exact hc
    refine wp_call_keeping.mpr ⟨⟨fun _ => hdata hc, nofun⟩, fun r => htold r _ ?_⟩
    have hnote : note s w ⟨.exec (.guest c), r⟩ = w.moved := by
      show (if _ then _ else _) = _
      exact if_pos hmoves
    rw [hnote]
    exact extends_moved s w
  have hstill : ∀ c : Guest.Call, Still (.guest c) → (∀ r, Told s c w r w) →
      Watched s (fun r w' => Told s c w r w') (.call (.exec (.guest c)) .ret) w :=
    fun c hc htold => wp_quiet hc.quiet htold
  cases c with
  | sched c =>
    cases c with
    | script phase =>
      refine (wp_bind _ _ w).mpr ((runVMScript_watched p phase w).post_mono ?_)
      rintro (err | ⟨⟩) w' ⟨hext, hdone⟩
      · exact ⟨hext, nofun⟩
      · exact ⟨hext, fun _ => hdone rfl⟩
    | _ => exact hstill _ trivial fun _ => rfl
  | exportDisk disk => exact hmove _ trivial hdata fun _ _ => id
  | exportGuest => exact hmove _ trivial hdata fun _ _ => id
  | backupStream name script => exact hmove _ trivial hdata fun _ _ => id
  | _ => exact hstill _ trivial fun _ => rfl

abbrev GuestWatched (s : DataPolicy) {α : Type} (post : α → Watch → Prop) (p : Guest.GuestM α)
    (w : Watch) : Prop :=
  Wp (Told s) (fun c w => Data c → Done s .pre w) post p w

theorem exported_watched (p : VmPlan) (h : Done s .pre w) :
    GuestWatched s (fun _ w' => Extends s w w') (Guest.exported p) w :=
  (calls_true _).wp_invariant (fun _ _ _ hw => ⟨fun _ => hw.pre h, fun _ _ ht => hw.trans ht.extends⟩)
    (.refl s w)

theorem sched_watched {α : Type} {p : SchedM α} (h : Calls (fun c => ∀ phase, c ≠ .script phase) p) :
    Wp (fun c s' r s'' => Told s (.sched c) s' r s'') (fun _ _ => True) (fun _ w' => w' = w) p w := by
  refine h.wp_invariant ?_ rfl
  rintro c w' hc rfl
  refine ⟨trivial, fun r w'' ht => ?_⟩
  cases c with
  | script phase => exact absurd rfl (hc phase)
  | _ => exact ht

theorem recordBackup_watched (s : DataPolicy) (job : Job) (runID : String) (p : Sched.Plan) (out : Exported) :
    Wp (fun c s' r s'' => Told s (.sched c) s' r s'') (fun _ _ => True)
      (fun err w' => Extends s w w' ∧ (err = none → Done s .post w'))
      (recordBackup job runID .vm p out <|
        .call (.script .post) fun
        | .error f => .ret (some (.script .post f))
        | .ok () => applyRetention job.targetID job.retention .vm p.sourceID) w := by
  refine (wp_bind _ _ _).mpr ((sched_watched (parentFor_calls nofun)).post_mono ?_)
  rintro (err | parentID) w₁ rfl
  · exact ⟨.refl s w₁, nofun⟩
  refine ⟨trivial, fun backupID w₂ ht => ?_⟩
  obtain rfl : w₂ = w₁ := ht
  refine ⟨trivial, fun createdAt w₃ ht => ?_⟩
  obtain rfl : w₃ = w₂ := ht
  refine ⟨trivial, ?_⟩
  rintro (err | ⟨⟩) w₄ ht
  · obtain rfl : w₄ = w₃ := ht
    exact ⟨.refl s w₄, nofun⟩
  obtain rfl : w₄ = w₃ := ht
  refine ⟨trivial, ?_⟩
  rintro (err | ⟨⟩) w₅ ht
  · obtain rfl : w₅ = w₄ := ht
    exact ⟨.refl s w₅, nofun⟩
  obtain rfl : w₅ = w₄ := ht
  refine ⟨trivial, ?_⟩
  rintro (f | ⟨⟩) w₆ ⟨hext, hdone⟩
  · exact ⟨hext, nofun⟩
  refine (sched_watched (applyRetention_calls (fun _ => nofun) (fun _ => nofun) (fun _ => nofun)
    (fun _ => nofun) ..)).post_mono ?_
  rintro res w₇ rfl
  exact ⟨hext, fun _ => hdone rfl⟩

theorem backupOneVM_told (job : Job) (runID : String) (p : VmPlan) (before : Stats) (w : Watch) :
    GuestWatched s (fun res w' => Extends s w w' ∧ (res = none → Done s .post w'))
      (Guest.backupOneVM job runID p before) w := by
  refine ⟨nofun, ?_⟩
  rintro (f | ⟨⟩) w₁ ⟨hext, hdone⟩
  · exact ⟨hext, nofun⟩
  refine (wp_bind _ _ _).mpr ((exported_watched p (hdone rfl)).post_mono ?_)
  rintro (err | disks) w₂ hext₂
  · exact ⟨hext.trans hext₂, nofun⟩
  refine ⟨nofun, fun after w₃ ht => ?_⟩
  obtain rfl : w₃ = w₂ := ht
  refine (wp_bind _ _ _).mpr (Wp.lift ((recordBackup_watched s job runID _ _).mono ?_ ?_ ?_))
  · rintro c s' r s'' ⟨r', rfl, ht⟩
    exact ht
  · exact fun _ _ _ => nofun
  · rintro (- | err) w₄ ⟨hext₄, hpost⟩
    · exact ⟨(hext.trans hext₂).trans hext₄, fun _ => hpost rfl⟩
    · exact ⟨(hext.trans hext₂).trans hext₄, nofun⟩

theorem backupOneVM_watched (job : Job) (runID : String) (p : VmPlan) (before : Stats) (w : Watch) :
    Watched s (fun res w' => Extends s w w' ∧ (res = none → Done s .post w'))
      (backupOneVM s job runID p before) w :=
  (backupOneVM_told job runID p before w).interp fun c w' hdata => onGuest_watched p c w' hdata

theorem sourceOutcome_success {res : Option Execute.Err} (h : sourceOutcome res = .success) :
    res = none := by
  cases res with
  | none => rfl
  | some err =>
    unfold sourceOutcome at h
    dsimp only at h
    split at h <;> cases h

theorem wp_finishSource {α : Type} {post : α → Watch → Prop} {i : Nat} {res : Option Execute.Err}
    {k : Unit → ScriptM α} (hres : res = none → Done s .post w)
    (hok : res = none → Watched s post (k ()) { w with succeeded := i :: w.succeeded })
    (herr : res ≠ none → Watched s post (k ()) w) :
    Watched s post (.call (.exec (.finishSource i (sourceOutcome res))) k) w := by
  refine wp_call_keeping.mpr ⟨⟨nofun, fun i' hi => ?_⟩, fun _ => ?_⟩
  · obtain ⟨-, hsuccess⟩ := Execute.Call.finishSource.inj (Call.exec.inj hi)
    exact hres (sourceOutcome_success hsuccess)
  · cases res with
    | none => exact hok rfl
    | some err =>
      have hnote : note s w ⟨.exec (.finishSource i (sourceOutcome (some err))), ()⟩ = w := by
        unfold sourceOutcome
        dsimp only
        cases err.canceled <;> rfl
      rw [hnote]
      exact herr nofun

theorem backupLoop_watched (job : Job) (runID : String) (i : Nat) (plans : List VmPlan)
    (hw : ∀ i ∈ w.begun, i ∈ w.succeeded) :
    Watched s AllReported (backupLoop s job runID i plans) w := by
  induction plans generalizing i w with
  | nil => exact fun _ => hw
  | cons p rest ih =>
    refine wp_quiet (Still.quiet trivial) ?_
    rintro (- | f)
    · refine wp_quiet (Still.quiet trivial) fun before => ?_
      refine wp_call_keeping.mpr ⟨⟨nofun, nofun⟩, fun _ => ?_⟩
      refine (wp_bind _ _ _).mpr ((backupOneVM_watched job runID p before _).post_mono ?_)
      rintro res w' ⟨hext, hdone⟩
      refine wp_finishSource (fun h => hdone ?_) ?_ ?_
      · cases res with
        | none => rfl
        | some err => cases h
      · intro hres
        cases res with
        | some err => cases hres
        | none =>
          refine ih (i + 1) fun k hk => ?_
          rw [hext.begun] at hk
          rcases List.mem_cons.mp hk with rfl | hk
          · exact List.mem_cons_self
          · exact List.mem_cons_of_mem _ (hext.succeeded ▸ hw k hk)
      · intro hres
        cases res with
        | none => exact absurd rfl hres
        | some err => exact nofun
    · exact nofun

variable {sha256 : Bytes → Sha} {lower : Char → Char} {e : Engine} {j : BackupJob} {runID : String}

theorem exec_quiet {α : Type} {Q : α → Prop} {p : ExecM α} (h : Ends Still Q p) :
    Ends (Quiet s) Q (exec p) :=
  Wp.lift (h.mono (fun _ _ _ _ _ => trivial) (fun _ _ hc => hc.quiet) fun _ _ => id)

theorem backupVMJob_watched (hw : ∀ i ∈ w.begun, i ∈ w.succeeded) :
    Watched s AllReported (backupVMJob lower s j runID) w := by
  have hplan : Ends Still (fun _ => True) (planVMJob lower j) :=
    .of_calls (planVMJob_calls trivial fun c hc => by cases c <;> trivial) fun _ => trivial
  refine (wp_bind _ _ _).mpr (quiet_wp (exec_quiet hplan) ?_)
  rintro (err | plans) -
  · exact nofun
  · exact wp_quiet (Still.quiet trivial) fun _ => backupLoop_watched j.job runID 0 plans hw

theorem endAttempt_ends (targetID : String) (err : Option Execute.Err) :
    Ends Still (fun res => res = err) (Execute.endAttempt e targetID err) := by
  refine ⟨trivial, fun idle _ _ => ?_⟩
  show Ends Still _ (if _ then _ else _)
  split
  · rfl
  refine ⟨trivial, ?_⟩
  rintro (- | f) _ -
  · have hgc : Ends Still (fun _ => True) (Execute.sched (onTarget targetID e.gc)) :=
      .of_calls (Calls.lift (Calls.lift ((calls_true _).mono fun _ _ => trivial))) fun _ => trivial
    exact hgc.bind fun _ _ => rfl
  · rfl

theorem backupAttempt_watched
    (h : Watched s AllReported (backupJob sha256 lower s j runID) .fresh) :
    Watched s AllReported (backupAttempt sha256 lower s e j runID) .fresh := by
  refine wp_quiet (Still.quiet trivial) ?_
  rintro (err | ⟨⟩)
  · exact nofun
  refine wp_quiet (Still.quiet trivial) fun _ => ?_
  refine (wp_bind _ _ _).mpr (h.post_mono fun err w herr => ?_)
  refine quiet_wp (exec_quiet (endAttempt_ends _ err)) ?_
  rintro res rfl
  exact herr

end ProxBack.Sched.Scripts
