import ProxBack.Engine.GcSafe

/-! The chunk index under failures. Objects and rows are written one after the
other, so what a failed or interrupted operation leaves behind depends on the
order. Every order in the engine is safe except one: a pass deletes an object
before it drops the row. -/
namespace ProxBack.Engine
open Lib Prog

abbrev Event := Target.machine.Event

def Choice.TakesEffect (x : Choice) : Prop := x.fault = none ∨ x.applied = true

instance (x : Choice) : Decidable x.TakesEffect := inferInstanceAs (Decidable (_ ∨ _))

/-- Whenever the object of an indexed chunk is deleted, the very next call drops
its row, and does take effect. -/
def NotTorn : Target → List Event → Prop
  | _, [] => True
  | t, (c, x) :: rest =>
    (∀ sha, c = .delete sha → x.TakesEffect → t.Indexed sha →
      ∃ y rest', rest = (.deleteChunk sha, y) :: rest' ∧ y.TakesEffect) ∧
    NotTorn (Target.exec c x t).2 rest

def AddsPresent (c : Call) (t : Target) : Prop :=
  ∀ sha size, c = .addChunk sha size → t.Present sha

theorem putChunk_addsPresent (e : Engine) (sha : Sha) (data : Bytes) (t : Target) :
    Wp Target.machine.T AddsPresent (fun _ _ => True) (e.putChunk sha data) t := by
  refine ⟨nofun, fun r t₁ _ => ?_⟩
  match r with
  | .error err => trivial
  | .ok true => trivial
  | .ok false =>
    refine ⟨nofun, fun r t₂ hhead => ?_⟩
    match r with
    | .error err => trivial
    | .ok (some size) =>
      have hsame : t₂ = t₁ := T_reads hhead trivial
      refine ⟨?_, fun r _ _ => by cases r <;> trivial⟩
      rintro _ _ ⟨rfl, rfl⟩
      rw [hsame]
      exact T_head_some hhead
    | .ok none =>
      refine ⟨nofun, fun r t₃ _ => ?_⟩
      match r with
      | .error err => trivial
      | .ok () =>
        refine ⟨nofun, fun r t₄ hput => ?_⟩
        match r with
        | .error err => trivial
        | .ok () =>
          obtain ⟨stamp, rfl⟩ := T_put hput
          refine ⟨?_, fun r _ _ => by cases r <;> trivial⟩
          rintro _ _ ⟨rfl, rfl⟩
          exact (t₃.present_putObject _ _ _ _).mpr (.inl rfl)

theorem hasChunk_addsPresent (sha : Sha) (t : Target) :
    Wp Target.machine.T AddsPresent (fun _ _ => True) (hasChunk sha) t := by
  refine ⟨nofun, fun r t₁ _ => ?_⟩
  match r with
  | .error err => trivial
  | .ok true => trivial
  | .ok false =>
    refine ⟨nofun, fun r t₂ hhead => ?_⟩
    match r with
    | .error err => trivial
    | .ok none => trivial
    | .ok (some size) =>
      have hsame : t₂ = t₁ := T_reads hhead trivial
      refine ⟨?_, fun r _ _ => by cases r <;> trivial⟩
      rintro _ _ ⟨rfl, rfl⟩
      rw [hsame]
      exact T_head_some hhead

private theorem sync_forChunks (shas : List Sha) (n : Nat) (t : Target) :
    Wp Target.machine.T AddsPresent (fun _ _ => True) (forChunks syncVisit shas n) t := by
  induction shas generalizing n t with
  | nil => trivial
  | cons sha rest ih =>
    refine ⟨nofun, fun r t₁ hwalk => ?_⟩
    match r with
    | .error err => trivial
    | .ok none => exact ih n t₁
    | .ok (some o) =>
      have hsame : t₁ = t := T_reads hwalk trivial
      obtain ⟨hsha, hpresent⟩ := T_walkChunk hwalk
      refine (wp_bind _ _ _).mpr ⟨?_, fun r t₂ _ => ?_⟩
      · rintro _ _ ⟨rfl, rfl⟩
        rw [hsame, hsha]
        exact hpresent
      · match r with
        | .error err => trivial
        | .ok () => exact ih (n + 1) t₂

theorem syncChunkIndex_addsPresent (t : Target) :
    Wp Target.machine.T AddsPresent (fun _ _ => True) syncChunkIndex t := by
  refine ⟨nofun, fun r t₁ _ => ?_⟩
  match r with
  | .error err => trivial
  | .ok shas =>
    refine (wp_bind _ _ _).mpr ((sync_forChunks shas 0 t₁).post_mono ?_)
    rintro ⟨n, err⟩ _ _
    cases err <;> trivial

theorem gc_addsPresent (e : Engine) (t : Target) :
    Wp Target.machine.T AddsPresent (fun _ _ => True) e.gc t := by
  have hcalls : Calls (fun c => ∀ sha size, c ≠ .addChunk sha size) e.gc := by
    apply gc_calls e
    · rintro c hc sha size rfl
      exact hc
    · exact nofun
    · exact nofun
  refine (hcalls.wp t).mono (fun _ _ _ _ => id) ?_ (fun _ _ => id)
  rintro c s hc sha size rfl
  exact absurd rfl (hc sha size)

theorem putChunk_calls (e : Engine) (sha : Sha) (data : Bytes) {P : Call → Prop}
    (hread : ∀ c : Call, c.Reads → P c) (hput : P (.put sha (e.body data)))
    (hadd : P (.addChunk sha data.length)) : Calls P (e.putChunk sha data) := by
  refine ⟨hread _ trivial, fun r => ?_⟩
  match r with
  | .error err => trivial
  | .ok true => trivial
  | .ok false =>
    refine ⟨hread _ trivial, fun r => ?_⟩
    match r with
    | .error err => trivial
    | .ok (some size) => exact ⟨hadd, fun r => by cases r <;> trivial⟩
    | .ok none =>
      refine ⟨hread _ trivial, fun r => ?_⟩
      match r with
      | .error err => trivial
      | .ok () =>
        refine ⟨hput, fun r => ?_⟩
        match r with
        | .error err => trivial
        | .ok () => exact ⟨hadd, fun r => by cases r <;> trivial⟩

theorem hasChunk_calls (sha : Sha) {P : Call → Prop} (hread : ∀ c : Call, c.Reads → P c)
    (hadd : ∀ size, P (.addChunk sha size)) : Calls P (hasChunk sha) := by
  refine ⟨hread _ trivial, fun r => ?_⟩
  match r with
  | .error err => trivial
  | .ok true => trivial
  | .ok false =>
    refine ⟨hread _ trivial, fun r => ?_⟩
    match r with
    | .error err => trivial
    | .ok none => trivial
    | .ok (some size) => exact ⟨hadd size, fun r => by cases r <;> trivial⟩

theorem syncChunkIndex_calls {P : Call → Prop} (hread : ∀ c : Call, c.Reads → P c)
    (hadd : ∀ sha size, P (.addChunk sha size)) : Calls P syncChunkIndex := by
  have hwalk : ∀ shas n, Calls P (forChunks syncVisit shas n) := by
    intro shas
    induction shas with
    | nil => exact fun n => trivial
    | cons sha rest ih =>
      intro n
      refine ⟨hread _ trivial, fun r => ?_⟩
      match r with
      | .error err => trivial
      | .ok none => exact ih n
      | .ok (some o) =>
        refine Calls.bind ⟨hadd _ _, fun r => by cases r <;> trivial⟩ ?_
        rintro ⟨n, err⟩
        cases err with
        | some err => trivial
        | none => exact ih n
  refine ⟨hread _ trivial, fun r => ?_⟩
  match r with
  | .error err => trivial
  | .ok shas =>
    refine (hwalk shas 0).bind ?_
    rintro ⟨n, err⟩
    cases err <;> trivial

inductive Episode (t : Target) (es : List Event) (t' : Target) : Prop where
  | putChunk (e : Engine) (sha : Sha) (data : Bytes) (q : EngineM (Except Err Nat))
      (h : Steps Target.machine (e.putChunk sha data) t es q t')
  | hasChunk (sha : Sha) (q : EngineM (Except Err Bool))
      (h : Steps Target.machine (hasChunk sha) t es q t')
  | gc (e : Engine) (q : EngineM (GCResult × Option Err))
      (h : Steps Target.machine e.gc t es q t')
  | syncChunkIndex (q : EngineM (Except Err Nat))
      (h : Steps Target.machine syncChunkIndex t es q t')

def Settled (t : Target) (es : List Event) : Prop :=
  ∀ sha, t.Indexed sha → t.Present sha ∨
    ∃ y rest, es = (.deleteChunk sha, y) :: rest ∧ y.TakesEffect

@[simp] theorem settled_nil (t : Target) : Settled t [] ↔ t.Sound := by
  simp [Settled, Target.Sound]

theorem Settled.sound {t : Target} {c : Call} {x : Choice} {rest : List Event}
    (h : Settled t ((c, x) :: rest)) (hc : ∀ sha, c = .deleteChunk sha → ¬ x.TakesEffect) :
    t.Sound := by
  intro sha hsha
  rcases h sha hsha with h | ⟨y, rest', heq, hy⟩
  · exact h
  · cases heq
    exact absurd hy (hc sha rfl)

theorem Target.Sound.settled {t : Target} (h : t.Sound) (es : List Event) : Settled t es :=
  fun sha hsha => .inl (h sha hsha)

/-- One call: with rows added only for present objects, and no deletion torn,
the rows stay settled. -/
theorem Settled.exec {t : Target} {c : Call} {x : Choice} {rest : List Event}
    (h : Settled t ((c, x) :: rest)) (hadd : AddsPresent c t)
    (htorn : NotTorn t ((c, x) :: rest)) : Settled (Target.exec c x t).2 rest := by
  cases c with
  | deleteChunk a =>
    by_cases hx : x.TakesEffect
    · have hstep : (Target.exec (.deleteChunk a) x t).2 = t.dropRow a := if_pos hx
      rw [hstep]
      intro sha hsha
      obtain ⟨hne, hidx⟩ := (t.indexed_dropRow sha a).mp hsha
      rcases h sha hidx with hp | ⟨y, rest', heq, _⟩
      · exact .inl hp
      · cases heq
        exact absurd rfl hne
    · have hstep : (Target.exec (.deleteChunk a) x t).2 = t := if_neg hx
      rw [hstep]
      exact (h.sound fun _ _ => hx).settled rest
  | delete a =>
    have hsound := h.sound nofun
    by_cases hx : x.TakesEffect
    · have hstep : (Target.exec (.delete a) x t).2 = t.deleteObject a := if_pos hx
      rw [hstep]
      intro sha hsha
      by_cases ha : sha = a
      · subst ha
        exact .inr (htorn.1 sha rfl hx hsha)
      · exact .inl ((t.present_deleteObject sha a).mpr ⟨ha, hsound sha hsha⟩)
    · have hstep : (Target.exec (.delete a) x t).2 = t := if_neg hx
      rw [hstep]
      exact hsound.settled rest
  | addChunk a size =>
    have hsound := h.sound nofun
    apply Target.Sound.settled
    apply x.outcome_of (P := Target.Sound) hsound
    intro sha hsha
    rcases (t.indexed_addRow sha a _ _).mp hsha with rfl | hidx
    · exact hadd sha size rfl
    · exact hsound sha hidx
  | put a body =>
    have hsound := h.sound nofun
    apply Target.Sound.settled
    apply x.outcome_of (P := Target.Sound) hsound
    intro sha hsha
    exact (t.present_putObject sha a _ _).mpr (.inr (hsound sha hsha))
  | putManifest key m =>
    have hsound := h.sound nofun
    have hsound' : (t.putManifest key m).Sound := hsound
    exact Target.Sound.settled (x.outcome_of (P := Target.Sound) hsound hsound') rest
  | deleteManifest key =>
    have hsound := h.sound nofun
    have hsound' : (t.deleteManifest key).Sound := hsound
    exact Target.Sound.settled (x.outcome_of (P := Target.Sound) hsound hsound') rest
  | _ => exact Target.Sound.settled (h.sound nofun) rest

theorem sound_of_notTorn {α : Type} {p q : EngineM α} {t t' : Target} {es : List Event}
    (h : Steps Target.machine p t es q t')
    (hadd : Wp Target.machine.T AddsPresent (fun _ _ => True) p t)
    (hsettled : Settled t es) (htorn : NotTorn t es) : t'.Sound := by
  induction h with
  | nil => exact (settled_nil _).mp hsettled
  | cons x _ ih =>
    exact ih (hadd.2 _ _ ⟨x, rfl⟩) (hsettled.exec hadd.1 htorn) htorn.2

-- The condition is exact: after a torn deletion nothing else runs, so the row
-- is left behind.
def Done {α : Type} (p : EngineM α) : Prop := ∃ a, p = .ret a

/-- A deletion that fails ends the program, and one that succeeds is followed by
the drop of the row, whose failure ends it too. -/
def Prompt {α : Type} (p : EngineM α) : Prop :=
  ∀ sha k, p = .call (.delete sha) k → (∀ err, Done (k (.error err))) ∧
    ∃ k', k (.ok ()) = .call (.deleteChunk sha) k' ∧ ∀ err, Done (k' (.error err))

theorem Choice.answer_fault {α : Type} {x : Choice} (h : x.fault ≠ none) (v : Except Err α) :
    ∃ err, x.answer v = .error err := by
  unfold Choice.answer
  split
  · contradiction
  · exact ⟨_, rfl⟩

theorem Done.steps {α : Type} {p q : EngineM α} {t t' : Target} {es : List Event}
    (hp : Done p) (h : Steps Target.machine p t es q t') : es = [] ∧ t' = t := by
  obtain ⟨a, rfl⟩ := hp
  cases h
  exact ⟨rfl, rfl⟩

theorem Prompt.next {α : Type} {sha : Sha} {k : Except Err Unit → EngineM α} {q : EngineM α}
    {t t' : Target} {x : Choice} {rest : List Event} (hprompt : Prompt (.call (.delete sha) k))
    (hidx : t.Indexed sha)
    (h : Steps Target.machine (k (x.answer (.ok ()))) (t.deleteObject sha) rest q t')
    (hsound : t'.Sound) :
    ∃ y rest', rest = (.deleteChunk sha, y) :: rest' ∧ y.TakesEffect := by
  have hgone : ¬ (t.deleteObject sha).Sound := fun hs =>
    ((t.present_deleteObject sha sha).mp (hs sha hidx)).1 rfl
  obtain ⟨herr, k', hk', herr'⟩ := hprompt sha k rfl
  by_cases hf : x.fault = none
  · have hok : x.answer (.ok ()) = .ok () := by simp [Choice.answer, hf]
    rw [hok, hk'] at h
    cases h with
    | nil => exact absurd hsound hgone
    | @cons _ _ _ es₂ _ _ y hrest =>
      refine ⟨y, es₂, rfl, ?_⟩
      by_contra hy
      have hsame : (Target.exec (.deleteChunk sha) y (t.deleteObject sha)).2 =
          t.deleteObject sha := if_neg hy
      obtain ⟨err, hans⟩ := Choice.answer_fault (x := y) (fun hf => hy (.inl hf)) (.ok ())
      have hend := Done.steps (by
        have hd := herr' err
        rw [← hans] at hd
        exact hd) hrest
      exact hgone (hsame ▸ hend.2 ▸ hsound)
  · obtain ⟨err, hans⟩ := Choice.answer_fault hf (.ok ())
    rw [hans] at h
    exact absurd ((Done.steps (herr err) h).2 ▸ hsound) hgone

theorem notTorn_of_sound {α : Type} {p q : EngineM α} {t t' : Target} {es : List Event}
    (h : Steps Target.machine p t es q t') (hprompt : Everywhere Prompt p)
    (hsound : t'.Sound) : NotTorn t es := by
  induction h with
  | nil => trivial
  | @cons c k s es q t' x hrest ih =>
    refine ⟨?_, ih (hprompt.2 _) hsound⟩
    rintro sha rfl hx hidx
    have hstep : (Target.exec (.delete sha) x s).2 = s.deleteObject sha := if_pos hx
    have hrest' : Steps Target.machine (k (x.answer (.ok ()))) (s.deleteObject sha) es q t' :=
      hstep ▸ hrest
    exact hprompt.1.next hidx hrest' hsound

private theorem prompt_of_ne {α : Type} {c : Call} {k : Reply c → EngineM α}
    (hc : ∀ sha, c ≠ .delete sha) : Prompt (.call c k) := by
  rintro sha k' heq
  injection heq with hcall
  exact absurd hcall (hc sha)

private theorem gcDelete_prompt {α : Type} {f : GCResult × Option Err → EngineM α}
    (herr : ∀ res err, Done (f (res, some err))) (hok : ∀ res, Everywhere Prompt (f (res, none)))
    (doomed : List Object) (res : GCResult) : Everywhere Prompt (gcDelete doomed res >>= f) := by
  have hdone : ∀ res err, Everywhere Prompt (f (res, some err)) := by
    intro res err
    obtain ⟨a, ha⟩ := herr res err
    rw [ha]
    exact nofun
  induction doomed generalizing res with
  | nil => exact hok res
  | cons o rest ih =>
    constructor
    · rintro sha k heq
      cases heq
      exact ⟨fun err => herr res err, _, rfl, fun err => herr res _⟩
    · intro r
      match r with
      | .error err => exact hdone res err
      | .ok () =>
        refine ⟨prompt_of_ne nofun, fun r => ?_⟩
        match r with
        | .error err => exact hdone res _
        | .ok () => exact ih _

theorem gc_prompt (e : Engine) : Everywhere Prompt e.gc := by
  have hne : ∀ (c : Call) (k : Reply c → EngineM (GCResult × Option Err)),
      (∀ sha, c ≠ .delete sha) → Prompt (.call c k) := fun _ _ => prompt_of_ne
  have hread : ∀ c : Call, c.Reads → ∀ sha, c ≠ .delete sha := by
    rintro c hc sha rfl
    exact hc
  refine ⟨prompt_of_ne nofun, fun r => ?_⟩
  match r with
  | .error err => exact nofun
  | .ok keys =>
    refine Everywhere.bind hne (gcManifests_wp hread keys _ _).calls ?_
    rintro ⟨res, out⟩
    cases out with
    | error err => exact nofun
    | ok referenced =>
      refine ⟨prompt_of_ne nofun, fun r => ?_⟩
      match r with
      | .error err => exact nofun
      | .ok indexed =>
        refine ⟨prompt_of_ne nofun, fun now => ⟨prompt_of_ne nofun, fun r => ?_⟩⟩
        match r with
        | .error err => exact nofun
        | .ok shas =>
          refine Everywhere.bind hne
            (forChunks_doomed hread e now indexed referenced shas _ (by simp)).calls ?_
          rintro ⟨acc, err⟩
          cases err with
          | some err => exact nofun
          | none =>
            change Everywhere Prompt (gcCollect indexed acc)
            unfold gcCollect
            apply gcDelete_prompt
            · intro res err
              exact ⟨_, rfl⟩
            · intro res
              have hcalls : Calls (fun c => ∀ sha, c ≠ .delete sha)
                  (gcReconcile acc.present indexed.keys res) :=
                Wp.calls (gcReconcile_wp (fun _ _ h => nomatch h) _ _ _)
              exact Everywhere.of_calls hne (fun _ => nofun) hcalls

theorem Episode.sound_iff {t t' : Target} {es : List Event} (h : Episode t es t')
    (hsound : t.Sound) : t'.Sound ↔ NotTorn t es := by
  have hne : ∀ {α : Type} (c : Call) (k : Reply c → EngineM α),
      (∀ sha, c ≠ .delete sha) → Prompt (.call c k) := fun _ _ => prompt_of_ne
  have hread : ∀ c : Call, c.Reads → ∀ sha, c ≠ .delete sha := by
    rintro c hc sha rfl
    exact hc
  have hsettled := hsound.settled es
  cases h with
  | putChunk e sha data q h =>
    have hcalls : Calls (fun c => ∀ sha, c ≠ .delete sha) (e.putChunk sha data) :=
      putChunk_calls e sha data hread nofun nofun
    exact ⟨notTorn_of_sound h (Everywhere.of_calls hne (fun _ => nofun) hcalls),
      sound_of_notTorn h (putChunk_addsPresent e sha data t) hsettled⟩
  | hasChunk sha q h =>
    have hcalls : Calls (fun c => ∀ sha, c ≠ .delete sha) (Engine.hasChunk sha) :=
      hasChunk_calls sha hread nofun
    exact ⟨notTorn_of_sound h (Everywhere.of_calls hne (fun _ => nofun) hcalls),
      sound_of_notTorn h (hasChunk_addsPresent sha t) hsettled⟩
  | gc e q h =>
    exact ⟨notTorn_of_sound h (gc_prompt e),
      sound_of_notTorn h (gc_addsPresent e t) hsettled⟩
  | syncChunkIndex q h =>
    have hcalls : Calls (fun c => ∀ sha, c ≠ .delete sha) Engine.syncChunkIndex :=
      syncChunkIndex_calls hread nofun
    exact ⟨notTorn_of_sound h (Everywhere.of_calls hne (fun _ => nofun) hcalls),
      sound_of_notTorn h (syncChunkIndex_addsPresent t) hsettled⟩

/-- A sequence of operations, with the target each one started from and the
calls it got to make. -/
inductive History : Target → List (Target × List Event) → Target → Prop where
  | nil {t} : History t [] t
  | cons {t es t₁ log t'} (h : Episode t es t₁) (rest : History t₁ log t') :
      History t ((t, es) :: log) t'

/-- Over any sequence of operations, the index is sound after every one of them
exactly when none tore a deletion. Then a hit of `HasChunk` is always a chunk
that is there. -/
theorem history_sound_iff_notTorn {t t' : Target} {log : List (Target × List Event)}
    (h : History t log t') (hsound : t.Sound) :
    (((∀ p ∈ log, p.1.Sound) ∧ t'.Sound) ↔ ∀ p ∈ log, NotTorn p.1 p.2) ∧
      ((∀ p ∈ log, NotTorn p.1 p.2) → ∀ sha x,
        (Target.exec (.hasChunk sha) x t').1 = .ok true → t'.Present sha) := by
  have hiff : ((∀ p ∈ log, p.1.Sound) ∧ t'.Sound) ↔ ∀ p ∈ log, NotTorn p.1 p.2 := by
    induction h with
    | nil => simpa using hsound
    | @cons t es t₁ log t' hep hrest ih =>
      have hstep := hep.sound_iff hsound
      simp only [List.forall_mem_cons]
      constructor
      · rintro ⟨⟨_, hlog⟩, hend⟩
        have hs₁ : t₁.Sound := by
          cases hrest with
          | nil => exact hend
          | cons _ _ => exact hlog _ List.mem_cons_self
        exact ⟨hstep.mp hs₁, (ih hs₁).mp ⟨hlog, hend⟩⟩
      · rintro ⟨htorn, hlog⟩
        have hall := (ih (hstep.mpr htorn)).mpr hlog
        exact ⟨⟨hsound, hall.1⟩, hall.2⟩
  refine ⟨hiff, fun hlog sha x hx => (hiff.mpr hlog).2 sha ?_⟩
  have hT : Target.machine.T (.hasChunk sha) t' (.ok true) t' := ⟨x, Prod.ext hx rfl⟩
  exact (T_hasChunk hT).mp rfl

def staleTarget : Target where
  chunks := AList.singleton "c0" ⟨[7], 1⟩
  manifests := ∅
  index := AList.singleton "c0" ⟨1, 1⟩

def staleEngine : Engine := newWithOptions (fun _ => "c0") ⟨none, none⟩ ⟨4, "zstd", 0⟩

def staleEvents : List Event :=
  [(.walkManifests, .fine), (.chunkAddedAt, .fine), (.now, { clock := 2 * defaultGCGrace }),
    (.walkChunks, .fine), (.walkChunk "c0", .fine), (.delete "c0", .fine)]

theorem stale_steps : ∃ q, Steps Target.machine staleEngine.gc staleTarget staleEvents q
    (staleTarget.deleteObject "c0") :=
  ⟨_, .cons _ (.cons _ (.cons _ (.cons _ (.cons _ (.cons _ .nil)))))⟩

theorem staleTarget_sound : staleTarget.Sound := by
  intro sha h
  have hmem : sha ∈ staleTarget.index := AList.lookup_isSome.mp h
  have hsha : sha = "c0" := by simpa [staleTarget, AList.mem_keys] using hmem
  rw [hsha]
  decide

theorem stale_finished : ∃ q, Steps Target.machine staleEngine.gc staleTarget
    (staleEvents ++ [(.deleteChunk "c0", .fine)]) q
    ((staleTarget.deleteObject "c0").dropRow "c0") :=
  ⟨_, .cons _ (.cons _ (.cons _ (.cons _ (.cons _ (.cons _ (.cons _ .nil))))))⟩

/-- The same pass one call further: the deletion is not torn, and the index is
sound again. -/
theorem history_sound_of_finished_pass :
    ((staleTarget.deleteObject "c0").dropRow "c0").Sound := by
  obtain ⟨q, h⟩ := stale_finished
  have hlog := history_sound_iff_notTorn (.cons (.gc staleEngine q h) .nil) staleTarget_sound
  refine (hlog.1.mpr ?_).2
  intro p hp
  rw [List.mem_singleton.mp hp]
  refine ⟨nofun, nofun, nofun, nofun, nofun, ?_, nofun, trivial⟩
  intro sha hsha _ _
  cases hsha
  exact ⟨.fine, [], rfl, .inl rfl⟩

/-- A process that stops right after the deletion leaves a row without its
chunk. -/
theorem history_not_sound :
    ¬ ∀ t log t', History t log t' → t.Sound → t'.Sound := by
  intro hall
  obtain ⟨q, h⟩ := stale_steps
  have hsound := hall _ _ _ (.cons (.gc staleEngine q h) .nil) staleTarget_sound
  exact absurd (hsound "c0" (by decide)) (by decide)

end ProxBack.Engine
