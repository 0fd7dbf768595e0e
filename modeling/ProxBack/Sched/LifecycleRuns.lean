import ProxBack.Sched.LifecycleSafe

/-! The calls that create runs, and what holds of every run of the scheduler. -/
namespace ProxBack.Sched.Lifecycle
open Lib

variable {s s' : State} {k : Nat} {l l' : Launch}

structure Beside (s s' : State) : Prop where
  launches : s'.launches = s.launches
  calls : s'.calls = s.calls
  created : s'.created = s.created
  cancels : s'.cancels = s.cancels
  monitors : s'.monitors = s.monitors
  verifying : s'.verifying = s.verifying
  gate : s'.gate.callers = s.gate.callers

theorem Kept.beside (h : Kept s) (q : Beside s s') : Kept s' := by
  have hphase : ∀ i, s'.gate.phaseOf i = s.gate.phaseOf i := fun i => by
    rw [Gate.State.phaseOf, Gate.State.phaseOf, q.gate]
  have hbusy : ∀ b c, s'.Busy b c ↔ s.Busy b c := fun b c => by
    simp only [State.Busy, q.calls, q.launches]
  exact
    { gate := fun k l hl => (h.gate k l (q.launches ▸ hl)).congr fun i _ => hphase i
      counted := fun k l hl => h.counted k l (q.launches ▸ hl)
      claimed := fun k l i hl hi => by
        rw [Gate.State.ctxOf, q.gate]
        exact h.claimed k l i (q.launches ▸ hl) hi
      caller := by
        rw [q.launches, q.calls]
        exact h.caller
      launched := by
        rw [q.launches, q.calls]
        exact h.launched
      ids := by
        rw [q.calls]
        exact h.ids
      created := by
        rw [q.calls, q.created]
        exact h.created
      fresh := by
        rw [q.calls]
        exact h.fresh
      cancels := by
        rw [q.launches, q.cancels]
        exact h.cancels
      monitors := by
        rw [q.launches, q.monitors]
        exact h.monitors
      busy := fun b => by
        simp only [q.verifying, hbusy]
        exact h.busy b
      single := fun b c d hc hd => h.single b c d ((hbusy b c).mp hc) ((hbusy b d).mp hd) }

def Call.Open (x : Call) (b : String) : Prop := x.backup = some b ∧ x.phase ≠ .refused

/-- A step of call `c`, which does not launch a run. -/
structure Recalled (s s' : State) (c : Nat) (x' : Call) : Prop where
  launches : s'.launches = s.launches
  gate : s'.gate = s.gate
  cancels : s'.cancels = s.cancels
  monitors : s'.monitors = s.monitors
  before : ∀ x k, s.calls[c]? = some x → x.phase ≠ .launched k
  after : ∀ k, x'.phase ≠ .launched k
  calls : ∀ d, s'.calls[d]? = if d = c then some x' else s.calls[d]?
  created : ∀ r, r ∈ s.created ∨ x'.run = some r → r ∈ s'.created
  run : ∀ r, x'.run = some r → (∃ x, s.calls[c]? = some x ∧ x.run = some r) ∨ r ∉ s.created
  fresh : x'.phase = .creating → x'.run = none
  verifying : ∀ b, s'.verifying.lookup b ≠ none ↔
    x'.Open b ∨ s.verifying.lookup b ≠ none ∧ ¬ ∃ x, s.calls[c]? = some x ∧ x.Open b
  free : ∀ b, x'.Open b → (∃ x, s.calls[c]? = some x ∧ x.Open b) ∨ s.verifying.lookup b = none

theorem busy_of_not_launched {x : Call} {c : Nat} (hx : s.calls[c]? = some x)
    (hphase : ∀ k, x.phase ≠ .launched k) (b : String) : s.Busy b c ↔ x.Open b := by
  constructor
  · rintro ⟨y, hy, hb, hopen⟩
    rw [hx] at hy
    cases hy
    refine ⟨hb, fun hrefused => ?_⟩
    rw [hrefused] at hopen
    exact hopen
  · rintro ⟨hb, hopen⟩
    refine ⟨x, hx, hb, ?_⟩
    cases hp : x.phase with
    | refused => exact absurd hp hopen
    | launched k => exact absurd hp (hphase k)
    | _ => trivial

theorem Recalled.busy {c : Nat} {x' : Call} (q : Recalled s s' c x') (b : String) (d : Nat) :
    s'.Busy b d ↔ if d = c then x'.Open b else s.Busy b d := by
  split
  · rename_i heq
    subst heq
    exact busy_of_not_launched (by rw [q.calls, if_pos rfl]) q.after b
  · rename_i hne
    simp only [State.Busy, q.calls, if_neg hne, q.launches]

theorem Recalled.busy_before {c : Nat} {x' : Call} (q : Recalled s s' c x') (b : String) :
    s.Busy b c ↔ ∃ x, s.calls[c]? = some x ∧ x.Open b := by
  constructor
  · rintro ⟨x, hx, hb⟩
    exact ⟨x, hx, (busy_of_not_launched hx (fun k => q.before x k hx) b).mp ⟨x, hx, hb⟩⟩
  · rintro ⟨x, hx, hopen⟩
    exact (busy_of_not_launched hx (fun k => q.before x k hx) b).mpr hopen

theorem Kept.recalled {c : Nat} {x' : Call} (h : Kept s) (q : Recalled s s' c x') : Kept s' where
  gate := by
    rw [q.launches, q.gate]
    exact h.gate
  counted := by
    rw [q.launches]
    exact h.counted
  claimed := by
    rw [q.launches, q.gate]
    exact h.claimed
  caller := by
    rw [q.launches]
    intro k l hl
    have hcall := h.caller k l hl
    rw [q.calls, if_neg fun heq => q.before _ k (heq ▸ hcall) rfl, hcall]
  launched := by
    intro d x k hx hk
    rw [q.launches]
    rw [q.calls] at hx
    split at hx
    · cases hx
      exact absurd hk (q.after k)
    · exact h.launched d x k hx hk
  ids := by
    -- a run id that a call has just got is new
    have hother : ∀ (d : Nat) (y : Call) r, d ≠ c → s.calls[d]? = some y → y.run = some r →
        x'.run ≠ some r := by
      intro d y r hne hy hyr hr
      rcases q.run r hr with ⟨x, hx, hxr⟩ | hnew
      · exact hne (h.ids d c y x r hy hx hyr hxr)
      · exact hnew (h.created d y r hy hyr)
    intro d e x y r hx hy hxr hyr
    rw [q.calls] at hx hy
    split at hx <;> split at hy
    · rename_i hd he
      exact hd.trans he.symm
    · rename_i he
      cases hx
      exact absurd hxr (hother e y r he hy hyr)
    · rename_i hd _
      cases hy
      exact absurd hyr (hother d x r hd hx hxr)
    · exact h.ids d e x y r hx hy hxr hyr
  created := by
    intro d x r hx hr
    rw [q.calls] at hx
    split at hx
    · cases hx
      exact q.created r (.inr hr)
    · exact q.created r (.inl (h.created d x r hx hr))
  fresh := by
    intro d x hx hp
    rw [q.calls] at hx
    split at hx
    · cases hx
      exact q.fresh hp
    · exact h.fresh d x hx hp
  cancels := by
    rw [q.launches, q.cancels]
    exact h.cancels
  monitors := by
    rw [q.launches, q.monitors]
    exact h.monitors
  busy := by
    intro b
    rw [q.verifying, ← q.busy_before]
    constructor
    · rintro (hopen | ⟨hlook, hidle⟩)
      · exact ⟨c, by rwa [q.busy, if_pos rfl]⟩
      · obtain ⟨d, hd⟩ := (h.busy b).mp hlook
        have hne : d ≠ c := fun heq => hidle (heq ▸ hd)
        exact ⟨d, by rwa [q.busy, if_neg hne]⟩
    · rintro ⟨d, hd⟩
      rw [q.busy] at hd
      split at hd
      · exact .inl hd
      · rename_i hne
        exact .inr ⟨(h.busy b).mpr ⟨d, hd⟩, fun hc => hne (h.single b d c hd hc)⟩
  single := by
    have hother : ∀ b d, d ≠ c → s.Busy b d → ¬ x'.Open b := by
      intro b d hne hd hopen
      rcases q.free b hopen with hold | hnone
      · exact hne (h.single b d c hd ((q.busy_before b).mpr hold))
      · exact (h.busy b).mpr ⟨d, hd⟩ hnone
    intro b d e hd he
    rw [q.busy] at hd he
    split at hd <;> split at he
    · rename_i hdc hec
      exact hdc.trans hec.symm
    · rename_i hec
      exact absurd hd (hother b e hec he)
    · rename_i hdc _
      exact absurd he (hother b d hdc hd)
    · exact h.single b d e hd he

theorem recalled_new {x' : Call} {verifying : FinMap String String} (hrun : x'.run = none)
    (hafter : ∀ k, x'.phase ≠ .launched k)
    (hver : ∀ b, verifying.lookup b ≠ none ↔ x'.Open b ∨ s.verifying.lookup b ≠ none)
    (hfree : ∀ b, x'.Open b → s.verifying.lookup b = none) :
    Recalled s { s with verifying, calls := s.calls ++ [x'] } s.calls.length x' := by
  have hnone : s.calls[s.calls.length]? = none := List.getElem?_eq_none (Nat.le_refl _)
  exact
    { launches := rfl
      gate := rfl
      cancels := rfl
      monitors := rfl
      before := fun x k hx => by
        rw [hnone] at hx
        cases hx
      after := hafter
      calls := fun d => by
        dsimp only
        rw [List.getElem?_append]
        split
        · rename_i hlt
          rw [if_neg (Nat.ne_of_lt hlt)]
        · rename_i hge
          split
          · rename_i heq
            rw [heq, Nat.sub_self]
            rfl
          · rename_i hne
            have hout : s.calls.length < d := by omega
            rw [List.getElem?_eq_none (Nat.le_of_lt hout), List.getElem?_eq_none]
            simp only [List.length_singleton]
            omega
      created := fun r hr => hr.elim id fun hr => by
        rw [hrun] at hr
        cases hr
      run := fun r hr => by
        rw [hrun] at hr
        cases hr
      fresh := fun _ => hrun
      verifying := fun b => by simp [hver]
      free := fun b hopen => .inr (hfree b hopen) }

theorem recalled_verify (s : State) (b : String) :
    ∃ x', Recalled s (s.verify b) s.calls.length x' := by
  unfold State.verify
  split
  · refine ⟨_, recalled_new (s := s) rfl nofun (fun b' => ?_) fun b' hopen => ?_⟩
    · simp [Call.Open]
    · exact absurd rfl hopen.2
  · rename_i hnone
    refine ⟨_, recalled_new rfl nofun (fun b' => ?_) fun b' hopen => ?_⟩
    · rw [FinMap.lookup_insert_ite]
      by_cases hb : b' = b
      · simp [hb, Call.Open]
      · simp [hb, Call.Open, Ne.symm hb]
    · cases hopen.1
      exact hnone

theorem recalled_set {c : Nat} {x x' : Call} {verifying : FinMap String String}
    {created : List String} (hx : s.calls[c]? = some x) (hbefore : ∀ k, x.phase ≠ .launched k)
    (hafter : ∀ k, x'.phase ≠ .launched k)
    (hcreated : ∀ r, r ∈ s.created ∨ x'.run = some r → r ∈ created)
    (hrun : ∀ r, x'.run = some r → x.run = some r ∨ r ∉ s.created)
    (hfresh : x'.phase ≠ .creating) (hopen : ∀ b, x'.Open b → x.Open b)
    (hver : ∀ b, verifying.lookup b ≠ none ↔
      x'.Open b ∨ s.verifying.lookup b ≠ none ∧ ¬ x.Open b) :
    Recalled s ({ s with verifying, created }.setCall c x') c x' where
  launches := rfl
  gate := rfl
  cancels := rfl
  monitors := rfl
  before := fun y k hy => by
    cases hx.symm.trans hy
    exact hbefore k
  after := hafter
  calls := fun d => by
    rw [State.setCall, getElem?_set_of hx]
    simp only [eq_comm]
  created := hcreated
  run := fun r hr => (hrun r hr).imp_left fun hxr => ⟨x, hx, hxr⟩
  fresh := fun hp => absurd hp hfresh
  verifying := fun b => by
    simp only [hx, Option.some.injEq, exists_eq_left']
    exact hver b
  free := fun b hb => .inl ⟨x, hx, hopen b hb⟩

theorem Kept.reserved (h : Kept s) {c : Nat} {x : Call} (hx : s.calls[c]? = some x)
    (hphase : ∀ k, x.phase ≠ .launched k) (b : String) (hopen : x.Open b) :
    s.verifying.lookup b ≠ none :=
  (h.busy b).mpr ⟨c, (busy_of_not_launched hx hphase b).mpr hopen⟩

theorem Call.open_after {x : Call} (hp : x.phase ≠ .refused) {p : CallPhase} (hne : p ≠ .refused)
    (q : CallPhase) (run : Option String) (b : String) :
    ({ x with run, phase := if x.backup.isSome then p else q } : Call).Open b ↔ x.Open b := by
  cases hb : x.backup with
  | none => simp [Call.Open, hb]
  | some b' => simp [Call.Open, hb, hp, hne]

theorem Kept.create (h : Kept s) {c : Nat} {x : Call} (hx : s.calls[c]? = some x)
    (hp : x.phase = .creating) {runID : Option String} (hstep : s.create c x runID = some s') :
    ∃ x', Recalled s s' c x' := by
  have hbefore : ∀ k, x.phase ≠ .launched k := by simp [hp]
  have hopen : x.phase ≠ .refused := by simp [hp]
  have hverifying : ∀ b, s.verifying.lookup b ≠ none ↔
      x.Open b ∨ s.verifying.lookup b ≠ none ∧ ¬ x.Open b := by
    intro b
    have hres := h.reserved hx hbefore b
    tauto
  cases runID with
  | none =>
    cases hstep
    have hphase := Call.open_after hopen (p := .releasing) nofun .refused x.run
    refine ⟨_, recalled_set hx hbefore ?_ ?_ ?_ ?_ (fun b => (hphase b).mp) fun b => ?_⟩
    · intro k
      dsimp only
      split <;> simp
    · exact fun r hr => hr.elim id fun hr => h.created c x r hx hr
    · exact fun r hr => .inl hr
    · dsimp only
      split <;> simp
    · rw [hphase]
      exact hverifying b
  | some r =>
    simp only [State.create] at hstep
    split at hstep
    · cases hstep
    rename_i hnew
    cases hstep
    have hphase := Call.open_after hopen (p := .recording) nofun .launching (some r)
    refine ⟨_, recalled_set hx hbefore ?_ ?_ ?_ ?_ (fun b => (hphase b).mp) fun b => ?_⟩
    · intro k
      dsimp only
      split <;> simp
    · rintro r' (hr' | hr')
      · exact List.mem_cons_of_mem r hr'
      · cases hr'
        exact List.mem_cons_self
    · rintro r' ⟨⟩
      exact .inr hnew
    · dsimp only
      split <;> simp
    · rw [hphase]
      exact hverifying b

theorem Kept.stepCall (h : Kept s) {c : Nat} {x : Call} (hx : s.calls[c]? = some x) {a : Action}
    (ha : ∀ c', a ≠ .launch c') (hstep : s.stepCall c x a = some s') :
    ∃ x', Recalled s s' c x' := by
  cases a with
  | create _ runID =>
    obtain ⟨hp, hstep⟩ := Option.ite_none_right_eq_some.mp hstep
    exact h.create hx hp hstep
  | release _ =>
    obtain ⟨hp, hstep⟩ := Option.ite_none_right_eq_some.mp hstep
    obtain ⟨b, hb, rfl⟩ := Option.map_eq_some_iff.mp hstep
    have hbefore : ∀ k, x.phase ≠ .launched k := by simp [hp]
    have hclosed : ∀ b', ¬ ({ x with phase := .refused } : Call).Open b' := fun b' hopen => hopen.2 rfl
    refine ⟨_, recalled_set hx hbefore nofun ?_ ?_ nofun
      (fun b' hopen => absurd hopen (hclosed b')) fun b' => ?_⟩
    · exact fun r hr => hr.elim id fun hr => h.created c x r hx hr
    · exact fun r hr => .inl hr
    · rw [FinMap.lookup_erase_ite]
      by_cases hb' : b' = b
      · simp [hb', Call.Open, hb, hp]
      · simp [hb', Call.Open, hb, Ne.symm hb']
  | record _ =>
    simp only [State.stepCall] at hstep
    split at hstep
    · rename_i b runID hp hb hrun
      cases hstep
      have hbefore : ∀ k, x.phase ≠ .launched k := by simp [hp]
      have hopen : ∀ b', ({ x with phase := .launching } : Call).Open b' ↔ x.Open b' := by
        simp [Call.Open, hp]
      refine ⟨_, recalled_set hx hbefore nofun ?_ ?_ nofun (fun b' => (hopen b').mp)
        fun b' => ?_⟩
      · exact fun r hr => hr.elim id fun hr => h.created c x r hx hr
      · exact fun r hr => .inl hr
      · have hres := h.reserved hx hbefore b'
        rw [hopen, FinMap.lookup_insert_ite]
        by_cases hb' : b' = b
        · simp [hb', Call.Open, hb, hp]
        · simp only [hb', if_false]
          tauto
    · cases hstep
  | launch c' => exact absurd rfl (ha c')
  | _ => cases hstep

/-- The launch that `launch` appends. -/
def Call.launching (x : Call) (c : Nat) (r : String) : Launch :=
  { runID := r, onDone := x.backup, caller := c, phase := .registered, slot := none, finishes := 0,
    releases := 0, dones := 0 }

theorem launches_launch (s : State) (c : Nat) (x : Call) (r : String) (j : Nat) :
    (s.launch c x r).launches[j]? =
      if j = s.launches.length then some (x.launching c r) else s.launches[j]? := by
  simp only [State.launch, List.getElem?_append]
  split
  · rename_i hlt
    rw [if_neg (Nat.ne_of_lt hlt)]
  · split
    · rename_i heq
      rw [heq, Nat.sub_self]
      rfl
    · rename_i hge hne
      rw [List.getElem?_eq_none (Nat.le_of_not_lt hge), List.getElem?_eq_none]
      simp only [List.length_singleton]
      omega

@[simp] theorem callers_launch (s : State) (c : Nat) (x : Call) (r : String) :
    (s.launch c x r).gate.callers = s.gate.callers := by
  dsimp only [State.launch]
  split <;> rfl

theorem launch_split {c : Nat} {x : Call} {r : String} {j : Nat} {y : Launch}
    (hy : (s.launch c x r).launches[j]? = some y) :
    (j = s.launches.length ∧ y = x.launching c r) ∨
      j ≠ s.launches.length ∧ s.launches[j]? = some y := by
  rw [launches_launch] at hy
  split at hy
  · rename_i heq
    cases hy
    exact .inl ⟨heq, rfl⟩
  · rename_i hne
    exact .inr ⟨hne, hy⟩

theorem launch_old {c : Nat} {x : Call} {r : String} {j : Nat} {y : Launch}
    (hy : s.launches[j]? = some y) : (s.launch c x r).launches[j]? = some y := by
  have hlt : j < s.launches.length := (List.getElem?_eq_some_iff.mp hy).1
  rw [launches_launch, if_neg (Nat.ne_of_lt hlt), hy]

theorem Kept.launching (h : Kept s) {c : Nat} {x : Call} {r : String} (hx : s.calls[c]? = some x)
    (hp : x.phase = .launching) (hrun : x.run = some r) {j : Nat} {y : Launch}
    (hy : s.launches[j]? = some y) : c ≠ y.caller ∧ y.runID ≠ r := by
  have hcaller := h.caller j y hy
  have hne : c ≠ y.caller := by
    intro heq
    rw [← heq, hx] at hcaller
    cases hcaller
    cases hp
  exact ⟨hne, fun heq => hne (h.ids _ _ _ _ r hx hcaller hrun (congrArg some heq))⟩

theorem Kept.table_launch (h : Kept s) {c : Nat} {x : Call} {r : String}
    (hx : s.calls[c]? = some x) (hp : x.phase = .launching) (hrun : x.run = some r)
    {P : Phase → Prop} (hreg : P .registered) {table : FinMap String Nat}
    (htable : ∀ r' k, table.lookup r' = some k ↔
      ∃ y, s.launches[k]? = some y ∧ y.runID = r' ∧ P y.phase) (r' : String) (k : Nat) :
    (table.insert r s.launches.length).lookup r' = some k ↔
      ∃ y, (s.launch c x r).launches[k]? = some y ∧ y.runID = r' ∧ P y.phase := by
  rw [FinMap.lookup_insert_ite]
  constructor
  · intro hlook
    split at hlook
    · rename_i heq
      cases hlook
      exact ⟨_, by rw [launches_launch, if_pos rfl], heq.symm, hreg⟩
    · obtain ⟨y, hy, hyr, hyp⟩ := (htable r' k).mp hlook
      exact ⟨y, launch_old hy, hyr, hyp⟩
  · rintro ⟨y, hy, hyr, hyp⟩
    rcases launch_split hy with ⟨rfl, rfl⟩ | ⟨-, hy⟩
    · exact if_pos hyr.symm
    · rw [if_neg fun heq => (h.launching hx hp hrun hy).2 (hyr.trans heq)]
      exact (htable r' k).mpr ⟨y, hy, hyr, hyp⟩

theorem calls_launch {c : Nat} {x : Call} (hx : s.calls[c]? = some x) (r : String) (d : Nat) :
    (s.launch c x r).calls[d]? =
      if c = d then some { x with phase := .launched s.launches.length } else s.calls[d]? :=
  getElem?_set_of hx _ d

theorem Kept.busy_launch (h : Kept s) {c : Nat} {x : Call} {r : String}
    (hx : s.calls[c]? = some x) (hp : x.phase = .launching) (b : String) (d : Nat) :
    (s.launch c x r).Busy b d ↔ s.Busy b d := by
  by_cases hd : c = d
  · subst hd
    rw [busy_of_not_launched hx (by simp [hp])]
    constructor
    · rintro ⟨y, hy, hb, -⟩
      rw [calls_launch hx, if_pos rfl] at hy
      cases hy
      exact ⟨hb, by simp [hp]⟩
    · rintro ⟨hb, -⟩
      refine ⟨{ x with phase := .launched s.launches.length }, ?_, hb, x.launching c r, ?_, ?_⟩
      · rw [calls_launch hx, if_pos rfl]
      · rw [launches_launch, if_pos rfl]
      · simp [Call.launching, Phase.Unannounced, Phase.rank]
  · have hphase : ∀ (y : Call), s.calls[d]? = some y → ∀ j, y.phase = .launched j →
        ((∃ l, (s.launch c x r).launches[j]? = some l ∧ l.phase.Unannounced) ↔
          ∃ l, s.launches[j]? = some l ∧ l.phase.Unannounced) := by
      intro y hy j hj
      obtain ⟨z, hz, -⟩ := h.launched d y j hy hj
      rw [launch_old hz, hz]
    simp only [State.Busy, calls_launch hx, if_neg hd]
    refine exists_congr fun y => and_congr_right fun hy => and_congr_right fun _ => ?_
    cases hj : y.phase with
    | launched j => exact hphase y hy j hj
    | _ => rfl

theorem Kept.launch (h : Kept s) {c : Nat} {x : Call} {r : String} (hx : s.calls[c]? = some x)
    (hp : x.phase = .launching) (hrun : x.run = some r) : Kept (s.launch c x r) where
  gate := by
    intro j y hy
    rcases launch_split hy with ⟨-, rfl⟩ | ⟨-, hy⟩
    · rfl
    · refine (h.gate j y hy).congr fun i _ => ?_
      rw [Gate.State.phaseOf, Gate.State.phaseOf, callers_launch]
  counted := by
    intro j y hy
    rcases launch_split hy with ⟨-, rfl⟩ | ⟨-, hy⟩
    · exact ⟨rfl, by simp [Call.launching],
        by simp [Call.launching, Phase.Unannounced, Phase.rank]⟩
    · exact h.counted j y hy
  claimed := by
    intro j y i hy hi
    rw [Gate.State.ctxOf, callers_launch]
    rcases launch_split hy with ⟨-, rfl⟩ | ⟨-, hy⟩
    · cases hi
    · exact h.claimed j y i hy hi
  caller := by
    intro j y hy
    rw [calls_launch hx]
    rcases launch_split hy with ⟨rfl, rfl⟩ | ⟨-, hy⟩
    · rw [Call.launching, if_pos rfl, ← hrun]
    · rw [if_neg (h.launching hx hp hrun hy).1]
      exact h.caller j y hy
  launched := by
    intro d y j hy hj
    rw [calls_launch hx] at hy
    split at hy
    · rename_i heq
      cases hy
      cases hj
      exact ⟨_, by rw [launches_launch, if_pos rfl], heq⟩
    · obtain ⟨z, hz, hzc⟩ := h.launched d y j hy hj
      exact ⟨z, launch_old hz, hzc⟩
  ids := by
    intro d e y z r' hy hz hyr hzr
    have hback : ∀ {d : Nat} {y : Call}, (s.launch c x r).calls[d]? = some y → y.run = some r' →
        ∃ y₀, s.calls[d]? = some y₀ ∧ y₀.run = some r' := by
      intro d y hy hyr
      rw [calls_launch hx] at hy
      split at hy
      · rename_i heq
        cases hy
        exact ⟨x, heq ▸ hx, hyr⟩
      · exact ⟨y, hy, hyr⟩
    obtain ⟨y₀, hy₀, hyr₀⟩ := hback hy hyr
    obtain ⟨z₀, hz₀, hzr₀⟩ := hback hz hzr
    exact h.ids d e y₀ z₀ r' hy₀ hz₀ hyr₀ hzr₀
  created := by
    intro d y r' hy hyr
    rw [calls_launch hx] at hy
    split at hy
    · cases hy
      exact h.created c x r' hx hyr
    · exact h.created d y r' hy hyr
  fresh := by
    intro d y hy hyp
    rw [calls_launch hx] at hy
    split at hy
    · cases hy
      cases hyp
    · exact h.fresh d y hy hyp
  cancels := h.table_launch hx hp hrun (by simp [Phase.Listed, Phase.rank]) h.cancels
  monitors := h.table_launch hx hp hrun (by simp [Phase.Monitored, Phase.rank]) h.monitors
  busy := fun b => by
    simp only [h.busy_launch hx hp]
    exact h.busy b
  single := fun b d e hd he =>
    h.single b d e ((h.busy_launch hx hp b d).mp hd) ((h.busy_launch hx hp b e).mp he)

/-- What a step of the scheduler is: a goroutine's, a call's, a launch, or none of these. -/
inductive Changed (s : State) (a : Action) (s' : State) : Prop where
  | moved {k : Nat} {l l' : Launch} (ha : a.goroutine = some k) (hstep : s.stepLaunch k l a = some s')
      (q : Moved s s' k l l')
  | recalled {c : Nat} {x' : Call} (ha : a.goroutine = none) (q : Recalled s s' c x')
  | launched {c : Nat} {x : Call} {r : String} (ha : a.goroutine = none) (hx : s.calls[c]? = some x)
      (hp : x.phase = .launching) (hrun : x.run = some r) (heq : s' = s.launch c x r)
  | beside (ha : a.goroutine = none) (q : Beside s s')

theorem step_of_launch {a : Action} (ha : a.goroutine = some k) (hl : s.launches[k]? = some l) :
    State.step a s = s.stepLaunch k l a := by
  cases a <;> cases ha <;> simp only [State.step, hl]

theorem Kept.cases (h : Kept s) {a : Action} (hstep : State.step a s = some s') :
    Changed s a s' := by
  cases hg : a.goroutine with
  | some k =>
    cases hl : s.launches[k]? with
    | none => cases a <;> cases hg <;> simp [State.step, hl] at hstep
    | some l =>
      rw [step_of_launch hg hl] at hstep
      obtain ⟨l', q⟩ := stepLaunch_moved h hl hstep hg
      exact .moved hg hstep q
  | none =>
    cases a with
    | trigger =>
      cases hstep
      refine .recalled hg (recalled_new (s := s) rfl (by simp) (fun b => ?_) fun b hopen => ?_)
      · simp [Call.Open]
      · cases hopen.1
    | verify b =>
      cases hstep
      obtain ⟨x', q⟩ := recalled_verify s b
      exact .recalled hg q
    | cancel r =>
      cases hstep
      unfold State.cancel
      split <;> exact .beside hg ⟨rfl, rfl, rfl, rfl, rfl, rfl, rfl⟩
    | fire k =>
      obtain ⟨-, heq⟩ := Option.ite_none_right_eq_some.mp hstep
      cases heq
      exact .beside hg ⟨rfl, rfl, rfl, rfl, rfl, rfl, rfl⟩
    | stop | setConcurrency =>
      cases hstep
      exact .beside hg ⟨rfl, rfl, rfl, rfl, rfl, rfl, rfl⟩
    | launch c =>
      simp only [State.step] at hstep
      split at hstep
      · cases hstep
      rename_i x hx
      obtain ⟨hp, hstep⟩ := Option.ite_none_right_eq_some.mp hstep
      obtain ⟨r, hr, rfl⟩ := Option.map_eq_some_iff.mp hstep
      exact .launched hg hx hp hr rfl
    | create | release | record =>
      simp only [State.step] at hstep
      split at hstep
      · cases hstep
      · rename_i x hx
        obtain ⟨x', q⟩ := h.stepCall hx (by simp) hstep
        exact .recalled hg q
    | _ => cases hg

theorem Kept.step (h : Kept s) (a : Action) (hstep : State.step a s = some s') : Kept s' := by
  cases h.cases hstep with
  | moved _ _ q => exact h.moved q
  | recalled _ q => exact h.recalled q
  | launched _ hx hp hrun heq =>
    subst heq
    exact h.launch hx hp hrun
  | beside _ q => exact h.beside q

theorem Kept.run {ok : State → Action → Prop} {as : List Action}
    (h : system.Run ok .initial as s) : Kept s :=
  h.invariant (fun a _ _ hs _ hstep => hs.step a hstep) (kept_initial [])

/-- A goroutine waits in `Acquire` for a slot, and its context has not ended. -/
def State.Waits (s : State) (k : Nat) (l : Launch) : Prop :=
  ∃ i, l.phase = .acquiring i ∧ i ∉ s.gate.closed ∧ k ∉ s.gate.done

theorem isSome_gateCall {a : Gate.Action} {f : Gate.State → Launch} {g : Gate.State}
    (hg : Gate.State.step a s.gate = some g) : (s.gateCall a k f).isSome := by
  rw [State.gateCall, hg]
  rfl

theorem abort_enabled {g : Gate.State} {i ctx : Nat} (hctx : g.ctxOf i = some ctx)
    (hphase : g.phaseOf i = some .select) (hdone : ctx ∈ g.done) :
    Gate.State.step (.abort i) g = some (g.withdraw i) := by
  obtain ⟨⟨ctx', phase⟩, hc, rfl⟩ := Option.map_eq_some_iff.mp hctx
  obtain ⟨c, hc', hp⟩ := Option.map_eq_some_iff.mp hphase
  rw [hc] at hc'
  cases hc'
  cases hp
  simp only [Gate.State.step, hc]
  exact if_pos hdone

theorem Kept.goes_on (h : Kept s) (hl : s.launches[k]? = some l) (hdone : l.phase ≠ .done) :
    (∃ a s', a.goroutine = some k ∧ State.step a s = some s') ∨ s.Waits k l := by
  have hgate := h.gate k l hl
  have hgo : ∀ a : Action, a.goroutine = some k → (s.stepLaunch k l a).isSome →
      (∃ a s', a.goroutine = some k ∧ State.step a s = some s') ∨ s.Waits k l := by
    intro a ha hstep
    obtain ⟨s', hs'⟩ := Option.isSome_iff_exists.mp hstep
    exact .inl ⟨a, s', ha, (step_of_launch ha hl).trans hs'⟩
  cases hp : l.phase with
  | registered => exact hgo (.spawn k) rfl (by simp [State.stepLaunch, hp])
  | spawned =>
    refine hgo (.acquire k) rfl ?_
    rw [State.stepLaunch, if_pos hp]
    exact isSome_gateCall rfl
  | acquiring i =>
    rw [Launch.AtGate, hp] at hgate
    have hctx : s.gate.ctxOf i = some k := h.claimed k l i hl (by simp [Launch.claim, hp])
    by_cases hclosed : i ∈ s.gate.closed
    · refine hgo (.receive k) rfl ?_
      rw [State.stepLaunch, hp]
      exact isSome_gateCall (if_pos ⟨hgate.2, hclosed⟩)
    · by_cases hended : k ∈ s.gate.done
      · refine hgo (.abort k) rfl ?_
        rw [State.stepLaunch, hp]
        exact isSome_gateCall (abort_enabled hctx hgate.2 hended)
      · exact .inr ⟨i, hp, hclosed, hended⟩
  | givingBack i =>
    rw [Launch.AtGate, hp] at hgate
    refine hgo (.giveBack k) rfl ?_
    rw [State.stepLaunch, hp]
    exact isSome_gateCall (if_pos hgate.2)
  | starting => exact hgo (.start k) rfl (by simp [State.stepLaunch, hp])
  | running => exact hgo (.returns k ⟨none, none⟩) rfl (by simp [State.stepLaunch, hp])
  | ended out => exact hgo (.finish k) rfl (by simp [State.stepLaunch, hp])
  | loading out => exact hgo (.load k none) rfl (by simp [State.stepLaunch, hp])
  | closing v => exact hgo (.readPct k 0) rfl (by simp [State.stepLaunch, hp])
  | writing v pct => exact hgo (.write k) rfl (by simp [State.stepLaunch, hp])
  | releasing =>
    rw [Launch.AtGate, hp] at hgate
    obtain ⟨i, hslot, hholds⟩ := hgate
    refine hgo (.unwind k) rfl ?_
    rw [State.stepLaunch, State.unwind, hp, hslot]
    exact isSome_gateCall (if_pos hholds)
  | announcing =>
    refine hgo (.unwind k) rfl ?_
    cases hb : l.onDone <;> simp [State.stepLaunch, State.unwind, hp, hb]
  | unlisting | canceling | exiting =>
    exact hgo (.unwind k) rfl (by simp [State.stepLaunch, State.unwind, hp])
  | done => exact absurd hp hdone

theorem Kept.advances (h : Kept s) {a : Action} (hstep : State.step a s = some s')
    (hl : s.launches[k]? = some l) : ∃ l', s'.launches[k]? = some l' ∧
      if a.goroutine = some k then l.phase.rank < l'.phase.rank else l' = l := by
  have hsame : a.goroutine = none → s'.launches[k]? = some l → ∃ l', s'.launches[k]? = some l' ∧
      if a.goroutine = some k then l.phase.rank < l'.phase.rank else l' = l := by
    intro ha hl'
    rw [ha]
    exact ⟨l, hl', rfl⟩
  cases h.cases hstep with
  | @moved j y y' ha _ q =>
    rw [ha]
    by_cases hjk : j = k
    · subst hjk
      cases hl.symm.trans q.before
      exact ⟨y', by rw [q.get, if_pos rfl], by rw [if_pos rfl]; exact q.rank⟩
    · refine ⟨l, by rw [q.get, if_neg hjk, hl], ?_⟩
      rw [if_neg fun heq => hjk (Option.some.inj heq)]
  | recalled ha q => exact hsame ha (q.launches ▸ hl)
  | launched ha _ _ _ heq => exact hsame ha (heq ▸ launch_old hl)
  | beside ha q => exact hsame ha (q.launches ▸ hl)

/-- A verification that ended: it was refused, or its run has called `onDone`. -/
def State.Over (s : State) (x : Call) : Prop :=
  x.phase = .refused ∨ ∃ k l, x.phase = .launched k ∧ s.launches[k]? = some l ∧ l.dones = 1

theorem Kept.done (h : Kept s) (hl : s.launches[k]? = some l) (hp : l.phase = .done) :
    l.finishes = 1 ∧ (l.releases = 1 ↔ l.slot ≠ none) ∧ (l.dones = 1 ↔ l.onDone ≠ none) ∧
      (∀ i, l.slot = some i → s.gate.phaseOf i = some .released) ∧
      s.cancels.lookup l.runID = none ∧ s.monitors.lookup l.runID = none := by
  obtain ⟨hf, hr, hd⟩ := h.counted k l hl
  rw [hp] at hf hr hd
  have hgate := h.gate k l hl
  rw [Launch.AtGate, hp] at hgate
  have hout : ∀ {P : Phase → Prop} {table : FinMap String Nat},
      (∀ r i, table.lookup r = some i ↔ ∃ x, s.launches[i]? = some x ∧ x.runID = r ∧ P x.phase) →
      ¬ P .done → table.lookup l.runID = none := by
    intro P table htable hno
    by_contra hsome
    obtain ⟨i, hi⟩ := Option.ne_none_iff_exists'.mp hsome
    obtain ⟨x, hx, hrun, hx'⟩ := (htable l.runID i).mp hi
    cases h.sameRun hx hl hrun
    rw [hl] at hx
    cases hx
    exact hno (hp ▸ hx')
  refine ⟨hf, ?_, ?_, hgate, hout h.cancels (by decide), hout h.monitors (by decide)⟩
  · simp [hr, Phase.rank]
  · simp [hd, Phase.Unannounced, Phase.rank]

theorem Launch.Counted.le_one (h : l.Counted) : l.finishes ≤ 1 ∧ l.releases ≤ 1 ∧ l.dones ≤ 1 := by
  rw [h.finishes, h.releases, h.dones]
  refine ⟨?_, ?_, ?_⟩ <;> split <;> omega

theorem Kept.over (h : Kept s) {c : Nat} {x : Call} {b : String} (hx : s.calls[c]? = some x)
    (hover : s.Over x) : ¬ s.Busy b c := by
  rintro ⟨y, hy, hb, hopen⟩
  rw [hx] at hy
  cases hy
  rcases hover with hrefused | ⟨k, l, hk, hl, hdones⟩
  · rw [hrefused] at hopen
    exact hopen
  · rw [hk] at hopen
    obtain ⟨l', hl', hun⟩ := hopen
    rw [hl] at hl'
    cases hl'
    have hzero := (h.counted k l hl).dones
    rw [if_pos (.inr hun), hdones] at hzero
    cases hzero

/-- The life of a run, over any interleaving. -/
theorem runs_end_once (as : List Action) (s : State)
    (h : system.Run (fun _ _ => True) .initial as s) :
    (∀ (k : Nat) (l : Launch), s.launches[k]? = some l →
      l.finishes ≤ 1 ∧ l.releases ≤ 1 ∧ l.dones ≤ 1 ∧
      (l.phase = .done → l.finishes = 1 ∧ (l.releases = 1 ↔ l.slot ≠ none) ∧
        (l.dones = 1 ↔ l.onDone ≠ none) ∧ (∀ i, l.slot = some i → s.gate.phaseOf i = some .released) ∧
        s.cancels.lookup l.runID = none ∧ s.monitors.lookup l.runID = none)) ∧
    (∀ (k : Nat) (l : Launch), s.launches[k]? = some l → l.phase ≠ .done →
      (∃ a s', a.goroutine = some k ∧ State.step a s = some s') ∨ s.Waits k l) ∧
    (∀ a s' (k : Nat) (l : Launch), State.step a s = some s' → s.launches[k]? = some l →
      ∃ l', s'.launches[k]? = some l' ∧
        if a.goroutine = some k then l.phase.rank < l'.phase.rank else l' = l) ∧
    (∀ b c d, s.Busy b c → s.Busy b d → c = d) ∧
    (∀ b, (∀ (c : Nat) (x : Call), s.calls[c]? = some x → x.backup = some b → s.Over x) →
      (s.verify b).calls = s.calls ++ [⟨some b, none, .creating⟩]) := by
  have hkept := Kept.run h
  refine ⟨fun k l hl => ?_, fun k l => hkept.goes_on, fun a s' k l => hkept.advances, hkept.single,
    fun b hover => ?_⟩
  · obtain ⟨hf, hr, hd⟩ := (hkept.counted k l hl).le_one
    exact ⟨hf, hr, hd, hkept.done hl⟩
  · have hfree : s.verifying.lookup b = none := by
      by_contra hbusy
      obtain ⟨c, x, hx, hb, hopen⟩ := (hkept.busy b).mp hbusy
      exact hkept.over hx (hover c x hx hb) ⟨x, hx, hb, hopen⟩
    rw [State.verify, hfree]

/-- A verification is cancelled before it has its slot and panics; a second request for the
same backup comes while it is in flight. -/
def panickedVerify : List Action :=
  [.verify "b", .create 0 (some "r"), .verify "b", .record 0, .launch 0, .spawn 0, .cancel "r",
    .fire 0, .acquire 0, .start 0, .panics 0 "boom", .finish 0, .load 0 none, .unwind 0, .unwind 0,
    .unwind 0, .unwind 0, .unwind 0]

theorem panickedVerify_run : ∃ s, system.follow panickedVerify .initial = some s ∧
    s.calls = [⟨some "b", some "r", .launched 0⟩, ⟨some "b", none, .refused⟩] ∧
    s.launches = [⟨"r", some "b", 0, .done, some 0, 1, 1, 1⟩] := ⟨_, rfl, rfl, rfl⟩

theorem runs_end_once_panickedVerify : ∃ s l, system.follow panickedVerify .initial = some s ∧
    s.launches[0]? = some l ∧ l.phase = .done ∧ l.finishes = 1 ∧ s.cancels.lookup l.runID = none ∧
    (s.verify "b").calls = s.calls ++ [⟨some "b", none, .creating⟩] := by
  obtain ⟨s, hs, hcalls, hlaunches⟩ := panickedVerify_run
  obtain ⟨hlaunch, -, -, -, hverify⟩ :=
    runs_end_once panickedVerify s (System.run_of_follow (fun _ _ _ => trivial) hs)
  have hl : s.launches[0]? = some ⟨"r", some "b", 0, .done, some 0, 1, 1, 1⟩ := by rw [hlaunches]; rfl
  obtain ⟨-, -, -, hdone⟩ := hlaunch 0 _ hl
  refine ⟨s, _, hs, hl, rfl, (hdone rfl).1, (hdone rfl).2.2.2.2.1, hverify "b" fun c x hx _ => ?_⟩
  rw [hcalls] at hx
  rcases c with _ | _ | c
  · cases hx
    exact .inr ⟨0, _, rfl, hl, rfl⟩
  · cases hx
    exact .inl rfl
  · cases hx

end ProxBack.Sched.Lifecycle
