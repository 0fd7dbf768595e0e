import ProxBack.Engine.Serial
import ProxBack.Engine.StreamComplete

/-! Accounting in a run where no call fails and nothing is cancelled: whichever
worker gets to upload a chunk, every new chunk is credited to one unit. -/
namespace ProxBack.Engine
open Lib Prog

def PipelineAction.Calm {w : Nat} : PipelineAction w → Prop
  | .callerEnds _ => False
  | .worker _ (.go x) => x.fault = none
  | _ => True

def Acct.sent : Acct → Nat
  | .there n | .stored n => n
  | _ => 0

def Worker.unrecorded : Worker → Option Nat
  | .taken u | .storing u _ | .failing u _ | .placing u _ _ | .recording u _ => some u.seq
  | _ => none

def Worker.Credits (credit : Nat → Nat) (u : Acct) : Worker → Prop
  | .taken v => credit v.seq = 0
  | .storing v c =>
    match c.st with
    | .entering | .waiting _ => credit v.seq = 0
    | .putting _ _ => credit v.seq = u.sent
    | .publishing _ res | .returned res => res = .ok (credit v.seq)
  | .failing _ _ => False
  | .placing v _ n | .recording v n => n = credit v.seq
  | _ => True

namespace Pipeline

variable {w : Nat}

/-- Nothing has failed, and every credit is a new chunk's upload. `recorded` are
the positions the counters already include. -/
structure Counted (e : Engine) (units : List Bytes) (t : Target) (st : Stats)
    (acct : Fin w → Acct) (credit : Nat → Nat) (recorded : Finset Nat) (s : Pipeline w) : Prop where
  ctx : s.ctx = none
  firstErr : s.firstErr = none
  reader : ∀ f, s.reader ≠ .finished (some (.fault f))
  unfailed : ∀ i, acct i ≠ .failed
  done : ∀ p err, s.shared.done p ≠ some (some err)
  credits : ∀ i, (s.workers i).Credits credit (acct i)
  distinct : ∀ i j k, (s.workers i).unrecorded = some k → (s.workers j).unrecorded = some k → i = j
  kept : ∀ a, t.Present a → s.shared.target.Present a
  amount : ∀ k, 0 < credit k → k < s.seq ∧ credit k = (e.body (unitAt units k)).length ∧
    ¬ t.Present (e.hash (unitAt units k)) ∧ s.shared.target.Present (e.hash (unitAt units k))
  once : ∀ k l, 0 < credit k → 0 < credit l →
    e.hash (unitAt units k) = e.hash (unitAt units l) → k = l
  paid : ∀ a, s.shared.target.Present a → ¬ t.Present a →
    ∃ k, 0 < credit k ∧ e.hash (unitAt units k) = a
  mem_recorded : ∀ k, k ∈ recorded ↔ k < s.seq ∧ ∀ i, (s.workers i).unrecorded ≠ some k
  stats : s.stats = st.plus recorded (fun k => (unitAt units k).length) credit

theorem counted_initial (e : Engine) (units : List Bytes) (script : List ReadReply) (t : Target)
    (st : Stats) :
    Counted e units t st (fun _ => .unknown) (fun _ => 0) ∅
      (initial none script t st : Pipeline w) where
  ctx := rfl
  firstErr := rfl
  reader := nofun
  unfailed _ := nofun
  done _ _ := nofun
  credits _ := trivial
  distinct := nofun
  kept _ := id
  amount _ h := absurd h (Nat.lt_irrefl 0)
  once _ _ h := absurd h (Nat.lt_irrefl 0)
  paid a h hmiss := absurd h hmiss
  mem_recorded k := by simp [initial]
  stats := (st.plus_empty _ _).symm

variable {e : Engine} {name : String} {script : List ReadReply} {units : List Bytes} {t : Target}
  {st : Stats} {acct acct' : Fin w → Acct} {credit : Nat → Nat} {recorded : Finset Nat}
  {s s' : Pipeline w} {a : PipelineAction w} {i : Fin w}

theorem Counted.control (h : s.Counted e units t st acct credit recorded)
    (hctx : s'.ctx = s.ctx) (hfirst : s'.firstErr = s.firstErr)
    (hreader : ∀ f, s'.reader ≠ .finished (some (.fault f)))
    (hworkers : s'.workers = s.workers) (hshared : s'.shared = s.shared)
    (hseq : s'.seq = s.seq) (hstats : s'.stats = s.stats) :
    s'.Counted e units t st acct credit recorded where
  ctx := hctx.trans h.ctx
  firstErr := hfirst.trans h.firstErr
  reader := hreader
  unfailed := h.unfailed
  done := by
    rw [hshared]
    exact h.done
  credits := by
    rw [hworkers]
    exact h.credits
  distinct := by
    rw [hworkers]
    exact h.distinct
  kept := by
    rw [hshared]
    exact h.kept
  amount := by
    rw [hshared, hseq]
    exact h.amount
  once := h.once
  paid := by
    rw [hshared]
    exact h.paid
  mem_recorded := by
    rw [hworkers, hseq]
    exact h.mem_recorded
  stats := hstats.trans h.stats

/-- A worker's step that keeps its unit unrecorded, or that of a worker with nothing
to record, and uploads nothing. -/
theorem Counted.work (h : s.Counted e units t st acct credit recorded) {wk : Worker}
    (hctx : s'.ctx = s.ctx) (hfirst : s'.firstErr = s.firstErr) (hreader : s'.reader = s.reader)
    (hworkers : s'.workers = Function.update s.workers i wk) (hseq : s'.seq = s.seq)
    (hstats : s'.stats = s.stats) (hacct : ∀ j, acct' j ≠ .failed)
    (hsame : ∀ j, j ≠ i → acct' j = acct j)
    (hdone : ∀ p err, s'.shared.done p ≠ some (some err))
    (hpresent : ∀ a, s'.shared.target.Present a ↔ s.shared.target.Present a)
    (hcredit : wk.Credits credit (acct' i))
    (hunrec : wk.unrecorded = (s.workers i).unrecorded) :
    s'.Counted e units t st acct' credit recorded := by
  have hun : ∀ j, (s'.workers j).unrecorded = (s.workers j).unrecorded := by
    intro j
    rw [hworkers]
    by_cases hj : j = i
    · subst hj
      rw [Function.update_self, hunrec]
    · rw [Function.update_of_ne hj]
  constructor
  · exact hctx.trans h.ctx
  · exact hfirst.trans h.firstErr
  · rw [hreader]
    exact h.reader
  · exact hacct
  · exact hdone
  · intro j
    rw [hworkers]
    by_cases hj : j = i
    · subst hj
      rw [Function.update_self]
      exact hcredit
    · rw [Function.update_of_ne hj, hsame j hj]
      exact h.credits j
  · intro j l k hj hl
    rw [hun] at hj hl
    exact h.distinct j l k hj hl
  · intro b hb
    rw [hpresent]
    exact h.kept b hb
  · intro k hk
    rw [hseq, hpresent]
    exact h.amount k hk
  · exact h.once
  · intro b hb
    rw [hpresent] at hb
    exact h.paid b hb
  · intro k
    rw [hseq, h.mem_recorded]
    simp only [hun]
  · rw [hstats]
    exact h.stats

theorem Counted.record (h : s.Counted e units t st acct credit recorded) {u : ChunkUnit} {n : Nat}
    (hi : s.workers i = .recording u n) (hunit : s.UnitOk units u) :
    { s.setWorker i (.recycling u) with stats := s.stats.record u.n n }.Counted e units t st acct
      credit (insert u.seq recorded) := by
  have hun : (s.workers i).unrecorded = some u.seq := by rw [hi]; rfl
  have hnot : u.seq ∉ recorded := fun hmem => ((h.mem_recorded _).mp hmem).2 i hun
  have hcredit := h.credits i
  rw [hi] at hcredit
  have hother : ∀ j, j ≠ i → (s.setWorker i (.recycling u)).workers j = s.workers j :=
    fun j hj => Function.update_of_ne hj ..
  have hself : (s.setWorker i (.recycling u)).workers i = .recycling u := Function.update_self ..
  have hback : ∀ j k, ((s.setWorker i (.recycling u)).workers j).unrecorded = some k →
      j ≠ i ∧ (s.workers j).unrecorded = some k := by
    intro j k hk
    by_cases hj : j = i
    · rw [hj, hself] at hk
      cases hk
    · rw [hother j hj] at hk
      exact ⟨hj, hk⟩
  constructor
  · exact h.ctx
  · exact h.firstErr
  · exact h.reader
  · exact h.unfailed
  · exact h.done
  · intro j
    by_cases hj : j = i
    · rw [hj]
      dsimp only
      rw [hself]
      trivial
    · dsimp only
      rw [hother j hj]
      exact h.credits j
  · intro j l k hj hl
    exact h.distinct j l k (hback j k hj).2 (hback l k hl).2
  · exact h.kept
  · exact h.amount
  · exact h.once
  · exact h.paid
  · intro k
    rw [Finset.mem_insert, h.mem_recorded]
    constructor
    · rintro (rfl | ⟨hlt, hall⟩)
      · refine ⟨hunit.lt, fun j hj => ?_⟩
        obtain ⟨hne, hj⟩ := hback j _ hj
        exact hne (h.distinct j i _ hj hun)
      · exact ⟨hlt, fun j hj => hall j (hback j k hj).2⟩
    · rintro ⟨hlt, hall⟩
      by_cases hk : k = u.seq
      · exact .inl hk
      · refine .inr ⟨hlt, fun j hj => ?_⟩
        have hji : j ≠ i := by
          rintro rfl
          rw [hun] at hj
          exact hk (Option.some.inj hj).symm
        exact hall j (by dsimp only; rw [hother j hji]; exact hj)
  · have hsize : (unitAt units u.seq).length = u.n := by
      rw [unitAt_eq hunit.data, hunit.length]
    have hplus := st.plus_record hnot (fun k => (unitAt units k).length) credit
    rw [hsize, ← hcredit, ← h.stats] at hplus
    exact hplus

theorem Counted.handOff (h : s.Counted e units t st acct credit recorded) {u : ChunkUnit}
    {err : Option Err} (hi : s.workers i = .idle) (hseq : u.seq = s.seq)
    (hold : ∀ j v, (s.workers j).unit = some v → v.seq < s.seq) :
    { s.setWorker i (.taken u) with seq := s.seq + 1, reader := .deciding err }.Counted
      e units t st acct credit recorded := by
  have hother : ∀ j, j ≠ i → (s.setWorker i (.taken u)).workers j = s.workers j :=
    fun j hj => Function.update_of_ne hj ..
  have hself : (s.setWorker i (.taken u)).workers i = .taken u := Function.update_self ..
  have hlt : ∀ j k, (s.workers j).unrecorded = some k → k < s.seq := by
    intro j k hk
    cases hwk : s.workers j <;> rw [hwk] at hk <;> cases hk
    all_goals exact hold j _ (by rw [hwk]; rfl)
  have hzero : credit s.seq = 0 := by
    by_contra hpos
    exact absurd (h.amount s.seq (Nat.pos_of_ne_zero hpos)).1 (Nat.lt_irrefl _)
  constructor
  · exact h.ctx
  · exact h.firstErr
  · exact nofun
  · exact h.unfailed
  · exact h.done
  · intro j
    by_cases hj : j = i
    · rw [hj]
      dsimp only
      rw [hself]
      show credit u.seq = 0
      rw [hseq]
      exact hzero
    · dsimp only
      rw [hother j hj]
      exact h.credits j
  · intro j l k hj hl
    dsimp only at hj hl
    by_cases hji : j = i
    · by_cases hli : l = i
      · rw [hji, hli]
      · rw [hji, hself] at hj
        rw [hother l hli] at hl
        cases hj
        exact absurd (hlt l _ hl) (by rw [hseq]; exact Nat.lt_irrefl _)
    · rw [hother j hji] at hj
      by_cases hli : l = i
      · rw [hli, hself] at hl
        cases hl
        exact absurd (hlt j _ hj) (by rw [hseq]; exact Nat.lt_irrefl _)
      · rw [hother l hli] at hl
        exact h.distinct j l k hj hl
  · exact h.kept
  · intro k hk
    obtain ⟨hks, hrest⟩ := h.amount k hk
    exact ⟨Nat.lt_succ_of_lt hks, hrest⟩
  · exact h.once
  · exact h.paid
  · intro k
    rw [h.mem_recorded]
    dsimp only
    constructor
    · rintro ⟨hk, hall⟩
      refine ⟨Nat.lt_succ_of_lt hk, fun j hj => ?_⟩
      by_cases hji : j = i
      · rw [hji, hself] at hj
        cases hj
        omega
      · rw [hother j hji] at hj
        exact hall j hj
    · rintro ⟨hk, hall⟩
      have hks : k ≠ s.seq := by
        rintro rfl
        refine hall i ?_
        rw [hself]
        exact congrArg some hseq
      refine ⟨by omega, fun j hj => ?_⟩
      have hji : j ≠ i := by
        rintro rfl
        rw [hi] at hj
        cases hj
      refine hall j ?_
      rw [hother j hji]
      exact hj
  · exact h.stats

/-- A call of a leader that is not an upload changes neither what it has sent nor
which objects are there. -/
theorem Acct_next_calm {sha : Sha} {data : Bytes} {c : Call} {u : Acct} {t : Target} {x : Choice}
    (hc : u.allows e sha data c) (hu : u ≠ .failed) (hx : x.fault = none)
    (hput : ∀ a body, c ≠ .put a body) :
    (Acct.next c (Target.exec c x t).1 u).sent = u.sent ∧
      Acct.next c (Target.exec c x t).1 u ≠ .failed ∧
      ∀ a, (Target.exec c x t).2.Present a ↔ t.Present a := by
  cases c with
  | hasChunk a =>
    obtain ⟨rfl, rfl⟩ := hc
    simp only [Target.exec, Choice.answer, hx]
    cases (t.index.lookup a).isSome with
    | true => exact ⟨rfl, by rintro ⟨⟩, fun _ => trivial⟩
    | false => exact ⟨rfl, by rintro ⟨⟩, fun _ => trivial⟩
  | head a =>
    obtain ⟨rfl, rfl⟩ := hc
    simp only [Target.exec, Choice.answer, hx]
    cases t.chunks.lookup a with
    | some o => exact ⟨rfl, by rintro ⟨⟩, fun _ => trivial⟩
    | none => exact ⟨rfl, by rintro ⟨⟩, fun _ => trivial⟩
  | waitUpload n =>
    simp only [Target.exec, Choice.answer, hx]
    exact ⟨rfl, hu, fun _ => trivial⟩
  | put a body => exact absurd rfl (hput a body)
  | addChunk a size =>
    obtain ⟨rfl, n, rfl⟩ := hc
    simp only [Target.exec, Choice.answer, Choice.outcome, hx]
    exact ⟨rfl, by rintro ⟨⟩, fun _ => Iff.rfl⟩
  | _ => exact hc.elim

section Store

variable {K : Nat → Prop} {owner : Nat → Sha} {m : StoreMove} {u : ChunkUnit} {c : StoreCall}
  {sh : Shared} {st' : StoreState}

theorem Counted.put (h : s.Counted e (unitsOf name script).1 t st acct credit recorded)
    (hsane : s.Sane (fun _ => False) K e name script owner acct)
    (hi : s.workers i = .storing u c) {p : Nat} {sha : Sha} {body : Bytes}
    {k : Reply (.put sha body) → EngineM (Except Err Nat)} {x : Choice}
    (hst : c.st = .putting p (.call (.put sha body) k)) (hx : x.fault = none) :
    { s.setWorker i (.storing u { c with
          st := .putting p (k (Target.exec (.put sha body) x s.shared.target).1) }) with
        shared := { s.shared with
          target := (Target.exec (.put sha body) x s.shared.target).2 } }.Counted
      e (unitsOf name script).1 t st
      (Function.update acct i (.there body.length))
      (Function.update credit u.seq body.length) recorded := by
  have hok := hsane.coherent.each i c (by rw [calls, hi]; rfl)
  unfold StoreCall.Ok at hok
  rw [hst] at hok
  obtain ⟨-, -, -, -, hruns, hagrees⟩ := hok
  obtain ⟨hsha, hbody, habsent⟩ := hruns.1
  rw [habsent] at hagrees
  have hwork := hsane.each i
  rw [hi] at hwork
  obtain ⟨hunit, hdata, hcsha⟩ := hwork
  have hd : unitAt (unitsOf name script).1 u.seq = s.unitData u := unitAt_eq hunit.data
  have hhash : e.hash (unitAt (unitsOf name script).1 u.seq) = sha := by
    rw [hd, hsha, hcsha]
  have hlen : body.length = (e.body (unitAt (unitsOf name script).1 u.seq)).length := by
    rw [hd, hbody, hdata]
  have hpos : 0 < body.length := by
    rw [hlen]
    apply List.length_pos_of_ne_nil
    rw [hd]
    exact e.body_ne_nil ((unitsOf_sizes name script).1 _ (List.mem_of_getElem? hunit.data)).1
  have hmiss : ¬ s.shared.target.Present sha := by
    rw [hsha]
    exact hagrees.2
  have htarget : (Target.exec (.put sha body) x s.shared.target).2 =
      s.shared.target.putObject sha body x.stamp := if_pos (.inl hx)
  have hpresent : ∀ b, (Target.exec (.put sha body) x s.shared.target).2.Present b ↔
      b = sha ∨ s.shared.target.Present b := by
    intro b
    rw [htarget]
    exact s.shared.target.present_putObject b sha body x.stamp
  have hun : (s.workers i).unrecorded = some u.seq := by rw [hi]; rfl
  have hother : ∀ j wk, j ≠ i → (s.setWorker i wk).workers j = s.workers j :=
    fun j wk hj => Function.update_of_ne hj ..
  have hself : ∀ wk, (s.setWorker i wk).workers i = wk := fun wk => Function.update_self ..
  have hunrec : ∀ j st'', ((s.setWorker i (.storing u { c with st := st'' })).workers j).unrecorded =
      (s.workers j).unrecorded := by
    intro j st''
    by_cases hj : j = i
    · rw [hj, hself, hun]
      rfl
    · rw [hother j _ hj]
  have hnew : ∀ k, k ≠ u.seq → Function.update credit u.seq body.length k = credit k :=
    fun k hk => Function.update_of_ne hk ..
  have hseq : Function.update credit u.seq body.length u.seq = body.length :=
    Function.update_self ..
  constructor
  · exact h.ctx
  · exact h.firstErr
  · exact h.reader
  · intro j
    by_cases hj : j = i
    · rw [hj, Function.update_self]
      simp
    · rw [Function.update_of_ne hj]
      exact h.unfailed j
  · exact h.done
  · intro j
    by_cases hj : j = i
    · rw [hj, Function.update_self]
      dsimp only
      rw [hself]
      exact hseq
    · rw [Function.update_of_ne hj]
      dsimp only
      rw [hother j _ hj]
      have hcredits := h.credits j
      cases hwk : s.workers j with
      | idle => trivial
      | exited => trivial
      | recycling v => trivial
      | failing v err =>
        rw [hwk] at hcredits
        exact hcredits.elim
      | taken v | storing v d | placing v b n | recording v n =>
        have hne : v.seq ≠ u.seq := by
          intro heq
          exact hj (h.distinct j i u.seq (by rw [hwk, ← heq]; rfl) hun)
        rw [hwk] at hcredits
        unfold Worker.Credits at hcredits ⊢
        simp only [hnew v.seq hne]
        exact hcredits
  · intro j l k hj hl
    dsimp only at hj hl
    rw [hunrec] at hj hl
    exact h.distinct j l k hj hl
  · intro b hb
    exact (hpresent b).mpr (.inr (h.kept b hb))
  · intro k hk
    by_cases hku : k = u.seq
    · rw [hku, hseq]
      refine ⟨hunit.lt, hlen, ?_, ?_⟩
      · rw [hhash]
        exact fun hb => hmiss (h.kept sha hb)
      · rw [hhash]
        exact (hpresent sha).mpr (.inl rfl)
    · rw [hnew k hku] at hk ⊢
      obtain ⟨hlt, hamount, hold, hthere⟩ := h.amount k hk
      exact ⟨hlt, hamount, hold, (hpresent _).mpr (.inr hthere)⟩
  · have hclash : ∀ k, k ≠ u.seq → 0 < credit k →
        e.hash (unitAt (unitsOf name script).1 k) ≠ sha := by
      intro k hk hpos heq
      exact hmiss (heq ▸ (h.amount k hpos).2.2.2)
    intro k l hk hl heq
    by_cases hku : k = u.seq
    · by_cases hlu : l = u.seq
      · rw [hku, hlu]
      · rw [hnew l hlu] at hl
        rw [hku, hhash] at heq
        exact absurd heq.symm (hclash l hlu hl)
    · rw [hnew k hku] at hk
      by_cases hlu : l = u.seq
      · rw [hlu, hhash] at heq
        exact absurd heq (hclash k hku hk)
      · rw [hnew l hlu] at hl
        exact h.once k l hk hl heq
  · intro b hb hold
    rcases (hpresent b).mp hb with rfl | hb
    · exact ⟨u.seq, by rw [hseq]; exact hpos, hhash⟩
    · obtain ⟨k, hk, hkb⟩ := h.paid b hb hold
      have hku : k ≠ u.seq := by
        rintro rfl
        rw [hhash] at hkb
        exact hmiss (hkb ▸ hb)
      exact ⟨k, by rw [hnew k hku]; exact hk, hkb⟩
  · intro k
    rw [h.mem_recorded]
    dsimp only
    simp only [hunrec]
    rfl
  · show s.stats = _
    rw [h.stats]
    apply st.plus_congr
    intro k hk
    have hku : k ≠ u.seq := by
      rintro rfl
      exact ((h.mem_recorded _).mp hk).2 i hun
    rw [hnew k hku]

theorem Counted.store (h : s.Counted e (unitsOf name script).1 t st acct credit recorded)
    (hsane : s.Sane (fun _ => False) K e name script owner acct)
    (hi : s.workers i = .storing u c) (hcalm : PipelineAction.Calm (.worker i m))
    (hst : StoreStep e c.sha c.data s.ctx s.shared m c.st sh st') :
    ∃ credit', { s.setWorker i (.storing u { c with st := st' }) with shared := sh }.Counted
      e (unitsOf name script).1 t st (s.nextAcct acct (.worker i m)) credit' recorded := by
  have hok := hsane.coherent.each i c (by rw [calls, hi]; rfl)
  have hcredits := h.credits i
  rw [hi] at hcredits
  have hunrec : ∀ st'', (Worker.storing u { c with st := st'' }).unrecorded =
      (s.workers i).unrecorded := by
    intro st''
    rw [hi]
    rfl
  have hsame : ∀ v j, j ≠ i → Function.update acct i v j = acct j :=
    fun v j hj => Function.update_of_ne hj ..
  have hfail : ∀ v, v ≠ .failed → ∀ j, Function.update acct i v j ≠ .failed := by
    intro v hv j
    by_cases hj : j = i
    · rw [hj, Function.update_self]
      exact hv
    · rw [hsame v j hj]
      exact h.unfailed j
  rw [nextAcct_call hi]
  generalize hcst : c.st = st₀ at hst
  unfold StoreCall.Ok at hok
  unfold Worker.Credits at hcredits
  rw [hcst] at hok
  simp only [hcst] at hcredits
  have hafter : ∀ v, Acct.after s.shared c m (acct i) = v → v ≠ .failed →
      (∀ p err, sh.done p ≠ some (some err)) →
      (∀ a, sh.target.Present a ↔ s.shared.target.Present a) →
      (Worker.storing u { c with st := st' }).Credits credit v →
      ∃ credit', { s.setWorker i (.storing u { c with st := st' }) with shared := sh }.Counted
        e (unitsOf name script).1 t st
        (Function.update acct i (Acct.after s.shared c m (acct i))) credit' recorded := by
    intro v hv hne hdone hpresent hcredit
    refine ⟨credit, h.work rfl rfl rfl rfl rfl rfl (hfail _ (hv ▸ hne)) (hsame _) hdone hpresent
      ?_ (hunrec st')⟩
    rw [Function.update_self, hv]
    exact hcredit
  unfold Acct.after at hafter ⊢
  simp only [hcst] at hafter ⊢
  cases hst with
  | join hp => exact hafter .unknown rfl (by simp) h.done (fun _ => Iff.rfl) hcredits
  | lead hp => exact hafter .unknown rfl (by simp) h.done (fun _ => Iff.rfl) hcredits
  | credited hp =>
    apply hafter (acct i) rfl (h.unfailed i) h.done (fun _ => Iff.rfl)
    show Except.ok 0 = Except.ok (credit u.seq)
    rw [hcredits]
  | retry hp => exact absurd hp (h.done _ _)
  | giveUp hf =>
    rw [h.ctx] at hf
    cases hf
  | @call p cl k x =>
    have hx : x.fault = none := hcalm
    obtain ⟨-, -, -, -, hruns, -⟩ := hok
    by_cases hput : ∃ sha body, cl = .put sha body
    · obtain ⟨sha, body, rfl⟩ := hput
      refine ⟨Function.update credit u.seq body.length, ?_⟩
      have hnext : Acct.next (.put sha body) (Target.exec (.put sha body) x s.shared.target).1
          (acct i) = .there body.length := by
        simp only [Target.exec, Choice.answer, hx, Acct.next]
      dsimp only
      rw [hnext]
      exact h.put hsane hi hcst hx
    · obtain ⟨hsent, hne, hpresent⟩ := Acct_next_calm (t := s.shared.target) hruns.1
        (h.unfailed i) hx (fun sha body heq => hput ⟨sha, body, heq⟩)
      exact hafter _ rfl hne h.done hpresent (hcredits.trans hsent.symm)
  | @unlist _ p res =>
    apply hafter (acct i) rfl (h.unfailed i) h.done (fun _ => Iff.rfl)
    show res = .ok (credit u.seq)
    rcases hok.2.2.2.2.1 with ⟨n, hres, hstored⟩ | ⟨err, -, hfailed⟩
    · rw [hres, hcredits, hstored]
      rfl
    · exact absurd hfailed (h.unfailed i)
  | @publish _ p res =>
    apply hafter (acct i) rfl (h.unfailed i) _ (fun _ => Iff.rfl) hcredits
    intro q err
    by_cases hq : q = p
    · dsimp only
      rw [hq, Function.update_self, hcredits]
      rintro ⟨⟩
    · dsimp only
      rw [Function.update_of_ne hq]
      exact h.done q err

end Store

theorem endErr_ne_fault (name : String) (err : Err) (f : Fault) :
    endErr name err ≠ some (.fault f) := by
  unfold endErr
  split <;> exact nofun

variable {K : Nat → Prop} {owner : Nat → Sha}

theorem Counted.step (h : s.Counted e (unitsOf name script).1 t st acct credit recorded)
    (hsane : s.Sane (fun _ => False) K e name script owner acct) (hstep : Step e name s a s')
    (hcalm : a.Calm) :
    ∃ credit' recorded',
      s'.Counted e (unitsOf name script).1 t st (s.nextAcct acct a) credit' recorded' := by
  have hend : ∀ {f : Fault}, s.ctx ≠ some f := by
    intro f
    rw [h.ctx]
    exact nofun
  have hkeep : ∀ wk i m, (s.workers i).call = none → s'.ctx = s.ctx → s'.firstErr = s.firstErr →
      s'.reader = s.reader → s'.workers = Function.update s.workers i wk → s'.seq = s.seq →
      s'.stats = s.stats → s'.shared = s.shared → wk.Credits credit (acct i) →
      wk.unrecorded = (s.workers i).unrecorded → ∃ credit' recorded',
        s'.Counted e (unitsOf name script).1 t st (s.nextAcct acct (.worker i m)) credit'
          recorded' := by
    intro wk i m hcall hctx hfirst hreader hworkers hseq hstats hshared hcredit hunrec
    rw [nextAcct_same hcall]
    refine ⟨credit, recorded, h.work hctx hfirst hreader hworkers hseq hstats h.unfailed
      (fun _ _ => rfl) ?_ ?_ hcredit hunrec⟩
    · rw [hshared]
      exact h.done
    · rw [hshared]
      exact fun _ => Iff.rfl
  cases hstep with
  | callerEnds f hcaller => exact hcalm.elim
  | headCanceled hr hctx => exact absurd hctx hend
  | waitCanceled hr hctx => exact absurd hctx hend
  | sendCanceled hr hctx => exact absurd hctx hend
  | skip hi hctx => exact absurd hctx hend
  | head hr hctx | getFree hr hfree | getNone hr hfree | alloc hr hroom | allocFull hr hroom
  | fill hr hread hd | fillNone hr hread | again hr =>
    exact ⟨credit, recorded, h.control rfl rfl nofun rfl rfl rfl rfl⟩
  | @ended err hr =>
    refine ⟨credit, recorded, h.control rfl rfl ?_ rfl rfl rfl rfl⟩
    intro f hf
    exact endErr_ne_fault name err f (Reader.finished.inj hf)
  | handOff hr hi =>
    refine ⟨credit, recorded, h.handOff hi (hsane.reading.sending _ _ hr).1 ?_⟩
    exact fun j v hv => ((hsane.each j).unitOk hv).lt
  | close hr hclosed => exact ⟨credit, recorded, h.control rfl rfl h.reader rfl rfl rfl rfl⟩
  | finish hr hres hclosed hall =>
    exact ⟨credit, recorded, h.control rfl rfl h.reader rfl rfl rfl rfl⟩
  | exit hi hclosed =>
    exact hkeep _ _ _ (by rw [hi]; rfl) rfl rfl rfl rfl rfl rfl rfl trivial (by rw [hi]; rfl)
  | @begin i m u hi hctx =>
    have hcredit := h.credits i
    rw [hi] at hcredit
    exact hkeep _ _ _ (by rw [hi]; rfl) rfl rfl rfl rfl rfl rfl rfl hcredit (by rw [hi]; rfl)
  | store hi hst =>
    obtain ⟨credit', hcounted⟩ := h.store hsane hi hcalm hst
    exact ⟨credit', recorded, hcounted⟩
  | @storeErr i m u c err hi hst =>
    have hcredit := h.credits i
    unfold Worker.Credits at hcredit
    simp only [hi, hst] at hcredit
    cases hcredit
  | @storeOk i m u c n hi hst =>
    have hcredit := h.credits i
    unfold Worker.Credits at hcredit
    simp only [hi, hst] at hcredit
    rw [nextAcct_returned hi hst]
    exact ⟨credit, recorded, h.work rfl rfl rfl rfl rfl rfl h.unfailed (fun _ _ => rfl) h.done
      (fun _ => Iff.rfl) (Except.ok.inj hcredit) (by rw [hi]; rfl)⟩
  | @fail i m u err hi hfirst =>
    have hcredit := h.credits i
    rw [hi] at hcredit
    exact hcredit.elim
  | @failAgain i m u err err' hi hfirst =>
    have hcredit := h.credits i
    rw [hi] at hcredit
    exact hcredit.elim
  | @place i m u sha n hi =>
    have hcredit := h.credits i
    rw [hi] at hcredit
    exact hkeep _ _ _ (by rw [hi]; rfl) rfl rfl rfl rfl rfl rfl rfl hcredit (by rw [hi]; rfl)
  | @record i m u n hi =>
    have hunit := hsane.each i
    rw [hi] at hunit
    rw [nextAcct_same (by rw [hi]; rfl)]
    exact ⟨credit, insert u.seq recorded, h.record hi hunit⟩
  | recycle hi =>
    exact hkeep _ _ _ (by rw [hi]; rfl) rfl rfl rfl rfl rfl rfl rfl trivial (by rw [hi]; rfl)

theorem counted_run (ht : t.Sound) {acts : List (PipelineAction w)}
    (hrun : (backupStream e w name).Run (fun _ a => a.Calm) (initial none script t st) acts s) :
    ∃ owner acct credit recorded, s.Sane (fun _ => False) (fun _ => True) e name script owner acct ∧
      s.Counted e (unitsOf name script).1 t st acct credit recorded := by
  apply hrun.invariant (I := fun s => ∃ owner acct credit recorded,
    s.Sane (fun _ => False) (fun _ => True) e name script owner acct ∧
      s.Counted e (unitsOf name script).1 t st acct credit recorded)
  · rintro a s₁ s₂ ⟨owner, acct, credit, recorded, hsane, hcounted⟩ hcalm hstep
    have hcases := step_cases hstep
    obtain ⟨owner', hsane'⟩ := hsane.step hcases (not_skips hcounted.ctx)
    obtain ⟨credit', recorded', hcounted'⟩ := hcounted.step hsane hcases hcalm
    exact ⟨owner', _, credit', recorded', hsane', hcounted'⟩
  · exact ⟨_, _, _, _, sane_initial _ e name none script (Target.soundBut_false.mpr ht) st,
      counted_initial e _ script t st⟩

theorem Counted.recorded_eq (h : s.Counted e units t st acct credit recorded)
    (hall : ∀ i, s.workers i = .exited) : recorded = Finset.range s.seq := by
  ext k
  rw [h.mem_recorded, Finset.mem_range]
  constructor
  · exact fun hk => hk.1
  · intro hk
    refine ⟨hk, fun i hi => ?_⟩
    rw [hall i] at hi
    cases hi

theorem Counted.fair (h : s.Counted e units t st acct credit recorded)
    (hseq : s.seq = units.length)
    (hstored : ∀ d ∈ units, s.shared.target.Present (e.hash d)) :
    Fair e t units credit where
  amount k _ hpos := ⟨(h.amount k hpos).2.1, (h.amount k hpos).2.2.1⟩
  once k l _ _ := h.once k l
  some k hk hmiss := by
    obtain ⟨l, hl, hhash⟩ := h.paid _ (hstored _ (unitAt_mem hk)) hmiss
    refine ⟨l, ?_, hl, hhash⟩
    rw [← hseq]
    exact (h.amount l hl).1

end Pipeline

end ProxBack.Engine
