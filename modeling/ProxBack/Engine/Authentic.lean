import ProxBack.Engine.RestoreLogs
import ProxBack.Engine.RoundTrip

/-! Restores from targets that anyone may have written to. Every chunk is checked against its
address before a byte of it is written, so that the manifest alone decides what can come out; a
verification is the same restore with nobody at the other end. -/
namespace ProxBack.Engine
open Lib Prog

inductive VerifyErr where
  | noDisks (backupID : String)
  | engine (err : Err)
deriving DecidableEq

inductive VerifyCall where
  | restore (c : RestoreCall)
  | setStep (step : String)

abbrev VerifyReply : VerifyCall → Type
  | .restore c => RestoreReply c
  | .setStep _ => Unit

abbrev VerifyM (α : Type) := Prog VerifyCall VerifyReply α

/-- `io.Discard`. -/
def discard : (c : RestoreCall) → VerifyM (RestoreReply c)
  | .engine c => .call (.restore (.engine c)) .ret
  | .ctxErr => .call (.restore .ctxErr) .ret
  | .write _ => .ret (.ok ())

def verifyLoop (e : Engine) (sourceName : String) :
    List DiskManifest → Stats → VerifyM (Option VerifyErr × Stats)
  | [], st => .ret (none, st)
  | disk :: rest, st =>
    .call (.restore .ctxErr) fun
    | some f => .ret (some (.engine (.fault f)), st)
    | none =>
      .call (.setStep ("Verifying " ++ sourceName ++ " " ++ disk.name)) fun () =>
      interp discard (e.restoreDisk disk st) >>= fun
      | (.error err, st) => .ret (some (.engine err), st)
      | (.ok (), st) => verifyLoop e sourceName rest st

def verifyBackup (e : Engine) (m : Manifest) (st : Stats) : VerifyM (Option VerifyErr × Stats) :=
  if m.disks = [] then .ret (some (.noDisks m.backupID), st)
  else e.verifyLoop m.sourceName m.disks st

def verifyAlone : (c : VerifyCall) → Target → VerifyReply c × Target
  | .restore (.engine c), t => Target.exec c .fine t
  | .restore .ctxErr, t => (none, t)
  | .restore (.write _), t => (.ok (), t)
  | .setStep _, t => ((), t)

def offered (log : List (Σ c, RestoreReply c)) : Bytes :=
  log.flatMap fun
    | ⟨.write data, _⟩ => data
    | _ => []

@[simp] theorem offered_nil : offered [] = [] := rfl

@[simp] theorem offered_append (log log' : List (Σ c, RestoreReply c)) :
    offered (log ++ log') = offered log ++ offered log' :=
  List.flatMap_append

/-- What a writer has taken: the writes it answered with success, and any part of one that failed. -/
def Taken (log : List (Σ c, RestoreReply c)) (out : Bytes) : Prop := wrote log <+: out ∧ out <+: offered log

def From (t : Target) : (c : RestoreCall) → RestoreReply c → Prop
  | .engine c, r => ∃ x, (Target.exec c x t).1 = r
  | .ctxErr, _ | .write _, _ => True

def Held (e : Engine) (t : Target) (ch : Chunk) (data : Bytes) : Prop :=
  ∃ o, t.chunks.lookup ch.sha256 = some o ∧ decodeChunk e.zstd o.data = data ∧ Verified e ch data

theorem Held.unique {e : Engine} {t : Target} {ch : Chunk} {data data' : Bytes} (h : Held e t ch data)
    (h' : Held e t ch data') : data = data' := by
  obtain ⟨o, ho, rfl, -⟩ := h
  obtain ⟨o', ho', rfl, -⟩ := h'
  rw [ho] at ho'
  cases ho'
  rfl

section
variable {e : Engine} {t : Target} {name : String} {chunks : List Chunk} {ch : Chunk} {n : Nat} {st : Stats}
  {log : List (Σ c, RestoreReply c)}

theorem readChunk_answered : Under (fun c r => ∃ x, (Target.exec c x t).1 = r)
    (fun res => ∀ data, res = .ok data → Held e t ch data) (e.readChunk ch) := by
  rintro (err | stored) hfrom
  · exact nofun
  obtain ⟨x, hx⟩ := hfrom
  obtain ⟨-, hvalue⟩ := Choice.answer_eq_ok hx
  have hobject : ∃ o, t.chunks.lookup ch.sha256 = some o ∧ o.data = stored := by
    cases ho : t.chunks.lookup ch.sha256 with
    | none =>
      rw [ho] at hvalue
      cases hvalue
    | some o =>
      rw [ho] at hvalue
      exact ⟨o, rfl, Except.ok.inj hvalue⟩
  obtain ⟨o, ho, rfl⟩ := hobject
  dsimp only
  split
  · exact nofun
  rename_i hhash
  split
  · exact nofun
  rename_i hsize
  rintro _ ⟨⟩
  refine ⟨o, ho, rfl, not_not.mp hhash, ?_⟩
  by_cases hzero : ch.size = 0
  · exact .inl hzero
  · exact .inr (by simpa [hzero] using hsize)

theorem readChunk_held :
    Under (From t) (fun res => ∀ data, res = .ok data → Held e t ch data) (liftRestore (e.readChunk ch)) :=
  readChunk_answered.lift fun _ _ h => h

theorem readChunk_offers {q : RestoreM (Except Err Bytes)}
    (h : Logs (liftRestore (e.readChunk ch)) log q) : offered log = [] := by
  have hcalls : Calls (fun c => ∀ data, c ≠ .write data) (liftRestore (e.readChunk ch)) := by
    refine ⟨fun _ => nofun, ?_⟩
    rintro (err | stored)
    · trivial
    dsimp only
    split
    · trivial
    split
    · trivial
    · trivial
  refine List.flatMap_eq_nil_iff.mpr ?_
  rintro ⟨c, r⟩ hev
  have hquiet := hcalls.logs h ⟨c, r⟩ hev
  cases c with
  | write data => exact absurd rfl (hquiet data)
  | engine c => rfl
  | ctxErr => rfl

def plaintexts (plain : Sha → Bytes) (chunks : List Chunk) : Bytes :=
  (chunks.map fun ch => plain ch.sha256).flatten

@[simp] theorem plaintexts_cons (plain : Sha → Bytes) (ch : Chunk) (chunks : List Chunk) :
    plaintexts plain (ch :: chunks) = plain ch.sha256 ++ plaintexts plain chunks := rfl

theorem restoreChunks_offers {plain : Sha → Bytes}
    (hplain : ∀ ch ∈ chunks, ∀ data, Held e t ch data → plain ch.sha256 = data)
    {q : RestoreM (Except Err Nat × Stats)} (hlog : Logs (e.restoreChunks name chunks n st) log q)
    (hfrom : ∀ ev ∈ log, From t ev.1 ev.2) : offered log <+: plaintexts plain chunks := by
  induction chunks generalizing n st log with
  | nil =>
    obtain ⟨rfl, -⟩ := hlog.of_ret
    exact List.nil_prefix
  | cons ch rest ih =>
    cases hlog with
    | nil => exact List.nil_prefix
    | @cons _ _ log _ ctx hlog =>
      have hfrom₁ : ∀ ev ∈ log, From t ev.1 ev.2 := fun ev hev => hfrom ev (List.mem_cons_of_mem _ hev)
      show offered log <+: _
      cases ctx with
      | some f =>
        obtain ⟨rfl, -⟩ := hlog.of_ret
        exact List.nil_prefix
      | none =>
        rcases hlog.of_bind with ⟨q', hread⟩ | ⟨res, log₁, log₂, rfl, hread, hrest⟩
        · rw [readChunk_offers hread]
          exact List.nil_prefix
        rw [offered_append, readChunk_offers hread, List.nil_append]
        have hheld := readChunk_held.logs (fun ev hev => hfrom₁ ev (List.mem_append_left _ hev)) hread
        cases res with
        | error err =>
          obtain ⟨rfl, -⟩ := hrest.of_ret
          exact List.nil_prefix
        | ok data =>
          have hdata : plain ch.sha256 = data := hplain ch List.mem_cons_self data (hheld data rfl)
          rw [plaintexts_cons, hdata]
          cases hrest with
          | nil => exact List.nil_prefix
          | @cons _ _ log₂ _ res hrest =>
            show data ++ offered log₂ <+: _
            cases res with
            | error err =>
              obtain ⟨rfl, -⟩ := hrest.of_ret
              rw [offered_nil, List.append_nil]
              exact List.prefix_append _ _
            | ok u =>
              refine (List.prefix_append_right_inj data).mpr (ih ?_ hrest fun ev hev => ?_)
              · exact fun c hc => hplain c (List.mem_cons_of_mem ch hc)
              · exact hfrom₁ ev (List.mem_append_right _ (List.mem_cons_of_mem _ hev))

theorem restoreChunks_held {total : Nat} {st' : Stats}
    (hlog : Logs (e.restoreChunks name chunks n st) log (.ret (.ok total, st')))
    (hfrom : ∀ ev ∈ log, From t ev.1 ev.2) :
    ∃ datas, List.Forall₂ (Held e t) chunks datas ∧ wrote log = datas.flatten ∧
      offered log = datas.flatten ∧ total = n + datas.flatten.length := by
  induction chunks generalizing n st log with
  | nil =>
    obtain ⟨rfl, hret⟩ := hlog.of_ret
    cases hret
    exact ⟨[], .nil, rfl, rfl, rfl⟩
  | cons ch rest ih =>
    obtain ⟨_ | f, log, rfl, h₁⟩ := hlog.of_call
    rotate_left
    · cases h₁.of_ret.2
    have hfrom₁ : ∀ ev ∈ log, From t ev.1 ev.2 := fun ev hev => hfrom ev (List.mem_cons_of_mem _ hev)
    obtain ⟨err | data, log₁, log₂, rfl, hread, h₂⟩ := h₁.of_bind_ret
    · cases h₂.of_ret.2
    obtain ⟨err | ⟨⟩, log₂, rfl, h₃⟩ := h₂.of_call
    · cases h₃.of_ret.2
    have hheld := readChunk_held.logs (fun ev hev => hfrom₁ ev (List.mem_append_left _ hev)) hread data rfl
    obtain ⟨datas, hall, hwrote, hoffered, htotal⟩ := ih h₃ fun ev hev =>
      hfrom₁ ev (List.mem_append_right _ (List.mem_cons_of_mem _ hev))
    refine ⟨data :: datas, .cons hheld hall, ?_, ?_, ?_⟩
    · show wrote (log₁ ++ ([⟨.write data, .ok ()⟩] ++ log₂)) = _
      rw [wrote_append, wrote_append, (readChunk_logs hread).2.1, hwrote]
      simp [wrote]
    · show offered (log₁ ++ ([⟨.write data, .ok ()⟩] ++ log₂)) = _
      rw [offered_append, offered_append, readChunk_offers hread, hoffered]
      simp [offered]
    · rw [htotal, List.flatten_cons, List.length_append]
      omega

theorem restoreDisk_offers {dm : DiskManifest} {plain : Sha → Bytes}
    (hplain : ∀ ch ∈ dm.chunks, ∀ data, Held e t ch data → plain ch.sha256 = data)
    {q : RestoreM (Except Err Unit × Stats)} (hlog : Logs (e.restoreDisk dm st) log q)
    (hfrom : ∀ ev ∈ log, From t ev.1 ev.2) : offered log <+: plaintexts plain dm.chunks := by
  rcases hlog.of_bind with ⟨q', hloop⟩ | ⟨⟨res, st₁⟩, log₁, log₂, rfl, hloop, hrest⟩
  · exact restoreChunks_offers hplain hloop hfrom
  · have hnone : log₂ = [] := by
      cases res with
      | error err => exact hrest.of_ret.1
      | ok written =>
        dsimp only at hrest
        split at hrest
        · exact hrest.of_ret.1
        · exact hrest.of_ret.1
    rw [hnone, List.append_nil]
    exact restoreChunks_offers hplain hloop fun ev hev => hfrom ev (List.mem_append_left _ hev)

theorem restoreDisk_held {dm : DiskManifest} {st' : Stats}
    (hlog : Logs (e.restoreDisk dm st) log (.ret (.ok (), st'))) (hfrom : ∀ ev ∈ log, From t ev.1 ev.2) :
    ∃ datas, List.Forall₂ (Held e t) dm.chunks datas ∧ wrote log = datas.flatten ∧
      offered log = datas.flatten ∧ (dm.sizeBytes ≠ 0 → datas.flatten.length = dm.sizeBytes) := by
  obtain ⟨⟨err | written, st₁⟩, log₁, log₂, rfl, hloop, h₁⟩ := hlog.of_bind_ret
  · cases h₁.of_ret.2
  dsimp only at h₁
  split at h₁
  · cases h₁.of_ret.2
  rename_i hsize
  obtain ⟨rfl, -⟩ := h₁.of_ret
  rw [List.append_nil] at hfrom ⊢
  obtain ⟨datas, hall, hwrote, hoffered, htotal⟩ := restoreChunks_held hloop hfrom
  refine ⟨datas, hall, hwrote, hoffered, fun hne => ?_⟩
  rw [Nat.zero_add] at htotal
  rw [← htotal]
  by_contra hdiff
  exact hsize ⟨hne, hdiff⟩

/-- The target has every chunk of the disk, and as many bytes as the manifest says. -/
def Whole (e : Engine) (t : Target) (dm : DiskManifest) (out : Bytes) : Prop :=
  ∃ datas, List.Forall₂ (Held e t) dm.chunks datas ∧ datas.flatten = out ∧
    (dm.sizeBytes ≠ 0 → out.length = dm.sizeBytes)

theorem run_readChunk_iff {out data : Bytes} :
    (run restoreAlone (liftRestore (e.readChunk ch)) (t, out)).1 = .ok data ↔ Held e t ch data := by
  rw [run_readChunk]
  dsimp only
  unfold Held Verified
  cases ho : t.chunks.lookup ch.sha256 with
  | none =>
    refine iff_of_false nofun ?_
    rintro ⟨o, hnone, -⟩
    cases hnone
  | some o =>
    dsimp only
    constructor
    · intro h
      split at h
      · cases h
      rename_i hhash
      split at h
      · cases h
      rename_i hsize
      cases h
      exact ⟨o, rfl, rfl, not_not.mp hhash, by tauto⟩
    · rintro ⟨_, ⟨⟩, rfl, hhash, hsize⟩
      rw [if_neg (not_not.mpr hhash), if_neg (by tauto)]

@[simp] theorem run_readChunk_state (out : Bytes) :
    (run restoreAlone (liftRestore (e.readChunk ch)) (t, out)).2 = (t, out) := by
  rw [run_readChunk]

theorem run_restoreChunks_cases (name : String) (chunks : List Chunk) (n : Nat) (st : Stats) (out : Bytes) :
    (∃ datas st', List.Forall₂ (Held e t) chunks datas ∧
        run restoreAlone (e.restoreChunks name chunks n st) (t, out) =
          ((.ok (n + datas.flatten.length), st'), (t, out ++ datas.flatten))) ∨
      ∃ err st' out', (¬ ∃ datas, List.Forall₂ (Held e t) chunks datas) ∧
        run restoreAlone (e.restoreChunks name chunks n st) (t, out) = ((.error err, st'), (t, out')) := by
  induction chunks generalizing n st out with
  | nil => exact .inl ⟨[], st, .nil, by simp [restoreChunks]⟩
  | cons ch rest ih =>
    have hstate : (run restoreAlone (liftRestore (e.readChunk ch)) (t, out)).2 = (t, out) :=
      run_readChunk_state out
    have hiff : ∀ data, (run restoreAlone (liftRestore (e.readChunk ch)) (t, out)).1 = .ok data ↔
        Held e t ch data := fun data => run_readChunk_iff
    rw [restoreChunks, run_call]
    simp only [restoreAlone]
    rw [run_bind, hstate]
    cases hread : (run restoreAlone (liftRestore (e.readChunk ch)) (t, out)).1 with
    | error err =>
      refine .inr ⟨_, _, out, ?_, rfl⟩
      rintro ⟨datas, hall⟩
      cases hall with
      | cons hheld _ =>
        cases hread.symm.trans ((hiff _).mpr hheld)
    | ok data =>
      have hheld := (hiff data).mp hread
      dsimp only
      rw [run_call]
      simp only [restoreAlone]
      rcases ih (n + data.length) (st.record data.length 0) (out ++ data) with
        ⟨datas, st', hall, hrun⟩ | ⟨err, st', out', hnone, hrun⟩
      · refine .inl ⟨data :: datas, st', .cons hheld hall, ?_⟩
        rw [hrun, List.flatten_cons, List.length_append, Nat.add_assoc, List.append_assoc]
      · refine .inr ⟨err, st', out', ?_, hrun⟩
        rintro ⟨datas, hall⟩
        cases hall with
        | cons _ hrest => exact hnone ⟨_, hrest⟩

theorem held_datas_unique {datas datas' : List Bytes} (h : List.Forall₂ (Held e t) chunks datas)
    (h' : List.Forall₂ (Held e t) chunks datas') : datas = datas' := by
  induction h generalizing datas' with
  | nil =>
    cases h'
    rfl
  | cons hd _ ih =>
    cases h' with
    | cons hd' hrest => rw [hd.unique hd', ih hrest]

theorem run_restoreDisk_cases (dm : DiskManifest) (st : Stats) :
    (∃ out st', Whole e t dm out ∧
        run restoreAlone (e.restoreDisk dm st) (t, []) = ((.ok (), st'), (t, out))) ∨
      ∃ err st' out', (¬ ∃ out, Whole e t dm out) ∧
        run restoreAlone (e.restoreDisk dm st) (t, []) = ((.error err, st'), (t, out')) := by
  unfold restoreDisk
  rw [run_bind]
  rcases run_restoreChunks_cases (e := e) (t := t) dm.name dm.chunks 0 st [] with
    ⟨datas, st', hall, hrun⟩ | ⟨err, st', out', hnone, hrun⟩
  · rw [hrun, Nat.zero_add, List.nil_append]
    dsimp only
    split
    · rename_i hsize
      refine .inr ⟨_, _, _, ?_, rfl⟩
      rintro ⟨out, datas', hall', rfl, hlen⟩
      rw [held_datas_unique hall hall'] at hsize
      exact hsize.2 (hlen hsize.1)
    · rename_i hsize
      refine .inl ⟨datas.flatten, st', ⟨datas, hall, rfl, fun hne => ?_⟩, rfl⟩
      by_contra hdiff
      exact hsize ⟨hne, hdiff⟩
  · rw [hrun]
    refine .inr ⟨err, st', out', ?_, rfl⟩
    rintro ⟨out, datas, hall, -⟩
    exact hnone ⟨datas, hall⟩

def Restores (e : Engine) (t : Target) (dm : DiskManifest) : Prop :=
  ∀ st, (run restoreAlone (e.restoreDisk dm st) (t, [])).1.1 = .ok ()

theorem restores_iff {dm : DiskManifest} : Restores e t dm ↔ ∃ out, Whole e t dm out := by
  constructor
  · intro h
    rcases run_restoreDisk_cases (e := e) (t := t) dm .zero with ⟨out, st', hwhole, -⟩ | ⟨err, st', out', -, hrun⟩
    · exact ⟨out, hwhole⟩
    · have hok := h .zero
      rw [hrun] at hok
      cases hok
  · intro hwhole st
    rcases run_restoreDisk_cases (e := e) (t := t) dm st with ⟨out, st', -, hrun⟩ | ⟨err, st', out', hnone, -⟩
    · rw [hrun]
    · exact absurd hwhole hnone

theorem run_discard {α : Type} (p : RestoreM α) (t : Target) (out : Bytes) :
    run verifyAlone (interp discard p) t =
      ((run restoreAlone p (t, out)).1, (run restoreAlone p (t, out)).2.1) := by
  induction p generalizing t out with
  | ret a => rfl
  | call c k ih =>
    rw [interp, run_bind]
    cases c with
    | engine c => exact ih _ _ _
    | ctxErr => exact ih _ _ _
    | write data => exact ih _ _ _

theorem run_verifyLoop_iff (sourceName : String) (disks : List DiskManifest) (st : Stats) :
    (run verifyAlone (e.verifyLoop sourceName disks st) t).1.1 = none ↔ ∀ disk ∈ disks, Restores e t disk := by
  induction disks generalizing st with
  | nil => exact iff_of_true rfl nofun
  | cons disk rest ih =>
    rw [verifyLoop, run_call]
    simp only [verifyAlone]
    rw [run_call]
    simp only [verifyAlone]
    rw [run_bind, run_discard _ t [], List.forall_mem_cons, restores_iff]
    rcases run_restoreDisk_cases (e := e) (t := t) disk st with
      ⟨out, st', hwhole, hrun⟩ | ⟨err, st', out', hnone, hrun⟩
    · rw [hrun]
      exact (ih st').trans (and_iff_right ⟨out, hwhole⟩).symm
    · rw [hrun]
      exact iff_of_false nofun fun h => hnone h.1

def VerifyFrom (t : Target) : (c : VerifyCall) → VerifyReply c → Prop
  | .restore c, r => From t c r
  | .setStep _, _ => True

theorem verifyLoop_under (sourceName : String) (disks : List DiskManifest) (st : Stats) :
    Under (VerifyFrom t) (fun out => out.1 = none → ∀ disk ∈ disks, Restores e t disk)
      (e.verifyLoop sourceName disks st) := by
  induction disks generalizing st with
  | nil => exact fun _ => nofun
  | cons disk rest ih =>
    rintro (- | f) -
    swap
    · exact nofun
    intro _ _
    have hdisk : Under (From t) (fun out => out.1 = .ok () → Restores e t disk) (e.restoreDisk disk st) := by
      refine .of_logs ?_
      rintro log ⟨res, st'⟩ hfrom hlog hok
      cases hok
      obtain ⟨datas, hall, -, -, hlen⟩ := restoreDisk_held hlog hfrom
      exact restores_iff.mpr ⟨_, datas, hall, rfl, hlen⟩
    have hdiscard : ∀ c, Under (VerifyFrom t) (From t c) (discard c) := by
      intro c
      cases c with
      | engine c => exact fun r h => h
      | ctxErr => exact fun r h => h
      | write data => trivial
    refine (hdisk.interp hdiscard).bind ?_
    rintro ⟨err | ⟨⟩, st'⟩ hrestores
    · exact nofun
    · exact (ih st').mono fun out hrest hnone => List.forall_mem_cons.mpr ⟨hrestores rfl, hrest hnone⟩

end

def Target.Decodes (t : Target) (e : Engine) (data : Set Bytes) : Prop :=
  ∀ sha o, t.chunks.lookup sha = some o → decodeChunk e.zstd o.data ∈ data

/-- A restore from the target has come as far as `q`, and the writer has taken `out`. -/
def Restoring (e : Engine) (dm : DiskManifest) (t : Target) (q : RestoreM (Except Err Unit × Stats))
    (out : Bytes) : Prop :=
  ∃ st log, Logs (e.restoreDisk dm st) log q ∧ (∀ ev ∈ log, From t ev.1 ev.2) ∧ Taken log out

section
variable {e : Engine} {data : Set Bytes} {t : Target} {dm : DiskManifest} {out : Bytes}
  {q : RestoreM (Except Err Unit × Stats)}

theorem Held.plain {plain : Sha → Bytes} (hplain : Set.LeftInvOn plain e.hash data) (ht : t.Decodes e data)
    {ch : Chunk} {d : Bytes} (h : Held e t ch d) : plain ch.sha256 = d := by
  obtain ⟨o, ho, rfl, hhash, -⟩ := h
  rw [← hhash]
  exact hplain (ht _ o ho)

theorem Restoring.bounded {plain : Sha → Bytes} (hplain : Set.LeftInvOn plain e.hash data)
    (ht : t.Decodes e data) (h : Restoring e dm t q out) : out <+: plaintexts plain dm.chunks := by
  obtain ⟨st, log, hlog, hfrom, htaken⟩ := h
  exact htaken.2.trans (restoreDisk_offers (fun ch _ d hheld => hheld.plain hplain ht) hlog hfrom)

theorem Restoring.whole {st : Stats} (h : Restoring e dm t (.ret (.ok (), st)) out) : Whole e t dm out := by
  obtain ⟨st₀, log, hlog, hfrom, hwrote, hoffered⟩ := h
  obtain ⟨datas, hall, hw, ho, hlen⟩ := restoreDisk_held hlog hfrom
  rw [hw] at hwrote
  rw [ho] at hoffered
  have hout : datas.flatten = out :=
    List.Sublist.antisymm hwrote.sublist hoffered.sublist
  exact ⟨datas, hall, hout, hout ▸ hlen⟩

theorem Whole.held (h : Whole e t dm out) : ∀ ch ∈ dm.chunks, ∃ d, Held e t ch d := by
  obtain ⟨datas, hall, -⟩ := h
  intro ch hch
  obtain ⟨i, hi, rfl⟩ := List.mem_iff_getElem.mp hch
  have hlen := hall.length_eq
  exact ⟨datas[i], hall.get hi (by omega)⟩

theorem Whole.eq_plaintexts {plain : Sha → Bytes} (hplain : Set.LeftInvOn plain e.hash data)
    (ht : t.Decodes e data) (h : Whole e t dm out) : out = plaintexts plain dm.chunks := by
  obtain ⟨datas, hall, rfl, -⟩ := h
  have hdatas : dm.chunks.map (fun ch => plain ch.sha256) = datas :=
    List.forall₂_eq_eq_eq ▸ List.forall₂_map_left_iff.mpr (hall.imp fun _ _ hheld => hheld.plain hplain ht)
  rw [plaintexts, hdatas]

end

/-- What comes out of a restore is decided by the manifest, whatever the target holds; the target
decides how much of it comes out. -/
theorem restores_authentic {e : Engine} {data : Set Bytes} (hinj : Set.InjOn e.hash data) :
    (∀ (dm : DiskManifest) (t₁ t₂ : Target) (q₁ q₂ : RestoreM (Except Err Unit × Stats)) (out₁ out₂ : Bytes),
      t₁.Decodes e data → t₂.Decodes e data → Restoring e dm t₁ q₁ out₁ → Restoring e dm t₂ q₂ out₂ →
      (out₁ <+: out₂ ∨ out₂ <+: out₁) ∧
      (∀ plain, Set.LeftInvOn plain e.hash data → out₁ <+: plaintexts plain dm.chunks) ∧
      (∀ st₁, q₁ = .ret (.ok (), st₁) →
        (∀ ch ∈ dm.chunks, ∃ d, Held e t₁ ch d) ∧
        (dm.sizeBytes ≠ 0 → out₁.length = dm.sizeBytes) ∧
        ∀ st₂, q₂ = .ret (.ok (), st₂) → out₁ = out₂)) ∧
    (∀ (m : Manifest) (t : Target), m.disks ≠ [] →
      (∀ st, (run verifyAlone (e.verifyBackup m st) t).1.1 = none ↔ ∀ disk ∈ m.disks, Restores e t disk) ∧
      (∀ st log st', Logs (e.verifyBackup m st) log (.ret (none, st')) →
        (∀ ev ∈ log, VerifyFrom t ev.1 ev.2) → ∀ disk ∈ m.disks, Restores e t disk)) := by
  have hleft : Set.LeftInvOn (Function.invFunOn e.hash data) e.hash data := hinj.leftInvOn_invFunOn
  refine ⟨fun dm t₁ t₂ q₁ q₂ out₁ out₂ ht₁ ht₂ h₁ h₂ => ⟨?_, ?_, ?_⟩, fun m t hdisks => ⟨?_, ?_⟩⟩
  · exact List.prefix_or_prefix_of_prefix (h₁.bounded hleft ht₁) (h₂.bounded hleft ht₂)
  · exact fun plain hplain => h₁.bounded hplain ht₁
  · rintro st₁ rfl
    have hwhole₁ := h₁.whole
    refine ⟨hwhole₁.held, ?_, ?_⟩
    · obtain ⟨-, -, -, hlen⟩ := hwhole₁
      exact hlen
    · rintro st₂ rfl
      rw [hwhole₁.eq_plaintexts hleft ht₁, h₂.whole.eq_plaintexts hleft ht₂]
  · intro st
    rw [verifyBackup, if_neg hdisks]
    exact run_verifyLoop_iff m.sourceName m.disks st
  · intro st log st' hlog hfrom
    rw [verifyBackup, if_neg hdisks] at hlog
    exact (verifyLoop_under m.sourceName m.disks st).logs hfrom hlog rfl

def byteDisk : DiskManifest := ⟨"scsi0", 1, [⟨byteSha, 1⟩]⟩

def byteManifest : Manifest where
  backupID := "b1"
  jobID := "j1"
  jobName := "nightly"
  runID := "r1"
  sourceKind := .vm
  sourceID := "h1_100"
  sourceName := "web"
  targetID := "t1"
  createdAt := 1
  kind := .full
  parentID := ""
  sizeBytes := 1
  uploadedBytes := 1
  chunkSize := chunkSize
  disks := [byteDisk]

def byteTarget : Target := Target.putObject ⟨∅, ∅, ∅⟩ byteSha [7] 0

def cutTarget : Target := Target.putObject ⟨∅, ∅, ∅⟩ byteSha [] 0

theorem rawHash_injOn : Set.InjOn rawEngine.hash {[7], []} := by
  rintro a (rfl | rfl) b (rfl | rfl) h
  · rfl
  · exact absurd h (by decide)
  · exact absurd h (by decide)
  · rfl

theorem single_decodes {body : Bytes} {data : Set Bytes} (h : decodeChunk rawEngine.zstd body ∈ data) :
    (Target.putObject ⟨∅, ∅, ∅⟩ byteSha body 0).Decodes rawEngine data := by
  intro sha o ho
  unfold Target.putObject at ho
  rw [FinMap.lookup_insert_ite] at ho
  split at ho
  · cases ho
    exact h
  · cases ho

theorem byte_restoring : Restoring rawEngine byteDisk byteTarget (.ret (.ok (), Stats.zero.record 1 0)) [7] := by
  refine ⟨.zero, [⟨.ctxErr, none⟩, ⟨.engine (.getBytes byteSha), .ok [7]⟩, ⟨.write [7], .ok ()⟩], ?_, ?_, ?_⟩
  · exact .cons _ (.cons _ (.cons _ .nil))
  · simp only [List.forall_mem_cons]
    exact ⟨trivial, ⟨.fine, rfl⟩, trivial, List.forall_mem_nil _⟩
  · exact ⟨List.prefix_refl _, List.prefix_refl _⟩

theorem cut_restoring : Restoring rawEngine byteDisk cutTarget
    (.ret (.error (.restore "scsi0" (.hashMismatch byteSha emptySha)), .zero)) [] := by
  refine ⟨.zero, [⟨.ctxErr, none⟩, ⟨.engine (.getBytes byteSha), .ok []⟩], ?_, ?_, ?_⟩
  · exact .cons _ (.cons _ .nil)
  · simp only [List.forall_mem_cons]
    exact ⟨trivial, ⟨.fine, rfl⟩, List.forall_mem_nil _⟩
  · exact ⟨List.prefix_refl _, List.prefix_refl _⟩

theorem byte_authentic : (([] : Bytes) <+: [7] ∨ [7] <+: ([] : Bytes)) ∧ [7].length = byteDisk.sizeBytes ∧
    (run verifyAlone (rawEngine.verifyBackup byteManifest .zero) byteTarget).1.1 = none ∧
    (run verifyAlone (rawEngine.verifyBackup byteManifest .zero) cutTarget).1.1 ≠ none := by
  have hbyte : byteTarget.Decodes rawEngine {[7], []} := single_decodes (.inl rfl)
  have hcut : cutTarget.Decodes rawEngine {[7], []} := single_decodes (.inr rfl)
  obtain ⟨hrestores, hverifies⟩ := restores_authentic rawHash_injOn
  obtain ⟨hcomparable, -, -⟩ := hrestores byteDisk _ _ _ _ _ _ hcut hbyte cut_restoring byte_restoring
  obtain ⟨-, -, hnil⟩ := hrestores byteDisk _ _ _ _ _ _ hbyte hcut byte_restoring cut_restoring
  obtain ⟨-, hlength, -⟩ := hnil _ rfl
  refine ⟨hcomparable, hlength nofun, ?_, ?_⟩
  · refine ((hverifies byteManifest byteTarget nofun).1 .zero).mpr fun disk hdisk => ?_
    cases List.mem_singleton.mp hdisk
    exact restores_iff.mpr ⟨_, byte_restoring.whole⟩
  · intro hnone
    have hrestores := ((hverifies byteManifest cutTarget nofun).1 .zero).mp hnone byteDisk List.mem_cons_self
    cases hrestores .zero

end ProxBack.Engine
