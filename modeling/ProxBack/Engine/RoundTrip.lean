import ProxBack.Engine.StreamComplete
import Mathlib.Data.Set.Function

/-! Backup, then restore. The stream comes back exactly unless a row of the index had
lost its object, or a chunk was stored raw that looks like a compressed one. -/
namespace ProxBack.Engine
open Lib Prog

section Objects

variable {ι : Type} {stale : Sha → Prop} {e : Engine} {sh : Shared}
  {calls : ι → Option StoreCall} {owner : Nat → Sha} {acct : ι → Acct} {i : ι} {c : StoreCall}

/-- A step of a call leaves every object as it is, but for the one it uploads,
which was not there. -/
theorem Coherent.objects (h : Coherent stale e sh calls owner acct) (hc : calls i = some c)
    {ctx : Option Fault} {m : StoreMove} {sh' : Shared} {st' : StoreState}
    (hstep : StoreStep e c.sha c.data ctx sh m c.st sh' st') (a : Sha) :
    sh'.target.chunks.lookup a = sh.target.chunks.lookup a ∨
      a = c.sha ∧ ¬ sh.target.Present a ∧
        ∃ stamp, sh'.target.chunks.lookup a = some ⟨e.body c.data, stamp⟩ := by
  have hok := h.each i c hc
  generalize hst : c.st = st at hstep
  cases hstep with
  | @call p cl k x =>
    unfold StoreCall.Ok at hok
    rw [hst] at hok
    obtain ⟨-, -, -, -, hruns, hagrees⟩ := hok
    have hallows := hruns.1
    cases cl with
    | put sha body =>
      obtain ⟨rfl, rfl, hu⟩ := hallows
      rw [hu] at hagrees
      rcases x.outcome_cases sh.target (sh.target.putObject c.sha (e.body c.data) x.stamp)
        with ho | ⟨ho, -⟩
      · by_cases ha : a = c.sha
        · refine .inr ⟨ha, ha ▸ hagrees.2, x.stamp, ?_⟩
          show (x.outcome _ _).chunks.lookup a = _
          rw [ho, ha]
          exact AList.lookup_insert _
        · refine .inl ?_
          show (x.outcome _ _).chunks.lookup a = _
          rw [ho]
          exact AList.lookup_insert_ne ha
      · refine .inl ?_
        show (x.outcome _ _).chunks.lookup a = _
        rw [ho]
    | addChunk sha size =>
      refine .inl ?_
      exact x.outcome_of (P := fun t => t.chunks.lookup a = sh.target.chunks.lookup a) rfl rfl
    | deleteChunk => exact hallows.elim
    | delete => exact hallows.elim
    | putManifest => exact hallows.elim
    | deleteManifest => exact hallows.elim
    | _ => exact .inl rfl
  | _ => exact .inl rfl

end Objects

/-- The objects that were there before are unchanged, and every new one is the
stored form of a unit of the stream. -/
structure Pipeline.Objects {w : Nat} (e : Engine) (units : List Bytes) (t : Target)
    (s : Pipeline w) : Prop where
  old : ∀ a, t.Present a → s.shared.target.chunks.lookup a = t.chunks.lookup a
  new : ∀ a o, ¬ t.Present a → s.shared.target.chunks.lookup a = some o →
    ∃ d ∈ units, a = e.hash d ∧ o.data = e.body d

theorem Pipeline.Objects.step {w : Nat} {stale : Sha → Prop} {K : Nat → Prop} {e : Engine}
    {name : String} {script : List ReadReply} {owner : Nat → Sha} {acct : Fin w → Acct}
    {s s' : Pipeline w} {a : PipelineAction w} {t : Target}
    (h : s.Objects e (unitsOf name script).1 t) (hsane : s.Sane stale K e name script owner acct)
    (hstep : Step e name s a s') : s'.Objects e (unitsOf name script).1 t := by
  cases hstep with
  | @store i m u c sh st hi hst =>
    have hok := hsane.each i
    rw [hi] at hok
    obtain ⟨hunit, hdata, hsha⟩ := hok
    have hobj := hsane.coherent.objects (by rw [Pipeline.calls, hi]; rfl) hst
    constructor
    · intro b hb
      rcases hobj b with hsame | ⟨-, hmiss, -⟩
      · exact hsame.trans (h.old b hb)
      · have hthere : s.shared.target.Present b := by
          rw [Target.Present, h.old b hb]
          exact hb
        exact absurd hthere hmiss
    · intro b o hb ho
      rcases hobj b with hsame | ⟨hbc, -, stamp, hnew⟩
      · exact h.new b o hb (hsame.symm.trans ho)
      · refine ⟨s.unitData u, List.mem_of_getElem? hunit.data, hbc.trans hsha, ?_⟩
        have heq := hnew.symm.trans ho
        cases heq
        rw [hdata]
  | _ => exact ⟨h.old, h.new⟩

theorem Pipeline.objects_run {w : Nat} {stale : Sha → Prop} {K : Nat → Prop} {e : Engine}
    {name : String} {script : List ReadReply} {caller : Option Fault} {t : Target}
    (ht : t.SoundBut stale) {st : Stats} {acts : List (PipelineAction w)} {s : Pipeline w}
    (hrun : (backupStream e w name).Run (fun s a => ¬ s.Skips K a)
      (.initial caller script t st) acts s) :
    (∃ owner acct, s.Sane stale K e name script owner acct) ∧
      s.Objects e (unitsOf name script).1 t := by
  apply hrun.invariant (I := fun s => (∃ owner acct, s.Sane stale K e name script owner acct) ∧
    s.Objects e (unitsOf name script).1 t)
  · intro a s₁ s₂ hinv hskip hstep
    obtain ⟨⟨owner, acct, hsane⟩, hobj⟩ := hinv
    obtain ⟨owner', hsane'⟩ := hsane.step (step_cases hstep) hskip
    exact ⟨⟨owner', _, hsane'⟩, hobj.step hsane (step_cases hstep)⟩
  · refine ⟨⟨_, _, sane_initial K e name caller script ht st⟩, fun _ _ => rfl, ?_⟩
    intro a o hmiss ho
    exact absurd (by rw [Target.Present, show t.chunks.lookup a = some o from ho]; rfl) hmiss

/-- A restore that nothing disturbs: every call is answered, the context is alive,
and the writer takes all bytes. -/
def restoreAlone : (c : RestoreCall) → Target × Bytes → RestoreReply c × (Target × Bytes)
  | .engine c, (t, out) => ((Target.exec c .fine t).1, ((Target.exec c .fine t).2, out))
  | .ctxErr, s => (none, s)
  | .write data, (t, out) => (.ok (), (t, out ++ data))

def Restorable (e : Engine) (t : Target) (d : Bytes) : Prop :=
  ∃ o, t.chunks.lookup (e.hash d) = some o ∧ decodeChunk e.zstd o.data = d

theorem run_readChunk (e : Engine) (t : Target) (out : Bytes) (ch : Chunk) :
    run restoreAlone (liftRestore (e.readChunk ch)) (t, out) =
      (match t.chunks.lookup ch.sha256 with
        | none => .error .notFound
        | some o =>
          let data := decodeChunk e.zstd o.data
          if e.hash data ≠ ch.sha256 then .error (.hashMismatch ch.sha256 (e.hash data))
          else if ch.size ≠ 0 ∧ data.length ≠ ch.size then
            .error (.chunkLength ch.sha256 data.length ch.size)
          else .ok data, (t, out)) := by
  unfold readChunk liftRestore
  simp only [lift, run_call, restoreAlone]
  cases hobj : t.chunks.lookup ch.sha256 with
  | none =>
    have hget : Target.exec (.getBytes ch.sha256) .fine t = (.error .notFound, t) := by
      simp only [Target.exec, hobj]
      rfl
    rw [hget]
    rfl
  | some o =>
    have hget : Target.exec (.getBytes ch.sha256) .fine t = (.ok o.data, t) := by
      simp only [Target.exec, hobj]
      rfl
    rw [hget]
    dsimp only
    split
    · rfl
    · split <;> rfl

theorem run_restoreChunks_ok (e : Engine) (name : String) {t : Target} {units : List Bytes}
    (h : ∀ d ∈ units, Restorable e t d) (out : Bytes) (written : Nat) (st : Stats) :
    ∃ st', run restoreAlone (e.restoreChunks name (units.map (chunkOf e)) written st) (t, out) =
      ((.ok (written + units.flatten.length), st'), (t, out ++ units.flatten)) := by
  induction units generalizing out written st with
  | nil => exact ⟨st, by simp [restoreChunks]⟩
  | cons d rest ih =>
    obtain ⟨o, ho, hd⟩ := h d List.mem_cons_self
    obtain ⟨st', hrun⟩ := ih (fun d hd => h d (List.mem_cons_of_mem _ hd)) (out ++ d)
      (written + d.length) (st.record d.length 0)
    refine ⟨st', ?_⟩
    have hread : run restoreAlone (liftRestore (e.readChunk (chunkOf e d))) (t, out) =
        (.ok d, (t, out)) := by
      rw [run_readChunk]
      simp [chunkOf, ho, hd]
    rw [List.map_cons, restoreChunks, run_call]
    simp only [restoreAlone]
    rw [run_bind, hread]
    simp only [run_call, restoreAlone]
    rw [hrun]
    simp only [List.flatten_cons, List.length_append, List.append_assoc, Nat.add_assoc]

/-- A restore that returns nil has read every chunk back with the hash and the
length the manifest names. -/
theorem run_restoreChunks_inv (e : Engine) (name : String) {t t' : Target} {units : List Bytes}
    (hne : ∀ d ∈ units, d ≠ []) {out out' : Bytes} {written total : Nat} {st st' : Stats}
    (h : run restoreAlone (e.restoreChunks name (units.map (chunkOf e)) written st) (t, out) =
      ((.ok total, st'), (t', out'))) :
    ∃ read : List Bytes, out' = out ++ read.flatten ∧
      List.Forall₂ (fun d r => ∃ o, t.chunks.lookup (e.hash d) = some o ∧
        decodeChunk e.zstd o.data = r ∧ r.length = d.length) units read := by
  induction units generalizing out written st with
  | nil =>
    simp only [List.map_nil, restoreChunks, run_ret, Prod.mk.injEq] at h
    exact ⟨[], by simp [h.2.2], .nil⟩
  | cons d rest ih =>
    rw [List.map_cons, restoreChunks, run_call] at h
    simp only [restoreAlone] at h
    rw [run_bind, run_readChunk] at h
    have hd : d ≠ [] := hne d List.mem_cons_self
    cases ho : t.chunks.lookup (e.hash d) with
    | none =>
      simp [chunkOf, ho] at h
    | some o =>
      have hsize : d.length ≠ 0 := fun hz => hd (List.length_eq_zero_iff.mp hz)
      by_cases hhash : e.hash (decodeChunk e.zstd o.data) = e.hash d
      · by_cases hlen : (decodeChunk e.zstd o.data).length = d.length
        · simp only [chunkOf, ho, hhash, hlen, ne_eq, not_true_eq_false, if_false, and_false,
            run_call, restoreAlone] at h
          obtain ⟨read, hout, hall⟩ := ih (fun d hd => hne d (List.mem_cons_of_mem _ hd)) h
          refine ⟨decodeChunk e.zstd o.data :: read, ?_, .cons ⟨o, ho, rfl, hlen⟩ hall⟩
          rw [hout, List.flatten_cons, List.append_assoc]
        · simp [chunkOf, ho, hhash, hlen, hsize] at h
      · simp [chunkOf, ho, hhash] at h

theorem eq_of_flatten_eq {units read : List Bytes} {R : Bytes → Bytes → Prop}
    (hlen : ∀ d r, R d r → r.length = d.length) (h : List.Forall₂ R units read)
    (hflat : read.flatten = units.flatten) : read = units := by
  induction h with
  | nil => rfl
  | @cons d r ds rs hdr _ ih =>
    rw [List.flatten_cons, List.flatten_cons] at hflat
    obtain ⟨hr, hrs⟩ := List.append_inj hflat (hlen d r hdr)
    rw [hr, ih hrs]

/-- A restore of a complete manifest returns nil and writes the stream exactly
when every unit reads back. -/
theorem restoreDisk_iff (e : Engine) {t : Target} {units : List Bytes} {dm : DiskManifest}
    (hne : ∀ d ∈ units, d ≠ []) (hchunks : dm.chunks = units.map (chunkOf e))
    (hsize : dm.sizeBytes = units.flatten.length) (st : Stats) :
    (∃ st' t', run restoreAlone (e.restoreDisk dm st) (t, []) =
      ((.ok (), st'), (t', units.flatten))) ↔ ∀ d ∈ units, Restorable e t d := by
  unfold restoreDisk
  rw [run_bind, hchunks]
  constructor
  · rintro ⟨st', t', hrun⟩
    obtain ⟨⟨res, st₁⟩, ⟨t₁, out⟩, hloop⟩ : ∃ r s', run restoreAlone
        (e.restoreChunks dm.name (units.map (chunkOf e)) 0 st) (t, []) = (r, s') := ⟨_, _, rfl⟩
    rw [hloop] at hrun
    cases res with
    | error err => simp at hrun
    | ok total =>
      have hout : out = units.flatten := by
        dsimp only at hrun
        split at hrun
        · simp at hrun
        · simp only [run_ret, Prod.mk.injEq] at hrun
          exact hrun.2.2
      obtain ⟨read, hread, hall⟩ := run_restoreChunks_inv e dm.name hne hloop
      rw [List.nil_append, hout] at hread
      have hsame : read = units := by
        apply eq_of_flatten_eq _ hall hread.symm
        rintro d r ⟨o, -, -, hlen⟩
        exact hlen
      rw [hsame] at hall
      intro d hd
      obtain ⟨o, ho, hdec, -⟩ := List.forall₂_same.mp hall d hd
      exact ⟨o, ho, hdec⟩
  · intro h
    obtain ⟨st', hloop⟩ := run_restoreChunks_ok e dm.name h [] 0 st
    refine ⟨st', t, ?_⟩
    rw [hloop]
    simp [hsize]

/-- Raw bytes the reader would take for a compressed chunk: they begin with the
magic, and what follows decodes to something else. -/
def Lookalike (z : Zstd) (d : Bytes) : Prop :=
  chunkMagic <+: d ∧ ∃ dec out, z.decoder = some dec ∧
    dec (d.drop chunkMagic.length) = some out ∧ out ≠ d

theorem decodeChunk_raw_iff (z : Zstd) (d : Bytes) :
    decodeChunk z d = d ↔ ¬ Lookalike z d := by
  rw [decodeChunk_eq_self_iff]
  constructor
  · rintro h ⟨hmagic, dec, out, hdec, hout, hne⟩
    exact hne (h dec out hmagic hdec hout)
  · intro h dec out hmagic hdec hout
    by_contra hne
    exact h ⟨hmagic, dec, out, hdec, hout, hne⟩

theorem decodeChunk_compressChunk_iff {z : Zstd} (hz : z.Lawful) {d : Bytes}
    (hd : d.length ≤ chunkSize) :
    decodeChunk z (compressChunk z d) = d ↔ (compressChunk z d = d → ¬ Lookalike z d) := by
  rcases compressChunk_cases z d with hraw | ⟨enc, henc, hframe, hlt⟩
  · rw [hraw, decodeChunk_raw_iff]
    exact ⟨fun h _ => h, fun h => h rfl⟩
  · rw [hframe]
    refine iff_of_true (decodeChunk_frame hz henc hd) fun heq => ?_
    rw [heq] at hlt
    exact absurd hlt (Nat.lt_irrefl _)

/-- Each object was written by `putChunk` for bytes with its hash, under one
compression setting or the other; `plain` are those bytes. -/
def Target.WrittenFor (t : Target) (e : Engine) (plain : Sha → Bytes) : Prop :=
  ∀ a o, t.chunks.lookup a = some o → e.hash (plain a) = a ∧ (plain a).length ≤ chunkSize ∧
    (o.data = plain a ∨ o.data = compressChunk e.zstd (plain a))

/-- The form a unit has on the target after the backup: the object that was there
for its hash, else what an upload sends. -/
def Target.storedForm (t : Target) (e : Engine) (d : Bytes) : Bytes :=
  match t.chunks.lookup (e.hash d) with
  | some o => o.data
  | none => e.body d

section StoredForm

variable {e : Engine} {t : Target} {plain : Sha → Bytes} {units : List Bytes} {d : Bytes}

def CollisionFree (e : Engine) (t : Target) (plain : Sha → Bytes) (units : List Bytes) : Prop :=
  Set.InjOn e.hash {d | d ∈ units ∨ ∃ a, t.Present a ∧ d = plain a}

theorem storedForm_cases (hprior : t.WrittenFor e plain) (hfree : CollisionFree e t plain units)
    (hd : d ∈ units) : t.storedForm e d = d ∨ t.storedForm e d = compressChunk e.zstd d := by
  unfold Target.storedForm
  cases ho : t.chunks.lookup (e.hash d) with
  | none =>
    dsimp only
    unfold body
    split
    · exact .inr rfl
    · exact .inl rfl
  | some o =>
    obtain ⟨hplain, -, hform⟩ := hprior _ o ho
    have hpresent : t.Present (e.hash d) := by rw [Target.Present, ho]; rfl
    have hsame : plain (e.hash d) = d := hfree (.inr ⟨_, hpresent, rfl⟩) (.inl hd) hplain
    rw [hsame] at hform
    exact hform

theorem decodeChunk_storedForm_iff (hz : e.zstd.Lawful) (hprior : t.WrittenFor e plain)
    (hfree : CollisionFree e t plain units) (hd : d ∈ units) (hlen : d.length ≤ chunkSize) :
    decodeChunk e.zstd (t.storedForm e d) = d ↔
      (t.storedForm e d = d → ¬ Lookalike e.zstd d) := by
  rcases storedForm_cases hprior hfree hd with hform | hform <;> rw [hform]
  · rw [decodeChunk_raw_iff]
    exact ⟨fun h _ => h, fun h => h rfl⟩
  · exact decodeChunk_compressChunk_iff hz hlen

end StoredForm

/-- After a run every unit reads back exactly when its row was not stale and its
stored form is not a raw lookalike. -/
theorem restorable_iff {w : Nat} {e : Engine} {name : String} {script : List ReadReply}
    {t : Target} {plain : Sha → Bytes} {K : Nat → Prop} {owner : Nat → Sha}
    {acct : Fin w → Acct} {s : Pipeline w} (hz : e.zstd.Lawful) (hprior : t.WrittenFor e plain)
    (hfree : CollisionFree e t plain (unitsOf name script).1)
    (hsane : s.Sane (fun a => t.Indexed a ∧ ¬ t.Present a) K e name script owner acct)
    (hobj : s.Objects e (unitsOf name script).1 t) {d : Bytes}
    (hd : d ∈ (unitsOf name script).1)
    (hstored : s.shared.target.Stored (fun a => t.Indexed a ∧ ¬ t.Present a) (e.hash d)) :
    Restorable e s.shared.target d ↔
      (t.Indexed (e.hash d) → t.Present (e.hash d)) ∧
        (t.storedForm e d = d → ¬ Lookalike e.zstd d) := by
  have hlen := ((unitsOf_sizes name script).1 d hd).2
  have hform : ∀ o, s.shared.target.chunks.lookup (e.hash d) = some o →
      o.data = t.storedForm e d := by
    intro o ho
    unfold Target.storedForm
    cases hold : t.chunks.lookup (e.hash d) with
    | some o' =>
      have hpresent : t.Present (e.hash d) := by rw [Target.Present, hold]; rfl
      rw [hobj.old _ hpresent, hold] at ho
      cases ho
      rfl
    | none =>
      have hmiss : ¬ t.Present (e.hash d) := by rw [Target.Present, hold]; simp
      obtain ⟨d', hd', hhash, hdata⟩ := hobj.new _ o hmiss ho
      rw [hdata, hfree (.inl hd') (.inl hd) hhash.symm]
  have hdecode := decodeChunk_storedForm_iff hz hprior hfree hd hlen
  constructor
  · rintro ⟨o, ho, hdec⟩
    rw [hform o ho] at hdec
    refine ⟨fun hidx => ?_, hdecode.mp hdec⟩
    by_contra hmiss
    have hgone := (hsane.coherent.sound.missing _ ⟨hidx, hmiss⟩).2
    rw [Target.Present, ho] at hgone
    exact hgone rfl
  · rintro ⟨hindex, hraw⟩
    have hpresent : s.shared.target.Present (e.hash d) := by
      rcases hstored.2 with hp | ⟨hidx, hmiss⟩
      · exact hp
      · exact absurd (hindex hidx) hmiss
    obtain ⟨o, ho⟩ := Option.isSome_iff_exists.mp hpresent
    refine ⟨o, ho, ?_⟩
    rw [hform o ho]
    exact hdecode.mpr hraw

/-- Backup then restore. In every run that does not skip the last unit and returns
a manifest, for every way the stream was cut into reads: the restore returns nil
and writes the stream exactly when no row of the stream's chunks was without its
object and no chunk stored raw is a lookalike. The last two parts say the same
of a single chunk. -/
theorem backup_restore_iff {w : Nat} {e e' : Engine} {name : String} {bytes : Bytes}
    {script : List ReadReply} {caller : Option Fault} {t : Target} {plain : Sha → Bytes}
    {st st' : Stats} {acts : List (PipelineAction w)} {s : Pipeline w} {dm : DiskManifest}
    (hz : e.zstd.Lawful) (hprior : t.WrittenFor e plain)
    (hfree : CollisionFree e t plain (unitsOf name script).1) (hreads : Reads bytes script)
    (he' : e'.hash = e.hash ∧ e'.zstd = e.zstd)
    (hrun : (backupStream e w name).Run (fun s a => ¬ s.Skips (IsLast name script) a)
      (.initial caller script t st) acts s)
    (hres : s.result = some (.ok dm)) :
    ((∃ st₁ t₁, run restoreAlone (e'.restoreDisk dm st') (s.shared.target, []) =
        ((.ok (), st₁), (t₁, bytes))) ↔
      ∀ d ∈ (unitsOf name script).1, (t.Indexed (e.hash d) → t.Present (e.hash d)) ∧
        (t.storedForm e d = d → ¬ Lookalike e.zstd d)) ∧
      (∀ d : Bytes, decodeChunk e.zstd d = d ↔ ¬ Lookalike e.zstd d) ∧
      (∀ d : Bytes, d.length ≤ chunkSize → (decodeChunk e.zstd (compressChunk e.zstd d) = d ↔
        (compressChunk e.zstd d = d → ¬ Lookalike e.zstd d))) := by
  refine ⟨?_, decodeChunk_raw_iff e.zstd, fun d => decodeChunk_compressChunk_iff hz⟩
  obtain ⟨⟨owner, acct, hsane⟩, hobj⟩ := Pipeline.objects_run t.soundBut_self hrun
  obtain ⟨-, -, hchunks, hstored, hsize⟩ := hsane.complete (fun _ => id) hres
  have hflat := (unitsOf_reads name hreads).1
  have hchunks' : dm.chunks = (unitsOf name script).1.map (chunkOf e') := by
    rw [hchunks]
    apply List.map_congr_left
    intro d _
    rw [chunkOf, chunkOf, he'.1]
  have hrestore := restoreDisk_iff e' (t := s.shared.target)
    (fun d hd => ((unitsOf_sizes name script).1 d hd).1) hchunks'
    (by rw [hsize, List.length_flatten]) st'
  rw [hflat] at hrestore
  rw [hrestore]
  apply forall₂_congr
  intro d hd
  rw [← restorable_iff hz hprior hfree hsane hobj hd (hstored d hd), Restorable, Restorable,
    he'.1, he'.2]

-- A codec to run the engine with: a short input becomes a frame with one raw block, a
-- longer one is only marked.
def frameHeader : Bytes := [0x28, 0xB5, 0x2F, 0xFD]

def blockHeader (n : Nat) : Bytes :=
  [UInt8.ofNat ((n * 8 + 1) % 256), UInt8.ofNat ((n * 8 + 1) / 256), 0]

def rawEncode (raw : Bytes) : Bytes :=
  if raw.length < 256 then
    frameHeader ++ [0x20] ++ [UInt8.ofNat raw.length] ++ blockHeader raw.length ++ raw
  else frameHeader ++ [0xFF] ++ raw

def rawDecode (frame : Bytes) : Option Bytes :=
  if frame.take 5 = frameHeader ++ [0x20] then
    if frame = rawEncode (frame.drop 9) then some (frame.drop 9) else none
  else if frame.take 5 = frameHeader ++ [0xFF] then some (frame.drop 5) else none

def rawZstd : Zstd := ⟨some rawEncode, some rawDecode⟩

theorem rawZstd_lawful : rawZstd.Lawful := by
  intro enc henc
  cases henc
  refine ⟨rawDecode, rfl, fun raw _ => ?_⟩
  by_cases hshort : raw.length < 256
  · have hframe : rawEncode raw = frameHeader ++ [0x20] ++ [UInt8.ofNat raw.length] ++
        blockHeader raw.length ++ raw := if_pos hshort
    have htake : (rawEncode raw).take 5 = frameHeader ++ [0x20] := by rw [hframe]; rfl
    have hdrop : (rawEncode raw).drop 9 = raw := by rw [hframe]; rfl
    rw [rawDecode, if_pos htake, hdrop, if_pos rfl]
  · have hframe : rawEncode raw = frameHeader ++ [0xFF] ++ raw := if_neg hshort
    have htake : (rawEncode raw).take 5 = frameHeader ++ [0xFF] := by rw [hframe]; rfl
    have hdrop : (rawEncode raw).drop 5 = raw := by rw [hframe]; rfl
    rw [rawDecode, htake, if_neg (by decide), if_pos rfl, hdrop]

def likeBytes : Bytes := chunkMagic ++ rawEncode []

def likeSha : Sha := "714ccc9681d3f4b2284b350e6b4d5aa1e486e2b2939ad5f93c9017cdab6e2ed4"

def emptySha : Sha := "e3b0c44298fc1c149afbf4c8996fb92427ae41e4649b934ca495991b7852b855"

def rawHash (d : Bytes) : Sha :=
  if d = likeBytes then likeSha else if d = [] then emptySha else byteSha

def rawEngine : Engine := newWithOptions rawHash rawZstd ⟨1, "off", 0⟩

theorem rawEngine_prior (plain : Sha → Bytes) :
    Target.WrittenFor ⟨∅, ∅, ∅⟩ rawEngine plain := fun _ _ h => nomatch h

theorem collisionFree_single (d : Bytes) :
    CollisionFree rawEngine ⟨∅, ∅, ∅⟩ (fun _ => []) [d] := by
  rintro a (ha | ⟨_, ha, -⟩) b (hb | ⟨_, hb, -⟩) _
  · rw [List.mem_singleton.mp ha, List.mem_singleton.mp hb]
  · cases hb
  · cases ha
  · cases ha

theorem byte_stored_raw : ∃ s, (backupStream rawEngine 1 "scsi0").follow byteActs byteStart =
      some s ∧ s.result = some (.ok ⟨"scsi0", 1, [⟨byteSha, 1⟩]⟩) ∧
    ((backupStream rawEngine 1 "scsi0").trail byteActs byteStart).all (·.1.ctx.isNone) = true :=
  ⟨_, rfl, rfl, rfl⟩

theorem backup_restore_byte : ∃ (s : Pipeline 1) (st : Stats) (t : Target),
    s.result = some (.ok ⟨"scsi0", 1, [⟨byteSha, 1⟩]⟩) ∧
      run restoreAlone (rawEngine.restoreDisk ⟨"scsi0", 1, [⟨byteSha, 1⟩]⟩ .zero)
        (s.shared.target, []) = ((.ok (), st), (t, [7])) := by
  obtain ⟨s, hfollow, hres, htrail⟩ := byte_stored_raw
  have hrun : (backupStream rawEngine 1 "scsi0").Run
      (fun s a => ¬ s.Skips (IsLast "scsi0" byteScript) a) byteStart byteActs s := by
    apply System.run_of_trail _ hfollow htrail
    intro s a hctx
    exact Pipeline.not_skips (Option.isNone_iff_eq_none.mp hctx)
  have hfree : CollisionFree rawEngine ⟨∅, ∅, ∅⟩ (fun _ => []) (unitsOf "scsi0" byteScript).1 := by
    rw [byteScript_units]
    exact collisionFree_single [7]
  have hiff : (∃ st₁ t₁, run restoreAlone
      (rawEngine.restoreDisk ⟨"scsi0", 1, [⟨byteSha, 1⟩]⟩ .zero) (s.shared.target, []) =
        ((.ok (), st₁), (t₁, [7]))) ↔ _ :=
    (backup_restore_iff rawZstd_lawful (rawEngine_prior _) hfree (.last [7]) ⟨rfl, rfl⟩ hrun
      hres).1
  obtain ⟨st₁, t₁, hrestore⟩ := hiff.mpr (by
    intro d hd
    rw [byteScript_units] at hd
    rw [List.mem_singleton.mp hd]
    refine ⟨nofun, fun _ hlike => ?_⟩
    have hmagic := hlike.1
    exact absurd hmagic (by decide))
  exact ⟨s, st₁, t₁, hres, hrestore⟩

def likeScript : List ReadReply := [⟨likeBytes, some .eof⟩]

def likeStart : Pipeline 1 := .initial none likeScript ⟨∅, ∅, ∅⟩ .zero

theorem likeScript_units : unitsOf "scsi0" likeScript = ([likeBytes], none) := by
  have hread : readFull likeScript chunkSize = (likeBytes, some .unexpectedEOF, []) := rfl
  rw [unitsOf_eq_of_err hread]
  rfl

theorem like_stored : ∃ s, (backupStream rawEngine 1 "scsi0").follow byteActs likeStart =
      some s ∧ s.result = some (.ok ⟨"scsi0", 13, [⟨likeSha, 13⟩]⟩) ∧
    (run restoreAlone (rawEngine.restoreDisk ⟨"scsi0", 13, [⟨likeSha, 13⟩]⟩ .zero)
      (s.shared.target, [])).1.1 = .error (.restore "scsi0" (.hashMismatch likeSha emptySha)) :=
  ⟨_, rfl, rfl, rfl⟩

/-- A chunk that begins with the magic and goes on with a frame, stored raw because
compression is off, is decompressed on the way back and fails its hash check. -/
theorem backup_restore_lookalike :
    ¬ ∀ (w : Nat) (e e' : Engine) (name : String) (bytes : Bytes) (script : List ReadReply)
      (t : Target) (plain : Sha → Bytes) (st : Stats) (acts : List (PipelineAction w))
      (s : Pipeline w) (dm : DiskManifest), e.zstd.Lawful → t.WrittenFor e plain → t.Sound →
      CollisionFree e t plain (unitsOf name script).1 → Reads bytes script →
      e'.hash = e.hash ∧ e'.zstd = e.zstd →
      (backupStream e w name).Run (fun _ _ => True) (.initial none script t st) acts s →
      s.result = some (.ok dm) →
      ∃ st₁ t₁, run restoreAlone (e'.restoreDisk dm .zero) (s.shared.target, []) =
        ((.ok (), st₁), (t₁, bytes)) := by
  intro hall
  obtain ⟨s, hfollow, hres, hfail⟩ := like_stored
  have hfree : CollisionFree rawEngine ⟨∅, ∅, ∅⟩ (fun _ => []) (unitsOf "scsi0" likeScript).1 := by
    rw [likeScript_units]
    exact collisionFree_single likeBytes
  obtain ⟨st₁, t₁, hok⟩ := hall 1 rawEngine rawEngine "scsi0" likeBytes likeScript ⟨∅, ∅, ∅⟩
    (fun _ => []) .zero byteActs s _ rawZstd_lawful (rawEngine_prior _) (fun _ h => nomatch h)
    hfree (.last _) ⟨rfl, rfl⟩ (System.run_of_follow (fun _ _ _ => trivial) hfollow) hres
  rw [hok] at hfail
  cases hfail

end ProxBack.Engine
