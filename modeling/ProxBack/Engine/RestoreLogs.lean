import ProxBack.Engine.ChunkStore

/-! What a restore has written by the time it returns nil. -/
namespace ProxBack.Engine
open Lib Prog

def wrote (log : List (Σ c, RestoreReply c)) : Bytes :=
  log.flatMap fun
    | ⟨.write data, .ok ()⟩ => data
    | _ => []

def Refused (log : List (Σ c, RestoreReply c)) : Prop :=
  ∃ data err, ⟨.write data, .error err⟩ ∈ log

@[simp] theorem wrote_nil : wrote [] = [] := rfl

@[simp] theorem wrote_append (log log' : List (Σ c, RestoreReply c)) :
    wrote (log ++ log') = wrote log ++ wrote log' :=
  List.flatMap_append

theorem Refused.append {log : List (Σ c, RestoreReply c)} (h : Refused log)
    (log' : List (Σ c, RestoreReply c)) : Refused (log ++ log') := by
  obtain ⟨data, err, hmem⟩ := h
  exact ⟨data, err, List.mem_append_left _ hmem⟩

/-- A chunk's bytes as `ReadChunk` lets them pass. -/
def Verified (e : Engine) (ch : Chunk) (data : Bytes) : Prop :=
  e.hash data = ch.sha256 ∧ (ch.size = 0 ∨ data.length = ch.size)

theorem readChunk_logs {e : Engine} {ch : Chunk} {log : List (Σ c, RestoreReply c)} {data : Bytes}
    (h : Logs (liftRestore (e.readChunk ch)) log (.ret (.ok data))) :
    Verified e ch data ∧ wrote log = [] ∧ ¬ Refused log := by
  obtain ⟨err | stored, log, rfl, h₁⟩ := h.of_call
  · cases h₁.of_ret.2
  have hquiet : ∀ r, ¬ Refused [⟨.engine (.getBytes ch.sha256), r⟩] := by
    rintro r ⟨data, err, hmem⟩
    simp at hmem
  dsimp only at h₁
  split at h₁
  · cases h₁.of_ret.2
  · rename_i hhash
    split at h₁
    · cases h₁.of_ret.2
    · rename_i hsize
      obtain ⟨rfl, hdata⟩ := h₁.of_ret
      cases hdata
      refine ⟨⟨by simpa using hhash, ?_⟩, rfl, hquiet _⟩
      by_cases hzero : ch.size = 0
      · exact .inl hzero
      · exact .inr (by simpa [hzero] using hsize)

/-- A loop over the chunks that came to its end wrote all of them, verified and in
order. -/
theorem restoreChunks_logs {e : Engine} {name : String} {chunks : List Chunk} {n total : Nat}
    {st st' : Stats} {log : List (Σ c, RestoreReply c)}
    (h : Logs (e.restoreChunks name chunks n st) log (.ret (.ok total, st'))) :
    ∃ datas, List.Forall₂ (Verified e) chunks datas ∧ wrote log = datas.flatten ∧
      total = n + datas.flatten.length ∧ ¬ Refused log := by
  induction chunks generalizing n st log with
  | nil =>
    obtain ⟨rfl, hret⟩ := h.of_ret
    cases hret
    exact ⟨[], .nil, rfl, rfl, fun ⟨_, _, hmem⟩ => nomatch hmem⟩
  | cons ch rest ih =>
    obtain ⟨_ | f, log, rfl, h₁⟩ := h.of_call
    rotate_left
    · cases h₁.of_ret.2
    obtain ⟨err | data, log₁, log₂, rfl, hread, h₂⟩ := h₁.of_bind_ret
    · cases h₂.of_ret.2
    obtain ⟨err | ⟨⟩, log₂, rfl, h₃⟩ := h₂.of_call
    · cases h₃.of_ret.2
    obtain ⟨hver, hnone, hquiet⟩ := readChunk_logs hread
    obtain ⟨datas, hall, hwrote, htotal, hquiet'⟩ := ih h₃
    refine ⟨data :: datas, .cons hver hall, ?_, ?_, ?_⟩
    · show wrote ([⟨.ctxErr, none⟩] ++ (log₁ ++ ([⟨.write data, .ok ()⟩] ++ log₂))) = _
      rw [wrote_append, wrote_append, wrote_append, hnone, hwrote]
      simp [wrote]
    · rw [htotal, List.flatten_cons, List.length_append]
      omega
    · rintro ⟨d, err, hmem⟩
      simp only [List.mem_cons, List.mem_append] at hmem
      rcases hmem with hmem | hmem | hmem | hmem
      · cases hmem
      · exact hquiet ⟨d, err, hmem⟩
      · cases hmem
      · exact hquiet' ⟨d, err, hmem⟩

theorem restoreDisk_logs {e : Engine} {dm : DiskManifest} {st st' : Stats}
    {log : List (Σ c, RestoreReply c)} (h : Logs (e.restoreDisk dm st) log (.ret (.ok (), st'))) :
    ∃ datas, List.Forall₂ (Verified e) dm.chunks datas ∧ wrote log = datas.flatten ∧
      (dm.sizeBytes = 0 ∨ datas.flatten.length = dm.sizeBytes) ∧ ¬ Refused log := by
  obtain ⟨⟨err | written, st₁⟩, log₁, log₂, rfl, hloop, h₁⟩ := h.of_bind_ret
  · cases h₁.of_ret.2
  dsimp only at h₁
  split at h₁
  · cases h₁.of_ret.2
  rename_i hsize
  obtain ⟨rfl, -⟩ := h₁.of_ret
  obtain ⟨datas, hall, hwrote, htotal, hquiet⟩ := restoreChunks_logs hloop
  rw [List.append_nil]
  refine ⟨datas, hall, hwrote, ?_, hquiet⟩
  by_cases hzero : dm.sizeBytes = 0
  · exact .inl hzero
  · rw [Nat.zero_add] at htotal
    exact .inr (by simpa [hzero, htotal] using hsize)

end ProxBack.Engine
