import Mathlib.Tactic.Common

/-! The global settings: a table of keys and values, read and written a key at a time. -/
namespace ProxBack.Store

structure Settings where
  serverName : String
  concurrency : Int
  webhookURL : String
  notifyOn : String
  uploadConcurrency : Int
  compression : String
  uploadLimitMbps : Int
deriving DecidableEq, Repr

def defaultServerName : String := "ProxBack"

def defaultConcurrency : Int := 2

def defaultNotifyOn : String := "off"

def defaultUploadConcurrency : Int := 4

def defaultCompression : String := "zstd"

def defaultUploadLimitMbps : Int := 0

def validNotifyOn (v : String) : Bool := v = "off" ∨ v = "failures" ∨ v = "all"

def validCompression (v : String) : Bool := v = "zstd" ∨ v = "off"

def minUploadConcurrency : Int := 1

def maxUploadConcurrency : Int := 16

def minUploadLimitMbps : Int := 0

def maxUploadLimitMbps : Int := 10000

def validUploadConcurrency (n : Int) : Bool := minUploadConcurrency ≤ n ∧ n ≤ maxUploadConcurrency

def validUploadLimitMbps (n : Int) : Bool := minUploadLimitMbps ≤ n ∧ n ≤ maxUploadLimitMbps

/-- What `SaveSettings` makes of a value before it writes. -/
def orDefault {α : Type} (valid : α → Bool) (fallback v : α) : α := if valid v then v else fallback

namespace Settings

def default : Settings :=
  ⟨defaultServerName, defaultConcurrency, "", defaultNotifyOn, defaultUploadConcurrency,
    defaultCompression, defaultUploadLimitMbps⟩

/-- The values that `SaveSettings` writes. -/
def saved (st : Settings) : Settings where
  serverName := orDefault (fun v => v ≠ "") defaultServerName st.serverName
  concurrency := orDefault (fun n => 0 < n) defaultConcurrency st.concurrency
  webhookURL := st.webhookURL
  notifyOn := orDefault validNotifyOn defaultNotifyOn st.notifyOn
  uploadConcurrency := orDefault validUploadConcurrency defaultUploadConcurrency st.uploadConcurrency
  compression := orDefault validCompression defaultCompression st.compression
  uploadLimitMbps := orDefault validUploadLimitMbps defaultUploadLimitMbps st.uploadLimitMbps

end Settings

@[simp] theorem orDefault_orDefault {α : Type} {valid : α → Bool} {fallback : α} (v : α) :
    orDefault valid fallback (orDefault valid fallback v) = orDefault valid fallback v := by
  by_cases h : valid v = true
  · simp only [orDefault, if_pos h]
  · have hv : orDefault valid fallback v = fallback := if_neg h
    rw [hv]
    unfold orDefault
    split <;> rfl

theorem orDefault_getD {α : Type} (valid : α → Bool) (fallback : α) {stored : α} {asked : Option α}
    (hstored : orDefault valid fallback stored = stored) (hasked : asked.all valid = true) :
    orDefault valid fallback (asked.getD stored) = asked.getD stored := by
  cases asked with
  | none => exact hstored
  | some v => exact if_pos hasked

@[simp] theorem Settings.saved_saved (st : Settings) : st.saved.saved = st.saved := by
  simp only [saved, orDefault_orDefault]

inductive SettingKey where
  | serverName
  | concurrency
  | webhookURL
  | notifyOn
  | uploadConcurrency
  | compression
  | uploadLimitMbps
deriving DecidableEq, Repr

def SettingKey.all : List SettingKey :=
  [.serverName, .concurrency, .webhookURL, .notifyOn, .uploadConcurrency, .compression, .uploadLimitMbps]

theorem SettingKey.mem_all (k : SettingKey) : k ∈ all := by
  cases k <;> decide

theorem SettingKey.nodup_all : all.Nodup := by decide

def Settings.set (k : SettingKey) (a b : Settings) : Settings :=
  match k with
  | .serverName => { b with serverName := a.serverName }
  | .concurrency => { b with concurrency := a.concurrency }
  | .webhookURL => { b with webhookURL := a.webhookURL }
  | .notifyOn => { b with notifyOn := a.notifyOn }
  | .uploadConcurrency => { b with uploadConcurrency := a.uploadConcurrency }
  | .compression => { b with compression := a.compression }
  | .uploadLimitMbps => { b with uploadLimitMbps := a.uploadLimitMbps }

@[simp] theorem Settings.saved_set (k : SettingKey) (a b : Settings) :
    (Settings.set k a b).saved = Settings.set k a.saved b.saved := by
  cases k <;> rfl

structure StoredSettings extends Settings where
  saved_eq : toSettings.saved = toSettings

namespace StoredSettings

def ofSettings (st : Settings) : StoredSettings := ⟨st.saved, st.saved_saved⟩

def default : StoredSettings := ⟨Settings.default, rfl⟩

def set (k : SettingKey) (a b : StoredSettings) : StoredSettings where
  toSettings := Settings.set k a.toSettings b.toSettings
  saved_eq := by rw [Settings.saved_set, a.saved_eq, b.saved_eq]

end StoredSettings

end ProxBack.Store
