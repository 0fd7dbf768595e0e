import Mathlib.Logic.Function.Basic
import ProxBack.Lib.Decimal
import ProxBack.Lib.Prog

/-! Files that are created under new names, written, renamed and removed, by calls of which any may
fail. -/
namespace ProxBack.Lib.Files
open Prog Function Decimal

inductive Fault where
  | notExist
  | exist
  | code (n : Nat)
deriving DecidableEq, Repr

inductive Call where
  | createTemp (dir stem : String)
  | write (path : String) (data : List UInt8)
  | close (path : String)
  | chmod (path : String)
  | rename (src dst : String)
  | remove (path : String)
  | stat (path : String)
  | readFile (path : String)
  | mkdirAll (path : String)

abbrev Reply : Call → Type
  | .createTemp _ _ => Except Fault String
  | .readFile _ => Except Fault (List UInt8)
  | .write _ _ | .close _ | .chmod _ | .rename _ _ | .remove _ | .stat _ | .mkdirAll _ => Option Fault

abbrev Disk := String → Option (List UInt8)

/-- What a call meets: a failure, the number in a new name, and how much of a failed write got
through. -/
structure Choice where
  fault : Option Nat
  number : Nat
  part : Nat

def tempPath (dir stem : String) (n : Nat) : String := dir ++ "/" ++ stem ++ String.ofList (numeral n)

/-- A rename says that a file is missing only where the source is, and one that fails changes
nothing. -/
def exec : (c : Call) → Choice → Disk → Reply c × Disk
  | .createTemp dir stem, x, w =>
    match x.fault with
    | some n => (.error (.code n), w)
    | none =>
      let path := tempPath dir stem x.number
      if w path = none then (.ok path, update w path (some [])) else (.error .exist, w)
  | .write path data, x, w =>
    match x.fault with
    | some n => (some (.code n), update w path ((w path).map (· ++ data.take x.part)))
    | none => (none, update w path ((w path).map (· ++ data)))
  | .close _, x, w | .chmod _, x, w | .mkdirAll _, x, w => (x.fault.map .code, w)
  | .rename src dst, x, w =>
    match w src, x.fault with
    | none, _ => (some .notExist, w)
    | some _, some n => (some (.code n), w)
    | some data, none => (none, update (update w src none) dst (some data))
  | .remove path, x, w =>
    match w path, x.fault with
    | none, _ => (some .notExist, w)
    | some _, some n => (some (.code n), w)
    | some _, none => (none, update w path none)
  | .stat path, x, w =>
    match w path, x.fault with
    | none, _ => (some .notExist, w)
    | some _, n => (n.map .code, w)
  | .readFile path, x, w =>
    match w path, x.fault with
    | none, _ => (.error .notExist, w)
    | some _, some n => (.error (.code n), w)
    | some data, none => (.ok data, w)

def machine : Machine Call Reply Disk := ⟨Choice, exec⟩

def Fault.refuses : Fault → Bool
  | .notExist => false
  | .exist | .code _ => true

def fails : (c : Call) → Reply c → Bool
  | .createTemp _ _, .error f | .readFile _, .error f => f.refuses
  | .createTemp _ _, .ok _ | .readFile _, .ok _ => false
  | .write _ _, r | .close _, r | .chmod _, r | .rename _ _, r | .remove _, r | .stat _, r | .mkdirAll _, r =>
    r.any Fault.refuses

section
variable {w w' : Disk}

theorem createTemp_cases {dir stem : String} {r : Except Fault String}
    (h : machine.T (.createTemp dir stem) w r w') :
    (∃ n, r = .ok (tempPath dir stem n) ∧ w (tempPath dir stem n) = none ∧
      w' = update w (tempPath dir stem n) (some [])) ∨ ∃ f, r = .error f ∧ w' = w := by
  obtain ⟨x, h⟩ := h
  dsimp only [machine, exec] at h
  split at h
  · cases h
    exact .inr ⟨_, rfl, rfl⟩
  · split at h
    · rename_i hnew
      cases h
      exact .inl ⟨_, rfl, hnew, rfl⟩
    · cases h
      exact .inr ⟨_, rfl, rfl⟩

theorem write_cases {path : String} {data : List UInt8} {r : Option Fault}
    (h : machine.T (.write path data) w r w') :
    (r = none ∧ w' = update w path ((w path).map (· ++ data))) ∨
      ∃ f part, r = some f ∧ w' = update w path ((w path).map (· ++ part)) := by
  obtain ⟨x, h⟩ := h
  dsimp only [machine, exec] at h
  split at h
  · cases h
    exact .inr ⟨_, _, rfl, rfl⟩
  · cases h
    exact .inl ⟨rfl, rfl⟩

theorem rename_cases {src dst : String} {r : Option Fault} (h : machine.T (.rename src dst) w r w') :
    (r = none ∧ ∃ data, w src = some data ∧ w' = update (update w src none) dst (some data)) ∨
      ∃ f, r = some f ∧ w' = w ∧ (f = .notExist → w src = none) := by
  obtain ⟨x, h⟩ := h
  dsimp only [machine, exec] at h
  split at h
  · cases h
    exact .inr ⟨_, rfl, rfl, fun _ => by assumption⟩
  · cases h
    exact .inr ⟨_, rfl, rfl, nofun⟩
  · rename_i data hdata _
    cases h
    exact .inl ⟨rfl, data, hdata, rfl⟩

theorem remove_cases {path : String} {r : Option Fault} (h : machine.T (.remove path) w r w') :
    (r = none ∧ w' = update w path none) ∨
      ∃ f, r = some f ∧ w' = w ∧ (f = .notExist → w path = none) := by
  obtain ⟨x, h⟩ := h
  dsimp only [machine, exec] at h
  split at h
  · cases h
    exact .inr ⟨_, rfl, rfl, fun _ => by assumption⟩
  · cases h
    exact .inr ⟨_, rfl, rfl, nofun⟩
  · cases h
    exact .inl ⟨rfl, rfl⟩

theorem readFile_cases {path : String} {r : Except Fault (List UInt8)}
    (h : machine.T (.readFile path) w r w') :
    w' = w ∧ ((∃ data, r = .ok data ∧ w path = some data) ∨
      ∃ f, r = .error f ∧ (f = .notExist → w path = none)) := by
  obtain ⟨x, h⟩ := h
  dsimp only [machine, exec] at h
  split at h
  · cases h
    exact ⟨rfl, .inr ⟨_, rfl, fun _ => by assumption⟩⟩
  · cases h
    exact ⟨rfl, .inr ⟨_, rfl, nofun⟩⟩
  · rename_i data hdata _
    cases h
    exact ⟨rfl, .inl ⟨data, rfl, hdata⟩⟩

def Call.quiet : Call → Bool
  | .close _ | .chmod _ | .stat _ | .readFile _ | .mkdirAll _ => true
  | .createTemp _ _ | .write _ _ | .rename _ _ | .remove _ => false

theorem quiet_cases {c : Call} {r : Reply c} (hc : c.quiet) (h : machine.T c w r w') : w' = w := by
  obtain ⟨x, h⟩ := h
  cases c with
  | createTemp dir stem => cases hc
  | write path data => cases hc
  | rename src dst => cases hc
  | remove path => cases hc
  | close path | chmod path | mkdirAll path => exact (congrArg Prod.snd h).symm
  | stat path | readFile path =>
    dsimp only [machine, exec] at h
    split at h <;> exact (congrArg Prod.snd h).symm

def Call.Writes : Call → String → Prop
  | .createTemp dir stem, path => ∃ n, path = tempPath dir stem n
  | .write q _, path | .remove q, path => path = q
  | .rename src dst, path => path = src ∨ path = dst
  | .close _, _ | .chmod _, _ | .stat _, _ | .readFile _, _ | .mkdirAll _, _ => False

theorem frame {c : Call} {r : Reply c} {path : String} (h : machine.T c w r w') (hpath : ¬ c.Writes path) :
    w' path = w path := by
  cases c with
  | createTemp dir stem =>
    rcases createTemp_cases h with ⟨n, -, -, rfl⟩ | ⟨f, -, rfl⟩
    · exact update_of_ne (fun heq => hpath ⟨n, heq⟩) _ _
    · rfl
  | write q data =>
    rcases write_cases h with ⟨-, rfl⟩ | ⟨f, part, -, rfl⟩
    · exact update_of_ne hpath _ _
    · exact update_of_ne hpath _ _
  | remove q =>
    rcases remove_cases h with ⟨-, rfl⟩ | ⟨f, -, rfl, -⟩
    · exact update_of_ne hpath _ _
    · rfl
  | rename src dst =>
    obtain ⟨hsrc, hdst⟩ := not_or.mp hpath
    rcases rename_cases h with ⟨-, data, -, rfl⟩ | ⟨f, -, rfl, -⟩
    · rw [update_of_ne hdst, update_of_ne hsrc]
    · rfl
  | close q | chmod q | stat q | readFile q | mkdirAll q => rw [quiet_cases rfl h]

end

theorem tempPath_ne {dir stem path : String} {n : Nat} {c : Char} (hlast : path.toList.getLast? = some c)
    (hc : isDigit c = false) : tempPath dir stem n ≠ path := by
  rintro rfl
  have hend : (tempPath dir stem n).toList.getLast? = (numeral n).getLast? := by
    rw [tempPath, String.toList_append, String.toList_ofList,
      List.getLast?_append_of_ne_nil _ (numeral_ne_nil n)]
  rw [hend] at hlast
  have hdigit : isDigit c = true := isDigit_of_mem_numeral (List.mem_of_getLast? hlast)
  rw [hdigit] at hc
  cases hc

end ProxBack.Lib.Files
