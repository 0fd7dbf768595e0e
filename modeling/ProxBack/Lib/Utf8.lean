import Mathlib.Data.Char
import Mathlib.Order.Basic
import ProxBack.Lib.Lists
import Mathlib.Algebra.Order.Ring.Nat

/-! The characters of a text given as bytes, where what is not UTF-8 is read byte by byte as the
replacement character. -/
namespace ProxBack.Lib.Utf8

def leads (b : Nat) : Option (Nat × Nat × Nat) :=
  if 0xC2 ≤ b ∧ b ≤ 0xDF then some (1, 0x80, 0xBF)
  else if 0xE0 ≤ b ∧ b ≤ 0xEF then
    some (2, if b = 0xE0 then 0xA0 else 0x80, if b = 0xED then 0x9F else 0xBF)
  else if 0xF0 ≤ b ∧ b ≤ 0xF4 then
    some (3, if b = 0xF0 then 0x90 else 0x80, if b = 0xF4 then 0x8F else 0xBF)
  else none

def replacement : Char := Char.ofNat 0xFFFD

def decodeRune (b : UInt8) (rest : List UInt8) : Char × Nat :=
  if b.toNat < 0x80 then (Char.ofNat b.toNat, 0)
  else
    match leads b.toNat with
    | none => (replacement, 0)
    | some (n, lo, hi) =>
      let more := (rest.take n).map UInt8.toNat
      if more.length = n ∧ (∀ c ∈ more.head?, lo ≤ c ∧ c ≤ hi) ∧ ∀ c ∈ more.tail, 0x80 ≤ c ∧ c ≤ 0xBF then
        (Char.ofNat (more.foldl (fun v c => v * 64 + c % 64) (b.toNat % 2 ^ (6 - n))), n)
      else (replacement, 0)

def runesFrom : Nat → List UInt8 → List Char
  | 0, _ | _, [] => []
  | fuel + 1, b :: rest => (decodeRune b rest).1 :: runesFrom fuel (rest.drop (decodeRune b rest).2)

def runes (s : List UInt8) : List Char := runesFrom s.length s

def encode (s : List Char) : List UInt8 := s.flatMap String.utf8EncodeChar

@[simp] theorem runesFrom_nil (fuel : Nat) : runesFrom fuel [] = [] := by cases fuel <;> rfl

@[grind =]
theorem runesFrom_eq {fuel : Nat} {s : List UInt8} (h : s.length ≤ fuel) : runesFrom fuel s = runes s := by
  have hmore : ∀ k s, s.length ≤ k → ∀ n, k ≤ n → runesFrom n s = runesFrom k s := by
    intro k
    induction k with
    | zero =>
      intro s hs n _
      rw [List.eq_nil_of_length_eq_zero (Nat.le_zero.mp hs), runesFrom_nil, runesFrom_nil]
    | succ k ih =>
      intro s hs n hn
      obtain ⟨n, rfl⟩ : ∃ m, n = m + 1 := ⟨n - 1, by omega⟩
      cases s with
      | nil => rfl
      | cons b rest =>
        have hrest : (rest.drop (decodeRune b rest).2).length ≤ k := by
          rw [List.length_drop]
          rw [List.length_cons] at hs
          omega
        exact congrArg (_ :: ·) (ih _ hrest n (by omega))
  exact hmore _ _ le_rfl _ h

@[grind =] theorem runes_cons (b : UInt8) (rest : List UInt8) :
    runes (b :: rest) = (decodeRune b rest).1 :: runes (rest.drop (decodeRune b rest).2) := by
  have hrest : (rest.drop (decodeRune b rest).2).length ≤ rest.length := by
    rw [List.length_drop]
    omega
  exact congrArg (_ :: ·) (runesFrom_eq hrest)

@[grind =] theorem toNat_ofNat {n : Nat} (h : n < 256) : (UInt8.ofNat n).toNat = n := by
  rw [UInt8.toNat_ofNat']
  exact Nat.mod_eq_of_lt h

@[grind =] theorem map_toNat_ofNat {codes : List Nat} (h : ∀ c ∈ codes, c < 256) :
    (codes.map UInt8.ofNat).map UInt8.toNat = codes := by
  have hid : codes.map (UInt8.toNat ∘ UInt8.ofNat) = codes.map id :=
    List.map_congr_left fun c hc => toNat_ofNat (h c hc)
  rw [List.map_map, hid, List.map_id]

theorem decodeRune_of {b lo hi : Nat} {codes : List Nat} (hb : 0x80 ≤ b ∧ b < 256)
    (hlead : leads b = some (codes.length, lo, hi)) (hnext : ∀ c ∈ codes.head?, lo ≤ c ∧ c ≤ hi)
    (hcodes : ∀ c ∈ codes, 0x80 ≤ c ∧ c ≤ 0xBF) (rest : List UInt8) :
    decodeRune (.ofNat b) (codes.map UInt8.ofNat ++ rest) =
      (Char.ofNat (codes.foldl (fun v c => v * 64 + c % 64) (b % 2 ^ (6 - codes.length))), codes.length) := by
  have hmap : (codes.map UInt8.ofNat).map UInt8.toNat = codes :=
    map_toNat_ofNat fun c hc => (hcodes c hc).2.trans_lt (by decide)
  have hlen : codes.length = (codes.map UInt8.ofNat).length := (List.length_map _).symm
  unfold decodeRune
  rw [toNat_ofNat hb.2, if_neg (by omega), hlead]
  dsimp only
  have htake : (codes.map UInt8.ofNat ++ rest).take codes.length = codes.map UInt8.ofNat := by
    rw [hlen, List.take_left]
  rw [htake, hmap, if_pos ⟨rfl, hnext, fun c hc => hcodes c (List.mem_of_mem_tail hc)⟩]

theorem decodeRune_encode (c : Char) : ∃ b more, String.utf8EncodeChar c = b :: more ∧
    ∀ rest, decodeRune b (more ++ rest) = (c, more.length) := by
  have hvalid : c.toNat < 0xD800 ∨ 0xDFFF < c.toNat ∧ c.toNat < 0x110000 := c.valid
  have hc : ∀ v, v = c.toNat → Char.ofNat v = c := fun v hv => hv ▸ Char.ofNat_toNat c
  have hval : c.val.toNat = c.toNat := rfl
  unfold String.utf8EncodeChar
  rw [hval]
  generalize c.toNat = v at hvalid hc
  dsimp only
  -- one, two, three or four bytes
  split
  · refine ⟨_, _, rfl, fun rest => ?_⟩
    rw [decodeRune, toNat_ofNat (by omega), if_pos (by omega), hc v rfl]
    rfl
  split
  · refine ⟨_, [v % 64 + 128].map UInt8.ofNat, rfl, fun rest => ?_⟩
    have hlead : leads (v / 64 % 32 + 192) = some (1, 0x80, 0xBF) := if_pos (by omega)
    rw [decodeRune_of (by omega) hlead (by simp; omega) (by simp; omega), hc _ (by simp; omega), List.length_map]
  split
  · refine ⟨_, [v / 64 % 64 + 128, v % 64 + 128].map UInt8.ofNat, rfl, fun rest => ?_⟩
    have hlead : leads (v / 4096 % 16 + 224) = some (2, _, _) :=
      (if_neg (by omega)).trans (if_pos (by omega))
    rw [decodeRune_of (by omega) hlead ?_ (by simp; omega), hc _ (by simp; omega), List.length_map]
    simp only [List.head?_cons, Option.mem_some_iff, forall_eq']
    split <;> split <;> omega
  · refine ⟨_, [v / 4096 % 64 + 128, v / 64 % 64 + 128, v % 64 + 128].map UInt8.ofNat, rfl, fun rest => ?_⟩
    have hlead : leads (v / 262144 % 8 + 240) = some (3, _, _) :=
      (if_neg (by omega)).trans ((if_neg (by omega)).trans (if_pos (by omega)))
    rw [decodeRune_of (by omega) hlead ?_ (by simp; omega), hc _ (by simp; omega), List.length_map]
    simp only [List.head?_cons, Option.mem_some_iff, forall_eq']
    split <;> split <;> omega

@[simp] theorem runes_encode (s : List Char) : runes (encode s) = s := by
  induction s with
  | nil => rfl
  | cons c s ih =>
    obtain ⟨b, more, hbytes, hread⟩ := decodeRune_encode c
    have hencode : encode (c :: s) = b :: (more ++ encode s) := by
      rw [encode, List.flatMap_cons, hbytes]
      rfl
    rw [hencode, runes_cons, hread, List.drop_left, ih]

end ProxBack.Lib.Utf8
