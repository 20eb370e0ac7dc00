import Vtrc.Sha2.Context
import Vtrc.Lib.BlockHash
import Mathlib.Data.Nat.Prime.Basic

/-! # SHA-2 as the standard has it

The hash that `sha2.cimpl` is meant to compute, from words and lists: the message schedule as a
list that grows by one word at a time, the rotations as rotations, the padding in one piece, and
the constants from the primes they are taken from. -/

namespace Vtrc.Sha2

open Words

/-! ### Constants -/

/-- The primes whose roots give the constants. -/
def primes : List ℕ := (List.range 410).filter Nat.Prime

/-- The integer part of the `k`-th root of `n`. -/
def root (k n : ℕ) : ℕ := Nat.findGreatest (fun m => m ^ k ≤ n) n

/-- The first bits of the fractional part of the `k`-th root of the prime number `i`, as a word
of `n` bytes. -/
def rootBits (n k i : ℕ) : Word n := BitVec.ofNat _ (root k (primes.getD i 0 * 2 ^ (k * (8 * n))))

/-- The square roots of eight primes in a row. -/
def rootVars (n first : ℕ) : Vars n :=
  let bits i := rootBits n 2 (first + i)
  ⟨bits 0, bits 1, bits 2, bits 3, bits 4, bits 5, bits 6, bits 7⟩

/-! ### The hash -/

/-- The parameters of a hash on words of `n` bytes: three distances for each of the four
functions, the number of rounds, the initial value and the length of the result. -/
structure Standard (n : ℕ) where
  Sigma0 : ℕ × ℕ × ℕ
  Sigma1 : ℕ × ℕ × ℕ
  sigma0 : ℕ × ℕ × ℕ
  sigma1 : ℕ × ℕ × ℕ
  rounds : ℕ
  initial : Vars n
  digestWords : ℕ

namespace Standard

variable {n : ℕ}

/-- Three rotations. -/
def rotations (r : ℕ × ℕ × ℕ) (x : Word n) : Word n :=
  x.rotateRight r.1 ^^^ x.rotateRight r.2.1 ^^^ x.rotateRight r.2.2

/-- Two rotations and a shift. -/
def rotationsShift (r : ℕ × ℕ × ℕ) (x : Word n) : Word n :=
  x.rotateRight r.1 ^^^ x.rotateRight r.2.1 ^^^ (x >>> r.2.2)

variable (S : Standard n)

/-- One round. -/
def step (k w : Word n) (v : Vars n) : Vars n :=
  let t1 := v.h + rotations S.Sigma1 v.e + Ch v.e v.f v.g + k + w
  let t2 := rotations S.Sigma0 v.a + Maj v.a v.b v.c
  ⟨t1 + t2, v.a, v.b, v.c, v.d + t1, v.e, v.f, v.g⟩

/-- The next word of the schedule. -/
def nextWord (W : List (Word n)) : Word n :=
  let t := W.length
  rotationsShift S.sigma1 (W.getD (t - 2) 0) + W.getD (t - 7) 0 +
    rotationsShift S.sigma0 (W.getD (t - 15) 0) + W.getD (t - 16) 0

/-- The schedule of a block of sixteen words, with `k` words behind them. -/
def schedule (M : List (Word n)) : ℕ → List (Word n)
  | 0 => M
  | k + 1 => schedule M k ++ [S.nextWord (schedule M k)]

/-- The words of a block. -/
def blockWords (n : ℕ) (block : Bytes) : List (Word n) :=
  (List.range 16).map (wordAt .big n block)

/-- The word of round `t`. -/
def word (block : Bytes) (t : ℕ) : Word n :=
  (S.schedule (blockWords n block) (S.rounds - 16)).getD t 0

/-- The first `t` rounds over a block. -/
def run (block : Bytes) (v : Vars n) (t : ℕ) : Vars n :=
  (List.range t).foldl (fun v j => S.step (rootBits n 3 j) (S.word block j) v) v

/-- The compression function. -/
def compress (H : Vars n) (block : Bytes) : Vars n := H.add (S.run block H S.rounds)

/-- The zeros between the bit that ends the message and its length. -/
def zeros (n len : ℕ) : ℕ := (16 * n - (len + 1 + 2 * n) % (16 * n)) % (16 * n)

/-- What stands behind a message of `len` bytes. -/
def padding (n len : ℕ) : Bytes :=
  0x80 :: List.replicate (zeros n len) 0 ++ (leBytes (2 * n) (8 * len)).reverse

/-- The digest of a message. -/
def hash (data : Bytes) : Bytes :=
  ((BlockHash.digest (16 * n) S.compress S.initial (padding n) data).toList.take
    S.digestWords).flatMap (ByteOrder.big.write n)

/-! ### The schedule by position -/

variable {S}

theorem schedule_length (M : List (Word n)) (k : ℕ) :
    (S.schedule M k).length = M.length + k := by
  induction k with
  | zero => rfl
  | succ k ih => rw [schedule, List.length_append, ih, List.length_singleton, Nat.add_assoc]

theorem schedule_getD_le (M : List (Word n)) {k m t : ℕ} (hkm : k ≤ m) (ht : t < M.length + k) :
    (S.schedule M m).getD t 0 = (S.schedule M k).getD t 0 := by
  induction m, hkm using Nat.le_induction with
  | base => rfl
  | succ m hkm ih =>
      rw [← ih, schedule, List.getD_append _ _ _ _ (by rw [schedule_length]; omega)]

theorem schedule_first (M : List (Word n)) {m t : ℕ} (ht : t < M.length) :
    (S.schedule M m).getD t 0 = M.getD t 0 :=
  schedule_getD_le M (Nat.zero_le m) (by omega)

theorem schedule_next (M : List (Word n)) (hM : M.length = 16) {m t : ℕ} (h16 : 16 ≤ t)
    (ht : t < 16 + m) :
    (S.schedule M m).getD t 0 =
      rotationsShift S.sigma1 ((S.schedule M m).getD (t - 2) 0) +
        (S.schedule M m).getD (t - 7) 0 +
        rotationsShift S.sigma0 ((S.schedule M m).getD (t - 15) 0) +
        (S.schedule M m).getD (t - 16) 0 := by
  obtain ⟨k, rfl⟩ : ∃ k, t = 16 + k := ⟨t - 16, by omega⟩
  have hold (i : ℕ) (hi : i < 16 + k) :
      (S.schedule M m).getD i 0 = (S.schedule M k).getD i 0 :=
    schedule_getD_le M (by omega) (by omega)
  have hlen : (S.schedule M k).length = 16 + k := by rw [schedule_length, hM]
  rw [schedule_getD_le M (k := k + 1) (by omega) (by omega), hold _ (by omega),
    hold _ (by omega), hold _ (by omega), hold _ (by omega), schedule,
    List.getD_append_right _ _ _ _ (by omega), hlen, Nat.sub_self, List.getD_cons_zero, nextWord,
    hlen]

theorem word_first (block : Bytes) {t : ℕ} (ht : t < 16) :
    S.word block t = wordAt .big n block t := by
  rw [word, schedule_first _ (by simpa [blockWords] using ht)]
  simp [blockWords, ht]

theorem word_next (block : Bytes) {t : ℕ} (h16 : 16 ≤ t) (ht : t < S.rounds) :
    S.word block t =
      rotationsShift S.sigma1 (S.word block (t - 2)) + S.word block (t - 7) +
        rotationsShift S.sigma0 (S.word block (t - 15)) + S.word block (t - 16) :=
  schedule_next _ (by simp [blockWords]) h16 (by omega)

theorem compress_take (H : Vars n) (data : Bytes) :
    S.compress H (data.take (16 * n)) = S.compress H data := by
  have hwords : blockWords n (data.take (16 * n)) = blockWords n data := by
    refine List.map_congr_left fun j hj => wordAt_take .big data ?_
    rw [← Nat.mul_succ, Nat.mul_comm]
    exact Nat.mul_le_mul_right n (List.mem_range.mp hj)
  simp only [compress, run, word, hwords]

theorem run_succ (block : Bytes) (v : Vars n) (t : ℕ) :
    S.run block v (t + 1) = S.step (rootBits n 3 t) (S.word block t) (S.run block v t) := by
  simp [run, List.range_succ]

/-- The number of zeros is the one below a block that completes the last block. -/
theorem zeros_eq {len k : ℕ} (hk : k < 16 * n) (h : 16 * n ∣ len + 1 + 2 * n + k) :
    zeros n len = k := by
  unfold zeros
  generalize 16 * n = m at *
  have hmod : (len + 1 + 2 * n) % m < m := Nat.mod_lt _ (by omega)
  have hsum : m ∣ (len + 1 + 2 * n) % m + k :=
    (Nat.dvd_add_iff_right (Nat.dvd_mul_right m ((len + 1 + 2 * n) / m))).mpr
      (by rwa [← Nat.add_assoc, Nat.div_add_mod])
  obtain ⟨q, hq⟩ := hsum
  match q with
  | 0 =>
      rw [Nat.mul_zero] at hq
      rw [show (len + 1 + 2 * n) % m = 0 by omega, Nat.sub_zero, Nat.mod_self]
      omega
  | 1 =>
      rw [Nat.mul_one] at hq
      rw [show m - (len + 1 + 2 * n) % m = k by omega, Nat.mod_eq_of_lt hk]
  | q + 2 =>
      have hle : m * 2 ≤ m * (q + 2) := Nat.mul_le_mul_left m (by omega)
      omega

end Standard

/-! ### The three hashes -/

/-- SHA-256. -/
def sha256 : Standard 4 where
  Sigma0 := (2, 13, 22)
  Sigma1 := (6, 11, 25)
  sigma0 := (7, 18, 3)
  sigma1 := (17, 19, 10)
  rounds := 64
  initial := rootVars 4 0
  digestWords := 8

/-- SHA-512. -/
def sha512 : Standard 8 where
  Sigma0 := (28, 34, 39)
  Sigma1 := (14, 18, 41)
  sigma0 := (1, 8, 7)
  sigma1 := (19, 61, 6)
  rounds := 80
  initial := rootVars 8 0
  digestWords := 8

/-- SHA-384: SHA-512 from the roots of the ninth to the sixteenth prime, cut to six words. -/
def sha384 : Standard 8 := { sha512 with initial := rootVars 8 8, digestWords := 6 }

end Vtrc.Sha2
