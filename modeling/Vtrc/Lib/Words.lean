import Mathlib.Data.List.Basic
import Mathlib.Algebra.Order.Ring.Nat
import Mathlib.Tactic.Ring

/-! # Words in a byte-addressed memory

A word of `n` bytes is a bit vector of `8 * n` bits.  `ByteOrder.write` lays it out in memory and
`ByteOrder.read` takes it back, in either byte order; `wordAt` and `setWord` read and write the
`j`-th word of a memory of bytes.

* `read_write` and `write_read` are the round trips.
* `reverse` is the reversal of the bytes of a word: it turns what one order reads into what the
  other one reads (`reverse_read`) and what one order writes into what the other one writes
  (`write_reverse`).
* `wordAt_setWord` is the law of the memory. -/

namespace Vtrc.Words

/-- The order of the bytes of a word in memory. -/
inductive ByteOrder where
  | little
  | big
deriving DecidableEq, Repr

/-! ### Numbers as bytes -/

/-- The `n` low bytes of a number, least significant first. -/
def leBytes : ℕ → ℕ → List UInt8
  | 0, _ => []
  | n + 1, x => UInt8.ofNat x :: leBytes n (x / 256)

/-- The number that bytes spell, least significant first. -/
def leValue : List UInt8 → ℕ
  | [] => 0
  | b :: bs => b.toNat + 256 * leValue bs

@[simp] theorem leBytes_length (n x : ℕ) : (leBytes n x).length = n := by
  induction n generalizing x with
  | zero => rfl
  | succ n ih => simp [leBytes, ih]

theorem leValue_lt (bs : List UInt8) : leValue bs < 256 ^ bs.length := by
  induction bs with
  | nil => decide
  | cons b bs ih =>
      have hb := b.toNat_lt
      simp only [leValue, List.length_cons, pow_succ]
      omega

theorem leValue_leBytes (n x : ℕ) : leValue (leBytes n x) = x % 256 ^ n := by
  induction n generalizing x with
  | zero => simp [leBytes, leValue, Nat.mod_one]
  | succ n ih =>
      rw [leBytes, leValue, ih, pow_succ', Nat.mod_mul, UInt8.toNat_ofNat']

theorem leBytes_leValue (bs : List UInt8) : leBytes bs.length (leValue bs) = bs := by
  induction bs with
  | nil => rfl
  | cons b bs ih =>
      have hb := b.toNat_lt
      have hlow : UInt8.ofNat (b.toNat + 256 * leValue bs) = b := by
        apply UInt8.toNat_inj.mp
        rw [UInt8.toNat_ofNat']
        omega
      have hhigh : (b.toNat + 256 * leValue bs) / 256 = leValue bs := by omega
      rw [List.length_cons, leValue, leBytes, hlow, hhigh, ih]

theorem leBytes_getElem? (n x i : ℕ) (h : i < n) :
    (leBytes n x)[i]? = some (UInt8.ofNat (x / 256 ^ i)) := by
  induction n generalizing x i with
  | zero => omega
  | succ n ih =>
      cases i with
      | zero => simp [leBytes]
      | succ i => rw [leBytes, List.getElem?_cons_succ, ih _ _ (by omega), Nat.div_div_eq_div_mul,
          pow_succ']

theorem leBytes_mod (n x : ℕ) : leBytes n (x % 256 ^ n) = leBytes n x := by
  have h := leBytes_leValue (leBytes n x)
  rwa [leBytes_length, leValue_leBytes] at h

theorem leBytes_add (m n x : ℕ) :
    leBytes (m + n) x = leBytes m x ++ leBytes n (x / 256 ^ m) := by
  induction m generalizing x with
  | zero => simp [leBytes]
  | succ m ih =>
      rw [Nat.succ_add_eq_add_succ, Nat.add_succ, leBytes, ih, leBytes, List.cons_append,
        Nat.div_div_eq_div_mul, pow_succ']

/-! ### Words as bytes -/

namespace ByteOrder

/-- The bytes of a word as they stand in memory. -/
def write (o : ByteOrder) (n : ℕ) (x : BitVec (8 * n)) : List UInt8 :=
  match o with
  | little => leBytes n x.toNat
  | big => (leBytes n x.toNat).reverse

/-- The word that stands in memory. -/
def read (o : ByteOrder) (n : ℕ) (bs : List UInt8) : BitVec (8 * n) :=
  match o with
  | little => BitVec.ofNat _ (leValue bs)
  | big => BitVec.ofNat _ (leValue bs.reverse)

@[simp] theorem write_length (o : ByteOrder) (n : ℕ) (x : BitVec (8 * n)) :
    (o.write n x).length = n := by
  cases o <;> simp [write]

theorem write_big (n : ℕ) (x : BitVec (8 * n)) : big.write n x = (little.write n x).reverse := rfl

theorem read_big (n : ℕ) (bs : List UInt8) : big.read n bs = little.read n bs.reverse := rfl

theorem toNat_lt (n : ℕ) (x : BitVec (8 * n)) : x.toNat < 256 ^ n := by
  have h := x.isLt
  rwa [pow_mul] at h

@[simp] theorem read_write (o : ByteOrder) (n : ℕ) (x : BitVec (8 * n)) :
    o.read n (o.write n x) = x := by
  have h : little.read n (little.write n x) = x := by
    apply BitVec.eq_of_toNat_eq
    rw [write, read, leValue_leBytes, Nat.mod_eq_of_lt (toNat_lt n x), BitVec.ofNat_toNat]
    simp
  cases o with
  | little => exact h
  | big => rw [read_big, write_big, List.reverse_reverse, h]

theorem write_read (o : ByteOrder) (n : ℕ) (bs : List UInt8) (h : bs.length = n) :
    o.write n (o.read n bs) = bs := by
  have hlittle (bs : List UInt8) (h : bs.length = n) : little.write n (little.read n bs) = bs := by
    subst h
    have hlt := leValue_lt bs
    rw [read, write, BitVec.toNat_ofNat, pow_mul, show 2 ^ 8 = 256 from rfl,
      Nat.mod_eq_of_lt hlt, leBytes_leValue]
  cases o with
  | little => exact hlittle bs h
  | big =>
      rw [read_big, write_big, hlittle _ (by simpa using h), List.reverse_reverse]

end ByteOrder

/-- The bytes of a word the other way round. -/
def reverse (n : ℕ) (x : BitVec (8 * n)) : BitVec (8 * n) :=
  ByteOrder.big.read n (ByteOrder.little.write n x)

theorem reverse_read (n : ℕ) (bs : List UInt8) (h : bs.length = n) :
    reverse n (ByteOrder.little.read n bs) = ByteOrder.big.read n bs := by
  rw [reverse, ByteOrder.write_read _ _ _ h]

theorem write_reverse (n : ℕ) (x : BitVec (8 * n)) :
    ByteOrder.little.write n (reverse n x) = ByteOrder.big.write n x := by
  rw [reverse, ByteOrder.read_big, ByteOrder.write_read _ _ _ (by simp), ByteOrder.write_big]

/-- A map of words that exchanges the bytes `i` and `n - 1 - i` is the reversal. -/
theorem eq_reverse {n : ℕ} {f : BitVec (8 * n) → BitVec (8 * n)}
    (h : ∀ x, ∀ i < n, (f x).toNat / 256 ^ i % 256 = x.toNat / 256 ^ (n - 1 - i) % 256)
    (x : BitVec (8 * n)) : f x = reverse n x := by
  have hbytes : ByteOrder.little.write n (f x) = ByteOrder.big.write n x := by
    apply List.ext_getElem (by simp)
    intro i hi _
    rw [ByteOrder.write_length] at hi
    simp only [ByteOrder.write, List.getElem_reverse, leBytes_length]
    have hget (y k : ℕ) (hk : k < (leBytes n y).length) :
        (leBytes n y)[k] = UInt8.ofNat (y / 256 ^ k) :=
      Option.some.inj ((List.getElem?_eq_getElem hk).symm.trans
        (leBytes_getElem? n y k (leBytes_length n y ▸ hk)))
    rw [hget, hget]
    apply UInt8.toNat_inj.mp
    rw [UInt8.toNat_ofNat', UInt8.toNat_ofNat']
    exact h x i hi
  rw [← ByteOrder.read_write .little n (f x), hbytes, ← write_reverse, ByteOrder.read_write]

/-! ### A memory of words -/

/-- The `j`-th word of a memory. -/
def wordAt (o : ByteOrder) (n : ℕ) (mem : List UInt8) (j : ℕ) : BitVec (8 * n) :=
  o.read n ((mem.drop (n * j)).take n)

/-- The memory after a write of its `j`-th word. -/
def setWord (o : ByteOrder) (n : ℕ) (mem : List UInt8) (j : ℕ) (x : BitVec (8 * n)) :
    List UInt8 :=
  mem.take (n * j) ++ o.write n x ++ mem.drop (n * j + n)

theorem setWord_length (o : ByteOrder) {n : ℕ} {mem : List UInt8} {j : ℕ} (x : BitVec (8 * n))
    (h : n * j + n ≤ mem.length) : (setWord o n mem j x).length = mem.length := by
  simp only [setWord, List.length_append, List.length_take, List.length_drop,
    ByteOrder.write_length]
  omega

theorem wordAt_take (o : ByteOrder) {n m : ℕ} (mem : List UInt8) {j : ℕ} (h : n * j + n ≤ m) :
    wordAt o n (mem.take m) j = wordAt o n mem j := by
  rw [wordAt, wordAt, List.drop_take, List.take_take, Nat.min_eq_left (by omega)]

/-- **The law of the memory.**  A write changes the word written and no other. -/
theorem wordAt_setWord (o : ByteOrder) {n : ℕ} {mem : List UInt8} {j : ℕ} (x : BitVec (8 * n))
    (h : n * j + n ≤ mem.length) (i : ℕ) :
    wordAt o n (setWord o n mem j x) i = if i = j then x else wordAt o n mem i := by
  have hfront : (mem.take (n * j)).length = n * j := by
    rw [List.length_take]
    omega
  have hsplit : (mem.take (n * j) ++ o.write n x).length = n * j + n := by simp [hfront]
  rcases lt_trichotomy i j with hij | rfl | hij
  · have hle : n * i + n ≤ n * j := by
      rw [← Nat.mul_succ]
      exact Nat.mul_le_mul_left n hij
    rw [if_neg (by omega), wordAt, setWord, wordAt, List.append_assoc,
      List.drop_append_of_le_length (by omega), List.take_append_of_le_length
        (by rw [List.length_drop]; omega), List.drop_take, List.take_take,
      Nat.min_eq_left (by omega)]
  · rw [if_pos rfl, wordAt, setWord, List.append_assoc, List.drop_left' hfront,
      List.take_left' (by simp), ByteOrder.read_write]
  · have hle : n * j + n ≤ n * i := by
      rw [← Nat.mul_succ]
      exact Nat.mul_le_mul_left n hij
    rw [if_neg (by omega), wordAt, setWord, wordAt, List.drop_append, hsplit, List.drop_drop,
      List.drop_eq_nil_of_le (by omega), List.nil_append]
    congr 3
    omega

end Vtrc.Words
