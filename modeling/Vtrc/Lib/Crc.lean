import Mathlib.Data.BitVec
import Mathlib.Logic.Function.Iterate
import Mathlib.Data.List.GetD

/-! # Cyclic redundancy checks

A register of `w` bits that takes a message bit by bit, in the reflected form: the bit is added
to the lowest place, the register moves down by one, and the polynomial is added when the bit
that falls out is set (`feed`).

* **Linearity** (`bitStep_xor`, `iterate_xor`).  A step commutes with the exclusive or.
* **Chunks** (`feed_eq_iterate`, `feed_toBits`).  At most `w` bits may be added to the register
  at once and then moved through it.
* **Tables** (`iterate_eq_table`).  `k` steps are those of the lowest `k` places, and the others
  moved down: the update that a table of `2 ^ k` entries makes possible.
* **Bursts** (`feed_burst`).  When the polynomial has its highest place set, a step is injective
  (`bitStep_injective`); two messages that differ inside a window of at most `w` bits never
  leave the register in the same state. -/

namespace Vtrc.Crc

variable {w : ℕ} (poly : BitVec w)

/-- The register moves down by one place. -/
def bitStep (c : BitVec w) : BitVec w :=
  if c.getLsbD 0 then (c >>> 1) ^^^ poly else c >>> 1

/-- A bit as the lowest place of a register. -/
def ofBit (b : Bool) : BitVec w := (BitVec.ofBool b).setWidth w

/-- The register after the bits of a message, the first bit first. -/
def feed (c : BitVec w) : List Bool → BitVec w
  | [] => c
  | b :: bs => feed (bitStep poly (c ^^^ ofBit b)) bs

/-- The check value: the register starts with `init`, and `out` is added at the end. -/
def checksum (init out : BitVec w) (bits : List Bool) : BitVec w :=
  feed poly init bits ^^^ out

/-- The lowest `k` places, the lowest one first. -/
def toBits (k : ℕ) (x : BitVec w) : List Bool := (List.range k).map x.getLsbD

/-- The bits of a message as one register, the first bit in the lowest place. -/
def ofBits : List Bool → BitVec w
  | [] => 0
  | b :: bs => ofBit b ^^^ (ofBits bs <<< 1)

theorem feed_append (c : BitVec w) (bs cs : List Bool) :
    feed poly c (bs ++ cs) = feed poly (feed poly c bs) cs := by
  induction bs generalizing c with
  | nil => rfl
  | cons b bs ih => exact ih _

/-! ### Linearity -/

theorem xor_xor_xor_cancel (a b p : BitVec w) : (a ^^^ p) ^^^ (b ^^^ p) = a ^^^ b := by
  rw [BitVec.xor_assoc, BitVec.xor_comm b p, ← BitVec.xor_assoc p p b, BitVec.xor_self,
    BitVec.zero_xor]

theorem bitStep_xor (a b : BitVec w) :
    bitStep poly (a ^^^ b) = bitStep poly a ^^^ bitStep poly b := by
  unfold bitStep
  simp only [BitVec.getLsbD_xor, BitVec.ushiftRight_xor_distrib]
  cases ha : a.getLsbD 0 <;> cases hb : b.getLsbD 0
  · simp
  · simp [BitVec.xor_assoc]
  · simp only [Bool.xor_false, if_true, Bool.false_eq_true, if_false]
    rw [BitVec.xor_assoc, BitVec.xor_assoc, BitVec.xor_comm poly]
  · simp only [Bool.xor_self, Bool.false_eq_true, if_false, if_true]
    rw [xor_xor_xor_cancel]

theorem iterate_xor (n : ℕ) (a b : BitVec w) :
    (bitStep poly)^[n] (a ^^^ b) = (bitStep poly)^[n] a ^^^ (bitStep poly)^[n] b := by
  induction n generalizing a b with
  | zero => rfl
  | succ n ih =>
      rw [Function.iterate_succ_apply, Function.iterate_succ_apply, Function.iterate_succ_apply,
        bitStep_xor, ih]

/-! ### Places that are only moved -/

theorem getLsbD_ofBit_succ (b : Bool) (i : ℕ) : (ofBit b : BitVec w).getLsbD (i + 1) = false := by
  unfold ofBit
  rw [BitVec.getLsbD_setWidth, BitVec.getLsbD_ofBool]
  simp

theorem getLsbD_ofBit_zero (hw : 0 < w) (b : Bool) : (ofBit b : BitVec w).getLsbD 0 = b := by
  unfold ofBit
  rw [BitVec.getLsbD_setWidth, BitVec.getLsbD_ofBool]
  simp [hw]

theorem bitStep_of_clear {c : BitVec w} (h : c.getLsbD 0 = false) : bitStep poly c = c >>> 1 := by
  unfold bitStep
  rw [h]
  rfl

/-- A register whose lowest `n` places are clear only moves down in `n` steps. -/
theorem iterate_of_clear {n : ℕ} {c : BitVec w} (h : ∀ i < n, c.getLsbD i = false) :
    (bitStep poly)^[n] c = c >>> n := by
  induction n generalizing c with
  | zero => simp
  | succ n ih =>
      rw [Function.iterate_succ_apply, bitStep_of_clear poly (h 0 n.succ_pos), ih]
      · rw [← BitVec.shiftRight_add, Nat.add_comm]
      · intro i hi
        rw [BitVec.getLsbD_ushiftRight, Nat.add_comm]
        exact h (i + 1) (by omega)

/-- A register that fits below the highest place is moved up and down again. -/
theorem bitStep_shiftLeft {y : BitVec w} (h : y.getLsbD (w - 1) = false) :
    bitStep poly (y <<< 1) = y := by
  rw [bitStep_of_clear poly (by simp)]
  apply BitVec.eq_of_getLsbD_eq
  intro i hi
  rw [BitVec.getLsbD_ushiftRight, BitVec.getLsbD_shiftLeft]
  by_cases hlast : 1 + i < w
  · simp [hlast]
  · obtain rfl : i = w - 1 := by omega
    simp [hlast, h]

/-! ### Chunks -/

theorem getLsbD_ofBits_cons_succ (b : Bool) (bs : List Bool) (i : ℕ) :
    (ofBits (b :: bs) : BitVec w).getLsbD (i + 1) =
      (decide (i + 1 < w) && (ofBits bs : BitVec w).getLsbD i) := by
  rw [ofBits, BitVec.getLsbD_xor, getLsbD_ofBit_succ, BitVec.getLsbD_shiftLeft]
  simp

theorem getLsbD_ofBits_cons_zero (hw : 0 < w) (b : Bool) (bs : List Bool) :
    (ofBits (b :: bs) : BitVec w).getLsbD 0 = b := by
  rw [ofBits, BitVec.getLsbD_xor, getLsbD_ofBit_zero hw, BitVec.getLsbD_shiftLeft]
  simp

theorem getLsbD_ofBits (bs : List Bool) (i : ℕ) :
    (ofBits bs : BitVec w).getLsbD i = (decide (i < w) && bs.getD i false) := by
  induction bs generalizing i with
  | nil => simp [ofBits]
  | cons b bs ih =>
      cases i with
      | zero =>
          by_cases hw : 0 < w
          · rw [getLsbD_ofBits_cons_zero hw]
            simp [hw]
          · rw [BitVec.getLsbD_of_ge _ _ (by omega)]
            simp [hw]
      | succ i =>
          rw [getLsbD_ofBits_cons_succ, ih]
          by_cases hi : i + 1 < w
          · simp [hi, show i < w by omega]
          · simp [hi]

/-- A message of at most `w` bits may enter the register at once. -/
theorem feed_eq_iterate {bs : List Bool} (h : bs.length ≤ w) (c : BitVec w) :
    feed poly c bs = (bitStep poly)^[bs.length] (c ^^^ ofBits bs) := by
  induction bs generalizing c with
  | nil => simp [feed, ofBits]
  | cons b bs ih =>
      rw [List.length_cons] at h
      have hclear : (ofBits bs : BitVec w).getLsbD (w - 1) = false := by
        rw [getLsbD_ofBits, List.getD_eq_default _ _ (by omega), Bool.and_false]
      rw [feed, ih (by omega), List.length_cons, Function.iterate_succ_apply, ofBits,
        ← BitVec.xor_assoc, bitStep_xor poly (c ^^^ ofBit b), bitStep_shiftLeft poly hclear]

theorem ofBits_toBits {k : ℕ} {x : BitVec w} (h : ∀ i, k ≤ i → x.getLsbD i = false) :
    ofBits (toBits k x) = x := by
  apply BitVec.eq_of_getLsbD_eq
  intro i hi
  rw [getLsbD_ofBits]
  by_cases hk : i < k
  · simp [toBits, hi, hk]
  · rw [h i (by omega)]
    simp [toBits, hk]

@[simp] theorem toBits_length (k : ℕ) (x : BitVec w) : (toBits k x).length = k := by
  simp [toBits]

/-- The lowest `k` places enter the register at once. -/
theorem feed_toBits {k : ℕ} {x : BitVec w} (hk : k ≤ w) (h : ∀ i, k ≤ i → x.getLsbD i = false)
    (c : BitVec w) : feed poly c (toBits k x) = (bitStep poly)^[k] (c ^^^ x) := by
  rw [feed_eq_iterate poly (by rwa [toBits_length]), toBits_length, ofBits_toBits h]

/-! ### Tables -/

/-- The lowest `k` places of a register. -/
def low (k : ℕ) (c : BitVec w) : BitVec w := c &&& BitVec.ofNat w (2 ^ k - 1)

theorem getLsbD_low (k : ℕ) (c : BitVec w) (i : ℕ) :
    (low k c).getLsbD i = (c.getLsbD i && decide (i < k)) := by
  rw [low, BitVec.getLsbD_and, BitVec.getLsbD_ofNat, Nat.testBit_two_pow_sub_one]
  by_cases hi : i < w
  · simp [hi]
  · simp [BitVec.getLsbD_of_ge c i (by omega)]

/-- `k` steps are those of the lowest `k` places, and the other places moved down. -/
theorem iterate_eq_table (k : ℕ) (c : BitVec w) :
    (bitStep poly)^[k] c = (bitStep poly)^[k] (low k c) ^^^ (c >>> k) := by
  have hsplit : c = low k c ^^^ (c ^^^ low k c) := by
    rw [BitVec.xor_comm c, ← BitVec.xor_assoc, BitVec.xor_self, BitVec.zero_xor]
  have hclear : ∀ i < k, (c ^^^ low k c).getLsbD i = false := by
    intro i hi
    rw [BitVec.getLsbD_xor, getLsbD_low]
    simp [hi]
  have hmove : (c ^^^ low k c) >>> k = c >>> k := by
    apply BitVec.eq_of_getLsbD_eq
    intro i hi
    rw [BitVec.getLsbD_ushiftRight, BitVec.getLsbD_ushiftRight, BitVec.getLsbD_xor, getLsbD_low]
    simp [show ¬ k + i < k by omega]
  conv_lhs => rw [hsplit]
  rw [iterate_xor, iterate_of_clear poly hclear, hmove]

/-! ### Bursts -/

variable {poly}

/-- The place that falls out can be read off the highest place afterwards. -/
theorem bitStep_injective (hpoly : poly.msb = true) : Function.Injective (bitStep poly) := by
  intro a b hab
  have hzero : bitStep poly (a ^^^ b) = 0#w := by rw [bitStep_xor, hab, BitVec.xor_self]
  have hmsb : ((a ^^^ b) >>> 1).msb = false := by
    rw [BitVec.msb_ushiftRight]
    simp
  unfold bitStep at hzero
  cases hlow : (a ^^^ b).getLsbD 0 with
  | true =>
      rw [hlow, if_pos rfl] at hzero
      have := congrArg BitVec.msb hzero
      rw [BitVec.msb_xor, hmsb, hpoly] at this
      simp at this
  | false =>
      rw [hlow, if_neg (by simp)] at hzero
      apply BitVec.xor_eq_zero_iff.mp
      apply BitVec.eq_of_getLsbD_eq
      intro i hi
      cases i with
      | zero => simp only [hlow, BitVec.getLsbD_zero]
      | succ i =>
          have := congrArg (fun x : BitVec w => x.getLsbD i) hzero
          simp only [BitVec.getLsbD_ushiftRight, BitVec.getLsbD_zero] at this
          rw [Nat.add_comm, this, BitVec.getLsbD_zero]

theorem feed_injective (hpoly : poly.msb = true) (bs : List Bool) :
    Function.Injective (fun c => feed poly c bs) := by
  induction bs with
  | nil => exact Function.injective_id
  | cons b bs ih =>
      intro a c hac
      have hstep := bitStep_injective hpoly (ih hac)
      exact (BitVec.xor_left_inj _).mp hstep

theorem ofBits_injective {bs cs : List Bool} (hlen : bs.length = cs.length) (hw : bs.length ≤ w)
    (h : (ofBits bs : BitVec w) = ofBits cs) : bs = cs := by
  apply List.ext_getElem hlen
  intro i hi hi'
  have := congrArg (fun x : BitVec w => x.getLsbD i) h
  simp only [getLsbD_ofBits] at this
  rw [List.getD_eq_getElem _ _ hi, List.getD_eq_getElem _ _ hi'] at this
  simpa [show i < w by omega] using this

/-- **Bursts.**  Two messages that differ inside a window of at most `w` bits leave the register
in different states. -/
theorem feed_burst (hpoly : poly.msb = true) {bs cs : List Bool} (hlen : bs.length = cs.length)
    (hw : bs.length ≤ w) (hne : bs ≠ cs) (c : BitVec w) (before after : List Bool) :
    feed poly c (before ++ (bs ++ after)) ≠ feed poly c (before ++ (cs ++ after)) := by
  intro h
  simp only [feed_append] at h
  have hwindow := feed_injective hpoly after h
  rw [feed_eq_iterate poly hw, feed_eq_iterate poly (by omega : cs.length ≤ w), hlen] at hwindow
  have hin := (bitStep_injective hpoly).iterate _ hwindow
  apply hne
  apply ofBits_injective hlen hw
  exact (BitVec.xor_right_inj _).mp hin

end Vtrc.Crc
