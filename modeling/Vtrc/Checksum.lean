import Vtrc.Lib.Crc
import Vtrc.Lowlevel
import Mathlib.Data.Fintype.Basic

/-! # CRC-32: definition and error detection (`hash/crc32-impl.h`)

The register of `crc32_impl` moves a byte at a time through a literal table.  `Lib/Crc.lean`
moves a register bit by bit.

* **Definition** (`get_standard`).  `crc32_impl::get` writes the CRC-32 computed bit by bit,
  most significant byte first, and `crc32_impl::check` accepts these four bytes only.
* **Bursts** (`burst_rejected`).  A frame whose payload is changed inside four consecutive
  bytes, or whose hash is changed, does not pass the check. -/

namespace Vtrc

namespace Crc32

/-- `poly 0xedb88320`. -/
def poly : BitVec 32 := 0xEDB88320#32

/-- The bits of a byte string in the order in which they enter the register: the lowest bit of
each byte first. -/
def bitsOf (data : Bytes) : List Bool := data.flatMap (fun b => Crc.toBits 8 b.toBitVec)

/-- CRC-32 by its definition: initial value and final exclusive or `0xFFFFFFFF`. -/
def standard (data : Bytes) : BitVec 32 :=
  Crc.checksum poly 0xFFFFFFFF#32 0xFFFFFFFF#32 (bitsOf data)

/-- The four bytes of a word, the most significant one first. -/
def bigEndian (v : BitVec 32) : Bytes :=
  [24, 16, 8, 0].map (fun s => UInt8.ofBitVec (v.extractLsb' s 8))

@[simp] theorem bitsOf_nil : bitsOf [] = [] := rfl

theorem bitsOf_cons (b : UInt8) (data : Bytes) :
    bitsOf (b :: data) = Crc.toBits 8 b.toBitVec ++ bitsOf data := rfl

theorem bitsOf_append (d e : Bytes) : bitsOf (d ++ e) = bitsOf d ++ bitsOf e := by
  unfold bitsOf
  exact List.flatMap_append

@[simp] theorem bitsOf_length (data : Bytes) : (bitsOf data).length = 8 * data.length := by
  induction data with
  | nil => rfl
  | cons b data ih =>
      rw [bitsOf_cons, List.length_append, Crc.toBits_length, ih, List.length_cons]
      omega

theorem bitsOf_injective : Function.Injective bitsOf := by
  intro d e h
  induction d generalizing e with
  | nil =>
      have := congrArg List.length h
      rw [bitsOf_length, bitsOf_length] at this
      cases e with
      | nil => rfl
      | cons b e => simp at this
  | cons b d ih =>
      cases e with
      | nil =>
          have := congrArg List.length h
          simp at this
      | cons c e =>
          rw [bitsOf_cons, bitsOf_cons] at h
          obtain ⟨hbyte, hrest⟩ := List.append_inj h (by simp)
          have hbits : (Crc.ofBits (Crc.toBits 8 b.toBitVec) : BitVec 8) =
              Crc.ofBits (Crc.toBits 8 c.toBitVec) := by rw [hbyte]
          rw [Crc.ofBits_toBits (fun i hi => BitVec.getLsbD_of_ge _ _ hi),
            Crc.ofBits_toBits (fun i hi => BitVec.getLsbD_of_ge _ _ hi)] at hbits
          rw [UInt8.toBitVec_inj.mp hbits, ih hrest]

/-! ### The table -/

theorem table_entry : ∀ i : Fin 256,
    (table.getD i 0).toBitVec = (Crc.bitStep poly)^[8] (BitVec.ofNat 32 i) := by
  decide +kernel

theorem getValue_eq (id : UInt32) :
    (getValue id).toBitVec = (Crc.bitStep poly)^[8] (Crc.low 8 id.toBitVec) := by
  have hlt : (id % 0x100).toNat < 256 := by
    rw [UInt32.toNat_mod]
    exact Nat.mod_lt _ (by decide)
  have hlow : Crc.low 8 id.toBitVec = BitVec.ofNat 32 (id % 0x100).toNat := by
    apply BitVec.eq_of_toNat_eq
    rw [Crc.low, BitVec.toNat_and, BitVec.toNat_ofNat, BitVec.toNat_ofNat, UInt32.toNat_mod]
    simp only [UInt32.toNat_toBitVec, Nat.reducePow, Nat.reduceSub, Nat.reduceMod]
    rw [show (255 : ℕ) = 2 ^ 8 - 1 from rfl, Nat.and_two_pow_sub_one_eq_mod]
    simp
    omega
  unfold getValue
  rw [hlow]
  exact table_entry ⟨_, hlt⟩

/-- **A byte at a time**: `update` feeds the eight bits of the byte. -/
theorem update_eq_feed (old : UInt32) (val : UInt8) :
    (update old val).toBitVec = Crc.feed poly old.toBitVec (Crc.toBits 8 val.toBitVec) := by
  have hval : ∀ i, 8 ≤ i → val.toUInt32.toBitVec.getLsbD i = false := by
    intro i hi
    rw [UInt8.toBitVec_toUInt32, BitVec.getLsbD_setWidth, BitVec.getLsbD_of_ge _ _ hi,
      Bool.and_false]
  have hshift : val.toUInt32.toBitVec >>> 8 = 0#32 := by
    apply BitVec.eq_of_getLsbD_eq
    intro i _
    rw [BitVec.getLsbD_ushiftRight, hval _ (by omega), BitVec.getLsbD_zero]
  have hbits : Crc.toBits 8 val.toBitVec = Crc.toBits 8 val.toUInt32.toBitVec := by
    unfold Crc.toBits
    apply List.map_congr_left
    intro i hi
    have := List.mem_range.mp hi
    simp
    omega
  unfold update
  rw [UInt32.toBitVec_xor, getValue_eq, hbits, Crc.feed_toBits poly (by decide) hval,
    Crc.iterate_eq_table poly 8 (_ ^^^ _), UInt32.toBitVec_xor, UInt32.toBitVec_shiftRight,
    BitVec.ushiftRight_xor_distrib, hshift, BitVec.xor_zero]
  rfl

theorem foldl_update_eq_feed (data : Bytes) (old : UInt32) :
    (data.foldl update old).toBitVec = Crc.feed poly old.toBitVec (bitsOf data) := by
  induction data generalizing old with
  | nil => rfl
  | cons b data ih => rw [List.foldl_cons, ih, update_eq_feed, bitsOf_cons, Crc.feed_append]

/-- The loop of `get` and `check` computes CRC-32. -/
theorem value_toBitVec (data : Bytes) : (value data).toBitVec = standard data := by
  unfold value standard Crc.checksum
  rw [UInt32.toBitVec_not, foldl_update_eq_feed, ← BitVec.xor_allOnes]
  rfl

theorem byte_eq (v : UInt32) : (v &&& 0xFF).toUInt8 = UInt8.ofBitVec (v.toBitVec.setWidth 8) := by
  apply UInt8.toBitVec_inj.mp
  rw [UInt32.toBitVec_toUInt8, UInt32.toBitVec_and, BitVec.setWidth_and]
  exact BitVec.and_allOnes

theorem get_eq_bigEndian (data : Bytes) : get data = bigEndian (standard data) := by
  rw [← value_toBitVec]
  unfold get bigEndian
  simp only [byte_eq, List.map_cons, List.map_nil, UInt32.toBitVec_shiftRight]
  rfl

/-- **CRC-32 agrees with its definition.**  `get` writes the check value that is computed bit by
bit, most significant byte first, and `check` accepts exactly these four bytes. -/
theorem get_standard (data : Bytes) :
    get data = bigEndian (standard data) ∧
      ∀ (a b c d : UInt8) (rest : Bytes),
        check data (a :: b :: c :: d :: rest) = true ↔ [a, b, c, d] = bigEndian (standard data) := by
  refine ⟨get_eq_bigEndian data, ?_⟩
  intro a b c d rest
  rw [check_iff data _ (by simp), get_eq_bigEndian]
  rfl

/-- The check value of the nine digits `123456789`. -/
example : standard [0x31, 0x32, 0x33, 0x34, 0x35, 0x36, 0x37, 0x38, 0x39] = 0xCBF43926#32 := by
  decide +kernel

/-! ### Bursts -/

theorem bigEndian_injective : Function.Injective bigEndian := by
  intro v u h
  simp only [bigEndian, List.map_cons, List.map_nil, List.cons.injEq, and_true] at h
  obtain ⟨h₃, h₂, h₁, h₀⟩ := h
  have byte : ∀ {s : ℕ}, UInt8.ofBitVec (v.extractLsb' s 8) = UInt8.ofBitVec (u.extractLsb' s 8) →
      ∀ i < 8, v.getLsbD (s + i) = u.getLsbD (s + i) := by
    intro s hs i hi
    have := congrArg (fun b : UInt8 => b.toBitVec.getLsbD i) hs
    simpa [BitVec.getLsbD_extractLsb', hi] using this
  apply BitVec.eq_of_getLsbD_eq
  intro i hi
  by_cases hi₀ : i < 8
  · simpa using byte h₀ i hi₀
  by_cases hi₁ : i < 16
  · simpa [show 8 + (i - 8) = i by omega] using byte h₁ (i - 8) (by omega)
  by_cases hi₂ : i < 24
  · simpa [show 16 + (i - 16) = i by omega] using byte h₂ (i - 16) (by omega)
  · simpa [show 24 + (i - 24) = i by omega] using byte h₃ (i - 24) (by omega)

/-- Two payloads that differ inside a window of at most four bytes have different hashes. -/
theorem get_ne_of_window (before after u u' : Bytes) (hlen : u.length = u'.length)
    (hwindow : u.length ≤ 4) (hne : u ≠ u') :
    get (before ++ (u ++ after)) ≠ get (before ++ (u' ++ after)) := by
  intro h
  rw [get_eq_bigEndian, get_eq_bigEndian] at h
  have hsum := bigEndian_injective h
  unfold standard Crc.checksum at hsum
  have hfeed := (BitVec.xor_left_inj _).mp hsum
  simp only [bitsOf_append] at hfeed
  refine Crc.feed_burst (by decide) ?_ ?_ ?_ _ _ _ hfeed
  · rw [bitsOf_length, bitsOf_length, hlen]
  · rw [bitsOf_length]
    omega
  · exact bitsOf_injective.ne hne

theorem eq_around_window {d d' : Bytes} {k : ℕ}
    (hwindow : ∀ i, i < k ∨ k + 4 ≤ i → d'[i]? = d[i]?) :
    d'.take k = d.take k ∧ (d'.drop k).drop 4 = (d.drop k).drop 4 := by
  constructor
  · apply List.ext_getElem?
    intro i
    by_cases hi : i < k
    · simp [hi, hwindow i (.inl hi)]
    · simp [hi]
  · apply List.ext_getElem?
    intro i
    rw [List.drop_drop, List.drop_drop, List.getElem?_drop, List.getElem?_drop]
    exact hwindow _ (.inr (by omega))

theorem get_ne_of_burst {d d' : Bytes} (k : ℕ) (hlen : d'.length = d.length)
    (hwindow : ∀ i, i < k ∨ k + 4 ≤ i → d'[i]? = d[i]?) (hne : d' ≠ d) : get d' ≠ get d := by
  obtain ⟨hbefore, hafter⟩ := eq_around_window hwindow
  have split : ∀ e : Bytes, e = e.take k ++ ((e.drop k).take 4 ++ (e.drop k).drop 4) := by
    intro e
    rw [List.take_append_drop, List.take_append_drop]
  rw [split d', split d, hbefore, hafter]
  apply get_ne_of_window
  · simp [hlen]
  · simp
  · intro h
    apply hne
    rw [split d', split d, hbefore, hafter, h]

end Crc32

namespace DefaultProtocol

variable (sha256 : Bytes → Digest)

/-- With the CRC-32 hash a frame passes the check when its first four bytes are the hash of the
others. -/
theorem checkMessage_crc32_iff (p : DefaultProtocol) (hp : p.hashChecker = .crc32)
    (h d : Bytes) (hh : h.length = 4) :
    p.checkMessage sha256 (h ++ d) = Crc32.check d (h ++ d) ∧
      (Crc32.check d (h ++ d) = true ↔ h = Crc32.get d) := by
  have hlen : HashKind.crc32.size ≤ (h ++ d).length := by
    rw [List.length_append, hh]
    exact Nat.le_add_right _ _
  constructor
  · have hdrop : (h ++ d).drop HashKind.crc32.size = d := List.drop_left' hh
    unfold checkMessage
    rw [hp, if_pos hlen, hdrop]
    rfl
  · rw [Crc32.check_iff _ _ hlen, List.take_left' hh]

/-- **Bursts are detected.**  A frame `hash( d ) ++ d` with the CRC-32 hash, its payload changed
inside a window of four consecutive bytes, is rejected by `crc32_impl::check` and by
`check_message`; so is every change of the four bytes of the hash. -/
theorem burst_rejected (p : DefaultProtocol) (hp : p.hashChecker = .crc32) (d : Bytes) :
    (∀ (d' : Bytes) (k : ℕ), d'.length = d.length →
        (∀ i, i < k ∨ k + 4 ≤ i → d'[i]? = d[i]?) → d' ≠ d →
        Crc32.check d' (Crc32.get d ++ d') = false ∧
          p.checkMessage sha256 (Crc32.get d ++ d') = false) ∧
      ∀ h : Bytes, h.length = 4 → h ≠ Crc32.get d →
        Crc32.check d (h ++ d) = false ∧ p.checkMessage sha256 (h ++ d) = false := by
  constructor
  · intro d' k hlen hwindow hne
    obtain ⟨hmess, hcheck⟩ := checkMessage_crc32_iff sha256 p hp (Crc32.get d) d' rfl
    have hfalse : Crc32.check d' (Crc32.get d ++ d') = false := by
      rw [Bool.eq_false_iff, Ne, hcheck]
      exact (Crc32.get_ne_of_burst k hlen hwindow hne).symm
    exact ⟨hfalse, hmess.trans hfalse⟩
  · intro h hh hne
    obtain ⟨hmess, hcheck⟩ := checkMessage_crc32_iff sha256 p hp h d hh
    have hfalse : Crc32.check d (h ++ d) = false := by
      rw [Bool.eq_false_iff, Ne, hcheck]
      exact hne
    exact ⟨hfalse, hmess.trans hfalse⟩

/-- Two bytes of a payload exchanged, and one byte of its hash changed. -/
theorem burst_rejected_abc :
    let p := create.setHashChecker .crc32
    p.checkMessage (fun _ => ⟨List.replicate 32 0, rfl⟩)
        (Crc32.get [0x61, 0x62, 0x63] ++ [0x61, 0x63, 0x62]) = false ∧
      p.checkMessage (fun _ => ⟨List.replicate 32 0, rfl⟩) ([0, 0, 0, 0] ++ [0x61, 0x62, 0x63]) =
        false := by
  have h := burst_rejected (fun _ => ⟨List.replicate 32 0, rfl⟩) (create.setHashChecker .crc32) rfl
    [0x61, 0x62, 0x63]
  refine ⟨(h.1 [0x61, 0x63, 0x62] 1 rfl ?_ (by decide)).2,
    (h.2 [0, 0, 0, 0] rfl (by decide +kernel)).2⟩
  intro i hi
  rcases hi with hi | hi
  · obtain rfl : i = 0 := by omega
    rfl
  · rw [List.getElem?_eq_none (by simp; omega), List.getElem?_eq_none (by simp; omega)]

end DefaultProtocol

end Vtrc
