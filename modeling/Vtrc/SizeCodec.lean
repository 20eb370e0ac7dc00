import Vtrc.SizePack
import Mathlib.Logic.Function.Basic

/-! # The size policies over the full range of the size type (`sizepack-policy.h`)

`Lawful` of `SizePack.lean` is what the frame parser needs and leaves room for a header length in
the size type.  Here the policies are looked at for every value of the type.

* `PolicyKind.codes`: the header of any size is recognised whatever follows it, read back, and
  not recognised when a part of it is missing.
* `size_codec_exact` adds the shifts that `unpack` makes (`shifts`, with `unpackLoop_shifts` for
  what they are used for): on an admitted header none of them reaches the width of the type.
* `packTo_eq`: `pack` to a buffer writes what `pack` returns, and nothing behind it.
* `lengths_agree_iff`: when `packed_length` is the number of these bytes. -/

namespace Vtrc

/-! ### What fixint packs -/

namespace Fixint

theorem packLoop_eq (cur size : ℕ) (res : Bytes) :
    packLoop cur size res = packLoop cur size [] ++ res := by
  induction cur generalizing size res with
  | zero => rfl
  | succ cur ih =>
      rw [packLoop, packLoop, ih, ih (size >>> 8) [_], List.append_assoc]
      rfl

theorem packLoop_length (cur size : ℕ) (res : Bytes) :
    (packLoop cur size res).length = cur + res.length := by
  induction cur generalizing size res with
  | zero => simp [packLoop]
  | succ cur ih =>
      rw [packLoop, ih, List.length_cons]
      omega

@[simp] theorem pack_length (w size : ℕ) : (pack w size).length = w := by
  unfold pack
  rw [packLoop_length]
  rfl

theorem toNat_byte (size : ℕ) : (UInt8.ofNat (size &&& 0xFF)).toNat = size % 256 := by
  have h : size &&& 0xFF = size % 256 := Nat.and_two_pow_sub_one_eq_mod size 8
  rw [h, UInt8.toNat_ofNat']
  omega

/-- The bytes written so far denote the lowest `cur` bytes of the size. -/
theorem value_packLoop (cur size : ℕ) (res : Bytes) :
    value (packLoop cur size res) = size % 256 ^ cur * 256 ^ res.length + value res := by
  induction cur generalizing size res with
  | zero => simp [packLoop, Nat.mod_one]
  | succ cur ih =>
      have hsplit : size % 256 ^ (cur + 1) = size % 256 + 256 * (size / 256 % 256 ^ cur) := by
        rw [pow_succ', Nat.mod_mul]
      have hshift : size >>> 8 = size / 256 := Nat.shiftRight_eq_div_pow size 8
      rw [packLoop, ih, hshift, value_cons, toNat_byte, List.length_cons, hsplit, pow_succ]
      ring

theorem value_pack {w size : ℕ} (h : size < 2 ^ (8 * w)) : value (pack w size) = size := by
  have hpow : (256 : ℕ) ^ w = 2 ^ (8 * w) := by
    rw [show (256 : ℕ) = 2 ^ 8 from rfl, ← pow_mul]
  unfold pack
  rw [value_packLoop, hpow, Nat.mod_eq_of_lt h]
  simp [value]

theorem unpack_pack {w size : ℕ} (h : size < 2 ^ (8 * w)) (s : Bytes) :
    unpack w (pack w size ++ s) = size := by
  rw [unpack_eq w (pack w size) s (pack_length w size), value_pack h]

end Fixint

/-! ### Every size has a header of its own -/

/-- The header of the size `n` has at least one byte and at most `max_length`, is recognised
whatever follows it, is read back as `n`, and is not recognised before its last byte is there. -/
structure SizePolicy.Codes (P : SizePolicy) (n : ℕ) : Prop where
  length_pos : 0 < (P.pack n).length
  length_le : (P.pack n).length ≤ P.maxLength
  sizeLength_append : ∀ s, P.sizeLength (P.pack n ++ s) = (P.pack n).length
  unpack_append : ∀ s, P.unpack (P.pack n ++ s) = n
  sizeLength_prefix : ∀ p s, P.pack n = p ++ s → s ≠ [] → P.sizeLength p = 0

theorem varintPolicy_codes {w n : ℕ} (h : n < 2 ^ (8 * w)) : (varintPolicy w).Codes n where
  length_pos := List.length_pos_iff.mpr (Varint.pack_ne_nil n)
  length_le := varint_pack_length w n h
  sizeLength_append := Varint.sizeLength_pack n
  unpack_append s := Varint.unpack_pack w n s h
  sizeLength_prefix := Varint.sizeLength_prefix n

theorem fixintPolicy_codes {w n : ℕ} (hw : 0 < w) (h : n < 2 ^ (8 * w)) :
    (fixintPolicy w).Codes n where
  length_pos := (Fixint.pack_length w n).symm ▸ hw
  length_le := (Fixint.pack_length w n).le
  sizeLength_append s := by
    unfold fixintPolicy Fixint.sizeLength
    simp only [List.length_append, Fixint.pack_length]
    rw [if_neg (by omega)]
  unpack_append := Fixint.unpack_pack h
  sizeLength_prefix p s hp hs := by
    have hlen := congrArg List.length hp
    have hpos := List.length_pos_iff.mpr hs
    unfold fixintPolicy at hlen
    simp only [List.length_append, Fixint.pack_length] at hlen
    exact if_pos (by omega)

theorem PolicyKind.codes (kind : PolicyKind) {w n : ℕ} (hw : 0 < w) (h : n < 2 ^ (8 * w)) :
    (kind.policy w).Codes n := by
  cases kind with
  | varint => exact varintPolicy_codes h
  | fixint => exact fixintPolicy_codes hw h

/-- Sizes that leave room for a header length are what the frame parser can work with. -/
theorem PolicyKind.lawful (kind : PolicyKind) (w N : ℕ) (hw : 0 < w)
    (hN : N + (kind.policy w).maxLength < 2 ^ (kind.policy w).bits) :
    (kind.policy w).Lawful N := by
  have hbits : (kind.policy w).bits = 8 * w := by cases kind <;> rfl
  have hcodes : ∀ n, n ≤ N → (kind.policy w).Codes n := by
    intro n hn
    apply kind.codes hw
    rw [← hbits]
    omega
  exact {
    pack_ne_nil n hn := List.length_pos_iff.mp (hcodes n hn).length_pos
    pack_length_le n hn := (hcodes n hn).length_le
    sizeLength_pack n s hn := (hcodes n hn).sizeLength_append s
    unpack_pack n s hn := (hcodes n hn).unpack_append s
    sizeLength_prefix n p s hn := SizePolicy.Codes.sizeLength_prefix (hcodes n hn) p s
    add_lt := hN }

/-! ### The shifts of unpack -/

namespace Varint

/-- The shifts of the loop of `unpack`. -/
def shiftsLoop (shift : ℕ) (last : UInt8) : Bytes → List ℕ
  | [] => []
  | b :: rest => if last &&& 0x80 ≠ 0 then shift :: shiftsLoop (shift + 7) b rest else []

def shifts (data : Bytes) : List ℕ := shiftsLoop 0 0x80 data

theorem unpackLoop_shifts (w res shift : ℕ) (last : UInt8) (data : Bytes) :
    unpackLoop w res shift last data =
      (data.zip (shiftsLoop shift last data)).foldl
        (fun res g => res ||| (((g.1 &&& 0x7F).toNat <<< g.2) % 2 ^ (8 * w))) res := by
  induction data generalizing res shift last with
  | nil => rfl
  | cons b data ih =>
      unfold unpackLoop shiftsLoop
      split_ifs
      · rw [List.zip_cons_cons, List.foldl_cons, ih]
      · rfl

theorem shiftsLoop_lt {k shift : ℕ} {last : UInt8} {data : Bytes}
    (h : k ∈ shiftsLoop shift last data) : k + 7 ≤ shift + 7 * data.length := by
  induction data generalizing shift last with
  | nil => cases h
  | cons b data ih =>
      unfold shiftsLoop at h
      split_ifs at h
      · rw [List.length_cons]
        cases List.mem_cons.mp h with
        | inl heq => omega
        | inr hmem =>
            have := ih hmem
            omega
      · cases h

theorem shiftsLoop_stop {shift : ℕ} {last : UInt8} (h : last &&& 0x80 = 0) (data : Bytes) :
    shiftsLoop shift last data = [] := by
  cases data with
  | nil => rfl
  | cons b data => rw [shiftsLoop, if_neg (by simp [h])]

theorem shiftsLoop_header {p : Bytes} {b : UInt8} (s : Bytes) (hp : ∀ x ∈ p, x &&& 0x80 ≠ 0)
    (hb : b &&& 0x80 = 0) (shift : ℕ) (last : UInt8) :
    shiftsLoop shift last (p ++ b :: s) = shiftsLoop shift last (p ++ [b]) := by
  induction p generalizing shift last with
  | nil =>
      rw [List.nil_append, List.nil_append]
      simp only [shiftsLoop, shiftsLoop_stop hb]
  | cons c p ih =>
      obtain ⟨_, hp⟩ := List.forall_mem_cons.mp hp
      rw [List.cons_append, List.cons_append, shiftsLoop, shiftsLoop, ih hp]

end Varint

namespace Fixint

/-- The shifts of the loop of `unpack`. -/
def shiftsLoop : ℕ → Bytes → List ℕ
  | 0, _ => []
  | _ + 1, [] => []
  | cur + 1, _ :: rest => cur * 8 :: shiftsLoop cur rest

def shifts (w : ℕ) (data : Bytes) : List ℕ := shiftsLoop w data

theorem unpackLoop_shifts (w cur res : ℕ) (data : Bytes) :
    unpackLoop w cur res data =
      (data.zip (shiftsLoop cur data)).foldl
        (fun res g => res ||| ((g.1.toNat <<< g.2) % 2 ^ (8 * w))) res := by
  induction cur generalizing res data with
  | zero => simp [unpackLoop, shiftsLoop]
  | succ cur ih =>
      cases data with
      | nil => rfl
      | cons b data => rw [unpackLoop, shiftsLoop, List.zip_cons_cons, List.foldl_cons, ih]

theorem shiftsLoop_lt {k cur : ℕ} {data : Bytes} (h : k ∈ shiftsLoop cur data) :
    k + 8 ≤ cur * 8 := by
  induction cur generalizing data with
  | zero => cases h
  | succ cur ih =>
      cases data with
      | nil => cases h
      | cons b data =>
          cases List.mem_cons.mp h with
          | inl heq => omega
          | inr hmem =>
              have := ih hmem
              omega

end Fixint

namespace PolicyKind

/-- The shifts that `unpack` makes on the data. -/
def shifts (w : ℕ) : PolicyKind → Bytes → List ℕ
  | varint => Varint.shifts
  | fixint => Fixint.shifts w

/-- The data has at most `max_length` bytes, or starts with a complete header that has. -/
def Admitted (w : ℕ) (kind : PolicyKind) (data : Bytes) : Prop :=
  data.length ≤ (kind.policy w).maxLength ∨
    0 < (kind.policy w).sizeLength data ∧
      (kind.policy w).sizeLength data ≤ (kind.policy w).maxLength

theorem varint_shifts_lt {w k : ℕ} (hw : w = 1 ∨ w = 2 ∨ w = 4 ∨ w = 8) {data : Bytes}
    (h : Admitted w varint data) (hk : k ∈ Varint.shifts data) : k < 8 * w := by
  have hle : k + 7 ≤ 7 * Varint.maxLength w := by
    rcases h with h | ⟨hpos, h⟩
    · have hlt := Varint.shiftsLoop_lt hk
      have : data.length ≤ Varint.maxLength w := h
      omega
    · change 0 < Varint.sizeLength data at hpos
      change Varint.sizeLength data ≤ Varint.maxLength w at h
      rcases Varint.split_header data with hopen | ⟨p, b, s, rfl, hp, hb⟩
      · rw [Varint.sizeLength_open hopen] at hpos
        omega
      · rw [Varint.sizeLength_header s hp hb] at h
        unfold Varint.shifts at hk
        rw [Varint.shiftsLoop_header s hp hb] at hk
        have hlt := Varint.shiftsLoop_lt hk
        rw [List.length_append, List.length_singleton] at hlt
        omega
  -- the number of bits is not a multiple of seven
  unfold Varint.maxLength at hle
  omega

theorem shifts_lt (kind : PolicyKind) {w k : ℕ} (hw : w = 1 ∨ w = 2 ∨ w = 4 ∨ w = 8) {data : Bytes}
    (h : kind.Admitted w data) (hk : k ∈ kind.shifts w data) : k < 8 * w := by
  cases kind with
  | varint => exact varint_shifts_lt hw h hk
  | fixint =>
      have := Fixint.shiftsLoop_lt hk
      omega

end PolicyKind

/-- **The codecs over the full range.**  For both policies, size types of one, two, four and eight
bytes, every size and whatever follows it: the header has at most `max_length` bytes, is
recognised, is read back, and no proper part of it is recognised; and no shift of `unpack` reaches
the width of the type on an admitted header. -/
theorem size_codec_exact (kind : PolicyKind) {w : ℕ} (hw : w = 1 ∨ w = 2 ∨ w = 4 ∨ w = 8) {n : ℕ}
    (hn : n < 2 ^ (8 * w)) (s : Bytes) :
    (kind.policy w).sizeLength ((kind.policy w).pack n ++ s) = ((kind.policy w).pack n).length ∧
      ((kind.policy w).pack n).length ≤ (kind.policy w).maxLength ∧
      (kind.policy w).unpack ((kind.policy w).pack n ++ s) = n ∧
      (∀ data, kind.Admitted w data → ∀ k ∈ kind.shifts w data, k < 8 * w) ∧
      ∀ p t, (kind.policy w).pack n = p ++ t → t ≠ [] → (kind.policy w).sizeLength p = 0 := by
  have hcodes := kind.codes (show 0 < w by omega) hn
  exact ⟨hcodes.sizeLength_append s, hcodes.length_le, hcodes.unpack_append s,
    fun _ h _ hk => kind.shifts_lt hw h hk, hcodes.sizeLength_prefix⟩

/-- The largest size of 64 bits: ten bytes, the last one shifted by 63. -/
theorem size_codec_exact_top :
    (PolicyKind.varint.policy 8).unpack ((PolicyKind.varint.policy 8).pack (2 ^ 64 - 1) ++ []) =
      2 ^ 64 - 1 :=
  (size_codec_exact .varint (.inr (.inr (.inr rfl))) (n := 2 ^ 64 - 1) (by decide) []).2.2.1

/-! ### The length of a header, three times -/

/-- The bytes of `res`, written from the offset `i` on. -/
def store (res : ℕ → UInt8) (i : ℕ) : Bytes → ℕ → UInt8
  | [] => res
  | b :: bytes => store (Function.update res i b) (i + 1) bytes

theorem store_of_lt {res : ℕ → UInt8} {i j : ℕ} {bytes : Bytes} (h : j < i) :
    store res i bytes j = res j := by
  induction bytes generalizing res i with
  | nil => rfl
  | cons b bytes ih =>
      rw [store, ih (by omega), Function.update_of_ne (by omega)]

theorem store_of_ge {res : ℕ → UInt8} {i j : ℕ} {bytes : Bytes} (h : i + bytes.length ≤ j) :
    store res i bytes j = res j := by
  induction bytes generalizing res i with
  | nil => rfl
  | cons b bytes ih =>
      rw [List.length_cons] at h
      rw [store, ih (by omega), Function.update_of_ne (by omega)]

theorem map_store (res : ℕ → UInt8) (i : ℕ) (bytes : Bytes) :
    (List.range' i bytes.length).map (store res i bytes) = bytes := by
  induction bytes generalizing res i with
  | nil => rfl
  | cons b bytes ih =>
      rw [List.length_cons, List.range'_succ, List.map_cons, store, ih,
        store_of_lt (Nat.lt_succ_self i), Function.update_self]

theorem store_append (res : ℕ → UInt8) (i : ℕ) (bytes more : Bytes) :
    store res i (bytes ++ more) = store (store res i bytes) (i + bytes.length) more := by
  induction bytes generalizing res i with
  | nil => rfl
  | cons b bytes ih =>
      rw [List.cons_append, store, ih, store, List.length_cons]
      congr 1
      omega

/-- A write behind the stored bytes may come first. -/
theorem store_update (res : ℕ → UInt8) {i j : ℕ} (b : UInt8) {bytes : Bytes}
    (h : i + bytes.length ≤ j) :
    store (Function.update res j b) i bytes = Function.update (store res i bytes) j b := by
  induction bytes generalizing res i with
  | nil => rfl
  | cons c bytes ih =>
      rw [List.length_cons] at h
      rw [store, store, Function.update_comm (by omega), ih _ (by omega)]

namespace Varint

/-- `min_length`. -/
def minLength : ℕ := 1

/-- The loop of `packed_length`. -/
def packedLengthLoop (res input : ℕ) : ℕ :=
  if input ≠ 0 then packedLengthLoop (res + 1) (input >>> 7) else res
termination_by input
decreasing_by
  rw [Nat.shiftRight_eq_div_pow]
  omega

def packedLength (input : ℕ) : ℕ := packedLengthLoop 0 input

/-- The loop of `pack` to a buffer: the last index and the buffer. -/
def packToLoop (size index : ℕ) (res : ℕ → UInt8) : ℕ × (ℕ → UInt8) :=
  if size > 0x7F then
    packToLoop (size >>> 7) (index + 1)
      (Function.update res index (UInt8.ofNat (size &&& 0x7F) ||| 0x80))
  else (index + 1, Function.update res index (UInt8.ofNat size))
termination_by size
decreasing_by
  rw [Nat.shiftRight_eq_div_pow]
  omega

/-- `pack( size, result )`. -/
def packTo (size : ℕ) (result : ℕ → UInt8) : ℕ × (ℕ → UInt8) := packToLoop size 0 result

/-- Both loops of `pack` go on while the size is above `0x7F`. -/
theorem packToLoop_eq (size index : ℕ) (res : ℕ → UInt8) :
    packToLoop size index res = (index + (pack size).length, store res index (pack size)) := by
  induction size using Nat.strong_induction_on generalizing index res with
  | _ size ih =>
      unfold packToLoop
      split_ifs with h
      · have hshift : size >>> 7 = size / 128 := Nat.shiftRight_eq_div_pow size 7
        rw [hshift, ih (size / 128) (by omega), pack_of_gt h, List.length_cons, store]
        congr 1
        omega
      · rw [pack_of_le (by omega)]
        rfl

/-- The loop of `packed_length` goes on while the size is not zero: that is one round more, unless
it does not start at all. -/
theorem packedLengthLoop_eq (res : ℕ) {input : ℕ} (h : input ≠ 0) :
    packedLengthLoop res input = res + (pack input).length := by
  induction input using Nat.strong_induction_on generalizing res with
  | _ input ih =>
      have hshift : input >>> 7 = input / 128 := Nat.shiftRight_eq_div_pow input 7
      unfold packedLengthLoop
      rw [if_pos h, hshift]
      rcases Nat.lt_or_ge 0x7F input with hgt | hle
      · rw [ih (input / 128) (by omega) (res + 1) (by omega), pack_of_gt hgt, List.length_cons]
        omega
      · rw [pack_of_le hle, Nat.div_eq_of_lt (by omega)]
        unfold packedLengthLoop
        rfl

theorem packedLength_zero : packedLength 0 = 0 := by
  unfold packedLength packedLengthLoop
  rfl

end Varint

namespace Fixint

/-- `packed_length`: the same for every size. -/
def packedLength (w : ℕ) (_ : ℕ) : ℕ := w

/-- The loop of `pack` to a buffer, from the last byte to the first. -/
def packToLoop : ℕ → ℕ → (ℕ → UInt8) → ℕ → UInt8
  | 0, _, res => res
  | cur + 1, size, res =>
      packToLoop cur (size >>> 8) (Function.update res cur (UInt8.ofNat (size &&& 0xFF)))

/-- `pack( size, result )`. -/
def packTo (w size : ℕ) (result : ℕ → UInt8) : ℕ × (ℕ → UInt8) := (w, packToLoop w size result)

theorem packToLoop_eq (cur size : ℕ) (res : ℕ → UInt8) :
    packToLoop cur size res = store res 0 (packLoop cur size []) := by
  induction cur generalizing size res with
  | zero => rfl
  | succ cur ih =>
      have hlen : 0 + (packLoop cur (size >>> 8) []).length = cur := by
        rw [packLoop_length]
        simp
      rw [packToLoop, ih, packLoop, packLoop_eq cur (size >>> 8) [_], store_append, hlen,
        store_update res _ hlen.le]
      rfl

end Fixint

namespace PolicyKind

def minLength (w : ℕ) : PolicyKind → ℕ
  | varint => Varint.minLength
  | fixint => w

def packedLength (w : ℕ) : PolicyKind → ℕ → ℕ
  | varint => Varint.packedLength
  | fixint => Fixint.packedLength w

/-- `pack( size, result )`: the count that is returned, and the buffer. -/
def packTo (w : ℕ) : PolicyKind → ℕ → (ℕ → UInt8) → ℕ × (ℕ → UInt8)
  | varint => Varint.packTo
  | fixint => Fixint.packTo w

theorem packTo_eq (kind : PolicyKind) (w n : ℕ) (result : ℕ → UInt8) :
    kind.packTo w n result =
      (((kind.policy w).pack n).length, store result 0 ((kind.policy w).pack n)) := by
  cases kind with
  | varint =>
      have h := Varint.packToLoop_eq n 0 result
      rwa [Nat.zero_add] at h
  | fixint =>
      have h := Fixint.packToLoop_eq w n result
      refine Prod.ext ?_ h
      exact (Fixint.pack_length w n).symm

/-- `pack( n, result )` writes the bytes of `pack( n )` and nothing else and returns their number,
which is `packed_length( n )` and lies between `min_length` and `max_length`. -/
structure LengthsAgree (w : ℕ) (kind : PolicyKind) (n : ℕ) : Prop where
  written : ∀ result, (List.range (kind.packTo w n result).1).map (kind.packTo w n result).2 =
    (kind.policy w).pack n
  untouched : ∀ result i, (kind.packTo w n result).1 ≤ i → (kind.packTo w n result).2 i = result i
  count : ∀ result, (kind.packTo w n result).1 = ((kind.policy w).pack n).length
  packedLength : kind.packedLength w n = ((kind.policy w).pack n).length
  minLength_le : kind.minLength w ≤ kind.packedLength w n
  le_maxLength : kind.packedLength w n ≤ (kind.policy w).maxLength

/-- What `pack` writes and returns is right for every size; the rest is about `packed_length`. -/
theorem lengthsAgree_of_packedLength (kind : PolicyKind) {w n : ℕ} (hn : n < 2 ^ (8 * w))
    (h : kind.packedLength w n = ((kind.policy w).pack n).length) : kind.LengthsAgree w n where
  written result := by
    rw [packTo_eq, List.range_eq_range']
    exact map_store result 0 _
  untouched result i hi := by
    rw [packTo_eq] at hi ⊢
    exact store_of_ge (by simpa using hi)
  count result := by rw [packTo_eq]
  packedLength := h
  minLength_le := by
    rw [h]
    cases kind with
    | varint => exact (varintPolicy_codes hn).length_pos
    | fixint => exact (Fixint.pack_length w n).ge
  le_maxLength := by
    rw [h]
    cases kind with
    | varint => exact (varintPolicy_codes hn).length_le
    | fixint => exact (Fixint.pack_length w n).le

theorem not_lengthsAgree_zero (w : ℕ) : ¬ varint.LengthsAgree w 0 := by
  intro h
  have hmin : Varint.minLength ≤ Varint.packedLength 0 := h.minLength_le
  rw [Varint.packedLength_zero] at hmin
  exact absurd hmin (by decide)

end PolicyKind

/-- **Three length computations.**  For both policies, every width of the size type and every size
of it: the two overloads of `pack` and `packed_length` agree and stay between `min_length` and
`max_length`, if and only if the policy is `fixint_policy` or the size is not zero. -/
theorem lengths_agree_iff (kind : PolicyKind) {w n : ℕ} (hn : n < 2 ^ (8 * w)) :
    kind.LengthsAgree w n ↔ kind = .fixint ∨ n ≠ 0 := by
  constructor
  · intro h
    cases kind with
    | fixint => exact .inl rfl
    | varint =>
        right
        rintro rfl
        exact PolicyKind.not_lengthsAgree_zero w h
  · intro h
    apply kind.lengthsAgree_of_packedLength hn
    cases kind with
    | fixint => exact (Fixint.pack_length w n).symm
    | varint =>
        have hzero : n ≠ 0 := h.resolve_left (by decide)
        have hloop := Varint.packedLengthLoop_eq 0 hzero
        rwa [Nat.zero_add] at hloop

/-- The largest size of 64 bits. -/
theorem lengths_agree_top : PolicyKind.varint.LengthsAgree 8 (2 ^ 64 - 1) :=
  (lengths_agree_iff .varint (w := 8) (n := 2 ^ 64 - 1) (by decide)).mpr (.inr (by decide))

/-- The header of the size zero has one byte, and `packed_length` is zero. -/
theorem packed_length_misses_zero : ¬ PolicyKind.varint.LengthsAgree 8 0 :=
  PolicyKind.not_lengthsAgree_zero 8

end Vtrc
