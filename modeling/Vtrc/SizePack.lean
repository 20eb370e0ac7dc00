import Mathlib.Data.Nat.Bitwise
import Mathlib.Tactic.Ring
import Mathlib.Tactic.NormNum

/-! # Size policies of the frame header (`sizepack-policy.h`)

The length of a frame is written in front of it by a *size policy*: `fixint_policy` (the
big-endian bytes of the size type) or `varint_policy` (seven bits a byte, least significant
group first, the top bit set on every byte but the last).  Both are templates over the size
type; here the parameter is the number `w` of bytes of that type, so that its values are the
naturals below `2 ^ (8 * w)` and every shift is taken modulo `2 ^ (8 * w)`.

`SizePolicy` collects what the frame parser uses of a policy, `SizePolicy.Lawful P N` what it
needs: on the sizes up to `N` the header is a prefix code that `unpack` inverts.
`varintPolicy_lawful` proves it for the varint policy.

On bytes that nobody has packed the two policies are described by `HeaderSpec`: a header is
recognised by its own bytes, whatever follows, and `unpack` gives the number it denotes
(`PolicyKind.value`) modulo the size type. -/

namespace Vtrc

/-- Bytes as they stand on the wire and in the buffers. -/
abbrev Bytes := List UInt8

/-- What a size policy offers: `pack`, `size_length`, `unpack` and its `max_length`, for a
size type of `bits` bits. -/
structure SizePolicy where
  bits : ℕ
  maxLength : ℕ
  sizeLength : Bytes → ℕ
  unpack : Bytes → ℕ
  pack : ℕ → Bytes

/-- On the sizes up to `N`, the header is a prefix code of at most `maxLength` bytes that
`unpack` inverts, and no header length overflows the size type. -/
structure SizePolicy.Lawful (P : SizePolicy) (N : ℕ) : Prop where
  pack_ne_nil : ∀ n, n ≤ N → P.pack n ≠ []
  pack_length_le : ∀ n, n ≤ N → (P.pack n).length ≤ P.maxLength
  sizeLength_pack : ∀ n s, n ≤ N → P.sizeLength (P.pack n ++ s) = (P.pack n).length
  unpack_pack : ∀ n s, n ≤ N → P.unpack (P.pack n ++ s) = n
  sizeLength_prefix : ∀ n p s, n ≤ N → P.pack n = p ++ s → s ≠ [] → P.sizeLength p = 0
  add_lt : N + P.maxLength < 2 ^ P.bits

/-! ### The varint policy -/

namespace Varint

/-- `max_length`: `(sizeof(SizeType) << 3) / 7 + 1`. -/
def maxLength (w : ℕ) : ℕ := (w * 8) / 7 + 1

/-- The loop of `size_length`: the number of bytes read and the last of them.  It goes on
while the last byte read (initially `0x80`) has its top bit set. -/
def sizeLengthLoop (length : ℕ) (last : UInt8) : Bytes → ℕ × UInt8
  | [] => (length, last)
  | b :: rest =>
      if last &&& 0x80 ≠ 0 then sizeLengthLoop (length + 1) b rest else (length, last)

/-- `size_length`: the length of the header, `0` when it is not complete. -/
def sizeLength (data : Bytes) : ℕ :=
  let r := sizeLengthLoop 0 0x80 data
  if r.2 &&& 0x80 ≠ 0 then 0 else r.1

/-- The loop of `unpack`; the shifted group is cut to the size type of `w` bytes. -/
def unpackLoop (w : ℕ) (res shift : ℕ) (last : UInt8) : Bytes → ℕ
  | [] => res
  | b :: rest =>
      if last &&& 0x80 ≠ 0 then
        unpackLoop w (res ||| (((b &&& 0x7F).toNat <<< shift) % 2 ^ (8 * w))) (shift + 7) b rest
      else res

def unpack (w : ℕ) (data : Bytes) : ℕ := unpackLoop w 0 0 0x80 data

/-- `pack`: groups of seven bits while the size is above `0x7F`, then the rest of it. -/
def pack (size : ℕ) : Bytes :=
  if size > 0x7F then
    (UInt8.ofNat (size &&& 0x7F) ||| 0x80) :: pack (size >>> 7)
  else [UInt8.ofNat size]
termination_by size
decreasing_by
  rw [Nat.shiftRight_eq_div_pow]
  omega

/-! #### Single bytes -/

theorem forall_byte {p : UInt8 → Prop} (h : ∀ i : Fin 256, p (UInt8.ofNat i)) (b : UInt8) : p b := by
  have := h ⟨b.toNat, b.toNat_lt⟩
  rwa [UInt8.ofNat_toNat] at this

theorem top_or : ∀ b : UInt8, (b ||| 0x80) &&& 0x80 ≠ 0 :=
  forall_byte (by decide +kernel)

theorem low_or : ∀ b : UInt8, b.toNat < 128 → ((b ||| 0x80) &&& 0x7F).toNat = b.toNat :=
  forall_byte (by decide +kernel)

theorem top_of_lt : ∀ b : UInt8, b.toNat < 128 → b &&& 0x80 = 0 :=
  forall_byte (by decide +kernel)

theorem low_of_lt : ∀ b : UInt8, b.toNat < 128 → (b &&& 0x7F).toNat = b.toNat :=
  forall_byte (by decide +kernel)

theorem toNat_low (size : ℕ) : (UInt8.ofNat (size &&& 0x7F)).toNat = size % 128 := by
  have h : size &&& 0x7F = size % 128 := Nat.and_two_pow_sub_one_eq_mod size 7
  rw [h, UInt8.toNat_ofNat']
  omega

theorem pack_of_le {size : ℕ} (h : size ≤ 0x7F) : pack size = [UInt8.ofNat size] := by
  rw [pack, if_neg (by omega)]

theorem pack_of_gt {size : ℕ} (h : 0x7F < size) :
    pack size = (UInt8.ofNat (size &&& 0x7F) ||| 0x80) :: pack (size / 128) := by
  rw [pack, if_pos h, Nat.shiftRight_eq_div_pow]

theorem pack_ne_nil (size : ℕ) : pack size ≠ [] := by
  rcases Nat.lt_or_ge 0x7F size with h | h
  · rw [pack_of_gt h]
    exact List.cons_ne_nil _ _
  · rw [pack_of_le h]
    exact List.cons_ne_nil _ _

/-! #### The length of a header -/

/-- The scan of a packed size stops at its last byte, whatever follows. -/
theorem sizeLengthLoop_pack (size : ℕ) (s : Bytes) (l : ℕ) (last : UInt8)
    (hl : last &&& 0x80 ≠ 0) : ∃ b : UInt8, b &&& 0x80 = 0 ∧
      sizeLengthLoop l last (pack size ++ s) = (l + (pack size).length, b) := by
  induction size using Nat.strong_induction_on generalizing l last with
  | _ size ih =>
      rcases Nat.lt_or_ge 0x7F size with h | h
      · obtain ⟨b, hb, he⟩ := ih (size / 128) (by omega) (l + 1)
          (UInt8.ofNat (size &&& 0x7F) ||| 0x80) (top_or _)
        refine ⟨b, hb, ?_⟩
        rw [pack_of_gt h, List.cons_append, sizeLengthLoop, if_pos hl, he, List.length_cons]
        congr 1
        omega
      · have hlt : (UInt8.ofNat size).toNat < 128 := by
          rw [UInt8.toNat_ofNat']
          omega
        have ht := top_of_lt _ hlt
        refine ⟨UInt8.ofNat size, ht, ?_⟩
        rw [pack_of_le h, List.cons_append, List.nil_append, sizeLengthLoop, if_pos hl]
        cases s with
        | nil => rfl
        | cons c s => rw [sizeLengthLoop, if_neg (by simp [ht])]; rfl

theorem sizeLength_pack (size : ℕ) (s : Bytes) :
    sizeLength (pack size ++ s) = (pack size).length := by
  obtain ⟨b, hb, he⟩ := sizeLengthLoop_pack size s 0 0x80 (by decide)
  simp only [sizeLength, he, hb]
  simp

/-- The scan of a proper prefix of a packed size ends on a byte with its top bit set. -/
theorem sizeLengthLoop_prefix (size : ℕ) (p s : Bytes) (hp : pack size = p ++ s) (hs : s ≠ [])
    (l : ℕ) (last : UInt8) (hl : last &&& 0x80 ≠ 0) :
    (sizeLengthLoop l last p).2 &&& 0x80 ≠ 0 := by
  induction size using Nat.strong_induction_on generalizing l last p with
  | _ size ih =>
      cases p with
      | nil => simpa [sizeLengthLoop] using hl
      | cons b p =>
          rcases Nat.lt_or_ge 0x7F size with h | h
          · rw [pack_of_gt h, List.cons_append] at hp
            obtain ⟨hb, hp'⟩ := List.cons.inj hp
            subst hb
            rw [sizeLengthLoop, if_pos hl]
            exact ih (size / 128) (by omega) p hp' (l + 1) _ (top_or _)
          · rw [pack_of_le h, List.cons_append] at hp
            obtain ⟨_, hp⟩ := List.cons.inj hp
            exact absurd (List.append_eq_nil_iff.mp hp.symm).2 hs

theorem sizeLength_prefix (size : ℕ) (p s : Bytes) (hp : pack size = p ++ s) (hs : s ≠ []) :
    sizeLength p = 0 := by
  have h := sizeLengthLoop_prefix size p s hp hs 0 0x80 (by decide)
  simp only [sizeLength]
  rw [if_pos h]

/-- A size below `128 ^ k` takes at most `k` bytes (and at least one). -/
theorem pack_length_le (k size : ℕ) (h : size < 128 ^ (k + 1)) : (pack size).length ≤ k + 1 := by
  induction k generalizing size with
  | zero =>
      rw [pack_of_le (by omega)]
      simp
  | succ k ih =>
      rcases Nat.lt_or_ge 0x7F size with hs | hs
      · rw [pack_of_gt hs, List.length_cons]
        have hpow : 128 ^ (k + 1 + 1) = 128 ^ (k + 1) * 128 := pow_succ _ _
        have := ih (size / 128) (by rw [Nat.div_lt_iff_lt_mul (by decide)]; omega)
        omega
      · rw [pack_of_le hs]
        simp

/-! #### Reading the size back -/

theorem or_shiftLeft {a shift : ℕ} (b : ℕ) (h : a < 2 ^ shift) :
    a ||| (b <<< shift) = a + b * 2 ^ shift := by
  have := Nat.two_pow_add_eq_or_of_lt h b
  rw [Nat.shiftLeft_eq, Nat.or_comm, Nat.mul_comm b, ← this]
  omega

theorem unpackLoop_stop {w res shift : ℕ} {last : UInt8} (h : last &&& 0x80 = 0) (s : Bytes) :
    unpackLoop w res shift last s = res := by
  cases s with
  | nil => rfl
  | cons b s => rw [unpackLoop, if_neg (by simp [h])]

/-- Invariant of `unpack`: the groups read so far are below `2 ^ shift`, and the rest of the
packed size is added above them. -/
theorem unpackLoop_pack (w size : ℕ) (s : Bytes) (res shift : ℕ) (last : UInt8)
    (hl : last &&& 0x80 ≠ 0) (hres : res < 2 ^ shift) (hw : size * 2 ^ shift < 2 ^ (8 * w)) :
    unpackLoop w res shift last (pack size ++ s) = res + size * 2 ^ shift := by
  induction size using Nat.strong_induction_on generalizing res shift last with
  | _ size ih =>
      have hpow : 2 ^ (shift + 7) = 2 ^ shift * 128 := by rw [pow_add]; norm_num
      have hgroup : ∀ g, g ≤ size → (g <<< shift) % 2 ^ (8 * w) = g <<< shift := by
        intro g hg
        apply Nat.mod_eq_of_lt
        rw [Nat.shiftLeft_eq]
        exact lt_of_le_of_lt (Nat.mul_le_mul_right _ hg) hw
      rcases Nat.lt_or_ge 0x7F size with h | h
      · have hlow : ((UInt8.ofNat (size &&& 0x7F) ||| 0x80) &&& 0x7F).toNat = size % 128 := by
          rw [low_or _ (by rw [toNat_low]; omega), toNat_low]
        have hdecomp : size = size / 128 * 128 + size % 128 := by omega
        have hmul : size * 2 ^ shift = size / 128 * 2 ^ (shift + 7) + size % 128 * 2 ^ shift := by
          rw [hpow]
          conv_lhs => rw [hdecomp]
          ring
        have hstep : res + size % 128 * 2 ^ shift < 2 ^ (shift + 7) := by
          have : size % 128 * 2 ^ shift ≤ 127 * 2 ^ shift := Nat.mul_le_mul_right _ (by omega)
          omega
        rw [pack_of_gt h, List.cons_append, unpackLoop, if_pos hl, hlow,
          hgroup _ (Nat.mod_le _ _), or_shiftLeft _ hres,
          ih (size / 128) (by omega) _ _ _ (top_or _) hstep (by omega), hmul]
        omega
      · have hnat : (UInt8.ofNat size).toNat = size := by
          rw [UInt8.toNat_ofNat']
          omega
        rw [pack_of_le h, List.cons_append, List.nil_append, unpackLoop, if_pos hl,
          low_of_lt _ (by omega), hnat, hgroup _ le_rfl, or_shiftLeft _ hres,
          unpackLoop_stop (top_of_lt _ (by omega))]

theorem unpack_pack (w size : ℕ) (s : Bytes) (h : size < 2 ^ (8 * w)) :
    unpack w (pack size ++ s) = size := by
  rw [unpack, unpackLoop_pack w size s 0 0 0x80 (by decide) (by norm_num) (by simpa using h)]
  simp

end Varint

/-- `varint_policy` for a size type of `w` bytes. -/
def varintPolicy (w : ℕ) : SizePolicy where
  bits := 8 * w
  maxLength := Varint.maxLength w
  sizeLength := Varint.sizeLength
  unpack := Varint.unpack w
  pack := Varint.pack

theorem varint_pack_length (w size : ℕ) (h : size < 2 ^ (8 * w)) :
    (Varint.pack size).length ≤ Varint.maxLength w := by
  apply Varint.pack_length_le
  refine lt_of_lt_of_le h ?_
  rw [show (128 : ℕ) = 2 ^ 7 by norm_num, ← pow_mul]
  exact Nat.pow_le_pow_right (by norm_num) (by omega)

theorem varintPolicy_lawful (w N : ℕ) (hN : N + Varint.maxLength w < 2 ^ (8 * w)) :
    (varintPolicy w).Lawful N where
  pack_ne_nil n _ := Varint.pack_ne_nil n
  pack_length_le n hn := varint_pack_length w n (by omega)
  sizeLength_pack n s _ := Varint.sizeLength_pack n s
  unpack_pack n s hn := Varint.unpack_pack w n s (by omega)
  sizeLength_prefix n p s _ := Varint.sizeLength_prefix n p s
  add_lt := hN

/-! ### The fixint policy -/

namespace Fixint

/-- `size_length`: all bytes of the size type, or `0`. -/
def sizeLength (w : ℕ) (data : Bytes) : ℕ := if data.length < w then 0 else w

/-- The loop of `unpack`, with `cur` bytes still to be read. -/
def unpackLoop (w : ℕ) : ℕ → ℕ → Bytes → ℕ
  | 0, res, _ => res
  | _ + 1, res, [] => res
  | cur + 1, res, b :: rest =>
      unpackLoop w cur (res ||| ((b.toNat <<< (cur * 8)) % 2 ^ (8 * w))) rest

def unpack (w : ℕ) (data : Bytes) : ℕ := unpackLoop w w 0 data

/-- The loop of `pack`, from the last byte to the first. -/
def packLoop : ℕ → ℕ → Bytes → Bytes
  | 0, _, res => res
  | cur + 1, size, res => packLoop cur (size >>> 8) (UInt8.ofNat (size &&& 0xFF) :: res)

def pack (w size : ℕ) : Bytes := packLoop w size []

/-- The number denoted by big-endian bytes. -/
def value (header : Bytes) : ℕ := header.foldl (fun n b => n * 256 + b.toNat) 0

theorem foldl_value (n : ℕ) (header : Bytes) :
    header.foldl (fun n b => n * 256 + b.toNat) n = n * 256 ^ header.length + value header := by
  induction header generalizing n with
  | nil => simp [value]
  | cons b header ih =>
      have hvalue : value (b :: header) = b.toNat * 256 ^ header.length + value header := by
        rw [value, List.foldl_cons, ih]
        simp
      rw [List.foldl_cons, ih, hvalue, List.length_cons, pow_succ]
      ring

theorem value_cons (b : UInt8) (header : Bytes) :
    value (b :: header) = b.toNat * 256 ^ header.length + value header := by
  rw [value, List.foldl_cons, foldl_value]
  ring

theorem value_lt (header : Bytes) : value header < 256 ^ header.length := by
  induction header with
  | nil => simp [value]
  | cons b header ih =>
      rw [value_cons, List.length_cons, pow_succ]
      have hb : b.toNat * 256 ^ header.length ≤ 255 * 256 ^ header.length :=
        Nat.mul_le_mul_right _ (by have := b.toNat_lt; omega)
      omega

/-- Invariant of `unpack`: the bytes read so far stand above those still to be read. -/
theorem unpackLoop_eq (w cur n : ℕ) (header s : Bytes) (hlen : header.length = cur)
    (hcur : (n + 1) * 256 ^ cur ≤ 2 ^ (8 * w)) :
    unpackLoop w cur (n * 256 ^ cur) (header ++ s) = n * 256 ^ cur + value header := by
  induction cur generalizing n header with
  | zero =>
      obtain rfl := List.length_eq_zero_iff.mp hlen
      simp [unpackLoop, value]
  | succ cur ih =>
      cases header with
      | nil => simp at hlen
      | cons b header =>
          have hpow : 256 ^ (cur + 1) = 256 ^ cur * 256 := pow_succ _ _
          have hbits : (256 : ℕ) ^ cur = 2 ^ (cur * 8) := by
            rw [show (256 : ℕ) = 2 ^ 8 by norm_num, ← pow_mul, Nat.mul_comm]
          have hb := b.toNat_lt
          rw [List.length_cons, Nat.add_right_cancel_iff] at hlen
          have hnext : (n * 256 + b.toNat + 1) * 256 ^ cur ≤ 2 ^ (8 * w) := by
            have h₁ : (n * 256 + b.toNat + 1) * 256 ^ cur ≤ ((n + 1) * 256) * 256 ^ cur :=
              Nat.mul_le_mul_right _ (by omega)
            have h₂ : ((n + 1) * 256) * 256 ^ cur = (n + 1) * 256 ^ (cur + 1) := by
              rw [hpow]
              ring
            omega
          have hmod : (b.toNat <<< (cur * 8)) % 2 ^ (8 * w) = b.toNat <<< (cur * 8) := by
            apply Nat.mod_eq_of_lt
            rw [Nat.shiftLeft_eq, ← hbits]
            have h₁ : (b.toNat + 1) * 256 ^ cur ≤ (n * 256 + b.toNat + 1) * 256 ^ cur :=
              Nat.mul_le_mul_right _ (by omega)
            have h₂ : b.toNat * 256 ^ cur < (b.toNat + 1) * 256 ^ cur := by
              have : 0 < 256 ^ cur := by positivity
              rw [Nat.add_mul]
              omega
            omega
          have hor : n * 256 ^ (cur + 1) ||| b.toNat <<< (cur * 8) =
              (n * 256 + b.toNat) * 256 ^ cur := by
            -- the byte lies below the bytes read before, so the bits do not meet
            have hlt : b.toNat < 2 ^ 8 := hb
            have := Nat.two_pow_add_eq_or_of_lt hlt n
            have hshift : n * 256 ^ (cur + 1) = (2 ^ 8 * n) <<< (cur * 8) := by
              rw [Nat.shiftLeft_eq, ← hbits, hpow]
              ring
            rw [hshift, ← Nat.shiftLeft_or_distrib, ← this, Nat.shiftLeft_eq, ← hbits]
            ring
          rw [List.cons_append, unpackLoop, hmod, hor, ih _ header hlen hnext, value_cons, hlen,
            hpow]
          ring

theorem unpack_eq (w : ℕ) (header s : Bytes) (h : header.length = w) :
    unpack w (header ++ s) = value header := by
  have hpow : (256 : ℕ) ^ w = 2 ^ (8 * w) := by
    rw [show (256 : ℕ) = 2 ^ 8 by norm_num, ← pow_mul]
  have := unpackLoop_eq w w 0 header s h (by rw [hpow]; omega)
  rw [unpack]
  simpa using this

end Fixint

/-- `fixint_policy` for a size type of `w` bytes. -/
def fixintPolicy (w : ℕ) : SizePolicy where
  bits := 8 * w
  maxLength := w
  sizeLength := Fixint.sizeLength w
  unpack := Fixint.unpack w
  pack := Fixint.pack w

/-! ### Headers that nobody has packed -/

namespace Varint

/-- The number denoted by groups of seven bits, the least significant one first. -/
def value : Bytes → ℕ
  | [] => 0
  | b :: rest => (b &&& 0x7F).toNat + 128 * value rest

/-- Either every byte has its top bit set, or the bytes start with a complete header. -/
theorem split_header (data : Bytes) : (∀ x ∈ data, x &&& 0x80 ≠ 0) ∨
    ∃ p b s, data = p ++ b :: s ∧ (∀ x ∈ p, x &&& 0x80 ≠ 0) ∧ b &&& 0x80 = 0 := by
  induction data with
  | nil => exact .inl (by simp)
  | cons c data ih =>
      by_cases hc : c &&& 0x80 = 0
      · exact .inr ⟨[], c, data, rfl, by simp, hc⟩
      · rcases ih with hall | ⟨p, b, s, rfl, hp, hb⟩
        · exact .inl (List.forall_mem_cons.mpr ⟨hc, hall⟩)
        · exact .inr ⟨c :: p, b, s, rfl, List.forall_mem_cons.mpr ⟨hc, hp⟩, hb⟩

theorem sizeLengthLoop_header {p : Bytes} {b : UInt8} (s : Bytes) (hp : ∀ x ∈ p, x &&& 0x80 ≠ 0)
    (hb : b &&& 0x80 = 0) (l : ℕ) (last : UInt8) (hl : last &&& 0x80 ≠ 0) :
    sizeLengthLoop l last (p ++ b :: s) = (l + (p.length + 1), b) := by
  induction p generalizing l last with
  | nil =>
      rw [List.nil_append, sizeLengthLoop, if_pos hl]
      cases s with
      | nil => rfl
      | cons c s =>
          rw [sizeLengthLoop, if_neg (by simp [hb])]
          rfl
  | cons c p ih =>
      obtain ⟨hc, hp⟩ := List.forall_mem_cons.mp hp
      rw [List.cons_append, sizeLengthLoop, if_pos hl, ih hp (l + 1) c hc, List.length_cons]
      congr 1
      omega

theorem sizeLength_header {p : Bytes} {b : UInt8} (s : Bytes) (hp : ∀ x ∈ p, x &&& 0x80 ≠ 0)
    (hb : b &&& 0x80 = 0) : sizeLength (p ++ b :: s) = p.length + 1 := by
  simp [sizeLength, sizeLengthLoop_header s hp hb 0 0x80 (by decide), hb]

theorem sizeLengthLoop_open (data : Bytes) (h : ∀ x ∈ data, x &&& 0x80 ≠ 0) (l : ℕ) (last : UInt8)
    (hl : last &&& 0x80 ≠ 0) : (sizeLengthLoop l last data).2 &&& 0x80 ≠ 0 := by
  induction data generalizing l last with
  | nil => exact hl
  | cons c data ih =>
      obtain ⟨hc, h⟩ := List.forall_mem_cons.mp h
      rw [sizeLengthLoop, if_pos hl]
      exact ih h (l + 1) c hc

theorem sizeLength_open {data : Bytes} (h : ∀ x ∈ data, x &&& 0x80 ≠ 0) : sizeLength data = 0 := by
  rw [sizeLength, if_pos (sizeLengthLoop_open data h 0 0x80 (by decide))]

theorem low_lt (b : UInt8) : (b &&& 0x7F).toNat < 128 :=
  forall_byte (p := fun b => (b &&& 0x7F).toNat < 128) (by decide +kernel) b

/-- Invariant of `unpack` on any header: the number read so far is below `2 ^ shift`, and
everything is cut to the size type. -/
theorem unpackLoop_header (w : ℕ) {p : Bytes} {b : UInt8} (s : Bytes)
    (hp : ∀ x ∈ p, x &&& 0x80 ≠ 0) (hb : b &&& 0x80 = 0) (n shift : ℕ) (last : UInt8)
    (hl : last &&& 0x80 ≠ 0) (hn : n < 2 ^ shift) :
    unpackLoop w (n % 2 ^ (8 * w)) shift last (p ++ b :: s) =
      (n + value (p ++ [b]) * 2 ^ shift) % 2 ^ (8 * w) := by
  have hgroup : ∀ c : UInt8, n % 2 ^ (8 * w) ||| ((c &&& 0x7F).toNat <<< shift) % 2 ^ (8 * w) =
      (n + (c &&& 0x7F).toNat * 2 ^ shift) % 2 ^ (8 * w) := by
    intro c
    rw [← Nat.or_mod_two_pow, or_shiftLeft _ hn]
  induction p generalizing n shift last with
  | nil =>
      rw [List.nil_append, unpackLoop, if_pos hl, hgroup, unpackLoop_stop hb]
      simp [value]
  | cons c p ih =>
      obtain ⟨hc, hp⟩ := List.forall_mem_cons.mp hp
      have hpow : 2 ^ (shift + 7) = 2 ^ shift * 128 := by
        rw [pow_add]
        norm_num
      have hlow : (c &&& 0x7F).toNat * 2 ^ shift ≤ 127 * 2 ^ shift :=
        Nat.mul_le_mul_right _ (by have := low_lt c; omega)
      have hnext : n + (c &&& 0x7F).toNat * 2 ^ shift < 2 ^ (shift + 7) := by omega
      rw [List.cons_append, unpackLoop, if_pos hl, hgroup,
        ih hp _ (shift + 7) c hc hnext (fun c => by rw [← Nat.or_mod_two_pow, or_shiftLeft _ hnext]),
        List.cons_append, value, hpow]
      congr 1
      ring

theorem unpack_header (w : ℕ) {p : Bytes} {b : UInt8} (s : Bytes)
    (hp : ∀ x ∈ p, x &&& 0x80 ≠ 0) (hb : b &&& 0x80 = 0) :
    unpack w (p ++ b :: s) = value (p ++ [b]) % 2 ^ (8 * w) := by
  have := unpackLoop_header w s hp hb 0 0 0x80 (by decide) (by norm_num)
  rw [unpack]
  simpa using this

end Varint

/-- The two policies of the library. -/
inductive PolicyKind where
  | varint
  | fixint
deriving DecidableEq, Repr

namespace PolicyKind

/-- The policy for a size type of `w` bytes. -/
def policy (w : ℕ) : PolicyKind → SizePolicy
  | varint => varintPolicy w
  | fixint => fixintPolicy w

/-- The number that the bytes of a header denote, without any bound. -/
def value : PolicyKind → Bytes → ℕ
  | varint => Varint.value
  | fixint => Fixint.value

end PolicyKind

/-- What the parser can rely on whatever the bytes are: a complete header lies in the data, is
recognised by its own bytes, and `unpack` is the number it denotes modulo the size type. -/
structure SizePolicy.HeaderSpec (P : SizePolicy) (value : Bytes → ℕ) : Prop where
  sizeLength_le : ∀ data, P.sizeLength data ≤ data.length
  sizeLength_append : ∀ data more, 0 < P.sizeLength data →
    P.sizeLength (data ++ more) = P.sizeLength data
  sizeLength_take : ∀ data, 0 < P.sizeLength data →
    P.sizeLength (data.take (P.sizeLength data)) = P.sizeLength data
  unpack_eq : ∀ data, 0 < P.sizeLength data →
    P.unpack data = value (data.take (P.sizeLength data)) % 2 ^ P.bits

theorem varintPolicy_headerSpec (w : ℕ) : (varintPolicy w).HeaderSpec Varint.value := by
  refine ⟨?_, ?_, ?_, ?_⟩
  · intro data
    rcases Varint.split_header data with hopen | ⟨p, b, s, rfl, hp, hb⟩
    · simp [varintPolicy, Varint.sizeLength_open hopen]
    · simp [varintPolicy, Varint.sizeLength_header s hp hb]
  · intro data more hpos
    rcases Varint.split_header data with hopen | ⟨p, b, s, rfl, hp, hb⟩
    · simp [varintPolicy, Varint.sizeLength_open hopen] at hpos
    · simp only [varintPolicy, List.append_assoc, List.cons_append]
      rw [Varint.sizeLength_header _ hp hb, Varint.sizeLength_header _ hp hb]
  · intro data hpos
    rcases Varint.split_header data with hopen | ⟨p, b, s, rfl, hp, hb⟩
    · simp [varintPolicy, Varint.sizeLength_open hopen] at hpos
    · simp only [varintPolicy]
      rw [Varint.sizeLength_header s hp hb, show p ++ b :: s = (p ++ [b]) ++ s by simp,
        List.take_left' (by simp), Varint.sizeLength_header [] hp hb]
  · intro data hpos
    rcases Varint.split_header data with hopen | ⟨p, b, s, rfl, hp, hb⟩
    · simp [varintPolicy, Varint.sizeLength_open hopen] at hpos
    · simp only [varintPolicy]
      rw [Varint.sizeLength_header s hp hb, Varint.unpack_header w s hp hb,
        show p ++ b :: s = (p ++ [b]) ++ s by simp, List.take_left' (by simp)]

theorem fixintPolicy_headerSpec (w : ℕ) : (fixintPolicy w).HeaderSpec Fixint.value := by
  refine ⟨?_, ?_, ?_, ?_⟩
  · intro data
    simp only [fixintPolicy, Fixint.sizeLength]
    split_ifs <;> omega
  · intro data more hpos
    simp only [fixintPolicy, Fixint.sizeLength, List.length_append] at hpos ⊢
    split_ifs at hpos with h
    · omega
    · rw [if_neg (by omega), if_neg h]
  · intro data hpos
    simp only [fixintPolicy, Fixint.sizeLength, List.length_take] at hpos ⊢
    split_ifs at hpos with h
    · omega
    · rw [if_neg h, if_neg (by omega)]
  · intro data hpos
    simp only [fixintPolicy, Fixint.sizeLength] at hpos ⊢
    split_ifs at hpos with h
    · omega
    · have hlen : (data.take w).length = w := by
        rw [List.length_take]
        omega
      have hlt : Fixint.value (data.take w) < 2 ^ (8 * w) := by
        have := Fixint.value_lt (data.take w)
        rwa [hlen, show (256 : ℕ) = 2 ^ 8 by norm_num, ← pow_mul] at this
      have := Fixint.unpack_eq w (data.take w) (data.drop w) hlen
      rw [List.take_append_drop] at this
      rw [if_neg h, this, Nat.mod_eq_of_lt hlt]

theorem PolicyKind.headerSpec (kind : PolicyKind) (w : ℕ) :
    (kind.policy w).HeaderSpec kind.value := by
  cases kind with
  | varint => exact varintPolicy_headerSpec w
  | fixint => exact fixintPolicy_headerSpec w

end Vtrc
