import Vtrc.Sha2.Standard
import Mathlib.Tactic.IntervalCases

/-! # The library computes SHA-2

`Implements V S` says that a variant has the tables and rotations of a standard and a lawful
counter.  From it, in the order of the source: `transform_spec` (the transform in place is the
compression function), `update_spec` (a context that `Holds` the state and the leftover of a
message is fed the next piece) and `last_spec` (every branch of the padding is the padding of
the standard).  `digest_spec` puts them together.

`REVERSE32`, `REVERSE64`, the counter of two words and the constants are checked below against
what they stand for: the reversal of bytes, a counter of 128 bits, the roots of the primes. -/

namespace Vtrc.Sha2

open Words BlockHash

/-! ### Byte order -/

theorem byte_eq {w : ℕ} {x y : BitVec w} {i k : ℕ}
    (h : ∀ j < 8, x.getLsbD (8 * i + j) = y.getLsbD (8 * k + j)) :
    x.toNat / 256 ^ i % 256 = y.toNat / 256 ^ k % 256 := by
  have hx (z : BitVec w) (m : ℕ) : z.toNat / 256 ^ m % 256 = (z.extractLsb' (8 * m) 8).toNat := by
    rw [BitVec.extractLsb'_toNat, Nat.shiftRight_eq_div_pow, pow_mul]
    rfl
  rw [hx, hx]
  congr 1
  apply BitVec.eq_of_getLsbD_eq
  intro j hj
  simp only [BitVec.getLsbD_extractLsb', hj, decide_true, Bool.true_and, h j hj]

theorem REVERSE32_eq (x : BitVec 32) : REVERSE32 x = Words.reverse 4 x := by
  refine eq_reverse (n := 4) (f := REVERSE32) (fun x i hi => byte_eq fun j hj => ?_) x
  interval_cases i <;> interval_cases j <;> simp [REVERSE32]

theorem REVERSE64_eq (x : BitVec 64) : REVERSE64 x = Words.reverse 8 x := by
  refine eq_reverse (n := 8) (f := REVERSE64) (fun x i hi => byte_eq fun j hj => ?_) x
  interval_cases i <;> interval_cases j <;> simp [REVERSE64]

section ByteOrder

variable {n : ℕ} {f : Word n → Word n} (hf : ∀ x, f x = Words.reverse n x) (host : ByteOrder)

include hf

/-- What the host reads and turns round is the word in the order of the standard. -/
theorem onLittle_read {bs : Bytes} (h : bs.length = n) :
    onLittle host f (host.read n bs) = ByteOrder.big.read n bs := by
  cases host with
  | little => rw [onLittle, hf, reverse_read n bs h]
  | big => rfl

theorem write_onLittle (x : Word n) : host.write n (onLittle host f x) = ByteOrder.big.write n x := by
  cases host with
  | little => rw [onLittle, hf, write_reverse]
  | big => rfl

end ByteOrder

/-! ### The counters -/

/-- A counter of `64 * words` bits. -/
structure Counter.Lawful (C : Counter) where
  value : C.Count → ℕ
  value_zero : value C.zero = 0
  value_add : ∀ c n, value (C.add c n) = (value c + n.toNat) % 2 ^ (64 * C.words)
  low_toNat : ∀ c, (C.low c).toNat = value c % 2 ^ 64
  stored : ∀ c, (C.stored c).flatMap (ByteOrder.big.write 8) =
    (leBytes (8 * C.words) (value c)).reverse

def bitcount64_lawful : bitcount64.Lawful where
  value c := BitVec.toNat (w := 64) c
  value_zero := rfl
  value_add c n := BitVec.toNat_add (w := 64) c n
  low_toNat c := (Nat.mod_eq_of_lt (BitVec.isLt (w := 64) c)).symm
  stored c := by
    change ByteOrder.big.write 8 c ++ [] = (leBytes 8 (BitVec.toNat (w := 64) c)).reverse
    rw [List.append_nil]
    rfl

/-- The two words of a counter as one number. -/
def value128 (c : BitVec 64 × BitVec 64) : ℕ := c.1.toNat + 2 ^ 64 * c.2.toNat

theorem value128_ADDINC128 (c : BitVec 64 × BitVec 64) (n : BitVec 64) :
    value128 (ADDINC128 c n) = (value128 c + n.toNat) % 2 ^ 128 := by
  have h1 := c.1.isLt
  have h2 := c.2.isLt
  have hn := n.isLt
  have hsum : (c.1 + n).toNat = (c.1.toNat + n.toNat) % 2 ^ 64 := BitVec.toNat_add _ _
  have hcarry : (c.2 + 1).toNat = (c.2.toNat + 1) % 2 ^ 64 := by
    rw [BitVec.toNat_add]
    rfl
  unfold ADDINC128 value128
  simp only [BitVec.lt_def]
  split <;> simp only [] at * <;> omega

def bitcount128_lawful : bitcount128.Lawful where
  value := value128
  value_zero := rfl
  value_add := value128_ADDINC128
  low_toNat c := by
    have h1 := c.1.isLt
    change c.1.toNat = (c.1.toNat + 2 ^ 64 * c.2.toNat) % 2 ^ 64
    omega
  stored c := by
    have h1 := c.1.isLt
    have hvalue : value128 c = c.1.toNat + 2 ^ 64 * c.2.toNat := rfl
    have hlow : leBytes 8 (value128 c) = leBytes 8 c.1.toNat := by
      rw [← leBytes_mod 8 (value128 c)]
      congr 1
      omega
    have hhigh : value128 c / 256 ^ 8 = c.2.toNat := by omega
    change ByteOrder.big.write 8 c.2 ++ (ByteOrder.big.write 8 c.1 ++ []) =
      (leBytes (8 + 8) (value128 c)).reverse
    rw [leBytes_add, hlow, hhigh, List.reverse_append, List.append_nil]
    rfl

/-! ### Variants of a standard -/

/-- A variant that has the functions, tables and sizes of a standard. -/
structure Implements (V : Variant) (S : Standard V.size) where
  reverse : ∀ x, V.reverse x = Words.reverse V.size x
  Sigma0 : ∀ x, V.Sigma0 x = Standard.rotations S.Sigma0 x
  Sigma1 : ∀ x, V.Sigma1 x = Standard.rotations S.Sigma1 x
  sigma0 : ∀ x, V.sigma0 x = Standard.rotationsShift S.sigma0 x
  sigma1 : ∀ x, V.sigma1 x = Standard.rotationsShift S.sigma1 x
  rounds : V.rounds = S.rounds
  rounds_le : 16 ≤ S.rounds
  K : ∀ j < S.rounds, V.K.getD j 0 = rootBits V.size 3 j
  initial : V.initial = S.initial
  digestWords : V.digestWords = S.digestWords
  counter : V.counter.Lawful
  words_pos : 0 < V.counter.words
  words_eq : 8 * V.counter.words = 2 * V.size
  dvd_pow : V.blockLength ∣ 2 ^ 60
  short_le_cleared : V.shortBlockLength ≤ V.cleared

theorem foldl_range'_of_step {σ : Type*} (f : σ → ℕ → σ) (P : ℕ → σ → Prop) {a : ℕ} (n : ℕ)
    {s : σ} (hs : P a s) (hstep : ∀ j s, a ≤ j → j < a + n → P j s → P (j + 1) (f s j)) :
    P (a + n) ((List.range' a n).foldl f s) := by
  induction n with
  | zero => exact hs
  | succ n ih =>
      rw [List.range'_1_concat, List.foldl_append]
      exact hstep _ _ (Nat.le_add_right a n) (Nat.lt_succ_self _)
        (ih (fun j s ha hj => hstep j s ha (Nat.lt_succ_of_lt hj)))

/-! ### The buffer -/

namespace Buffer

variable {V : Variant} (host : ByteOrder) (W : Buffer V)

@[simp] theorem get_set (i j : Fin 16) (x : Word V.size) :
    (W.set host j x).get host i = if i = j then x else W.get host i := by
  simp only [get, set, wordAt_setWord host x (W.slot_le j), Fin.val_inj]

theorem copy_bytes {pos : ℕ} (data : Bytes) (h : pos + data.length ≤ V.blockLength) :
    (W.copy pos data h).bytes =
      W.bytes.take pos ++ data ++ W.bytes.drop (pos + data.length) := rfl

theorem zero_bytes {pos len : ℕ} (h : pos + len ≤ V.blockLength) :
    (W.zero pos len h).bytes =
      W.bytes.take pos ++ List.replicate len 0 ++ W.bytes.drop (pos + len) := by
  rw [zero, copy_bytes, List.length_replicate]

theorem take_copy {pos : ℕ} (data : Bytes) (h : pos + data.length ≤ V.blockLength) :
    (W.copy pos data h).bytes.take (pos + data.length) = W.bytes.take pos ++ data := by
  have hW := W.length_eq
  rw [copy_bytes, List.take_left' (by rw [List.length_append, List.length_take]; omega)]

theorem take_zero {pos len m : ℕ} (h : pos + len ≤ V.blockLength) (hm : pos + len = m) :
    (W.zero pos len h).bytes.take m = W.bytes.take pos ++ List.replicate len 0 := by
  have hW := W.length_eq
  subst hm
  rw [zero_bytes, List.take_left']
  rw [List.length_append, List.length_take, List.length_replicate]
  omega

theorem copy_full {pos : ℕ} (data : Bytes) (h : pos + data.length = V.blockLength) :
    (W.copy pos data h.le).bytes = W.bytes.take pos ++ data := by
  rw [copy_bytes, h, ← W.length_eq, List.drop_length, List.append_nil]

end Buffer

namespace Context

/-! ### The transform -/

section Transform

theorem slot_val (j : ℕ) : (slot j : ℕ) = j % 16 := Nat.and_two_pow_sub_one_eq_mod j 4

theorem slot_eq {i j : ℕ} (h : i % 16 = j % 16) : slot i = slot j := by
  rw [← Fin.val_inj, slot_val, slot_val, h]

theorem slot_inj {i j : ℕ} : slot i = slot j ↔ i % 16 = j % 16 := by
  rw [← Fin.val_inj, slot_val, slot_val]

variable {V : Variant} {S : Standard V.size} (I : Implements V S) (host : ByteOrder)

include I

theorem round_eq {j : ℕ} (hj : j < S.rounds) (w : Word V.size) (v : Vars V.size) :
    round V (V.K.getD j 0) w v = S.step (rootBits V.size 3 j) w v := by
  simp only [round, Standard.step, I.Sigma0, I.Sigma1, I.K j hj]

omit I in
theorem slot_fits {block : Bytes} (hlen : V.blockLength ≤ block.length) {j : ℕ} (hj : j < 16) :
    V.size * j + V.size ≤ block.length := by
  refine le_trans ?_ hlen
  rw [Variant.blockLength, ← Nat.mul_succ, Nat.mul_comm]
  exact Nat.mul_le_mul_right _ hj

theorem loadWord_get {block : Bytes} (W : Buffer V) (data : Option Bytes) {j : ℕ} (hj : j < 16)
    (hlen : V.blockLength ≤ block.length)
    (hblock : dataAt host W data (slot j) = wordAt host V.size block j) :
    (loadWord host data W (slot j)).get host (slot j) = wordAt .big V.size block j := by
  have hfit := slot_fits hlen hj
  rw [loadWord, Buffer.get_set, if_pos rfl, hblock, wordAt, wordAt,
    onLittle_read I.reverse host (by rw [List.length_take, List.length_drop]; omega)]

omit I

/-- The block that a transform is given. -/
def blockOf (ctx : Context V) (data : Option Bytes) : Bytes := data.getD ctx.buffer.bytes

variable (S) in
/-- Before round `j` of the first sixteen: the slots in front of `j` hold the words of the
block, the others what the buffer held. -/
structure Loading (ctx : Context V) (data : Option Bytes) (j : ℕ) (st : Buffer V × Vars V.size) :
    Prop where
  done : ∀ i < 16, i < j → st.1.get host (slot i) = S.word (blockOf ctx data) i
  rest : ∀ i < 16, j ≤ i → st.1.get host (slot i) = ctx.buffer.get host (slot i)
  vars : st.2 = S.run (blockOf ctx data) ctx.state j

variable (S) in
/-- Before round `t` of the others: the slots hold the words of the last sixteen rounds. -/
structure Expanding (block : Bytes) (v : Vars V.size) (t : ℕ) (st : Buffer V × Vars V.size) :
    Prop where
  words : ∀ i < t, t ≤ i + 16 → st.1.get host (slot i) = S.word block i
  vars : st.2 = S.run block v t

include I

theorem Loading.step {ctx : Context V} {data : Option Bytes} {j : ℕ} {st : Buffer V × Vars V.size}
    (hlen : V.blockLength ≤ (blockOf ctx data).length) (hj : j < 16)
    (h : Loading S host ctx data j st) :
    Loading S host ctx data (j + 1) (loadRound host data st j) := by
  have hdata : dataAt host st.1 data (slot j) = wordAt host V.size (blockOf ctx data) j := by
    cases data with
    | none =>
        -- the block is the buffer itself, and its word `j` has not been written yet
        rw [dataAt, h.rest j hj le_rfl, Buffer.get, slot_val, Nat.mod_eq_of_lt hj]
        rfl
    | some bytes =>
        rw [dataAt, slot_val, Nat.mod_eq_of_lt hj]
        rfl
  have hword : (loadWord host data st.1 (slot j)).get host (slot j) =
      S.word (blockOf ctx data) j := by
    rw [loadWord_get I host st.1 data hj hlen hdata, Standard.word_first _ hj]
  have hother (i : ℕ) (hi : i < 16) (hij : i ≠ j) :
      (loadWord host data st.1 (slot j)).get host (slot i) = st.1.get host (slot i) := by
    rw [loadWord, Buffer.get_set, if_neg]
    rw [slot_inj]
    omega
  constructor
  · intro i hi hij
    rcases Nat.lt_succ_iff_lt_or_eq.mp hij with hlt | rfl
    · rw [loadRound, hother i hi hlt.ne, h.done i hi hlt]
    · exact hword
  · intro i hi hij
    rw [loadRound, hother i hi (by omega), h.rest i hi (by omega)]
  · have hrounds := I.rounds_le
    rw [loadRound, hword, h.vars, round_eq I (by omega), Standard.run_succ]

theorem Expanding.step {block : Bytes} {v : Vars V.size} {t : ℕ} {st : Buffer V × Vars V.size}
    (h16 : 16 ≤ t) (ht : t < S.rounds) (h : Expanding S host block v t st) :
    Expanding S host block v (t + 1) (expandRound host st t) := by
  have hslot (k : ℕ) (hk : k ≤ 15) :
      st.1.get host (slot (t + k)) = S.word block (t + k - 16) := by
    rw [slot_eq (i := t + k) (j := t + k - 16) (by omega), h.words _ (by omega) (by omega)]
  have hword : (expandWord host st.1 t).get host (slot t) = S.word block t := by
    have h0 := hslot 0 (by omega)
    rw [Nat.add_zero] at h0
    rw [expandWord, Buffer.get_set, if_pos rfl, h0, hslot 1 (by omega), hslot 14 (by omega),
      hslot 9 (by omega), I.sigma0, I.sigma1, Standard.word_next block h16 ht,
      show t + 1 - 16 = t - 15 by omega, show t + 14 - 16 = t - 2 by omega,
      show t + 9 - 16 = t - 7 by omega, BitVec.add_comm]
  constructor
  · intro i hi hti
    rcases Nat.lt_succ_iff_lt_or_eq.mp hi with hlt | rfl
    · rw [expandRound, expandWord, Buffer.get_set, if_neg, h.words i hlt (by omega)]
      rw [slot_inj]
      omega
    · exact hword
  · rw [expandRound, hword, h.vars, round_eq I ht, Standard.run_succ]

/-- **The transform.**  In place or not, on either host, it is the compression function. -/
theorem transform_state (ctx : Context V) (data : Option Bytes)
    (hlen : V.blockLength ≤ (blockOf ctx data).length) :
    (transform host ctx data).state = S.compress ctx.state (blockOf ctx data) := by
  have hload : Loading S host ctx data (0 + 16)
      ((List.range' 0 16).foldl (loadRound host data) (ctx.buffer, ctx.state)) := by
    refine foldl_range'_of_step _ (Loading S host ctx data) 16 ?_
      (fun j st _ hj h => h.step I host hlen (by omega))
    exact ⟨fun i _ hi => absurd hi (Nat.not_lt_zero i), fun _ _ _ => rfl, rfl⟩
  have hexpand := foldl_range'_of_step (expandRound host)
    (Expanding S host (blockOf ctx data) ctx.state) (a := 16) (V.rounds - 16)
    ⟨fun i hi _ => hload.done i hi hi, hload.vars⟩
    (fun t st h16 ht h => h.step I host h16 (by rw [I.rounds] at ht; omega))
  have hrounds : 16 + (V.rounds - 16) = S.rounds := by
    have := I.rounds_le
    rw [I.rounds]
    omega
  rw [hrounds] at hexpand
  rw [transform, Standard.compress, ← hexpand.vars]

end Transform

/-! ### Update -/

section Update

variable {V : Variant} {S : Standard V.size} (I : Implements V S) (host : ByteOrder)

/-- A context after `len` bytes: the state over the complete blocks and, in front of the buffer,
what is left over. -/
structure Holds (ctx : Context V) (c : Vars V.size × Bytes) (len : ℕ) : Prop where
  state : ctx.state = c.1
  buffer : ctx.buffer.bytes.take c.2.length = c.2
  pending : c.2.length = len % V.blockLength
  bitcount : I.counter.value ctx.bitcount = 8 * len % 2 ^ (64 * V.counter.words)

variable {I}

include I in
theorem blockLength_le : V.blockLength ≤ 2 ^ 60 := Nat.le_of_dvd (Nat.two_pow_pos 60) I.dvd_pow

/-- The counter keeps the number of bytes modulo the length of a block, however long the message
has become. -/
theorem Holds.usedspace_eq {ctx : Context V} {c : Vars V.size × Bytes} {len : ℕ}
    (h : Holds I ctx c len) : ctx.usedspace = c.2.length := by
  have hpow : 2 ^ 64 ∣ 2 ^ (64 * V.counter.words) :=
    Nat.pow_dvd_pow 2 (Nat.le_mul_of_pos_right 64 I.words_pos)
  have hlow : (V.counter.low ctx.bitcount).toNat = 8 * len % 2 ^ 64 := by
    rw [I.counter.low_toNat, h.bitcount, Nat.mod_mod_of_dvd _ hpow]
  have hbytes : 8 * len % 2 ^ 64 / 8 = len % 2 ^ 61 := by omega
  have hdvd : V.blockLength ∣ 2 ^ 61 := I.dvd_pow.trans (Nat.pow_dvd_pow 2 (by omega))
  rw [usedspace, BitVec.toNat_ushiftRight, hlow, Nat.shiftRight_eq_div_pow, hbytes,
    Nat.mod_mod_of_dvd _ hdvd, h.pending]

theorem count_value (ctx : Context V) {len k : ℕ} (hk : k ≤ V.blockLength)
    (h : I.counter.value ctx.bitcount = 8 * len % 2 ^ (64 * V.counter.words)) :
    I.counter.value (ctx.count k).bitcount =
      8 * (len + k) % 2 ^ (64 * V.counter.words) := by
  have hle := hk.trans (blockLength_le (I := I))
  have hsmall : (BitVec.ofNat 64 (k <<< 3)).toNat = 8 * k := by
    rw [BitVec.toNat_ofNat, Nat.shiftLeft_eq]
    omega
  rw [count, I.counter.value_add, h, hsmall, Nat.mod_add_mod, Nat.mul_add]

/-- The leftovers of a piece are saved at the front of the buffer or behind what waits there. -/
theorem Holds.save {ctx : Context V} {c : Vars V.size × Bytes} {len : ℕ} (h : Holds I ctx c len)
    {data : Bytes} (hfit : c.2.length + data.length < V.blockLength)
    (hcopy : c.2.length + data.length ≤ V.blockLength) :
    Holds I (({ ctx with buffer := ctx.buffer.copy c.2.length data hcopy } : Context V).count
      data.length) (feed V.blockLength S.compress c data) (len + data.length) := by
  have hlen : (c.2 ++ data).length < V.blockLength := by rwa [List.length_append]
  constructor
  · exact h.state.trans (absorb_of_lt c.1 hlen).symm
  · change (ctx.buffer.copy c.2.length data hcopy).bytes.take
      (leftover V.blockLength (c.2 ++ data)).length = leftover V.blockLength (c.2 ++ data)
    rw [leftover_of_lt hlen, List.length_append, Buffer.take_copy, h.buffer]
  · rw [feed, leftover_length, List.length_append, h.pending, Nat.mod_add_mod]
  · exact count_value _ (by omega) h.bitcount

theorem updateBlocks_spec {ctx : Context V} {s : Vars V.size} {len : ℕ}
    (h : Holds I ctx (s, []) len) (data : Bytes) :
    Holds I (updateBlocks host ctx data) (feed V.blockLength S.compress (s, []) data)
      (len + data.length) := by
  have hpos := V.blockLength_pos
  induction hn : data.length using Nat.strong_induction_on generalizing ctx s len data with
  | _ n ih =>
      subst hn
      rw [updateBlocks]
      split
      case isTrue hle =>
        have hblock : (data.take V.blockLength).length = V.blockLength := by
          rw [List.length_take, Nat.min_eq_left hle]
        have hstate : (transform host ctx (some data)).state =
            S.compress s (data.take V.blockLength) := by
          rw [transform_state I host ctx (some data) hle, h.state, Variant.blockLength,
            Standard.compress_take]
          rfl
        have hnext : Holds I ((transform host ctx (some data)).count V.blockLength)
            (S.compress s (data.take V.blockLength), []) (len + V.blockLength) := by
          refine ⟨hstate, rfl, ?_, count_value _ le_rfl h.bitcount⟩
          rw [Nat.add_mod_right, ← h.pending]
        have hrest := ih (data.drop V.blockLength).length
          (by rw [List.length_drop]; omega) hnext (data.drop V.blockLength) rfl
        have hfeed : feed V.blockLength S.compress (s, []) data =
            feed V.blockLength S.compress (S.compress s (data.take V.blockLength), [])
              (data.drop V.blockLength) := by
          conv_lhs => rw [← List.take_append_drop V.blockLength data]
          rw [feed, List.nil_append, absorb_block hpos s hblock, leftover_block hpos hblock]
          rfl
        have hlen : len + V.blockLength + (data.drop V.blockLength).length =
            len + data.length := by
          rw [List.length_drop]
          omega
        rwa [hfeed, ← hlen]
      case isFalse hlt =>
        have hlt := Nat.lt_of_not_le hlt
        split
        · exact h.save (by simpa using hlt) (by simpa using hlt.le)
        · have hnil : data = [] := List.eq_nil_of_length_eq_zero (by omega)
          subst hnil
          have hfeed : feed V.blockLength S.compress (s, []) [] = (s, []) := by
            rw [feed, List.nil_append, absorb_of_lt s hpos, leftover_of_lt hpos]
          rwa [hfeed]

/-- **Update.**  The context is fed the piece. -/
theorem update_spec {ctx : Context V} {c : Vars V.size × Bytes} {len : ℕ}
    (h : Holds I ctx c len) (data : Bytes) :
    Holds I (update host ctx data) (feed V.blockLength S.compress c data) (len + data.length) := by
  have hpos := V.blockLength_pos
  have hused := h.usedspace_eq
  have hlt : c.2.length < V.blockLength := hused ▸ ctx.usedspace_lt
  unfold update
  split
  case isTrue hnil =>
    obtain rfl := List.eq_nil_of_length_eq_zero hnil
    have hfeed : feed V.blockLength S.compress c [] = c := by
      rw [feed, List.append_nil, absorb_of_lt _ hlt, leftover_of_lt hlt]
    rwa [hfeed]
  split
  case isTrue hsome =>
    simp only [hused]
    split
    case isTrue hfree =>
      -- the buffer is filled and processed, the rest goes block by block
      have hcut : (data.take (V.blockLength - c.2.length)).length =
          V.blockLength - c.2.length := by
        rw [List.length_take, Nat.min_eq_left hfree]
      set front := data.take (V.blockLength - c.2.length) with hfront
      set back := data.drop (V.blockLength - c.2.length) with hback
      have hdata : data = front ++ back := (List.take_append_drop _ data).symm
      have hblock : (c.2 ++ front).length = V.blockLength := by
        rw [List.length_append]
        omega
      have hbuffer (hcopy : c.2.length + front.length ≤ V.blockLength) :
          (ctx.buffer.copy c.2.length front hcopy).bytes = c.2 ++ front := by
        rw [Buffer.copy_full _ _ (by omega), h.buffer]
      have hfeed : feed V.blockLength S.compress c data =
          feed V.blockLength S.compress (S.compress c.1 (c.2 ++ front), []) back := by
        rw [feed, hdata, ← List.append_assoc, absorb_block hpos _ hblock,
          leftover_block hpos hblock]
        rfl
      have hlen : len + data.length = len + (V.blockLength - c.2.length) + back.length := by
        rw [hback, List.length_drop]
        omega
      have hmod := h.pending
      rw [hfeed, hlen]
      refine updateBlocks_spec host ⟨?_, rfl, ?_, ?_⟩ back
      · rw [transform_state I host _ none (by rw [blockOf]; exact (Buffer.length_eq _).ge)]
        exact congrArg₂ S.compress h.state (hbuffer (by omega))
      · rw [List.length_nil, hmod, Nat.add_comm len, ← Nat.add_mod_mod, Nat.sub_add_cancel (by omega),
          Nat.mod_self]
      · exact count_value _ (by omega) h.bitcount
    case isFalse hfree => exact h.save (by omega) (by omega)
  case isFalse hnone =>
    have hc : c = (c.1, []) := Prod.ext rfl (List.eq_nil_of_length_eq_zero (by omega))
    rw [hc] at h ⊢
    exact updateBlocks_spec host h data

/-! ### Final -/

include I in
/-- The bytes of the counter are the length of the message as the standard stores it. -/
theorem countBytes_eq {c : V.counter.Count} {len : ℕ}
    (h : I.counter.value c = 8 * len % 2 ^ (64 * V.counter.words)) :
    countBytes host c = (leBytes (2 * V.size) (8 * len)).reverse := by
  have hwords : countBytes host c = (V.counter.stored c).flatMap (ByteOrder.big.write 8) := by
    rw [countBytes]
    congr 1
    funext w
    exact write_onLittle REVERSE64_eq host w
  have hpow : 2 ^ (64 * V.counter.words) = 256 ^ (8 * V.counter.words) := by
    rw [show 256 = 2 ^ 8 from rfl, ← pow_mul]
    congr 1
    omega
  rw [hwords, I.counter.stored, h, hpow, leBytes_mod, I.words_eq]

theorem absorb_one (s : Vars V.size) {block : Bytes} (h : block.length = V.blockLength) :
    absorb V.blockLength S.compress s block = S.compress s block := by
  have hpos := V.blockLength_pos
  rw [← List.append_nil block, absorb_block hpos s h, absorb_of_lt _ hpos, List.append_nil]

include I in
theorem short_eq : V.shortBlockLength + 2 * V.size = V.blockLength := by
  rw [← I.words_eq, V.short_add]

include I in
theorem zeros_short {len p : ℕ} (hp : p = len % V.blockLength) (h : p + 1 ≤ V.shortBlockLength) :
    Standard.zeros V.size len = V.shortBlockLength - (p + 1) := by
  have hshort := short_eq (I := I)
  have hlen := Nat.div_add_mod len V.blockLength
  apply Standard.zeros_eq
  · change _ < V.blockLength
    omega
  · exact ⟨len / V.blockLength + 1, by
      change _ = V.blockLength * _
      rw [Nat.mul_succ]
      omega⟩

include I in
theorem zeros_long {len p : ℕ} (hp : p = len % V.blockLength) (hlt : p < V.blockLength)
    (h : ¬ p + 1 ≤ V.shortBlockLength) :
    Standard.zeros V.size len = V.blockLength - (p + 1) + V.shortBlockLength := by
  have hshort := short_eq (I := I)
  have hlen := Nat.div_add_mod len V.blockLength
  apply Standard.zeros_eq
  · change _ < V.blockLength
    omega
  · exact ⟨len / V.blockLength + 2, by
      change _ = V.blockLength * _
      rw [Nat.mul_add, Nat.mul_two]
      omega⟩

/-- What the padding leaves: the blocks completed on the way are absorbed, and the rest up to
the length stands at the front of the buffer. -/
structure Padded (I : Implements V S) (ctx : Context V) (s : Vars V.size) (message : Bytes) :
    Prop where
  split : ∃ front tail, message = front ++ tail ∧ tail.length = V.shortBlockLength ∧
    ctx.buffer.bytes.take V.shortBlockLength = tail ∧
    ∀ back, absorb V.blockLength S.compress s (front ++ back) =
      absorb V.blockLength S.compress ctx.state back

theorem padded_spec {ctx : Context V} {c : Vars V.size × Bytes} {len : ℕ}
    (h : Holds I ctx c len) :
    Padded I (padded host ctx) c.1
      (c.2 ++ 0x80 :: List.replicate (Standard.zeros V.size len) 0) := by
  have hpos := V.blockLength_pos
  have hshort := short_eq (I := I)
  have hshortPos := V.short_pos
  have hused := h.usedspace_eq
  have hlt : c.2.length < V.blockLength := hused ▸ ctx.usedspace_lt
  have hmark (hcopy : c.2.length + [(0x80 : UInt8)].length ≤ V.blockLength) :
      (ctx.buffer.copy c.2.length [0x80] hcopy).bytes.take (c.2.length + 1) = c.2 ++ [0x80] := by
    have htake := ctx.buffer.take_copy [0x80] hcopy
    rwa [h.buffer] at htake
  unfold padded
  simp only [hused]
  split
  case isTrue hsome =>
    split
    case isTrue hfit =>
      refine ⟨[], _, (List.nil_append _).symm, ?_, ?_, fun back => ?_⟩
      · rw [zeros_short (I := I) h.pending hfit]
        simp only [List.length_append, List.length_cons, List.length_replicate]
        omega
      · rw [zeros_short (I := I) h.pending hfit]
        rw [Buffer.take_zero _ _ (Nat.add_sub_cancel' hfit), hmark, List.append_assoc]
        rfl
      · rw [List.nil_append, ← h.state]
    case isFalse hfit =>
      have hbytes (W : Buffer V) (hW : W.bytes.take (c.2.length + 1) = c.2 ++ [0x80]) :
          (if hfull : c.2.length + 1 < V.blockLength then
            W.zero (c.2.length + 1) (V.blockLength - (c.2.length + 1)) (by omega)
          else W).bytes =
            c.2 ++ 0x80 :: List.replicate (V.blockLength - (c.2.length + 1)) 0 := by
        split
        case isTrue hfull =>
          rw [← List.take_of_length_le (Buffer.length_eq _).le,
            W.take_zero _ (Nat.add_sub_cancel' hfull.le), hW, List.append_assoc]
          rfl
        case isFalse hfull =>
          rw [List.take_of_length_le (by rw [W.length_eq]; omega)] at hW
          rw [hW, Nat.sub_eq_zero_of_le (by omega), List.replicate_zero]
      have hblock : (c.2 ++ 0x80 :: List.replicate
          (V.blockLength - (c.2.length + 1)) (0 : UInt8)).length = V.blockLength := by
        simp only [List.length_append, List.length_cons, List.length_replicate]
        omega
      refine ⟨c.2 ++ 0x80 :: List.replicate (V.blockLength - (c.2.length + 1)) 0,
        List.replicate V.shortBlockLength 0, ?_, List.length_replicate, ?_, fun back => ?_⟩
      · rw [zeros_long (I := I) h.pending hlt hfit, List.append_assoc, List.cons_append,
          List.replicate_append_replicate]
      · have hle := I.short_le_cleared
        rw [Buffer.zero_bytes, List.take_zero, List.nil_append,
          List.take_append_of_le_length (by rwa [List.length_replicate]), List.take_replicate,
          Nat.min_eq_left hle]
      · rw [absorb_block hpos _ hblock, transform_state I host _ none
          (by rw [blockOf]; exact (Buffer.length_eq _).ge)]
        congr 1
        exact (congrArg₂ S.compress h.state (hbytes _ (hmark _))).symm
  case isFalse hnone =>
    have hc : c.2 = [] := List.eq_nil_of_length_eq_zero (by omega)
    have hpending := h.pending
    refine ⟨[], _, (List.nil_append _).symm, ?_, ?_, fun back => ?_⟩
    · rw [zeros_short (I := I) h.pending (by rw [hc]; exact hshortPos), hc]
      simp only [List.nil_append, List.length_cons, List.length_replicate, List.length_nil]
      omega
    · rw [zeros_short (I := I) h.pending (by rw [hc]; exact hshortPos), hc, Buffer.copy_bytes,
        Buffer.zero_bytes, List.take_zero, List.take_zero]
      obtain ⟨k, hk⟩ := Nat.exists_eq_add_one_of_ne_zero hshortPos.ne'
      simp [hk, List.replicate_succ]
    · rw [List.nil_append, ← h.state]

/-- **The last transform.**  The state is that of the padded message. -/
theorem last_spec {ctx : Context V} {c : Vars V.size × Bytes} {len : ℕ} (h : Holds I ctx c len) :
    (last host ctx).state =
      absorb V.blockLength S.compress c.1 (c.2 ++ Standard.padding V.size len) := by
  obtain ⟨front, tail, hmessage, htail, hbuffer, habsorb⟩ := (padded_spec host h).split
  set length := countBytes host ctx.bitcount with hlength
  have hcount : length = (leBytes (2 * V.size) (8 * len)).reverse :=
    countBytes_eq (I := I) host h.bitcount
  have hfull : V.shortBlockLength + length.length = V.blockLength := by
    rw [hlength, countBytes_length, V.short_add]
  have hblock : ((padded host ctx).buffer.copy V.shortBlockLength length hfull.le).bytes =
      tail ++ length := by
    rw [Buffer.copy_full _ _ hfull, hbuffer]
  calc (last host ctx).state
      = S.compress (padded host ctx).state (tail ++ length) := by
        rw [last, transform_state I host _ none (by rw [blockOf]; exact (Buffer.length_eq _).ge)]
        exact congrArg (S.compress (padded host ctx).state) hblock
    _ = absorb V.blockLength S.compress (padded host ctx).state (tail ++ length) := by
        rw [absorb_one]
        rw [List.length_append, htail, hfull]
    _ = absorb V.blockLength S.compress c.1 (front ++ (tail ++ length)) := (habsorb _).symm
    _ = absorb V.blockLength S.compress c.1 (c.2 ++ Standard.padding V.size len) := by
        rw [← List.append_assoc, ← hmessage, hcount, List.append_assoc]
        rfl

include I in
theorem digest_eq (ctx : Context V) :
    digest host ctx =
      (ctx.state.toList.take S.digestWords).flatMap (ByteOrder.big.write V.size) := by
  rw [digest, I.digestWords]
  congr 1
  funext w
  exact write_onLittle I.reverse host w

include I in
theorem init_holds : Holds I (init V) (S.initial, []) 0 := by
  refine ⟨I.initial, rfl, (Nat.zero_mod _).symm, ?_⟩
  rw [Nat.mul_zero, Nat.zero_mod]
  exact I.counter.value_zero

theorem updates_spec {ctx : Context V} {c : Vars V.size × Bytes} {len : ℕ}
    (h : Holds I ctx c len) (pieces : List Bytes) :
    Holds I (pieces.foldl (update host) ctx) (pieces.foldl (feed V.blockLength S.compress) c)
      (len + pieces.flatten.length) := by
  induction pieces generalizing ctx c len with
  | nil => exact h
  | cons piece pieces ih =>
      have hrest := ih (update_spec host h piece)
      rwa [Nat.add_assoc, ← List.length_append, ← List.flatten_cons] at hrest

include I in
/-- **The digest.**  However a message is cut, the digest is that of the standard. -/
theorem digest_spec (pieces : List Bytes) :
    (final host (pieces.foldl (update host) (init V))).1 = S.hash pieces.flatten := by
  have hfed := updates_spec host (init_holds (I := I)) pieces
  rw [Nat.zero_add] at hfed
  have hstate := last_spec host hfed
  rw [← digest_of_feed V.blockLength_pos] at hstate
  rw [final, digest_eq (I := I), hstate]
  rfl

end Update

end Context

end Vtrc.Sha2
