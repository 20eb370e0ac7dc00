import Vtrc.Sha2.Digest

/-! # SHA-256, SHA-384 and SHA-512

The three variants of the source implement the three hashes of the standard: the rotations, the
byte order, the counters and, from the primes, every constant of the tables.  `sha2_digest` is
the result; `transformUnrolled_eq` adds the unrolled form of the transform. -/

namespace Vtrc.Sha2

open Words

/-! ### Constants -/

/-- Below the square of the next one, the numbers up to `20` tell a prime. -/
theorem prime_iff {p : ℕ} (hp : p < 441) :
    p.Prime ↔ 2 ≤ p ∧ ∀ m < 21, 2 ≤ m → m ∣ p → m = p := by
  constructor
  · intro h
    exact ⟨h.two_le, fun m _ hm hdvd => (h.eq_one_or_self_of_dvd m hdvd).resolve_left (by omega)⟩
  · rintro ⟨h2, h⟩
    refine Nat.prime_def_le_sqrt.mpr ⟨h2, fun m hm hsqrt hdvd => ?_⟩
    have hsq : m * m ≤ p := Nat.le_sqrt.mp hsqrt
    have hlt : m < 21 := by
      by_contra hge
      have hle : 21 * 21 ≤ m * m := Nat.mul_le_mul (by omega) (by omega)
      omega
    obtain rfl := h m hlt hm hdvd
    have hle : m * 2 ≤ m * m := Nat.mul_le_mul_left m hm
    omega

theorem primes_eq : primes =
    [2, 3, 5, 7, 11, 13, 17, 19, 23, 29, 31, 37, 41, 43, 47, 53, 59, 61, 67, 71, 73, 79, 83, 89, 97,
      101, 103, 107, 109, 113, 127, 131, 137, 139, 149, 151, 157, 163, 167, 173, 179, 181, 191, 193,
      197, 199, 211, 223, 227, 229, 233, 239, 241, 251, 257, 263, 269, 271, 277, 281, 283, 293, 307,
      311, 313, 317, 331, 337, 347, 349, 353, 359, 367, 373, 379, 383, 389, 397, 401, 409] := by
  have hfilter : primes = (List.range 410).filter
      (fun p => 2 ≤ p ∧ ∀ m < 21, 2 ≤ m → m ∣ p → m = p) := by
    refine List.filter_congr fun p hp => ?_
    have hlt := List.mem_range.mp hp
    exact decide_eq_decide.mpr (prime_iff (by omega))
  rw [hfilter]
  decide +kernel

theorem root_eq {k n m : ℕ} (hk : k ≠ 0) (hle : m ^ k ≤ n) (hlt : n < (m + 1) ^ k) :
    root k n = m := by
  apply le_antisymm
  · have hspec : root k n ^ k ≤ n :=
      Nat.findGreatest_spec (P := fun m => m ^ k ≤ n) (Nat.zero_le n) (by simp [hk])
    exact Nat.lt_succ_iff.mp (lt_of_pow_lt_pow_left₀ k (Nat.zero_le _) (hspec.trans_lt hlt))
  · exact Nat.le_findGreatest ((Nat.le_self_pow hk m).trans hle) hle

/-- `x` is the fractional part of the `k`-th root of `p`, whose integer part is below `32`. -/
def IsRootBits (n k p : ℕ) (x : Word n) : Prop :=
  ∃ a < 32, (a * 2 ^ (8 * n) + x.toNat) ^ k ≤ p * 2 ^ (k * (8 * n)) ∧
    p * 2 ^ (k * (8 * n)) < (a * 2 ^ (8 * n) + x.toNat + 1) ^ k

instance (n k p : ℕ) (x : Word n) : Decidable (IsRootBits n k p x) :=
  inferInstanceAs (Decidable (∃ a < 32, _ ∧ _))

theorem IsRootBits.eq {n k i : ℕ} {x : Word n} (hk : k ≠ 0)
    (h : IsRootBits n k (primes.getD i 0) x) : x = rootBits n k i := by
  obtain ⟨a, -, hle, hlt⟩ := h
  apply BitVec.eq_of_toNat_eq
  rw [rootBits, root_eq hk hle hlt, BitVec.toNat_ofNat, Nat.mul_add_mod_self_right,
    Nat.mod_eq_of_lt x.isLt]

theorem K256_roots : ∀ j < 64, IsRootBits 4 3 (primes.getD j 0) (K256.getD j 0) := by
  rw [primes_eq]
  decide +kernel

theorem K512_roots : ∀ j < 80, IsRootBits 8 3 (primes.getD j 0) (K512.getD j 0) := by
  rw [primes_eq]
  decide +kernel

theorem initial_eq {n first : ℕ} {v : Vars n}
    (h : ∀ i < 8, IsRootBits n 2 (primes.getD (first + i) 0) (v.toList.getD i 0)) :
    v = rootVars n first := by
  have hbits (i : ℕ) (hi : i < 8) : v.toList.getD i 0 = rootBits n 2 (first + i) :=
    (h i hi).eq two_ne_zero
  unfold rootVars
  simp only [← hbits 0 (by omega), ← hbits 1 (by omega), ← hbits 2 (by omega),
    ← hbits 3 (by omega), ← hbits 4 (by omega), ← hbits 5 (by omega), ← hbits 6 (by omega),
    ← hbits 7 (by omega)]
  rfl

/-! ### The members -/

theorem S_eq {n b : ℕ} (x : Word n) (hb : b < 8 * n) : S b x = x.rotateRight b := by
  rw [S, BitVec.rotateRight_def, Nat.mod_eq_of_lt hb]

theorem rotations_eq {n : ℕ} (r : ℕ × ℕ × ℕ) (x : Word n)
    (h : r.1 < 8 * n ∧ r.2.1 < 8 * n ∧ r.2.2 < 8 * n) :
    S r.1 x ^^^ S r.2.1 x ^^^ S r.2.2 x = Standard.rotations r x := by
  rw [S_eq x h.1, S_eq x h.2.1, S_eq x h.2.2, Standard.rotations]

theorem rotationsShift_eq {n : ℕ} (r : ℕ × ℕ × ℕ) (x : Word n)
    (h : r.1 < 8 * n ∧ r.2.1 < 8 * n) :
    S r.1 x ^^^ S r.2.1 x ^^^ R r.2.2 x = Standard.rotationsShift r x := by
  rw [S_eq x h.1, S_eq x h.2, R, Standard.rotationsShift]

def sha256i_implements : Implements SHA256i sha256 where
  reverse := REVERSE32_eq
  Sigma0 x := rotations_eq (n := 4) sha256.Sigma0 x (by decide)
  Sigma1 x := rotations_eq (n := 4) sha256.Sigma1 x (by decide)
  sigma0 x := rotationsShift_eq (n := 4) sha256.sigma0 x (by decide)
  sigma1 x := rotationsShift_eq (n := 4) sha256.sigma1 x (by decide)
  rounds := rfl
  rounds_le := by decide
  K j hj := (K256_roots j hj).eq three_ne_zero
  initial := initial_eq (by rw [primes_eq]; decide +kernel)
  digestWords := rfl
  counter := bitcount64_lawful
  words_pos := by decide
  words_eq := rfl
  dvd_pow := Nat.pow_dvd_pow (m := 6) 2 (by omega)
  short_le_cleared := by decide

def sha512i_implements : Implements SHA512i sha512 where
  reverse := REVERSE64_eq
  Sigma0 x := rotations_eq (n := 8) sha512.Sigma0 x (by decide)
  Sigma1 x := rotations_eq (n := 8) sha512.Sigma1 x (by decide)
  sigma0 x := rotationsShift_eq (n := 8) sha512.sigma0 x (by decide)
  sigma1 x := rotationsShift_eq (n := 8) sha512.sigma1 x (by decide)
  rounds := rfl
  rounds_le := by decide
  K j hj := (K512_roots j hj).eq three_ne_zero
  initial := initial_eq (by rw [primes_eq]; decide +kernel)
  digestWords := rfl
  counter := bitcount128_lawful
  words_pos := by decide
  words_eq := rfl
  dvd_pow := Nat.pow_dvd_pow (m := 7) 2 (by omega)
  short_le_cleared := by decide

def sha384i_implements : Implements SHA384i sha384 :=
  { sha512i_implements with
    initial := initial_eq (by rw [primes_eq]; decide +kernel)
    digestWords := rfl }

/-- **SHA-2.**  On a host of either byte order and however the message is cut into calls of
`update`, the three hashes give the digests of the standard. -/
theorem sha2_digest (host : ByteOrder) (pieces : List Bytes) :
    (Context.final host (pieces.foldl (Context.update host) (Context.init SHA256i))).1 =
        sha256.hash pieces.flatten ∧
      (Context.final host (pieces.foldl (Context.update host) (Context.init SHA384i))).1 =
        sha384.hash pieces.flatten ∧
      (Context.final host (pieces.foldl (Context.update host) (Context.init SHA512i))).1 =
        sha512.hash pieces.flatten :=
  ⟨Context.digest_spec host (I := sha256i_implements) pieces,
    Context.digest_spec host (I := sha384i_implements) pieces,
    Context.digest_spec host (I := sha512i_implements) pieces⟩

example : getDataHash SHA256i .little [0x61, 0x62, 0x63] =
    [0xba, 0x78, 0x16, 0xbf, 0x8f, 0x01, 0xcf, 0xea, 0x41, 0x41, 0x40, 0xde, 0x5d, 0xae, 0x22, 0x23,
      0xb0, 0x03, 0x61, 0xa3, 0x96, 0x17, 0x7a, 0x9c, 0xb4, 0x10, 0xff, 0x61, 0xf2, 0x00, 0x15,
      0xad] := by
  decide +kernel

/-! ### The hasher of a session -/

theorem getDataHash_eq (host : ByteOrder) (data : Bytes) :
    getDataHash SHA256i host data = sha256.hash data := by
  have h := Context.digest_spec host (I := sha256i_implements) [data]
  rwa [List.flatten_singleton] at h

theorem getDataHash_length (host : ByteOrder) (data : Bytes) :
    (getDataHash SHA256i host data).length = 32 := by
  simp only [getDataHash, Context.final, Context.digest, List.length_flatMap,
    ByteOrder.write_length]
  rfl

/-- `sha2::create256`: SHA-256 as the hash of a session. -/
def create256 (host : ByteOrder) (data : Bytes) : Digest :=
  ⟨getDataHash SHA256i host data, getDataHash_length host data⟩

theorem create256_host (host host' : ByteOrder) : create256 host = create256 host' := by
  funext data
  exact Subtype.ext ((getDataHash_eq host data).trans (getDataHash_eq host' data).symm)

theorem checkDataHash_iff (host : ByteOrder) (data hash : Bytes) :
    checkDataHash SHA256i host data hash = true ↔ hash.take 32 = sha256.hash data := by
  have hlen : SHA256i.digestLength = 32 := rfl
  rw [checkDataHash, hlen, List.take_of_length_le (getDataHash_length host data).le,
    getDataHash_eq, beq_iff_eq]
  exact eq_comm

/-! ### The unrolled transform -/

namespace Context

variable {V : Variant} (host : ByteOrder)

theorem ROUND_apply (K W : Word V.size) (r : Fin 8 → Word V.size) (i k : Fin 8) :
    ROUND V K W r i (k - i) =
      if k = 7 then (round V K W (arguments r i)).a
      else if k = 3 then (round V K W (arguments r i)).e
      else r (k - i) := by
  have hplace (m : Fin 8) : k - i = m - i ↔ k = m := by omega
  simp only [ROUND, round, hplace, BitVec.add_assoc]

theorem arguments_ROUND (K W : Word V.size) (r : Fin 8 → Word V.size) (i : Fin 8) :
    arguments (ROUND V K W r i) (i + 1) = round V K W (arguments r i) := by
  have hturn (k : Fin 8) : k - (i + 1) = k - 1 - i := by omega
  have hcell (k : Fin 8) := ROUND_apply K W r i (k - 1)
  unfold arguments
  simp only [hturn, hcell]
  rfl

/-- The unrolled loops and the plain ones side by side, in front of the macro `i` of eight. -/
structure Turned (i : Fin 8) (st : Buffer V × (Fin 8 → Word V.size))
    (st' : Buffer V × Vars V.size) : Prop where
  buffer : st.1 = st'.1
  vars : arguments st.2 i = st'.2

theorem Turned.load (data : Option Bytes) (j : ℕ) {i : Fin 8}
    {st : Buffer V × (Fin 8 → Word V.size)} {st' : Buffer V × Vars V.size}
    (h : Turned i st st') :
    Turned (i + 1) (ROUND_0_TO_15 host data j st i) (loadRound host data st' (j + i)) := by
  refine ⟨by rw [ROUND_0_TO_15, loadRound, h.buffer], ?_⟩
  rw [ROUND_0_TO_15, loadRound, arguments_ROUND, h.vars, h.buffer]

theorem Turned.expand (j : ℕ) {i : Fin 8} {st : Buffer V × (Fin 8 → Word V.size)}
    {st' : Buffer V × Vars V.size} (h : Turned i st st') :
    Turned (i + 1) (ROUND_16 host j st i) (expandRound host st' (j + i)) := by
  refine ⟨by rw [ROUND_16, expandRound, h.buffer], ?_⟩
  rw [ROUND_16, expandRound, arguments_ROUND, h.vars, h.buffer]

theorem Turned.eight {macroAt : ℕ → Buffer V × (Fin 8 → Word V.size) → Fin 8 →
      Buffer V × (Fin 8 → Word V.size)}
    {body : Buffer V × Vars V.size → ℕ → Buffer V × Vars V.size}
    (hstep : ∀ j i st st', Turned i st st' → Turned (i + 1) (macroAt j st i) (body st' (j + i)))
    {st : Buffer V × (Fin 8 → Word V.size)} {st' : Buffer V × Vars V.size}
    (h : Turned 0 st st') (j : ℕ) :
    Turned 0 (Context.eight macroAt st j) ((List.range' j 8).foldl body st') := by
  have hplaces : List.finRange 8 = [0, 1, 2, 3, 4, 5, 6, 7] := by decide
  rw [Context.eight, hplaces]
  exact hstep j 7 _ _ (hstep j 6 _ _ (hstep j 5 _ _ (hstep j 4 _ _ (hstep j 3 _ _
    (hstep j 2 _ _ (hstep j 1 _ _ (hstep j 0 _ _ h)))))))

/-- A loop of `8 * m` rounds against its unrolled form. -/
theorem Turned.loop {macroAt : ℕ → Buffer V × (Fin 8 → Word V.size) → Fin 8 →
      Buffer V × (Fin 8 → Word V.size)}
    {body : Buffer V × Vars V.size → ℕ → Buffer V × Vars V.size}
    (hstep : ∀ j i st st', Turned i st st' → Turned (i + 1) (macroAt j st i) (body st' (j + i)))
    {st : Buffer V × (Fin 8 → Word V.size)} {st' : Buffer V × Vars V.size}
    (h : Turned 0 st st') (a m : ℕ) :
    Turned 0 ((List.range m).foldl (fun st q => Context.eight macroAt st (a + 8 * q)) st)
      ((List.range' a (8 * m)).foldl body st') := by
  induction m with
  | zero => exact h
  | succ m ih =>
      rw [List.range_succ, List.foldl_append, Nat.mul_succ, ← List.range'_append_1,
        List.foldl_append]
      exact ih.eight hstep (a + 8 * m)

/-- **The unrolled transform.**  It is the plain one. -/
theorem transformUnrolled_eq (h8 : 8 ∣ V.rounds - 16) (ctx : Context V) (data : Option Bytes) :
    transformUnrolled host ctx data = transform host ctx data := by
  have hstart : Turned 0 (ctx.buffer, registers ctx.state) (ctx.buffer, ctx.state) := ⟨rfl, rfl⟩
  have hload := hstart.loop (fun j i st st' h => h.load host data j) 0 2
  have hall := hload.loop (fun j i st st' h => h.expand host j) 16 ((V.rounds - 16) / 8)
  rw [Nat.mul_div_cancel' h8] at hall
  simp only [Nat.zero_add] at hall
  rw [transformUnrolled, transform, ← hall.vars, ← hall.buffer]

/-- So it is for the three hashes. -/
theorem unrolled_agrees (host : ByteOrder) (data : Option Bytes) :
    (∀ ctx : Context SHA256i, transformUnrolled host ctx data = transform host ctx data) ∧
      (∀ ctx : Context SHA384i, transformUnrolled host ctx data = transform host ctx data) ∧
      ∀ ctx : Context SHA512i, transformUnrolled host ctx data = transform host ctx data :=
  ⟨fun ctx => transformUnrolled_eq host (by decide) ctx data,
    fun ctx => transformUnrolled_eq host (by decide) ctx data,
    fun ctx => transformUnrolled_eq host (by decide) ctx data⟩

end Context

end Vtrc.Sha2
