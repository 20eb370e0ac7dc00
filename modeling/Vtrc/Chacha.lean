import Vtrc.Transformer
import Mathlib.Data.Nat.ModEq

/-! # The key stream of ChaCha (`chacha-regs.c`, `transformer/chacha.cpp`)

`ECRYPT_encrypt_bytes` starts a new block of 64 bytes with every message and throws away what is
left of the last one, so the transformer of a session is a key stream in blocks
(`Lib/StreamCipher.lean`): `transform_eq`.  The words 12 and 13 of the context count the blocks
(`counter_bump`); no other word changes.

`session_stream` says which blocks the messages of a session are combined with, and that a block
comes back only after 2^64 others: no two messages share key stream before. -/

namespace Vtrc

namespace Chacha

/-! ### The counter -/

theorem counter_lt (x : ChachaCtx) : counter x < 2 ^ 64 := by
  have h₁ := (x 12).toNat_lt
  have h₂ := (x 13).toNat_lt
  rw [counter]
  omega

/-- `PLUSONE` on the first word carries into the second one. -/
theorem counter_bump (x : ChachaCtx) : counter (bump x) = (counter x + 1) % 2 ^ 64 := by
  have h₁ := (x 12).toNat_lt
  have h₂ := (x 13).toNat_lt
  have hsum (v : UInt32) : (v + 1).toNat = (v.toNat + 1) % 2 ^ 32 := UInt32.toNat_add v 1
  have hzero : x 12 + 1 = 0 ↔ (x 12).toNat + 1 = 2 ^ 32 := by
    rw [← UInt32.toNat_inj, hsum]
    change _ = 0 ↔ _
    omega
  rw [counter, counter, bump]
  simp only [Function.update_self]
  split_ifs with h
  · have hcarry := hzero.mp h
    simp only [Function.update_self, Function.update_of_ne (show (12 : Fin 16) ≠ 13 by decide), h,
      Function.update_of_ne (show (13 : Fin 16) ≠ 12 by decide), hsum]
    change 0 + _ = _
    omega
  · have hcarry := mt hzero.mpr h
    simp only [Function.update_self, Function.update_of_ne (show (13 : Fin 16) ≠ 12 by decide),
      hsum]
    omega

theorem bump_apply {x : ChachaCtx} {i : Fin 16} (h₁ : i ≠ 12) (h₂ : i ≠ 13) : bump x i = x i := by
  rw [bump]
  split_ifs
  · rw [Function.update_of_ne h₂, Function.update_of_ne h₁]
  · rw [Function.update_of_ne h₁]

theorem counter_iterate (x : ChachaCtx) (n : ℕ) :
    counter (bump^[n] x) = (counter x + n) % 2 ^ 64 := by
  induction n with
  | zero => exact (Nat.mod_eq_of_lt (counter_lt x)).symm
  | succ n ih =>
      rw [Function.iterate_succ_apply', counter_bump, ih]
      omega

theorem iterate_bump_apply {x : ChachaCtx} {i : Fin 16} (n : ℕ) (h₁ : i ≠ 12) (h₂ : i ≠ 13) :
    bump^[n] x i = x i := by
  induction n with
  | zero => rfl
  | succ n ih => rw [Function.iterate_succ_apply', bump_apply h₁ h₂, ih]

theorem ext_counter {x y : ChachaCtx} (hcounter : counter x = counter y)
    (hrest : ∀ i, i ≠ 12 → i ≠ 13 → x i = y i) : x = y := by
  have h₁ := (x 12).toNat_lt
  have h₂ := (y 12).toNat_lt
  rw [counter, counter] at hcounter
  funext i
  by_cases hi₁ : i = 12
  · subst hi₁
    exact UInt32.toNat_inj.mp (by omega)
  by_cases hi₂ : i = 13
  · subst hi₂
    exact UInt32.toNat_inj.mp (by omega)
  exact hrest i hi₁ hi₂

/-- A context comes back after 2^64 blocks and not before. -/
theorem iterate_bump_eq_iff (x : ChachaCtx) (a b : ℕ) :
    bump^[a] x = bump^[b] x ↔ a ≡ b [MOD 2 ^ 64] := by
  have hcounter : counter (bump^[a] x) = counter (bump^[b] x) ↔ a ≡ b [MOD 2 ^ 64] := by
    rw [counter_iterate, counter_iterate]
    exact ⟨Nat.ModEq.add_left_cancel' _, Nat.ModEq.add_left _⟩
  rw [← hcounter]
  refine ⟨congrArg counter, fun h => ext_counter h fun i h₁ h₂ => ?_⟩
  rw [iterate_bump_apply a h₁ h₂, iterate_bump_apply b h₁ h₂]

/-! ### The blocks of a message -/

/-- The key stream: a block of 64 bytes for each state of the counter. -/
def blockStream : BlockStream ChachaCtx UInt8 where
  size := 64
  size_pos := by decide
  next := bump
  block := wordToByte
  length_block := wordToByte_length
  op := (· ^^^ ·)

theorem encryptLoop_eq (fuel : ℕ) (x : ChachaCtx) (m : Bytes) (hm : m ≠ [])
    (hfuel : m.length ≤ fuel) : encryptLoop fuel x m = blockStream.transform x m := by
  induction fuel generalizing x m with
  | zero => exact absurd (List.length_eq_zero_iff.mp (by omega)) hm
  | succ fuel ih =>
      have hcount := blockStream.count_of_ne_nil hm
      have hsize : blockStream.size = 64 := rfl
      rw [hsize] at hcount
      rcases Nat.lt_or_ge 64 m.length with h | h
      · have hrest : m.drop 64 ≠ [] := by
          rw [← List.length_pos_iff, List.length_drop]
          omega
        rw [encryptLoop_of_gt h, ih (bump x) _ hrest (by rw [List.length_drop]; omega)]
        have hcut := @BlockStream.transform_append _ _ blockStream x (m.take 64) (m.drop 64)
          ⟨1, by rw [List.length_take, hsize]; omega⟩
        have hone : blockStream.count (m.take 64) = 1 :=
          blockStream.count_of_length (by rw [List.length_take, hsize]; omega)
        rw [List.take_append_drop] at hcut
        rw [hcut]
        simp only [BlockStream.transform, hone, BlockStream.keys_succ, BlockStream.keys_zero,
          List.append_nil, Function.iterate_one]
        rfl
      · have hnone : blockStream.count (m.drop 64) = 0 := by
          rw [List.drop_eq_nil_of_le h, BlockStream.count_nil]
        rw [encryptLoop_of_le h, BlockStream.transform, hcount, hnone]
        simp only [BlockStream.keys_succ, BlockStream.keys_zero, List.append_nil, Nat.zero_add,
          Function.iterate_one]
        rfl

theorem encryptBytes_eq (x : ChachaCtx) (m : Bytes) :
    encryptBytes x m = blockStream.transform x m := by
  rw [encryptBytes]
  split_ifs with h
  · obtain rfl := List.length_eq_zero_iff.mp h
    rw [BlockStream.transform, BlockStream.count_nil]
    rfl
  · exact encryptLoop_eq _ _ _ (fun hnil => h (by rw [hnil, List.length_nil])) le_rfl

/-- The part of a message that is encrypted: its length as a `u32`. -/
def covered (m : Bytes) : Bytes := m.take (m.length % 2 ^ 32)

/-- The blocks that a message uses up. -/
def blocks (m : Bytes) : ℕ := blockStream.count (covered m)

theorem transform_eq (x : ChachaCtx) (m : Bytes) :
    transform x m = (bump^[blocks m] x,
      (blockStream.transform x (covered m)).2 ++ m.drop (m.length % 2 ^ 32)) := by
  simp only [transform]
  rw [encryptBytes_eq]
  rfl

/-! ### A session -/

theorem advance_eq (x : ChachaCtx) (ms : List Bytes) :
    Transformer.cipher.advance (.chacha x) ms = .chacha (bump^[(ms.map blocks).sum] x) := by
  induction ms generalizing x with
  | nil => rfl
  | cons m ms ih =>
      have hstep : (Transformer.cipher.transform (.chacha x) m).1 = .chacha (bump^[blocks m] x) := by
        change Transformer.chacha (transform x m).1 = _
        rw [transform_eq]
      rw [StreamCipher.advance, hstep, ih, List.map_cons, List.sum_cons, Nat.add_comm,
        Function.iterate_add_apply]

/-- **The key stream of a session.**  The message number `i` of a session is combined with the
blocks that follow those of the earlier messages, as far as its length as a `u32` goes; what is
left of the last block is not used; and the context of a block comes back after 2^64 blocks and not
before. -/
theorem session_stream (key : Key) (ms : List Bytes) :
    (∀ i m, ms[i]? = some m →
      (Transformer.cipher.encode (.create .chacha key) ms)[i]? =
        some (List.zipWith (· ^^^ ·) (covered m)
          (blockStream.keys (bump^[((ms.take i).map blocks).sum] (create key)) (blocks m)) ++
            m.drop (m.length % 2 ^ 32))) ∧
      ∀ a b, bump^[a] (create key) = bump^[b] (create key) ↔ a ≡ b [MOD 2 ^ 64] := by
  refine ⟨?_, iterate_bump_eq_iff _⟩
  intro i m hm
  rw [StreamCipher.encode_getElem?, hm, Transformer.create, advance_eq, Option.map_some]
  change some (transform _ m).2 = _
  rw [transform_eq]
  rfl

end Chacha

end Vtrc
