import Vtrc.Hash
import Vtrc.Lib.StreamCipher
import Mathlib.Data.Fin.Basic
import Mathlib.Logic.Function.Iterate

/-! # Message transformers (`transformer/`, `erseefor.h`, `chacha-regs.c`)

A session's messages go through a *transformer* on the way out and through a *revertor* on the
way in.  There are three: none, `erseefor` (RC4 with the first 3072 bytes dropped) and the
ChaCha stream cipher that both handshakes install.  All three carry their state from message
to message, and ChaCha discards what is left of a 64-byte block at the end of each message.

`Transformer.cipher` shows that they all are stream ciphers in the sense of
`Lib/StreamCipher.lean`; that is all the envelope needs.  `createKey` derives the key of a
session from the shared key and two salts (`create.cpp`). -/

namespace Vtrc

/-- A key: at least one byte.  (With an empty key `erseefor::init_key` divides by zero and the
constructor of `transformer_chacha` does not return.) -/
abbrev Key := { k : Bytes // k ≠ [] }

/-! ### erseefor -/

/-- `crypt::erseefor`: the array `state_` indexed by bytes, and the two indices. -/
structure Erseefor where
  state : UInt8 → UInt8
  si1 : UInt8
  si2 : UInt8

namespace Erseefor

/-- `swap_bytes( state_[a], state_[b] )`. -/
def swapBytes (state : UInt8 → UInt8) (a b : UInt8) : UInt8 → UInt8 := fun i =>
  if i = a then state b else if i = b then state a else state i

/-- One round of the key schedule. -/
def initKeyStep (key : Key) (r : (UInt8 → UInt8) × UInt8) (i : ℕ) : (UInt8 → UInt8) × UInt8 :=
  let j := UInt8.ofNat i
  let k := r.2 + (r.1 j + key.1.getD (i % key.1.length) 0)
  (swapBytes r.1 j k, k)

/-- `init_key`. -/
def initKey (key : Key) : Erseefor :=
  let r := (List.range 256).foldl (initKeyStep key) (id, 0)
  ⟨r.1, 0, 0⟩

/-- The three lines that `drop` and `transform` share. -/
def next (e : Erseefor) : Erseefor :=
  let si1 := e.si1 + 1
  let si2 := e.si2 + e.state si1
  ⟨swapBytes e.state si1 si2, si1, si2⟩

/-- `drop`. -/
def drop (e : Erseefor) (count : ℕ) : Erseefor := next^[count] e

/-- `transform`. -/
def transform (e : Erseefor) : Bytes → Erseefor × Bytes
  | [] => (e, [])
  | b :: data =>
      let e' := e.next
      let k := e'.state e'.si1 + e'.state e'.si2
      let r := transform e' data
      (r.1, (b ^^^ e'.state k) :: r.2)

/-- What `transform` does to a byte once the state has moved on. -/
def keyStream : KeyStream Erseefor UInt8 where
  next := next
  mask e b := b ^^^ e.state (e.state e.si1 + e.state e.si2)
  mask_mask e b := by rw [UInt8.xor_assoc, UInt8.xor_self, UInt8.xor_zero]

theorem transform_eq (e : Erseefor) (d : Bytes) : e.transform d = keyStream.transform e d := by
  induction d generalizing e with
  | nil => rfl
  | cons b d ih =>
      rw [transform, KeyStream.transform]
      simp only [ih]
      rfl

theorem transform_length (e : Erseefor) (d : Bytes) : (e.transform d).2.length = d.length := by
  rw [transform_eq]
  exact keyStream.transform_length e d

theorem transform_state (e : Erseefor) (d d' : Bytes) (h : d.length = d'.length) :
    (e.transform d).1 = (e.transform d').1 := by
  rw [transform_eq, transform_eq]
  exact keyStream.cipher.state_transform e d d' h

theorem transform_transform (e : Erseefor) (d : Bytes) :
    (e.transform (e.transform d).2).2 = d := by
  rw [transform_eq, transform_eq]
  exact keyStream.transform_transform e d

/-- `drop_key_init`. -/
def dropKeyInit : ℕ := 3072

/-- `transformer_erseefor`. -/
def create (key : Key) : Erseefor := (initKey key).drop dropKeyInit

end Erseefor

/-! ### ChaCha -/

/-- `ECRYPT_ctx`: the sixteen words of the cipher's input block. -/
abbrev ChachaCtx := Fin 16 → UInt32

namespace Chacha

/-- `ROTL32`. -/
def rotate (v : UInt32) (c : UInt32) : UInt32 := (v <<< c) ||| (v >>> (32 - c))

/-- `QUARTERROUND`. -/
def quarterRound (a b c d : Fin 16) (x : ChachaCtx) : ChachaCtx :=
  let x := Function.update x a (x a + x b)
  let x := Function.update x d (rotate (x d ^^^ x a) 16)
  let x := Function.update x c (x c + x d)
  let x := Function.update x b (rotate (x b ^^^ x c) 12)
  let x := Function.update x a (x a + x b)
  let x := Function.update x d (rotate (x d ^^^ x a) 8)
  let x := Function.update x c (x c + x d)
  Function.update x b (rotate (x b ^^^ x c) 7)

/-- Two of the twenty rounds: the columns, then the diagonals. -/
def doubleRound (x : ChachaCtx) : ChachaCtx :=
  let x := quarterRound 0 4 8 12 x
  let x := quarterRound 1 5 9 13 x
  let x := quarterRound 2 6 10 14 x
  let x := quarterRound 3 7 11 15 x
  let x := quarterRound 0 5 10 15 x
  let x := quarterRound 1 6 11 12 x
  let x := quarterRound 2 7 8 13 x
  quarterRound 3 4 9 14 x

/-- `U32TO8_LITTLE`. -/
def u32to8Little (v : UInt32) : Bytes :=
  [v.toUInt8, (v >>> 8).toUInt8, (v >>> 16).toUInt8, (v >>> 24).toUInt8]

/-- `salsa20_wordtobyte`: the 64 bytes of key stream of one block. -/
def wordToByte (input : ChachaCtx) : Bytes :=
  let x := doubleRound^[10] input
  (List.finRange 16).flatMap (fun i => u32to8Little (x i + input i))

/-- `U8TO32_LITTLE( p + off )`. -/
def u8to32Little (p : Bytes) (off : ℕ) : UInt32 :=
  (p.getD off 0).toUInt32 ||| ((p.getD (off + 1) 0).toUInt32 <<< 8) |||
    ((p.getD (off + 2) 0).toUInt32 <<< 16) ||| ((p.getD (off + 3) 0).toUInt32 <<< 24)

/-- `sigma`: `expand 32-byte k`. -/
def sigma : Bytes :=
  [0x65, 0x78, 0x70, 0x61, 0x6e, 0x64, 0x20, 0x33, 0x32, 0x2d, 0x62, 0x79, 0x74, 0x65, 0x20, 0x6b]

/-- `ECRYPT_keysetup` for a key of 256 bits, on a context cleared by the constructor. -/
def keySetup (k : Bytes) : ChachaCtx := fun i =>
  if i.1 < 4 then u8to32Little sigma (4 * i.1)
  else if i.1 < 12 then u8to32Little k (4 * (i.1 - 4))
  else 0

/-- The loop `while( key.size( ) < 32 ) key.append( transform_key, t_length )`; a round adds at
least one byte, so 32 rounds are enough. -/
def extendKey (transformKey : Bytes) : ℕ → Bytes → Bytes
  | 0, key => key
  | fuel + 1, key =>
      if key.length < 32 then extendKey transformKey fuel (key ++ transformKey) else key

/-- The constructor of `transformer_chacha`. -/
def create (key : Key) : ChachaCtx :=
  if key.1.length < 32 then keySetup ((extendKey key.1 32 []).take 32)
  else keySetup (key.1.take 32)

/-- The block counter: word 12, with a carry into word 13. -/
def bump (x : ChachaCtx) : ChachaCtx :=
  let x := Function.update x 12 (x 12 + 1)
  if x 12 = 0 then Function.update x 13 (x 13 + 1) else x

/-- The number of the block: the words 12 and 13. -/
def counter (x : ChachaCtx) : ℕ := (x 12).toNat + 2 ^ 32 * (x 13).toNat

/-- The loop of `ECRYPT_encrypt_bytes`, one block a round; the number of bytes bounds the
number of rounds. -/
def encryptLoop : ℕ → ChachaCtx → Bytes → ChachaCtx × Bytes
  | 0, x, m => (x, m)
  | fuel + 1, x, m =>
      let output := wordToByte x
      if m.length ≤ 64 then (bump x, List.zipWith (· ^^^ ·) m output)
      else
        let r := encryptLoop fuel (bump x) (m.drop 64)
        (r.1, List.zipWith (· ^^^ ·) (m.take 64) output ++ r.2)

/-- `ECRYPT_encrypt_bytes`. -/
def encryptBytes (x : ChachaCtx) (m : Bytes) : ChachaCtx × Bytes :=
  if m.length = 0 then (x, m) else encryptLoop m.length x m

/-- `transformer_chacha::transform`: the byte count is passed as a `u32`. -/
def transform (x : ChachaCtx) (data : Bytes) : ChachaCtx × Bytes :=
  let n := data.length % 2 ^ 32
  let r := encryptBytes x (data.take n)
  (r.1, r.2 ++ data.drop n)

theorem wordToByte_length (x : ChachaCtx) : (wordToByte x).length = 64 := by
  simp [wordToByte, List.length_flatMap, u32to8Little]

theorem encryptLoop_of_le {fuel : ℕ} {x : ChachaCtx} {m : Bytes} (h : m.length ≤ 64) :
    encryptLoop (fuel + 1) x m = (bump x, List.zipWith (· ^^^ ·) m (wordToByte x)) := by
  rw [encryptLoop, if_pos h]

theorem encryptLoop_of_gt {fuel : ℕ} {x : ChachaCtx} {m : Bytes} (h : 64 < m.length) :
    encryptLoop (fuel + 1) x m =
      ((encryptLoop fuel (bump x) (m.drop 64)).1,
        List.zipWith (· ^^^ ·) (m.take 64) (wordToByte x) ++
          (encryptLoop fuel (bump x) (m.drop 64)).2) := by
  rw [encryptLoop, if_neg (by omega)]

theorem zipWith_block_length {x : ChachaCtx} {m : Bytes} (h : 64 < m.length) :
    (List.zipWith (· ^^^ ·) (m.take 64) (wordToByte x)).length = 64 := by
  rw [List.length_zipWith, wordToByte_length, List.length_take]
  omega

theorem encryptLoop_length (fuel : ℕ) (x : ChachaCtx) (m : Bytes) :
    (encryptLoop fuel x m).2.length = m.length := by
  induction fuel generalizing x m with
  | zero => rfl
  | succ fuel ih =>
      rcases Nat.lt_or_ge 64 m.length with h | h
      · rw [encryptLoop_of_gt h, List.length_append, zipWith_block_length h, ih, List.length_drop]
        omega
      · rw [encryptLoop_of_le h, List.length_zipWith, wordToByte_length, min_eq_left h]

theorem encryptLoop_state (fuel : ℕ) (x : ChachaCtx) (m m' : Bytes) (h : m.length = m'.length) :
    (encryptLoop fuel x m).1 = (encryptLoop fuel x m').1 := by
  induction fuel generalizing x m m' with
  | zero => rfl
  | succ fuel ih =>
      rcases Nat.lt_or_ge 64 m.length with hm | hm
      · rw [encryptLoop_of_gt hm, encryptLoop_of_gt (by omega)]
        exact ih (bump x) _ _ (by rw [List.length_drop, List.length_drop, h])
      · rw [encryptLoop_of_le hm, encryptLoop_of_le (by omega)]

theorem xor_xor (a k : UInt8) : a ^^^ k ^^^ k = a := by
  rw [UInt8.xor_assoc, UInt8.xor_self, UInt8.xor_zero]

theorem encryptLoop_encryptLoop (fuel : ℕ) (x : ChachaCtx) (m : Bytes) :
    (encryptLoop fuel x (encryptLoop fuel x m).2).2 = m := by
  induction fuel generalizing x m with
  | zero => rfl
  | succ fuel ih =>
      have hlen := encryptLoop_length (fuel + 1) x m
      rcases Nat.lt_or_ge 64 m.length with h | h
      · have hblock := zipWith_block_length (x := x) h
        rw [encryptLoop_of_gt (by omega), encryptLoop_of_gt h]
        simp only
        rw [List.take_left' hblock, List.drop_left' hblock, ih,
          zipWith_zipWith_self xor_xor _ _ (by rw [wordToByte_length, List.length_take]; omega),
          List.take_append_drop]
      · rw [encryptLoop_of_le (by omega), encryptLoop_of_le h]
        exact zipWith_zipWith_self xor_xor _ _ (by rw [wordToByte_length]; exact h)

theorem encryptBytes_length (x : ChachaCtx) (m : Bytes) :
    (encryptBytes x m).2.length = m.length := by
  rw [encryptBytes]
  split_ifs
  · rfl
  · exact encryptLoop_length _ _ _

theorem encryptBytes_state (x : ChachaCtx) (m m' : Bytes) (h : m.length = m'.length) :
    (encryptBytes x m).1 = (encryptBytes x m').1 := by
  rw [encryptBytes, encryptBytes, h]
  split_ifs
  · rfl
  · exact encryptLoop_state _ _ _ _ h

theorem encryptBytes_encryptBytes (x : ChachaCtx) (m : Bytes) :
    (encryptBytes x (encryptBytes x m).2).2 = m := by
  have hlen := encryptBytes_length x m
  rw [encryptBytes, hlen]
  split_ifs with h
  · rw [encryptBytes, if_pos h]
  · rw [encryptBytes, if_neg h]
    exact encryptLoop_encryptLoop _ _ _

theorem transform_length (x : ChachaCtx) (d : Bytes) : (transform x d).2.length = d.length := by
  simp only [transform, List.length_append, encryptBytes_length, List.length_take, List.length_drop]
  omega

theorem transform_state (x : ChachaCtx) (d d' : Bytes) (h : d.length = d'.length) :
    (transform x d).1 = (transform x d').1 := by
  simp only [transform]
  rw [h]
  exact encryptBytes_state _ _ _ (by rw [List.length_take, List.length_take, h])

theorem transform_transform (x : ChachaCtx) (d : Bytes) :
    (transform x (transform x d).2).2 = d := by
  have hlen := transform_length x d
  have hpart : (encryptBytes x (d.take (d.length % 2 ^ 32))).2.length = d.length % 2 ^ 32 := by
    rw [encryptBytes_length, List.length_take]
    have := Nat.mod_le d.length (2 ^ 32)
    omega
  rw [transform]
  simp only [hlen]
  rw [transform]
  simp only
  rw [List.take_left' hpart, List.drop_left' hpart, encryptBytes_encryptBytes, List.take_append_drop]

end Chacha

/-! ### The transformer interface -/

/-- The transformers of `transformer::iface` with their states. -/
inductive Transformer where
  | none
  | erseefor (e : Erseefor)
  | chacha (x : ChachaCtx)

/-- The kinds of transformers. -/
inductive TransformerKind where
  | none
  | erseefor
  | chacha
deriving DecidableEq, Repr

namespace Transformer

def transform : Transformer → Bytes → Transformer × Bytes
  | none, data => (none, data)
  | erseefor e, data => (erseefor (e.transform data).1, (e.transform data).2)
  | chacha x, data => (chacha (Chacha.transform x data).1, (Chacha.transform x data).2)

/-- The transformer of a kind, created from a key. -/
def create : TransformerKind → Key → Transformer
  | .none, _ => none
  | .erseefor, key => erseefor (Erseefor.create key)
  | .chacha, key => chacha (Chacha.create key)

/-- Every transformer is a stream cipher. -/
def cipher : StreamCipher Transformer UInt8 where
  transform := transform
  length_transform t d := by
    cases t with
    | none => rfl
    | erseefor e => exact e.transform_length d
    | chacha x => exact Chacha.transform_length x d
  state_transform t d d' h := by
    cases t with
    | none => rfl
    | erseefor e => exact congrArg erseefor (e.transform_state d d' h)
    | chacha x => exact congrArg chacha (Chacha.transform_state x d d' h)
  transform_transform t d := by
    cases t with
    | none => rfl
    | erseefor e => exact e.transform_transform d
    | chacha x => exact Chacha.transform_transform x d

@[simp] theorem transform_length (t : Transformer) (d : Bytes) :
    (t.transform d).2.length = d.length :=
  cipher.length_transform t d

theorem advance_chacha_ne_none (x : ChachaCtx) (ms : List Bytes) :
    cipher.advance (chacha x) ms ≠ none := by
  induction ms generalizing x with
  | nil => exact fun h => by cases h
  | cons m ms ih => exact ih _

/-- A message transformed by one party and reverted by another that is in the same state comes
back unchanged, and the states stay the same. -/
theorem transform_transform (t : Transformer) (d : Bytes) :
    t.transform (t.transform d).2 = ((t.transform d).1, d) :=
  Prod.ext (cipher.state_transform_transform t d) (cipher.transform_transform t d)

end Transformer

/-! ### Derived keys -/

section
variable (sha256 : Bytes → Digest)

/-- `create_key`: `sha256( s2 + sha256( s1 + key ) )`. -/
def createKey (key s1 s2 : Bytes) : Digest :=
  let ts1 := sha256 (s1 ++ key)
  sha256 (s2 ++ ts1.1)

/-- A digest is long enough to be a key. -/
def Digest.toKey (d : Digest) : Key :=
  ⟨d.1, fun h => by
    have := d.2
    rw [h] at this
    exact absurd this (by decide)⟩

/-- The cipher that both handshakes install (`default_cypher` is `transformer::chacha`), keyed
by `create_key`. -/
def defaultCypher (key s1 s2 : Bytes) : Transformer :=
  .create .chacha (createKey sha256 key s1 s2).toKey

end

end Vtrc
