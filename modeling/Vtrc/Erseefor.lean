import Vtrc.Transformer
import Mathlib.Algebra.Group.End
import Mathlib.Algebra.BigOperators.Group.List.Basic

/-! # The laws of erseefor (`erseefor.h`)

`Transformer.lean` models the array `state_` as a function on bytes.  `PermState` is the same
cipher with a permutation of the bytes in its place: no swap can leave the permutations, so this
is a matter of types.  `state_initKey` and `state_next` connect the two, hence every state of the
code comes from a permutation (`calls_bijective`).

Neither `drop` nor `transform` reads anything of its argument but the length when it moves the
state on; `calls_eq` says how far a sequence of calls moves it.  With the laws of key streams
(`Lib/StreamCipher.lean`) this gives `stream_laws`. -/

namespace Vtrc

namespace Erseefor

/-! ### The state is a permutation -/

/-- The cipher with a permutation as its state. -/
structure PermState where
  perm : Equiv.Perm UInt8
  si1 : UInt8
  si2 : UInt8

namespace PermState

/-- The state of the code. -/
def state (p : PermState) : Erseefor := ⟨p.perm, p.si1, p.si2⟩

/-- One round of the key schedule: the permutation is composed with a transposition. -/
def initKeyStep (key : Key) (r : Equiv.Perm UInt8 × UInt8) (i : ℕ) : Equiv.Perm UInt8 × UInt8 :=
  let j := UInt8.ofNat i
  let k := r.2 + (r.1 j + key.1.getD (i % key.1.length) 0)
  (r.1 * Equiv.swap j k, k)

def initKey (key : Key) : PermState :=
  ⟨((List.range 256).foldl (initKeyStep key) (1, 0)).1, 0, 0⟩

def next (p : PermState) : PermState :=
  let si1 := p.si1 + 1
  let si2 := p.si2 + p.perm si1
  ⟨p.perm * Equiv.swap si1 si2, si1, si2⟩

end PermState

/-- `swap_bytes` composes with a transposition, also when both indices coincide. -/
theorem swapBytes_perm (π : Equiv.Perm UInt8) (a b : UInt8) :
    swapBytes π a b = (π * Equiv.swap a b : Equiv.Perm UInt8) := by
  funext i
  rw [Equiv.Perm.mul_apply, Equiv.swap_apply_def]
  unfold swapBytes
  split_ifs <;> rfl

theorem foldl_initKeyStep (key : Key) (rounds : List ℕ) (r : Equiv.Perm UInt8 × UInt8) :
    rounds.foldl (initKeyStep key) (⇑r.1, r.2) =
      (⇑(rounds.foldl (PermState.initKeyStep key) r).1,
        (rounds.foldl (PermState.initKeyStep key) r).2) := by
  induction rounds generalizing r with
  | nil => rfl
  | cons i rounds ih =>
      rw [List.foldl_cons, List.foldl_cons, ← ih]
      unfold initKeyStep PermState.initKeyStep
      simp only [swapBytes_perm]

theorem state_initKey (key : Key) : (PermState.initKey key).state = initKey key := by
  have h := foldl_initKeyStep key (List.range 256) (1, 0)
  unfold initKey
  rw [Equiv.Perm.coe_one] at h
  rw [h]
  rfl

theorem state_next (p : PermState) : p.next.state = p.state.next := by
  unfold next PermState.next PermState.state
  simp only [swapBytes_perm]

theorem state_iterate_next (p : PermState) (n : ℕ) :
    (PermState.next^[n] p).state = next^[n] p.state := by
  induction n generalizing p with
  | zero => rfl
  | succ n ih => rw [Function.iterate_succ_apply, Function.iterate_succ_apply, ih, state_next]

/-! ### Sequences of calls -/

/-- A call of `drop` or of `transform`. -/
inductive Call where
  | drop (count : ℕ)
  | transform (data : Bytes)
deriving DecidableEq, Repr

/-- The number of bytes of key stream that the call uses up. -/
def Call.length : Call → ℕ
  | .drop count => count
  | .transform data => data.length

/-- The state after a call. -/
def call (e : Erseefor) : Call → Erseefor
  | .drop count => e.drop count
  | .transform data => (e.transform data).1

/-- The state after a sequence of calls. -/
def calls (e : Erseefor) (cs : List Call) : Erseefor := cs.foldl call e

/-- `transform` of one piece after the other: the state, and all the bytes. -/
def transformAll (e : Erseefor) : List Bytes → Erseefor × Bytes
  | [] => (e, [])
  | d :: ds =>
      let r := transformAll (e.transform d).1 ds
      (r.1, (e.transform d).2 ++ r.2)

theorem transform_flatten (e : Erseefor) (pieces : List Bytes) :
    e.transform pieces.flatten = e.transformAll pieces := by
  induction pieces generalizing e with
  | nil => rfl
  | cons d ds ih =>
      rw [List.flatten_cons, transform_eq, keyStream.transform_append, ← transform_eq,
        ← transform_eq, ih]
      rfl

theorem transform_fst (e : Erseefor) (d : Bytes) : (e.transform d).1 = e.drop d.length := by
  rw [transform_eq]
  exact keyStream.transform_fst e d

theorem call_eq (e : Erseefor) (c : Call) : e.call c = next^[c.length] e := by
  cases c with
  | drop count => rfl
  | transform data => exact transform_fst e data

theorem calls_eq (e : Erseefor) (cs : List Call) :
    e.calls cs = next^[(cs.map Call.length).sum] e := by
  induction cs generalizing e with
  | nil => rfl
  | cons c cs ih =>
      have hcons : e.calls (c :: cs) = (e.call c).calls cs := rfl
      rw [hcons, ih, call_eq, List.map_cons, List.sum_cons, Nat.add_comm,
        Function.iterate_add_apply]

/-- No sequence of calls leaves the permutations. -/
theorem calls_bijective (key : Key) (cs : List Call) :
    Function.Bijective ((initKey key).calls cs).state := by
  rw [calls_eq, ← state_initKey, ← state_iterate_next]
  exact Equiv.bijective _

/-- The transformer of a session is an instance on which `drop` was called first. -/
theorem create_eq (key : Key) : create key = (initKey key).calls [.drop dropKeyInit] := by
  unfold create calls
  rw [List.foldl_cons, List.foldl_nil, call]

/-- **The laws of erseefor.**  Whatever was called on an instance: its state is a permutation of
the bytes; a message may be cut into pieces; `drop` leaves the state that `transform` leaves; and
an instance of the same key on which calls of the same lengths were made turns what was transformed
back into the message, and both are in the same state again. -/
theorem stream_laws (key : Key) (cs : List Call) :
    Function.Bijective ((initKey key).calls cs).state ∧
      (∀ pieces : List Bytes, ((initKey key).calls cs).transform pieces.flatten =
        ((initKey key).calls cs).transformAll pieces) ∧
      (∀ data : Bytes, ((initKey key).calls cs).drop data.length =
        (((initKey key).calls cs).transform data).1) ∧
      (∀ cs', cs'.map Call.length = cs.map Call.length → ∀ m : Bytes,
        ((initKey key).calls cs').transform (((initKey key).calls cs).transform m).2 =
          ((((initKey key).calls cs).transform m).1, m)) := by
  refine ⟨calls_bijective key cs, transform_flatten _, ?_, ?_⟩
  · intro data
    rw [transform_fst]
  · intro cs' h m
    have hsame : (initKey key).calls cs' = (initKey key).calls cs := by
      rw [calls_eq, calls_eq, h]
    rw [hsame]
    apply Prod.ext
    · exact transform_state _ _ _ (transform_length _ m)
    · exact transform_transform _ m

end Erseefor

end Vtrc
