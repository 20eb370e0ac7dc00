import Mathlib.Data.List.Basic
import Mathlib.Logic.Function.Iterate
import Mathlib.Algebra.BigOperators.Group.List.Basic

/-! # Ciphers that work like a key stream

A `StreamCipher σ α` transforms messages over `α` and carries a state `σ` from one message to
the next.  Its three laws say that it keeps the length of a message, that its next state
depends on the length of the message only, and that transforming twice from the same state
gives the message back.  Two parties that start in the same state and see messages of the
same lengths in the same order therefore stay in step.  `encode` is what the sender does to a list
of messages and `advance` the state it leaves behind.

A `KeyStream` makes such a cipher out of a state that moves on for each element and of what it
does to the element.  Only for these may a message be cut into pieces
(`KeyStream.transform_append`), and moving on without a message is the same as transforming one
(`KeyStream.transform_fst`).

A `BlockStream` gives its key stream in blocks, one for each state, and starts a new block with
each message.  A message may be cut where a block ends (`BlockStream.transform_append`). -/

namespace Vtrc

/-- A message transformer with a state, its next state driven by the lengths of the messages,
and each of its transformations its own inverse. -/
structure StreamCipher (σ α : Type*) where
  transform : σ → List α → σ × List α
  length_transform : ∀ s d, (transform s d).2.length = d.length
  state_transform : ∀ s d d', d.length = d'.length → (transform s d).1 = (transform s d').1
  transform_transform : ∀ s d, (transform s (transform s d).2).2 = d

namespace StreamCipher

variable {σ α : Type*} (C : StreamCipher σ α)

/-- Transforming what was transformed leads to the same state as transforming the original. -/
theorem state_transform_transform (s : σ) (d : List α) :
    (C.transform s (C.transform s d).2).1 = (C.transform s d).1 :=
  C.state_transform s _ _ (C.length_transform s d)

/-- The messages `ms` transformed one after the other. -/
def encode : σ → List (List α) → List (List α)
  | _, [] => []
  | s, m :: ms => (C.transform s m).2 :: encode (C.transform s m).1 ms

/-- The state after the messages `ms`. -/
def advance : σ → List (List α) → σ
  | s, [] => s
  | s, m :: ms => advance (C.transform s m).1 ms

theorem advance_append (s : σ) (ms ns : List (List α)) :
    C.advance s (ms ++ ns) = C.advance (C.advance s ms) ns := by
  induction ms generalizing s with
  | nil => rfl
  | cons m ms ih => exact ih _

theorem encode_append (s : σ) (ms ns : List (List α)) :
    C.encode s (ms ++ ns) = C.encode s ms ++ C.encode (C.advance s ms) ns := by
  induction ms generalizing s with
  | nil => rfl
  | cons m ms ih => rw [List.cons_append, encode, ih, encode, List.cons_append, advance]

@[simp] theorem encode_length (s : σ) (ms : List (List α)) :
    (C.encode s ms).length = ms.length := by
  induction ms generalizing s with
  | nil => rfl
  | cons m ms ih => rw [encode, List.length_cons, ih, List.length_cons]

theorem encode_getElem? (s : σ) (ms : List (List α)) (i : ℕ) :
    (C.encode s ms)[i]? = ms[i]?.map (fun m => (C.transform (C.advance s (ms.take i)) m).2) := by
  induction ms generalizing s i with
  | nil => rfl
  | cons m ms ih =>
      cases i with
      | zero => rfl
      | succ i =>
          rw [encode, List.getElem?_cons_succ, ih, List.getElem?_cons_succ, List.take_succ_cons,
            advance]

end StreamCipher

/-! ### Key streams -/

/-- A state that moves on for each element, and what the state after the move does to it. -/
structure KeyStream (σ α : Type*) where
  next : σ → σ
  mask : σ → α → α
  mask_mask : ∀ s a, mask s (mask s a) = a

namespace KeyStream

variable {σ α : Type*} (K : KeyStream σ α)

def transform : σ → List α → σ × List α
  | s, [] => (s, [])
  | s, a :: d => ((transform (K.next s) d).1, K.mask (K.next s) a :: (transform (K.next s) d).2)

theorem transform_fst (s : σ) (d : List α) : (K.transform s d).1 = K.next^[d.length] s := by
  induction d generalizing s with
  | nil => rfl
  | cons a d ih => exact ih (K.next s)

theorem transform_length (s : σ) (d : List α) : (K.transform s d).2.length = d.length := by
  induction d generalizing s with
  | nil => rfl
  | cons a d ih => rw [transform, List.length_cons, ih, List.length_cons]

theorem transform_transform (s : σ) (d : List α) : (K.transform s (K.transform s d).2).2 = d := by
  induction d generalizing s with
  | nil => rfl
  | cons a d ih => rw [transform, transform, ih, K.mask_mask]

theorem transform_append (s : σ) (d d' : List α) :
    K.transform s (d ++ d') =
      ((K.transform (K.transform s d).1 d').1,
        (K.transform s d).2 ++ (K.transform (K.transform s d).1 d').2) := by
  induction d generalizing s with
  | nil => rfl
  | cons a d ih => rw [List.cons_append, transform, ih, transform, List.cons_append]

/-- A key stream is a stream cipher. -/
def cipher : StreamCipher σ α where
  transform := K.transform
  length_transform := K.transform_length
  state_transform s d d' h := by rw [K.transform_fst, K.transform_fst, h]
  transform_transform := K.transform_transform

end KeyStream

/-! ### Combining with a key stream -/

/-- Combining with the same key twice gives the message back, when combining undoes itself. -/
theorem zipWith_zipWith_self {α : Type*} {op : α → α → α} (hop : ∀ a k, op (op a k) k = a)
    (d key : List α) (h : d.length ≤ key.length) :
    List.zipWith op (List.zipWith op d key) key = d := by
  induction d generalizing key with
  | nil => simp
  | cons a d ih =>
      cases key with
      | nil => simp at h
      | cons k key =>
          simp only [List.zipWith_cons_cons, hop]
          rw [ih key (by simpa using h)]

/-! ### Key streams in blocks -/

/-- A state that gives a block of keys and moves on for each block. -/
structure BlockStream (σ α : Type*) where
  size : ℕ
  size_pos : 0 < size
  next : σ → σ
  block : σ → List α
  length_block : ∀ s, (block s).length = size
  op : α → α → α

namespace BlockStream

variable {σ α : Type*} (B : BlockStream σ α)

/-- The number of blocks that a message uses up. -/
def count (d : List α) : ℕ := (d.length + B.size - 1) / B.size

/-- The keys of the next `n` blocks. -/
def keys (s : σ) (n : ℕ) : List α := (List.range n).flatMap (fun i => B.block (B.next^[i] s))

def transform (s : σ) (d : List α) : σ × List α :=
  (B.next^[B.count d] s, List.zipWith B.op d (B.keys s (B.count d)))

@[simp] theorem keys_zero (s : σ) : B.keys s 0 = [] := rfl

theorem keys_succ (s : σ) (n : ℕ) : B.keys s (n + 1) = B.block s ++ B.keys (B.next s) n := by
  simp only [keys, List.range_succ_eq_map, List.flatMap_cons, List.flatMap_map,
    Function.iterate_zero, id_eq, Function.iterate_succ_apply]

@[simp] theorem keys_length (s : σ) (n : ℕ) : (B.keys s n).length = n * B.size := by
  induction n generalizing s with
  | zero => simp
  | succ n ih => rw [keys_succ, List.length_append, B.length_block, ih, Nat.succ_mul, Nat.add_comm]

theorem keys_add (s : σ) (m n : ℕ) : B.keys s (m + n) = B.keys s m ++ B.keys (B.next^[m] s) n := by
  induction m generalizing s with
  | zero => simp
  | succ m ih =>
      rw [Nat.add_right_comm, keys_succ, ih, keys_succ, List.append_assoc,
        Function.iterate_succ_apply]

@[simp] theorem count_nil : B.count [] = 0 := by
  have := B.size_pos
  rw [count, List.length_nil, Nat.div_eq_of_lt (by omega)]

theorem count_of_ne_nil {d : List α} (h : d ≠ []) : B.count d = B.count (d.drop B.size) + 1 := by
  have hpos := List.length_pos_iff.mpr h
  have hsize := B.size_pos
  rw [count, count, List.length_drop]
  rcases Nat.lt_or_ge B.size d.length with hlt | hle
  · have hsplit : d.length + B.size - 1 = (d.length - B.size + B.size - 1) + B.size := by omega
    rw [hsplit, Nat.add_div_right _ hsize]
  · have hzero : d.length - B.size + B.size - 1 = B.size - 1 := by omega
    have hone : d.length + B.size - 1 = (d.length - 1) + B.size := by omega
    rw [hzero, hone, Nat.add_div_right _ hsize, Nat.div_eq_of_lt (by omega),
      Nat.div_eq_of_lt (by omega)]

theorem count_of_length {d : List α} {k : ℕ} (h : d.length = B.size * k) : B.count d = k := by
  have hsize := B.size_pos
  rw [count, h, Nat.add_sub_assoc hsize, Nat.add_comm, Nat.add_mul_div_left _ _ hsize,
    Nat.div_eq_of_lt (by omega), Nat.zero_add]

theorem count_append {d d' : List α} {k : ℕ} (h : d.length = B.size * k) :
    B.count (d ++ d') = k + B.count d' := by
  have hsize := B.size_pos
  have hsum : (d ++ d').length + B.size - 1 = (d'.length + B.size - 1) + B.size * k := by
    rw [List.length_append, h]
    omega
  rw [count, count, hsum, Nat.add_mul_div_left _ _ hsize, Nat.add_comm]

theorem transform_append (s : σ) {d d' : List α} (h : B.size ∣ d.length) :
    B.transform s (d ++ d') =
      ((B.transform (B.transform s d).1 d').1,
        (B.transform s d).2 ++ (B.transform (B.transform s d).1 d').2) := by
  obtain ⟨k, hk⟩ := h
  have hlen : d.length = (B.keys s k).length := by
    rw [keys_length, hk, Nat.mul_comm]
  simp only [transform]
  rw [B.count_append hk, B.count_of_length hk, B.keys_add, List.zipWith_append hlen, Nat.add_comm,
    Function.iterate_add_apply]

end BlockStream

end Vtrc
