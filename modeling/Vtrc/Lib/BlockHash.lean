import Mathlib.Data.List.Induction
import Mathlib.Algebra.Order.Ring.Nat

/-! # Hashing by blocks

A compression function takes a state and a block of `b` elements to the next state.  `absorb`
runs it over all the complete blocks of a message and `leftover` is what remains behind them.
A hash pads the message to complete blocks and absorbs the whole.

* `absorb_block` and `absorb_of_lt` are the two steps of the recursion.
* `absorb_append` and `leftover_append`: a message may come in pieces, with the leftover put in
  front of the next piece.
* `feed_foldl`: so a hasher that keeps its state and the leftover computes the hash of the
  concatenation of its pieces. -/

namespace Vtrc.BlockHash

variable {S β : Type*}

/-- `n` blocks from the front of a message, one after another. -/
def absorbBlocks (b : ℕ) (f : S → List β → S) : ℕ → S → List β → S
  | 0, s, _ => s
  | n + 1, s, data => absorbBlocks b f n (f s (data.take b)) (data.drop b)

/-- All the complete blocks of a message. -/
def absorb (b : ℕ) (f : S → List β → S) (s : S) (data : List β) : S :=
  absorbBlocks b f (data.length / b) s data

/-- What remains behind the complete blocks. -/
def leftover (b : ℕ) (data : List β) : List β := data.drop (b * (data.length / b))

theorem leftover_length (b : ℕ) (data : List β) :
    (leftover b data).length = data.length % b := by
  rw [leftover, List.length_drop]
  exact (Nat.mod_eq_sub_mul_div).symm

variable {b : ℕ} {f : S → List β → S}

theorem absorb_of_lt (s : S) {data : List β} (h : data.length < b) : absorb b f s data = s := by
  rw [absorb, Nat.div_eq_of_lt h, absorbBlocks]

theorem leftover_of_lt {data : List β} (h : data.length < b) : leftover b data = data := by
  simp [leftover, Nat.div_eq_of_lt h]

private theorem length_div (hb : 0 < b) {block : List β} (hblock : block.length = b)
    (data : List β) : (block ++ data).length / b = data.length / b + 1 := by
  rw [List.length_append, hblock, Nat.add_comm, Nat.add_div_right _ hb]

theorem absorb_block (hb : 0 < b) (s : S) {block : List β} (hblock : block.length = b)
    (data : List β) : absorb b f s (block ++ data) = absorb b f (f s block) data := by
  rw [absorb, length_div hb hblock, absorbBlocks, List.take_left' hblock, List.drop_left' hblock,
    absorb]

theorem leftover_block (hb : 0 < b) {block : List β} (hblock : block.length = b)
    (data : List β) : leftover b (block ++ data) = leftover b data := by
  rw [leftover, length_div hb hblock, Nat.mul_succ, Nat.add_comm, ← List.drop_drop,
    List.drop_left' hblock, leftover]

theorem block_cases (hb : 0 < b) (data : List β) :
    data.length < b ∨ ∃ block rest, block.length = b ∧ rest.length < data.length ∧
      data = block ++ rest := by
  rcases Nat.lt_or_ge data.length b with h | h
  · exact Or.inl h
  · refine Or.inr ⟨data.take b, data.drop b, ?_, ?_, (List.take_append_drop b data).symm⟩
    · rw [List.length_take, Nat.min_eq_left h]
    · rw [List.length_drop]
      omega

theorem absorb_append (hb : 0 < b) (s : S) (front back : List β) :
    absorb b f s (front ++ back) = absorb b f (absorb b f s front) (leftover b front ++ back) := by
  induction hn : front.length using Nat.strong_induction_on generalizing s front with
  | _ n ih =>
      subst hn
      rcases block_cases hb front with h | ⟨block, rest, hblock, hrest, rfl⟩
      · rw [absorb_of_lt s h, leftover_of_lt h]
      · rw [List.append_assoc, absorb_block hb s hblock, absorb_block hb s hblock,
          leftover_block hb hblock, ih rest.length hrest (f s block) rest rfl]

theorem leftover_append (hb : 0 < b) (front back : List β) :
    leftover b (front ++ back) = leftover b (leftover b front ++ back) := by
  induction hn : front.length using Nat.strong_induction_on generalizing front with
  | _ n ih =>
      subst hn
      rcases block_cases hb front with h | ⟨block, rest, hblock, hrest, rfl⟩
      · rw [leftover_of_lt h]
      · rw [List.append_assoc, leftover_block hb hblock, leftover_block hb hblock,
          ih rest.length hrest rest rfl]

/-! ### Messages in pieces -/

/-- The next piece of a message, with what was left over put in front of it. -/
def feed (b : ℕ) (f : S → List β → S) (c : S × List β) (piece : List β) : S × List β :=
  (absorb b f c.1 (c.2 ++ piece), leftover b (c.2 ++ piece))

theorem feed_foldl (hb : 0 < b) (s : S) (pieces : List (List β)) :
    pieces.foldl (feed b f) (s, []) =
      (absorb b f s pieces.flatten, leftover b pieces.flatten) := by
  induction pieces using List.reverseRecOn with
  | nil => simp [absorb_of_lt, leftover_of_lt, hb]
  | append_singleton pieces piece ih =>
      rw [List.foldl_append, ih, List.flatten_append, List.flatten_singleton, absorb_append hb,
        leftover_append hb]
      rfl

/-- The hash of a message with a padding behind it. -/
def digest (b : ℕ) (f : S → List β → S) (s : S) (padding : ℕ → List β) (data : List β) : S :=
  absorb b f s (data ++ padding data.length)

/-- **Hashing in pieces.**  The padding behind what is left over completes the hash of the
whole. -/
theorem digest_of_feed (hb : 0 < b) (s : S) (padding : ℕ → List β) (pieces : List (List β)) :
    digest b f s padding pieces.flatten =
      absorb b f (pieces.foldl (feed b f) (s, [])).1
        ((pieces.foldl (feed b f) (s, [])).2 ++ padding pieces.flatten.length) := by
  rw [feed_foldl hb, digest, absorb_append hb]

end Vtrc.BlockHash
