import Mathlib.Data.List.Basic
import Mathlib.Tactic.SplitIfs

/-! # Frames of a stream that arrives in pieces

A stream is the concatenation of frames `fs : List (List α)` and arrives in pieces whose
borders have nothing to do with the frames.  `ended fs n` is the number of frames that lie
completely within the first `n` elements of the stream; a receiver that cuts frames off its
buffer as soon as they are complete has cut off exactly these after `n` elements.

* `split_ended` describes a prefix of the stream: the ended frames followed by a proper part
  of the next one.
* `ended_add` counts in two steps, `rest_add` is what they leave, `ended_flatten` counts the
  whole stream.
* `arrivals fs n cs` lists, for pieces of lengths `cs` starting at offset `n`, how many frames
  end in each of them, `completing` counts the pieces in which one does. -/

namespace Vtrc.Framing

variable {α : Type*}

/-- The number of frames that lie within the first `n` elements of the stream. -/
def ended : List (List α) → ℕ → ℕ
  | [], _ => 0
  | f :: fs, n => if f.length ≤ n then ended fs (n - f.length) + 1 else 0

@[simp] theorem ended_nil (n : ℕ) : ended ([] : List (List α)) n = 0 := rfl

theorem ended_cons_of_le {f : List α} {fs : List (List α)} {n : ℕ} (h : f.length ≤ n) :
    ended (f :: fs) n = ended fs (n - f.length) + 1 := by
  rw [ended, if_pos h]

theorem ended_cons_of_lt {f : List α} {fs : List (List α)} {n : ℕ} (h : n < f.length) :
    ended (f :: fs) n = 0 := by
  rw [ended, if_neg (by omega)]

theorem ended_zero {fs : List (List α)} (h : ∀ f ∈ fs, f ≠ []) : ended fs 0 = 0 := by
  cases fs with
  | nil => rfl
  | cons f fs => exact ended_cons_of_lt (List.length_pos_iff.mpr (h f List.mem_cons_self))

theorem ended_le_length (fs : List (List α)) (n : ℕ) : ended fs n ≤ fs.length := by
  induction fs generalizing n with
  | nil => simp
  | cons f fs ih =>
      rw [ended]
      split_ifs
      · simpa using ih (n - f.length)
      · omega

theorem ended_flatten (fs : List (List α)) : ended fs fs.flatten.length = fs.length := by
  induction fs with
  | nil => rfl
  | cons f fs ih =>
      rw [ended_cons_of_le (by simp)]
      simp only [List.flatten_cons, List.length_append, List.length_cons]
      rw [Nat.add_sub_cancel_left, ih]

/-- What is left of a buffer after the frames that ended in it have been cut off. -/
def rest (fs : List (List α)) (data : List α) : List α :=
  data.drop (fs.take (ended fs data.length)).flatten.length

/-- The buffer is a proper beginning of the first of the frames `fs`, or empty when there is
no frame. -/
def Partial (fs : List (List α)) (data : List α) : Prop :=
  match fs with
  | [] => data = []
  | f :: _ => data.length < f.length

theorem partial_nil {fs : List (List α)} (h : ∀ f ∈ fs, f ≠ []) : Partial fs [] := by
  cases fs with
  | nil => rfl
  | cons f fs => exact List.length_pos_iff.mpr (h f List.mem_cons_self)

theorem Partial.snoc {fs : List (List α)} {f data : List α} (h : Partial fs data) (hf : f ≠ []) :
    Partial (fs ++ [f]) data := by
  cases fs with
  | nil =>
      obtain rfl : data = [] := h
      exact List.length_pos_iff.mpr hf
  | cons g fs => exact h

theorem head_complete {f data tail s : List α} (hle : f.length ≤ data.length)
    (h : data ++ tail = f ++ s) : ∃ d, data = f ++ d ∧ d ++ tail = s := by
  obtain ⟨d, rfl⟩ : f <+: data :=
    List.prefix_of_prefix_length_le ⟨s, rfl⟩ ⟨tail, h⟩ hle
  rw [List.append_assoc] at h
  exact ⟨d, rfl, List.append_cancel_left h⟩

theorem ended_cons_append (f : List α) (fs : List (List α)) (d : List α) :
    ended (f :: fs) (f ++ d).length = ended fs d.length + 1 := by
  rw [ended_cons_of_le (by simp), List.length_append, Nat.add_sub_cancel_left]

theorem rest_cons_append (f : List α) (fs : List (List α)) (d : List α) :
    rest (f :: fs) (f ++ d) = rest fs d := by
  rw [rest, ended_cons_append, List.take_succ_cons, List.flatten_cons, List.length_append,
    List.drop_append, rest]
  simp

/-- A prefix of a stream of frames is the ended frames followed by a proper part of the next. -/
theorem split_ended (fs : List (List α)) (data tail : List α) (h : data ++ tail = fs.flatten) :
    data = (fs.take (ended fs data.length)).flatten ++ rest fs data ∧
      rest fs data ++ tail = (fs.drop (ended fs data.length)).flatten ∧
      Partial (fs.drop (ended fs data.length)) (rest fs data) := by
  induction fs generalizing data with
  | nil =>
      obtain ⟨rfl, rfl⟩ := List.append_eq_nil_iff.mp h
      exact ⟨rfl, rfl, rfl⟩
  | cons f fs ih =>
      rcases Nat.lt_or_ge data.length f.length with hlt | hge
      · simp only [rest, ended_cons_of_lt hlt, List.take_zero, List.drop_zero, List.flatten_nil,
          List.length_nil, List.nil_append]
        exact ⟨trivial, h, hlt⟩
      · obtain ⟨d, rfl, hd⟩ := head_complete hge h
        obtain ⟨h₁, h₂, h₃⟩ := ih d hd
        rw [ended_cons_append, rest_cons_append, List.take_succ_cons, List.drop_succ_cons,
          List.flatten_cons, List.append_assoc, ← h₁]
        exact ⟨rfl, h₂, h₃⟩

/-- Counting in two steps: the frames that end in `data`, then those that end in `more`. -/
theorem ended_add (fs : List (List α)) (data more tail : List α)
    (h : data ++ (more ++ tail) = fs.flatten) :
    ended fs (data ++ more).length =
      ended fs data.length + ended (fs.drop (ended fs data.length)) (rest fs data ++ more).length := by
  induction fs generalizing data with
  | nil => rfl
  | cons f fs ih =>
      rcases Nat.lt_or_ge data.length f.length with hlt | hge
      · simp [rest, ended_cons_of_lt hlt]
      · obtain ⟨d, rfl, hd⟩ := head_complete hge h
        rw [List.append_assoc, ended_cons_append, ended_cons_append, rest_cons_append,
          List.drop_succ_cons, ih d hd]
        omega

theorem rest_add (fs : List (List α)) (data more tail : List α)
    (h : data ++ (more ++ tail) = fs.flatten) :
    rest fs (data ++ more) = rest (fs.drop (ended fs data.length)) (rest fs data ++ more) := by
  induction fs generalizing data with
  | nil => rfl
  | cons f fs ih =>
      rcases Nat.lt_or_ge data.length f.length with hlt | hge
      · simp [rest, ended_cons_of_lt hlt]
      · obtain ⟨d, rfl, hd⟩ := head_complete hge h
        rw [List.append_assoc, rest_cons_append, ended_cons_append, rest_cons_append,
          List.drop_succ_cons, ih d hd]

/-! ### Pieces of a stream -/

/-- How many frames end in each of the pieces of lengths `cs` that follow offset `n`. -/
def arrivals (fs : List (List α)) : ℕ → List ℕ → List ℕ
  | _, [] => []
  | n, c :: cs => (ended fs (n + c) - ended fs n) :: arrivals fs (n + c) cs

/-- The number of pieces in which at least one frame ends. -/
def completing (fs : List (List α)) (n : ℕ) (cs : List ℕ) : ℕ :=
  ((arrivals fs n cs).filter (0 < ·)).length

theorem completing_cons (fs : List (List α)) (n c : ℕ) (cs : List ℕ) :
    completing fs n (c :: cs) =
      (if ended fs n < ended fs (n + c) then 1 else 0) + completing fs (n + c) cs := by
  rw [completing, arrivals, List.filter_cons]
  have hiff : decide (0 < ended fs (n + c) - ended fs n) = decide (ended fs n < ended fs (n + c)) := by
    congr 1
    exact propext Nat.sub_pos_iff_lt
  rw [hiff]
  by_cases h : ended fs n < ended fs (n + c) <;> simp [h, completing, Nat.add_comm]

end Vtrc.Framing
