import Mathlib.Data.List.Basic

/-! # Singly linked chains

A `next` pointer on each element and a list of elements: `Linked next as` says that the pointers
lead through the list and end with it, and `walk next n start` is what is met in `n` steps from
`start`.

* `linked_iff` reads the links by position.
* `Linked.walk_eq_take` is the walk along a linked list, so such a walk never leaves it.
* `Linked.congr` keeps a list linked when no element of it changes. -/

namespace Vtrc.Chain

variable {α : Type*} {next next' : α → Option α}

/-- `next` leads from each element of the list to the following one, and from the last one to
nothing. -/
def Linked (next : α → Option α) : List α → Prop
  | [] => True
  | a :: as => next a = as.head? ∧ Linked next as

/-- The elements met in `n` steps. -/
def walk (next : α → Option α) : ℕ → Option α → List α
  | 0, _ => []
  | _ + 1, none => []
  | n + 1, some a => a :: walk next n (next a)

@[simp] theorem walk_none (n : ℕ) : walk next n none = [] := by
  cases n <;> rfl

theorem linked_iff {as : List α} :
    Linked next as ↔ ∀ (i : ℕ) (a : α), as[i]? = some a → next a = as[i + 1]? := by
  induction as with
  | nil => simp [Linked]
  | cons a as ih =>
      rw [Linked, ih]
      constructor
      · rintro ⟨ha, has⟩ i b hb
        cases i with
        | zero =>
            obtain rfl := Option.some.inj hb
            simpa [List.head?_eq_getElem?] using ha
        | succ i => exact has i b hb
      · intro h
        refine ⟨?_, fun i b hb => h (i + 1) b hb⟩
        simpa [List.head?_eq_getElem?] using h 0 a rfl

theorem Linked.congr {as : List α} (h : Linked next as) (hsame : ∀ a ∈ as, next' a = next a) :
    Linked next' as := by
  induction as with
  | nil => trivial
  | cons a as ih =>
      refine ⟨?_, ih h.2 (fun b hb => hsame b (List.mem_cons_of_mem a hb))⟩
      rw [hsame a List.mem_cons_self, h.1]

/-- **The walk rule.**  A walk from the front of a linked list goes along the list. -/
theorem Linked.walk_eq_take {as : List α} (h : Linked next as) (n : ℕ) :
    walk next n as.head? = as.take n := by
  induction as generalizing n with
  | nil => simp
  | cons a as ih =>
      cases n with
      | zero => rfl
      | succ n =>
          rw [List.take_succ_cons, ← ih h.2 n, ← h.1]
          rfl

end Vtrc.Chain
