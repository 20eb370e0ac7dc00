import Vtrc.Lib.Links
import Mathlib.Algebra.Order.Ring.Nat
import Mathlib.Data.Fintype.Card

/-! # The list of the signals (`details/list.h`)

A list object has the pointers `front_` and `back_` to nodes on the heap and the counter `size_`;
a node has `prev_`, `next_` and its data.  Pointers and `size_t` have `w` bits, a pointer that is
not null is a `Ptr w`, and the heap says which addresses `new` has given out.  An operation that
dereferences a null pointer or an address that is not allocated is undefined: it has no result.
The address of a new node is an argument, and must not be in use.

`Holds` says that an object and the heap represent a sequence of nodes, `Changes` what the
operations may do to the heap outside of it, and each operation has one lemma that says how it
changes the sequence and the counter. -/

namespace Vtrc

namespace Details

open Links

/-- The address of a node: a pointer that is not null. -/
abbrev Ptr (w : ℕ) := { p : BitVec w // p ≠ 0 }

/-- `node`. -/
abbrev Node (w : ℕ) (α : Type) := Cell (Ptr w) α

abbrev NodeHeap (w : ℕ) (α : Type) := Heap (Ptr w) α

/-- The `node_` of an iterator; `end( )` and `rend( )` are null. -/
abbrev Iterator (w : ℕ) := Option (Ptr w)

/-- `list`. -/
structure NodeList (w : ℕ) where
  front : Option (Ptr w) := none
  back : Option (Ptr w) := none
  size : BitVec w := 0
deriving DecidableEq, Repr

namespace NodeList

variable {w : ℕ} {α : Type}

/-! ### The operations -/

/-- `new node( data )` at the address `n`. -/
def newNode (h : NodeHeap w α) (n : Ptr w) (data : α) : Option (NodeHeap w α) :=
  match h n with
  | none => some (Function.update h n (some ⟨none, none, data⟩))
  | some _ => none

def pushBack (h : NodeHeap w α) (l : NodeList w) (n : Ptr w) (data : α) :
    Option (NodeHeap w α × NodeList w) := do
  let h ← newNode h n data
  match l.front with
  | some _ =>
      let h ← setPrev h n l.back
      let b ← l.back
      let h ← setNext h b (some n)
      some (h, { l with back := some n, size := l.size + 1 })
  | none => some (h, { front := some n, back := some n, size := l.size + 1 })

def pushFront (h : NodeHeap w α) (l : NodeList w) (n : Ptr w) (data : α) :
    Option (NodeHeap w α × NodeList w) := do
  let h ← newNode h n data
  match l.front with
  | some f =>
      let h ← setNext h n l.front
      let h ← setPrev h f (some n)
      some (h, { l with front := some n, size := l.size + 1 })
  | none => some (h, { front := some n, back := some n, size := l.size + 1 })

/-- `cerase`; every test reads the node again. -/
def cerase (h : NodeHeap w α) (l : NodeList w) (n : Ptr w) :
    Option (NodeHeap w α × NodeList w) := do
  let c ← h n
  let h ← relinkNext h c.prev c.next
  let c ← h n
  let h ← relinkPrev h c.next c.prev
  let c ← h n
  some (Function.update h n none,
    { front := if some n = l.front then c.next else l.front
      back := if some n = l.back then c.prev else l.back
      size := l.size - 1 })

def erase (h : NodeHeap w α) (l : NodeList w) :
    Iterator w → Option (NodeHeap w α × NodeList w × Iterator w)
  | some n => do
      let c ← h n
      let r ← cerase h l n
      some (r.1, r.2, c.next)
  | none => some (h, l, none)

def rerase (h : NodeHeap w α) (l : NodeList w) :
    Iterator w → Option (NodeHeap w α × NodeList w × Iterator w)
  | some n => do
      let c ← h n
      let r ← cerase h l n
      some (r.1, r.2, c.prev)
  | none => some (h, l, none)

/-- The pointers in `splice_back`, when `&other != this`. -/
def spliceLinks (h : NodeHeap w α) (l other : NodeList w) :
    Option (NodeHeap w α × NodeList w) :=
  match l.front, other.front with
  | none, _ => some (h, { l with front := other.front, back := other.back })
  | some _, some f => do
      let b ← l.back
      let h ← setNext h b other.front
      let h ← setPrev h f l.back
      some (h, { l with back := other.back })
  | some _, none => some (h, l)

/-- `splice_back`, when `&other != this`: the heap, the list and the other list. -/
def spliceBack (h : NodeHeap w α) (l other : NodeList w) :
    Option (NodeHeap w α × NodeList w × NodeList w) := do
  let r ← spliceLinks h l other
  some (r.1, { r.2 with size := r.2.size + other.size }, { front := none, back := none, size := 0 })

/-- The loop of `clear`. -/
def clearLoop : ℕ → NodeHeap w α → Option (Ptr w) → Option (NodeHeap w α)
  | _, h, none => some h
  | 0, _, some _ => none
  | k + 1, h, some p => do
      let c ← h p
      clearLoop k (Function.update h p none) c.next

/-- `clear`: there are fewer nodes than addresses, which bounds the number of rounds.  `size_` is
left as it is. -/
def clear (h : NodeHeap w α) (l : NodeList w) : Option (NodeHeap w α × NodeList w) := do
  let h ← clearLoop (2 ^ w) h l.front
  some (h, { l with front := none, back := none })

/-- The loop of the constructor of a range. -/
def pushAll (h : NodeHeap w α) (l : NodeList w) :
    List (Ptr w × α) → Option (NodeHeap w α × NodeList w)
  | [] => some (h, l)
  | e :: range => do
      let r ← pushBack h l e.1 e.2
      pushAll r.1 r.2 range

/-- `swap`: all three fields. -/
def swap (l other : NodeList w) : NodeList w × NodeList w := (other, l)

/-- `list( begin, end )`: a local list is filled and swapped with the new one, and destroyed. -/
def construct (h : NodeHeap w α) (range : List (Ptr w × α)) :
    Option (NodeHeap w α × NodeList w) := do
  let r ← pushAll h {} range
  let s := swap {} r.2
  let d ← clear r.1 s.2
  some (d.1, s.1)

/-! ### What a list stands for -/

/-- The object and the heap represent the sequence `s`. -/
structure Holds (h : NodeHeap w α) (l : NodeList w) (s : List (Ptr w × α)) : Prop where
  segment : Segment h none s none
  nodup : (addresses s).Nodup
  front : l.front = first s
  back : l.back = last s

/-- What an operation that turns `s` into `s'` does to the heap: it allocates what is new in `s'`,
frees what is not in it any more, and leaves everything else alone. -/
structure Changes (h h' : NodeHeap w α) (s s' : List (Ptr w × α)) : Prop where
  frame : ∀ a, a ∉ addresses s → a ∉ addresses s' → h' a = h a
  freed : ∀ a, a ∈ addresses s → a ∉ addresses s' → h' a = none
  taken : ∀ a, a ∈ addresses s' → a ∉ addresses s → h a = none

variable {h h' : NodeHeap w α} {l : NodeList w} {s s' : List (Ptr w × α)}

theorem Changes.refl (h : NodeHeap w α) (s : List (Ptr w × α)) : Changes h h s s where
  frame _ _ _ := rfl
  freed _ ha hna := absurd ha hna
  taken _ ha hna := absurd ha hna

theorem Holds.congr (hl : Holds h l s) (hsame : ∀ a ∈ addresses s, h' a = h a) : Holds h' l s :=
  ⟨hl.segment.congr hsame, hl.nodup, hl.front, hl.back⟩

theorem holds_empty (h : NodeHeap w α) : Holds h ({} : NodeList w) [] :=
  ⟨trivial, List.nodup_nil, rfl, rfl⟩

/-- There are fewer nodes in a list than addresses. -/
theorem Holds.length_lt (hl : Holds h l s) : s.length < 2 ^ w := by
  have hnodup : (0 :: (addresses s).map (fun a => a.1.toFin)).Nodup := by
    rw [List.nodup_cons]
    constructor
    · intro hmem
      obtain ⟨a, _, ha⟩ := List.mem_map.mp hmem
      exact a.2 (BitVec.toFin_inj.mp ha)
    · exact hl.nodup.map (fun a b hab => Subtype.ext (BitVec.toFin_inj.mp hab))
  have hcard := hnodup.length_le_card
  rw [Fintype.card_fin, List.length_cons, List.length_map, addresses, List.length_map] at hcard
  omega

theorem newNode_of_none {n : Ptr w} (hn : h n = none) (data : α) :
    newNode h n data = some (Function.update h n (some ⟨none, none, data⟩)) := by
  rw [newNode, hn]

theorem Holds.not_mem (hl : Holds h l s) {n : Ptr w} (hn : h n = none) : n ∉ addresses s :=
  fun hmem => hl.segment.ne_none hmem hn

theorem Holds.update_of_none (hl : Holds h l s) {n : Ptr w} (hn : h n = none) (c : Node w α) :
    Segment (Function.update h n (some c)) none s none := by
  apply hl.segment.congr
  intro a ha
  apply Function.update_of_ne
  rintro rfl
  exact hl.not_mem hn ha

theorem Changes.add {n : Ptr w} (hn : h n = none)
    (hmem : ∀ a, a ∈ addresses s' ↔ a = n ∨ a ∈ addresses s)
    (hframe : ∀ a, a ≠ n → a ∉ addresses s → h' a = h a) : Changes h h' s s' where
  frame a ha ha' := by
    rw [hmem, not_or] at ha'
    exact hframe a ha'.1 ha
  freed a ha ha' := absurd ((hmem a).mpr (.inr ha)) ha'
  taken a ha ha' := by
    cases (hmem a).mp ha with
    | inl heq => rw [heq, hn]
    | inr hs => exact absurd hs ha'

/-! ### push_back and push_front -/

theorem pushBack_spec (hl : Holds h l s) {n : Ptr w} (hn : h n = none) (data : α) :
    ∃ h' l', pushBack h l n data = some (h', l') ∧ Holds h' l' (s ++ [(n, data)]) ∧
      l'.size = l.size + 1 ∧ Changes h h' s (s ++ [(n, data)]) := by
  have hout := hl.not_mem hn
  have hmem : ∀ a, a ∈ addresses (s ++ [(n, data)]) ↔ a = n ∨ a ∈ addresses s := by
    intro a
    simp [or_comm]
  have hnodup : (addresses (s ++ [(n, data)])).Nodup := by
    rw [addresses_append]
    exact hl.nodup.append (List.nodup_singleton n) (List.disjoint_singleton.mpr hout)
  cases hfirst : first s with
  | none =>
      obtain rfl := first_eq_none.mp hfirst
      refine ⟨Function.update h n (some ⟨none, none, data⟩),
        { front := some n, back := some n, size := l.size + 1 }, ?_, ?_, rfl, ?_⟩
      · unfold pushBack
        rw [newNode_of_none hn, hl.front]
        rfl
      · exact ⟨segment_singleton.mpr (Function.update_self _ _ _), hnodup, rfl, rfl⟩
      · exact Changes.add hn hmem (fun a ha _ => Function.update_of_ne ha _ _)
  | some f =>
      obtain ⟨b, hlast⟩ := exists_last hfirst
      obtain ⟨h', hw, hs, hf⟩ := (hl.update_of_none hn ⟨last s, none, data⟩).relinkNext hl.nodup
        (some n)
      refine ⟨h', { l with back := some n, size := l.size + 1 }, ?_, ?_, rfl, ?_⟩
      · rw [hlast] at hw
        unfold pushBack
        rw [newNode_of_none hn, hl.front, hfirst, hl.back, hlast]
        simp only [Option.bind_eq_bind, Option.bind_some, setPrev_update]
        rw [show setNext _ b (some n) = some h' from hw, Option.bind_some]
      · refine ⟨?_, hnodup, ?_, ?_⟩
        · rw [segment_append, segment_singleton, hf n hout, Function.update_self, Option.or_none]
          exact ⟨hs, by rw [Option.or_none]⟩
        · rw [hl.front, first_append, hfirst]
          rfl
        · rw [last_concat]
      · refine Changes.add hn hmem (fun a ha hs => ?_)
        rw [hf a hs, Function.update_of_ne ha]

theorem pushFront_spec (hl : Holds h l s) {n : Ptr w} (hn : h n = none) (data : α) :
    ∃ h' l', pushFront h l n data = some (h', l') ∧ Holds h' l' ((n, data) :: s) ∧
      l'.size = l.size + 1 ∧ Changes h h' s ((n, data) :: s) := by
  have hout := hl.not_mem hn
  have hmem : ∀ a, a ∈ addresses ((n, data) :: s) ↔ a = n ∨ a ∈ addresses s := by
    intro a
    simp
  have hnodup : (addresses ((n, data) :: s)).Nodup := List.nodup_cons.mpr ⟨hout, hl.nodup⟩
  cases hfirst : first s with
  | none =>
      obtain rfl := first_eq_none.mp hfirst
      refine ⟨Function.update h n (some ⟨none, none, data⟩),
        { front := some n, back := some n, size := l.size + 1 }, ?_, ?_, rfl, ?_⟩
      · unfold pushFront
        rw [newNode_of_none hn, hl.front]
        rfl
      · exact ⟨segment_singleton.mpr (Function.update_self _ _ _), hnodup, rfl, rfl⟩
      · exact Changes.add hn hmem (fun a ha _ => Function.update_of_ne ha _ _)
  | some f =>
      obtain ⟨h', hw, hs, hf⟩ := (hl.update_of_none hn ⟨none, first s, data⟩).relinkPrev hl.nodup
        (some n)
      refine ⟨h', { l with front := some n, size := l.size + 1 }, ?_, ?_, rfl, ?_⟩
      · rw [hfirst] at hw
        unfold pushFront
        rw [newNode_of_none hn, hl.front, hfirst]
        simp only [Option.bind_eq_bind, Option.bind_some, setNext_update]
        rw [show setPrev _ f (some n) = some h' from hw, Option.bind_some]
      · refine ⟨⟨?_, hs⟩, hnodup, rfl, ?_⟩
        · rw [hf n hout, Function.update_self, Option.or_none]
        · rw [hl.back, last_cons]
          rw [ne_eq, ← first_eq_none, hfirst]
          exact Option.some_ne_none f
      · refine Changes.add hn hmem (fun a ha hs => ?_)
        rw [hf a hs, Function.update_of_ne ha]

/-! ### erase and rerase -/

/-- **Removal** of the first, the last, the only or an inner node. -/
theorem cerase_spec {xs ys : List (Ptr w × α)} {n : Ptr w} {x : α}
    (hl : Holds h l (xs ++ (n, x) :: ys)) :
    ∃ h' l', cerase h l n = some (h', l') ∧ Holds h' l' (xs ++ ys) ∧ l'.size = l.size - 1 ∧
      Changes h h' (xs ++ (n, x) :: ys) (xs ++ ys) := by
  have hcell := (segment_middle.mp hl.segment).2.1
  rw [Option.or_none, Option.or_none] at hcell
  obtain ⟨h₁, h₂, hw₁, hn₁, hw₂, hn₂, hs, hf⟩ := hl.segment.unlink hl.nodup
  have hnodup := hl.nodup
  rw [addresses_append, addresses_cons, List.nodup_middle, List.nodup_cons, ← addresses_append]
    at hnodup
  obtain ⟨hout, hnodup⟩ := hnodup
  have hmem : ∀ a, a ∈ addresses (xs ++ (n, x) :: ys) ↔ a = n ∨ a ∈ addresses (xs ++ ys) := by
    intro a
    simp only [addresses_append, addresses_cons, List.mem_append, List.mem_cons]
    tauto
  rw [addresses_append, List.mem_append, not_or] at hout
  refine ⟨Function.update h₂ n none,
    { front := if some n = l.front then first ys else l.front
      back := if some n = l.back then last xs else l.back
      size := l.size - 1 }, ?_, ⟨?_, hnodup, ?_, ?_⟩, rfl, ?_⟩
  · unfold cerase
    simp only [Option.bind_eq_bind, hcell, Option.bind_some, hw₁, hn₁, hw₂, hn₂]
  · apply hs.congr
    intro a ha
    apply Function.update_of_ne
    rintro rfl
    rw [addresses_append, List.mem_append] at ha
    tauto
  · -- the first node, if it is removed, is followed by the first of `ys`
    rw [hl.front, first_append, first_append, first_cons]
    cases hfirst : first xs with
    | none => simp
    | some f =>
        have hne : n ≠ f := by
          rintro rfl
          exact hout.1 (mem_of_first hfirst)
        simp [hne]
  · rw [hl.back, last_append, last_append]
    cases hlast : last ys with
    | none =>
        obtain rfl := last_eq_none.mp hlast
        simp [last]
    | some b =>
        have hne : n ≠ b := by
          rintro rfl
          exact hout.2 (mem_of_last hlast)
        have hys : ys ≠ [] := by
          rintro rfl
          cases hlast
        rw [last_cons _ hys, hlast]
        simp [hne]
  · refine ⟨?_, ?_, ?_⟩
    · intro a ha ha'
      have hne : a ≠ n := fun heq => ha ((hmem a).mpr (.inl heq))
      rw [Function.update_of_ne hne, hf a ha']
    · intro a ha ha'
      rw [((hmem a).mp ha).resolve_right ha', Function.update_self]
    · exact fun a ha ha' => absurd ((hmem a).mpr (.inr ha)) ha'

/-- `erase` returns what follows the node, `rerase` what was before it. -/
theorem erase_spec {xs ys : List (Ptr w × α)} {n : Ptr w} {x : α}
    (hl : Holds h l (xs ++ (n, x) :: ys)) :
    ∃ h' l', erase h l (some n) = some (h', l', first ys) ∧
      rerase h l (some n) = some (h', l', last xs) ∧ Holds h' l' (xs ++ ys) ∧
      l'.size = l.size - 1 ∧ Changes h h' (xs ++ (n, x) :: ys) (xs ++ ys) := by
  have hcell := (segment_middle.mp hl.segment).2.1
  rw [Option.or_none, Option.or_none] at hcell
  obtain ⟨h', l', herase, hspec⟩ := cerase_spec hl
  refine ⟨h', l', ?_, ?_, hspec⟩
  · unfold erase
    simp only [Option.bind_eq_bind, hcell, Option.bind_some, herase]
  · unfold rerase
    simp only [Option.bind_eq_bind, hcell, Option.bind_some, herase]

/-! ### clear -/

theorem clearLoop_none (k : ℕ) (h : NodeHeap w α) : clearLoop k h none = some h := by
  cases k <;> rfl

/-- The loop frees the nodes from the first to the last one. -/
theorem clearLoop_spec {p : Option (Ptr w)} {k : ℕ} (hs : Segment h p s none)
    (hnodup : (addresses s).Nodup) (hk : s.length ≤ k) :
    ∃ h', clearLoop k h (first s) = some h' ∧ (∀ a, a ∈ addresses s → h' a = none) ∧
      ∀ a, a ∉ addresses s → h' a = h a := by
  induction s generalizing h p k with
  | nil => exact ⟨h, clearLoop_none k h, fun _ ha => absurd ha List.not_mem_nil, fun _ _ => rfl⟩
  | cons e s ih =>
      obtain ⟨k, rfl⟩ : ∃ j, k = j + 1 := ⟨k - 1, by simp only [List.length_cons] at hk; omega⟩
      rw [addresses_cons, List.nodup_cons] at hnodup
      have hrest : Segment (Function.update h e.1 none) (some e.1) s none := by
        apply hs.2.congr
        intro a ha
        apply Function.update_of_ne
        rintro rfl
        exact hnodup.1 ha
      obtain ⟨h', hloop, hfreed, hframe⟩ := ih hrest hnodup.2 (Nat.le_of_succ_le_succ hk)
      refine ⟨h', ?_, ?_, ?_⟩
      · rw [first_cons, clearLoop, hs.1]
        simp only [Option.bind_eq_bind, Option.bind_some, Option.or_none, hloop]
      · intro a ha
        cases List.mem_cons.mp ha with
        | inl heq => rw [heq, hframe e.1 hnodup.1, Function.update_self]
        | inr hmem => exact hfreed a hmem
      · intro a ha
        rw [addresses_cons, List.mem_cons, not_or] at ha
        rw [hframe a ha.2, Function.update_of_ne ha.1]

/-- **`clear`** frees all nodes and leaves the counter as it was. -/
theorem clear_spec (hl : Holds h l s) :
    ∃ h', clear h l = some (h', { l with front := none, back := none }) ∧
      Holds h' { l with front := none, back := none } [] ∧ Changes h h' s [] := by
  obtain ⟨h', hloop, hfreed, hframe⟩ := clearLoop_spec hl.segment hl.nodup hl.length_lt.le
  refine ⟨h', ?_, ⟨trivial, List.nodup_nil, rfl, rfl⟩, ?_⟩
  · unfold clear
    rw [hl.front, hloop]
    rfl
  · exact ⟨fun a ha _ => hframe a ha, fun a ha _ => hfreed a ha,
      fun a ha _ => absurd ha List.not_mem_nil⟩

/-! ### splice_back -/

theorem spliceLinks_spec {other : NodeList w} {t : List (Ptr w × α)} (hl : Holds h l s)
    (ho : Holds h other t) (hdisj : (addresses s).Disjoint (addresses t)) :
    ∃ h' l', spliceLinks h l other = some (h', l') ∧ Holds h' l' (s ++ t) ∧ l'.size = l.size ∧
      ∀ a, a ∉ addresses (s ++ t) → h' a = h a := by
  cases hfirst : first s with
  | none =>
      obtain rfl := first_eq_none.mp hfirst
      refine ⟨h, { l with front := other.front, back := other.back }, ?_, ?_, rfl,
        fun _ _ => rfl⟩
      · unfold spliceLinks
        rw [hl.front, hfirst]
      · exact ⟨ho.segment, ho.nodup, ho.front, ho.back⟩
  | some f =>
      obtain ⟨b, hlast⟩ := exists_last hfirst
      cases hother : first t with
      | none =>
          obtain rfl := first_eq_none.mp hother
          rw [List.append_nil]
          refine ⟨h, l, ?_, hl, rfl, fun _ _ => rfl⟩
          unfold spliceLinks
          rw [hl.front, hfirst, ho.front, hother]
      | some g =>
          obtain ⟨c, hc⟩ := exists_last hother
          have hnodup : (addresses (s ++ t)).Nodup := by
            rw [addresses_append]
            exact hl.nodup.append ho.nodup hdisj
          obtain ⟨h₁, h₂, hw₁, hw₂, hs, hf⟩ := hl.segment.join ho.segment hnodup
          rw [hlast, hother] at hw₁ hw₂
          refine ⟨h₂, { l with back := other.back }, ?_, ⟨hs, hnodup, ?_, ?_⟩, rfl, hf⟩
          · unfold spliceLinks
            rw [hl.front, hfirst, ho.front, hother, hl.back, hlast]
            simp only [Option.bind_eq_bind, Option.bind_some]
            rw [show setNext h b (some g) = some h₁ from hw₁, Option.bind_some,
              show setPrev h₁ g (some b) = some h₂ from hw₂, Option.bind_some]
          · rw [hl.front, first_append, hfirst, Option.some_or]
          · rw [ho.back, last_append, hc, Option.some_or]

/-- **`splice_back`** of another list. -/
theorem spliceBack_spec {other : NodeList w} {t : List (Ptr w × α)} (hl : Holds h l s)
    (ho : Holds h other t) (hdisj : (addresses s).Disjoint (addresses t)) :
    ∃ h' l', spliceBack h l other = some (h', l', {}) ∧ Holds h' l' (s ++ t) ∧
      l'.size = l.size + other.size ∧ ∀ a, a ∉ addresses (s ++ t) → h' a = h a := by
  obtain ⟨h', l', hlinks, hl', hsize, hf⟩ := spliceLinks_spec hl ho hdisj
  refine ⟨h', { l' with size := l'.size + other.size }, ?_, ?_, ?_, hf⟩
  · unfold spliceBack
    rw [hlinks]
    rfl
  · exact ⟨hl'.segment, hl'.nodup, hl'.front, hl'.back⟩
  · rw [hsize]

/-! ### The constructor of a range -/

theorem pushAll_spec {range : List (Ptr w × α)} (hl : Holds h l s)
    (hnodup : (addresses range).Nodup) (hfree : ∀ a, a ∈ addresses range → h a = none) :
    ∃ h' l', pushAll h l range = some (h', l') ∧ Holds h' l' (s ++ range) ∧
      l'.size = l.size + BitVec.ofNat w range.length ∧
      ∀ a, a ∉ addresses (s ++ range) → h' a = h a := by
  induction range generalizing h l s with
  | nil => exact ⟨h, l, rfl, by rwa [List.append_nil], by simp, fun _ _ => rfl⟩
  | cons e range ih =>
      rw [addresses_cons, List.nodup_cons] at hnodup
      obtain ⟨h₁, l₁, hpush, hl₁, hsize₁, hchanges⟩ :=
        pushBack_spec hl (hfree e.1 List.mem_cons_self) e.2
      have hfree₁ : ∀ a, a ∈ addresses range → h₁ a = none := by
        intro a ha
        have hnone := hfree a (List.mem_cons_of_mem _ ha)
        have hne : a ≠ e.1 := by
          rintro rfl
          exact hnodup.1 ha
        rw [hchanges.frame a (hl.not_mem hnone) ?_, hnone]
        simp [hl.not_mem hnone, hne]
      obtain ⟨h', l', hall, hl', hsize, hframe⟩ := ih hl₁ hnodup.2 hfree₁
      rw [List.append_assoc, List.singleton_append] at hl' hframe
      refine ⟨h', l', ?_, hl', ?_, ?_⟩
      · unfold pushAll
        simp only [Option.bind_eq_bind, hpush, Option.bind_some, hall]
      · rw [hsize, hsize₁, List.length_cons, Nat.add_comm, BitVec.ofNat_add, ← BitVec.add_assoc]
        rfl
      · intro a ha
        rw [hframe a ha]
        simp only [addresses_append, addresses_cons, List.mem_append, List.mem_cons, not_or] at ha
        exact hchanges.frame a ha.1 (by simp [ha.1, ha.2.1])

/-- **The constructor of a range** makes one node for each element. -/
theorem construct_spec {range : List (Ptr w × α)} (hnodup : (addresses range).Nodup)
    (hfree : ∀ a, a ∈ addresses range → h a = none) :
    ∃ h' l', construct h range = some (h', l') ∧ Holds h' l' range ∧
      l'.size = BitVec.ofNat w range.length ∧ Changes h h' [] range := by
  obtain ⟨h', l', hall, hl', hsize, hframe⟩ := pushAll_spec (holds_empty h) hnodup hfree
  refine ⟨h', l', ?_, hl', ?_, ?_⟩
  · unfold construct
    rw [hall]
    simp only [Option.bind_eq_bind, Option.bind_some, swap, clear, clearLoop_none]
  · rw [hsize]
    simp
  · exact ⟨fun a _ ha => hframe a ha, fun a ha _ => absurd ha List.not_mem_nil,
      fun a ha _ => hfree a ha⟩

end NodeList

end Details

end Vtrc
