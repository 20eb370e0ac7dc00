import Vtrc.Lib.Chain
import Mathlib.Logic.Function.Basic
import Mathlib.Data.List.Induction
import Mathlib.Data.List.Nodup

/-! # Doubly linked lists in a heap

A heap is a partial map from addresses to cells, and a cell has a pointer to the cell before it,
one to the cell after it, and its data.  `Segment h p l q` says that the nodes `l` (addresses with
their data) stand in `h` one after the other, the first one pointing back to `p` and the last one
on to `q`; a whole list is a segment between two null pointers.

* `segment_append` cuts a segment in two, `Segment.congr` is its frame rule.
* `relinkNext` and `relinkPrev` are the two writes that lists are patched with, each with its rule:
  `Segment.relinkNext` moves the right end of a segment, `Segment.relinkPrev` the left one.
* `Segment.join` puts two segments together.  It is what appending a list does, and with a
  node between the two segments it is what removing that node does (`Segment.unlink`).
* `Segment.visit_forward` and `Segment.visit_backward`: what a walk along either pointer meets. -/

namespace Vtrc.Links

/-- A cell of a doubly linked list. -/
structure Cell (π α : Type*) where
  prev : Option π
  next : Option π
  data : α
deriving DecidableEq, Repr

/-- The cells that are allocated. -/
abbrev Heap (π α : Type*) := π → Option (Cell π α)

variable {π α : Type*}

/-! ### The ends of a sequence of nodes -/

def addresses (l : List (π × α)) : List π := l.map Prod.fst

def first (l : List (π × α)) : Option π := l.head?.map Prod.fst

def last (l : List (π × α)) : Option π := l.getLast?.map Prod.fst

@[simp] theorem addresses_nil : addresses ([] : List (π × α)) = [] := rfl

@[simp] theorem addresses_cons (e : π × α) (l : List (π × α)) :
    addresses (e :: l) = e.1 :: addresses l := rfl

@[simp] theorem addresses_append (l m : List (π × α)) :
    addresses (l ++ m) = addresses l ++ addresses m := List.map_append

@[simp] theorem addresses_reverse (l : List (π × α)) :
    addresses l.reverse = (addresses l).reverse := List.map_reverse

theorem mem_addresses {a : π} {l : List (π × α)} : a ∈ addresses l ↔ ∃ x, (a, x) ∈ l := by
  simp [addresses]

@[simp] theorem first_nil : first ([] : List (π × α)) = none := rfl

@[simp] theorem first_cons (e : π × α) (l : List (π × α)) : first (e :: l) = some e.1 := rfl

theorem first_append (l m : List (π × α)) : first (l ++ m) = (first l).or (first m) := by
  cases l <;> rfl

theorem first_eq_none {l : List (π × α)} : first l = none ↔ l = [] := by
  simp [first]

theorem head?_addresses (l : List (π × α)) : (addresses l).head? = first l := List.head?_map

@[simp] theorem last_nil : last ([] : List (π × α)) = none := rfl

@[simp] theorem last_concat (l : List (π × α)) (e : π × α) : last (l ++ [e]) = some e.1 := by
  simp [last]

theorem last_append (l m : List (π × α)) : last (l ++ m) = (last m).or (last l) := by
  unfold last
  rw [List.getLast?_append, Option.map_or]

theorem last_cons_or (e : π × α) (l : List (π × α)) (p : Option π) :
    (last (e :: l)).or p = (last l).or (some e.1) := by
  have h : e :: l = [e] ++ l := rfl
  rw [h, last_append, Option.or_assoc]
  rfl

theorem last_eq_none {l : List (π × α)} : last l = none ↔ l = [] := by
  simp [last]

theorem last_cons (e : π × α) {l : List (π × α)} (h : l ≠ []) : last (e :: l) = last l := by
  have hcons := last_cons_or e l none
  rw [Option.or_none] at hcons
  cases hl : last l with
  | none => exact absurd (last_eq_none.mp hl) h
  | some b => rw [hcons, hl, Option.some_or]

theorem mem_of_first {a : π} {l : List (π × α)} (h : first l = some a) : a ∈ addresses l :=
  List.mem_of_head? (head?_addresses l ▸ h)

theorem first_reverse (l : List (π × α)) : first l.reverse = last l := by
  simp [first, last]

theorem mem_of_last {a : π} {l : List (π × α)} (h : last l = some a) : a ∈ addresses l := by
  rw [← first_reverse] at h
  simpa using mem_of_first h

theorem exists_last {a : π} {l : List (π × α)} (h : first l = some a) : ∃ b, last l = some b := by
  apply Option.ne_none_iff_exists'.mp
  rw [ne_eq, last_eq_none, ← first_eq_none, h]
  exact Option.some_ne_none a

/-! ### Segments -/

/-- The nodes `l` stand one after the other, from `p` on the left to `q` on the right. -/
def Segment (h : Heap π α) : Option π → List (π × α) → Option π → Prop
  | _, [], _ => True
  | p, (a, x) :: l, q => h a = some ⟨p, (first l).or q, x⟩ ∧ Segment h (some a) l q

variable {h h' : Heap π α} {p q : Option π} {l m : List (π × α)}

/-- **Cutting a segment.** -/
theorem segment_append :
    Segment h p (l ++ m) q ↔ Segment h p l ((first m).or q) ∧ Segment h ((last l).or p) m q := by
  induction l generalizing p with
  | nil => simp [Segment]
  | cons e l ih =>
      rw [List.cons_append, Segment, Segment, ih, first_append, Option.or_assoc, last_cons_or,
        and_assoc]

theorem segment_singleton {a : π} {x : α} : Segment h p [(a, x)] q ↔ h a = some ⟨p, q, x⟩ := by
  simp [Segment]

theorem segment_middle {a : π} {x : α} :
    Segment h p (l ++ (a, x) :: m) q ↔
      Segment h p l (some a) ∧ h a = some ⟨(last l).or p, (first m).or q, x⟩ ∧
        Segment h (some a) m q := by
  rw [segment_append, Segment, first_cons, Option.some_or]

/-- **The frame rule.** -/
theorem Segment.congr (hs : Segment h p l q) (hsame : ∀ a ∈ addresses l, h' a = h a) :
    Segment h' p l q := by
  induction l generalizing p with
  | nil => trivial
  | cons e l ih =>
      rw [addresses_cons] at hsame
      refine ⟨?_, ih hs.2 (fun a ha => hsame a (List.mem_cons_of_mem _ ha))⟩
      rw [hsame e.1 List.mem_cons_self, hs.1]

theorem Segment.data (hs : Segment h p l q) {a : π} {x : α} (hmem : (a, x) ∈ l) :
    ∃ c, h a = some c ∧ c.data = x := by
  obtain ⟨xs, ys, rfl⟩ := List.append_of_mem hmem
  exact ⟨_, (segment_middle.mp hs).2.1, rfl⟩

theorem Segment.ne_none (hs : Segment h p l q) {a : π} (ha : a ∈ addresses l) : h a ≠ none := by
  obtain ⟨x, hx⟩ := mem_addresses.mp ha
  obtain ⟨c, hc, _⟩ := hs.data hx
  rw [hc]
  exact Option.some_ne_none c

/-! ### Walks -/

def nextOf (h : Heap π α) (a : π) : Option π := (h a).bind Cell.next

def prevOf (h : Heap π α) (a : π) : Option π := (h a).bind Cell.prev

theorem Segment.linked (hs : Segment h p l none) : Chain.Linked (nextOf h) (addresses l) := by
  induction l generalizing p with
  | nil => trivial
  | cons e l ih =>
      rw [addresses_cons]
      refine ⟨?_, ih hs.2⟩
      rw [head?_addresses, nextOf, hs.1]
      exact Option.or_none

theorem Segment.linked_reverse (hs : Segment h none l q) :
    Chain.Linked (prevOf h) (addresses l.reverse) := by
  induction l using List.reverseRecOn generalizing q with
  | nil => trivial
  | append_singleton l e ih =>
      obtain ⟨hl, he, _⟩ := segment_middle.mp hs
      rw [List.reverse_append, List.reverse_singleton, List.singleton_append, addresses_cons]
      refine ⟨?_, ih hl⟩
      rw [head?_addresses, first_reverse, prevOf, he]
      exact Option.or_none

/-- The nodes at the given addresses. -/
def visit (h : Heap π α) (as : List π) : List (π × α) :=
  as.filterMap (fun a => (h a).map (fun c => (a, c.data)))

theorem visit_addresses (hdata : ∀ a x, (a, x) ∈ l → ∃ c, h a = some c ∧ c.data = x) :
    visit h (addresses l) = l := by
  induction l with
  | nil => rfl
  | cons e l ih =>
      obtain ⟨c, hc, hx⟩ := hdata e.1 e.2 List.mem_cons_self
      have hhead : (h e.1).map (fun c => (e.1, c.data)) = some e := by rw [hc, Option.map_some, hx]
      have htail := ih (fun a x hmem => hdata a x (List.mem_cons_of_mem _ hmem))
      unfold visit at htail ⊢
      rw [addresses_cons, List.filterMap_cons, hhead, htail]

/-- **Forward.**  A walk along `next` that is long enough meets the nodes in order. -/
theorem Segment.visit_forward (hs : Segment h p l none) {n : ℕ} (hn : l.length ≤ n) :
    visit h (Chain.walk (nextOf h) n (first l)) = l := by
  have hlen : (addresses l).length ≤ n := by rwa [addresses, List.length_map]
  rw [← head?_addresses, hs.linked.walk_eq_take, List.take_of_length_le hlen]
  exact visit_addresses (fun a x hmem => hs.data hmem)

/-- **Backward.**  A walk along `prev` meets them in reverse order. -/
theorem Segment.visit_backward (hs : Segment h none l q) {n : ℕ} (hn : l.length ≤ n) :
    visit h (Chain.walk (prevOf h) n (last l)) = l.reverse := by
  have hlen : (addresses l.reverse).length ≤ n := by
    rwa [addresses, List.length_map, List.length_reverse]
  rw [← first_reverse, ← head?_addresses, hs.linked_reverse.walk_eq_take,
    List.take_of_length_le hlen]
  exact visit_addresses (fun a x hmem => hs.data (List.mem_reverse.mp hmem))

/-! ### Writes -/

variable [DecidableEq π]

/-- `a->next = v`; nothing when `a` is not allocated. -/
def setNext (h : Heap π α) (a : π) (v : Option π) : Option (Heap π α) :=
  (h a).map (fun c => Function.update h a (some { c with next := v }))

/-- `a->prev = v`. -/
def setPrev (h : Heap π α) (a : π) (v : Option π) : Option (Heap π α) :=
  (h a).map (fun c => Function.update h a (some { c with prev := v }))

/-- `if( o ) o->next = v`. -/
def relinkNext (h : Heap π α) (o v : Option π) : Option (Heap π α) :=
  match o with
  | none => some h
  | some a => setNext h a v

/-- `if( o ) o->prev = v`. -/
def relinkPrev (h : Heap π α) (o v : Option π) : Option (Heap π α) :=
  match o with
  | none => some h
  | some a => setPrev h a v

theorem setNext_of_some {a : π} {c : Cell π α} (hc : h a = some c) (v : Option π) :
    setNext h a v = some (Function.update h a (some { c with next := v })) := by
  rw [setNext, hc, Option.map_some]

theorem setPrev_of_some {a : π} {c : Cell π α} (hc : h a = some c) (v : Option π) :
    setPrev h a v = some (Function.update h a (some { c with prev := v })) := by
  rw [setPrev, hc, Option.map_some]

theorem setNext_update (h : Heap π α) (a : π) (c : Cell π α) (v : Option π) :
    setNext (Function.update h a (some c)) a v =
      some (Function.update h a (some { c with next := v })) := by
  rw [setNext_of_some (Function.update_self a (some c) h), Function.update_idem]

theorem setPrev_update (h : Heap π α) (a : π) (c : Cell π α) (v : Option π) :
    setPrev (Function.update h a (some c)) a v =
      some (Function.update h a (some { c with prev := v })) := by
  rw [setPrev_of_some (Function.update_self a (some c) h), Function.update_idem]

/-- **The right end of a segment** is moved by a write to its last node. -/
theorem Segment.relinkNext (hs : Segment h p l q) (hnodup : (addresses l).Nodup) (v : Option π) :
    ∃ h', relinkNext h (last l) v = some h' ∧ Segment h' p l v ∧
      ∀ a, a ∉ addresses l → h' a = h a := by
  cases l using List.reverseRecOn with
  | nil => exact ⟨h, rfl, trivial, fun _ _ => rfl⟩
  | append_singleton l e =>
      obtain ⟨hl, he, _⟩ := segment_middle.mp hs
      have hlast : e.1 ∉ addresses l := by
        rw [addresses_append] at hnodup
        intro hmem
        exact List.disjoint_of_nodup_append hnodup hmem List.mem_cons_self
      rw [last_concat]
      refine ⟨_, setNext_of_some he v, ?_, ?_⟩
      · refine segment_middle.mpr ⟨hl.congr ?_, Function.update_self _ _ _, trivial⟩
        intro a ha
        apply Function.update_of_ne
        rintro rfl
        exact hlast ha
      · intro a ha
        rw [addresses_append, List.mem_append, not_or] at ha
        apply Function.update_of_ne
        rintro rfl
        exact ha.2 List.mem_cons_self

/-- **The left end of a segment** is moved by a write to its first node. -/
theorem Segment.relinkPrev (hs : Segment h p l q) (hnodup : (addresses l).Nodup) (v : Option π) :
    ∃ h', relinkPrev h (first l) v = some h' ∧ Segment h' v l q ∧
      ∀ a, a ∉ addresses l → h' a = h a := by
  cases l with
  | nil => exact ⟨h, rfl, trivial, fun _ _ => rfl⟩
  | cons e l =>
      rw [addresses_cons, List.nodup_cons] at hnodup
      refine ⟨_, setPrev_of_some hs.1 v, ⟨Function.update_self _ _ _, hs.2.congr ?_⟩, ?_⟩
      · intro a ha
        apply Function.update_of_ne
        rintro rfl
        exact hnodup.1 ha
      · intro a ha
        rw [addresses_cons, List.mem_cons, not_or] at ha
        exact Function.update_of_ne ha.1 _ _

/-- **Joining two segments.**  The last node of the first one and the first node of the second one
are made to point to each other, whatever they pointed to before. -/
theorem Segment.join (hl : Segment h none l q) (hm : Segment h p m none)
    (hnodup : (addresses (l ++ m)).Nodup) :
    ∃ h₁ h₂, Links.relinkNext h (last l) (first m) = some h₁ ∧
      Links.relinkPrev h₁ (first m) (last l) = some h₂ ∧ Segment h₂ none (l ++ m) none ∧
      ∀ a, a ∉ addresses (l ++ m) → h₂ a = h a := by
  rw [addresses_append] at hnodup
  have hdisj := List.disjoint_of_nodup_append hnodup
  obtain ⟨h₁, hw₁, hl₁, hf₁⟩ := hl.relinkNext hnodup.of_append_left (first m)
  have hm₁ : Segment h₁ p m none := hm.congr (fun a ha => hf₁ a (fun hmem => hdisj hmem ha))
  obtain ⟨h₂, hw₂, hm₂, hf₂⟩ := hm₁.relinkPrev hnodup.of_append_right (last l)
  have hl₂ : Segment h₂ none l (first m) := hl₁.congr (fun a ha => hf₂ a (hdisj ha))
  refine ⟨h₁, h₂, hw₁, hw₂, ?_, ?_⟩
  · rw [segment_append, Option.or_none, Option.or_none]
    exact ⟨hl₂, hm₂⟩
  · intro a ha
    rw [addresses_append, List.mem_append, not_or] at ha
    rw [hf₂ a ha.2, hf₁ a ha.1]

/-- **Removing a node.**  Its neighbours are joined; its own cell stays as it was. -/
theorem Segment.unlink {a : π} {x : α} (hs : Segment h none (l ++ (a, x) :: m) none)
    (hnodup : (addresses (l ++ (a, x) :: m)).Nodup) :
    ∃ h₁ h₂, Links.relinkNext h (last l) (first m) = some h₁ ∧ h₁ a = h a ∧
      Links.relinkPrev h₁ (first m) (last l) = some h₂ ∧ h₂ a = h a ∧
      Segment h₂ none (l ++ m) none ∧ ∀ b, b ∉ addresses (l ++ m) → h₂ b = h b := by
  obtain ⟨hl, _, hm⟩ := segment_middle.mp hs
  rw [addresses_append, addresses_cons, List.nodup_middle, List.nodup_cons, ← addresses_append]
    at hnodup
  obtain ⟨h₁, hw₁, _, hf₁⟩ := hl.relinkNext (by
    rw [addresses_append] at hnodup
    exact hnodup.2.of_append_left) (first m)
  obtain ⟨h₁', h₂, hw₁', hw₂, hs₂, hf₂⟩ := hl.join hm hnodup.2
  obtain rfl := Option.some.inj (hw₁.symm.trans hw₁')
  have hout : a ∉ addresses l := by
    intro hmem
    apply hnodup.1
    rw [addresses_append]
    exact List.mem_append_left _ hmem
  exact ⟨h₁, h₂, hw₁, hf₁ a hout, hw₂, hf₂ a hnodup.1, hs₂, hf₂⟩

end Vtrc.Links
