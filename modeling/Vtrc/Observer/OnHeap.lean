import Vtrc.Observer.Emits
import Vtrc.Details.Refinement

/-! # Signals on the heap (`common/observer/base.h` over `details/list.h`)

`Base.lean` has the two lists of a signal as sequences.  Here they are the list objects of
`Details/NodeList.lean`: nodes on a heap, linked in both directions, with a counter each; an
iterator is the address of a node, and every access through one reads the heap.  `remove_by_index`
asks the counter whether there is a node before it reads the ends of the list, so what it does is
defined only as long as the counter tells the truth.

A step has no result when the code is undefined: when it goes through a null iterator or to an
address that is not allocated.

`Follows` connects the two levels and `Follows.step` is the simulation of one step:
`observer_on_heap` says that every run of a signal on sequences is a run of the code, in which the
same slots are called. -/

namespace Vtrc

namespace Observer

open Details Links

/-- `slot_info`. -/
structure SlotInfo (α : Type) where
  slot : α
  id : ℕ
deriving DecidableEq, Repr

/-- The list objects of an `impl`. -/
inductive Place where
  | list
  | added
deriving DecidableEq, Repr

/-- An emit loop, with its iterator. -/
inductive HeapLoop (w : ℕ) where
  | looking (itr : Iterator w)
  | running (itr : Iterator w)
deriving DecidableEq

abbrev SlotMemory (w : ℕ) (α : Type) := Memory Place w (SlotInfo α)

end Observer

open Observer Details Links

/-- The `impl` of a signal, the keys of the subscriptions, and the emit loops. -/
structure HeapObserver (w : ℕ) (α : Type) where
  memory : SlotMemory w α
  removed : IdSet := .empty
  id : ℕ
  subscriptions : List ℕ := []
  loops : List (HeapLoop w) := []

namespace HeapObserver

variable {w : ℕ} {α : Type}

/-! ### The code -/

/-- `*itr`. -/
def deref (m : SlotMemory w α) (itr : Iterator w) : Option (SlotInfo α) :=
  (itr.bind m.heap).map Cell.data

/-- `itr_erase`; `slot_traits::erase` of `traits::simple` reads the slot and does nothing. -/
def itrErase (m : SlotMemory w α) (lst : Place) (itr : Iterator w) :
    Option (SlotMemory w α × Iterator w) := do
  let _ ← deref m itr
  let r ← m.exec (.erase lst itr)
  let i ← r.2
  some (r.1, i)

def itrRerase (m : SlotMemory w α) (lst : Place) (itr : Iterator w) :
    Option (SlotMemory w α × Iterator w) := do
  let _ ← deref m itr
  let r ← m.exec (.rerase lst itr)
  let i ← r.2
  some (r.1, i)

/-- `for( ; b && (b->id_ < id); ++b )`; there are fewer nodes than addresses. -/
def searchForward (m : SlotMemory w α) (id : ℕ) : ℕ → Iterator w → Option (Iterator w)
  | _, none => some none
  | 0, some _ => none
  | k + 1, some n => do
      let c ← m.heap n
      if c.data.id < id then searchForward m id k c.next else some (some n)

/-- `for( ; b && (id < b->id_); --b )`. -/
def searchBackward (m : SlotMemory w α) (id : ℕ) : ℕ → Iterator w → Option (Iterator w)
  | _, none => some none
  | 0, some _ => none
  | k + 1, some n => do
      let c ← m.heap n
      if id < c.data.id then searchBackward m id k c.prev else some (some n)

/-- `if( b && (b->id_ == id) )`, and what erases the node. -/
def eraseFound (m : SlotMemory w α) (id : ℕ)
    (erase : SlotMemory w α → Iterator w → Option (SlotMemory w α × Iterator w)) :
    Iterator w → Option (SlotMemory w α × Iterator w)
  | none => some (m, none)
  | some n => do
      let d ← deref m (some n)
      if d.id = id then erase m (some n) else some (m, some n)

def removeByIndex (m : SlotMemory w α) (lst : Place) (id : ℕ) : Option (SlotMemory w α) := do
  let l ← m.lists lst
  if 0 < l.size.toNat then
    let first ← deref m l.front
    let last ← deref m l.back
    if id < first.id ∨ last.id < id then some m
    else if id - first.id < last.id - id then
      let b ← searchForward m id (2 ^ w) l.front
      let r ← eraseFound m id (fun m b => itrErase m lst b) b
      some r.1
    else
      let b ← searchBackward m id (2 ^ w) l.back
      let r ← eraseFound m id (fun m b => itrRerase m lst b) b
      some r.1
  else some m

/-- The loop of `clear_removed`, from the iterator `bl` of `list_` on. -/
def clearRemoved (m : SlotMemory w α) : List ℕ → Iterator w → Option (SlotMemory w α)
  | [], _ => some m
  | _ :: _, none => some m
  | b :: bs, some n => do
      let bl ← searchForward m b (2 ^ w) (some n)
      let r ← eraseFound m b (fun m b => itrErase m .list b) bl
      clearRemoved r.1 bs r.2

/-- `while( b ) { b = itr_erase( lst, b ); }`. -/
def eraseAll (lst : Place) : ℕ → SlotMemory w α → Iterator w → Option (SlotMemory w α)
  | _, m, none => some m
  | 0, _, some _ => none
  | k + 1, m, some n => do
      let r ← itrErase m lst (some n)
      eraseAll lst k r.1 r.2

/-- The event, and the address that `new` gives out when the event makes a node. -/
abbrev Event (w : ℕ) (α : Type) := Observer.Event α × Ptr w

def connect (s : HeapObserver w α) (slot : α) (n : Ptr w) : Option (HeapObserver w α) := do
  let r ← s.memory.exec (.pushBack .added n ⟨slot, s.id⟩)
  some { s with
    memory := r.1
    id := (s.id + 1) % 2 ^ w
    subscriptions := s.subscriptions ++ [s.id] }

def unsubscribe (s : HeapObserver w α) (key : ℕ) : Option (HeapObserver w α) := do
  let m ← removeByIndex s.memory .added key
  some { s with memory := m, removed := s.removed.insert key }

/-- `clear_unsafe`. -/
def clear (s : HeapObserver w α) : Option (HeapObserver w α) := do
  let l ← s.memory.lists .list
  let m ← eraseAll .list (2 ^ w) s.memory l.front
  let l ← m.lists .added
  let m ← eraseAll .added (2 ^ w) m l.front
  some { s with memory := m, removed := .empty }

/-- `splice_added`, and the iterator of a new loop. -/
def startEmit (s : HeapObserver w α) : Option (HeapObserver w α) := do
  let r ← s.memory.exec (.spliceBack .list .added)
  let l ← r.1.lists .list
  some { s with memory := r.1, loops := .looking l.front :: s.loops }

def canLock (s : HeapObserver w α) : Bool :=
  match s.loops with
  | .looking _ :: _ => false
  | _ => true

def step (s : HeapObserver w α) : Event w α → Option (HeapObserver w α)
  | (.subscribe slot, n) => s.connect slot n
  | (.unsubscribe n, _) => s.subscriptions[n]?.bind s.unsubscribe
  | (.unsubscribeAll, _) => if s.canLock then s.clear else none
  | (.emit, _) => if s.canLock then s.startEmit else none
  | (.turn, _) =>
      match s.loops with
      | .looking (some n) :: outer => do
          let d ← deref s.memory (some n)
          if s.removed.contains d.id then do
            let r ← itrErase s.memory .list (some n)
            some { s with
              memory := r.1
              removed := s.removed.erase d.id
              loops := .looking r.2 :: outer }
          else some { s with loops := .running (some n) :: outer }
      | _ => none
  | (.slotReturns, _) =>
      match s.loops with
      | .running itr :: outer => do
          let d ← deref s.memory itr
          if expired d.slot then do
            let r ← itrErase s.memory .list itr
            some { s with memory := r.1, loops := .looking r.2 :: outer }
          else do
            -- `++b`
            let c ← itr.bind s.memory.heap
            some { s with loops := .looking c.next :: outer }
      | _ => none
  | (.emitEnds, _) =>
      match s.loops with
      | .looking none :: outer => do
          let l ← s.memory.lists .list
          let m ← clearRemoved s.memory s.removed.ids l.front
          some { s with memory := m, removed := .empty, loops := outer }
      | _ => none

/-- The slot that a step calls. -/
def ran (s : HeapObserver w α) : Event w α → Option α
  | (.turn, _) =>
      match s.loops with
      | .looking itr :: _ =>
          (deref s.memory itr).bind (fun d =>
            if s.removed.contains d.id then none else some d.slot)
      | _ => none
  | _ => none

/-- `new` gives out an address that is free. -/
def Fresh (s : HeapObserver w α) : Event w α → Prop
  | (.subscribe _, n) => s.memory.heap n = none
  | _ => True

end HeapObserver

/-- A signal from its construction on. -/
def heapObserver (α : Type) (w : ℕ) : Machine (HeapObserver w α) (HeapObserver.Event w α) where
  init := { memory := ⟨fun _ => none, fun _ => some {}⟩, id := 1 % 2 ^ w }
  step := HeapObserver.step

namespace HeapObserver

variable {w : ℕ} {α : Type}

/-! ### The loops on sequences -/

/-- What is left when the node that was looked for stands first. -/
def dropFound {β : Type} (found : β → Prop) [DecidablePred found] : List β → List β
  | [] => []
  | b :: bs => if found b then bs else b :: bs

theorem map_dropFound {β γ : Type} (f : β → γ) (found : γ → Prop) [DecidablePred found]
    (bs : List β) : (dropFound (fun b => found (f b)) bs).map f = dropFound found (bs.map f) := by
  cases bs with
  | nil => rfl
  | cons b bs =>
      rw [dropFound, List.map_cons, dropFound]
      split_ifs <;> rfl

theorem dropFound_sublist {β : Type} (found : β → Prop) [DecidablePred found] (bs : List β) :
    (dropFound found bs).Sublist bs := by
  cases bs with
  | nil => exact List.Sublist.refl _
  | cons b bs =>
      rw [dropFound]
      split_ifs
      · exact List.sublist_cons_self b bs
      · exact List.Sublist.refl _

theorem eraseFromBegin_split (lst : List (Observer.Node α)) (id : ℕ) :
    eraseFromBegin lst id = lst.takeWhile (fun b => b.id < id) ++
      dropFound (fun b => b.id = id) (lst.dropWhile (fun b => b.id < id)) := by
  induction lst with
  | nil => rfl
  | cons b bs ih =>
      rw [eraseFromBegin]
      by_cases hlt : b.id < id
      · rw [if_pos hlt, ih, List.takeWhile_cons_of_pos (by simpa using hlt),
          List.dropWhile_cons_of_pos (by simpa using hlt)]
        rfl
      · rw [if_neg hlt, List.takeWhile_cons_of_neg (by simpa using hlt),
          List.dropWhile_cons_of_neg (by simpa using hlt)]
        rfl

theorem eraseFromEnd_split (lst : List (Observer.Node α)) (id : ℕ) :
    eraseFromEnd lst id = lst.takeWhile (fun b => id < b.id) ++
      dropFound (fun b => b.id = id) (lst.dropWhile (fun b => id < b.id)) := by
  induction lst with
  | nil => rfl
  | cons b bs ih =>
      rw [eraseFromEnd]
      by_cases hlt : id < b.id
      · rw [if_pos hlt, ih, List.takeWhile_cons_of_pos (by simpa using hlt),
          List.dropWhile_cons_of_pos (by simpa using hlt)]
        rfl
      · rw [if_neg hlt, List.takeWhile_cons_of_neg (by simpa using hlt),
          List.dropWhile_cons_of_neg (by simpa using hlt)]
        rfl

theorem clearRemoved_nil (ids : List ℕ) :
    Observer.clearRemoved ids ([] : List (Observer.Node α)) = [] := by
  cases ids <;> rfl

theorem clearRemoved_cons (b : ℕ) (bs : List ℕ) (bl : List (Observer.Node α)) :
    Observer.clearRemoved (b :: bs) bl = bl.takeWhile (fun x => x.id < b) ++
      Observer.clearRemoved bs
        (dropFound (fun x => x.id = b) (bl.dropWhile (fun x => x.id < b))) := by
  rw [Observer.clearRemoved]
  congr 1
  cases bl.dropWhile (fun x => decide (x.id < b)) with
  | nil => exact (clearRemoved_nil bs).symm
  | cons x rest =>
      simp only [dropFound]
      split_ifs <;> rfl

/-! ### The nodes of the two lists -/

/-- The nodes of both lists, each with its address. -/
abbrev Nodes (w : ℕ) (α : Type) := Place → List (Ptr w × Observer.Node α)

/-- What the heap has of a node: not the order in which it was made. -/
def info (e : Ptr w × Observer.Node α) : Ptr w × SlotInfo α := (e.1, ⟨e.2.slot, e.2.id⟩)

@[simp] theorem first_map_info (xs : List (Ptr w × Observer.Node α)) :
    first (xs.map info) = first xs := by
  cases xs <;> rfl

@[simp] theorem last_map_info (xs : List (Ptr w × Observer.Node α)) :
    last (xs.map info) = last xs := by
  rw [← first_reverse, ← first_reverse, ← List.map_reverse, first_map_info]

def sequencesOf (L : Nodes w α) : Sequences Place w (SlotInfo α) := fun p => some ((L p).map info)

theorem sequencesOf_update (L : Nodes w α) (p : Place) (xs : List (Ptr w × Observer.Node α)) :
    sequencesOf (Function.update L p xs) =
      Function.update (sequencesOf L) p (some (xs.map info)) := by
  funext q
  unfold sequencesOf
  rcases eq_or_ne q p with rfl | hne
  · rw [Function.update_self, Function.update_self]
  · rw [Function.update_of_ne hne, Function.update_of_ne hne]

/-- The memory has the nodes, and the counters count them. -/
def Stands (m : SlotMemory w α) (L : Nodes w α) : Prop :=
  Represents m (sequencesOf L) (fun _ => 0)

namespace Stands

variable {m : SlotMemory w α} {L : Nodes w α} {p : Place} {xs ys : List (Ptr w × Observer.Node α)}
  {n : Ptr w} {x : Observer.Node α}

theorem object (h : Stands m L) (p : Place) :
    ∃ l, m.lists p = some l ∧ Counts m.heap 0 l ((L p).map info) := by
  have hrel := h.each p
  unfold sequencesOf at hrel
  generalize m.lists p = o at hrel
  cases hrel with
  | some hcounts => exact ⟨_, rfl, hcounts⟩

theorem cell (h : Stands m L) (hL : L p = xs ++ (n, x) :: ys) :
    m.heap n = some ⟨last xs, first ys, ⟨x.slot, x.id⟩⟩ := by
  obtain ⟨l, _, hcounts⟩ := h.object p
  have hseg := hcounts.holds.segment
  rw [hL, List.map_append, List.map_cons] at hseg
  have hcell := (segment_middle.mp hseg).2.1
  rw [Option.or_none, Option.or_none, first_map_info, last_map_info] at hcell
  exact hcell

theorem deref (h : Stands m L) (hL : L p = xs ++ (n, x) :: ys) :
    HeapObserver.deref m (some n) = some ⟨x.slot, x.id⟩ := by
  rw [HeapObserver.deref, Option.bind_some, h.cell hL]
  rfl

theorem permitted (h : Stands m L) (hL : L p = xs ++ (n, x) :: ys) :
    m.lists p ≠ none ∧ ∀ a, some n = some a → a ∈ addresses (m.forward p) := by
  obtain ⟨l, hl, _⟩ := h.object p
  refine ⟨by rw [hl]; exact Option.some_ne_none l, ?_⟩
  intro a ha
  obtain rfl := Option.some.inj ha
  rw [h.forward_eq p]
  change n ∈ addresses ((L p).map info)
  rw [hL]
  simp [info]

theorem nodup (h : Stands m L) (hL : L p = xs ++ (n, x) :: ys) :
    (addresses (xs.map info ++ (n, ⟨x.slot, x.id⟩) :: ys.map info)).Nodup := by
  obtain ⟨l, _, hcounts⟩ := h.object p
  have hnodup := hcounts.holds.nodup
  rw [hL, List.map_append, List.map_cons] at hnodup
  exact hnodup

theorem erase (h : Stands m L) (hL : L p = xs ++ (n, x) :: ys) :
    (∃ m', itrErase m p (some n) = some (m', first ys) ∧
      Stands m' (Function.update L p (xs ++ ys))) ∧
    ∃ m', itrRerase m p (some n) = some (m', last xs) ∧
      Stands m' (Function.update L p (xs ++ ys)) := by
  have hnodup := h.nodup hL
  have hseq : (sequencesOf L).nodes p = xs.map info ++ (n, ⟨x.slot, x.id⟩) :: ys.map info := by
    change (L p).map info = _
    rw [hL, List.map_append, List.map_cons]
    rfl
  have hnew : Function.update (sequencesOf L) p (some (remove ((sequencesOf L).nodes p) (some n))) =
      sequencesOf (Function.update L p (xs ++ ys)) := by
    rw [hseq, remove_middle hnodup, sequencesOf_update, List.map_append]
  constructor
  · obtain ⟨m', hexec, hm'⟩ := Represents.exec h (e := .erase p (some n)) (h.permitted hL)
    refine ⟨m', ?_, ?_⟩
    · rw [Sequences.returned, hseq, successor_middle hnodup, first_map_info] at hexec
      simp only [itrErase, h.deref hL, hexec, Option.bind_eq_bind, Option.bind_some]
    · rw [Sequences.apply, hnew] at hm'
      exact hm'
  · obtain ⟨m', hexec, hm'⟩ := Represents.exec h (e := .rerase p (some n)) (h.permitted hL)
    refine ⟨m', ?_, ?_⟩
    · rw [Sequences.returned, hseq, predecessor_middle hnodup, last_map_info] at hexec
      simp only [itrRerase, h.deref hL, hexec, Option.bind_eq_bind, Option.bind_some]
    · rw [Sequences.apply, hnew] at hm'
      exact hm'

/-! ### The searches -/

theorem searchForward (h : Stands m L) (id : ℕ) {k : ℕ} (hL : L p = xs ++ ys)
    (hk : ys.length ≤ k) :
    HeapObserver.searchForward m id k (first ys) =
      some (first (ys.dropWhile (fun e => e.2.id < id))) := by
  induction ys generalizing xs k with
  | nil => cases k <;> rfl
  | cons e ys ih =>
      obtain ⟨n, x⟩ := e
      cases k with
      | zero => cases hk
      | succ k =>
          rw [first_cons, HeapObserver.searchForward, h.cell hL]
          simp only [Option.bind_eq_bind, Option.bind_some]
          by_cases hlt : x.id < id
          · rw [if_pos hlt, List.dropWhile_cons_of_pos (by simpa using hlt)]
            exact ih (show L p = (xs ++ [(n, x)]) ++ ys by rw [hL, List.append_assoc]; rfl)
              (Nat.le_of_succ_le_succ hk)
          · rw [if_neg hlt, List.dropWhile_cons_of_neg (by simpa using hlt), first_cons]

theorem searchBackward (h : Stands m L) (id : ℕ) {k : ℕ} (hL : L p = xs.reverse ++ ys)
    (hk : xs.length ≤ k) :
    HeapObserver.searchBackward m id k (first xs) =
      some (first (xs.dropWhile (fun e => id < e.2.id))) := by
  induction xs generalizing ys k with
  | nil => cases k <;> rfl
  | cons e xs ih =>
      obtain ⟨n, x⟩ := e
      have hL' : L p = xs.reverse ++ (n, x) :: ys := by
        rw [hL, List.reverse_cons, List.append_assoc]
        rfl
      cases k with
      | zero => cases hk
      | succ k =>
          rw [first_cons, HeapObserver.searchBackward, h.cell hL']
          simp only [Option.bind_eq_bind, Option.bind_some]
          by_cases hlt : id < x.id
          · rw [if_pos hlt, List.dropWhile_cons_of_pos (by simpa using hlt), ← first_reverse,
              List.reverse_reverse]
            exact ih hL' (Nat.le_of_succ_le_succ hk)
          · rw [if_neg hlt, List.dropWhile_cons_of_neg (by simpa using hlt), first_cons]

theorem eraseFound (h : Stands m L) (id : ℕ) (hL : L p = xs ++ ys) :
    ∃ m', HeapObserver.eraseFound m id (fun m b => itrErase m p b) (first ys) =
        some (m', first (dropFound (fun e => e.2.id = id) ys)) ∧
      Stands m' (Function.update L p (xs ++ dropFound (fun e => e.2.id = id) ys)) := by
  cases ys with
  | nil => exact ⟨m, rfl, by rw [dropFound, ← hL, Function.update_eq_self]; exact h⟩
  | cons e ys =>
      obtain ⟨n, x⟩ := e
      rw [first_cons, HeapObserver.eraseFound, h.deref hL, dropFound]
      simp only [Option.bind_eq_bind, Option.bind_some]
      split_ifs
      · exact (h.erase hL).1
      · exact ⟨m, rfl, by rw [← hL, Function.update_eq_self]; exact h⟩

theorem eraseFound_backward (h : Stands m L) (id : ℕ) (hL : L p = xs.reverse ++ ys) :
    ∃ m' b, HeapObserver.eraseFound m id (fun m b => itrRerase m p b) (first xs) = some (m', b) ∧
      Stands m' (Function.update L p ((dropFound (fun e => e.2.id = id) xs).reverse ++ ys)) := by
  cases xs with
  | nil => exact ⟨m, none, rfl, by rw [dropFound, ← hL, Function.update_eq_self]; exact h⟩
  | cons e xs =>
      obtain ⟨n, x⟩ := e
      have hL' : L p = xs.reverse ++ (n, x) :: ys := by
        rw [hL, List.reverse_cons, List.append_assoc]
        rfl
      rw [first_cons, HeapObserver.eraseFound, h.deref hL', dropFound]
      simp only [Option.bind_eq_bind, Option.bind_some]
      split_ifs
      · obtain ⟨m', hm', hst⟩ := (h.erase hL').2
        exact ⟨m', _, hm', hst⟩
      · exact ⟨m, _, rfl, by rw [← hL, Function.update_eq_self]; exact h⟩

theorem length_lt (h : Stands m L) (p : Place) : (L p).length < 2 ^ w := by
  obtain ⟨l, _, hcounts⟩ := h.object p
  have hlt := hcounts.holds.length_lt
  rwa [List.length_map] at hlt

theorem size (h : Stands m L) {l : NodeList w} (hl : m.lists p = some l) :
    l.size.toNat = (L p).length := by
  obtain ⟨l', hl', hcounts⟩ := h.object p
  obtain rfl := Option.some.inj (hl.symm.trans hl')
  rw [hcounts.size, List.length_map, Nat.add_zero, BitVec.toNat_ofNat,
    Nat.mod_eq_of_lt (h.length_lt p)]

/-- **`remove_by_index`** reads the ends of the list only when there are some, and does what it
does to the sequence. -/
theorem removeByIndex (h : Stands m L) (p : Place) (id : ℕ) :
    ∃ m' zs, HeapObserver.removeByIndex m p id = some m' ∧ Stands m' (Function.update L p zs) ∧
      zs.map Prod.snd = Observer.removeByIndex ((L p).map Prod.snd) id ∧ zs.Sublist (L p) := by
  obtain ⟨l, hl, hcounts⟩ := h.object p
  have hsize := h.size hl
  have hsame : Stands m (Function.update L p (L p)) := by rwa [Function.update_eq_self]
  rw [HeapObserver.removeByIndex, hl]
  simp only [Option.bind_eq_bind, Option.bind_some, hsize]
  rcases List.eq_nil_or_concat (L p) with hnil | ⟨as, b, hlast⟩
  · rw [if_neg (by rw [hnil]; exact lt_irrefl 0)]
    refine ⟨m, L p, rfl, hsame, ?_, List.Sublist.refl _⟩
    rw [hnil]
    rfl
  rw [List.concat_eq_append] at hlast
  have hpos : 0 < (L p).length := by
    rw [hlast, List.length_append]
    exact Nat.succ_pos _
  obtain ⟨f, rest, hfirst⟩ := List.exists_cons_of_length_pos hpos
  have hfront : l.front = first (L p) := hcounts.holds.front.trans (first_map_info _)
  have hback : l.back = first (L p).reverse := by
    rw [hcounts.holds.back, last_map_info, first_reverse]
  have hderef : HeapObserver.deref m l.front = some ⟨f.2.slot, f.2.id⟩ := by
    rw [hfront, hfirst, first_cons]
    exact h.deref (show L p = [] ++ f :: rest from hfirst)
  have hderef' : HeapObserver.deref m l.back = some ⟨b.2.slot, b.2.id⟩ := by
    rw [hback, first_reverse, hlast, last_concat]
    exact h.deref hlast
  have hsequence : Observer.removeByIndex ((L p).map Prod.snd) id =
      if id < f.2.id ∨ b.2.id < id then (L p).map Prod.snd
      else if id - f.2.id < b.2.id - id then eraseFromBegin ((L p).map Prod.snd) id
      else (eraseFromEnd ((L p).map Prod.snd).reverse id).reverse := by
    have hhead : ((L p).map Prod.snd).head? = some f.2 := by rw [hfirst]; rfl
    have hend : ((L p).map Prod.snd).getLast? = some b.2 := by rw [hlast]; simp
    rw [Observer.removeByIndex, hhead, hend]
  rw [if_pos hpos, hderef, hderef', hsequence]
  simp only [Option.bind_some]
  have hlen := (h.length_lt p).le
  split_ifs with hout hnear
  · exact ⟨m, L p, rfl, hsame, rfl, List.Sublist.refl _⟩
  · have hsplit := (List.takeWhile_append_dropWhile (p := fun e => decide (e.2.id < id)) (l := L p))
    obtain ⟨m', hfound, hm'⟩ := h.eraseFound id hsplit.symm
    refine ⟨m', _, ?_, hm', ?_, ?_⟩
    · rw [hfront, h.searchForward id (List.nil_append _).symm hlen, Option.bind_some, hfound]
      rfl
    · rw [eraseFromBegin_split, List.takeWhile_map, List.dropWhile_map, ← map_dropFound,
        ← List.map_append]
      rfl
    · have hsub := (List.Sublist.refl ((L p).takeWhile (fun e => e.2.id < id))).append
        (dropFound_sublist (fun e => e.2.id = id) ((L p).dropWhile (fun e => e.2.id < id)))
      rwa [hsplit] at hsub
  · have hsplit := (List.takeWhile_append_dropWhile (p := fun e => decide (id < e.2.id))
      (l := (L p).reverse))
    have hsplit' : L p = ((L p).reverse.dropWhile (fun e => id < e.2.id)).reverse ++
        ((L p).reverse.takeWhile (fun e => id < e.2.id)).reverse := by
      rw [← List.reverse_append, hsplit, List.reverse_reverse]
    obtain ⟨m', i, hfound, hm'⟩ := h.eraseFound_backward id hsplit'
    refine ⟨m', _, ?_, hm', ?_, ?_⟩
    · rw [hback, h.searchBackward id (show L p = (L p).reverse.reverse ++ [] by
        rw [List.reverse_reverse, List.append_nil])
        (by rwa [List.length_reverse]), Option.bind_some, hfound]
      rfl
    · rw [← List.map_reverse, eraseFromEnd_split, List.takeWhile_map, List.dropWhile_map,
        ← map_dropFound, ← List.map_append, ← List.map_reverse, List.reverse_append]
      rfl
    · have hsub := (dropFound_sublist (fun e => e.2.id = id)
        ((L p).reverse.dropWhile (fun e => id < e.2.id))).reverse.append
          (List.Sublist.refl ((L p).reverse.takeWhile (fun e => id < e.2.id)).reverse)
      rwa [← hsplit'] at hsub

/-- **`clear_removed`**, from a node on. -/
theorem clearRemoved {m : SlotMemory w α} {L : Nodes w α} (h : Stands m L) (ids : List ℕ)
    {xs ys : List (Ptr w × Observer.Node α)} (hL : L .list = xs ++ ys) :
    ∃ m' zs, HeapObserver.clearRemoved m ids (first ys) = some m' ∧
      Stands m' (Function.update L .list (xs ++ zs)) ∧
      zs.map Prod.snd = Observer.clearRemoved ids (ys.map Prod.snd) ∧ zs.Sublist ys := by
  induction ids generalizing m L xs ys with
  | nil =>
      refine ⟨m, ys, rfl, ?_, rfl, List.Sublist.refl _⟩
      rwa [← hL, Function.update_eq_self]
  | cons b bs ih =>
      cases ys with
      | nil =>
          refine ⟨m, [], rfl, ?_, (clearRemoved_nil _).symm, List.Sublist.refl _⟩
          rwa [← hL, Function.update_eq_self]
      | cons e ys =>
          set before := (e :: ys).takeWhile (fun e => e.2.id < b) with hbefore
          set after := (e :: ys).dropWhile (fun e => e.2.id < b) with hafter
          have hsplit : before ++ after = e :: ys := List.takeWhile_append_dropWhile
          have hlen : (e :: ys).length ≤ 2 ^ w := by
            have hlt := h.length_lt .list
            rw [hL, List.length_append] at hlt
            omega
          have hL' : L .list = (xs ++ before) ++ after := by
            rw [List.append_assoc, hsplit, hL]
          obtain ⟨m₁, hfound, hm₁⟩ := h.eraseFound b hL'
          obtain ⟨m', zs, hrun, hm', hzs, hsub⟩ := ih hm₁ (Function.update_self _ _ _)
          rw [Function.update_idem] at hm'
          refine ⟨m', before ++ zs, ?_, by rwa [← List.append_assoc], ?_, ?_⟩
          · rw [first_cons, HeapObserver.clearRemoved, ← first_cons e ys,
              h.searchForward b hL hlen]
            simp only [Option.bind_eq_bind, Option.bind_some]
            rw [← hafter, hfound]
            exact hrun
          · rw [clearRemoved_cons, List.takeWhile_map, List.dropWhile_map, ← map_dropFound,
              List.map_append, hzs]
            rfl
          · rw [← hsplit]
            exact (List.Sublist.refl before).append (hsub.trans (dropFound_sublist _ _))

/-- **`clear_unsafe`** on one of the lists. -/
theorem eraseAll {m : SlotMemory w α} {L : Nodes w α} (h : Stands m L) (p : Place) {k : ℕ}
    (hk : (L p).length ≤ k) :
    ∃ m', HeapObserver.eraseAll p k m (first (L p)) = some m' ∧
      Stands m' (Function.update L p []) := by
  generalize hys : L p = ys at hk
  induction ys generalizing m L k with
  | nil => exact ⟨m, by cases k <;> rfl, by rwa [← hys, Function.update_eq_self]⟩
  | cons e ys ih =>
      obtain ⟨n, x⟩ := e
      cases k with
      | zero => cases hk
      | succ k =>
          obtain ⟨m₁, herase, hm₁⟩ := (h.erase (show L p = [] ++ (n, x) :: ys from hys)).1
          obtain ⟨m', hrun, hm'⟩ := ih hm₁ (Function.update_self _ _ _)
            (Nat.le_of_succ_le_succ hk)
          rw [Function.update_idem] at hm'
          refine ⟨m', ?_, hm'⟩
          rw [first_cons, HeapObserver.eraseAll, herase]
          exact hrun

theorem front (h : Stands m L) (p : Place) :
    ∃ l, m.lists p = some l ∧ l.front = first (L p) := by
  obtain ⟨l, hl, hcounts⟩ := h.object p
  exact ⟨l, hl, hcounts.holds.front.trans (first_map_info _)⟩

theorem pushBack (h : Stands m L) (hn : m.heap n = none) (x : Observer.Node α) :
    ∃ m', m.exec (.pushBack p n ⟨x.slot, x.id⟩) = some (m', none) ∧
      Stands m' (Function.update L p (L p ++ [(n, x)])) := by
  obtain ⟨l, hl, _⟩ := h.object p
  obtain ⟨m', hexec, hm'⟩ := Represents.exec h (e := .pushBack p n ⟨x.slot, x.id⟩)
    ⟨by rw [hl]; exact Option.some_ne_none l, hn⟩
  refine ⟨m', hexec, ?_⟩
  rw [Stands, sequencesOf_update, List.map_append]
  exact hm'

theorem spliceAdded (h : Stands m L) :
    ∃ m', m.exec (.spliceBack .list .added) = some (m', none) ∧
      Stands m' (Function.update (Function.update L .list (L .list ++ L .added)) .added []) := by
  obtain ⟨l, hl, _⟩ := h.object .list
  obtain ⟨l', hl', _⟩ := h.object .added
  obtain ⟨m', hexec, hm'⟩ := Represents.exec h (e := .spliceBack .list .added)
    ⟨by rw [hl]; exact Option.some_ne_none l, by rw [hl']; exact Option.some_ne_none l'⟩
  refine ⟨m', hexec, ?_⟩
  rw [Stands, sequencesOf_update, sequencesOf_update, List.map_append]
  have hlost : (sequencesOf L).lost (fun _ => 0) (.spliceBack .list .added) = fun _ => 0 := by
    funext q
    cases q <;> rfl
  rw [hlost] at hm'
  exact hm'

end Stands

/-! ### The simulation -/

/-- The address `p` is that of the node number `n`, if it is still there. -/
def At (xs : List (Ptr w × Observer.Node α)) (made : ℕ) (p : Ptr w) (n : ℕ) : Prop :=
  n < made ∧ ∀ e ∈ xs, e.2.serial = n → e.1 = p

/-- The iterators of two loops. -/
def LoopFollows (xs : List (Ptr w × Observer.Node α)) (made : ℕ) : HeapLoop w → Loop → Prop
  | .looking none, .looking none => True
  | .looking (some p), .looking (some n) => At xs made p n
  | .running (some p), .running n => At xs made p n
  | _, _ => False

/-- The heap has the nodes `L`, and the signal has the same ones on sequences. -/
structure Follows (s : HeapObserver w α) (a : Observer α) (L : Nodes w α) : Prop where
  stands : Stands s.memory L
  list : a.list = (L .list).map Prod.snd
  added : a.added = (L .added).map Prod.snd
  removed : s.removed = a.removed
  id : s.id = a.id
  subscriptions : s.subscriptions = a.subscriptions
  loops : List.Forall₂ (LoopFollows (L .list ++ L .added) a.subscriptions.length) s.loops a.loops

section iterators

variable {xs ys : List (Ptr w × Observer.Node α)} {made made' : ℕ}

theorem At.mono {p : Ptr w} {n : ℕ} (h : At xs made p n) (hle : made ≤ made')
    (hmem : ∀ e ∈ ys, e ∈ xs ∨ made ≤ e.2.serial) : At ys made' p n := by
  refine ⟨lt_of_lt_of_le h.1 hle, fun e he hserial => ?_⟩
  rcases hmem e he with hold | hnew
  · exact h.2 e hold hserial
  · have := h.1
    omega

theorem LoopFollows.mono {l : HeapLoop w} {l' : Loop} (h : LoopFollows xs made l l')
    (hle : made ≤ made') (hmem : ∀ e ∈ ys, e ∈ xs ∨ made ≤ e.2.serial) :
    LoopFollows ys made' l l' := by
  match l, l', h with
  | .looking none, .looking none, _ => exact trivial
  | .looking (some _), .looking (some _), h => exact At.mono h hle hmem
  | .running (some _), .running _, h => exact At.mono h hle hmem

theorem at_of_mem (horder : InOrder (xs.map Prod.snd)) {e : Ptr w × Observer.Node α} (he : e ∈ xs)
    (hmade : e.2.serial < made) : At xs made e.1 e.2.serial := by
  have hnodup : (xs.map (fun e => e.2.serial)).Nodup := by
    rw [InOrder, List.pairwise_map] at horder
    exact List.pairwise_map.mpr (horder.imp ne_of_lt)
  exact ⟨hmade, fun e' he' hserial =>
    congrArg Prod.fst (List.inj_on_of_nodup_map hnodup he' he hserial)⟩

theorem looking_first (horder : InOrder (xs.map Prod.snd)) (hmade : ∀ e ∈ xs, e.2.serial < made)
    (hsub : ∀ e ∈ ys, e ∈ xs) :
    LoopFollows xs made (.looking (first ys))
      (.looking ((ys.map Prod.snd).head?.map (·.serial))) := by
  cases ys with
  | nil => exact trivial
  | cons e ys =>
      have he := hsub e List.mem_cons_self
      exact at_of_mem horder he (hmade e he)

theorem next_middle {as bs : List (Observer.Node α)} {b : Observer.Node α}
    (horder : InOrder (as ++ b :: bs)) :
    next (as ++ b :: bs) b.serial = bs.head?.map (·.serial) := by
  induction as with
  | nil => rw [List.nil_append, next, if_pos rfl]
  | cons c as ih =>
      obtain ⟨hc, has⟩ := List.pairwise_cons.mp horder
      have hlt := hc b (List.mem_append_right _ List.mem_cons_self)
      rw [List.cons_append, next, if_neg (ne_of_lt hlt), ih has]

theorem unlink_middle {as bs : List (Observer.Node α)} {b : Observer.Node α}
    (horder : InOrder (as ++ b :: bs)) : unlink (as ++ b :: bs) b.serial = as ++ bs := by
  have hne : ∀ a ∈ as, ¬ decide (a.serial = b.serial) = true := by
    intro a ha
    have hlt := (List.pairwise_append.mp horder).2.2 a ha b List.mem_cons_self
    rw [decide_eq_true_eq]
    exact ne_of_lt hlt
  rw [unlink, List.eraseP_append_right _ hne, List.eraseP_cons_of_pos (by simp)]

theorem fewer {L : Nodes w α} {p : Place} (made : ℕ) (hsub : ys.Sublist (L p)) :
    ∀ e ∈ Function.update L p ys .list ++ Function.update L p ys .added,
      e ∈ L .list ++ L .added ∨ made ≤ e.2.serial := by
  intro e he
  left
  rcases List.mem_append.mp he with he | he
  · apply List.mem_append_left
    cases p with
    | list => exact hsub.subset (by rwa [Function.update_self] at he)
    | added => exact he
  · apply List.mem_append_right
    cases p with
    | list => exact he
    | added => exact hsub.subset (by rwa [Function.update_self] at he)

end iterators

namespace Follows

variable {s : HeapObserver w α} {a a' : Observer α} {L : Nodes w α}

theorem order (h : Follows s a L) (hk : a.Keyed w) :
    InOrder ((L .list ++ L .added).map Prod.snd) := by
  rw [List.map_append, ← h.list, ← h.added]
  exact hk.order

theorem made (h : Follows s a L) (hk : a.Keyed w) :
    ∀ e ∈ L .list ++ L .added, e.2.serial < a.subscriptions.length := by
  intro e he
  apply hk.made
  rw [h.list, h.added, ← List.map_append]
  exact List.mem_map_of_mem he

theorem loops_mono (h : Follows s a L) {made' : ℕ} {ys : List (Ptr w × Observer.Node α)}
    (hle : a.subscriptions.length ≤ made')
    (hmem : ∀ e ∈ ys, e ∈ L .list ++ L .added ∨ a.subscriptions.length ≤ e.2.serial) :
    List.Forall₂ (LoopFollows ys made') s.loops a.loops :=
  h.loops.imp (fun _ _ hl => hl.mono hle hmem)

theorem canLock (h : Follows s a L) : s.canLock = a.canLock := by
  have hloops := h.loops
  unfold HeapObserver.canLock Observer.canLock
  generalize s.loops = ls, a.loops = ls' at hloops
  cases hloops with
  | nil => rfl
  | @cons l l' _ _ hl _ =>
      match l, l', hl with
      | .looking none, .looking none, _ => rfl
      | .looking (some _), .looking (some _), _ => rfl
      | .running (some _), .running _, _ => rfl

theorem node (h : Follows s a L) {p : Ptr w} {n : ℕ} {b : Observer.Node α}
    (hat : At (L .list ++ L .added) a.subscriptions.length p n) (hb : nodeAt a.list n = some b) :
    b.serial = n ∧ ∃ xs ys, L .list = xs ++ (p, b) :: ys := by
  obtain ⟨hmem, hserial⟩ := mem_of_nodeAt hb
  rw [h.list] at hmem
  obtain ⟨e, he, rfl⟩ := List.mem_map.mp hmem
  have haddr := hat.2 e (List.mem_append_left _ he) hserial
  refine ⟨hserial, ?_⟩
  rw [← haddr]
  exact List.append_of_mem he

/-- **A subscription.** -/
theorem subscribe (h : Follows s a L) {n : Ptr w} (hn : s.memory.heap n = none) (slot : α) :
    ∃ s' L', s.connect slot n = some s' ∧ Follows s' (a.connect w slot) L' := by
  obtain ⟨m', hpush, hm'⟩ := h.stands.pushBack (p := .added) hn
    ⟨a.subscriptions.length, a.id, slot⟩
  refine ⟨{ s with
    memory := m'
    id := (s.id + 1) % 2 ^ w
    subscriptions := s.subscriptions ++ [s.id] }, _, ?_, ⟨hm', h.list, ?_, h.removed, ?_, ?_, ?_⟩⟩
  · rw [HeapObserver.connect, h.id, hpush]
    rfl
  · rw [Function.update_self, List.map_append, ← h.added]
    rfl
  · rw [h.id]
    rfl
  · rw [h.subscriptions, h.id]
    rfl
  · refine h.loops_mono (by simp [Observer.connect]) (fun e he => ?_)
    rw [Function.update_self, ← List.append_assoc] at he
    rcases List.mem_append.mp he with hold | hnew
    · exact Or.inl hold
    · rw [List.mem_singleton.mp hnew]
      exact Or.inr le_rfl

/-- **An end of a subscription.** -/
theorem unsubscribe (h : Follows s a L) (key : ℕ) :
    ∃ s' L', s.unsubscribe key = some s' ∧ Follows s' (a.unsubscribe key) L' := by
  obtain ⟨m', zs, hrun, hm', hzs, hsub⟩ := h.stands.removeByIndex .added key
  refine ⟨{ s with memory := m', removed := s.removed.insert key }, _, ?_,
    ⟨hm', h.list, ?_, ?_, h.id, h.subscriptions, ?_⟩⟩
  · rw [HeapObserver.unsubscribe, hrun]
    rfl
  · rw [Function.update_self, hzs, ← h.added]
    rfl
  · rw [h.removed]
    rfl
  · exact h.loops_mono le_rfl (fewer _ hsub)

/-- **`clear_unsafe`.** -/
theorem clear (h : Follows s a L) : ∃ s' L', s.clear = some s' ∧ Follows s' a.clear L' := by
  obtain ⟨l, hl, hfront⟩ := h.stands.front .list
  obtain ⟨m₁, hrun₁, hm₁⟩ := h.stands.eraseAll .list (h.stands.length_lt .list).le
  obtain ⟨l₁, hl₁, hfront₁⟩ := hm₁.front .added
  obtain ⟨m₂, hrun₂, hm₂⟩ := hm₁.eraseAll .added (hm₁.length_lt .added).le
  refine ⟨{ s with memory := m₂, removed := .empty }, _, ?_,
    ⟨hm₂, rfl, rfl, rfl, h.id, h.subscriptions, ?_⟩⟩
  · simp only [HeapObserver.clear, hl, hfront, hrun₁, hl₁, hfront₁, hrun₂, Option.bind_eq_bind,
      Option.bind_some]
  · exact h.loops_mono le_rfl (fun e he => by cases he)

/-- **The beginning of an emit.** -/
theorem startEmit (h : Follows s a L) (hk : a.Keyed w) :
    ∃ s' L', s.startEmit = some s' ∧ Follows s' a.startEmit L' := by
  obtain ⟨m', hsplice, hm'⟩ := h.stands.spliceAdded
  obtain ⟨l, hl, hfront⟩ := hm'.front .list
  have hnodes : a.list ++ a.added = (L .list ++ L .added).map Prod.snd := by
    rw [h.list, h.added, List.map_append]
  have hfirst : l.front = first (L .list ++ L .added) := hfront
  refine ⟨{ s with memory := m', loops := .looking l.front :: s.loops }, _, ?_,
    ⟨hm', hnodes, rfl, h.removed, h.id, h.subscriptions, ?_⟩⟩
  · simp only [HeapObserver.startEmit, hsplice, hl, Option.bind_eq_bind, Option.bind_some]
  · have hsame : Function.update (Function.update L .list (L .list ++ L .added)) .added [] .list ++
        Function.update (Function.update L .list (L .list ++ L .added)) .added [] .added =
          L .list ++ L .added := List.append_nil _
    rw [hsame, Observer.startEmit, hfirst, hnodes]
    exact .cons (looking_first (h.order hk) (h.made hk) (fun _ he => he)) h.loops

theorem looking (h : Follows s a L) {n : ℕ} {outer : List Loop} {b : Observer.Node α}
    (hloops : a.loops = .looking (some n) :: outer) (hb : nodeAt a.list n = some b) :
    ∃ p outer' xs ys, s.loops = .looking (some p) :: outer' ∧ b.serial = n ∧
      L .list = xs ++ (p, b) :: ys ∧ At (L .list ++ L .added) a.subscriptions.length p n ∧
      List.Forall₂ (LoopFollows (L .list ++ L .added) a.subscriptions.length) outer' outer := by
  have hfollow := h.loops
  rw [hloops] at hfollow
  obtain ⟨l, outer', hl, houter, hs⟩ := List.forall₂_cons_right_iff.mp hfollow
  match l, hl with
  | .looking (some p), hl =>
      obtain ⟨hserial, xs, ys, hL⟩ := h.node hl hb
      exact ⟨p, outer', xs, ys, hs, hserial, hL, hl, houter⟩

theorem running (h : Follows s a L) {n : ℕ} {outer : List Loop} {b : Observer.Node α}
    (hloops : a.loops = .running n :: outer) (hb : nodeAt a.list n = some b) :
    ∃ p outer' xs ys, s.loops = .running (some p) :: outer' ∧ b.serial = n ∧
      L .list = xs ++ (p, b) :: ys ∧
      List.Forall₂ (LoopFollows (L .list ++ L .added) a.subscriptions.length) outer' outer := by
  have hfollow := h.loops
  rw [hloops] at hfollow
  obtain ⟨l, outer', hl, houter, hs⟩ := List.forall₂_cons_right_iff.mp hfollow
  match l, hl with
  | .running (some p), hl =>
      obtain ⟨hserial, xs, ys, hL⟩ := h.node hl hb
      exact ⟨p, outer', xs, ys, hs, hserial, hL, houter⟩

theorem list_eq (h : Follows s a L) {p : Ptr w} {b : Observer.Node α}
    {xs ys : List (Ptr w × Observer.Node α)} (hL : L .list = xs ++ (p, b) :: ys) :
    a.list = xs.map Prod.snd ++ b :: ys.map Prod.snd := by
  rw [h.list, hL, List.map_append, List.map_cons]

/-- **A turn**: the node is unlinked, or its slot is called. -/
theorem turn (h : Follows s a L) (hk : a.Keyed w) (q : Ptr w) (hst : a.step w .turn = some a') :
    ∃ s' L', s.step (.turn, q) = some s' ∧ Follows s' a' L' ∧
      s.ran (.turn, q) = (a.ran .turn).map Prod.snd := by
  obtain ⟨n, outer, b, hloops, hb, hcases⟩ := step_turn hst
  obtain ⟨p, outer', xs, ys, hs, hserial, hL, hat, houter⟩ := h.looking hloops hb
  have hderef := h.stands.deref hL
  have hlist := h.list_eq hL
  have horder : InOrder (xs.map Prod.snd ++ b :: ys.map Prod.snd) := by
    rw [← hlist]
    exact hk.order.sublist (List.sublist_append_left _ _)
  have hran : s.ran (.turn, q) = (a.ran .turn).map Prod.snd := by
    simp only [HeapObserver.ran, hs, hderef, Observer.ran, hloops, hb, Option.bind_some, h.removed]
    split_ifs <;> rfl
  rcases hcases with ⟨hremoved, rfl⟩ | ⟨hremoved, rfl⟩
  · obtain ⟨m', herase, hm'⟩ := (h.stands.erase hL).1
    have hsub : (xs ++ ys).Sublist (L .list) := by
      rw [hL]
      exact (List.Sublist.refl xs).append (List.sublist_cons_self _ ys)
    refine ⟨{ s with
      memory := m'
      removed := s.removed.erase b.id
      loops := .looking (first ys) :: outer' }, _, ?_, ⟨hm', ?_, h.added, ?_, h.id,
        h.subscriptions, ?_⟩, hran⟩
    · rw [HeapObserver.step, hs]
      simp only [hderef, h.removed, hremoved, herase, Option.bind_eq_bind, Option.bind_some,
        if_true]
    · rw [Function.update_self, hlist, ← hserial, unlink_middle horder, List.map_append]
    · rw [h.removed]
    · -- the iterator goes on to the next node, which stays
      have hfewer := fewer a.subscriptions.length hsub
      rw [hlist, ← hserial, next_middle horder]
      refine .cons ?_ (houter.imp (fun _ _ hl => hl.mono le_rfl hfewer))
      have hfirst := looking_first (h.order hk) (h.made hk) (fun e (he : e ∈ ys) => by
        rw [hL]
        simp [he])
      exact hfirst.mono le_rfl hfewer
  · refine ⟨{ s with loops := .running (some p) :: outer' }, L, ?_,
      ⟨h.stands, h.list, h.added, h.removed, h.id, h.subscriptions, .cons hat houter⟩, hran⟩
    rw [HeapObserver.step, hs]
    simp only [hderef, h.removed, hremoved, Option.bind_eq_bind, Option.bind_some]
    rfl

/-- **A slot returns.** -/
theorem slotReturns (h : Follows s a L) (hk : a.Keyed w) (q : Ptr w)
    (hst : a.step w .slotReturns = some a') :
    ∃ s' L', s.step (.slotReturns, q) = some s' ∧ Follows s' a' L' := by
  obtain ⟨n, outer, b, hloops, hb, rfl⟩ := step_slotReturns hst
  obtain ⟨p, outer', xs, ys, hs, hserial, hL, houter⟩ := h.running hloops hb
  have hlist := h.list_eq hL
  have horder : InOrder (xs.map Prod.snd ++ b :: ys.map Prod.snd) := by
    rw [← hlist]
    exact hk.order.sublist (List.sublist_append_left _ _)
  refine ⟨{ s with loops := .looking (first ys) :: outer' }, L, ?_,
    ⟨h.stands, h.list, h.added, h.removed, h.id, h.subscriptions, .cons ?_ houter⟩⟩
  · rw [HeapObserver.step, hs]
    simp only [h.stands.deref hL, h.stands.cell hL, expired, Option.bind_eq_bind,
      Option.bind_some]
    rfl
  · rw [hlist, ← hserial, next_middle horder]
    exact looking_first (h.order hk) (h.made hk) (fun e he => by rw [hL]; simp [he])

/-- **The end of an emit.** -/
theorem emitEnds (h : Follows s a L) (q : Ptr w) (hst : a.step w .emitEnds = some a') :
    ∃ s' L', s.step (.emitEnds, q) = some s' ∧ Follows s' a' L' := by
  obtain ⟨outer, hloops, rfl⟩ := step_emitEnds hst
  have hfollow := h.loops
  rw [hloops] at hfollow
  obtain ⟨l, outer', hl, houter, hs⟩ := List.forall₂_cons_right_iff.mp hfollow
  match l, hl with
  | .looking none, _ =>
      obtain ⟨lst, hlst, hfront⟩ := h.stands.front .list
      obtain ⟨m', zs, hrun, hm', hzs, hsub⟩ := h.stands.clearRemoved a.removed.ids
        (List.nil_append _).symm
      refine ⟨{ s with memory := m', removed := .empty, loops := outer' }, _, ?_,
        ⟨hm', ?_, h.added, rfl, h.id, h.subscriptions, ?_⟩⟩
      · rw [HeapObserver.step, hs]
        simp only [hlst, hfront, h.removed, hrun, Option.bind_eq_bind, Option.bind_some]
      · rw [Function.update_self, List.nil_append, hzs, ← h.list]
      · exact houter.imp (fun _ _ hl => hl.mono le_rfl (fewer _ hsub))

/-- **The simulation.** -/
theorem step (h : Follows s a L) (hk : a.Keyed w) {e : Event w α} (hf : s.Fresh e)
    (hst : a.step w e.1 = some a') :
    ∃ s' L', s.step e = some s' ∧ Follows s' a' L' ∧ s.ran e = (a.ran e.1).map Prod.snd := by
  obtain ⟨e, q⟩ := e
  cases e with
  | subscribe slot =>
      obtain rfl := Option.some.inj hst
      obtain ⟨s', L', hs', hfollows⟩ := h.subscribe hf slot
      exact ⟨s', L', hs', hfollows, rfl⟩
  | unsubscribe n =>
      obtain ⟨key, hkey, rfl⟩ := step_unsubscribe hst
      obtain ⟨s', L', hs', hfollows⟩ := h.unsubscribe key
      refine ⟨s', L', ?_, hfollows, rfl⟩
      rw [HeapObserver.step, h.subscriptions, hkey]
      exact hs'
  | unsubscribeAll =>
      obtain ⟨hlock, rfl⟩ := step_unsubscribeAll hst
      obtain ⟨s', L', hs', hfollows⟩ := h.clear
      refine ⟨s', L', ?_, hfollows, rfl⟩
      rw [HeapObserver.step, h.canLock, if_pos hlock, hs']
  | emit =>
      obtain ⟨hlock, rfl⟩ := step_emit hst
      obtain ⟨s', L', hs', hfollows⟩ := h.startEmit hk
      refine ⟨s', L', ?_, hfollows, rfl⟩
      rw [HeapObserver.step, h.canLock, if_pos hlock, hs']
  | turn => exact h.turn hk q hst
  | slotReturns =>
      obtain ⟨s', L', hs', hfollows⟩ := h.slotReturns hk q hst
      exact ⟨s', L', hs', hfollows, rfl⟩
  | emitEnds =>
      obtain ⟨s', L', hs', hfollows⟩ := h.emitEnds q hst
      exact ⟨s', L', hs', hfollows, rfl⟩

/-- A run on sequences is a run of the code, with the same calls of slots. -/
theorem run {es : List (Event w α)} {s : HeapObserver w α} {a a' : Observer α} {L : Nodes w α}
    (h : Follows s a L) (hk : a.Keyed w) (hf : (heapObserver α w).Meets Fresh s es)
    (hrun : (observer α w).runFrom a (es.map Prod.fst) = some a') :
    ∃ s' L', (heapObserver α w).runFrom s es = some s' ∧ Follows s' a' L' ∧
      (heapObserver α w).outputsFrom HeapObserver.ran s es =
        ((observer α w).outputsFrom Observer.ran a (es.map Prod.fst)).map Prod.snd := by
  induction es generalizing s a L with
  | nil =>
      obtain rfl := Option.some.inj hrun
      exact ⟨s, L, rfl, h, rfl⟩
  | cons e es ih =>
      obtain ⟨a₁, hst, hrest⟩ := (observer α w).runFrom_cons_eq_some.mp hrun
      obtain ⟨s₁, L₁, hs₁, h₁, hran⟩ := h.step hk hf.1 hst
      obtain ⟨s', L', hs', h', hout⟩ := ih h₁ (hk.step hst) (hf.2 s₁ hs₁) hrest
      refine ⟨s', L', (heapObserver α w).runFrom_cons_eq_some.mpr ⟨s₁, hs₁, hs'⟩, h', ?_⟩
      rw [(heapObserver α w).outputsFrom_cons HeapObserver.ran hs₁, List.map_cons,
        (observer α w).outputsFrom_cons Observer.ran hst, List.map_append, hout, hran]
      cases a.ran e.1 <;> rfl

end Follows

theorem follows_init (α : Type) (w : ℕ) :
    Follows (heapObserver α w).init (observer α w).init (fun _ => []) where
  stands :=
    { each := fun _ => .some ⟨NodeList.holds_empty _, rfl⟩
      apart := fun _ _ _ => List.disjoint_nil_left _
      owned := fun _ hp => absurd rfl hp }
  list := rfl
  added := rfl
  removed := rfl
  id := rfl
  subscriptions := rfl
  loops := .nil

/-- What the heap has of a signal on sequences: in both directions the nodes of the lists, in the
counters their numbers, and nothing else. -/
structure Shows (s : HeapObserver w α) (a : Observer α) : Prop where
  list : (s.memory.forward .list).map Prod.snd = a.list.map (fun x => ⟨x.slot, x.id⟩)
  added : (s.memory.forward .added).map Prod.snd = a.added.map (fun x => ⟨x.slot, x.id⟩)
  backward : ∀ p, s.memory.backward p = (s.memory.forward p).reverse
  size : ∀ p l, s.memory.lists p = some l → l.size.toNat = (s.memory.forward p).length
  owned : ∀ n, s.memory.heap n ≠ none → ∃ p, n ∈ addresses (s.memory.forward p)
  apart : (addresses (s.memory.forward .list)).Disjoint (addresses (s.memory.forward .added))
  removed : s.removed = a.removed
  subscriptions : s.subscriptions = a.subscriptions

theorem Follows.shows {s : HeapObserver w α} {a : Observer α} {L : Nodes w α}
    (h : Follows s a L) : s.Shows a := by
  have hforward (p : Place) : s.memory.forward p = (L p).map info := h.stands.forward_eq p
  refine ⟨?_, ?_, ?_, ?_, ?_, ?_, h.removed, h.subscriptions⟩
  · rw [hforward, h.list, List.map_map, List.map_map]
    rfl
  · rw [hforward, h.added, List.map_map, List.map_map]
    rfl
  · intro p
    rw [hforward]
    exact h.stands.backward_eq p
  · intro p l hl
    rw [hforward, List.length_map]
    exact h.stands.size hl
  · intro n hn
    obtain ⟨p, hp⟩ := h.stands.owned n hn
    refine ⟨p, ?_⟩
    rw [hforward]
    exact hp
  · rw [hforward, hforward]
    exact h.stands.apart .list .added (by decide)

end HeapObserver

/-- **Signals on the heap.**  Every run of a signal on sequences, with emits nested in slots and
calls of other threads between any two steps, is a run of the code on the heap, whatever free
addresses `new` gives out: no step goes through a null or a dangling pointer.  The same slots are
called in the same order; in the end the links of both lists show the nodes of the sequences, both
counters are their numbers, and there is no other node on the heap. -/
theorem observer_on_heap {α : Type} {w : ℕ} (es : List (HeapObserver.Event w α)) (a : Observer α)
    (hfresh : (heapObserver α w).Meets HeapObserver.Fresh (heapObserver α w).init es)
    (hrun : (observer α w).run (es.map Prod.fst) = some a) :
    ∃ s, (heapObserver α w).run es = some s ∧ s.Shows a ∧
      (heapObserver α w).outputsFrom HeapObserver.ran (heapObserver α w).init es =
        ((observer α w).outputsFrom Observer.ran (observer α w).init (es.map Prod.fst)).map
          Prod.snd := by
  obtain ⟨s, L, hs, h, hout⟩ := (HeapObserver.follows_init α w).run (Observer.keyed_init α w)
    hfresh hrun
  exact ⟨s, hs, h.shows, hout⟩

namespace HeapObserver

instance decidableFresh {w : ℕ} {α : Type} (s : HeapObserver w α) :
    (e : Event w α) → Decidable (s.Fresh e)
  | (.subscribe _, n) => decidable_of_iff ((s.memory.heap n).isNone = true) Option.isNone_iff_eq_none
  | (.unsubscribe _, _) | (.unsubscribeAll, _) | (.emit, _) | (.turn, _) | (.slotReturns, _)
  | (.emitEnds, _) => inferInstanceAs (Decidable True)

end HeapObserver

/-- The second slot is removed while the first one runs, and its address is used again. -/
theorem observer_on_heap_reused :
    let p : Ptr 64 := ⟨1, by decide⟩
    let q : Ptr 64 := ⟨2, by decide⟩
    let es : List (HeapObserver.Event 64 Char) := [(.subscribe 'a', p), (.subscribe 'b', q),
      (.emit, p), (.turn, p), (.unsubscribe 1, p), (.slotReturns, p), (.turn, p),
      (.subscribe 'c', q), (.emitEnds, p), (.emit, p), (.turn, p), (.slotReturns, p), (.turn, p)]
    ∃ s a, (heapObserver Char 64).run es = some s ∧ s.Shows a ∧
      a.list.map (·.slot) = ['a', 'c'] ∧
      (heapObserver Char 64).outputsFrom HeapObserver.ran (heapObserver Char 64).init es =
        ['a', 'a', 'c'] := by
  intro p q es
  have hes : (heapObserver Char 64).Meets HeapObserver.Fresh (heapObserver Char 64).init es := by
    decide +kernel
  obtain ⟨a, ha, hlist⟩ := (observer Char 64).exists_run (es.map Prod.fst)
    (fun a => a.list.map (·.slot) = ['a', 'c']) (by decide +kernel)
  obtain ⟨s, hs, hshows, hout⟩ := observer_on_heap es a hes ha
  refine ⟨s, a, hs, hshows, hlist, ?_⟩
  rw [hout]
  decide +kernel

end Vtrc
