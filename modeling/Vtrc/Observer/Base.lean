import Vtrc.Lib.Machine
import Mathlib.Algebra.Group.Nat.Defs
import Mathlib.Data.List.TakeWhile

/-! # Signals (`common/observer/base.h`)

An observer keeps its slots in two lists.  `subscribe` puts a slot at the end of `added_`; an emit
moves what is there to `list_` and goes over `list_`, node by node.  `unsubscribe` only notes the
id in `removed_` (and takes a slot out of `added_`); the node is unlinked when an emit comes to it,
or at the end of an emit by `clear_removed`, which goes over the ids and over the list at once.

While a slot runs anything may be called, by the slot itself or, except for what takes
`list_lock_`, by other threads.  That lock is recursive in the signals of `VTRC_DECLARE_SIGNAL`, so
emits can nest: the state has the loops that go on, the innermost one first, each with the node
that its iterator stands on.  Nodes are told apart by the order in which they are made (`serial`),
since `id_` is a `size_t` of `w` bits and comes round again.  A loop that stands on an unlinked
node has no step: its iterator dangles. -/

namespace Vtrc

namespace Observer

/-! ### The set of the removed ids -/

/-- A `std::set` of ids, as an iteration sees it. -/
structure IdSet where
  ids : List ℕ
  sorted : ids.Pairwise (· < ·)

namespace IdSet

def empty : IdSet := ⟨[], .nil⟩

def insertId (i : ℕ) : List ℕ → List ℕ
  | [] => [i]
  | j :: js => if i < j then i :: j :: js else if i = j then j :: js else j :: insertId i js

theorem mem_insertId {i k : ℕ} {js : List ℕ} : k ∈ insertId i js ↔ k = i ∨ k ∈ js := by
  induction js with
  | nil => simp [insertId]
  | cons j js ih =>
      unfold insertId
      split_ifs with hlt heq
      · rw [List.mem_cons]
      · rw [heq, List.mem_cons]
        tauto
      · rw [List.mem_cons, ih, List.mem_cons]
        tauto

theorem sorted_insertId (i : ℕ) {js : List ℕ} (h : js.Pairwise (· < ·)) :
    (insertId i js).Pairwise (· < ·) := by
  induction js with
  | nil => exact List.pairwise_singleton _ _
  | cons j js ih =>
      rw [List.pairwise_cons] at h
      unfold insertId
      split_ifs with hlt heq
      · rw [List.pairwise_cons]
        refine ⟨fun k hk => ?_, List.pairwise_cons.mpr h⟩
        cases List.mem_cons.mp hk with
        | inl hkj => omega
        | inr hk =>
            have := h.1 k hk
            omega
      · exact List.pairwise_cons.mpr h
      · rw [List.pairwise_cons]
        refine ⟨fun k hk => ?_, ih h.2⟩
        cases mem_insertId.mp hk with
        | inl hki => omega
        | inr hk => exact h.1 k hk

def insert (s : IdSet) (i : ℕ) : IdSet := ⟨insertId i s.ids, sorted_insertId i s.sorted⟩

def erase (s : IdSet) (i : ℕ) : IdSet := ⟨s.ids.filter (· ≠ i), s.sorted.filter _⟩

def contains (s : IdSet) (i : ℕ) : Bool := decide (i ∈ s.ids)

@[simp] theorem contains_empty (i : ℕ) : empty.contains i = false := rfl

@[simp] theorem contains_insert (s : IdSet) (i k : ℕ) :
    (s.insert i).contains k = (decide (k = i) || s.contains k) := by
  unfold contains insert
  simp [mem_insertId]

@[simp] theorem contains_erase (s : IdSet) (i k : ℕ) :
    (s.erase i).contains k = (s.contains k && decide (k ≠ i)) := by
  unfold contains erase
  simp

end IdSet

/-! ### The lists -/

/-- A node of `list_` or `added_`. -/
structure Node (α : Type*) where
  serial : ℕ
  id : ℕ
  slot : α
deriving DecidableEq, Repr

variable {α : Type*}

/-- The search of `remove_by_index` from `begin`. -/
def eraseFromBegin : List (Node α) → ℕ → List (Node α)
  | [], _ => []
  | b :: bs, id =>
      if b.id < id then b :: eraseFromBegin bs id else if b.id = id then bs else b :: bs

/-- The search from `rbegin`; the list is given from its end. -/
def eraseFromEnd : List (Node α) → ℕ → List (Node α)
  | [], _ => []
  | b :: bs, id =>
      if id < b.id then b :: eraseFromEnd bs id else if b.id = id then bs else b :: bs

def removeByIndex (lst : List (Node α)) (id : ℕ) : List (Node α) :=
  match lst.head?, lst.getLast? with
  | some first, some last =>
      if id < first.id ∨ last.id < id then lst
      else if id - first.id < last.id - id then eraseFromBegin lst id
      else (eraseFromEnd lst.reverse id).reverse
  | _, _ => lst

/-- The loops of `clear_removed`, over the ids and over the list. -/
def clearRemoved : List ℕ → List (Node α) → List (Node α)
  | [], bl => bl
  | b :: bs, bl =>
      bl.takeWhile (fun n => n.id < b) ++
        match bl.dropWhile (fun n => n.id < b) with
        | [] => []
        | n :: rest => if n.id = b then clearRemoved bs rest else clearRemoved bs (n :: rest)

/-- The node after a node: where `++b` and `erase` leave the iterator. -/
def next : List (Node α) → ℕ → Option ℕ
  | [], _ => none
  | b :: bs, n => if b.serial = n then bs.head?.map (·.serial) else next bs n

/-- `list::erase`: the node is unlinked. -/
def unlink (lst : List (Node α)) (n : ℕ) : List (Node α) := lst.eraseP (fun b => b.serial = n)

/-- The node that an iterator stands on. -/
def nodeAt (lst : List (Node α)) (n : ℕ) : Option (Node α) := lst.find? (fun b => b.serial = n)

theorem eraseFromBegin_sublist (lst : List (Node α)) (id : ℕ) :
    (eraseFromBegin lst id).Sublist lst := by
  induction lst with
  | nil => exact List.Sublist.refl _
  | cons b bs ih =>
      unfold eraseFromBegin
      split_ifs
      · exact ih.cons_cons b
      · exact List.sublist_cons_self b bs
      · exact List.Sublist.refl _

theorem eraseFromEnd_sublist (lst : List (Node α)) (id : ℕ) :
    (eraseFromEnd lst id).Sublist lst := by
  induction lst with
  | nil => exact List.Sublist.refl _
  | cons b bs ih =>
      unfold eraseFromEnd
      split_ifs
      · exact ih.cons_cons b
      · exact List.sublist_cons_self b bs
      · exact List.Sublist.refl _

theorem removeByIndex_sublist (lst : List (Node α)) (id : ℕ) :
    (removeByIndex lst id).Sublist lst := by
  unfold removeByIndex
  split
  · split_ifs
    · exact List.Sublist.refl _
    · exact eraseFromBegin_sublist lst id
    · have := (eraseFromEnd_sublist lst.reverse id).reverse
      rwa [List.reverse_reverse] at this
  · exact List.Sublist.refl _

theorem clearRemoved_sublist (ids : List ℕ) (lst : List (Node α)) :
    (clearRemoved ids lst).Sublist lst := by
  induction ids generalizing lst with
  | nil => exact List.Sublist.refl _
  | cons b bs ih =>
      have hsplit := List.takeWhile_append_dropWhile (p := fun n => decide (n.id < b)) (l := lst)
      conv_rhs => rw [← hsplit]
      unfold clearRemoved
      apply List.Sublist.append_left
      cases lst.dropWhile (fun n => n.id < b) with
      | nil => exact List.Sublist.refl _
      | cons n rest =>
          simp only
          split_ifs
          · exact (ih rest).cons n
          · exact ih (n :: rest)

/-- A node whose id is not in the set stays, whatever the order of the list. -/
theorem mem_clearRemoved {ids : List ℕ} {lst : List (Node α)} {x : Node α} (hx : x ∈ lst)
    (hid : x.id ∉ ids) : x ∈ clearRemoved ids lst := by
  induction ids generalizing lst with
  | nil => exact hx
  | cons b bs ih =>
      rw [List.mem_cons, not_or] at hid
      rw [← List.takeWhile_append_dropWhile (p := fun n => decide (n.id < b)) (l := lst),
        List.mem_append] at hx
      unfold clearRemoved
      rw [List.mem_append]
      cases hx with
      | inl hx => exact .inl hx
      | inr hx =>
          right
          cases hrest : lst.dropWhile (fun n => n.id < b) with
          | nil =>
              rw [hrest] at hx
              cases hx
          | cons n rest =>
              rw [hrest] at hx
              simp only
              split_ifs with heq
              · cases List.mem_cons.mp hx with
                | inl hxn => exact absurd (hxn ▸ heq) hid.1
                | inr hx => exact ih hx hid.2
              · exact ih hx hid.2

/-! ### What the operations do to increasing lists -/

/-- The ids increase. -/
def Increasing (lst : List (Node α)) : Prop := lst.Pairwise (fun a b => a.id < b.id)

theorem eraseFromBegin_eq {lst : List (Node α)} (h : Increasing lst) (id : ℕ) :
    eraseFromBegin lst id = lst.filter (fun b => b.id ≠ id) := by
  induction lst with
  | nil => rfl
  | cons b bs ih =>
      obtain ⟨hb, hbs⟩ := List.pairwise_cons.mp h
      have hrest : b.id ≥ id → bs.filter (fun b => b.id ≠ id) = bs := by
        intro hge
        rw [List.filter_eq_self]
        intro x hx
        have := hb x hx
        simp only [decide_eq_true_eq]
        omega
      unfold eraseFromBegin
      split_ifs with hlt heq
      · rw [ih hbs, List.filter_cons, if_pos (by simp only [decide_eq_true_eq]; omega)]
      · rw [List.filter_cons, if_neg (by simp [heq]), hrest (by omega)]
      · rw [List.filter_cons, if_pos (by simpa using heq), hrest (by omega)]

theorem eraseFromEnd_eq {lst : List (Node α)} (h : lst.Pairwise (fun a b => b.id < a.id))
    (id : ℕ) : eraseFromEnd lst id = lst.filter (fun b => b.id ≠ id) := by
  induction lst with
  | nil => rfl
  | cons b bs ih =>
      obtain ⟨hb, hbs⟩ := List.pairwise_cons.mp h
      have hrest : b.id ≤ id → bs.filter (fun b => b.id ≠ id) = bs := by
        intro hle
        rw [List.filter_eq_self]
        intro x hx
        have := hb x hx
        simp only [decide_eq_true_eq]
        omega
      unfold eraseFromEnd
      split_ifs with hlt heq
      · rw [ih hbs, List.filter_cons, if_pos (by simp only [decide_eq_true_eq]; omega)]
      · rw [List.filter_cons, if_neg (by simp [heq]), hrest (by omega)]
      · rw [List.filter_cons, if_pos (by simpa using heq), hrest (by omega)]

/-- **Both searches, and the shortcut before them, take out the node with the id.** -/
theorem removeByIndex_eq {lst : List (Node α)} (h : Increasing lst) (id : ℕ) :
    removeByIndex lst id = lst.filter (fun b => b.id ≠ id) := by
  unfold removeByIndex
  cases hfirst : lst.head? with
  | none =>
      rw [List.head?_eq_none_iff.mp hfirst]
      rfl
  | some first =>
      cases hlast : lst.getLast? with
      | none =>
          rw [List.getLast?_eq_none_iff.mp hlast]
          rfl
      | some last =>
          obtain ⟨bs, rfl⟩ := List.head?_eq_some_iff.mp hfirst
          obtain ⟨as, has⟩ := List.getLast?_eq_some_iff.mp hlast
          have hmin : ∀ x ∈ first :: bs, first.id ≤ x.id := by
            intro x hx
            cases List.mem_cons.mp hx with
            | inl heq => rw [heq]
            | inr hx => exact le_of_lt ((List.pairwise_cons.mp h).1 x hx)
          have hmax : ∀ x ∈ first :: bs, x.id ≤ last.id := by
            intro x hx
            rw [has] at hx h
            cases List.mem_append.mp hx with
            | inl hx =>
                have hlt := (List.pairwise_append.mp h).2.2 x hx last (List.mem_singleton_self _)
                exact le_of_lt hlt
            | inr hx => rw [List.mem_singleton.mp hx]
          simp only
          split_ifs with hout hnear
          · symm
            rw [List.filter_eq_self]
            intro x hx
            have := hmin x hx
            have := hmax x hx
            simp only [decide_eq_true_eq]
            omega
          · exact eraseFromBegin_eq h id
          · rw [eraseFromEnd_eq (List.pairwise_reverse.mpr h), List.filter_reverse,
              List.reverse_reverse]

/-- **`clear_removed` takes out the nodes whose ids are in the set.** -/
theorem clearRemoved_eq {ids : List ℕ} (hids : ids.Pairwise (· < ·)) {lst : List (Node α)}
    (h : Increasing lst) : clearRemoved ids lst = lst.filter (fun b => b.id ∉ ids) := by
  induction ids generalizing lst with
  | nil =>
      unfold clearRemoved
      symm
      rw [List.filter_eq_self]
      simp
  | cons b bs ih =>
      obtain ⟨hb, hbs⟩ := List.pairwise_cons.mp hids
      have hbefore : (lst.takeWhile (fun n => n.id < b)).filter (fun n => n.id ∉ b :: bs) =
          lst.takeWhile (fun n => n.id < b) := by
        rw [List.filter_eq_self]
        intro x hx
        have hlt : x.id < b := by simpa using List.mem_takeWhile_imp hx
        simp only [List.mem_cons, not_or, decide_eq_true_eq]
        refine ⟨by omega, fun hmem => ?_⟩
        have := hb x.id hmem
        omega
      have hdrop : Increasing (lst.dropWhile (fun n => n.id < b)) :=
        h.sublist (List.dropWhile_sublist _)
      have hsplit := List.takeWhile_append_dropWhile (p := fun n => decide (n.id < b)) (l := lst)
      conv_rhs => rw [← hsplit, List.filter_append, hbefore]
      unfold clearRemoved
      congr 1
      cases hrest : lst.dropWhile (fun n => n.id < b) with
      | nil => rfl
      | cons n rest =>
          rw [hrest] at hdrop
          obtain ⟨hn, hinc⟩ := List.pairwise_cons.mp hdrop
          have hge : b ≤ n.id := by
            have := List.head?_dropWhile_not (fun n : Node α => decide (n.id < b)) lst
            rw [hrest] at this
            simpa using this
          simp only
          split_ifs with heq
          · rw [ih hbs hinc, List.filter_cons, if_neg (by simp [heq])]
            apply List.filter_congr
            intro x hx
            have := hn x hx
            simp only [List.mem_cons, decide_eq_decide]
            have hne : x.id ≠ b := by omega
            tauto
          · rw [ih hbs hdrop]
            apply List.filter_congr
            intro x hx
            have hne : x.id ≠ b := by
              cases List.mem_cons.mp hx with
              | inl hxn => rwa [hxn]
              | inr hx =>
                  have := hn x hx
                  omega
            simp only [List.mem_cons, decide_eq_decide]
            tauto

/-! ### The iterator -/

/-- The nodes stand in the order in which they were made. -/
def InOrder (lst : List (Node α)) : Prop := lst.Pairwise (fun a b => a.serial < b.serial)

theorem mem_of_nodeAt {lst : List (Node α)} {n : ℕ} {b : Node α} (h : nodeAt lst n = some b) :
    b ∈ lst ∧ b.serial = n := by
  unfold nodeAt at h
  exact ⟨List.mem_of_find?_eq_some h, by simpa using List.find?_some h⟩

theorem nodeAt_of_mem {lst : List (Node α)} (h : InOrder lst) {b : Node α} (hb : b ∈ lst) :
    nodeAt lst b.serial = some b := by
  induction lst with
  | nil => cases hb
  | cons x xs ih =>
      obtain ⟨hx, hxs⟩ := List.pairwise_cons.mp h
      unfold nodeAt
      cases List.mem_cons.mp hb with
      | inl heq => rw [List.find?_cons_of_pos (by simp [heq]), heq]
      | inr hmem =>
          have hne : x.serial ≠ b.serial := ne_of_lt (hx b hmem)
          rw [List.find?_cons_of_neg (by simpa using hne)]
          exact ih hxs hmem

theorem unlink_eq {lst : List (Node α)} (h : InOrder lst) (n : ℕ) :
    unlink lst n = lst.filter (fun b => b.serial ≠ n) := by
  induction lst with
  | nil => rfl
  | cons x xs ih =>
      obtain ⟨hx, hxs⟩ := List.pairwise_cons.mp h
      unfold unlink at ih ⊢
      by_cases heq : x.serial = n
      · rw [List.eraseP_cons_of_pos (by simpa using heq), List.filter_cons,
          if_neg (by simpa using heq)]
        symm
        rw [List.filter_eq_self]
        intro y hy
        have := hx y hy
        simp only [decide_eq_true_eq]
        omega
      · rw [List.eraseP_cons_of_neg (by simpa using heq), List.filter_cons,
          if_pos (by simpa using heq), ih hxs]

/-- The node after `n` is the first of those that were made after `n`. -/
theorem next_eq {lst : List (Node α)} (h : InOrder lst) {n : ℕ} {b : Node α}
    (hb : nodeAt lst n = some b) :
    next lst n = ((lst.filter (fun x => n < x.serial)).head?).map (·.serial) := by
  induction lst with
  | nil => cases hb
  | cons x xs ih =>
      obtain ⟨hx, hxs⟩ := List.pairwise_cons.mp h
      unfold next
      split_ifs with heq
      · have hrest : xs.filter (fun x => n < x.serial) = xs := by
          rw [List.filter_eq_self]
          intro y hy
          have := hx y hy
          simp only [decide_eq_true_eq]
          omega
        rw [List.filter_cons, if_neg (by simp [heq]), hrest]
      · unfold nodeAt at hb
        rw [List.find?_cons_of_neg (by simpa using heq)] at hb
        have hlt : x.serial < n := by
          obtain ⟨hmem, hserial⟩ := mem_of_nodeAt hb
          have := hx b hmem
          omega
        rw [ih hxs hb, List.filter_cons, if_neg (by simp only [decide_eq_true_eq]; omega)]

/-! ### The observer -/

/-- An emit loop: its iterator, and whether the slot of the node runs. -/
inductive Loop where
  | looking (node : Option ℕ)
  | running (node : ℕ)
deriving DecidableEq, Repr

end Observer

open Observer

/-- The `impl` of an observer, the keys that the subscriptions hold (in the order in which they
were made), and the emit loops that go on, from the innermost one to the outermost one. -/
structure Observer (α : Type*) where
  removed : IdSet := .empty
  list : List (Node α) := []
  added : List (Node α) := []
  id : ℕ
  subscriptions : List ℕ := []
  loops : List Loop := []

namespace Observer

variable {α : Type*}

/-- What slots and other threads do, and the steps of the innermost emit loop. -/
inductive Event (α : Type*) where
  | subscribe (slot : α)
  /-- `unsubscribe` of a subscription, the first one being `0`. -/
  | unsubscribe (n : ℕ)
  | unsubscribeAll
  | emit
  /-- The loop looks at its node: it is unlinked, or its slot is called. -/
  | turn
  | slotReturns
  /-- The end of the list: `clear_removed`, and the emit returns. -/
  | emitEnds
deriving DecidableEq, Repr

/-- `slot_traits::expired` of `traits::simple`. -/
def expired (_ : α) : Bool := false

def connect (w : ℕ) (s : Observer α) (slot : α) : Observer α :=
  { s with
    added := s.added ++ [⟨s.subscriptions.length, s.id, slot⟩]
    id := (s.id + 1) % 2 ^ w
    subscriptions := s.subscriptions ++ [s.id] }

def unsubscribe (s : Observer α) (key : ℕ) : Observer α :=
  { s with removed := s.removed.insert key, added := removeByIndex s.added key }

/-- `clear_unsafe`. -/
def clear (s : Observer α) : Observer α :=
  { s with removed := .empty, list := [], added := [] }

/-- `splice_added`, and the iterator of a new loop. -/
def startEmit (s : Observer α) : Observer α :=
  { s with
    list := s.list ++ s.added
    added := []
    loops := .looking ((s.list ++ s.added).head?.map (·.serial)) :: s.loops }

/-- `list_lock_` can be taken: no emit goes on, or a slot of the innermost one runs. -/
def canLock (s : Observer α) : Bool :=
  match s.loops with
  | .looking _ :: _ => false
  | _ => true

def step (w : ℕ) (s : Observer α) : Event α → Option (Observer α)
  | .subscribe slot => some (s.connect w slot)
  | .unsubscribe n => s.subscriptions[n]?.map s.unsubscribe
  | .unsubscribeAll => if s.canLock then some s.clear else none
  | .emit => if s.canLock then some s.startEmit else none
  | .turn =>
      match s.loops with
      | .looking (some n) :: outer => (nodeAt s.list n).map (fun b =>
          if s.removed.contains b.id then
            { s with
              removed := s.removed.erase b.id
              list := unlink s.list n
              loops := .looking (next s.list n) :: outer }
          else { s with loops := .running n :: outer })
      | _ => none
  | .slotReturns =>
      match s.loops with
      | .running n :: outer => (nodeAt s.list n).map (fun b =>
          if expired b.slot then
            { s with list := unlink s.list n, loops := .looking (next s.list n) :: outer }
          else { s with loops := .looking (next s.list n) :: outer })
      | _ => none
  | .emitEnds =>
      match s.loops with
      | .looking none :: outer => some { s with
          removed := .empty
          list := clearRemoved s.removed.ids s.list
          loops := outer }
      | _ => none

/-! ### What a step does -/

variable {w : ℕ} {s s' : Observer α}

theorem step_unsubscribe {n : ℕ} (h : s.step w (.unsubscribe n) = some s') :
    ∃ key, s.subscriptions[n]? = some key ∧ s' = s.unsubscribe key := by
  obtain ⟨key, hkey, rfl⟩ := Option.map_eq_some_iff.mp h
  exact ⟨key, hkey, rfl⟩

theorem step_unsubscribeAll (h : s.step w .unsubscribeAll = some s') :
    s.canLock = true ∧ s' = s.clear := by
  simp only [step, Option.ite_none_right_eq_some, Option.some.injEq] at h
  exact ⟨h.1, h.2.symm⟩

theorem step_emit (h : s.step w .emit = some s') : s.canLock = true ∧ s' = s.startEmit := by
  simp only [step, Option.ite_none_right_eq_some, Option.some.injEq] at h
  exact ⟨h.1, h.2.symm⟩

theorem step_turn (h : s.step w .turn = some s') :
    ∃ n outer b, s.loops = .looking (some n) :: outer ∧ nodeAt s.list n = some b ∧
      ((s.removed.contains b.id = true ∧
          s' = { s with
            removed := s.removed.erase b.id
            list := unlink s.list n
            loops := .looking (next s.list n) :: outer }) ∨
        (s.removed.contains b.id = false ∧ s' = { s with loops := .running n :: outer })) := by
  simp only [step] at h
  split at h
  · rename_i n outer hloops
    obtain ⟨b, hb, rfl⟩ := Option.map_eq_some_iff.mp h
    refine ⟨n, outer, b, hloops, hb, ?_⟩
    cases hc : s.removed.contains b.id with
    | true => exact .inl ⟨rfl, by simp⟩
    | false => exact .inr ⟨rfl, by simp⟩
  · cases h

theorem step_slotReturns (h : s.step w .slotReturns = some s') :
    ∃ n outer b, s.loops = .running n :: outer ∧ nodeAt s.list n = some b ∧
      s' = { s with loops := .looking (next s.list n) :: outer } := by
  simp only [step] at h
  split at h
  · rename_i n outer hloops
    obtain ⟨b, hb, rfl⟩ := Option.map_eq_some_iff.mp h
    exact ⟨n, outer, b, hloops, hb, rfl⟩
  · cases h

theorem step_emitEnds (h : s.step w .emitEnds = some s') :
    ∃ outer, s.loops = .looking none :: outer ∧
      s' = { s with
        removed := .empty
        list := clearRemoved s.removed.ids s.list
        loops := outer } := by
  simp only [step] at h
  split at h
  · rename_i outer hloops
    cases h
    exact ⟨outer, hloops, rfl⟩
  · cases h

/-! ### Nodes and keys -/

/-- The nodes stand in the order in which they were made, each has the key of its subscription,
and so has each removed id. -/
structure Keyed (w : ℕ) (s : Observer α) : Prop where
  order : InOrder (s.list ++ s.added)
  made : ∀ x ∈ s.list ++ s.added, x.serial < s.subscriptions.length
  ids : ∀ x ∈ s.list ++ s.added, x.id = (x.serial + 1) % 2 ^ w
  keys : ∀ i k, s.subscriptions[i]? = some k → k = (i + 1) % 2 ^ w
  id : s.id = (s.subscriptions.length + 1) % 2 ^ w
  removed : ∀ k, s.removed.contains k = true →
    ∃ i < s.subscriptions.length, k = (i + 1) % 2 ^ w

theorem Keyed.sublist (h : s.Keyed w) (hsub : (s'.list ++ s'.added).Sublist (s.list ++ s.added))
    (hid : s'.id = s.id) (hsubs : s'.subscriptions = s.subscriptions)
    (hrem : ∀ k, s'.removed.contains k = true →
      s.removed.contains k = true ∨ k ∈ s.subscriptions) : s'.Keyed w where
  order := h.order.sublist hsub
  made x hx := hsubs ▸ h.made x (hsub.subset hx)
  ids x hx := h.ids x (hsub.subset hx)
  keys := hsubs ▸ h.keys
  id := by rw [hid, hsubs, h.id]
  removed k hk := by
    rw [hsubs]
    cases hrem k hk with
    | inl hold => exact h.removed k hold
    | inr hmem =>
        obtain ⟨i, hi⟩ := List.mem_iff_getElem?.mp hmem
        obtain ⟨hlt, _⟩ := List.getElem?_eq_some_iff.mp hi
        exact ⟨i, hlt, h.keys i k hi⟩

theorem Keyed.connect (h : s.Keyed w) (slot : α) : (s.connect w slot).Keyed w := by
  have hmem : ∀ x ∈ (s.connect w slot).list ++ (s.connect w slot).added,
      x ∈ s.list ++ s.added ∨ x = ⟨s.subscriptions.length, s.id, slot⟩ := by
    intro x hx
    unfold Observer.connect at hx
    rw [← List.append_assoc, List.mem_append, List.mem_singleton] at hx
    exact hx
  have hlength : (s.connect w slot).subscriptions.length = s.subscriptions.length + 1 :=
    List.length_append
  refine ⟨?_, ?_, ?_, ?_, ?_, ?_⟩
  · unfold InOrder Observer.connect
    rw [← List.append_assoc, List.pairwise_append]
    refine ⟨h.order, List.pairwise_singleton _ _, ?_⟩
    intro a ha b hb
    rw [List.mem_singleton.mp hb]
    exact h.made a ha
  · intro x hx
    cases hmem x hx with
    | inl hx =>
        have := h.made x hx
        omega
    | inr hx =>
        rw [hx, hlength]
        exact Nat.lt_succ_self _
  · intro x hx
    cases hmem x hx with
    | inl hx => exact h.ids x hx
    | inr hx =>
        rw [hx]
        exact h.id
  · intro i k hk
    unfold Observer.connect at hk
    simp only [List.getElem?_append] at hk
    split_ifs at hk with hi
    · exact h.keys i k hk
    · have h0 : i - s.subscriptions.length = 0 := by
        have := (List.getElem?_eq_some_iff.mp hk).1
        simp only [List.length_singleton] at this
        omega
      rw [h0] at hk
      cases hk
      have heq : i = s.subscriptions.length := by omega
      rw [heq]
      exact h.id
  · rw [hlength]
    unfold Observer.connect
    simp only [h.id, Nat.mod_add_mod]
  · intro k hk
    obtain ⟨i, hi, heq⟩ := h.removed k hk
    exact ⟨i, by omega, heq⟩

theorem Keyed.step (h : s.Keyed w) {e : Event α} (hst : s.step w e = some s') : s'.Keyed w := by
  cases e with
  | subscribe slot =>
      cases hst
      exact h.connect slot
  | unsubscribe n =>
      obtain ⟨key, hkey, rfl⟩ := step_unsubscribe hst
      refine h.sublist ?_ rfl rfl ?_
      · exact (List.Sublist.refl _).append (removeByIndex_sublist _ _)
      · intro k hk
        unfold Observer.unsubscribe at hk
        simp only [IdSet.contains_insert, Bool.or_eq_true, decide_eq_true_eq] at hk
        cases hk with
        | inl heq => exact .inr (heq ▸ List.mem_of_getElem? hkey)
        | inr hold => exact .inl hold
  | unsubscribeAll =>
      obtain ⟨_, rfl⟩ := step_unsubscribeAll hst
      exact h.sublist (List.nil_sublist _) rfl rfl (fun k hk => (by cases hk))
  | emit =>
      obtain ⟨_, rfl⟩ := step_emit hst
      have hsame : s.startEmit.list ++ s.startEmit.added = s.list ++ s.added :=
        List.append_nil _
      exact h.sublist (hsame ▸ List.Sublist.refl _) rfl rfl (fun k hk => .inl hk)
  | turn =>
      obtain ⟨n, outer, b, _, _, ⟨_, rfl⟩ | ⟨_, rfl⟩⟩ := step_turn hst
      · refine h.sublist ?_ rfl rfl ?_
        · exact List.eraseP_sublist.append (List.Sublist.refl _)
        · intro k hk
          simp only [IdSet.contains_erase, Bool.and_eq_true] at hk
          exact .inl hk.1
      · exact h.sublist (List.Sublist.refl _) rfl rfl (fun k hk => .inl hk)
  | slotReturns =>
      obtain ⟨n, outer, b, _, _, rfl⟩ := step_slotReturns hst
      exact h.sublist (List.Sublist.refl _) rfl rfl (fun k hk => .inl hk)
  | emitEnds =>
      obtain ⟨outer, _, rfl⟩ := step_emitEnds hst
      refine h.sublist ?_ rfl rfl (fun k hk => (by cases hk))
      exact (clearRemoved_sublist _ _).append (List.Sublist.refl _)

/-- The number of subscriptions that the step makes. -/
def Event.made : Event α → ℕ
  | .subscribe _ => 1
  | _ => 0

theorem length_step {e : Event α} (hst : s.step w e = some s') :
    s'.subscriptions.length = s.subscriptions.length + e.made := by
  cases e with
  | subscribe slot =>
      cases hst
      exact List.length_append
  | unsubscribe n =>
      obtain ⟨key, _, rfl⟩ := step_unsubscribe hst
      rfl
  | unsubscribeAll =>
      obtain ⟨_, rfl⟩ := step_unsubscribeAll hst
      rfl
  | emit =>
      obtain ⟨_, rfl⟩ := step_emit hst
      rfl
  | turn =>
      obtain ⟨n, outer, b, _, _, ⟨_, rfl⟩ | ⟨_, rfl⟩⟩ := step_turn hst <;> rfl
  | slotReturns =>
      obtain ⟨n, outer, b, _, _, rfl⟩ := step_slotReturns hst
      rfl
  | emitEnds =>
      obtain ⟨outer, _, rfl⟩ := step_emitEnds hst
      rfl

/-- The slots that are subscribed, in order. -/
def slots : List (Event α) → List α
  | [] => []
  | .subscribe slot :: es => slot :: slots es
  | _ :: es => slots es

/-- Before `id_` comes round, the ids of the nodes and of the subscriptions are what `id_` was. -/
theorem Keyed.node_id (h : s.Keyed w) (hlt : s.subscriptions.length < 2 ^ w) {x : Node α}
    (hx : x ∈ s.list ++ s.added) : x.id = x.serial + 1 := by
  have := h.made x hx
  rw [h.ids x hx, Nat.mod_eq_of_lt (by omega)]

theorem Keyed.increasing (h : s.Keyed w) (hlt : s.subscriptions.length < 2 ^ w) :
    Increasing (s.list ++ s.added) := by
  apply h.order.imp_of_mem
  intro a b ha hb hab
  rw [h.node_id hlt ha, h.node_id hlt hb]
  omega

end Observer

/-- An observer from its construction on; `size_t` has `w` bits. -/
def observer (α : Type*) (w : ℕ) : Machine (Observer α) (Observer.Event α) where
  init := { id := 1 % 2 ^ w }
  step := Observer.step w

theorem Observer.keyed_init (α : Type*) (w : ℕ) : (observer α w).init.Keyed w := by
  refine ⟨.nil, ?_, ?_, ?_, rfl, ?_⟩
  · intro x hx
    cases hx
  · intro x hx
    cases hx
  · intro i k hk
    cases hk
  · intro k hk
    cases hk

namespace Observer

variable {α : Type*} {w : ℕ}

theorem length_run {es : List (Event α)} :
    ∀ {s s' : Observer α}, (observer α w).runFrom s es = some s' →
      s'.subscriptions.length = s.subscriptions.length + (slots es).length := by
  induction es with
  | nil =>
      intro s s' h
      cases h
      rfl
  | cons e es ih =>
      intro s s' h
      obtain ⟨s₁, h₁, h₂⟩ := (observer α w).runFrom_cons_eq_some.mp h
      have hslots : (slots (e :: es)).length = e.made + (slots es).length := by
        cases e with
        | subscribe slot => exact Nat.add_comm _ _
        | unsubscribe | unsubscribeAll | emit | turn | slotReturns | emitEnds =>
            exact (Nat.zero_add _).symm
      rw [ih h₂, length_step h₁, hslots]
      omega

end Observer

end Vtrc
