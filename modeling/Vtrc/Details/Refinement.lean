import Vtrc.Details.NodeList
import Vtrc.Lib.Machine
import Mathlib.Logic.Equiv.Basic

/-! # Lists refine sequences (`details/list.h`)

Any number of list objects share the heap.  The machine `lists` executes the operations on them as
`NodeList.lean` has them; it has no step where the code is undefined.  `Permitted` is what the
operations ask of their callers and of the allocator: an object is there, an iterator stands on a
node that is met from `begin( )` or is `end( )`, and `new` gives out a free address.

`sequences` is what the operations are for: every object is a sequence of nodes, and a node is
an address (what an iterator holds) with its data.  `Represents` connects the two, and
`Represents.exec` is the simulation of one step.  It counts along what `size_` is off by: the number
of nodes that `clear` has taken out of the list and left in the counter (`lost`).

`links_refine`: from a permitted run the sequences can be read along both pointers. -/

namespace Vtrc

namespace Details

open Links

variable {ι : Type} {w : ℕ} {α : Type}

/-! ### Sequences -/

/-- The list objects that there are, and the nodes in them. -/
abbrev Sequences (ι : Type) (w : ℕ) (α : Type) := ι → Option (List (Ptr w × α))

/-- An operation on the objects; `n` is the address of the new node. -/
inductive Op (ι : Type) (w : ℕ) (α : Type) where
  | create (i : ι)
  | construct (i : ι) (range : List (Ptr w × α))
  | destroy (i : ι)
  | pushBack (i : ι) (n : Ptr w) (data : α)
  | pushFront (i : ι) (n : Ptr w) (data : α)
  | erase (i : ι) (itr : Iterator w)
  | rerase (i : ι) (itr : Iterator w)
  | spliceBack (i other : ι)
  | swap (i other : ι)
  | clear (i : ι)

/-- The objects that the operation is about. -/
def Op.objects : Op ι w α → List ι
  | .create i | .construct i _ | .destroy i | .pushBack i _ _ | .pushFront i _ _ | .erase i _
  | .rerase i _ | .clear i => [i]
  | .spliceBack i other | .swap i other => [i, other]

/-- The sequence without the node of the iterator. -/
def remove (s : List (Ptr w × α)) : Iterator w → List (Ptr w × α)
  | none => s
  | some n => s.filter (fun e => e.1 ≠ n)

/-- The node after that of the iterator. -/
def successor (s : List (Ptr w × α)) : Iterator w → Iterator w
  | none => none
  | some n => first ((s.dropWhile (fun e => e.1 ≠ n)).drop 1)

/-- The node before it. -/
def predecessor (s : List (Ptr w × α)) (itr : Iterator w) : Iterator w := successor s.reverse itr

section nodup

variable {xs ys : List (Ptr w × α)} {n : Ptr w} {x : α}

theorem forall_ne_of_not_mem (h : n ∉ addresses xs) :
    ∀ e ∈ xs, decide (e.1 ≠ n) = true := by
  intro e he
  rw [decide_eq_true_eq]
  rintro rfl
  exact h (mem_addresses.mpr ⟨e.2, he⟩)

theorem not_mem_sides (h : (addresses (xs ++ (n, x) :: ys)).Nodup) :
    n ∉ addresses xs ∧ n ∉ addresses ys := by
  rw [addresses_append, addresses_cons, List.nodup_middle, List.nodup_cons, List.mem_append,
    not_or] at h
  exact h.1

theorem remove_middle (h : (addresses (xs ++ (n, x) :: ys)).Nodup) :
    remove (xs ++ (n, x) :: ys) (some n) = xs ++ ys := by
  obtain ⟨hxs, hys⟩ := not_mem_sides h
  rw [remove, List.filter_append, List.filter_cons_of_neg (by simp),
    List.filter_eq_self.mpr (forall_ne_of_not_mem hxs),
    List.filter_eq_self.mpr (forall_ne_of_not_mem hys)]

theorem successor_middle (h : (addresses (xs ++ (n, x) :: ys)).Nodup) :
    successor (xs ++ (n, x) :: ys) (some n) = first ys := by
  rw [successor, List.dropWhile_append_of_pos (forall_ne_of_not_mem (not_mem_sides h).1),
    List.dropWhile_cons_of_neg (by simp), List.drop_one, List.tail_cons]

theorem predecessor_middle (h : (addresses (xs ++ (n, x) :: ys)).Nodup) :
    predecessor (xs ++ (n, x) :: ys) (some n) = last xs := by
  have hrev : (xs ++ (n, x) :: ys).reverse = ys.reverse ++ (n, x) :: xs.reverse := by simp
  rw [← List.nodup_reverse, ← addresses_reverse, hrev] at h
  unfold predecessor
  rw [hrev, successor_middle h, first_reverse]

end nodup

namespace Sequences

def init : Sequences ι w α := fun _ => none

/-- The nodes of an object. -/
def nodes (a : Sequences ι w α) (i : ι) : List (Ptr w × α) := (a i).getD []

variable [DecidableEq ι]

/-- What an operation makes of the sequences. -/
def apply (a : Sequences ι w α) : Op ι w α → Sequences ι w α
  | .create i => Function.update a i (some [])
  | .construct i range => Function.update a i (some range)
  | .destroy i => Function.update a i none
  | .pushBack i n data => Function.update a i (some (a.nodes i ++ [(n, data)]))
  | .pushFront i n data => Function.update a i (some ((n, data) :: a.nodes i))
  | .erase i itr | .rerase i itr => Function.update a i (some (remove (a.nodes i) itr))
  | .spliceBack i other =>
      if i = other then a
      else Function.update (Function.update a i (some (a.nodes i ++ a.nodes other))) other (some [])
  | .swap i other => Function.update (Function.update a i (a other)) other (a i)
  | .clear i => Function.update a i (some [])

/-- The iterator that an operation returns. -/
def returned (a : Sequences ι w α) : Op ι w α → Option (Iterator w)
  | .erase i itr => some (successor (a.nodes i) itr)
  | .rerase i itr => some (predecessor (a.nodes i) itr)
  | _ => none

/-- How many nodes `size_` of each object counts that are not there any more. -/
def lost (a : Sequences ι w α) (k : ι → ℕ) : Op ι w α → ι → ℕ
  | .create i | .construct i _ | .destroy i => Function.update k i 0
  | .spliceBack i other =>
      if i = other then k else Function.update (Function.update k i (k i + k other)) other 0
  | .swap i other => Function.update (Function.update k i (k other)) other (k i)
  | .clear i => Function.update k i (k i + (a.nodes i).length)
  | _ => k

theorem apply_of_not_mem (a : Sequences ι w α) {e : Op ι w α} {i : ι} (hi : i ∉ e.objects) :
    a.apply e i = a i := by
  cases e with
  | spliceBack j other =>
      simp only [Op.objects, List.mem_cons, List.not_mem_nil, or_false, not_or] at hi
      rw [apply]
      split_ifs
      · rfl
      · rw [Function.update_of_ne hi.2, Function.update_of_ne hi.1]
  | swap j other =>
      simp only [Op.objects, List.mem_cons, List.not_mem_nil, or_false, not_or] at hi
      rw [apply, Function.update_of_ne hi.2, Function.update_of_ne hi.1]
  | _ => exact Function.update_of_ne (List.ne_of_not_mem_cons hi) _ _

end Sequences

/-! ### The code -/

/-- The heap and the list objects. -/
structure Memory (ι : Type) (w : ℕ) (α : Type) where
  heap : NodeHeap w α
  lists : ι → Option (NodeList w)

namespace Memory

def init : Memory ι w α := ⟨fun _ => none, fun _ => none⟩

/-- The nodes met from `front_` along `next_`. -/
def forward (m : Memory ι w α) (i : ι) : List (Ptr w × α) :=
  match m.lists i with
  | none => []
  | some l => visit m.heap (Chain.walk (nextOf m.heap) (2 ^ w) l.front)

/-- The nodes met from `back_` along `prev_`. -/
def backward (m : Memory ι w α) (i : ι) : List (Ptr w × α) :=
  match m.lists i with
  | none => []
  | some l => visit m.heap (Chain.walk (prevOf m.heap) (2 ^ w) l.back)

/-- What an operation asks for. -/
def Permitted (m : Memory ι w α) : Op ι w α → Prop
  | .create i => m.lists i = none
  | .construct i range =>
      m.lists i = none ∧ (addresses range).Nodup ∧ ∀ a ∈ addresses range, m.heap a = none
  | .destroy i | .clear i => m.lists i ≠ none
  | .pushBack i n _ | .pushFront i n _ => m.lists i ≠ none ∧ m.heap n = none
  | .erase i itr | .rerase i itr =>
      m.lists i ≠ none ∧ ∀ n, itr = some n → n ∈ addresses (m.forward i)
  | .spliceBack i other | .swap i other => m.lists i ≠ none ∧ m.lists other ≠ none

/-- What an operation asks for can be checked. -/
instance decidablePermitted (m : Memory ι w α) : (e : Op ι w α) → Decidable (m.Permitted e)
  | .create i => inferInstanceAs (Decidable (m.lists i = none))
  | .construct i range =>
      -- address by address of the range, not of the heap
      have : Decidable (∀ a ∈ addresses range, m.heap a = none) := List.decidableBAll _ _
      inferInstanceAs (Decidable
        (m.lists i = none ∧ (addresses range).Nodup ∧ ∀ a ∈ addresses range, m.heap a = none))
  | .destroy i | .clear i => inferInstanceAs (Decidable (m.lists i ≠ none))
  | .pushBack i n _ | .pushFront i n _ =>
      inferInstanceAs (Decidable (m.lists i ≠ none ∧ m.heap n = none))
  | .erase i none | .rerase i none =>
      decidable_of_iff (m.lists i ≠ none) (by simp [Permitted])
  | .erase i (some n) | .rerase i (some n) =>
      decidable_of_iff (m.lists i ≠ none ∧ n ∈ addresses (m.forward i)) (by simp [Permitted])
  | .spliceBack i other | .swap i other =>
      inferInstanceAs (Decidable (m.lists i ≠ none ∧ m.lists other ≠ none))

variable [DecidableEq ι]

/-- The list object after an operation on it. -/
def set (m : Memory ι w α) (i : ι) (r : NodeHeap w α × NodeList w) : Memory ι w α :=
  ⟨r.1, Function.update m.lists i (some r.2)⟩

/-- The memory after an operation, and the iterator that it returns. -/
def exec (m : Memory ι w α) : Op ι w α → Option (Memory ι w α × Option (Iterator w))
  | .create i => some (m.set i (m.heap, {}), none)
  | .construct i range => do
      let r ← NodeList.construct m.heap range
      some (m.set i r, none)
  | .destroy i => do
      let l ← m.lists i
      let r ← NodeList.clear m.heap l
      some (⟨r.1, Function.update m.lists i none⟩, none)
  | .pushBack i n data => do
      let l ← m.lists i
      let r ← NodeList.pushBack m.heap l n data
      some (m.set i r, none)
  | .pushFront i n data => do
      let l ← m.lists i
      let r ← NodeList.pushFront m.heap l n data
      some (m.set i r, none)
  | .erase i itr => do
      let l ← m.lists i
      let r ← NodeList.erase m.heap l itr
      some (m.set i (r.1, r.2.1), some r.2.2)
  | .rerase i itr => do
      let l ← m.lists i
      let r ← NodeList.rerase m.heap l itr
      some (m.set i (r.1, r.2.1), some r.2.2)
  | .spliceBack i other => do
      let l ← m.lists i
      -- `&other != this`
      if i = other then some (m, none)
      else
        let o ← m.lists other
        let r ← NodeList.spliceBack m.heap l o
        some ((m.set i (r.1, r.2.1)).set other (r.1, r.2.2), none)
  | .swap i other => do
      let l ← m.lists i
      let o ← m.lists other
      let r := NodeList.swap l o
      some ((m.set i (m.heap, r.1)).set other (m.heap, r.2), none)
  | .clear i => do
      let l ← m.lists i
      let r ← NodeList.clear m.heap l
      some (m.set i r, none)

/-- The iterator that an operation returns. -/
def returned (m : Memory ι w α) (e : Op ι w α) : Option (Iterator w) :=
  (m.exec e).bind Prod.snd

end Memory

section machines

variable (ι w α) [DecidableEq ι]

/-- The code. -/
def lists : Machine (Memory ι w α) (Op ι w α) where
  init := .init
  step m e := (m.exec e).map Prod.fst

/-- What the code is for. -/
def sequences : Machine (Sequences ι w α) (Op ι w α) where
  init := .init
  step a e := some (a.apply e)

end machines

/-! ### The simulation -/

/-- The object stands for the sequence, and its counter is ahead by `k`. -/
structure Counts (h : NodeHeap w α) (k : ℕ) (l : NodeList w) (s : List (Ptr w × α)) : Prop where
  holds : NodeList.Holds h l s
  size : l.size = BitVec.ofNat w (s.length + k)

/-- The memory represents the sequences: object by object, with no node in two of them, and no
node on the heap that is in none. -/
structure Represents (m : Memory ι w α) (a : Sequences ι w α) (k : ι → ℕ) : Prop where
  each : ∀ i, Option.Rel (Counts m.heap (k i)) (m.lists i) (a i)
  apart : ∀ i j, i ≠ j → (addresses (a.nodes i)).Disjoint (addresses (a.nodes j))
  owned : ∀ p, m.heap p ≠ none → ∃ i, p ∈ addresses (a.nodes i)

theorem represents_init : Represents (.init : Memory ι w α) .init (fun _ => 0) where
  each _ := .none
  apart _ _ _ := List.disjoint_nil_left _
  owned _ hp := absurd rfl hp

theorem rel_congr {h h' : NodeHeap w α} {k : ℕ} {o : Option (NodeList w)}
    {s : Option (List (Ptr w × α))} (hrel : Option.Rel (Counts h k) o s)
    (hsame : ∀ p ∈ addresses (s.getD []), h' p = h p) : Option.Rel (Counts h' k) o s := by
  cases hrel with
  | none => exact .none
  | some hcounts => exact .some ⟨hcounts.holds.congr hsame, hcounts.size⟩

namespace Represents

variable {m : Memory ι w α} {a : Sequences ι w α} {k : ι → ℕ}

theorem of_lists (hm : Represents m a k) {i : ι} {l : NodeList w} (hl : m.lists i = some l) :
    a i = some (a.nodes i) ∧ Counts m.heap (k i) l (a.nodes i) := by
  have hrel := hm.each i
  rw [hl] at hrel
  rw [Sequences.nodes]
  generalize a i = s at hrel
  cases hrel with
  | some hcounts => exact ⟨rfl, hcounts⟩

theorem of_lists_none (hm : Represents m a k) {i : ι} (hl : m.lists i = none) : a i = none := by
  have hrel := hm.each i
  rw [hl] at hrel
  generalize a i = s at hrel
  cases hrel
  rfl

theorem ne_none (hm : Represents m a k) {i : ι} {p : Ptr w} (hp : p ∈ addresses (a.nodes i)) :
    m.heap p ≠ none := by
  have hrel := hm.each i
  rw [Sequences.nodes] at hp
  generalize m.lists i = o, a i = s at hrel hp
  cases hrel with
  | none => cases hp
  | some hcounts => exact hcounts.holds.segment.ne_none hp

/-- **Objects exchange everything.** -/
theorem comp (hm : Represents m a k) (σ : Equiv.Perm ι) :
    Represents ⟨m.heap, m.lists ∘ σ⟩ (a ∘ σ) (k ∘ σ) where
  each i := hm.each (σ i)
  apart i j hij := hm.apart (σ i) (σ j) (fun h => hij (σ.injective h))
  owned p hp := by
    obtain ⟨i, hi⟩ := hm.owned p hp
    refine ⟨σ.symm i, ?_⟩
    unfold Sequences.nodes at hi ⊢
    rwa [Function.comp_apply, Equiv.apply_symm_apply]

theorem forward_eq (hm : Represents m a k) (i : ι) : m.forward i = a.nodes i := by
  unfold Memory.forward
  cases hl : m.lists i with
  | none => rw [Sequences.nodes, hm.of_lists_none hl]; rfl
  | some l =>
      have hholds := (hm.of_lists hl).2.holds
      simp only
      rw [hholds.front, hholds.segment.visit_forward hholds.length_lt.le]

theorem backward_eq (hm : Represents m a k) (i : ι) : m.backward i = (a.nodes i).reverse := by
  unfold Memory.backward
  cases hl : m.lists i with
  | none => rw [Sequences.nodes, hm.of_lists_none hl]; rfl
  | some l =>
      have hholds := (hm.of_lists hl).2.holds
      simp only
      rw [hholds.back, hholds.segment.visit_backward hholds.length_lt.le]

variable [DecidableEq ι]

theorem nodes_update (a : Sequences ι w α) (i : ι) (s : Option (List (Ptr w × α))) (j : ι) :
    Sequences.nodes (Function.update a i s) j = if j = i then s.getD [] else a.nodes j := by
  unfold Sequences.nodes
  rw [Function.update_apply]
  split_ifs <;> rfl

/-- **One object changes**, and the heap as `Changes` allows. -/
theorem change (hm : Represents m a k) (i : ι) {h' : NodeHeap w α} {o : Option (NodeList w)}
    {s : Option (List (Ptr w × α))} {n : ℕ}
    (hc : NodeList.Changes m.heap h' (a.nodes i) (s.getD [])) (hi : Option.Rel (Counts h' n) o s) :
    Represents ⟨h', Function.update m.lists i o⟩ (Function.update a i s) (Function.update k i n) := by
  -- a node of another object is in neither sequence
  have hother : ∀ j, j ≠ i → ∀ p ∈ addresses (a.nodes j),
      p ∉ addresses (a.nodes i) ∧ p ∉ addresses (s.getD []) := by
    intro j hj p hp
    have hout := hm.apart j i hj hp
    exact ⟨hout, fun hs => hm.ne_none hp (hc.taken p hs hout)⟩
  refine ⟨?_, ?_, ?_⟩
  · intro j
    by_cases hj : j = i
    · subst hj
      simpa only [Function.update_self] using hi
    · simp only [Function.update_of_ne hj]
      have hsame : ∀ p ∈ addresses (a.nodes j), h' p = m.heap p := by
        intro p hp
        obtain ⟨hp₁, hp₂⟩ := hother j hj p hp
        exact hc.frame p hp₁ hp₂
      exact rel_congr (hm.each j) hsame
  · intro j j' hne
    rw [nodes_update, nodes_update]
    split_ifs with hj hj'
    · exact absurd (hj.trans hj'.symm) hne
    · exact fun p hp hp' => (hother j' hj' p hp').2 hp
    · exact fun p hp hp' => (hother j hj p hp).2 hp'
    · exact hm.apart j j' hne
  · intro p hp
    by_cases hs : p ∈ addresses (s.getD [])
    · exact ⟨i, by rwa [nodes_update, if_pos rfl]⟩
    · have hi : p ∉ addresses (a.nodes i) := fun hmem => hp (hc.freed p hmem hs)
      change h' p ≠ none at hp
      rw [hc.frame p hi hs] at hp
      obtain ⟨j, hj⟩ := hm.owned p hp
      have hne : j ≠ i := by
        rintro rfl
        exact hi hj
      exact ⟨j, by rwa [nodes_update, if_neg hne]⟩

theorem set (hm : Represents m a k) (i : ι) {r : NodeHeap w α × NodeList w}
    {s : List (Ptr w × α)} (hc : NodeList.Changes m.heap r.1 (a.nodes i) s)
    (hr : NodeList.Holds r.1 r.2 s) (hsize : r.2.size = BitVec.ofNat w (s.length + k i)) :
    Represents (m.set i r) (Function.update a i (some s)) k := by
  have h := hm.change i (s := some s) hc (.some ⟨hr, hsize⟩)
  rwa [Function.update_eq_self] at h

/-- **Two lists are joined.** -/
theorem splice (hm : Represents m a k) {i j : ι} (hij : i ≠ j) {h' : NodeHeap w α}
    {l' : NodeList w}
    (hf : ∀ p, p ∉ addresses (a.nodes i ++ a.nodes j) → h' p = m.heap p)
    (hl' : Counts h' (k i + k j) l' (a.nodes i ++ a.nodes j)) :
    Represents ((m.set i (h', l')).set j (h', {}))
      (Function.update (Function.update a i (some (a.nodes i ++ a.nodes j))) j (some []))
      (Function.update (Function.update k i (k i + k j)) j 0) := by
  have hother : ∀ c, c ≠ i → c ≠ j → ∀ p ∈ addresses (a.nodes c),
      p ∉ addresses (a.nodes i ++ a.nodes j) := by
    intro c hci hcj p hp
    rw [addresses_append, List.mem_append, not_or]
    exact ⟨hm.apart c i hci hp, hm.apart c j hcj hp⟩
  refine ⟨?_, ?_, ?_⟩
  · intro c
    by_cases hcj : c = j
    · subst hcj
      simp only [Memory.set, Function.update_self]
      exact .some ⟨NodeList.holds_empty h', rfl⟩
    · simp only [Memory.set, Function.update_of_ne hcj]
      by_cases hci : c = i
      · subst hci
        simp only [Function.update_self]
        exact .some hl'
      · simp only [Function.update_of_ne hci]
        exact rel_congr (hm.each c) (fun p hp => hf p (hother c hci hcj p hp))
  · intro c c' hne
    simp only [nodes_update]
    by_cases hcj : c = j
    · rw [if_pos hcj]
      exact List.disjoint_nil_left _
    by_cases hcj' : c' = j
    · rw [if_pos hcj']
      exact List.disjoint_nil_right _
    rw [if_neg hcj, if_neg hcj']
    split_ifs with hci hci'
    · exact absurd (hci.trans hci'.symm) hne
    · exact fun p hp hp' => hother c' hci' hcj' p hp' hp
    · exact fun p hp hp' => hother c hci hcj p hp hp'
    · exact hm.apart c c' hne
  · intro p hp
    by_cases hs : p ∈ addresses (a.nodes i ++ a.nodes j)
    · exact ⟨i, by rwa [nodes_update, if_neg hij, nodes_update, if_pos rfl]⟩
    · change h' p ≠ none at hp
      rw [hf p hs] at hp
      obtain ⟨c, hc⟩ := hm.owned p hp
      rw [addresses_append, List.mem_append, not_or] at hs
      have hci : c ≠ i := by
        rintro rfl
        exact hs.1 hc
      have hcj : c ≠ j := by
        rintro rfl
        exact hs.2 hc
      exact ⟨c, by rwa [nodes_update, if_neg hcj, nodes_update, if_neg hci]⟩

/-! ### One step -/

theorem size_add_one {l l' : NodeList w} {n c : ℕ} (h : l.size = BitVec.ofNat w (n + c))
    (h' : l'.size = l.size + 1) : l'.size = BitVec.ofNat w (n + 1 + c) := by
  rw [h', h, Nat.add_right_comm, BitVec.ofNat_add (n + c)]
  rfl

/-- Both ways to remove the node of an iterator. -/
theorem erase (hm : Represents m a k) {i : ι} {l : NodeList w} (hl : m.lists i = some l)
    (itr : Iterator w) (hlive : ∀ n, itr = some n → n ∈ addresses (m.forward i)) :
    ∃ r : NodeHeap w α × NodeList w,
      NodeList.erase m.heap l itr = some (r.1, r.2, successor (a.nodes i) itr) ∧
      NodeList.rerase m.heap l itr = some (r.1, r.2, predecessor (a.nodes i) itr) ∧
      Represents (m.set i r) (Function.update a i (some (remove (a.nodes i) itr))) k := by
  obtain ⟨_, hcounts⟩ := hm.of_lists hl
  cases itr with
  | none =>
      exact ⟨(m.heap, l), rfl, rfl,
        hm.set i (NodeList.Changes.refl m.heap _) hcounts.holds hcounts.size⟩
  | some n =>
      have hn := hlive n rfl
      rw [hm.forward_eq] at hn
      obtain ⟨x, hx⟩ := mem_addresses.mp hn
      obtain ⟨xs, ys, hsplit⟩ := List.append_of_mem hx
      have hholds := hcounts.holds
      have hcount := hcounts.size
      rw [hsplit] at hholds hcount
      obtain ⟨h', l', herase, hrerase, hl', hsize, hc⟩ := NodeList.erase_spec hholds
      rw [hsplit, successor_middle hholds.nodup, predecessor_middle hholds.nodup,
        remove_middle hholds.nodup]
      refine ⟨(h', l'), herase, hrerase, hm.set i (hsplit ▸ hc) hl' ?_⟩
      have hlen : (xs ++ (n, x) :: ys).length + k i = (xs ++ ys).length + k i + 1 := by
        simp only [List.length_append, List.length_cons]
        omega
      rw [hsize, hcount, hlen, BitVec.ofNat_add]
      exact BitVec.add_sub_cancel _ _

/-- Two lists are joined by `splice_back`. -/
theorem spliceBack (hm : Represents m a k) {i j : ι} (hij : i ≠ j) {l o : NodeList w}
    (hl : m.lists i = some l) (ho : m.lists j = some o) :
    ∃ h' l', NodeList.spliceBack m.heap l o = some (h', l', {}) ∧
      Represents ((m.set i (h', l')).set j (h', {})) (a.apply (.spliceBack i j))
        (a.lost k (.spliceBack i j)) := by
  obtain ⟨_, hcl⟩ := hm.of_lists hl
  obtain ⟨_, hco⟩ := hm.of_lists ho
  obtain ⟨h', l', hsplice, hl', hsize, hf⟩ :=
    NodeList.spliceBack_spec hcl.holds hco.holds (hm.apart i j hij)
  refine ⟨h', l', hsplice, ?_⟩
  rw [Sequences.apply, Sequences.lost, if_neg hij, if_neg hij]
  refine hm.splice hij hf ⟨hl', ?_⟩
  rw [hsize, hcl.size, hco.size, ← BitVec.ofNat_add, List.length_append]
  congr 1
  omega

/-- **The simulation.**  A permitted operation is defined, returns what it should and leads to
what the sequences become. -/
theorem exec (hm : Represents m a k) {e : Op ι w α} (he : m.Permitted e) :
    ∃ m', m.exec e = some (m', a.returned e) ∧ Represents m' (a.apply e) (a.lost k e) := by
  cases e with
  | create i =>
      have hi : a i = none := hm.of_lists_none he
      refine ⟨m.set i (m.heap, {}), rfl, hm.change i ?_ (.some ⟨NodeList.holds_empty _, rfl⟩)⟩
      rw [Sequences.nodes, hi]
      exact NodeList.Changes.refl m.heap []
  | construct i range =>
      obtain ⟨hnone, hnodup, hfree⟩ := he
      have hi : a i = none := hm.of_lists_none hnone
      obtain ⟨h', l', hconstruct, hl', hsize, hc⟩ := NodeList.construct_spec hnodup hfree
      refine ⟨m.set i (h', l'), ?_, hm.change i ?_ (.some ⟨hl', hsize⟩)⟩
      · simp only [Memory.exec, hconstruct, Option.bind_eq_bind, Option.bind_some]
        rfl
      · rw [Sequences.nodes, hi]
        exact hc
  | destroy i =>
      obtain ⟨l, hl⟩ := Option.ne_none_iff_exists'.mp he
      obtain ⟨_, hcounts⟩ := hm.of_lists hl
      obtain ⟨h', hclear, _, hc⟩ := NodeList.clear_spec hcounts.holds
      refine ⟨⟨h', Function.update m.lists i none⟩, ?_, hm.change i hc .none⟩
      simp only [Memory.exec, hl, hclear, Option.bind_eq_bind, Option.bind_some]
      rfl
  | pushBack i n data =>
      obtain ⟨l, hl⟩ := Option.ne_none_iff_exists'.mp he.1
      obtain ⟨_, hcounts⟩ := hm.of_lists hl
      obtain ⟨h', l', hpush, hl', hsize, hc⟩ := NodeList.pushBack_spec hcounts.holds he.2 data
      refine ⟨m.set i (h', l'), ?_, hm.set i hc hl' ?_⟩
      · simp only [Memory.exec, hl, hpush, Option.bind_eq_bind, Option.bind_some]
        rfl
      · rw [List.length_append]
        exact size_add_one hcounts.size hsize
  | pushFront i n data =>
      obtain ⟨l, hl⟩ := Option.ne_none_iff_exists'.mp he.1
      obtain ⟨_, hcounts⟩ := hm.of_lists hl
      obtain ⟨h', l', hpush, hl', hsize, hc⟩ := NodeList.pushFront_spec hcounts.holds he.2 data
      refine ⟨m.set i (h', l'), ?_, hm.set i hc hl' (size_add_one hcounts.size hsize)⟩
      simp only [Memory.exec, hl, hpush, Option.bind_eq_bind, Option.bind_some]
      rfl
  | erase i itr =>
      obtain ⟨l, hl⟩ := Option.ne_none_iff_exists'.mp he.1
      obtain ⟨r, herase, _, hr⟩ := hm.erase hl itr he.2
      refine ⟨m.set i r, ?_, hr⟩
      simp only [Memory.exec, hl, herase, Option.bind_eq_bind, Option.bind_some]
      rfl
  | rerase i itr =>
      obtain ⟨l, hl⟩ := Option.ne_none_iff_exists'.mp he.1
      obtain ⟨r, _, hrerase, hr⟩ := hm.erase hl itr he.2
      refine ⟨m.set i r, ?_, hr⟩
      simp only [Memory.exec, hl, hrerase, Option.bind_eq_bind, Option.bind_some]
      rfl
  | spliceBack i other =>
      obtain ⟨l, hl⟩ := Option.ne_none_iff_exists'.mp he.1
      obtain ⟨o, ho⟩ := Option.ne_none_iff_exists'.mp he.2
      by_cases hio : i = other
      · refine ⟨m, ?_, ?_⟩
        · simp only [Memory.exec, hl, if_pos hio, Option.bind_eq_bind, Option.bind_some]
          rfl
        · rw [Sequences.apply, Sequences.lost, if_pos hio, if_pos hio]
          exact hm
      · obtain ⟨h', l', hsplice, hm'⟩ := hm.spliceBack hio hl ho
        refine ⟨(m.set i (h', l')).set other (h', {}), ?_, hm'⟩
        simp only [Memory.exec, hl, ho, if_neg hio, hsplice, Option.bind_eq_bind,
          Option.bind_some]
        rfl
  | swap i other =>
      obtain ⟨l, hl⟩ := Option.ne_none_iff_exists'.mp he.1
      obtain ⟨o, ho⟩ := Option.ne_none_iff_exists'.mp he.2
      refine ⟨(m.set i (m.heap, o)).set other (m.heap, l), ?_, ?_⟩
      · simp only [Memory.exec, hl, ho, NodeList.swap, Option.bind_eq_bind, Option.bind_some]
        rfl
      · have h := hm.comp (Equiv.swap other i)
        rw [Equiv.comp_swap_eq_update, Equiv.comp_swap_eq_update, Equiv.comp_swap_eq_update, hl,
          ho] at h
        exact h
  | clear i =>
      obtain ⟨l, hl⟩ := Option.ne_none_iff_exists'.mp he
      obtain ⟨_, hcounts⟩ := hm.of_lists hl
      obtain ⟨h', hclear, hl', hc⟩ := NodeList.clear_spec hcounts.holds
      refine ⟨m.set i (h', { l with front := none, back := none }), ?_,
        hm.change i hc (.some ⟨hl', ?_⟩)⟩
      · simp only [Memory.exec, hl, hclear, Option.bind_eq_bind, Option.bind_some]
        rfl
      · rw [List.length_nil, Nat.zero_add, Nat.add_comm (k i)]
        exact hcounts.size

end Represents

/-! ### Runs -/

/-- The sequences can be read from the pointers. -/
structure Memory.Shows (m : Memory ι w α) (a : Sequences ι w α) : Prop where
  exists_iff : ∀ i, m.lists i = none ↔ a i = none
  forward : ∀ i, m.forward i = a.nodes i
  backward : ∀ i, m.backward i = (a.nodes i).reverse
  null : ∀ i l, m.lists i = some l →
    (l.front = none ↔ a.nodes i = []) ∧ (l.back = none ↔ a.nodes i = [])

theorem Represents.shows {m : Memory ι w α} {a : Sequences ι w α} {k : ι → ℕ}
    (hm : Represents m a k) : m.Shows a where
  exists_iff i := by
    have hrel := hm.each i
    generalize m.lists i = o, a i = s at hrel
    cases hrel <;> simp
  forward := hm.forward_eq
  backward := hm.backward_eq
  null i l hl := by
    have hholds := (hm.of_lists hl).2.holds
    rw [hholds.front, hholds.back]
    exact ⟨first_eq_none, last_eq_none⟩

variable [DecidableEq ι]

theorem Represents.step {m : Memory ι w α} {a : Sequences ι w α} {k : ι → ℕ}
    (hm : Represents m a k) {e : Op ι w α} (he : m.Permitted e) :
    ∃ m', (lists ι w α).step m e = some m' ∧ m.returned e = a.returned e ∧
      Represents m' (a.apply e) (a.lost k e) := by
  obtain ⟨m', hexec, hm'⟩ := hm.exec he
  refine ⟨m', ?_, ?_, hm'⟩
  · change (m.exec e).map Prod.fst = some m'
    rw [hexec]
    rfl
  · rw [Memory.returned, hexec]
    rfl

/-- A permitted run of the code is a run on the sequences. -/
theorem Represents.run {es : List (Op ι w α)} {m : Memory ι w α} {a : Sequences ι w α}
    {k : ι → ℕ} (hm : Represents m a k) (h : (lists ι w α).Meets Memory.Permitted m es) :
    ∃ m' a' k', (lists ι w α).runFrom m es = some m' ∧ (sequences ι w α).runFrom a es = some a' ∧
      (lists ι w α).outputsFrom Memory.returned m es =
        (sequences ι w α).outputsFrom Sequences.returned a es ∧
      Represents m' a' k' := by
  induction es generalizing m a k with
  | nil => exact ⟨m, a, k, rfl, rfl, rfl, hm⟩
  | cons e es ih =>
      obtain ⟨m₁, hstep, hret, hm₁⟩ := hm.step h.1
      obtain ⟨m', a', k', hrun, hrun', hout, hm'⟩ := ih hm₁ (h.2 m₁ hstep)
      refine ⟨m', a', k', ?_, hrun', ?_, hm'⟩
      · rw [Machine.runFrom_cons, hstep, Option.bind_some, hrun]
      · have hstep' : (sequences ι w α).step a e = some (a.apply e) := rfl
        rw [(lists ι w α).outputsFrom_cons _ hstep,
          (sequences ι w α).outputsFrom_cons _ hstep', hret, hout]

/-- **Lists refine sequences.**  Every permitted run of operations on list objects is defined; in
the state that it leads to, following `next_` from `front_` visits the nodes that the operations on
sequences give, following `prev_` from `back_` visits them in reverse, and both pointers are null
together when there are none; the iterators that were returned are those of the sequences; and no
operation changed an object that it is not about. -/
theorem links_refine {es : List (Op ι w α)}
    (h : (lists ι w α).Meets Memory.Permitted Memory.init es) :
    ∃ m a, (lists ι w α).run es = some m ∧ (sequences ι w α).run es = some a ∧ m.Shows a ∧
      (lists ι w α).outputsFrom Memory.returned Memory.init es =
        (sequences ι w α).outputsFrom Sequences.returned Sequences.init es ∧
      ∀ p e q m₁ m₂, es = p ++ e :: q → (lists ι w α).run p = some m₁ →
        (lists ι w α).step m₁ e = some m₂ → ∀ i, i ∉ e.objects →
          m₂.forward i = m₁.forward i ∧ m₂.backward i = m₁.backward i := by
  obtain ⟨m, a, k, hrun, hrun', hout, hm⟩ := represents_init.run h
  refine ⟨m, a, hrun, hrun', hm.shows, hout, ?_⟩
  rintro p e q m₁ m₂ rfl hp hstep i hi
  obtain ⟨m₁', a₁, k₁, hp', _, _, hm₁⟩ := represents_init.run h.of_append
  cases hp.symm.trans hp'
  obtain ⟨m₂', hstep', _, hm₂⟩ := hm₁.step (h.at_step hp)
  cases hstep.symm.trans hstep'
  have hsame : (a₁.apply e).nodes i = a₁.nodes i := by
    unfold Sequences.nodes
    rw [a₁.apply_of_not_mem hi]
  rw [hm₂.forward_eq, hm₁.forward_eq, hm₂.backward_eq, hm₁.backward_eq, hsame]
  exact ⟨rfl, rfl⟩

/-- Two lists, one spliced onto the other, a removal, an exchange and a `clear`. -/
theorem links_refine_mixed :
    let es : List (Op Bool 64 Char) := [.create false,
      .construct true [(⟨2, by decide⟩, 'b'), (⟨3, by decide⟩, 'c')],
      .pushFront false ⟨1, by decide⟩ 'a', .spliceBack false true,
      .rerase false (some ⟨2, by decide⟩), .swap false true, .clear false]
    ∃ m a, (lists Bool 64 Char).run es = some m ∧ (sequences Bool 64 Char).run es = some a ∧
      m.Shows a := by
  intro es
  have hes : (lists Bool 64 Char).Meets Memory.Permitted Memory.init es := by decide +kernel
  obtain ⟨m, a, hrun, hrun', hshows, _⟩ := links_refine hes
  exact ⟨m, a, hrun, hrun', hshows⟩

end Details

end Vtrc
