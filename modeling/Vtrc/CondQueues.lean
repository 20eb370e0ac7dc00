import Mathlib.Algebra.Order.Ring.Nat
import Mathlib.Data.List.Basic
import Mathlib.Data.List.Sort

/-! # Condition queues (`condition-queues.h`)

`condition_queues` is a map from keys to queues on which a thread can wait.  The values of the
map are shared pointers: a writer looks its queue up under the lock of the map and pushes under
the lock of the queue, so that a queue can be erased between the two and the push then goes to a
queue that the map no longer has.

`CondQueues K V` therefore keeps every queue that was ever added, in the order of `add_queue`.  A
`HoldValue` knows its key and whether the map still has it (`stored`); a shared pointer to a queue
is its position.  That the map has at most one queue for a key is part of the type.

Each operation is one critical section.  A read is two of them, the beginning (`readBegin`: the
lookup and the reset of `canceled_`) and the end of the wait (`readEnd`).

An operation that goes through the map (`write_all`, `cancel_all`, `erase_all`) holds the lock of
the map, but takes the locks of the queues one after the other.  `cancelValue`, `pushValues`,
`takeFront` and `removeSlots` are the steps that a thread makes under one lock, and `storedSlots`
is the way through the map; `Slots` builds the interleavings of threads from them. -/

namespace Vtrc

/-- `hold_value_type`, with the key it was inserted under and whether `store_` still has it. -/
structure HoldValue (K V : Type) where
  key : K
  stored : Bool := true
  canceled : Bool := false
  data : List V := []

/-- Two values that the map cannot have at the same time. -/
def HoldValue.Apart {K V : Type} (a b : HoldValue K V) : Prop :=
  a.stored = true → b.stored = true → a.key ≠ b.key

/-- Every queue added so far; those that the map has differ in their keys. -/
structure CondQueues (K V : Type) where
  values : List (HoldValue K V)
  unique : values.Pairwise HoldValue.Apart

/-- How a read ends: `WAIT_RESULT_SUCCESS` with the front of the queue, `WAIT_RESULT_CANCELED`,
`WAIT_RESULT_TIMEOUT`. -/
inductive ReadResult (V : Type) where
  | success (v : V)
  | canceled
  | timeout
deriving DecidableEq, Repr

namespace CondQueues

variable {K V : Type}

/-- No queues. -/
def empty : CondQueues K V := ⟨[], .nil⟩

/-- The keys of `store_`. -/
def keys (q : CondQueues K V) : List K := (q.values.filter (·.stored)).map (·.key)

/-- A change of the queues that keeps their keys and puts none back into the map. -/
structure Keeps (f : ℕ → HoldValue K V → HoldValue K V) : Prop where
  key : ∀ n h, (f n h).key = h.key
  stored : ∀ n h, (f n h).stored = true → h.stored = true

theorem pairwise_mapIdx {f : ℕ → HoldValue K V → HoldValue K V} (hf : Keeps f)
    {vs : List (HoldValue K V)} (h : vs.Pairwise HoldValue.Apart) :
    (vs.mapIdx f).Pairwise HoldValue.Apart := by
  rw [List.pairwise_iff_getElem] at h ⊢
  intro i j hi hj hij
  rw [List.getElem_mapIdx, List.getElem_mapIdx]
  intro ha hb
  rw [hf.key, hf.key]
  exact h i j (by simpa using hi) (by simpa using hj) hij (hf.stored _ _ ha) (hf.stored _ _ hb)

/-- The queues after a change of each of them. -/
def update (q : CondQueues K V) (f : ℕ → HoldValue K V → HoldValue K V) (hf : Keeps f) :
    CondQueues K V :=
  ⟨q.values.mapIdx f, pairwise_mapIdx hf q.unique⟩

/-- A change of the queue number `i` that keeps its key and its place in the map. -/
def updateAt (q : CondQueues K V) (i : ℕ) (f : HoldValue K V → HoldValue K V)
    (hf : ∀ h, (f h).key = h.key ∧ (f h).stored = h.stored) : CondQueues K V :=
  q.update (fun n h => if n = i then f h else h) (by
    refine ⟨fun n h => ?_, fun n h hs => ?_⟩
    · split_ifs
      · exact (hf h).1
      · rfl
    · split_ifs at hs
      · exact (hf h).2.symm.trans hs
      · exact hs)

/-! ### The operations -/

/-- `cancel_all`. -/
def cancelAll (q : CondQueues K V) : CondQueues K V :=
  q.update (fun _ h => if h.stored then { h with canceled := true } else h) (by
    refine ⟨fun n h => ?_, fun n h hs => ?_⟩
    · split_ifs <;> rfl
    · split_ifs at hs with hst
      · exact hst
      · exact hs)

/-- `write_all`. -/
def writeAll (q : CondQueues K V) (v : V) : CondQueues K V :=
  q.update (fun _ h => if h.stored then { h with data := h.data ++ [v] } else h) (by
    refine ⟨fun n h => ?_, fun n h hs => ?_⟩
    · split_ifs <;> rfl
    · split_ifs at hs with hst
      · exact hst
      · exact hs)

/-- `push_value_data`, on the queue that a lookup has found. -/
def pushValueData (q : CondQueues K V) (i : ℕ) (v : V) : CondQueues K V :=
  q.updateAt i (fun h => { h with data := h.data ++ [v] }) (fun _ => ⟨rfl, rfl⟩)

/-- The first part of `read_impl`. -/
def readBegin (q : CondQueues K V) (i : ℕ) : CondQueues K V :=
  q.updateAt i (fun h => { h with canceled := false }) (fun _ => ⟨rfl, rfl⟩)

/-- The end of the wait in `read_impl`: `wait_for` returns the value of its predicate, so that
it times out only on an empty queue that is not cancelled; `none` while the thread waits. -/
def readResult (h : HoldValue K V) (timedOut : Bool) : Option (ReadResult V) :=
  if h.canceled then some .canceled
  else
    match h.data with
    | v :: _ => some (.success v)
    | [] => if timedOut then some .timeout else none

/-- `pop_front`, when the read was a success. -/
def readEnd (q : CondQueues K V) (i : ℕ) : ReadResult V → CondQueues K V
  | .success _ => q.updateAt i (fun h => { h with data := h.data.tail }) (fun _ => ⟨rfl, rfl⟩)
  | _ => q

/-- `cancel_value`. -/
def cancelValue (q : CondQueues K V) (i : ℕ) : CondQueues K V :=
  q.updateAt i (fun h => { h with canceled := true }) (fun _ => ⟨rfl, rfl⟩)

/-- `data_.insert( data_.end( ), … )`, under the lock of the queue. -/
def pushValues (q : CondQueues K V) (i : ℕ) (vs : List V) : CondQueues K V :=
  q.updateAt i (fun h => { h with data := h.data ++ vs }) (fun _ => ⟨rfl, rfl⟩)

/-- The first `n` values leave the queue. -/
def takeFront (q : CondQueues K V) (i n : ℕ) : CondQueues K V :=
  q.updateAt i (fun h => { h with data := h.data.drop n }) (fun _ => ⟨rfl, rfl⟩)

/-- `store_.erase` of the queues `is`. -/
def removeSlots (q : CondQueues K V) (is : List ℕ) : CondQueues K V :=
  q.update (fun n h => if n ∈ is then { h with stored := false } else h) (by
    refine ⟨fun n h => ?_, fun n h hs => ?_⟩
    · split_ifs <;> rfl
    · split_ifs at hs
      exact hs)

/-- The queues of the map in the order of their keys, `store_.begin( )` to `store_.end( )`. -/
def storedSlots [LinearOrder K] (q : CondQueues K V) : List ℕ :=
  ((q.values.zipIdx.filter (·.1.stored)).insertionSort (fun a b => a.1.key ≤ b.1.key)).map (·.2)

/-- `data_` of the queue number `i`. -/
def dataAt (q : CondQueues K V) (i : ℕ) : List V := (q.values[i]?).elim [] (·.data)

/-- `canceled_` of the queue number `i`. -/
def canceledAt (q : CondQueues K V) (i : ℕ) : Bool := (q.values[i]?).elim false (·.canceled)

/-- Whether the map has the queue number `i`. -/
def storedAt (q : CondQueues K V) (i : ℕ) : Bool := (q.values[i]?).elim false (·.stored)

section keyed

variable [DecidableEq K]

/-- `value_by_key`, as the position of the queue. -/
def valueByKey (q : CondQueues K V) (k : K) : Option ℕ :=
  q.values.findIdx? (fun h => h.stored && decide (h.key = k))

theorem apart_of_valueByKey {q : CondQueues K V} {k : K} (h : q.valueByKey k = none) :
    (q.values ++ [({ key := k } : HoldValue K V)]).Pairwise HoldValue.Apart := by
  rw [List.pairwise_append]
  refine ⟨q.unique, List.pairwise_singleton _ _, ?_⟩
  intro a ha b hb hs _
  obtain rfl := List.mem_singleton.mp hb
  have := List.findIdx?_eq_none_iff.mp h a ha
  simpa [hs] using this

/-- `add_queue`: `map::insert` leaves a queue alone that is already there. -/
def addQueue (q : CondQueues K V) (k : K) : CondQueues K V :=
  if h : q.valueByKey k = none then ⟨q.values ++ [{ key := k }], apart_of_valueByKey h⟩ else q

/-- `erase_queue`. -/
def eraseQueue (q : CondQueues K V) (k : K) : CondQueues K V :=
  q.update (fun _ h =>
    if h.stored = true ∧ h.key = k then { h with stored := false, canceled := true } else h) (by
    refine ⟨fun n h => ?_, fun n h hs => ?_⟩
    · split_ifs <;> rfl
    · split_ifs at hs
      exact hs)

end keyed

/-! ### Queues one by one -/

theorem update_values {q : CondQueues K V} {f : ℕ → HoldValue K V → HoldValue K V} {hf : Keeps f}
    {i : ℕ} {h' : HoldValue K V} :
    (q.update f hf).values[i]? = some h' ↔ ∃ h, q.values[i]? = some h ∧ f i h = h' := by
  rw [update, List.getElem?_mapIdx, Option.map_eq_some_iff]

@[simp] theorem update_length {q : CondQueues K V} {f : ℕ → HoldValue K V → HoldValue K V}
    {hf : Keeps f} : (q.update f hf).values.length = q.values.length := by
  rw [update, List.length_mapIdx]

@[simp] theorem updateAt_length {q : CondQueues K V} {i : ℕ} {f : HoldValue K V → HoldValue K V}
    {hf : ∀ h, (f h).key = h.key ∧ (f h).stored = h.stored} :
    (q.updateAt i f hf).values.length = q.values.length := by
  rw [updateAt, update_length]

theorem updateAt_getElem? {q : CondQueues K V} {i n : ℕ} {f : HoldValue K V → HoldValue K V}
    {hf : ∀ h, (f h).key = h.key ∧ (f h).stored = h.stored} :
    (q.updateAt i f hf).values[n]? =
      (q.values[n]?).map (fun h => if n = i then f h else h) := by
  rw [updateAt, update, List.getElem?_mapIdx]

theorem mem_keys {q : CondQueues K V} {k : K} :
    k ∈ q.keys ↔ ∃ (i : ℕ) (h : HoldValue K V),
      q.values[i]? = some h ∧ h.stored = true ∧ h.key = k := by
  simp only [keys, List.mem_map, List.mem_filter]
  constructor
  · rintro ⟨h, ⟨hm, hs⟩, hk⟩
    obtain ⟨i, hi⟩ := List.mem_iff_getElem?.mp hm
    exact ⟨i, h, hi, hs, hk⟩
  · rintro ⟨i, h, hi, hs, hk⟩
    exact ⟨h, ⟨List.mem_of_getElem? hi, hs⟩, hk⟩

/-- The keys of the map after a change, when the change decides what the map still has. -/
theorem mem_keys_update {q : CondQueues K V} {f : ℕ → HoldValue K V → HoldValue K V} {hf : Keeps f}
    {k : K} : k ∈ (q.update f hf).keys ↔
      ∃ i h, q.values[i]? = some h ∧ (f i h).stored = true ∧ h.key = k := by
  rw [mem_keys]
  constructor
  · rintro ⟨i, h', hi, hs, hk⟩
    obtain ⟨h, hi₀, rfl⟩ := update_values.mp hi
    exact ⟨i, h, hi₀, hs, (hf.key i h).symm.trans hk⟩
  · rintro ⟨i, h, hi, hs, hk⟩
    exact ⟨i, f i h, update_values.mpr ⟨h, hi, rfl⟩, hs, (hf.key i h).trans hk⟩

theorem mem_keys_update_of_stored {q : CondQueues K V} {f : ℕ → HoldValue K V → HoldValue K V}
    {hf : Keeps f} (hs : ∀ n h, (f n h).stored = h.stored) {k : K} :
    k ∈ (q.update f hf).keys ↔ k ∈ q.keys := by
  rw [mem_keys_update, mem_keys]
  simp only [hs]

@[simp] theorem mem_keys_updateAt {q : CondQueues K V} {i : ℕ}
    {f : HoldValue K V → HoldValue K V} {hf : ∀ h, (f h).key = h.key ∧ (f h).stored = h.stored}
    {k : K} : k ∈ (q.updateAt i f hf).keys ↔ k ∈ q.keys := by
  refine mem_keys_update_of_stored (fun n h => ?_)
  split_ifs
  · exact (hf h).2
  · rfl

@[simp] theorem mem_keys_cancelAll {q : CondQueues K V} {k : K} :
    k ∈ q.cancelAll.keys ↔ k ∈ q.keys :=
  mem_keys_update_of_stored (fun n h => by split_ifs <;> rfl)

@[simp] theorem mem_keys_writeAll {q : CondQueues K V} {v : V} {k : K} :
    k ∈ (q.writeAll v).keys ↔ k ∈ q.keys :=
  mem_keys_update_of_stored (fun n h => by split_ifs <;> rfl)

@[simp] theorem mem_keys_readEnd {q : CondQueues K V} {i : ℕ} {r : ReadResult V} {k : K} :
    k ∈ (q.readEnd i r).keys ↔ k ∈ q.keys := by
  cases r with
  | success v =>
      rw [readEnd]
      exact mem_keys_updateAt
  | canceled => exact Iff.rfl
  | timeout => exact Iff.rfl

section keyed

variable [DecidableEq K]

theorem valueByKey_eq_some {q : CondQueues K V} {k : K} {i : ℕ} (h : q.valueByKey k = some i) :
    ∃ v, q.values[i]? = some v ∧ v.stored = true ∧ v.key = k := by
  obtain ⟨hi, hp, _⟩ := List.findIdx?_eq_some_iff_getElem.mp h
  rw [Bool.and_eq_true, decide_eq_true_iff] at hp
  exact ⟨_, List.getElem?_eq_getElem hi, hp⟩

theorem valueByKey_eq_none {q : CondQueues K V} {k : K} : q.valueByKey k = none ↔ k ∉ q.keys := by
  rw [valueByKey, List.findIdx?_eq_none_iff]
  simp only [keys, List.mem_map, List.mem_filter, not_exists, not_and, Bool.and_eq_false_iff,
    decide_eq_false_iff_not]
  constructor
  · rintro h v ⟨hv, hs⟩ hk
    rcases h v hv with hf | hf
    · simp [hs] at hf
    · exact hf hk
  · intro h v hv
    cases hs : v.stored with
    | true => exact .inr (h v ⟨hv, hs⟩)
    | false => exact .inl rfl

theorem mem_keys_addQueue {q : CondQueues K V} {k k' : K} :
    k' ∈ (q.addQueue k).keys ↔ k' ∈ q.keys ∨ k' = k := by
  unfold addQueue
  split_ifs with h
  · simp only [keys, List.filter_append, List.map_append, List.mem_append]
    simp
  · constructor
    · exact .inl
    · rintro (hk | rfl)
      · exact hk
      · exact not_not.mp (fun hn => h (valueByKey_eq_none.mpr hn))

theorem mem_keys_eraseQueue {q : CondQueues K V} {k k' : K} :
    k' ∈ (q.eraseQueue k).keys ↔ k' ∈ q.keys ∧ k' ≠ k := by
  rw [eraseQueue, mem_keys_update, mem_keys]
  constructor
  · rintro ⟨i, h, hi, hs, rfl⟩
    split_ifs at hs with hc
    exact ⟨⟨i, h, hi, hs, rfl⟩, fun hk => hc ⟨hs, hk⟩⟩
  · rintro ⟨⟨i, h, hi, hs, rfl⟩, hk⟩
    refine ⟨i, h, hi, ?_, rfl⟩
    rw [if_neg (fun hc => hk hc.2)]
    exact hs

/-- A queue that `add_queue` has made is empty; the others are as before. -/
theorem addQueue_values {q : CondQueues K V} {k : K} {i : ℕ} {h' : HoldValue K V}
    (h : (q.addQueue k).values[i]? = some h') :
    q.values[i]? = some h' ∨ (h'.key = k ∧ h'.data = []) := by
  unfold addQueue at h
  split_ifs at h with hn
  · rcases Nat.lt_or_ge i q.values.length with hi | hi
    · rw [List.getElem?_append_left hi] at h
      exact .inl h
    · rw [List.getElem?_append_right hi] at h
      obtain ⟨_, rfl⟩ := List.getElem?_eq_some_iff.mp h
      simp
  · exact .inl h

theorem addQueue_kept {q : CondQueues K V} {k : K} {i : ℕ} {h : HoldValue K V}
    (hi : q.values[i]? = some h) : (q.addQueue k).values[i]? = some h := by
  unfold addQueue
  split_ifs
  · rw [List.getElem?_append_left (List.getElem?_eq_some_iff.mp hi).1]
    exact hi
  · exact hi

end keyed

/-- The queue number `i` was added under the key `k`. -/
def KeyAt (q : CondQueues K V) (i : ℕ) (k : K) : Prop := ∃ h, q.values[i]? = some h ∧ h.key = k

theorem KeyAt.lt {q : CondQueues K V} {i : ℕ} {k : K} (h : q.KeyAt i k) : i < q.values.length := by
  obtain ⟨v, hv, _⟩ := h
  exact (List.getElem?_eq_some_iff.mp hv).1

@[simp] theorem keyAt_update {q : CondQueues K V} {f : ℕ → HoldValue K V → HoldValue K V}
    {hf : Keeps f} {i : ℕ} {k : K} : (q.update f hf).KeyAt i k ↔ q.KeyAt i k := by
  constructor
  · rintro ⟨v, hv, rfl⟩
    obtain ⟨v₀, hv₀, rfl⟩ := update_values.mp hv
    exact ⟨v₀, hv₀, (hf.key i v₀).symm⟩
  · rintro ⟨v, hv, rfl⟩
    exact ⟨f i v, update_values.mpr ⟨v, hv, rfl⟩, hf.key i v⟩

theorem KeyAt.eq {q : CondQueues K V} {i : ℕ} {k k' : K} (h : q.KeyAt i k) (h' : q.KeyAt i k') :
    k = k' := by
  obtain ⟨v, hv, rfl⟩ := h
  obtain ⟨v', hv', rfl⟩ := h'
  rw [hv] at hv'
  cases hv'
  rfl

@[simp] theorem keyAt_cancelValue {q : CondQueues K V} {j i : ℕ} {k : K} :
    (q.cancelValue j).KeyAt i k ↔ q.KeyAt i k := by
  unfold cancelValue updateAt
  exact keyAt_update

@[simp] theorem keyAt_pushValues {q : CondQueues K V} {j : ℕ} {vs : List V} {i : ℕ} {k : K} :
    (q.pushValues j vs).KeyAt i k ↔ q.KeyAt i k := by
  unfold pushValues updateAt
  exact keyAt_update

@[simp] theorem keyAt_takeFront {q : CondQueues K V} {j n i : ℕ} {k : K} :
    (q.takeFront j n).KeyAt i k ↔ q.KeyAt i k := by
  unfold takeFront updateAt
  exact keyAt_update

@[simp] theorem keyAt_readBegin {q : CondQueues K V} {j i : ℕ} {k : K} :
    (q.readBegin j).KeyAt i k ↔ q.KeyAt i k := by
  unfold readBegin updateAt
  exact keyAt_update

@[simp] theorem keyAt_removeSlots {q : CondQueues K V} {is : List ℕ} {i : ℕ} {k : K} :
    (q.removeSlots is).KeyAt i k ↔ q.KeyAt i k := by
  unfold removeSlots
  exact keyAt_update

theorem KeyAt.addQueue [DecidableEq K] {q : CondQueues K V} {k' : K} {i : ℕ} {k : K}
    (h : q.KeyAt i k) : (q.addQueue k').KeyAt i k := by
  obtain ⟨v, hv, hk⟩ := h
  exact ⟨v, addQueue_kept hv, hk⟩

theorem KeyAt.of_addQueue [DecidableEq K] {q : CondQueues K V} {k' : K} {i : ℕ} {k : K}
    (h : (q.addQueue k').KeyAt i k) (hk : k ≠ k') : q.KeyAt i k := by
  obtain ⟨v, hv, rfl⟩ := h
  rcases addQueue_values hv with hv | ⟨he, _⟩
  · exact ⟨v, hv, rfl⟩
  · exact absurd he hk

theorem keyAt_of_mem_dataAt {q : CondQueues K V} {i : ℕ} {v : V} (h : v ∈ q.dataAt i) :
    ∃ k, q.KeyAt i k := by
  unfold dataAt at h
  cases hi : q.values[i]? with
  | none =>
      rw [hi] at h
      cases h
  | some x => exact ⟨x.key, x, hi, rfl⟩

theorem keyAt_of_valueByKey [DecidableEq K] {q : CondQueues K V} {k : K} {i : ℕ}
    (h : q.valueByKey k = some i) : q.KeyAt i k := by
  obtain ⟨v, hv, _, hk⟩ := valueByKey_eq_some h
  exact ⟨v, hv, hk⟩

/-! ### What the steps under one lock do to each queue -/

section fields

variable {q : CondQueues K V} {i n : ℕ}

theorem elim_updateAt {α : Type} {f : HoldValue K V → HoldValue K V}
    {hf : ∀ h, (f h).key = h.key ∧ (f h).stored = h.stored} (d : α) (g : HoldValue K V → α) :
    ((q.updateAt i f hf).values[n]?).elim d g =
      if n = i then (q.values[n]?).elim d (fun h => g (f h)) else (q.values[n]?).elim d g := by
  rw [updateAt_getElem?]
  cases q.values[n]? with
  | none => simp
  | some h => split_ifs <;> simp

@[simp] theorem storedAt_updateAt {f : HoldValue K V → HoldValue K V}
    {hf : ∀ h, (f h).key = h.key ∧ (f h).stored = h.stored} :
    (q.updateAt i f hf).storedAt n = q.storedAt n := by
  simp only [storedAt, elim_updateAt, fun h => (hf h).2, ite_self]

@[simp] theorem storedAt_cancelValue : (q.cancelValue i).storedAt n = q.storedAt n :=
  storedAt_updateAt

@[simp] theorem storedAt_pushValues {vs : List V} :
    (q.pushValues i vs).storedAt n = q.storedAt n :=
  storedAt_updateAt

@[simp] theorem storedAt_takeFront {m : ℕ} : (q.takeFront i m).storedAt n = q.storedAt n :=
  storedAt_updateAt

@[simp] theorem storedAt_readBegin : (q.readBegin i).storedAt n = q.storedAt n :=
  storedAt_updateAt

@[simp] theorem dataAt_cancelValue : (q.cancelValue i).dataAt n = q.dataAt n := by
  simp only [dataAt, cancelValue, elim_updateAt, ite_self]

@[simp] theorem dataAt_readBegin : (q.readBegin i).dataAt n = q.dataAt n := by
  simp only [dataAt, readBegin, elim_updateAt, ite_self]

theorem dataAt_pushValues {vs : List V} (hi : i < q.values.length) :
    (q.pushValues i vs).dataAt n = if n = i then q.dataAt n ++ vs else q.dataAt n := by
  simp only [dataAt, pushValues, elim_updateAt]
  split_ifs with hn
  · subst hn
    rw [List.getElem?_eq_getElem hi]
    rfl
  · rfl

theorem dataAt_takeFront {m : ℕ} :
    (q.takeFront i m).dataAt n = if n = i then (q.dataAt n).drop m else q.dataAt n := by
  simp only [dataAt, takeFront, elim_updateAt]
  cases q.values[n]? with
  | none => simp
  | some h => rfl

theorem canceledAt_cancelValue (hi : i < q.values.length) :
    (q.cancelValue i).canceledAt n = if n = i then true else q.canceledAt n := by
  simp only [canceledAt, cancelValue, elim_updateAt]
  split_ifs with hn
  · subst hn
    rw [List.getElem?_eq_getElem hi]
    rfl
  · rfl

theorem canceledAt_readBegin :
    (q.readBegin i).canceledAt n = if n = i then false else q.canceledAt n := by
  simp only [canceledAt, readBegin, elim_updateAt]
  cases q.values[n]? with
  | none => simp
  | some h => rfl

@[simp] theorem canceledAt_pushValues {vs : List V} :
    (q.pushValues i vs).canceledAt n = q.canceledAt n := by
  simp only [canceledAt, pushValues, elim_updateAt, ite_self]

@[simp] theorem canceledAt_takeFront {m : ℕ} :
    (q.takeFront i m).canceledAt n = q.canceledAt n := by
  simp only [canceledAt, takeFront, elim_updateAt, ite_self]

/-- A new queue is empty and not cancelled, as one that does not exist. -/
theorem elim_addQueue [DecidableEq K] {α : Type} {k : K} (d : α) (g : HoldValue K V → α)
    (hg : g { key := k } = d) :
    ((q.addQueue k).values[n]?).elim d g = (q.values[n]?).elim d g := by
  cases hn : q.values[n]? with
  | some h => rw [addQueue_kept hn]
  | none =>
      unfold addQueue
      split_ifs
      · rw [List.getElem?_append_right (List.getElem?_eq_none_iff.mp hn)]
        cases n - q.values.length with
        | zero => exact hg
        | succ m => rfl
      · rw [hn]

@[simp] theorem dataAt_addQueue [DecidableEq K] {k : K} :
    (q.addQueue k).dataAt n = q.dataAt n :=
  elim_addQueue _ _ rfl

@[simp] theorem canceledAt_addQueue [DecidableEq K] {k : K} :
    (q.addQueue k).canceledAt n = q.canceledAt n :=
  elim_addQueue _ _ rfl

theorem storedAt_eq_true : q.storedAt i = true ↔ ∃ h, q.values[i]? = some h ∧ h.stored = true := by
  unfold storedAt
  cases q.values[i]? with
  | none => simp
  | some h => simp

theorem storedAt_of_removeSlots {is : List ℕ} (h : (q.removeSlots is).storedAt n = true) :
    q.storedAt n = true := by
  rw [storedAt_eq_true] at h ⊢
  obtain ⟨v, hv, hs⟩ := h
  obtain ⟨v₀, hv₀, rfl⟩ := update_values.mp hv
  split_ifs at hs
  exact ⟨v₀, hv₀, hs⟩

/-- The queue of a key that was there before. -/
theorem storedAt_of_addQueue [DecidableEq K] {k k' : K} (h : (q.addQueue k').storedAt n = true)
    (hk : (q.addQueue k').KeyAt n k) (hne : k ≠ k') : q.storedAt n = true := by
  rw [storedAt_eq_true] at h ⊢
  obtain ⟨v, hv, hs⟩ := h
  obtain ⟨v', hv', rfl⟩ := hk
  rw [hv] at hv'
  cases hv'
  rcases addQueue_values hv with hv | ⟨he, _⟩
  · exact ⟨v, hv, hs⟩
  · exact absurd he hne

@[simp] theorem dataAt_removeSlots {is : List ℕ} : (q.removeSlots is).dataAt n = q.dataAt n := by
  rw [dataAt, removeSlots, update, List.getElem?_mapIdx, dataAt]
  cases q.values[n]? with
  | none => rfl
  | some h =>
      simp only [Option.map_some, Option.elim_some]
      split_ifs <;> rfl

@[simp] theorem canceledAt_removeSlots {is : List ℕ} :
    (q.removeSlots is).canceledAt n = q.canceledAt n := by
  rw [canceledAt, removeSlots, update, List.getElem?_mapIdx, canceledAt]
  cases q.values[n]? with
  | none => rfl
  | some h =>
      simp only [Option.map_some, Option.elim_some]
      split_ifs <;> rfl

theorem elim_update {α : Type} {f : ℕ → HoldValue K V → HoldValue K V} {hf : Keeps f} (d : α)
    (g : HoldValue K V → α) :
    ((q.update f hf).values[n]?).elim d g = (q.values[n]?).elim d (fun h => g (f n h)) := by
  rw [update, List.getElem?_mapIdx]
  cases q.values[n]? with
  | none => rfl
  | some h => rfl

@[simp] theorem dataAt_cancelAll : q.cancelAll.dataAt n = q.dataAt n := by
  simp only [dataAt, cancelAll, elim_update]
  congr 1
  funext h
  split_ifs <;> rfl

@[simp] theorem storedAt_cancelAll : q.cancelAll.storedAt n = q.storedAt n := by
  simp only [storedAt, cancelAll, elim_update]
  congr 1
  funext h
  split_ifs <;> rfl

theorem dataAt_writeAll {v : V} :
    (q.writeAll v).dataAt n = q.dataAt n ++ if q.storedAt n then [v] else [] := by
  simp only [dataAt, storedAt, writeAll, elim_update]
  obtain hn | ⟨h, hn⟩ := Option.eq_none_or_eq_some (q.values[n]?)
  · simp [hn]
  · simp only [hn, Option.elim_some]
    split_ifs <;> simp

@[simp] theorem storedAt_writeAll {v : V} : (q.writeAll v).storedAt n = q.storedAt n := by
  simp only [storedAt, writeAll, elim_update]
  congr 1
  funext h
  split_ifs <;> rfl

@[simp] theorem dataAt_eraseQueue [DecidableEq K] {k : K} :
    (q.eraseQueue k).dataAt n = q.dataAt n := by
  simp only [dataAt, eraseQueue, elim_update]
  congr 1
  funext h
  split_ifs <;> rfl

theorem storedAt_eraseQueue [DecidableEq K] {k : K} (h : q.storedAt n = true)
    (hk : ¬ q.KeyAt n k) : (q.eraseQueue k).storedAt n = true := by
  rw [storedAt_eq_true] at h ⊢
  obtain ⟨v, hv, hs⟩ := h
  refine ⟨v, update_values.mpr ⟨v, hv, ?_⟩, hs⟩
  rw [if_neg]
  rintro ⟨_, hkey⟩
  exact hk ⟨v, hv, hkey⟩

theorem storedAt_addQueue [DecidableEq K] {k : K} (h : q.storedAt n = true) :
    (q.addQueue k).storedAt n = true := by
  rw [storedAt_eq_true] at h ⊢
  obtain ⟨v, hv, hs⟩ := h
  exact ⟨v, addQueue_kept hv, hs⟩

theorem readEnd_success {v : V} : q.readEnd i (.success v) = q.takeFront i 1 := by
  simp only [readEnd, takeFront, List.drop_one]

@[simp] theorem keyAt_writeAll {v : V} {k : K} : (q.writeAll v).KeyAt n k ↔ q.KeyAt n k := by
  unfold writeAll
  exact keyAt_update

@[simp] theorem keyAt_cancelAll {k : K} : q.cancelAll.KeyAt n k ↔ q.KeyAt n k := by
  unfold cancelAll
  exact keyAt_update

@[simp] theorem keyAt_pushValueData {v : V} {k : K} :
    (q.pushValueData i v).KeyAt n k ↔ q.KeyAt n k := by
  unfold pushValueData updateAt
  exact keyAt_update

theorem mem_dataAt_pushValueData {v w : V} (h : w ∈ (q.pushValueData i v).dataAt n) :
    w ∈ q.dataAt n ∨ n = i ∧ w = v := by
  simp only [dataAt, pushValueData, elim_updateAt] at h
  split_ifs at h with hn
  · subst hn
    unfold dataAt
    cases hv : q.values[n]? with
    | none =>
        rw [hv] at h
        cases h
    | some x =>
        rw [hv] at h
        rcases List.mem_append.mp h with h | h
        · exact .inl h
        · exact .inr ⟨rfl, List.mem_singleton.mp h⟩
  · exact .inl h

theorem mem_keys_of_storedAt {k : K} (h : q.storedAt n = true) (hk : q.KeyAt n k) : k ∈ q.keys := by
  obtain ⟨v, hv, hs⟩ := storedAt_eq_true.mp h
  obtain ⟨v', hv', rfl⟩ := hk
  rw [hv] at hv'
  cases hv'
  exact mem_keys.mpr ⟨n, v, hv, hs, rfl⟩

theorem keyAt_readEnd {r : ReadResult V} {k : K} : (q.readEnd i r).KeyAt n k ↔ q.KeyAt n k := by
  cases r with
  | success v => rw [readEnd_success, keyAt_takeFront]
  | canceled => exact Iff.rfl
  | timeout => exact Iff.rfl

theorem mem_of_mem_dataAt_readEnd {r : ReadResult V} {v : V} (h : v ∈ (q.readEnd i r).dataAt n) :
    v ∈ q.dataAt n := by
  cases r with
  | success w =>
      rw [readEnd_success, dataAt_takeFront] at h
      split_ifs at h
      · exact List.mem_of_mem_drop h
      · exact h
  | canceled => exact h
  | timeout => exact h

theorem mem_storedSlots [LinearOrder K] : i ∈ q.storedSlots ↔ q.storedAt i = true := by
  rw [storedAt_eq_true, storedSlots]
  simp only [List.mem_map, List.mem_insertionSort, List.mem_filter]
  constructor
  · rintro ⟨⟨h, j⟩, ⟨hm, hs⟩, rfl⟩
    exact ⟨h, List.mem_zipIdx_iff_getElem?.mp hm, hs⟩
  · rintro ⟨h, hi, hs⟩
    exact ⟨(h, i), ⟨List.mem_zipIdx_iff_getElem?.mpr hi, hs⟩, rfl⟩

theorem nodup_storedSlots [LinearOrder K] : q.storedSlots.Nodup := by
  have hz : (q.values.zipIdx.map (·.2)).Nodup := by
    rw [List.zipIdx_map_snd]
    exact List.nodup_range'
  have hsub : ((q.values.zipIdx.filter (·.1.stored)).map (·.2)).Nodup :=
    hz.sublist (List.filter_sublist.map _)
  exact (((List.perm_insertionSort _ _).map _).nodup_iff).mpr hsub

end fields

theorem readResult_success {h : HoldValue K V} {timedOut : Bool} {v : V}
    (hr : readResult h timedOut = some (.success v)) : ∃ vs, h.data = v :: vs := by
  unfold readResult at hr
  by_cases hc : h.canceled = true
  · rw [if_pos hc] at hr
    cases hr
  · rw [if_neg hc] at hr
    cases hd : h.data with
    | nil =>
        rw [hd] at hr
        cases timedOut <;> cases hr
    | cons w vs =>
        rw [hd] at hr
        cases hr
        exact ⟨vs, rfl⟩

/-! ### Counting values -/

/-- How many values of the queues, of those in the map and of the others, satisfy `p`. -/
def count (p : V → Bool) (q : CondQueues K V) : ℕ := (q.values.map (fun h => h.data.countP p)).sum

theorem count_update_of_data {q : CondQueues K V} {f : ℕ → HoldValue K V → HoldValue K V}
    {hf : Keeps f} {p : V → Bool} (hd : ∀ n h, (f n h).data.countP p = h.data.countP p) :
    (q.update f hf).count p = q.count p := by
  unfold count update
  congr 1
  apply List.ext_getElem
  · simp
  · intro n h₁ h₂
    simp [hd]

theorem sum_map_set {α : Type} (g : α → ℕ) {l : List α} {i : ℕ} {a : α} (b : α)
    (h : l[i]? = some a) : ((l.set i b).map g).sum + g a = (l.map g).sum + g b := by
  induction l generalizing i with
  | nil => cases h
  | cons x l ih =>
      cases i with
      | zero =>
          obtain rfl : x = a := Option.some.inj h
          simp only [List.set_cons_zero, List.map_cons, List.sum_cons]
          omega
      | succ i =>
          have hi : l[i]? = some a := h
          have ih := ih hi
          simp only [List.set_cons_succ, List.map_cons, List.sum_cons]
          omega

theorem sum_mapIdx {α : Type} (g : α → ℕ) (f : α → α) {l : List α} {i : ℕ} {a : α}
    (h : l[i]? = some a) :
    ((l.mapIdx (fun n x => if n = i then f x else x)).map g).sum + g a =
      (l.map g).sum + g (f a) := by
  have hset : l.mapIdx (fun n x => if n = i then f x else x) = l.set i (f a) := by
    apply List.ext_getElem?
    intro n
    rw [List.getElem?_mapIdx, List.getElem?_set]
    by_cases hn : i = n
    · subst hn
      rw [h, if_pos rfl, if_pos (List.getElem?_eq_some_iff.mp h).1]
      simp
    · rw [if_neg hn]
      cases l[n]? with
      | none => rfl
      | some x => simp [Ne.symm hn]
  rw [hset]
  exact sum_map_set g (f a) h

theorem count_updateAt {q : CondQueues K V} {i : ℕ} (p : V → Bool)
    (f : HoldValue K V → HoldValue K V) (hf : ∀ h, (f h).key = h.key ∧ (f h).stored = h.stored)
    {h : HoldValue K V} (hi : q.values[i]? = some h) :
    (q.updateAt i f hf).count p + h.data.countP p = q.count p + (f h).data.countP p :=
  sum_mapIdx (fun h => h.data.countP p) f hi

theorem count_eq_zero {q : CondQueues K V} {p : V → Bool} :
    q.count p = 0 ↔ ∀ i, ∀ v ∈ q.dataAt i, p v = false := by
  simp only [count, List.sum_eq_zero_iff_forall_eq_nat, List.mem_map, forall_exists_index,
    and_imp, forall_apply_eq_imp_iff₂, List.countP_eq_zero, Bool.not_eq_true]
  constructor
  · intro h i v hv
    unfold dataAt at hv
    cases hi : q.values[i]? with
    | none =>
        rw [hi] at hv
        cases hv
    | some x =>
        rw [hi] at hv
        exact h x (List.mem_of_getElem? hi) v hv
  · intro h x hx v hv
    obtain ⟨i, hi⟩ := List.mem_iff_getElem?.mp hx
    refine h i v ?_
    rw [dataAt, hi]
    exact hv

@[simp] theorem count_cancelAll {q : CondQueues K V} {p : V → Bool} :
    q.cancelAll.count p = q.count p :=
  count_update_of_data (fun n h => by split_ifs <;> rfl)

theorem count_writeAll {q : CondQueues K V} {p : V → Bool} {v : V} (hv : p v = false) :
    (q.writeAll v).count p = q.count p :=
  count_update_of_data (fun n h => by split_ifs <;> simp [hv])

@[simp] theorem count_readBegin {q : CondQueues K V} {i : ℕ} {p : V → Bool} :
    (q.readBegin i).count p = q.count p := by
  unfold readBegin updateAt
  exact count_update_of_data (fun n h => by split_ifs <;> rfl)

@[simp] theorem count_eraseQueue [DecidableEq K] {q : CondQueues K V} {k : K} {p : V → Bool} :
    (q.eraseQueue k).count p = q.count p :=
  count_update_of_data (fun n h => by split_ifs <;> rfl)

@[simp] theorem count_addQueue [DecidableEq K] {q : CondQueues K V} {k : K} {p : V → Bool} :
    (q.addQueue k).count p = q.count p := by
  unfold addQueue count
  split_ifs
  · simp
  · rfl

theorem count_pushValueData {q : CondQueues K V} {i : ℕ} {v : V} {p : V → Bool}
    (hi : i < q.values.length) :
    (q.pushValueData i v).count p = q.count p + (if p v then 1 else 0) := by
  have h := count_updateAt p (fun h : HoldValue K V => { h with data := h.data ++ [v] })
    (fun _ => ⟨rfl, rfl⟩) (List.getElem?_eq_getElem hi)
  simp only [List.countP_append, List.countP_singleton] at h
  unfold pushValueData
  omega

/-- A successful read takes the front of the queue. -/
theorem count_readEnd {q : CondQueues K V} {i : ℕ} {v : V} {vs : List V} {h : HoldValue K V}
    {p : V → Bool} (hi : q.values[i]? = some h) (hd : h.data = v :: vs) :
    (q.readEnd i (.success v)).count p + (if p v then 1 else 0) = q.count p := by
  have hc := count_updateAt p (fun h : HoldValue K V => { h with data := h.data.tail })
    (fun _ => ⟨rfl, rfl⟩) hi
  simp only [hd, List.tail_cons, List.countP_cons] at hc
  simp only [readEnd]
  omega

end CondQueues

end Vtrc
