import Vtrc.CondQueues
import Vtrc.Lib.Machine

/-! # Threads on condition queues

Any number of threads call the operations of `condition_queues`.  A step of the machine is what a
thread does under one lock:

* an operation that changes the map or goes through it takes `lock_` (`lock`), takes the locks of
  the queues that it cancels or writes one after the other (`visit`), and gives `lock_` back
  (`unlock`); while it holds `lock_`, no other thread looks at the map, but threads that have
  already found their queue go on;
* `write_queue_if_exists` looks its queue up (`findQueue`) and pushes later (`push`);
* a read looks its queue up (`find`), resets `canceled_` and tests the predicate of the wait under
  the lock of the queue (`start`), and when it has to wait tests it again each time it wakes
  (`wake`, with the end of the time that was given to it or without).

The state remembers what the statements are about: each value that was pushed, with the operation
that did it, each return of a read, each return of `write_all`, and for each queue whether it was
cancelled after the last read that reported a cancellation of it (`unreported`).

* `slots_are_exact_fifos`: the values that successful reads returned, followed by what is left,
  are the values pushed, in this order.
* `cancellation_reaches_reads`: a cancellation reaches the read that waits or is about to, in
  every run in which no read starts on a queue with an unreported cancellation, other than one
  that finds a value there while no other read waits. -/

namespace Vtrc

/-- `wait_result_codes`. -/
inductive WaitResult where
  | success
  | canceled
  | timeout
deriving DecidableEq, Repr

/-- `cancel_res2wait_res`. -/
def cancelRes2waitRes (canceled waitres : Bool) : WaitResult :=
  if canceled then .canceled else if waitres then .success else .timeout

/-- The three operations that wait on a queue. -/
inductive ReadKind where
  | waitQueue
  | readQueue
  | read
deriving DecidableEq, Repr

/-- The values that the operation moves from `data_` to its caller after the wait has returned
`res`. -/
def ReadKind.taken {V : Type} (data : List V) (canceled res : Bool) : ReadKind → List V
  | .waitQueue => []
  | .readQueue => if res then data else []
  | .read => if canceled then [] else data.take 1

/-- The operations that hold `lock_` while they take the locks of queues. -/
inductive MapOp (K V : Type) where
  | eraseQueue (key : K)
  | eraseAll
  | cancelAll
  | cancel (key : K)
  | writeQueue (key : K) (data : V)
  | writeAll (data : V)
  | writeQueues (key : K) (data : List V)

namespace MapOp

variable {K V : Type}

/-- The key that the operation names. -/
def key : MapOp K V → Option K
  | .eraseQueue k | .cancel k | .writeQueue k _ | .writeQueues k _ => some k
  | .eraseAll | .cancelAll | .writeAll _ => none

/-- The values that it pushes to each queue; `none` for an operation that cancels them. -/
def values : MapOp K V → Option (List V)
  | .writeQueue _ v | .writeAll v => some [v]
  | .writeQueues _ vs => some vs
  | .eraseQueue _ | .eraseAll | .cancelAll | .cancel _ => none

/-- Whether the queues leave the map. -/
def erases : MapOp K V → Bool
  | .eraseQueue _ | .eraseAll => true
  | _ => false

/-- The queues that the operation goes through; `none` when `at` raises `std::out_of_range`. -/
def slots [LinearOrder K] (q : CondQueues K V) : MapOp K V → Option (List ℕ)
  | .eraseQueue k => some (q.valueByKey k).toList
  | .eraseAll | .cancelAll | .writeAll _ => some q.storedSlots
  | .cancel k | .writeQueue k _ | .writeQueues k _ => (q.valueByKey k).map (fun i => [i])

end MapOp

/-- The thread that has `lock_`: its operation and the number of it, the queues behind it and
those before it, and the counter of `write_all`. -/
structure Holder (K V : Type) where
  op : MapOp K V
  serial : ℕ
  visited : List ℕ
  rest : List ℕ
  count : ℕ

/-- Where a thread is that does not have `lock_`. -/
inductive Place (K V : Type) where
  | idle
  /-- `write_queue_if_exists` has found its queue. -/
  | writing (key : K) (slot : ℕ) (data : V)
  /-- A read has found its queue. -/
  | found (key : K) (slot : ℕ) (kind : ReadKind) (timed : Bool)
  /-- A read waits. -/
  | waiting (key : K) (slot : ℕ) (kind : ReadKind) (timed : Bool)

/-- The thread is not inside an operation. -/
def Place.isIdle {K V : Type} : Place K V → Bool
  | .idle => true
  | _ => false

/-- The queue that the thread has found, with the key that it looked up. -/
def Place.target {K V : Type} : Place K V → Option (K × ℕ)
  | .idle => none
  | .writing k i _ | .found k i _ _ | .waiting k i _ _ => some (k, i)

/-- The operation that waits or is about to. -/
def Place.kind {K V : Type} : Place K V → Option ReadKind
  | .idle | .writing _ _ _ => none
  | .found _ _ kind _ | .waiting _ _ kind _ => some kind

/-- A value that came to a queue: the number of the operation, when it held `lock_`, and the key
that it named. -/
structure Push (K V : Type) where
  serial : Option ℕ
  key : Option K
  slot : ℕ
  value : V

/-- A read that returned: the key that it named, its queue, its result, the values that it took,
and (before it returned) the values in the queue and whether a cancellation was unreported. -/
structure ReadReturn (K V : Type) where
  key : K
  slot : ℕ
  kind : ReadKind
  result : WaitResult
  taken : List V
  queued : List V
  unreported : Bool

/-- A successful operation found a value, and a read took a value exactly when it was a
success. -/
def ReadReturn.Took {K V : Type} (r : ReadReturn K V) : Prop :=
  (r.result = .success → r.queued ≠ []) ∧
    (r.kind = .read → (r.result = .success ↔ r.taken.length = 1) ∧
      (r.result ≠ .success → r.taken = []))

/-- A `write_all` that returned: its number and value, the queues in the map, and the number that
it returned. -/
structure WriteReturn (V : Type) where
  serial : ℕ
  value : V
  present : List ℕ
  count : ℕ

/-- One copy of `v` for each of the queues `is`. -/
def copies {V : Type} (v : V) (is : List ℕ) (i : ℕ) : List V := if i ∈ is then [v] else []

/-- A `write_all` returned the number of the queues in the map, and what it pushed to each queue
(`pushedBy n i` is what the operation number `n` pushed to the queue `i`) is one copy of its value
if the map had the queue, and nothing otherwise. -/
structure WriteReturn.Complete {V : Type} (r : WriteReturn V) (pushedBy : ℕ → ℕ → List V) :
    Prop where
  nodup : r.present.Nodup
  count : r.count = r.present.length
  copies : ∀ i, pushedBy r.serial i = Vtrc.copies r.value r.present i

/-- The queues, the lock of the map, the threads, and what the statements refer to. -/
structure Slots (T K V : Type) where
  queues : CondQueues K V
  holder : Option (Holder K V)
  place : T → Place K V
  serial : ℕ
  pushed : List (Push K V)
  reads : List (ReadReturn K V)
  writes : List (WriteReturn V)
  unreported : ℕ → Bool

/-- The steps of the threads `T`.  A step that needs `lock_` or begins an operation names its
thread. -/
inductive SlotEvent (T K V : Type) where
  | addQueue (thread : T) (key : K)
  | lock (thread : T) (op : MapOp K V)
  | visit
  | unlock
  | findQueue (thread : T) (key : K) (data : V)
  | push (thread : T)
  | find (thread : T) (key : K) (kind : ReadKind) (timed : Bool)
  | start (thread : T)
  | wake (thread : T) (timedOut : Bool)

/-- The step does not begin a `wait_queue` or a `read_queue`. -/
def SlotEvent.Single {T K V : Type} : SlotEvent T K V → Prop
  | .find _ _ kind _ => kind = .read
  | _ => True

namespace Slots

variable {T K V : Type}

/-- No queues and idle threads. -/
def initial : Slots T K V where
  queues := .empty
  holder := none
  place := fun _ => .idle
  serial := 0
  pushed := []
  reads := []
  writes := []
  unreported := fun _ => false

/-- `lock_` is free and the thread is not inside an operation. -/
def free (s : Slots T K V) (t : T) : Bool :=
  s.holder.isNone && (s.place t).isIdle

/-- The thread goes to `p`. -/
def goto [DecidableEq T] (s : Slots T K V) (t : T) (p : Place K V) : Slots T K V :=
  { s with place := Function.update s.place t p }

/-- `cancel_value`. -/
def cancelValue (s : Slots T K V) (i : ℕ) : Slots T K V :=
  { s with
    queues := s.queues.cancelValue i
    unreported := Function.update s.unreported i true }

/-- `push_value_data`, and the insertion of several values by `write_queue`. -/
def pushValues (s : Slots T K V) (serial : Option ℕ) (key : Option K) (i : ℕ) (vs : List V) :
    Slots T K V :=
  { s with
    queues := s.queues.pushValues i vs
    pushed := s.pushed ++ vs.map (fun v => ⟨serial, key, i, v⟩) }

/-- The end of `wait_queue_impl`, `read_queue_impl` and `read_impl`, after the wait has returned
`res`. -/
def endRead [DecidableEq T] (s : Slots T K V) (t : T) (k : K) (i : ℕ) (kind : ReadKind)
    (res : Bool) : Slots T K V :=
  let data := s.queues.dataAt i
  let canceled := s.queues.canceledAt i
  let taken := kind.taken data canceled res
  let result := cancelRes2waitRes canceled res
  { s with
    queues := s.queues.takeFront i taken.length
    place := Function.update s.place t .idle
    reads := s.reads ++ [⟨k, i, kind, result, taken, data, s.unreported i⟩]
    unreported :=
      if result = .canceled then Function.update s.unreported i false else s.unreported }

/-- `queue_empty_predicate`. -/
def queueEmptyPredicate (s : Slots T K V) (i : ℕ) : Bool :=
  !(s.queues.dataAt i).isEmpty || s.queues.canceledAt i

/-- What the thread that has `lock_` does to the queue `i`. -/
def visitSlot (s : Slots T K V) (w : Holder K V) (i : ℕ) : Slots T K V :=
  match w.op.values with
  | some vs => s.pushValues (some w.serial) w.op.key i vs
  | none => s.cancelValue i

/-- The thread gives `lock_` back. -/
def release (s : Slots T K V) (w : Holder K V) : Slots T K V :=
  { s with
    queues := if w.op.erases then s.queues.removeSlots w.visited else s.queues
    holder := none }

/-- The return of `write_all`. -/
def writeReturn [LinearOrder K] (s : Slots T K V) (w : Holder K V) : List (WriteReturn V) :=
  match w.op with
  | .writeAll v => [⟨w.serial, v, s.queues.storedSlots, w.count⟩]
  | _ => []

/-- One step of one thread. -/
def step [DecidableEq T] [LinearOrder K] (s : Slots T K V) : SlotEvent T K V → Option (Slots T K V)
  | .addQueue t k =>
      if s.free t then some { s with queues := s.queues.addQueue k } else none
  | .lock t op =>
      if s.free t then
        match op.slots s.queues with
        | some is =>
            some { s with holder := some ⟨op, s.serial, [], is, 0⟩, serial := s.serial + 1 }
        | none => some s
      else none
  | .visit =>
      match s.holder with
      | some w =>
          match w.rest with
          | i :: rest =>
              some { s.visitSlot w i with
                holder := some { w with
                  visited := w.visited ++ [i], rest := rest, count := w.count + 1 } }
          | [] => none
      | none => none
  | .unlock =>
      match s.holder with
      | some w =>
          if w.rest.isEmpty then
            some { s.release w with writes := s.writes ++ s.writeReturn w }
          else none
      | none => none
  | .findQueue t k v =>
      if s.free t then
        match s.queues.valueByKey k with
        | some i => some (s.goto t (.writing k i v))
        | none => some s
      else none
  | .push t =>
      match s.place t with
      | .writing k i v => some ((s.pushValues none (some k) i [v]).goto t .idle)
      | _ => none
  | .find t k kind timed =>
      if s.free t then
        match s.queues.valueByKey k with
        | some i => some (s.goto t (.found k i kind timed))
        | none => some s
      else none
  | .start t =>
      match s.place t with
      | .found k i kind timed =>
          let s' := { s with queues := s.queues.readBegin i }
          -- the lock of the queue is not given back between the reset and the first test
          if s'.queueEmptyPredicate i then some (s'.endRead t k i kind true)
          else some (s'.goto t (.waiting k i kind timed))
      | _ => none
  | .wake t timedOut =>
      match s.place t with
      | .waiting k i kind timed =>
          if s.queueEmptyPredicate i then some (s.endRead t k i kind true)
          else if timed && timedOut then some (s.endRead t k i kind false)
          else none
      | _ => none

/-- The threads from the empty map on. -/
def machine (T K V : Type) [DecidableEq T] [LinearOrder K] : Machine (Slots T K V)
    (SlotEvent T K V) where
  init := initial
  step := step

/-! ### What the logs say about a queue -/

/-- The values pushed to the queue `i`, in the order of the pushes. -/
def pushedTo (s : Slots T K V) (i : ℕ) : List V :=
  (s.pushed.filter (fun p => p.slot = i)).map (·.value)

/-- The values that the operation number `n` pushed to the queue `i`. -/
def pushedBy (s : Slots T K V) (n i : ℕ) : List V :=
  (s.pushed.filter (fun p => p.slot = i ∧ p.serial = some n)).map (·.value)

/-- The values that left the queue `i`, in the order of the returns. -/
def takenFrom (s : Slots T K V) (i : ℕ) : List V :=
  (s.reads.filter (fun r => r.slot = i)).flatMap (·.taken)

/-- The operation does not find its key: it raises `std::out_of_range`, or returns at once. -/
def Misses [LinearOrder K] (s : Slots T K V) : SlotEvent T K V → Prop
  | .lock _ op => op.slots s.queues = none
  | .findQueue _ k _ | .find _ k _ _ => s.queues.valueByKey k = none
  | _ => False

/-- What an enabled step does. -/
inductive Does [DecidableEq T] [LinearOrder K] (s : Slots T K V) :
    SlotEvent T K V → Slots T K V → Prop
  | addQueue (t : T) (k : K) (hf : s.holder = none) :
      Does s (.addQueue t k) { s with queues := s.queues.addQueue k }
  | lock (t : T) (op : MapOp K V) (is : List ℕ) (hf : s.holder = none)
      (hs : op.slots s.queues = some is) :
      Does s (.lock t op)
        { s with holder := some ⟨op, s.serial, [], is, 0⟩, serial := s.serial + 1 }
  | visit (w : Holder K V) (i : ℕ) (rest : List ℕ) (hw : s.holder = some w)
      (hr : w.rest = i :: rest) :
      Does s .visit { s.visitSlot w i with
        holder := some { w with
          visited := w.visited ++ [i], rest := rest, count := w.count + 1 } }
  | unlock (w : Holder K V) (hw : s.holder = some w) (hr : w.rest = []) :
      Does s .unlock { s.release w with writes := s.writes ++ s.writeReturn w }
  | findQueue (t : T) (k : K) (v : V) (i : ℕ) (hf : s.holder = none)
      (hi : s.queues.valueByKey k = some i) :
      Does s (.findQueue t k v) (s.goto t (.writing k i v))
  | push (t : T) (k : K) (i : ℕ) (v : V) (hp : s.place t = .writing k i v) :
      Does s (.push t) ((s.pushValues none (some k) i [v]).goto t .idle)
  | find (t : T) (k : K) (i : ℕ) (kind : ReadKind) (timed : Bool) (hf : s.free t = true)
      (hi : s.queues.valueByKey k = some i) :
      Does s (.find t k kind timed) (s.goto t (.found k i kind timed))
  | startEnd (t : T) (k : K) (i : ℕ) (kind : ReadKind) (timed : Bool)
      (hp : s.place t = .found k i kind timed) (hd : s.queues.dataAt i ≠ []) :
      Does s (.start t) ({ s with queues := s.queues.readBegin i }.endRead t k i kind true)
  | startWait (t : T) (k : K) (i : ℕ) (kind : ReadKind) (timed : Bool)
      (hp : s.place t = .found k i kind timed) (hd : s.queues.dataAt i = []) :
      Does s (.start t)
        ({ s with queues := s.queues.readBegin i }.goto t (.waiting k i kind timed))
  | wake (t : T) (timedOut : Bool) (k : K) (i : ℕ) (kind : ReadKind) (timed : Bool)
      (hp : s.place t = .waiting k i kind timed) (hd : s.queueEmptyPredicate i = true) :
      Does s (.wake t timedOut) (s.endRead t k i kind true)
  | timeOut (t : T) (k : K) (i : ℕ) (kind : ReadKind)
      (hp : s.place t = .waiting k i kind true) (hd : s.queueEmptyPredicate i = false) :
      Does s (.wake t true) (s.endRead t k i kind false)
  | missing (e : SlotEvent T K V) (hm : s.Misses e) : Does s e s

theorem holder_of_free {s : Slots T K V} {t : T} (h : s.free t = true) : s.holder = none := by
  unfold free at h
  rw [Bool.and_eq_true, Option.isNone_iff_eq_none] at h
  exact h.1

theorem place_of_free {s : Slots T K V} {t : T} (h : s.free t = true) : s.place t = .idle := by
  unfold free at h
  rw [Bool.and_eq_true] at h
  cases hp : s.place t with
  | idle => rfl
  | writing k i v => simp [hp, Place.isIdle] at h
  | found k i kind timed => simp [hp, Place.isIdle] at h
  | waiting k i kind timed => simp [hp, Place.isIdle] at h

theorem predicate_readBegin (s : Slots T K V) (i : ℕ) :
    { s with queues := s.queues.readBegin i }.queueEmptyPredicate i = true ↔
      s.queues.dataAt i ≠ [] := by
  unfold queueEmptyPredicate
  simp [CondQueues.canceledAt_readBegin]

theorem does_of_step [DecidableEq T] [LinearOrder K] {s s' : Slots T K V} {e : SlotEvent T K V}
    (h : s.step e = some s') : s.Does e s' := by
  cases e with
  | addQueue t k =>
      simp only [step, Option.ite_none_right_eq_some] at h
      obtain ⟨hf, h⟩ := h
      cases h
      exact .addQueue t k (holder_of_free hf)
  | lock t op =>
      simp only [step, Option.ite_none_right_eq_some] at h
      obtain ⟨hf, h⟩ := h
      split at h
      case h_1 is hs =>
        cases h
        exact .lock t op is (holder_of_free hf) hs
      case h_2 hn =>
        cases h
        exact .missing _ hn
  | visit =>
      simp only [step] at h
      split at h
      case h_1 w hw =>
        split at h
        case h_1 i rest hr =>
          cases h
          exact .visit w i rest hw hr
        case h_2 => cases h
      case h_2 => cases h
  | unlock =>
      simp only [step] at h
      split at h
      case h_1 w hw =>
        rw [Option.ite_none_right_eq_some, List.isEmpty_iff] at h
        obtain ⟨hr, h⟩ := h
        cases h
        exact .unlock w hw hr
      case h_2 => cases h
  | findQueue t k v =>
      simp only [step, Option.ite_none_right_eq_some] at h
      obtain ⟨hf, h⟩ := h
      split at h
      case h_1 i hi =>
        cases h
        exact .findQueue t k v i (holder_of_free hf) hi
      case h_2 hn =>
        cases h
        exact .missing _ hn
  | push t =>
      simp only [step] at h
      split at h
      case h_1 k i v hp =>
        cases h
        exact .push t k i v hp
      case h_2 => cases h
  | find t k kind timed =>
      simp only [step, Option.ite_none_right_eq_some] at h
      obtain ⟨hf, h⟩ := h
      split at h
      case h_1 i hi =>
        cases h
        exact .find t k i kind timed hf hi
      case h_2 hn =>
        cases h
        exact .missing _ hn
  | start t =>
      simp only [step] at h
      split at h
      case h_1 k i kind timed hp =>
        by_cases hd : s.queues.dataAt i = []
        · rw [if_neg (fun hc => (predicate_readBegin s i).mp hc hd)] at h
          cases h
          exact .startWait t k i kind timed hp hd
        · rw [if_pos ((predicate_readBegin s i).mpr hd)] at h
          cases h
          exact .startEnd t k i kind timed hp hd
      case h_2 => cases h
  | wake t timedOut =>
      simp only [step] at h
      split at h
      case h_1 k i kind timed hp =>
        split_ifs at h with hd ht
        · cases h
          exact .wake t timedOut k i kind timed hp hd
        · cases h
          rw [Bool.and_eq_true] at ht
          obtain ⟨rfl, rfl⟩ := ht
          exact .timeOut t k i kind hp (Bool.eq_false_iff.mpr hd)
      case h_2 => cases h

/-! ### The queues that the threads refer to -/

/-- Every queue that a thread, or an entry of a log, refers to exists and has the key that was
named. -/
structure Wf (s : Slots T K V) : Prop where
  placed : ∀ t k i, (s.place t).target = some (k, i) → s.queues.KeyAt i k
  walked : ∀ w, s.holder = some w → ∀ i ∈ w.rest, ∃ k, s.queues.KeyAt i k ∧
    ∀ k', w.op.key = some k' → k' = k
  pushed : ∀ p ∈ s.pushed, ∃ k, s.queues.KeyAt p.slot k ∧ ∀ k', p.key = some k' → k' = k
  reads : ∀ r ∈ s.reads, s.queues.KeyAt r.slot r.key

theorem Wf.of_grows {s : Slots T K V} {q : CondQueues K V} (h : s.Wf)
    (hq : ∀ i k, s.queues.KeyAt i k → q.KeyAt i k) : { s with queues := q }.Wf := by
  refine ⟨?_, ?_, ?_, ?_⟩
  · intro t k i hp
    exact hq i k (h.placed t k i hp)
  · intro w hw i hi
    obtain ⟨k, hk, hn⟩ := h.walked w hw i hi
    exact ⟨k, hq i k hk, hn⟩
  · intro p hp
    obtain ⟨k, hk, hn⟩ := h.pushed p hp
    exact ⟨k, hq _ k hk, hn⟩
  · intro r hr
    exact hq _ _ (h.reads r hr)

theorem Wf.goto [DecidableEq T] {s : Slots T K V} (h : s.Wf) {t : T} {p : Place K V}
    (hp : ∀ k i, p.target = some (k, i) → s.queues.KeyAt i k) : (s.goto t p).Wf := by
  refine ⟨?_, h.walked, h.pushed, h.reads⟩
  intro t' k i ht
  by_cases htt : t' = t
  · subst htt
    simp only [Slots.goto, Function.update_self] at ht
    exact hp k i ht
  · simp only [Slots.goto, Function.update_of_ne htt] at ht
    exact h.placed t' k i ht

theorem Wf.pushValues {s : Slots T K V} (h : s.Wf) {n : Option ℕ} {key : Option K} {i : ℕ}
    (vs : List V) {k : K} (hk : s.queues.KeyAt i k) (hn : ∀ k', key = some k' → k' = k) :
    (s.pushValues n key i vs).Wf := by
  have hw : { s with queues := s.queues.pushValues i vs }.Wf :=
    h.of_grows (fun _ _ => CondQueues.keyAt_pushValues.mpr)
  refine ⟨hw.placed, hw.walked, ?_, hw.reads⟩
  intro p hp
  rcases List.mem_append.mp hp with hp | hp
  · exact hw.pushed p hp
  · obtain ⟨v, _, rfl⟩ := List.mem_map.mp hp
    exact ⟨k, CondQueues.keyAt_pushValues.mpr hk, hn⟩

theorem Wf.endRead [DecidableEq T] {s : Slots T K V} (h : s.Wf) (t : T) {k : K} {i : ℕ}
    (kind : ReadKind) (res : Bool) (hk : s.queues.KeyAt i k) : (s.endRead t k i kind res).Wf := by
  have hw := (h.of_grows (q := s.queues.takeFront i (kind.taken (s.queues.dataAt i)
    (s.queues.canceledAt i) res).length) (fun _ _ => CondQueues.keyAt_takeFront.mpr)).goto
      (t := t) (p := .idle) (by simp [Place.target])
  refine ⟨hw.placed, hw.walked, hw.pushed, ?_⟩
  intro r hr
  rcases List.mem_append.mp hr with hr | hr
  · exact hw.reads r hr
  · obtain rfl := List.mem_singleton.mp hr
    exact CondQueues.keyAt_takeFront.mpr hk

theorem keyAt_of_slots [LinearOrder K] {q : CondQueues K V} {op : MapOp K V} {is : List ℕ}
    (h : op.slots q = some is) {i : ℕ} (hi : i ∈ is) :
    ∃ k, q.KeyAt i k ∧ ∀ k', op.key = some k' → k' = k := by
  have hall : i ∈ q.storedSlots → ∃ k, q.KeyAt i k := by
    intro hs
    obtain ⟨h', hv, _⟩ := CondQueues.storedAt_eq_true.mp (CondQueues.mem_storedSlots.mp hs)
    exact ⟨h'.key, h', hv, rfl⟩
  cases op with
  | eraseQueue k =>
      cases h
      exact ⟨k, CondQueues.keyAt_of_valueByKey (Option.mem_toList.mp hi), by simp [MapOp.key]⟩
  | eraseAll =>
      cases h
      obtain ⟨k, hk⟩ := hall hi
      exact ⟨k, hk, by simp [MapOp.key]⟩
  | cancelAll =>
      cases h
      obtain ⟨k, hk⟩ := hall hi
      exact ⟨k, hk, by simp [MapOp.key]⟩
  | writeAll v =>
      cases h
      obtain ⟨k, hk⟩ := hall hi
      exact ⟨k, hk, by simp [MapOp.key]⟩
  | cancel k =>
      obtain ⟨j, hj, rfl⟩ := Option.map_eq_some_iff.mp h
      obtain rfl := List.mem_singleton.mp hi
      exact ⟨k, CondQueues.keyAt_of_valueByKey hj, by simp [MapOp.key]⟩
  | writeQueue k v =>
      obtain ⟨j, hj, rfl⟩ := Option.map_eq_some_iff.mp h
      obtain rfl := List.mem_singleton.mp hi
      exact ⟨k, CondQueues.keyAt_of_valueByKey hj, by simp [MapOp.key]⟩
  | writeQueues k vs =>
      obtain ⟨j, hj, rfl⟩ := Option.map_eq_some_iff.mp h
      obtain rfl := List.mem_singleton.mp hi
      exact ⟨k, CondQueues.keyAt_of_valueByKey hj, by simp [MapOp.key]⟩

theorem Wf.visitSlot {s : Slots T K V} (h : s.Wf) (w : Holder K V) {i : ℕ} {k : K}
    (hk : s.queues.KeyAt i k) (hn : ∀ k', w.op.key = some k' → k' = k) : (s.visitSlot w i).Wf := by
  unfold Slots.visitSlot
  split
  · exact h.pushValues _ hk hn
  · have hw := h.of_grows (q := s.queues.cancelValue i)
      (fun _ _ => CondQueues.keyAt_cancelValue.mpr)
    exact ⟨hw.placed, hw.walked, hw.pushed, hw.reads⟩

@[simp] theorem visitSlot_holder (s : Slots T K V) (w : Holder K V) (i : ℕ) :
    (s.visitSlot w i).holder = s.holder := by
  unfold Slots.visitSlot
  split <;> rfl

theorem Wf.step [DecidableEq T] [LinearOrder K] {s s' : Slots T K V} {e : SlotEvent T K V}
    (h : s.Wf) (hd : s.Does e s') : s'.Wf := by
  cases hd with
  | addQueue t k hf => exact h.of_grows (fun _ _ => CondQueues.KeyAt.addQueue)
  | lock t op is hf hs =>
      refine ⟨h.placed, ?_, h.pushed, h.reads⟩
      intro w hw i hi
      cases hw
      exact keyAt_of_slots hs hi
  | visit w i rest hw hr =>
      obtain ⟨k, hk, hn⟩ := h.walked w hw i (hr ▸ List.mem_cons_self)
      have hv := h.visitSlot w hk hn
      refine ⟨hv.placed, ?_, hv.pushed, hv.reads⟩
      intro w' hw' j hj
      cases hw'
      exact hv.walked w (by rw [visitSlot_holder, hw]) j (hr ▸ List.mem_cons_of_mem i hj)
  | unlock w hw hr =>
      have hg := h.of_grows (q := (s.release w).queues) (fun i k hk => by
        unfold Slots.release
        split_ifs
        · exact CondQueues.keyAt_removeSlots.mpr hk
        · exact hk)
      exact ⟨hg.placed, fun w' hw' => (by cases hw'), hg.pushed, hg.reads⟩
  | findQueue t k v i hf hi =>
      refine h.goto (fun k' i' hp => ?_)
      cases hp
      exact CondQueues.keyAt_of_valueByKey hi
  | push t k i v hp =>
      have hk := h.placed t k i (by rw [hp]; rfl)
      refine (h.pushValues [v] hk (by simp)).goto (fun k' i' ht => ?_)
      cases ht
  | find t k i kind timed hf hi =>
      refine h.goto (fun k' i' hp => ?_)
      cases hp
      exact CondQueues.keyAt_of_valueByKey hi
  | startEnd t k i kind timed hp hd =>
      have hk := h.placed t k i (by rw [hp]; rfl)
      have hg := h.of_grows (q := s.queues.readBegin i)
        (fun _ _ => CondQueues.keyAt_readBegin.mpr)
      exact hg.endRead t kind true (CondQueues.keyAt_readBegin.mpr hk)
  | startWait t k i kind timed hp hd =>
      have hk := h.placed t k i (by rw [hp]; rfl)
      refine (h.of_grows (fun _ _ => CondQueues.keyAt_readBegin.mpr)).goto (fun k' i' ht => ?_)
      cases ht
      exact CondQueues.keyAt_readBegin.mpr hk
  | wake t timedOut k i kind timed hp hd =>
      exact h.endRead t kind true (h.placed t k i (by rw [hp]; rfl))
  | timeOut t k i kind hp hd =>
      exact h.endRead t kind false (h.placed t k i (by rw [hp]; rfl))
  | missing e hm => exact h

/-! ### First in, first out -/

theorem pushedTo_pushValues (s : Slots T K V) (n : Option ℕ) (key : Option K) (i j : ℕ)
    (vs : List V) : (s.pushValues n key i vs).pushedTo j =
      if j = i then s.pushedTo j ++ vs else s.pushedTo j := by
  simp only [pushedTo, pushValues, List.filter_append, List.map_append, List.filter_map,
    List.map_map]
  split_ifs with hj
  · subst hj
    simp [Function.comp_def]
  · simp [Function.comp_def, Ne.symm hj]

theorem pushedBy_pushValues (s : Slots T K V) (n : Option ℕ) (key : Option K) (i j m : ℕ)
    (vs : List V) : (s.pushValues n key i vs).pushedBy m j =
      if j = i ∧ n = some m then s.pushedBy m j ++ vs else s.pushedBy m j := by
  simp only [pushedBy, pushValues, List.filter_append, List.map_append, List.filter_map,
    List.map_map]
  split_ifs with hj
  · obtain ⟨rfl, rfl⟩ := hj
    simp [Function.comp_def]
  · have hj' : ¬ (i = j ∧ n = some m) := fun h => hj ⟨h.1.symm, h.2⟩
    simp [Function.comp_def, hj']

theorem takenFrom_endRead [DecidableEq T] (s : Slots T K V) (t : T) (k : K) (i j : ℕ)
    (kind : ReadKind) (res : Bool) :
    (s.endRead t k i kind res).takenFrom j =
      if j = i then s.takenFrom j ++ kind.taken (s.queues.dataAt i) (s.queues.canceledAt i) res
      else s.takenFrom j := by
  simp only [takenFrom, endRead, List.filter_append, List.flatMap_append]
  by_cases hj : j = i
  · subst hj
    simp
  · simp [hj, Ne.symm hj]

theorem taken_append_drop (data : List V) (canceled res : Bool) (kind : ReadKind) :
    kind.taken data canceled res ++ data.drop (kind.taken data canceled res).length = data := by
  cases kind with
  | waitQueue => rfl
  | readQueue =>
      cases res with
      | true => simp [ReadKind.taken]
      | false => rfl
  | read =>
      cases canceled with
      | true => rfl
      | false => cases data <;> simp [ReadKind.taken]

/-- What left a queue, followed by what is in it, is what was pushed to it. -/
def Exact (s : Slots T K V) : Prop := ∀ i, s.takenFrom i ++ s.queues.dataAt i = s.pushedTo i

theorem Exact.pushValues {s : Slots T K V} (h : s.Exact) (n : Option ℕ) (key : Option K) {i : ℕ}
    (vs : List V) (hi : i < s.queues.values.length) : (s.pushValues n key i vs).Exact := by
  intro j
  have ht : (s.pushValues n key i vs).takenFrom j = s.takenFrom j := rfl
  have hd : (s.pushValues n key i vs).queues.dataAt j =
      if j = i then s.queues.dataAt j ++ vs else s.queues.dataAt j :=
    CondQueues.dataAt_pushValues hi
  rw [ht, hd, pushedTo_pushValues]
  split_ifs
  · rw [← List.append_assoc, h j]
  · exact h j

theorem Exact.endRead [DecidableEq T] {s : Slots T K V} (h : s.Exact) (t : T) (k : K) (i : ℕ)
    (kind : ReadKind) (res : Bool) : (s.endRead t k i kind res).Exact := by
  intro j
  have hp : (s.endRead t k i kind res).pushedTo j = s.pushedTo j := rfl
  have hd : (s.endRead t k i kind res).queues.dataAt j =
      if j = i then (s.queues.dataAt j).drop
        (kind.taken (s.queues.dataAt i) (s.queues.canceledAt i) res).length
      else s.queues.dataAt j :=
    CondQueues.dataAt_takeFront
  rw [hp, hd, takenFrom_endRead]
  split_ifs with hj
  · subst hj
    rw [List.append_assoc, taken_append_drop]
    exact h j
  · exact h j

theorem Exact.of_dataAt {s s' : Slots T K V} (h : s.Exact) (hp : s'.pushed = s.pushed)
    (hr : s'.reads = s.reads) (hd : ∀ i, s'.queues.dataAt i = s.queues.dataAt i) : s'.Exact := by
  intro i
  rw [hd i]
  unfold takenFrom pushedTo
  rw [hp, hr]
  exact h i

theorem Exact.visitSlot {s : Slots T K V} (h : s.Exact) (w : Holder K V) {i : ℕ}
    (hi : i < s.queues.values.length) : (s.visitSlot w i).Exact := by
  unfold Slots.visitSlot
  split
  · exact h.pushValues _ _ _ hi
  · exact h.of_dataAt rfl rfl (fun j => CondQueues.dataAt_cancelValue)

theorem Exact.step [DecidableEq T] [LinearOrder K] {s s' : Slots T K V} {e : SlotEvent T K V}
    (h : s.Exact) (hw : s.Wf) (hd : s.Does e s') : s'.Exact := by
  cases hd with
  | addQueue t k hf => exact h.of_dataAt rfl rfl (fun i => CondQueues.dataAt_addQueue)
  | lock t op is hf hs => exact h.of_dataAt rfl rfl (fun _ => rfl)
  | visit w i rest hh hr =>
      obtain ⟨k, hk, _⟩ := hw.walked w hh i (hr ▸ List.mem_cons_self)
      exact (h.visitSlot w hk.lt).of_dataAt rfl rfl (fun _ => rfl)
  | unlock w hh hr =>
      refine h.of_dataAt rfl rfl (fun i => ?_)
      unfold Slots.release
      split_ifs
      · exact CondQueues.dataAt_removeSlots
      · rfl
  | findQueue t k v i hf hi => exact h.of_dataAt rfl rfl (fun _ => rfl)
  | push t k i v hp =>
      have hk := hw.placed t k i (by rw [hp]; rfl)
      exact (h.pushValues none (some k) [v] hk.lt).of_dataAt rfl rfl (fun _ => rfl)
  | find t k i kind timed hf hi => exact h.of_dataAt rfl rfl (fun _ => rfl)
  | startEnd t k i kind timed hp hd =>
      have h' : { s with queues := s.queues.readBegin i }.Exact :=
        h.of_dataAt rfl rfl (fun j => CondQueues.dataAt_readBegin)
      exact h'.endRead t k i kind true
  | startWait t k i kind timed hp hd =>
      exact h.of_dataAt rfl rfl (fun j => CondQueues.dataAt_readBegin)
  | wake t timedOut k i kind timed hp hd => exact h.endRead t k i kind true
  | timeOut t k i kind hp hd => exact h.endRead t k i kind false
  | missing e hm => exact h

/-! ### `write_all` -/

/-- The operations that hold `lock_` or have returned pushed what they had to. -/
structure Counted (s : Slots T K V) : Prop where
  serials : ∀ p ∈ s.pushed, ∀ n, p.serial = some n → n < s.serial
  walk : ∀ w, s.holder = some w → w.serial < s.serial ∧ w.count = w.visited.length
  writing : ∀ w v, s.holder = some w → w.op = .writeAll v →
    (w.visited ++ w.rest).Nodup ∧ (∀ i, i ∈ w.visited ++ w.rest ↔ s.queues.storedAt i = true) ∧
      ∀ i, s.pushedBy w.serial i = copies v w.visited i
  wrote : ∀ r ∈ s.writes, r.serial < s.serial ∧ (∀ w, s.holder = some w → r.serial ≠ w.serial) ∧
    r.Complete s.pushedBy

theorem pushedBy_eq_nil {s : Slots T K V} {n : ℕ}
    (h : ∀ p ∈ s.pushed, ∀ m, p.serial = some m → m < n) (i : ℕ) : s.pushedBy n i = [] := by
  unfold pushedBy
  rw [List.map_eq_nil_iff, List.filter_eq_nil_iff]
  intro p hp hc
  have := h p hp n (by simpa using (of_decide_eq_true hc).2)
  omega

theorem Counted.of_same {s s' : Slots T K V} (h : s.Counted) (hh : s'.holder = s.holder)
    (hn : s'.serial = s.serial) (hp : s'.pushed = s.pushed) (hw : s'.writes = s.writes)
    (hs : ∀ w, s.holder = some w → ∀ i, s'.queues.storedAt i = s.queues.storedAt i) :
    s'.Counted := by
  have hb : ∀ n i, s'.pushedBy n i = s.pushedBy n i := by
    intro n i
    unfold pushedBy
    rw [hp]
  refine ⟨?_, ?_, ?_, ?_⟩
  · rw [hp, hn]
    exact h.serials
  · rw [hh, hn]
    exact h.walk
  · rw [hh]
    intro w v hw' ho
    simp only [hb, hs w hw']
    exact h.writing w v hw' ho
  · rw [hh, hn, hw, show s'.pushedBy = s.pushedBy from funext₂ hb]
    exact h.wrote

theorem Counted.push {s : Slots T K V} (h : s.Counted) (key : Option K) (i : ℕ) (vs : List V) :
    (s.pushValues none key i vs).Counted := by
  have hb : ∀ n j, (s.pushValues none key i vs).pushedBy n j = s.pushedBy n j := by
    intro n j
    rw [pushedBy_pushValues, if_neg (by simp)]
  refine ⟨?_, h.walk, ?_, ?_⟩
  · intro p hp n hn
    rcases List.mem_append.mp hp with hp | hp
    · exact h.serials p hp n hn
    · obtain ⟨v, _, rfl⟩ := List.mem_map.mp hp
      cases hn
  · intro w v hw ho
    simp only [hb]
    obtain ⟨hnd, hm, hc⟩ := h.writing w v hw ho
    refine ⟨hnd, fun j => ?_, hc⟩
    rw [hm j]
    exact (congrArg (· = true) CondQueues.storedAt_pushValues.symm).to_iff
  · intro r hr
    obtain ⟨hlt, hne, hnd, hc, hp⟩ := h.wrote r hr
    exact ⟨hlt, hne, hnd, hc, fun j => (hb r.serial j).trans (hp j)⟩

theorem visitSlot_pushedBy_of_ne (s : Slots T K V) (w : Holder K V) (i : ℕ) {n : ℕ}
    (hn : n ≠ w.serial) (j : ℕ) : (s.visitSlot w i).pushedBy n j = s.pushedBy n j := by
  unfold visitSlot
  split
  · rw [pushedBy_pushValues, if_neg]
    rintro ⟨_, he⟩
    exact hn (Option.some.inj he).symm
  · rfl

theorem visitSlot_storedAt (s : Slots T K V) (w : Holder K V) (i j : ℕ) :
    (s.visitSlot w i).queues.storedAt j = s.queues.storedAt j := by
  unfold visitSlot
  split
  · exact CondQueues.storedAt_pushValues
  · exact CondQueues.storedAt_cancelValue

theorem visitSlot_serials {s : Slots T K V} (h : s.Counted) {w : Holder K V}
    (hw : s.holder = some w) (i : ℕ) :
    ∀ p ∈ (s.visitSlot w i).pushed, ∀ n, p.serial = some n → n < s.serial := by
  unfold visitSlot
  split
  · intro p hp n hn
    rcases List.mem_append.mp hp with hp | hp
    · exact h.serials p hp n hn
    · obtain ⟨v, _, rfl⟩ := List.mem_map.mp hp
      cases hn
      exact (h.walk w hw).1
  · exact h.serials

theorem copies_visit (v : V) {is : List ℕ} {i : ℕ} (hi : i ∉ is) (j : ℕ) :
    (if j = i ∧ True then copies v is j ++ [v] else copies v is j) = copies v (is ++ [i]) j := by
  unfold copies
  by_cases hj : j = i
  · subst hj
    simp [hi]
  · simp [hj]

theorem Counted.visit {s : Slots T K V} (h : s.Counted) {w : Holder K V} {i : ℕ} {rest : List ℕ}
    (hw : s.holder = some w) (hr : w.rest = i :: rest) :
    { s.visitSlot w i with holder := some { w with
        visited := w.visited ++ [i], rest := rest, count := w.count + 1 } }.Counted := by
  have hser : (s.visitSlot w i).serial = s.serial := by
    unfold visitSlot
    split <;> rfl
  have hwr : (s.visitSlot w i).writes = s.writes := by
    unfold visitSlot
    split <;> rfl
  refine ⟨?_, ?_, ?_, ?_⟩
  · simp only [hser]
    exact visitSlot_serials h hw i
  · intro w' hw'
    cases hw'
    refine ⟨?_, ?_⟩
    · simp only [hser]
      exact (h.walk w hw).1
    · simp [(h.walk w hw).2]
  · intro w' v hw' ho
    cases hw'
    obtain ⟨hnd, hm, hc⟩ := h.writing w v hw ho
    rw [hr] at hnd hm
    refine ⟨?_, ?_, ?_⟩
    · simpa using hnd
    · intro j
      simp only [visitSlot_storedAt]
      rw [← hm j]
      simp
    · intro j
      have hv : s.visitSlot w i = s.pushValues (some w.serial) w.op.key i [v] := by
        unfold visitSlot
        rw [ho]
        rfl
      have hni : i ∉ w.visited := by
        intro hi
        exact (List.nodup_append.mp hnd).2.2 i hi i List.mem_cons_self rfl
      calc (s.visitSlot w i).pushedBy w.serial j
          = if j = i ∧ some w.serial = some w.serial then s.pushedBy w.serial j ++ [v]
            else s.pushedBy w.serial j := by rw [hv, pushedBy_pushValues]
        _ = if j = i ∧ True then copies v w.visited j ++ [v] else copies v w.visited j := by
            simp only [hc j]
        _ = copies v (w.visited ++ [i]) j := copies_visit v hni j
  · simp only [hser, hwr]
    intro r hr'
    obtain ⟨hlt, hne, hnd, hc, hb⟩ := h.wrote r hr'
    refine ⟨hlt, ?_, hnd, hc, ?_⟩
    · intro w' hw'
      cases hw'
      exact hne w hw
    · intro j
      have := visitSlot_pushedBy_of_ne s w i (hne w hw) j
      exact this.trans (hb j)

theorem Counted.lock [LinearOrder K] {s : Slots T K V} (h : s.Counted) {op : MapOp K V}
    {is : List ℕ} (hs : op.slots s.queues = some is) :
    { s with holder := some ⟨op, s.serial, [], is, 0⟩, serial := s.serial + 1 }.Counted := by
  refine ⟨?_, ?_, ?_, ?_⟩
  · intro p hp n hn
    have := h.serials p hp n hn
    show n < s.serial + 1
    omega
  · intro w hw
    cases hw
    exact ⟨Nat.lt_succ_self _, rfl⟩
  · intro w v hw ho
    cases hw
    obtain rfl : op = .writeAll v := ho
    obtain rfl : s.queues.storedSlots = is := Option.some.inj hs
    refine ⟨CondQueues.nodup_storedSlots, fun i => CondQueues.mem_storedSlots, fun i => ?_⟩
    exact pushedBy_eq_nil h.serials i
  · intro r hr
    obtain ⟨hlt, _, hc⟩ := h.wrote r hr
    refine ⟨Nat.lt_succ_of_lt hlt, ?_, hc⟩
    intro w hw
    cases hw
    exact Nat.ne_of_lt hlt

/-- The queues that the map has are those that the finished operation has been to. -/
theorem Counted.writeReturn [LinearOrder K] {s : Slots T K V} (h : s.Counted) {w : Holder K V}
    (hw : s.holder = some w) (hr : w.rest = []) {r : WriteReturn V} (hm : r ∈ s.writeReturn w) :
    r.serial = w.serial ∧ r.Complete s.pushedBy := by
  unfold Slots.writeReturn at hm
  split at hm
  case h_1 v ho =>
    obtain rfl := List.mem_singleton.mp hm
    obtain ⟨hnd, hmem, hc⟩ := h.writing w v hw ho
    rw [hr, List.append_nil] at hnd hmem
    have hp : w.visited.Perm s.queues.storedSlots := by
      rw [List.perm_ext_iff_of_nodup hnd CondQueues.nodup_storedSlots]
      intro i
      rw [hmem i, CondQueues.mem_storedSlots]
    refine ⟨rfl, CondQueues.nodup_storedSlots, ?_, ?_⟩
    · exact (h.walk w hw).2.trans hp.length_eq
    · intro i
      refine (hc i).trans ?_
      unfold copies
      simp only [hp.mem_iff]
  case h_2 => cases hm

theorem Counted.step [DecidableEq T] [LinearOrder K] {s s' : Slots T K V} {e : SlotEvent T K V}
    (h : s.Counted) (hd : s.Does e s') : s'.Counted := by
  cases hd with
  | addQueue t k hf =>
      refine h.of_same rfl rfl rfl rfl (fun w hw => ?_)
      rw [hf] at hw
      cases hw
  | lock t op is hf hs => exact h.lock hs
  | visit w i rest hw hr => exact h.visit hw hr
  | unlock w hw hr =>
      refine ⟨h.serials, fun w' hw' => (by cases hw'), fun w' v hw' => (by cases hw'), ?_⟩
      intro r hm
      refine ⟨?_, fun w' hw' => (by cases hw'), ?_⟩
      · rcases List.mem_append.mp hm with hm | hm
        · exact (h.wrote r hm).1
        · rw [(h.writeReturn hw hr hm).1]
          exact (h.walk w hw).1
      · rcases List.mem_append.mp hm with hm | hm
        · exact (h.wrote r hm).2.2
        · exact (h.writeReturn hw hr hm).2
  | findQueue t k v i hf hi => exact h.of_same rfl rfl rfl rfl (fun _ _ _ => rfl)
  | push t k i v hp =>
      exact (h.push (some k) i [v]).of_same rfl rfl rfl rfl (fun _ _ _ => rfl)
  | find t k i kind timed hf hi => exact h.of_same rfl rfl rfl rfl (fun _ _ _ => rfl)
  | startEnd t k i kind timed hp hd =>
      refine h.of_same rfl rfl rfl rfl (fun _ _ j => ?_)
      exact CondQueues.storedAt_takeFront.trans CondQueues.storedAt_readBegin
  | startWait t k i kind timed hp hd =>
      exact h.of_same rfl rfl rfl rfl (fun _ _ j => CondQueues.storedAt_readBegin)
  | wake t timedOut k i kind timed hp hd =>
      exact h.of_same rfl rfl rfl rfl (fun _ _ j => CondQueues.storedAt_takeFront)
  | timeOut t k i kind hp hd =>
      exact h.of_same rfl rfl rfl rfl (fun _ _ j => CondQueues.storedAt_takeFront)
  | missing e hm => exact h

/-! ### What reads return -/

theorem took_endRead (s : Slots T K V) (k : K) (i : ℕ) (kind : ReadKind) (b : Bool) {res : Bool}
    (h : s.queueEmptyPredicate i = res) :
    ReadReturn.Took ⟨k, i, kind, cancelRes2waitRes (s.queues.canceledAt i) res,
      kind.taken (s.queues.dataAt i) (s.queues.canceledAt i) res, s.queues.dataAt i, b⟩ := by
  unfold queueEmptyPredicate at h
  subst h
  cases hc : s.queues.canceledAt i with
  | true =>
      refine ⟨by simp [cancelRes2waitRes], ?_⟩
      rintro rfl
      simp [cancelRes2waitRes, ReadKind.taken]
  | false =>
      cases hd : s.queues.dataAt i with
      | nil =>
          refine ⟨by simp [cancelRes2waitRes], ?_⟩
          rintro rfl
          simp [cancelRes2waitRes, ReadKind.taken]
      | cons v vs =>
          refine ⟨by simp, ?_⟩
          rintro rfl
          simp [cancelRes2waitRes, ReadKind.taken]

theorem took_step [DecidableEq T] [LinearOrder K] {s s' : Slots T K V} {e : SlotEvent T K V}
    (hd : s.Does e s') (h : ∀ r ∈ s.reads, r.Took) : ∀ r ∈ s'.reads, r.Took := by
  have hend : ∀ (s : Slots T K V) (t : T) (k : K) (i : ℕ) (kind : ReadKind) (res : Bool),
      (∀ r ∈ s.reads, r.Took) → s.queueEmptyPredicate i = res →
      ∀ r ∈ (s.endRead t k i kind res).reads, r.Took := by
    intro s t k i kind res h hp r hr
    rcases List.mem_append.mp hr with hr | hr
    · exact h r hr
    · obtain rfl := List.mem_singleton.mp hr
      exact took_endRead s k i kind _ hp
  cases hd with
  | visit w i rest hw hr =>
      unfold visitSlot
      split <;> exact h
  | startEnd t k i kind timed hp hd =>
      exact hend _ t k i kind true h ((predicate_readBegin s i).mpr hd)
  | wake t timedOut k i kind timed hp hd => exact hend s t k i kind true h hd
  | timeOut t k i kind hp hd => exact hend s t k i kind false h hd
  | addQueue t k hf => exact h
  | lock t op is hf hs => exact h
  | unlock w hw hr => exact h
  | findQueue t k v i hf hi => exact h
  | push t k i v hp => exact h
  | find t k i kind timed hf hi => exact h
  | startWait t k i kind timed hp hd => exact h
  | missing e hm => exact h

/-- Every operation that waits is `read`. -/
structure Single (s : Slots T K V) : Prop where
  place : ∀ t kind, (s.place t).kind = some kind → kind = .read
  reads : ∀ r ∈ s.reads, r.kind = .read

theorem Single.goto [DecidableEq T] {s : Slots T K V} (h : s.Single) (t : T) {p : Place K V}
    (hp : ∀ kind, p.kind = some kind → kind = .read) : (s.goto t p).Single := by
  refine ⟨?_, h.reads⟩
  intro t' kind hk
  by_cases ht : t' = t
  · subst ht
    simp only [Slots.goto, Function.update_self] at hk
    exact hp kind hk
  · simp only [Slots.goto, Function.update_of_ne ht] at hk
    exact h.place t' kind hk

theorem Single.endRead [DecidableEq T] {s : Slots T K V} (h : s.Single) (t : T) (k : K) (i : ℕ)
    {kind : ReadKind} (hk : kind = .read) (res : Bool) : (s.endRead t k i kind res).Single := by
  refine ⟨(h.goto t (p := .idle) (by simp [Place.kind])).place, ?_⟩
  intro r hr
  rcases List.mem_append.mp hr with hr | hr
  · exact h.reads r hr
  · obtain rfl := List.mem_singleton.mp hr
    exact hk

theorem Single.step [DecidableEq T] [LinearOrder K] {s s' : Slots T K V} {e : SlotEvent T K V}
    (h : s.Single) (he : e.Single) (hd : s.Does e s') : s'.Single := by
  cases hd with
  | visit w i rest hw hr =>
      unfold visitSlot
      split <;> exact ⟨h.place, h.reads⟩
  | findQueue t k v i hf hi => exact h.goto t (by simp [Place.kind])
  | push t k i v hp =>
      have h' : (s.pushValues none (some k) i [v]).Single := ⟨h.place, h.reads⟩
      exact h'.goto t (by simp [Place.kind])
  | find t k i kind timed hf hi =>
      refine h.goto t (fun kind' hk => ?_)
      cases hk
      exact he
  | startEnd t k i kind timed hp hd =>
      have h' : { s with queues := s.queues.readBegin i }.Single := ⟨h.place, h.reads⟩
      exact h'.endRead t k i (h.place t kind (by rw [hp]; rfl)) true
  | startWait t k i kind timed hp hd =>
      have h' : { s with queues := s.queues.readBegin i }.Single := ⟨h.place, h.reads⟩
      refine h'.goto t (fun kind' hk => ?_)
      cases hk
      exact h.place t kind (by rw [hp]; rfl)
  | wake t timedOut k i kind timed hp hd =>
      exact h.endRead t k i (h.place t kind (by rw [hp]; rfl)) true
  | timeOut t k i kind hp hd => exact h.endRead t k i (h.place t kind (by rw [hp]; rfl)) false
  | addQueue t k hf => exact ⟨h.place, h.reads⟩
  | lock t op is hf hs => exact ⟨h.place, h.reads⟩
  | unlock w hw hr => exact ⟨h.place, h.reads⟩
  | missing e hm => exact h

/-- What holds in every state that the threads reach. -/
structure Inv (s : Slots T K V) : Prop where
  wf : s.Wf
  exact : s.Exact
  counted : s.Counted
  took : ∀ r ∈ s.reads, r.Took

theorem Inv.initial : (Slots.initial : Slots T K V).Inv where
  wf := by
    refine ⟨?_, ?_, ?_, ?_⟩
    · intro t k i h
      cases h
    · intro w hw
      cases hw
    · intro p hp
      cases hp
    · intro r hr
      cases hr
  exact := fun _ => rfl
  counted := by
    refine ⟨?_, ?_, ?_, ?_⟩
    · intro p hp
      cases hp
    · intro w hw
      cases hw
    · intro w v hw
      cases hw
    · intro r hr
      cases hr
  took := by
    intro r hr
    cases hr

theorem Inv.step [DecidableEq T] [LinearOrder K] {s s' : Slots T K V} {e : SlotEvent T K V}
    (h : s.Inv) (hd : s.Does e s') : s'.Inv where
  wf := h.wf.step hd
  exact := h.exact.step h.wf hd
  counted := h.counted.step hd
  took := took_step hd h.took

/-- A cancellation that no read has reported yet reaches the reads: one that waits finds its
predicate true, and one that returned while it was unreported was cancelled too, or found a
value. -/
structure Heard (s : Slots T K V) : Prop where
  waiting : ∀ t k i kind timed, s.place t = .waiting k i kind timed → s.unreported i = true →
    s.queueEmptyPredicate i = true
  returned : ∀ r ∈ s.reads, r.unreported = true →
    r.result = .canceled ∨ (r.result = .success ∧ r.queued ≠ [])

/-- A read that starts on a queue with an unreported cancellation finds a value there, and no other
read waits on that queue. -/
def StartsSafely (s : Slots T K V) : SlotEvent T K V → Prop
  | .start t => ∀ k i kind timed, s.place t = .found k i kind timed → s.unreported i = true →
      s.queues.dataAt i ≠ [] ∧
        ∀ t' k' kind' timed', s.place t' ≠ .waiting k' i kind' timed'
  | _ => True

/-- The flag of a queue with an unreported cancellation is still set while a read waits on it. -/
structure Flagged (s : Slots T K V) : Prop where
  waiting : ∀ t k i kind timed, s.place t = .waiting k i kind timed → s.unreported i = true →
    s.queues.canceledAt i = true
  returned : ∀ r ∈ s.reads, r.unreported = true →
    r.result = .canceled ∨ (r.result = .success ∧ r.queued ≠ [])

theorem Flagged.heard {s : Slots T K V} (h : s.Flagged) : s.Heard := by
  refine ⟨?_, h.returned⟩
  intro t k i kind timed hp hu
  unfold queueEmptyPredicate
  rw [h.waiting t k i kind timed hp hu, Bool.or_true]

/-- A step after which the same reads wait, or fewer, and no flag is reset. -/
theorem Flagged.of_same {s s' : Slots T K V} (h : s.Flagged) (hr : s'.reads = s.reads)
    (hu : s'.unreported = s.unreported)
    (hc : ∀ i, s'.queues.canceledAt i = s.queues.canceledAt i)
    (hp : ∀ t k i kind timed, s'.place t = .waiting k i kind timed →
      s.place t = .waiting k i kind timed) : s'.Flagged := by
  refine ⟨?_, ?_⟩
  · intro t k i kind timed ht hun
    rw [hc i]
    exact h.waiting t k i kind timed (hp t k i kind timed ht) (hu ▸ hun)
  · rw [hr]
    exact h.returned

theorem waiting_goto [DecidableEq T] {s : Slots T K V} {t : T} {p : Place K V}
    (hn : ∀ k i kind timed, p ≠ .waiting k i kind timed) (t' : T) (k : K) (i : ℕ)
    (kind : ReadKind) (timed : Bool) (h : (s.goto t p).place t' = .waiting k i kind timed) :
    s.place t' = .waiting k i kind timed := by
  by_cases ht : t' = t
  · subst ht
    simp only [goto, Function.update_self] at h
    exact absurd h (hn k i kind timed)
  · simpa only [goto, Function.update_of_ne ht] using h

theorem Flagged.cancelValue {s : Slots T K V} (h : s.Flagged) {i : ℕ}
    (hi : i < s.queues.values.length) : (s.cancelValue i).Flagged := by
  refine ⟨?_, h.returned⟩
  intro t k j kind timed hp hu
  have hc : (s.cancelValue i).queues.canceledAt j =
      if j = i then true else s.queues.canceledAt j :=
    CondQueues.canceledAt_cancelValue hi
  rw [hc]
  split_ifs with hj
  · rfl
  · refine h.waiting t k j kind timed hp ?_
    simpa only [Slots.cancelValue, Function.update_of_ne hj] using hu

/-- The end of a read that reports a cancellation, or finds the flag in order. -/
theorem Flagged.endRead [DecidableEq T] {s : Slots T K V} (h : s.Flagged) (t : T) (k : K) {i : ℕ}
    (kind : ReadKind) {res : Bool}
    (hr : s.unreported i = true → s.queues.canceledAt i = true ∨
      (res = true ∧ s.queues.dataAt i ≠ [])) : (s.endRead t k i kind res).Flagged := by
  refine ⟨?_, ?_⟩
  · intro t' k' j kind' timed hp hu
    have hp' := waiting_goto (s := s) (t := t) (p := .idle) (by simp) t' k' j kind' timed hp
    refine (CondQueues.canceledAt_takeFront).trans (h.waiting t' k' j kind' timed hp' ?_)
    simp only [Slots.endRead] at hu
    split_ifs at hu with hc
    · by_cases hj : j = i
      · subst hj
        rw [Function.update_self] at hu
        cases hu
      · rwa [Function.update_of_ne hj] at hu
    · exact hu
  · intro r hm hu
    rcases List.mem_append.mp hm with hm | hm
    · exact h.returned r hm hu
    · obtain rfl := List.mem_singleton.mp hm
      rcases hr hu with hc | ⟨rfl, hd⟩
      · exact .inl (by simp [cancelRes2waitRes, hc])
      · cases hc : s.queues.canceledAt i with
        | true => exact .inl rfl
        | false => exact .inr ⟨rfl, hd⟩

theorem Flagged.step [DecidableEq T] [LinearOrder K] {s s' : Slots T K V} {e : SlotEvent T K V}
    (h : s.Flagged) (hw : s.Wf) (hc : s.StartsSafely e) (hd : s.Does e s') : s'.Flagged := by
  cases hd with
  | addQueue t k hf =>
      exact h.of_same rfl rfl (fun i => CondQueues.canceledAt_addQueue) (fun _ _ _ _ _ hp => hp)
  | lock t op is hf hs => exact h.of_same rfl rfl (fun _ => rfl) (fun _ _ _ _ _ hp => hp)
  | visit w i rest hh hr =>
      obtain ⟨k, hk, _⟩ := hw.walked w hh i (hr ▸ List.mem_cons_self)
      have hv : (s.visitSlot w i).Flagged := by
        unfold visitSlot
        split
        · exact h.of_same rfl rfl (fun j => CondQueues.canceledAt_pushValues)
            (fun _ _ _ _ _ hp => hp)
        · exact h.cancelValue hk.lt
      exact hv.of_same rfl rfl (fun _ => rfl) (fun _ _ _ _ _ hp => hp)
  | unlock w hh hr =>
      refine h.of_same rfl rfl (fun i => ?_) (fun _ _ _ _ _ hp => hp)
      unfold Slots.release
      split_ifs
      · exact CondQueues.canceledAt_removeSlots
      · rfl
  | findQueue t k v i hf hi =>
      exact h.of_same rfl rfl (fun _ => rfl) (waiting_goto (by simp))
  | push t k i v hp =>
      exact h.of_same rfl rfl (fun j => CondQueues.canceledAt_pushValues) (waiting_goto (by simp))
  | find t k i kind timed hf hi =>
      exact h.of_same rfl rfl (fun _ => rfl) (waiting_goto (by simp))
  | startEnd t k i kind timed hp hd =>
      -- the flag is reset: by the condition no other read relies on it
      have h' : { s with queues := s.queues.readBegin i }.Flagged := by
        refine ⟨?_, h.returned⟩
        intro t' k' j kind' timed' hp' hu
        refine CondQueues.canceledAt_readBegin.trans ?_
        split_ifs with hj
        · subst hj
          exact absurd hp' ((hc k j kind timed hp hu).2 t' k' kind' timed')
        · exact h.waiting t' k' j kind' timed' hp' hu
      exact h'.endRead t k kind (fun _ => .inr ⟨rfl, by simpa using hd⟩)
  | startWait t k i kind timed hp hd =>
      -- by the condition the flag that is reset was not that of an unreported cancellation
      refine ⟨?_, h.returned⟩
      intro t' k' j kind' timed' hp' hu
      refine CondQueues.canceledAt_readBegin.trans ?_
      split_ifs with hj
      · subst hj
        exact absurd hd (hc k j kind timed hp hu).1
      · by_cases ht : t' = t
        · subst ht
          simp only [goto, Function.update_self] at hp'
          cases hp'
          exact absurd rfl hj
        · simp only [goto, Function.update_of_ne ht] at hp'
          exact h.waiting t' k' j kind' timed' hp' hu
  | wake t timedOut k i kind timed hp hd =>
      exact h.endRead t k kind (fun hu => .inl (h.waiting t k i kind timed hp hu))
  | timeOut t k i kind hp hd =>
      exact h.endRead t k kind (fun hu => .inl (h.waiting t k i kind true hp hu))
  | missing e hm => exact h

/-- The condition is needed: a read that starts on an empty queue with an unreported cancellation
waits, and nothing wakes it. -/
theorem not_heard_of_start [DecidableEq T] [LinearOrder K] {s s' : Slots T K V} {t : T} {k : K}
    {i : ℕ} {kind : ReadKind} {timed : Bool} (hp : s.place t = .found k i kind timed)
    (hu : s.unreported i = true) (hd : s.queues.dataAt i = []) (h : s.step (.start t) = some s') :
    ¬ s'.Heard := by
  have hpred : ¬ ({ s with queues := s.queues.readBegin i }.queueEmptyPredicate i = true) :=
    fun hc => (predicate_readBegin s i).mp hc hd
  simp only [step, hp, if_neg hpred, Option.some.injEq] at h
  subst h
  intro hh
  exact hpred (hh.waiting t k i kind timed (by simp [goto]) hu)

end Slots

end Vtrc
