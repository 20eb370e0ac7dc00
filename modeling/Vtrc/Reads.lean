import Vtrc.Slots

/-! # The objects of the callers (`wait_queue`, `read` and `read_queue`)

`read( key, result )` and `read_queue( key, result )` write into an object of their caller.  The
threads of `Slots.lean` get these objects: one value and one queue for each thread, which it sets
between its operations as it likes.

`leftBy` is what the end of `wait_queue_impl`, `read_impl` and `read_queue_impl` leaves in them.
Every return is noted with `data_` and the objects before and after (`Returned`), and is `Exact`
when a failed operation has changed neither and a successful one has moved what it should.

`reads_exact_iff`: in a run all returns are exact if and only if no waiting `read_queue` ends on a
cancelled queue while the queue or the caller's object holds a value.  `read_queue_impl` asks for
the result of the wait alone where `read_impl` also asks for `canceled_`; a cancelled read takes
everything with it (`canceled_read_queue_takes`). -/

namespace Vtrc

variable {T K V : Type}

/-- A read that ends in a step: its thread, its queue, and, after the wait, `canceled_` and what
the wait returned. -/
structure Ending (T : Type) where
  thread : T
  slot : ℕ
  kind : ReadKind
  canceled : Bool
  res : Bool

/-- The object of a `read` and the object of a `read_queue`. -/
abbrev Objects (V : Type) := V × List V

namespace Ending

/-- The result that the operation returns. -/
def result (f : Ending T) : WaitResult := cancelRes2waitRes f.canceled f.res

/-- The objects of the thread after the end of `wait_queue_impl`, `read_queue_impl` (`pop_all`)
or `read_impl` (`std::swap` with the front). -/
def leftBy (f : Ending T) (data : List V) (o : Objects V) : Objects V :=
  match f.kind with
  | .waitQueue => o
  | .readQueue => if f.res then (o.1, data) else o
  | .read => if f.canceled then o else (data.headD o.1, o.2)

end Ending

/-- The read that ends in the step, if one does. -/
def Slots.ending (s : Slots T K V) : SlotEvent T K V → Option (Ending T)
  | .start t =>
      match s.place t with
      | .found _ i kind _ =>
          -- the flag has just been reset
          if s.queues.dataAt i = [] then none else some ⟨t, i, kind, false, true⟩
      | _ => none
  | .wake t timedOut =>
      match s.place t with
      | .waiting _ i kind timed =>
          if s.queueEmptyPredicate i then some ⟨t, i, kind, s.queues.canceledAt i, true⟩
          else if timed && timedOut then some ⟨t, i, kind, s.queues.canceledAt i, false⟩
          else none
      | _ => none
  | _ => none

/-- A return of `wait_queue`, `read` or `read_queue`: `data_` before and after its end, and the
objects of the thread when it called and now. -/
structure Returned (V : Type) where
  kind : ReadKind
  result : WaitResult
  before : List V
  after : List V
  called : Objects V
  left : Objects V

/-- Nothing was removed and the objects are as they were; or, for a success, `read` has removed
exactly the first value and `read_queue` exactly all of them, in order. -/
structure Returned.Exact (r : Returned V) : Prop where
  failed : r.result ≠ .success → r.after = r.before ∧ r.left = r.called
  waited : r.kind = .waitQueue → r.after = r.before ∧ r.left = r.called
  read : r.result = .success → r.kind = .read →
    r.before = r.left.1 :: r.after ∧ r.left.2 = r.called.2
  readQueue : r.result = .success → r.kind = .readQueue →
    r.left.2 = r.before ∧ r.after = [] ∧ r.left.1 = r.called.1

/-- The threads with their objects now and at the call, and the returns. -/
structure Reads (T K V : Type) where
  slots : Slots T K V
  objects : T → Objects V
  called : T → Objects V
  returns : List (Returned V)

/-- A step of the queues, or a thread that is not inside an operation sets its objects. -/
inductive ReadsEvent (T K V : Type) where
  | slot (e : SlotEvent T K V)
  | assign (thread : T) (objects : Objects V)

namespace Reads

theorem dataAt_endRead [DecidableEq T] (s : Slots T K V) (t : T) (k : K) (i : ℕ) (kind : ReadKind) (res : Bool) :
    (s.endRead t k i kind res).queues.dataAt i = (s.queues.dataAt i).drop
      (kind.taken (s.queues.dataAt i) (s.queues.canceledAt i) res).length := by
  refine CondQueues.dataAt_takeFront.trans ?_
  rw [if_pos rfl]

theorem queueEmptyPredicate_iff (s : Slots T K V) (i : ℕ) :
    s.queueEmptyPredicate i = true ↔
      s.queues.dataAt i ≠ [] ∨ s.queues.canceledAt i = true := by
  unfold Slots.queueEmptyPredicate
  simp

variable [DecidableEq T]

/-- The objects at the call: `find` is the first step of the three operations. -/
def calledAfter (s : Reads T K V) : SlotEvent T K V → T → Objects V
  | .find t _ _ _ => Function.update s.called t (s.objects t)
  | _ => s.called

theorem calledAfter_find (s : Reads T K V) (t : T) (k : K) (kind : ReadKind) (timed : Bool) :
    s.calledAfter (.find t k kind timed) = Function.update s.called t (s.objects t) := rfl

/-- A step of the queues, seen by the callers. -/
def advance (s : Reads T K V) (e : SlotEvent T K V) (slots' : Slots T K V) : Reads T K V :=
  match s.slots.ending e with
  | some f =>
      let data := s.slots.queues.dataAt f.slot
      let left := f.leftBy data (s.objects f.thread)
      { slots := slots'
        objects := Function.update s.objects f.thread left
        called := s.called
        returns := s.returns ++
          [⟨f.kind, f.result, data, slots'.queues.dataAt f.slot, s.called f.thread, left⟩] }
  | none => { s with slots := slots', called := s.calledAfter e }

def step [LinearOrder K] (s : Reads T K V) : ReadsEvent T K V → Option (Reads T K V)
  | .slot e => (s.slots.step e).map (s.advance e)
  | .assign t o =>
      if (s.slots.place t).isIdle then some { s with objects := Function.update s.objects t o }
      else none

/-- The threads from the empty map on, with any objects. -/
def machine [LinearOrder K] (objects : T → Objects V) : Machine (Reads T K V) (ReadsEvent T K V) where
  init := ⟨.initial, objects, objects, []⟩
  step := step

/-! ### What one step does -/

/-- A read that ends: it returns with its result, and takes from its queue what
`ReadKind.taken` says; the wait has returned `true` when there is a value or the flag is set. -/
structure Ended (s s' : Slots T K V) (f : Ending T) : Prop where
  reading : (s.place f.thread).kind = some f.kind
  idle : s'.place = Function.update s.place f.thread .idle
  data : s'.queues.dataAt f.slot = (s.queues.dataAt f.slot).drop
    (f.kind.taken (s.queues.dataAt f.slot) f.canceled f.res).length
  res : f.res = true ↔ s.queues.dataAt f.slot ≠ [] ∨ f.canceled = true
  logged : ∃ r, s'.reads = s.reads ++ [r] ∧ r.slot = f.slot ∧ r.kind = f.kind ∧
    r.result = f.result

theorem ended_of_ending [LinearOrder K] {s s' : Slots T K V} {e : SlotEvent T K V} {f : Ending T}
    (hd : s.Does e s') (hf : s.ending e = some f) : Ended s s' f := by
  cases hd with
  | startEnd t k i kind timed hp hd =>
      simp only [Slots.ending, hp, if_neg hd, Option.some.injEq] at hf
      subst hf
      have hcanceled : (s.queues.readBegin i).canceledAt i = false := by
        rw [CondQueues.canceledAt_readBegin, if_pos rfl]
      have hdata : (s.queues.readBegin i).dataAt i = s.queues.dataAt i :=
        CondQueues.dataAt_readBegin
      refine ⟨by rw [hp]; rfl, rfl, ?_, by simp [hd], _, rfl, rfl, rfl, ?_⟩
      · rw [dataAt_endRead, hdata, hcanceled]
      · simp only [hcanceled]
        rfl
  | wake t timedOut k i kind timed hp hpred =>
      simp only [Slots.ending, hp, if_pos hpred, Option.some.injEq] at hf
      subst hf
      refine ⟨by rw [hp]; rfl, rfl, dataAt_endRead _ _ _ _ _ _, ?_, _, rfl, rfl, rfl, rfl⟩
      simpa using (queueEmptyPredicate_iff s i).mp hpred
  | timeOut t k i kind hp hpred =>
      simp only [Slots.ending, hp, hpred, Bool.false_eq_true, if_false, Bool.and_self, if_true,
        Option.some.injEq] at hf
      subst hf
      refine ⟨by rw [hp]; rfl, rfl, dataAt_endRead _ _ _ _ _ _, ?_, _, rfl, rfl, rfl, rfl⟩
      rw [← queueEmptyPredicate_iff, hpred]
  | startWait t k i kind timed hp hd => simp [Slots.ending, hp, hd] at hf
  | addQueue t k hh => cases hf
  | lock t op is hh hs => cases hf
  | visit w i rest hw hr => cases hf
  | unlock w hw hr => cases hf
  | findQueue t k v i hh hi => cases hf
  | push t k i v hp => cases hf
  | find t k i kind timed hh hi => cases hf
  | missing e hm => cases e <;> first | exact hm.elim | cases hf

/-- A step in which no read ends removes nothing from any queue; one that does removes nothing
from the other queues. -/
theorem dataAt_prefix [LinearOrder K] {s s' : Slots T K V} {e : SlotEvent T K V} (hw : s.Wf) (hd : s.Does e s')
    {i : ℕ} (hi : ∀ f, s.ending e = some f → f.slot ≠ i) :
    s.queues.dataAt i <+: s'.queues.dataAt i := by
  have push : ∀ {j : ℕ} (vs : List V), j < s.queues.values.length →
      s.queues.dataAt i <+: (s.queues.pushValues j vs).dataAt i := by
    intro j vs hj
    rw [CondQueues.dataAt_pushValues hj]
    split_ifs
    · exact List.prefix_append _ _
    · exact List.prefix_rfl
  have other : ∀ {q : CondQueues K V} {j n : ℕ}, j ≠ i → q.dataAt i = s.queues.dataAt i →
      s.queues.dataAt i <+: (q.takeFront j n).dataAt i := by
    intro q j n hj hq
    have hsame : (q.takeFront j n).dataAt i = s.queues.dataAt i := by
      rw [CondQueues.dataAt_takeFront, if_neg (Ne.symm hj), hq]
    exact hsame ▸ List.prefix_rfl
  cases hd with
  | addQueue t k hf =>
      have hsame : (s.queues.addQueue k).dataAt i = s.queues.dataAt i :=
        CondQueues.dataAt_addQueue
      exact hsame ▸ List.prefix_rfl
  | lock t op is hf hs => exact List.prefix_rfl
  | visit w j rest hh hr =>
      obtain ⟨k, hk, _⟩ := hw.walked w hh j (hr ▸ List.mem_cons_self)
      unfold Slots.visitSlot
      split
      · exact push _ hk.lt
      · exact (CondQueues.dataAt_cancelValue (q := s.queues)) ▸ List.prefix_rfl
  | unlock w hh hr =>
      unfold Slots.release
      split_ifs
      · exact (CondQueues.dataAt_removeSlots (q := s.queues)) ▸ List.prefix_rfl
      · exact List.prefix_rfl
  | findQueue t k v j hf hj => exact List.prefix_rfl
  | push t k j v hp => exact push [v] (hw.placed t k j (by rw [hp]; rfl)).lt
  | find t k j kind timed hf hj => exact List.prefix_rfl
  | startEnd t k j kind timed hp hd =>
      refine other ?_ CondQueues.dataAt_readBegin
      exact hi ⟨t, j, kind, false, true⟩ (by simp [Slots.ending, hp, hd])
  | startWait t k j kind timed hp hd =>
      exact (CondQueues.dataAt_readBegin (q := s.queues)) ▸ List.prefix_rfl
  | wake t timedOut k j kind timed hp hpred =>
      refine other ?_ rfl
      exact hi ⟨t, j, kind, s.queues.canceledAt j, true⟩ (by simp only [Slots.ending, hp, if_pos hpred])
  | timeOut t k j kind hp hpred =>
      refine other ?_ rfl
      exact hi ⟨t, j, kind, s.queues.canceledAt j, false⟩ (by simp [Slots.ending, hp, hpred])
  | missing e hm => exact List.prefix_rfl

/-! ### Returns -/

/-- A waiting `read_queue` ends on a cancelled queue only when the queue and the object of its
caller are empty. -/
def WakesEmpty (s : Reads T K V) : ReadsEvent T K V → Prop
  | .slot e => ∀ f ∈ s.slots.ending e, f.kind = .readQueue → f.canceled = true →
      s.slots.queues.dataAt f.slot = [] ∧ (s.objects f.thread).2 = []
  | .assign _ _ => True

instance decidableWakesEmpty (s : Reads T K V) :
    (e : ReadsEvent T K V) → Decidable (s.WakesEmpty e)
  | .slot e => inferInstanceAs (Decidable (∀ f ∈ s.slots.ending e, f.kind = .readQueue →
      f.canceled = true → s.slots.queues.dataAt f.slot = [] ∧ (s.objects f.thread).2 = []))
  | .assign _ _ => inferInstanceAs (Decidable True)

/-- A thread inside one of the three operations has the objects with which it called. -/
def Called (s : Reads T K V) : Prop :=
  ∀ t, (s.slots.place t).kind ≠ none → s.called t = s.objects t

/-- The return of a read that ends is exact unless it is a cancelled `read_queue` with values at
hand. -/
theorem exact_iff {s s' : Slots T K V} {f : Ending T} (h : Ended s s' f) (o : Objects V) :
    (⟨f.kind, f.result, s.queues.dataAt f.slot, s'.queues.dataAt f.slot, o,
        f.leftBy (s.queues.dataAt f.slot) o⟩ : Returned V).Exact ↔
      (f.kind = .readQueue → f.canceled = true → s.queues.dataAt f.slot = [] ∧ o.2 = []) := by
  have hdata := h.data
  have hres := h.res
  generalize s.queues.dataAt f.slot = data at hdata hres ⊢
  rw [hdata]
  obtain ⟨t, i, kind, canceled, res⟩ := f
  simp only at hres ⊢
  cases kind with
  | waitQueue =>
      constructor
      · intro _ hk
        cases hk
      · intro _
        exact ⟨fun _ => ⟨rfl, rfl⟩, fun _ => ⟨rfl, rfl⟩, fun _ hk => (by cases hk),
          fun _ hk => (by cases hk)⟩
  | read =>
      constructor
      · intro _ hk
        cases hk
      · intro _
        cases canceled with
        | true =>
            exact ⟨fun _ => ⟨rfl, rfl⟩, fun hk => (by cases hk), fun hr => (by cases hr),
              fun _ hk => (by cases hk)⟩
        | false =>
            cases data with
            | nil =>
                obtain rfl : res = false := by simpa using hres
                exact ⟨fun _ => ⟨rfl, rfl⟩, fun hk => (by cases hk), fun hr => (by cases hr),
                  fun _ hk => (by cases hk)⟩
            | cons v rest =>
                obtain rfl : res = true := by simpa using hres
                exact ⟨fun hr => absurd rfl hr, fun hk => (by cases hk), fun _ _ => ⟨rfl, rfl⟩,
                  fun _ hk => (by cases hk)⟩
  | readQueue =>
      have hall : data.drop (ReadKind.readQueue.taken data canceled true).length = [] :=
        List.drop_length
      cases canceled with
      | true =>
          obtain rfl : res = true := by simpa using hres
          rw [hall]
          constructor
          · intro hx _ _
            obtain ⟨hafter, hleft⟩ := hx.failed (by simp [Ending.result, cancelRes2waitRes])
            have hobject : data = o.2 := congrArg Prod.snd hleft
            exact ⟨hafter.symm, hobject.symm.trans hafter.symm⟩
          · intro hempty
            obtain ⟨hd, ho⟩ := hempty rfl rfl
            refine ⟨fun _ => ⟨hd.symm, ?_⟩, fun hk => (by cases hk), fun hr => (by cases hr),
              fun hr => (by cases hr)⟩
            exact Prod.ext rfl (hd.trans ho.symm)
      | false =>
          constructor
          · intro _ _ hc
            cases hc
          · intro _
            cases res with
            | true =>
                rw [hall]
                exact ⟨fun hr => absurd rfl hr, fun hk => (by cases hk), fun _ hk => (by cases hk),
                  fun _ _ => ⟨rfl, rfl, rfl⟩⟩
            | false =>
                exact ⟨fun _ => ⟨rfl, rfl⟩, fun hk => (by cases hk), fun hr => (by cases hr),
                  fun hr => (by cases hr)⟩

/-- A read that ends was inside its operation, so its thread has the objects of the call. -/
theorem Called.ended {s : Reads T K V} (h : s.Called) {s' : Slots T K V} {f : Ending T}
    (he : Ended s.slots s' f) : s.called f.thread = s.objects f.thread := by
  apply h
  rw [he.reading]
  simp

theorem advance_of_ending (s : Reads T K V) {e : SlotEvent T K V} {f : Ending T}
    (hf : s.slots.ending e = some f) (s' : Slots T K V) :
    s.advance e s' =
      { slots := s'
        objects := Function.update s.objects f.thread
          (f.leftBy (s.slots.queues.dataAt f.slot) (s.objects f.thread))
        called := s.called
        returns := s.returns ++
          [⟨f.kind, f.result, s.slots.queues.dataAt f.slot, s'.queues.dataAt f.slot,
            s.called f.thread, f.leftBy (s.slots.queues.dataAt f.slot) (s.objects f.thread)⟩] } := by
  unfold advance
  rw [hf]

theorem advance_of_none (s : Reads T K V) {e : SlotEvent T K V} (hf : s.slots.ending e = none)
    (s' : Slots T K V) : s.advance e s' = { s with slots := s', called := s.calledAfter e } := by
  unfold advance
  rw [hf]

theorem kind_of_not_ending [LinearOrder K] {s s' : Slots T K V} {e : SlotEvent T K V} (hd : s.Does e s')
    (hf : s.ending e = none) {t : T} (ht : (s'.place t).kind ≠ none) :
    (s.place t).kind ≠ none ∨ ∃ k kind timed, e = .find t k kind timed := by
  have moved : ∀ {t' : T} {p : Place K V}, ((Function.update s.place t' p) t).kind ≠ none →
      t ≠ t' → (s.place t).kind ≠ none := by
    intro t' p h hne
    rwa [Function.update_of_ne hne] at h
  cases hd with
  | addQueue t' k hh => exact .inl ht
  | lock t' op is hh hs => exact .inl ht
  | visit w i rest hw hr =>
      left
      unfold Slots.visitSlot at ht
      split at ht <;> exact ht
  | unlock w hw hr => exact .inl ht
  | findQueue t' k v i hh hi =>
      left
      by_cases h : t = t'
      · subst h
        simp [Slots.goto, Place.kind] at ht
      · exact moved ht h
  | push t' k i v hp =>
      left
      by_cases h : t = t'
      · subst h
        simp [Slots.goto, Place.kind] at ht
      · exact moved ht h
  | find t' k i kind timed hh hi =>
      by_cases h : t = t'
      · subst h
        exact .inr ⟨k, kind, timed, rfl⟩
      · exact .inl (moved ht h)
  | startWait t' k i kind timed hp hd =>
      left
      by_cases h : t = t'
      · subst h
        rw [hp]
        simp [Place.kind]
      · exact moved ht h
  | startEnd t' k i kind timed hp hd => simp [Slots.ending, hp, hd] at hf
  | wake t' timedOut k i kind timed hp hpred =>
      simp only [Slots.ending, hp, if_pos hpred] at hf
      cases hf
  | timeOut t' k i kind hp hpred => simp [Slots.ending, hp, hpred] at hf
  | missing e hm => exact .inl ht

theorem Called.step [LinearOrder K] {s s' : Reads T K V} {e : ReadsEvent T K V} (h : s.Called)
    (hst : s.step e = some s') : s'.Called := by
  intro t ht
  cases e with
  | assign t' o =>
      simp only [Reads.step, Option.ite_none_right_eq_some] at hst
      obtain ⟨hidle, hst⟩ := hst
      cases hst
      by_cases hne : t = t'
      · subst hne
        cases hp : s.slots.place t <;> simp_all [Place.isIdle, Place.kind]
      · simp only [Function.update_of_ne hne]
        exact h t ht
  | slot e =>
      obtain ⟨s₁, hs₁, rfl⟩ := Option.map_eq_some_iff.mp hst
      have hd := Slots.does_of_step hs₁
      cases hf : s.slots.ending e with
      | some f =>
          have he := ended_of_ending hd hf
          rw [advance_of_ending s hf] at ht ⊢
          simp only [he.idle] at ht ⊢
          by_cases hne : t = f.thread
          · rw [hne, Function.update_self] at ht
            exact absurd rfl ht
          · rw [Function.update_of_ne hne] at ht ⊢
            exact h t ht
      | none =>
          rw [advance_of_none s hf] at ht ⊢
          simp only at ht ⊢
          rcases kind_of_not_ending hd hf ht with hin | ⟨k, kind, timed, rfl⟩
          · have hsame := h t hin
            cases e with
            | find t' k kind timed =>
                rw [calledAfter_find]
                by_cases hne : t = t'
                · rw [hne, Function.update_self]
                · rw [Function.update_of_ne hne, hsame]
            | _ => exact hsame
          · exact Function.update_self _ _ _

theorem returns_step [LinearOrder K] {s s' : Reads T K V} {e : ReadsEvent T K V} (h : s.Called)
    (hst : s.step e = some s') :
    (s'.returns = s.returns ∧ s.WakesEmpty e) ∨
      ∃ r, s'.returns = s.returns ++ [r] ∧ (r.Exact ↔ s.WakesEmpty e) := by
  cases e with
  | assign t o =>
      simp only [Reads.step, Option.ite_none_right_eq_some] at hst
      obtain ⟨_, hst⟩ := hst
      cases hst
      exact .inl ⟨rfl, trivial⟩
  | slot e =>
      obtain ⟨s₁, hs₁, rfl⟩ := Option.map_eq_some_iff.mp hst
      cases hf : s.slots.ending e with
      | none =>
          left
          rw [advance_of_none s hf]
          refine ⟨rfl, ?_⟩
          intro f hf'
          rw [hf] at hf'
          cases hf'
      | some f =>
          right
          have he := ended_of_ending (Slots.does_of_step hs₁) hf
          rw [advance_of_ending s hf, ← h.ended he]
          refine ⟨_, rfl, (exact_iff he _).trans ?_⟩
          rw [h.ended he]
          constructor
          · intro hx f' hf'
            rw [hf] at hf'
            cases hf'
            exact hx
          · intro hx
            exact hx f hf

theorem slots_step [LinearOrder K] {s s' : Reads T K V} {e : ReadsEvent T K V}
    (hst : s.step e = some s') :
    s'.slots = s.slots ∨ ∃ e₀, e = .slot e₀ ∧ s.slots.Does e₀ s'.slots := by
  cases e with
  | assign t o =>
      simp only [Reads.step, Option.ite_none_right_eq_some] at hst
      obtain ⟨_, hst⟩ := hst
      cases hst
      exact .inl rfl
  | slot e =>
      obtain ⟨s₁, hs₁, rfl⟩ := Option.map_eq_some_iff.mp hst
      refine .inr ⟨e, rfl, ?_⟩
      have hslots : (s.advance e s₁).slots = s₁ := by
        unfold advance
        split <;> rfl
      rw [hslots]
      exact Slots.does_of_step hs₁

theorem slots_inv [LinearOrder K] {objects : T → Objects V} {es : List (ReadsEvent T K V)}
    {s : Reads T K V} (h : (machine objects).run es = some s) : s.slots.Inv := by
  refine (machine objects).runFrom_inv (I := fun s => s.slots.Inv) ?_ Slots.Inv.initial h
  intro s e s' hs hst
  rcases slots_step hst with hsame | ⟨e₀, _, hd⟩
  · rw [hsame]
    exact hs
  · exact hs.step hd

/-- **Failed reads change nothing, exactly when no cancelled `read_queue` ends with values at
hand.**  In every run, whatever the threads do in whatever order: a step takes values from a queue
only when a read of that queue ends in it, and all returns of `wait_queue`, `read` and
`read_queue` are exact if and only if every step meets `WakesEmpty`. -/
theorem reads_exact_iff [LinearOrder K] {objects : T → Objects V} {es : List (ReadsEvent T K V)}
    {s : Reads T K V} (h : (machine objects).run es = some s) :
    ((∀ r ∈ s.returns, r.Exact) ↔
        (machine objects).Meets WakesEmpty (machine objects).init es) ∧
      ∀ e s', s.slots.step e = some s' → ∀ i, (∀ f, s.slots.ending e = some f → f.slot ≠ i) →
        s.slots.queues.dataAt i <+: s'.queues.dataAt i := by
  constructor
  · apply (machine objects).iff_meets (I := Called) (P := fun s => ∀ r ∈ s.returns, r.Exact)
      (fun t _ => rfl) (fun r hr => (by cases hr)) (fun _ _ _ hs hst => hs.step hst) _ h
    intro s e s' hs hst
    cases returns_step hs hst with
    | inl hold =>
        obtain ⟨hsame, hmeets⟩ := hold
        rw [hsame]
        exact ⟨fun hall => ⟨hall, hmeets⟩, fun hall => hall.1⟩
    | inr hone =>
        obtain ⟨r, hnew, hr⟩ := hone
        rw [hnew, ← hr]
        constructor
        · intro hall
          exact ⟨fun r' hr' => hall r' (List.mem_append_left _ hr'),
            hall r (List.mem_append_right _ List.mem_cons_self)⟩
        · intro hall r' hr'
          cases List.mem_append.mp hr' with
          | inl hold => exact hall.1 r' hold
          | inr hlast =>
              rw [List.mem_singleton.mp hlast]
              exact hall.2
  · intro e s' hst i hi
    exact dataAt_prefix (slots_inv h).wf (Slots.does_of_step hst) hi

/-- A `read` that is cancelled while a value is there leaves the value and the object alone. -/
theorem reads_exact_canceled_read :
    let es : List (ReadsEvent ℕ ℕ ℕ) := [.slot (.addQueue 0 5), .assign 1 (7, [8]),
      .slot (.find 1 5 .read true), .slot (.start 1), .slot (.lock 0 (.writeQueue 5 9)),
      .slot .visit, .slot .unlock, .slot (.lock 0 .cancelAll), .slot .visit, .slot .unlock,
      .slot (.wake 1 false)]
    ∃ s, (machine (fun _ => (0, []))).run es = some s ∧
      s.returns.map (·.result) = [.canceled] ∧ ∀ r ∈ s.returns, r.Exact := by
  intro es
  obtain ⟨s, hs, hr⟩ : ∃ s, (machine (fun _ : ℕ => ((0, []) : Objects ℕ))).run es = some s ∧
      s.returns.map (·.result) = [.canceled] :=
    ⟨_, rfl, by decide⟩
  exact ⟨s, hs, hr, (reads_exact_iff hs).1.mpr (by decide)⟩

/-- A `read_queue` that is cancelled while a value is there takes the value out of the queue,
writes over the object of its caller, and returns `WAIT_RESULT_CANCELED`. -/
theorem canceled_read_queue_takes :
    ∃ s, (machine (fun _ : ℕ => ((0, []) : Objects ℕ))).run
        [.slot (.addQueue 0 5), .assign 1 (7, [8]), .slot (.find 1 5 .readQueue false),
          .slot (.start 1), .slot (.lock 0 (.writeQueue 5 9)), .slot .visit, .slot .unlock,
          .slot (.lock 0 .cancelAll), .slot .visit, .slot .unlock, .slot (.wake 1 false)] = some s ∧
      s.slots.queues.dataAt 0 = [] ∧
      ∃ r ∈ s.returns, r.result = .canceled ∧ r.before = [9] ∧ r.after = [] ∧
        r.called = (7, [8]) ∧ r.left = (7, [9]) ∧ ¬ r.Exact := by
  refine ⟨_, rfl, by decide, _, List.mem_cons_self, rfl, rfl, rfl, rfl, rfl, ?_⟩
  intro h
  have := (h.failed (by decide)).1
  cases this

end Reads

end Vtrc
