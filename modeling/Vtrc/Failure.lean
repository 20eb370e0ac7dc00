import Vtrc.Messages
import Vtrc.Slots

/-! # Calls and a transport that fails

What the calls of one end do while its transport fails (`protocol-layer.cpp`, `rpc-channel.cpp`,
`client/stream-impl.h`, `server/connection/impl.h`):

* a call tests `ready_` and adds its slot (`call_rpc_method`), sends its unit, and reads the slot
  (`read_slot_for`) until it gets an answer or an error, running in between the callbacks that it
  finds there; at the end it erases the slot.  A call is named by the id of its slot;
* the thread that reads the connection looks the slot of a unit up and pushes the unit, or pushes a
  unit to all slots;
* the failure is handled in four steps: `set_ready( false )`, `write_all` of a unit with the error
  (`on_system_error`), and `cancel_all` (`close`), the last two slot by slot.

The slots are `Slots`, so that these steps, and those of other calls, come in any order.

`none_stuck_of_timely` says when no call waits on the dead connection: a call whose `ready_` test
succeeded and that has added its slot only after `write_all` must be waiting in its read when
`cancel_all` comes to the slot, and no call adds its slot after that. -/

namespace Vtrc

namespace Failure

/-- The threads: one for each call, the one that reads the connection, and the one that handles the
failure. -/
inductive Thread where
  | caller (id : ℕ)
  | reader
  | transport
deriving DecidableEq, Repr

/-- Where a call is.  `waiting` is the head of the loop of `call_and_wait`, up to the return of
`read_slot_for`; `leaving` is the destructor of `slot_erase`. -/
inductive Stage where
  | idle
  | admitted
  | sending
  | waiting
  | serving
  | leaving
  | over
deriving DecidableEq, Repr

/-- The call is between `add_queue` and the end of its loop: it waits or is about to. -/
def Stage.hasSlot : Stage → Bool
  | .sending | .waiting | .serving => true
  | .idle | .admitted | .leaving | .over => false

/-- How far the handling of the failure is. -/
inductive Progress where
  | working
  | cleared
  | writing
  | written
  | canceling
  | complete
deriving DecidableEq, Repr

/-- `write_all` of the error has begun. -/
def Progress.pastWrite : Progress → Bool
  | .working | .cleared => false
  | .writing | .written | .canceling | .complete => true

/-- The end of the connection.  `late` marks the calls that have added their slot after `write_all`
began. -/
structure State where
  ready : Bool
  slots : Slots Thread ℕ LowlevelUnit
  stage : ℕ → Stage
  late : ℕ → Bool
  progress : Progress

inductive Event where
  /-- `if( !ready_ )`. -/
  | test (k : ℕ)
  /-- `send_message`, which may raise. -/
  | send (k : ℕ) (ok : Bool)
  /-- The callback that the call has found in its slot is over; it may raise. -/
  | served (k : ℕ) (ok : Bool)
  /-- `set_ready( false )` of `on_system_error`. -/
  | setReady
  /-- A step of a thread on the slots. -/
  | slot (e : SlotEvent Thread ℕ LowlevelUnit)

namespace State

/-- A connection that works. -/
def initial : State where
  ready := true
  slots := .initial
  stage := fun _ => .idle
  late := fun _ => false
  progress := .working

/-- The unit of `on_system_error`. -/
def systemError (code : UInt32) (add : String) : LowlevelUnit :=
  { error := { code := code, category := categorySystem, fatal := true, additional := add } }

/-- The steps on the slots that the threads make. -/
def allowed (s : State) : SlotEvent Thread ℕ LowlevelUnit → Bool
  | .addQueue (.caller k) id => id = k ∧ s.stage k = .admitted
  | .find (.caller k) id kind timed =>
      id = k ∧ kind = .read ∧ timed = true ∧ s.stage k = .waiting
  | .start (.caller _) => true
  | .wake (.caller _) _ => true
  | .lock (.caller k) (.eraseQueue id) => id = k ∧ s.stage k = .leaving
  | .findQueue .reader _ _ => s.progress ≠ .complete
  | .push .reader => true
  | .lock .reader (.writeAll _) => s.progress ≠ .complete
  | .lock .transport (.writeAll llu) =>
      s.progress = .cleared ∧ llu.error.code ≠ 0 ∧
        llu = systemError llu.error.code llu.error.additional
  | .lock .transport .cancelAll => s.progress = .written
  | .visit => true
  | .unlock => true
  | _ => false

/-- The unit with which `read_slot_for` comes back. -/
def readSlotFor (r : ReadReturn ℕ LowlevelUnit) : LowlevelUnit :=
  match r.result with
  | .success => r.taken.headD {}
  | .canceled => { error := { code := ErrorNumber.canceled.code } }
  | .timeout => { error := { code := ErrorNumber.timeout.code } }

/-- The body of the loop of `call_and_wait`, for a call of the type `messType`. -/
def consume (messType : MessageType) (top : LowlevelUnit) : Stage :=
  if top.error.code ≠ 0 then .leaving
  else if top.messageType ≠ messType then .serving
  else .leaving

/-- The stage of the call number `k` after a step of its read. -/
def afterRead (messType : ℕ → MessageType) (s : State) (k : ℕ)
    (slots : Slots Thread ℕ LowlevelUnit) : Stage :=
  if (slots.place (.caller k)).isIdle then
    match slots.reads.getLast? with
    | some r => consume (messType k) (readSlotFor r)
    | none => s.stage k
  else s.stage k

/-- How far the failure is when the thread that has `lock_` gives it back. -/
def unlocked : Progress → Progress
  | .writing => .written
  | .canceling => .complete
  | p => p

/-- What a step on the slots means for the call, or for the failure. -/
def after (messType : ℕ → MessageType) (s : State) (slots : Slots Thread ℕ LowlevelUnit) :
    SlotEvent Thread ℕ LowlevelUnit → State
  | .addQueue (.caller k) _ =>
      { s with
        slots := slots
        stage := Function.update s.stage k .sending
        late := Function.update s.late k s.progress.pastWrite }
  | .find (.caller k) _ _ _ =>
      -- the lookup raises when there is no slot
      { s with
        slots := slots
        stage := if (slots.place (.caller k)).isIdle then Function.update s.stage k .leaving
          else s.stage }
  | .start (.caller k) | .wake (.caller k) _ =>
      { s with slots := slots, stage := Function.update s.stage k (afterRead messType s k slots) }
  | .lock (.caller k) _ => { s with slots := slots, stage := Function.update s.stage k .over }
  | .lock .transport (.writeAll _) => { s with slots := slots, progress := .writing }
  | .lock .transport .cancelAll => { s with slots := slots, progress := .canceling }
  | .unlock => { s with slots := slots, progress := unlocked s.progress }
  | _ => { s with slots := slots }

/-- One step. -/
def step (messType : ℕ → MessageType) (s : State) : Event → Option State
  | .test k =>
      if s.stage k = .idle then
        some { s with
          stage := Function.update s.stage k (if s.ready then .admitted else .leaving) }
      else none
  | .send k ok =>
      if s.stage k = .sending then
        some { s with stage := Function.update s.stage k (if ok then .waiting else .leaving) }
      else none
  | .served k ok =>
      if s.stage k = .serving then
        some { s with stage := Function.update s.stage k (if ok then .waiting else .leaving) }
      else none
  | .setReady =>
      if s.progress = .working then some { s with ready := false, progress := .cleared } else none
  | .slot e =>
      if s.allowed e then (s.slots.step e).map (fun slots => s.after messType slots e) else none

end State

/-- The calls, of the types `messType`, and the failure. -/
def failureMachine (messType : ℕ → MessageType) : Machine State Event where
  init := .initial
  step := State.step messType

namespace State

/-! ### Who relies on what -/

/-- The call has the open slot `i` and waits on it, or is about to. -/
def Owns (s : State) (k i : ℕ) : Prop :=
  (s.stage k).hasSlot = true ∧ s.slots.queues.storedAt i = true ∧ s.slots.queues.KeyAt i k

/-- The slot holds a unit with an error, which ends the loop of the call. -/
def HasError (q : CondQueues ℕ LowlevelUnit) (i : ℕ) : Prop := ∃ v ∈ q.dataAt i, v.error.code ≠ 0

/-- The call waits in its read. -/
def Waits (s : State) (k i : ℕ) : Prop :=
  ∃ kind timed, s.slots.place (.caller k) = .waiting k i kind timed

/-- The call waits in its read and the slot is cancelled: the read returns. -/
def Parked (s : State) (k i : ℕ) : Prop := s.Waits k i ∧ s.slots.queues.canceledAt i = true

/-- What holds while the steps are timely. -/
structure Inv (s : State) : Prop where
  wf : s.slots.Wf
  single : s.slots.Single
  callers : ∀ k k' i, (s.slots.place (.caller k)).target = some (k', i) →
    k' = k ∧ s.stage k = .waiting
  writing : s.progress = .writing → ∃ w u, s.slots.holder = some w ∧ w.op = .writeAll u ∧
    u.error.code ≠ 0 ∧ ∀ k i, s.Owns k i → i ∈ w.rest ∨ HasError s.slots.queues i
  warned : s.progress = .written ∨ s.progress = .canceling ∨ s.progress = .complete →
    ∀ k i, s.Owns k i → s.late k = false → HasError s.slots.queues i
  canceling : s.progress = .canceling → ∃ w, s.slots.holder = some w ∧ w.op = .cancelAll ∧
    ∀ k i, s.Owns k i → s.late k = true → i ∈ w.rest ∨ s.Parked k i
  parked : s.progress = .complete → ∀ k i, s.Owns k i → s.late k = true → s.Parked k i

/-- What a call relies on is still there. -/
def Kept (s s' : State) (k i : ℕ) : Prop :=
  s.Owns k i ∧ (HasError s.slots.queues i → HasError s'.slots.queues i) ∧
    (s.Parked k i → s'.Parked k i)

theorem Owns.of_stage {s s' : State} {k i : ℕ} (h : s'.Owns k i) (hq : s'.slots = s.slots)
    (hst : (s'.stage k).hasSlot = true → (s.stage k).hasSlot = true) : s.Owns k i := by
  obtain ⟨h₁, h₂, h₃⟩ := h
  rw [hq] at h₂ h₃
  exact ⟨hst h₁, h₂, h₃⟩

/-- A step of a thread that does not have `lock_`, after which what each call relies on is still
there. -/
theorem Inv.of_kept {s s' : State} (h : s.Inv) (hw : s'.slots.Wf) (hs : s'.slots.Single)
    (hc : ∀ k k' i, (s'.slots.place (.caller k)).target = some (k', i) →
      k' = k ∧ s'.stage k = .waiting)
    (hp : s'.progress = s.progress) (hl : s'.late = s.late)
    (hh : s'.slots.holder = s.slots.holder) (ho : ∀ k i, s'.Owns k i → s.Kept s' k i) :
    s'.Inv := by
  refine ⟨hw, hs, hc, ?_, ?_, ?_, ?_⟩
  · intro hpr
    obtain ⟨w, u, hw, hop, hu, hall⟩ := h.writing (hp ▸ hpr)
    refine ⟨w, u, hh.trans hw, hop, hu, fun k i hk => ?_⟩
    obtain ⟨hk, he, _⟩ := ho k i hk
    exact (hall k i hk).imp_right he
  · rw [hp, hl]
    intro hpr k i hk hlate
    obtain ⟨hk, he, _⟩ := ho k i hk
    exact he (h.warned hpr k i hk hlate)
  · rw [hp, hl, hh]
    intro hpr
    obtain ⟨w, hw, hop, hall⟩ := h.canceling hpr
    refine ⟨w, hw, hop, fun k i hk hlate => ?_⟩
    obtain ⟨hk, _, hpk⟩ := ho k i hk
    exact (hall k i hk hlate).imp_right hpk
  · rw [hp, hl]
    intro hpr k i hk hlate
    obtain ⟨hk, _, hpk⟩ := ho k i hk
    exact hpk (h.parked hpr k i hk hlate)

/-- A step that only moves the call `k` on, to a stage with a slot only if it had one. -/
theorem Inv.setStage {s : State} (h : s.Inv) (k : ℕ) (st : Stage)
    (hn : (s.slots.place (.caller k)).target = none)
    (hst : st.hasSlot = true → (s.stage k).hasSlot = true) :
    { s with stage := Function.update s.stage k st }.Inv := by
  refine h.of_kept h.wf h.single ?_ rfl rfl rfl ?_
  · intro k' k'' i ht
    by_cases hk : k' = k
    · subst hk
      rw [hn] at ht
      cases ht
    · simpa only [Function.update_of_ne hk] using h.callers k' k'' i ht
  · intro k' i hk
    refine ⟨hk.of_stage rfl (fun hs => ?_), id, id⟩
    by_cases hkk : k' = k
    · subst hkk
      simp only [Function.update_self] at hs
      exact hst hs
    · simpa only [Function.update_of_ne hkk] using hs

theorem Inv.target_eq_none {s : State} (h : s.Inv) {k : ℕ} (hn : s.stage k ≠ .waiting) :
    (s.slots.place (.caller k)).target = none := by
  cases ht : (s.slots.place (.caller k)).target with
  | none => rfl
  | some p => exact absurd (h.callers k p.1 p.2 ht).2 hn

theorem HasError.push {q : CondQueues ℕ LowlevelUnit} {i j : ℕ} {vs : List LowlevelUnit}
    (hi : i < q.values.length) (h : HasError q j) : HasError (q.pushValues i vs) j := by
  obtain ⟨v, hv, he⟩ := h
  refine ⟨v, ?_, he⟩
  rw [CondQueues.dataAt_pushValues hi]
  split_ifs
  · exact List.mem_append_left _ hv
  · exact hv

theorem HasError.of_dataAt {q q' : CondQueues ℕ LowlevelUnit} {i : ℕ} (h : HasError q i)
    (hd : q'.dataAt i = q.dataAt i) : HasError q' i := by
  unfold HasError
  rw [hd]
  exact h

/-! ### Reads -/

theorem code_of_hasSlot {messType : MessageType} {top : LowlevelUnit}
    (h : (consume messType top).hasSlot = true) : top.error.code = 0 := by
  unfold consume at h
  split_ifs at h with hc
  · cases h
  · exact not_not.mp hc
  · cases h

/-- A read after which the call goes on found its slot not cancelled, and took a unit without an
error. -/
theorem data_of_hasSlot {messType : MessageType} {k i : ℕ} {canceled res b : Bool}
    {data : List LowlevelUnit}
    (h : (consume messType (readSlotFor ⟨k, i, .read, cancelRes2waitRes canceled res,
      ReadKind.taken data canceled res .read, data, b⟩)).hasSlot = true) :
    canceled = false ∧ res = true ∧ (data.headD {}).error.code = 0 := by
  have hc := code_of_hasSlot h
  cases canceled with
  | true => exact absurd hc (by simp [cancelRes2waitRes, readSlotFor, ErrorNumber.code])
  | false =>
      cases res with
      | false => exact absurd hc (by simp [cancelRes2waitRes, readSlotFor, ErrorNumber.code])
      | true =>
          refine ⟨rfl, rfl, ?_⟩
          cases data with
          | nil => rfl
          | cons v vs => exact hc

theorem afterRead_endRead (messType : ℕ → MessageType) (s : State) (k : ℕ)
    (sl : Slots Thread ℕ LowlevelUnit) (k' i : ℕ) (kind : ReadKind) (res : Bool) :
    afterRead messType s k (sl.endRead (.caller k) k' i kind res) =
      consume (messType k) (readSlotFor ⟨k', i, kind,
        cancelRes2waitRes (sl.queues.canceledAt i) res,
        kind.taken (sl.queues.dataAt i) (sl.queues.canceledAt i) res, sl.queues.dataAt i,
        sl.unreported i⟩) := by
  simp [afterRead, Slots.endRead, Place.isIdle]

theorem HasError.takeFront {q : CondQueues ℕ LowlevelUnit} {i n : ℕ} {res : Bool}
    (h : HasError q n) (hc : n = i → ((q.dataAt i).headD {}).error.code = 0) :
    HasError (q.takeFront i (ReadKind.taken (q.dataAt i) false res .read).length) n := by
  obtain ⟨v, hv, he⟩ := h
  refine ⟨v, ?_, he⟩
  rw [CondQueues.dataAt_takeFront]
  split_ifs with hn
  · subst hn
    have hc := hc rfl
    cases hd : q.dataAt n with
    | nil =>
        rw [hd] at hv
        cases hv
    | cons v₀ vs =>
        rw [hd] at hv hc
        rcases List.mem_cons.mp hv with rfl | hv
        · exact absurd hc he
        · simpa [ReadKind.taken] using hv
  · exact hv

/-- What the queues `q` at the beginning of the last critical section of a read have in common with
those before: they may differ in the flag of the slot `i`. -/
structure SameBut (i : ℕ) (q q₀ : CondQueues ℕ LowlevelUnit) : Prop where
  data : ∀ j, q.dataAt j = q₀.dataAt j
  stored : ∀ j, q.storedAt j = q₀.storedAt j
  key : ∀ j k, q.KeyAt j k → q₀.KeyAt j k
  canceled : ∀ j, j ≠ i → q.canceledAt j = q₀.canceledAt j

theorem SameBut.refl (i : ℕ) (q : CondQueues ℕ LowlevelUnit) : SameBut i q q :=
  ⟨fun _ => rfl, fun _ => rfl, fun _ _ h => h, fun _ _ => rfl⟩

theorem SameBut.readBegin (i : ℕ) (q : CondQueues ℕ LowlevelUnit) :
    SameBut i (q.readBegin i) q where
  data := fun _ => CondQueues.dataAt_readBegin
  stored := fun _ => CondQueues.storedAt_readBegin
  key := fun _ _ h => CondQueues.keyAt_readBegin.mp h
  canceled := by
    intro j hj
    rw [CondQueues.canceledAt_readBegin, if_neg hj]

theorem kept_of_ne {s s' : State} {k i : ℕ} {q : CondQueues ℕ LowlevelUnit}
    (hq : SameBut i q s.slots.queues) (hi : s.slots.queues.KeyAt i k) {k' j : ℕ}
    (hd : j ≠ i → s'.slots.queues.dataAt j = q.dataAt j)
    (hc : s'.slots.queues.canceledAt j = q.canceledAt j)
    (hp : s'.slots.place (.caller k') = s.slots.place (.caller k'))
    (ho : s.Owns k' j) (hne : k' ≠ k) : s.Kept s' k' j := by
  have hj : j ≠ i := by
    rintro rfl
    exact hne (ho.2.2.eq hi)
  refine ⟨ho, fun he => he.of_dataAt ((hd hj).trans (hq.data j)), ?_⟩
  rintro ⟨⟨kind, timed, hw⟩, hcc⟩
  exact ⟨⟨kind, timed, hp.trans hw⟩, (hc.trans (hq.canceled j hj)).trans hcc⟩

/-- The end of a read of the call `k`, which waits on the slot `i` or has just found it. -/
theorem Inv.endRead {s : State} (h : s.Inv) (messType : ℕ → MessageType) {k i : ℕ}
    {q : CondQueues ℕ LowlevelUnit} (hq : SameBut i q s.slots.queues)
    (hqw : { s.slots with queues := q }.Wf)
    (ht : (s.slots.place (.caller k)).target = some (k, i)) (kind : ReadKind)
    (hkind : (s.slots.place (.caller k)).kind = some kind) (res : Bool)
    (hwait : ∀ j, s.Waits k j → j = i ∧ q.canceledAt i = s.slots.queues.canceledAt i) :
    { s with
      slots := { s.slots with queues := q }.endRead (.caller k) k i kind res
      stage := Function.update s.stage k (afterRead messType s k
        ({ s.slots with queues := q }.endRead (.caller k) k i kind res)) }.Inv := by
  obtain rfl := h.single.place _ kind hkind
  have hi := h.wf.placed _ k i ht
  have hi' : q.KeyAt i k := hqw.placed (.caller k) k i ht
  have hst := (h.callers k k i ht).2
  refine h.of_kept (hqw.endRead (.caller k) .read res hi') ?_ ?_ rfl rfl rfl ?_
  · have hs : { s.slots with queues := q }.Single := ⟨h.single.place, h.single.reads⟩
    exact hs.endRead (.caller k) k i rfl res
  · intro k₁ k₂ j hp
    by_cases hk : k₁ = k
    · subst hk
      simp only [Slots.endRead, Function.update_self] at hp
      cases hp
    · simp only [Slots.endRead, ne_eq, Thread.caller.injEq, hk, not_false_eq_true,
        Function.update_of_ne] at hp ⊢
      exact h.callers k₁ k₂ j hp
  · intro k' j ho
    have ho₀ : s.Owns k' j := by
      refine ⟨?_, ?_, ?_⟩
      · by_cases hk : k' = k
        · subst hk
          rw [hst]
          rfl
        · simpa only [Function.update_of_ne hk] using ho.1
      · rw [← hq.stored j]
        exact CondQueues.storedAt_takeFront.symm.trans ho.2.1
      · exact hq.key j k' (CondQueues.keyAt_takeFront.mp ho.2.2)
    by_cases hk : k' = k
    · subst hk
      have hslot := ho.1
      simp only [Function.update_self, afterRead_endRead] at hslot
      obtain ⟨hcanc, -, hhead⟩ := data_of_hasSlot hslot
      refine ⟨ho₀, ?_, ?_⟩
      · intro he
        have he' : HasError q j := he.of_dataAt (hq.data j)
        simp only [Slots.endRead, hcanc]
        exact he'.takeFront (fun _ => hhead)
      · rintro ⟨hw, hcc⟩
        obtain ⟨rfl, hce⟩ := hwait j hw
        rw [hce, hcc] at hcanc
        cases hcanc
    · refine kept_of_ne hq hi ?_ CondQueues.canceledAt_takeFront ?_ ho₀ hk
      · intro hj
        refine CondQueues.dataAt_takeFront.trans ?_
        rw [if_neg hj]
      · simp only [Slots.endRead, ne_eq, Thread.caller.injEq, hk, not_false_eq_true,
          Function.update_of_ne]

/-- The call `k` goes to `p`, which is not its place while it is parked. -/
theorem Inv.goto {s : State} (h : s.Inv) {k i : ℕ} {q : CondQueues ℕ LowlevelUnit}
    {p : Place ℕ LowlevelUnit} (hq : SameBut i q s.slots.queues)
    (hqw : ({ s.slots with queues := q }.goto (.caller k) p).Wf)
    (hqs : ({ s.slots with queues := q }.goto (.caller k) p).Single)
    (hi : s.slots.queues.KeyAt i k) (hst : s.stage k = .waiting) (hn : ∀ j, ¬ s.Waits k j)
    (hp : ∀ k' j, p.target = some (k', j) → k' = k) :
    { s with slots := { s.slots with queues := q }.goto (.caller k) p }.Inv := by
  refine h.of_kept hqw hqs ?_ rfl rfl rfl ?_
  · intro k₁ k₂ j ht
    by_cases hk : k₁ = k
    · subst hk
      simp only [Slots.goto, Function.update_self] at ht
      exact ⟨hp k₂ j ht, hst⟩
    · simp only [Slots.goto, ne_eq, Thread.caller.injEq, hk, not_false_eq_true,
        Function.update_of_ne] at ht
      exact h.callers k₁ k₂ j ht
  · intro k' j ho
    have ho₀ : s.Owns k' j := ⟨ho.1, (hq.stored j) ▸ ho.2.1, hq.key j k' ho.2.2⟩
    by_cases hk : k' = k
    · subst hk
      exact ⟨ho₀, fun he => he.of_dataAt (hq.data j), fun hpk => absurd hpk.1 (hn j)⟩
    · refine kept_of_ne hq hi (fun _ => rfl) rfl ?_ ho₀ hk
      simp only [Slots.goto, ne_eq, Thread.caller.injEq, hk, not_false_eq_true,
        Function.update_of_ne]

/-! ### The thread that has `lock_` -/

theorem visitSlot_place (sl : Slots Thread ℕ LowlevelUnit) (w : Holder ℕ LowlevelUnit) (i : ℕ) :
    (sl.visitSlot w i).place = sl.place := by
  unfold Slots.visitSlot
  split <;> rfl

theorem visitSlot_hasError {sl : Slots Thread ℕ LowlevelUnit} {w : Holder ℕ LowlevelUnit}
    {i j : ℕ} (hi : i < sl.queues.values.length) (h : HasError sl.queues j) :
    HasError (sl.visitSlot w i).queues j := by
  unfold Slots.visitSlot
  split
  · exact h.push hi
  · exact h.of_dataAt CondQueues.dataAt_cancelValue

theorem visitSlot_canceledAt {sl : Slots Thread ℕ LowlevelUnit} {w : Holder ℕ LowlevelUnit}
    {i j : ℕ} (hi : i < sl.queues.values.length) (h : sl.queues.canceledAt j = true) :
    (sl.visitSlot w i).queues.canceledAt j = true := by
  unfold Slots.visitSlot
  split
  · exact CondQueues.canceledAt_pushValues.trans h
  · refine (CondQueues.canceledAt_cancelValue hi).trans ?_
    split_ifs
    · rfl
    · exact h

theorem visitSlot_keyAt {sl : Slots Thread ℕ LowlevelUnit} {w : Holder ℕ LowlevelUnit}
    {i j k : ℕ} : (sl.visitSlot w i).queues.KeyAt j k ↔ sl.queues.KeyAt j k := by
  unfold Slots.visitSlot
  split
  · exact CondQueues.keyAt_pushValues
  · exact CondQueues.keyAt_cancelValue

theorem kept_visit {s s' : State} {w : Holder ℕ LowlevelUnit} {i : ℕ}
    (hi : i < s.slots.queues.values.length) (hq : s'.slots.queues = (s.slots.visitSlot w i).queues)
    (hp : s'.slots.place = s.slots.place) (hst : s'.stage = s.stage) {k j : ℕ}
    (ho : s'.Owns k j) : s.Kept s' k j := by
  obtain ⟨h₁, h₂, h₃⟩ := ho
  rw [hst] at h₁
  rw [hq, Slots.visitSlot_storedAt] at h₂
  rw [hq, visitSlot_keyAt] at h₃
  refine ⟨⟨h₁, h₂, h₃⟩, ?_, ?_⟩
  · rw [hq]
    exact visitSlot_hasError hi
  · rintro ⟨⟨kind, timed, hw⟩, hc⟩
    refine ⟨⟨kind, timed, hp ▸ hw⟩, ?_⟩
    rw [hq]
    exact visitSlot_canceledAt hi hc

theorem visitSlot_writeAll {sl : Slots Thread ℕ LowlevelUnit} {w : Holder ℕ LowlevelUnit}
    {u : LowlevelUnit} {i : ℕ} (hi : i < sl.queues.values.length) (hop : w.op = .writeAll u) :
    u ∈ (sl.visitSlot w i).queues.dataAt i := by
  have hv : sl.visitSlot w i = sl.pushValues (some w.serial) w.op.key i [u] := by
    unfold Slots.visitSlot
    rw [hop]
    rfl
  have hd : (sl.visitSlot w i).queues.dataAt i = sl.queues.dataAt i ++ [u] := by
    rw [hv]
    refine (CondQueues.dataAt_pushValues hi).trans ?_
    rw [if_pos rfl]
  rw [hd]
  exact List.mem_append_right _ List.mem_cons_self

theorem visitSlot_cancelAll {sl : Slots Thread ℕ LowlevelUnit} {w : Holder ℕ LowlevelUnit}
    {i : ℕ} (hi : i < sl.queues.values.length) (hop : w.op = .cancelAll) :
    (sl.visitSlot w i).queues.canceledAt i = true := by
  have hv : sl.visitSlot w i = sl.cancelValue i := by
    unfold Slots.visitSlot
    rw [hop]
    rfl
  rw [hv]
  refine (CondQueues.canceledAt_cancelValue hi).trans ?_
  rw [if_pos rfl]

theorem Inv.writing_holder {s : State} (h : s.Inv) {w : Holder ℕ LowlevelUnit}
    (hw : s.slots.holder = some w) (hp : s.progress = .writing) :
    ∃ u, w.op = .writeAll u ∧ u.error.code ≠ 0 ∧
      ∀ k i, s.Owns k i → i ∈ w.rest ∨ HasError s.slots.queues i := by
  obtain ⟨w₀, u, hw₀, hop, hu, hall⟩ := h.writing hp
  obtain rfl : w = w₀ := Option.some.inj (hw.symm.trans hw₀)
  exact ⟨u, hop, hu, hall⟩

theorem Inv.canceling_holder {s : State} (h : s.Inv) {w : Holder ℕ LowlevelUnit}
    (hw : s.slots.holder = some w) (hp : s.progress = .canceling) :
    w.op = .cancelAll ∧ ∀ k i, s.Owns k i → s.late k = true → i ∈ w.rest ∨ s.Parked k i := by
  obtain ⟨w₀, hw₀, hop, hall⟩ := h.canceling hp
  obtain rfl : w = w₀ := Option.some.inj (hw.symm.trans hw₀)
  exact ⟨hop, hall⟩

/-- A late call waits in its read when `cancel_all` comes to its slot. -/
def VisitTimely (s : State) : Prop :=
  s.progress = .canceling → ∀ w i rest, s.slots.holder = some w → w.rest = i :: rest →
    ∀ k, s.Owns k i → s.late k = true → s.Waits k i

theorem Inv.visit {s : State} (h : s.Inv) (ht : s.VisitTimely) {w : Holder ℕ LowlevelUnit}
    {i : ℕ} {rest : List ℕ} (hw : s.slots.holder = some w) (hr : w.rest = i :: rest)
    {sl : Slots Thread ℕ LowlevelUnit} {w' : Holder ℕ LowlevelUnit}
    (hq : sl.queues = (s.slots.visitSlot w i).queues) (hpl : sl.place = s.slots.place)
    (hw' : sl.holder = some w') (hop' : w'.op = w.op) (hr' : w'.rest = rest)
    (hwf : sl.Wf) (hsg : sl.Single) : { s with slots := sl }.Inv := by
  obtain ⟨k₀, hk₀, _⟩ := h.wf.walked w hw i (hr ▸ List.mem_cons_self)
  have hi := hk₀.lt
  have hkept : ∀ k j, { s with slots := sl }.Owns k j → s.Kept { s with slots := sl } k j :=
    fun k j ho => @kept_visit s { s with slots := sl } w i hi hq hpl rfl k j ho
  refine ⟨hwf, hsg, ?_, ?_, ?_, ?_, ?_⟩
  · intro k k' j hp
    exact h.callers k k' j (hpl ▸ hp)
  · intro hpr
    obtain ⟨u, hop, hu, hall⟩ := h.writing_holder hw hpr
    refine ⟨w', u, hw', hop'.trans hop, hu, fun k j ho => ?_⟩
    obtain ⟨ho, he, _⟩ := hkept k j ho
    rcases hall k j ho with hj | hj
    · rw [hr] at hj
      rcases List.mem_cons.mp hj with rfl | hj
      · refine .inr ⟨u, ?_, hu⟩
        show u ∈ sl.queues.dataAt j
        rw [hq]
        exact visitSlot_writeAll hi hop
      · exact .inl (hr' ▸ hj)
    · exact .inr (he hj)
  · intro hpr k j ho hl
    obtain ⟨ho, he, _⟩ := hkept k j ho
    exact he (h.warned hpr k j ho hl)
  · intro hpr
    obtain ⟨hop, hall⟩ := h.canceling_holder hw hpr
    refine ⟨w', hw', hop'.trans hop, fun k j ho hl => ?_⟩
    obtain ⟨ho, _, hpk⟩ := hkept k j ho
    rcases hall k j ho hl with hj | hj
    · rw [hr] at hj
      rcases List.mem_cons.mp hj with rfl | hj
      · obtain ⟨kind, timed, hwt⟩ := ht hpr w j rest hw hr k ho hl
        refine .inr ⟨⟨kind, timed, ?_⟩, ?_⟩
        · exact (congrFun hpl (.caller k)).trans hwt
        · show sl.queues.canceledAt j = true
          rw [hq]
          exact visitSlot_cancelAll hi hop
      · exact .inl (hr' ▸ hj)
    · exact .inr (hpk hj)
  · intro hpr k j ho hl
    obtain ⟨ho, _, hpk⟩ := hkept k j ho
    exact hpk (h.parked hpr k j ho hl)

theorem Inv.not_walking {s : State} (h : s.Inv) (hf : s.slots.holder = none) :
    s.progress ≠ .writing ∧ s.progress ≠ .canceling := by
  refine ⟨fun hp => ?_, fun hp => ?_⟩
  · obtain ⟨w, u, hw, _⟩ := h.writing hp
    rw [hf] at hw
    cases hw
  · obtain ⟨w, hw, _⟩ := h.canceling hp
    rw [hf] at hw
    cases hw

theorem release_dataAt (sl : Slots Thread ℕ LowlevelUnit) (w : Holder ℕ LowlevelUnit) (i : ℕ) :
    (sl.release w).queues.dataAt i = sl.queues.dataAt i := by
  unfold Slots.release
  split_ifs
  · exact CondQueues.dataAt_removeSlots
  · rfl

theorem release_canceledAt (sl : Slots Thread ℕ LowlevelUnit) (w : Holder ℕ LowlevelUnit)
    (i : ℕ) : (sl.release w).queues.canceledAt i = sl.queues.canceledAt i := by
  unfold Slots.release
  split_ifs
  · exact CondQueues.canceledAt_removeSlots
  · rfl

theorem Owns.of_release {s s' : State} {w : Holder ℕ LowlevelUnit} {k i : ℕ} (h : s'.Owns k i)
    (hq : s'.slots.queues = (s.slots.release w).queues) (hst : s'.stage = s.stage) :
    s.Owns k i := by
  obtain ⟨h₁, h₂, h₃⟩ := h
  rw [hq] at h₂ h₃
  unfold Slots.release at h₂ h₃
  refine ⟨hst ▸ h₁, ?_⟩
  split_ifs at h₂ h₃
  · exact ⟨CondQueues.storedAt_of_removeSlots h₂, CondQueues.keyAt_removeSlots.mp h₃⟩
  · exact ⟨h₂, h₃⟩

theorem Inv.unlock {s : State} (h : s.Inv) {w : Holder ℕ LowlevelUnit}
    (hw : s.slots.holder = some w) (hr : w.rest = []) {sl : Slots Thread ℕ LowlevelUnit}
    (hq : sl.queues = (s.slots.release w).queues) (hpl : sl.place = s.slots.place)
    (hwf : sl.Wf) (hsg : sl.Single) :
    { s with slots := sl, progress := unlocked s.progress }.Inv := by
  have hkept : ∀ k j, { s with slots := sl, progress := unlocked s.progress }.Owns k j →
      s.Kept { s with slots := sl, progress := unlocked s.progress } k j := by
    intro k j ho
    refine ⟨ho.of_release hq rfl, ?_, ?_⟩
    · intro he
      exact he.of_dataAt ((congrArg (·.dataAt j) hq).trans (release_dataAt s.slots w j))
    · rintro ⟨⟨kind, timed, hwt⟩, hc⟩
      refine ⟨⟨kind, timed, (congrFun hpl (.caller k)).trans hwt⟩, ?_⟩
      exact ((congrArg (·.canceledAt j) hq).trans (release_canceledAt s.slots w j)).trans hc
  have hwritten : s.progress = .writing →
      ∀ k j, s.Owns k j → HasError s.slots.queues j := by
    intro hp k j ho
    obtain ⟨u, _, _, hall⟩ := h.writing_holder hw hp
    rcases hall k j ho with hj | hj
    · rw [hr] at hj
      cases hj
    · exact hj
  have hcanceled : s.progress = .canceling →
      ∀ k j, s.Owns k j → s.late k = true → s.Parked k j := by
    intro hp k j ho hl
    obtain ⟨_, hall⟩ := h.canceling_holder hw hp
    rcases hall k j ho hl with hj | hj
    · rw [hr] at hj
      cases hj
    · exact hj
  refine ⟨hwf, hsg, ?_, ?_, ?_, ?_, ?_⟩
  · intro k k' j hp
    exact h.callers k k' j (hpl ▸ hp)
  · intro hp
    exfalso
    simp only [unlocked] at hp
    split at hp <;> simp_all
  · intro hp k j ho hl
    obtain ⟨ho, he, _⟩ := hkept k j ho
    apply he
    cases hpr : s.progress with
    | writing => exact hwritten hpr k j ho
    | working => simp [unlocked, hpr] at hp
    | cleared => simp [unlocked, hpr] at hp
    | written => exact h.warned (.inl hpr) k j ho hl
    | canceling => exact h.warned (.inr (.inl hpr)) k j ho hl
    | complete => exact h.warned (.inr (.inr hpr)) k j ho hl
  · intro hp
    exfalso
    simp only [unlocked] at hp
    split at hp <;> simp_all
  · intro hp k j ho hl
    obtain ⟨ho, _, hpk⟩ := hkept k j ho
    apply hpk
    cases hpr : s.progress with
    | canceling => exact hcanceled hpr k j ho hl
    | complete => exact h.parked hpr k j ho hl
    | writing => simp [unlocked, hpr] at hp
    | working => simp [unlocked, hpr] at hp
    | cleared => simp [unlocked, hpr] at hp
    | written => simp [unlocked, hpr] at hp

/-- A thread other than that of the failure takes `lock_`; the call that erases its slot is
over. -/
theorem Inv.lock {s : State} (h : s.Inv) {stage : ℕ → Stage}
    (hf : s.slots.holder = none) {sl : Slots Thread ℕ LowlevelUnit}
    (hq : sl.queues = s.slots.queues) (hpl : sl.place = s.slots.place)
    (hwf : sl.Wf) (hsg : sl.Single)
    (hc : ∀ k, s.stage k = .waiting → stage k = .waiting)
    (hst : ∀ k, (stage k).hasSlot = true → (s.stage k).hasSlot = true) :
    { s with slots := sl, stage := stage }.Inv := by
  obtain ⟨hnw, hnc⟩ := h.not_walking hf
  have hkept : ∀ k j, { s with slots := sl, stage := stage }.Owns k j →
      s.Kept { s with slots := sl, stage := stage } k j := by
    intro k j ho
    obtain ⟨h₁, h₂, h₃⟩ := ho
    simp only [hq] at h₂ h₃
    refine ⟨⟨hst k h₁, h₂, h₃⟩, ?_, ?_⟩
    · intro he
      exact he.of_dataAt (congrArg (·.dataAt j) hq)
    · rintro ⟨⟨kind, timed, hwt⟩, hcc⟩
      exact ⟨⟨kind, timed, (congrFun hpl (.caller k)).trans hwt⟩,
        (congrArg (·.canceledAt j) hq).trans hcc⟩
  refine ⟨hwf, hsg, ?_, fun hp => absurd hp hnw, ?_, fun hp => absurd hp hnc, ?_⟩
  · intro k k' j hp
    obtain ⟨rfl, hs⟩ := h.callers k k' j (hpl ▸ hp)
    exact ⟨rfl, hc _ hs⟩
  · intro hp k j ho hl
    obtain ⟨ho, he, _⟩ := hkept k j ho
    exact he (h.warned hp k j ho hl)
  · intro hp k j ho hl
    obtain ⟨ho, _, hpk⟩ := hkept k j ho
    exact hpk (h.parked hp k j ho hl)

/-- `write_all` of the error takes `lock_`: it has every slot of the map before it. -/
theorem Inv.lockWriteAll {s : State} (h : s.Inv) {w : Holder ℕ LowlevelUnit} {u : LowlevelUnit}
    (hu : u.error.code ≠ 0) {sl : Slots Thread ℕ LowlevelUnit}
    (hq : sl.queues = s.slots.queues) (hpl : sl.place = s.slots.place)
    (hw : sl.holder = some w) (hop : w.op = .writeAll u) (hr : w.rest = s.slots.queues.storedSlots)
    (hwf : sl.Wf) (hsg : sl.Single) : { s with slots := sl, progress := .writing }.Inv := by
  refine ⟨hwf, hsg, fun k k' j hp => h.callers k k' j (hpl ▸ hp), ?_, ?_, ?_, ?_⟩
  · intro _
    refine ⟨w, u, hw, hop, hu, fun k j ho => .inl ?_⟩
    rw [hr, CondQueues.mem_storedSlots, ← hq]
    exact ho.2.1
  · rintro (hp | hp | hp) <;> cases hp
  · intro hp
    cases hp
  · intro hp
    cases hp

theorem Inv.lockCancelAll {s : State} (h : s.Inv) (hpr : s.progress = .written)
    {w : Holder ℕ LowlevelUnit} {sl : Slots Thread ℕ LowlevelUnit}
    (hq : sl.queues = s.slots.queues) (hpl : sl.place = s.slots.place)
    (hw : sl.holder = some w) (hop : w.op = .cancelAll) (hr : w.rest = s.slots.queues.storedSlots)
    (hwf : sl.Wf) (hsg : sl.Single) : { s with slots := sl, progress := .canceling }.Inv := by
  refine ⟨hwf, hsg, fun k k' j hp => h.callers k k' j (hpl ▸ hp), ?_, ?_, ?_, ?_⟩
  · intro hp
    cases hp
  · intro _ k j ho hl
    obtain ⟨h₁, h₂, h₃⟩ := ho
    simp only [hq] at h₂ h₃
    exact (h.warned (.inl hpr) k j ⟨h₁, h₂, h₃⟩ hl).of_dataAt (congrArg (·.dataAt j) hq)
  · intro _
    refine ⟨w, hw, hop, fun k j ho _ => .inl ?_⟩
    rw [hr, CondQueues.mem_storedSlots, ← hq]
    exact ho.2.1
  · intro hp
    cases hp

theorem Inv.addQueue {s : State} (h : s.Inv) {k : ℕ} (hf : s.slots.holder = none)
    (hst : s.stage k = .admitted) (hp : s.progress ≠ .complete)
    (hwf : { s.slots with queues := s.slots.queues.addQueue k }.Wf) :
    { s with
      slots := { s.slots with queues := s.slots.queues.addQueue k }
      stage := Function.update s.stage k .sending
      late := Function.update s.late k s.progress.pastWrite }.Inv := by
  obtain ⟨hnw, hnc⟩ := h.not_walking hf
  refine ⟨hwf, ⟨h.single.place, h.single.reads⟩, ?_, fun hpr => absurd hpr hnw, ?_,
    fun hpr => absurd hpr hnc, fun hpr => absurd hpr hp⟩
  · intro k₁ k₂ j ht
    obtain ⟨rfl, hs⟩ := h.callers k₁ k₂ j ht
    refine ⟨rfl, ?_⟩
    by_cases hk : k₂ = k
    · subst hk
      rw [hst] at hs
      cases hs
    · simpa only [Function.update_of_ne hk] using hs
  · intro hpr k' j ho hl
    by_cases hk : k' = k
    · -- the new slot is late
      subst hk
      simp only [Function.update_self] at hl
      rcases hpr with hpr | hpr | hpr <;>
        simp only at hpr <;> simp [hpr, Progress.pastWrite] at hl
    · obtain ⟨h₁, h₂, h₃⟩ := ho
      simp only [Function.update_of_ne hk] at h₁ hl
      have ho₀ : s.Owns k' j := ⟨h₁, CondQueues.storedAt_of_addQueue h₂ h₃ hk, h₃.of_addQueue hk⟩
      exact (h.warned hpr k' j ho₀ hl).of_dataAt CondQueues.dataAt_addQueue

/-! ### Every step -/

/-- The condition on a step: no call adds its slot when the handling of the failure is complete, and
a call that has added its slot after `write_all` waits in its read when `cancel_all` comes to it. -/
def Timely (s : State) : Event → Prop
  | .slot (.addQueue _ _) => s.progress ≠ .complete
  | .slot .visit => s.VisitTimely
  | _ => True

/-- The steps on the slots, each with its thread. -/
inductive Allowed (s : State) : SlotEvent Thread ℕ LowlevelUnit → Prop
  | addQueue (k : ℕ) (hst : s.stage k = .admitted) : Allowed s (.addQueue (.caller k) k)
  | find (k : ℕ) (hst : s.stage k = .waiting) : Allowed s (.find (.caller k) k .read true)
  | start (k : ℕ) : Allowed s (.start (.caller k))
  | wake (k : ℕ) (timedOut : Bool) : Allowed s (.wake (.caller k) timedOut)
  | eraseQueue (k : ℕ) (hst : s.stage k = .leaving) : Allowed s (.lock (.caller k) (.eraseQueue k))
  | findQueue (k : ℕ) (u : LowlevelUnit) : Allowed s (.findQueue .reader k u)
  | push : Allowed s (.push .reader)
  | writeAll (u : LowlevelUnit) : Allowed s (.lock .reader (.writeAll u))
  | systemError (u : LowlevelUnit) (hu : u.error.code ≠ 0) :
      Allowed s (.lock .transport (.writeAll u))
  | cancelAll (hp : s.progress = .written) : Allowed s (.lock .transport .cancelAll)
  | visit : Allowed s .visit
  | unlock : Allowed s .unlock

theorem allowed_lock {s : State} {t : Thread} {op : MapOp ℕ LowlevelUnit}
    (h : s.allowed (.lock t op) = true) : s.Allowed (.lock t op) := by
  cases t with
  | caller c =>
      cases op with
      | eraseQueue k =>
          simp only [allowed, decide_eq_true_eq] at h
          obtain ⟨rfl, hst⟩ := h
          exact .eraseQueue k hst
      | _ => cases h
  | reader =>
      cases op with
      | writeAll u => exact .writeAll u
      | _ => cases h
  | transport =>
      cases op with
      | writeAll u =>
          simp only [allowed, decide_eq_true_eq] at h
          exact .systemError u h.2.1
      | cancelAll =>
          simp only [allowed, decide_eq_true_eq] at h
          exact .cancelAll h
      | _ => cases h

theorem allowed_of_allowed {s : State} {e : SlotEvent Thread ℕ LowlevelUnit}
    (h : s.allowed e = true) : s.Allowed e := by
  cases e with
  | addQueue t k =>
      cases t with
      | caller c =>
          simp only [allowed, decide_eq_true_eq] at h
          obtain ⟨rfl, hst⟩ := h
          exact .addQueue k hst
      | _ => cases h
  | find t k kind timed =>
      cases t with
      | caller c =>
          simp only [allowed, decide_eq_true_eq] at h
          obtain ⟨rfl, rfl, rfl, hst⟩ := h
          exact .find k hst
      | _ => cases h
  | start t =>
      cases t with
      | caller k => exact .start k
      | _ => cases h
  | wake t timedOut =>
      cases t with
      | caller k => exact .wake k timedOut
      | _ => cases h
  | lock t op => exact allowed_lock h
  | findQueue t k u =>
      cases t with
      | reader => exact .findQueue k u
      | _ => cases h
  | push t =>
      cases t with
      | reader => exact .push
      | _ => cases h
  | visit => exact .visit
  | unlock => exact .unlock

theorem Allowed.single {s : State} {e : SlotEvent Thread ℕ LowlevelUnit} (h : s.Allowed e) :
    e.Single := by
  cases h with
  | find k hst => rfl
  | _ => trivial

/-- A step of the reading thread, or one that does not find its slot. -/
theorem Inv.of_same {s s' : State} (h : s.Inv) (hw : s'.slots.Wf) (hs : s'.slots.Single)
    (hp : ∀ k, s'.slots.place (.caller k) = s.slots.place (.caller k))
    (hpr : s'.progress = s.progress) (hl : s'.late = s.late)
    (hh : s'.slots.holder = s.slots.holder)
    (hstage : s'.stage = s.stage)
    (ho : ∀ k i, s'.Owns k i → s.Owns k i ∧
      (HasError s.slots.queues i → HasError s'.slots.queues i) ∧
      (s.slots.queues.canceledAt i = true → s'.slots.queues.canceledAt i = true)) : s'.Inv := by
  refine h.of_kept hw hs ?_ hpr hl hh ?_
  · intro k k' i ht
    rw [hstage]
    exact h.callers k k' i (hp k ▸ ht)
  · intro k i hk
    obtain ⟨hk, he, hc⟩ := ho k i hk
    refine ⟨hk, he, ?_⟩
    rintro ⟨⟨kind, timed, hw⟩, hcc⟩
    exact ⟨⟨kind, timed, (hp k).trans hw⟩, hc hcc⟩

theorem place_goto_reader (sl : Slots Thread ℕ LowlevelUnit) (p : Place ℕ LowlevelUnit) (k : ℕ) :
    (sl.goto .reader p).place (.caller k) = sl.place (.caller k) := by
  simp [Slots.goto]

theorem Inv.findMissing {s : State} (h : s.Inv) (messType : ℕ → MessageType) (k k' : ℕ)
    (kind : ReadKind) (timed : Bool) :
    (s.after messType s.slots (.find (.caller k) k' kind timed)).Inv := by
  simp only [after]
  split_ifs with hidle
  · refine h.setStage k .leaving ?_ (fun hs => by cases hs)
    cases hp : s.slots.place (.caller k) with
    | idle => rfl
    | _ => simp [hp, Place.isIdle] at hidle
  · exact h

theorem Inv.found {s : State} (h : s.Inv) (messType : ℕ → MessageType) {k i : ℕ}
    {kind : ReadKind} {timed : Bool} (hst : s.stage k = .waiting)
    (hf : s.slots.free (.caller k) = true) (hi : s.slots.queues.valueByKey k = some i)
    (hwf : (s.slots.goto (.caller k) (.found k i kind timed)).Wf)
    (hsg : (s.slots.goto (.caller k) (.found k i kind timed)).Single) :
    (s.after messType (s.slots.goto (.caller k) (.found k i kind timed))
      (.find (.caller k) k kind timed)).Inv := by
  have hidle := Slots.place_of_free hf
  have hn : ∀ j, ¬ s.Waits k j := by
    rintro j ⟨kind', timed', hw⟩
    rw [hidle] at hw
    cases hw
  have hg := h.goto (SameBut.refl i s.slots.queues) hwf hsg (CondQueues.keyAt_of_valueByKey hi)
    hst hn (fun k' j hp => by
      cases hp
      rfl)
  simpa [after, Slots.goto, Place.isIdle] using hg

theorem Inv.startWait {s : State} (h : s.Inv) (messType : ℕ → MessageType) {k k' i : ℕ}
    {kind : ReadKind} {timed : Bool} (hp : s.slots.place (.caller k) = .found k' i kind timed)
    (hwf : ({ s.slots with queues := s.slots.queues.readBegin i }.goto (.caller k)
      (.waiting k' i kind timed)).Wf)
    (hsg : ({ s.slots with queues := s.slots.queues.readBegin i }.goto (.caller k)
      (.waiting k' i kind timed)).Single) :
    (s.after messType ({ s.slots with queues := s.slots.queues.readBegin i }.goto (.caller k)
      (.waiting k' i kind timed)) (.start (.caller k))).Inv := by
  obtain ⟨rfl, hst⟩ := h.callers k k' i (by rw [hp]; rfl)
  have hi := h.wf.placed _ k' i (by rw [hp]; rfl)
  have hn : ∀ j, ¬ s.Waits k' j := by
    rintro j ⟨kind', timed', hw⟩
    rw [hp] at hw
    cases hw
  have hg := h.goto (SameBut.readBegin i s.slots.queues) hwf hsg hi hst hn (fun k₁ j hp => by
    cases hp
    rfl)
  have hsame : ∀ sl : Slots Thread ℕ LowlevelUnit,
      (sl.goto (.caller k') (.waiting k' i kind timed)).place (.caller k') =
        .waiting k' i kind timed := by
    intro sl
    simp [Slots.goto]
  simpa [after, afterRead, hsame, Place.isIdle] using hg

theorem Inv.startEnd {s : State} (h : s.Inv) (messType : ℕ → MessageType) {k k' i : ℕ}
    {kind : ReadKind} {timed : Bool} (hp : s.slots.place (.caller k) = .found k' i kind timed) :
    (s.after messType ({ s.slots with queues := s.slots.queues.readBegin i }.endRead (.caller k)
      k' i kind true) (.start (.caller k))).Inv := by
  obtain ⟨rfl, -⟩ := h.callers k k' i (by rw [hp]; rfl)
  refine h.endRead messType (SameBut.readBegin i s.slots.queues)
    (h.wf.of_grows (fun _ _ => CondQueues.keyAt_readBegin.mpr)) (by rw [hp]; rfl) kind
    (by rw [hp]; rfl) true ?_
  rintro j ⟨kind', timed', hw⟩
  rw [hp] at hw
  cases hw

theorem Inv.wake {s : State} (h : s.Inv) (messType : ℕ → MessageType) {k k' i : ℕ}
    {kind : ReadKind} {timed : Bool} (timedOut res : Bool)
    (hp : s.slots.place (.caller k) = .waiting k' i kind timed) :
    (s.after messType (s.slots.endRead (.caller k) k' i kind res)
      (.wake (.caller k) timedOut)).Inv := by
  obtain ⟨rfl, -⟩ := h.callers k k' i (by rw [hp]; rfl)
  refine h.endRead messType (SameBut.refl i s.slots.queues) h.wf (by rw [hp]; rfl) kind
    (by rw [hp]; rfl) res ?_
  rintro j ⟨kind', timed', hw⟩
  rw [hp] at hw
  cases hw
  exact ⟨rfl, rfl⟩

theorem Inv.push {s : State} (h : s.Inv) {k i : ℕ} {u : LowlevelUnit}
    (hp : s.slots.place .reader = .writing k i u) {sl : Slots Thread ℕ LowlevelUnit}
    (hsl : sl = (s.slots.pushValues none (some k) i [u]).goto .reader .idle)
    (hwf : sl.Wf) (hsg : sl.Single) : { s with slots := sl }.Inv := by
  subst hsl
  have hk := h.wf.placed .reader k i (by rw [hp]; rfl)
  refine h.of_same hwf hsg (fun k' => place_goto_reader _ _ k') rfl rfl rfl rfl ?_
  intro k' j ho
  refine ⟨⟨ho.1, ?_, ?_⟩, HasError.push hk.lt, ?_⟩
  · exact CondQueues.storedAt_pushValues.symm.trans ho.2.1
  · exact CondQueues.keyAt_pushValues.mp ho.2.2
  · intro hc
    exact CondQueues.canceledAt_pushValues.trans hc

theorem Inv.lockErase {s : State} (h : s.Inv) {k : ℕ} (hst : s.stage k = .leaving)
    (hf : s.slots.holder = none) {sl : Slots Thread ℕ LowlevelUnit}
    (hq : sl.queues = s.slots.queues) (hpl : sl.place = s.slots.place) (hwf : sl.Wf)
    (hsg : sl.Single) : { s with slots := sl, stage := Function.update s.stage k .over }.Inv := by
  refine h.lock hf hq hpl hwf hsg ?_ ?_
  · intro k' hw
    by_cases hk : k' = k
    · subst hk
      rw [hst] at hw
      cases hw
    · rwa [Function.update_of_ne hk]
  · intro k' hw
    by_cases hk : k' = k
    · subst hk
      rw [Function.update_self] at hw
      cases hw
    · rwa [Function.update_of_ne hk] at hw

theorem Inv.slot {s : State} (h : s.Inv) (messType : ℕ → MessageType)
    {e : SlotEvent Thread ℕ LowlevelUnit} {sl : Slots Thread ℕ LowlevelUnit}
    (ha : s.Allowed e) (hd : s.slots.Does e sl) (ht : s.Timely (.slot e)) :
    (s.after messType sl e).Inv := by
  have hwf : sl.Wf := h.wf.step hd
  have hsg : sl.Single := h.single.step ha.single hd
  cases ha with
  | addQueue k hst =>
      cases hd with
      | addQueue _ _ hf => exact h.addQueue hf hst ht hwf
      | missing _ hm => cases hm
  | find k hst =>
      cases hd with
      | find _ _ i _ _ hf hi => exact h.found messType hst hf hi hwf hsg
      | missing _ _ => exact h.findMissing messType k k .read true
  | start k =>
      cases hd with
      | startEnd _ k' i kind timed hp _ => exact h.startEnd messType hp
      | startWait _ k' i kind timed hp _ => exact h.startWait messType hp hwf hsg
      | missing _ hm => cases hm
  | wake k timedOut =>
      cases hd with
      | wake _ _ k' i kind timed hp _ => exact h.wake messType timedOut true hp
      | timeOut _ k' i kind hp _ => exact h.wake messType true false hp
      | missing _ hm => cases hm
  | eraseQueue k hst =>
      cases hd with
      | lock _ _ is hf _ => exact h.lockErase hst hf rfl rfl hwf hsg
      | missing _ hm => cases hm
  | findQueue k u =>
      cases hd with
      | findQueue _ _ _ i _ _ =>
          exact h.of_same hwf hsg (fun k' => place_goto_reader _ _ k') rfl rfl rfl rfl
            (fun _ _ ho => ⟨ho, id, id⟩)
      | missing _ _ => exact h
  | push =>
      cases hd with
      | push _ k i u hp => exact h.push hp rfl hwf hsg
      | missing _ hm => cases hm
  | writeAll u =>
      cases hd with
      | lock _ _ is hf _ => exact h.lock hf rfl rfl hwf hsg (fun _ hk => hk) (fun _ hk => hk)
      | missing _ hm => cases hm
  | systemError u hu =>
      cases hd with
      | lock _ _ is hf hs =>
          exact h.lockWriteAll hu rfl rfl rfl rfl (Option.some.inj hs).symm hwf hsg
      | missing _ hm => cases hm
  | cancelAll hp =>
      cases hd with
      | lock _ _ is hf hs =>
          exact h.lockCancelAll hp rfl rfl rfl rfl (Option.some.inj hs).symm hwf hsg
      | missing _ hm => cases hm
  | visit =>
      cases hd with
      | visit w i rest hw hr =>
          exact h.visit ht hw hr rfl (visitSlot_place s.slots w i) rfl rfl rfl hwf hsg
      | missing _ hm => cases hm
  | unlock =>
      cases hd with
      | unlock w hw hr => exact h.unlock hw hr rfl rfl hwf hsg
      | missing _ hm => cases hm

theorem Inv.step {s s' : State} {messType : ℕ → MessageType} {e : Event} (h : s.Inv)
    (ht : s.Timely e) (hst : s.step messType e = some s') : s'.Inv := by
  cases e with
  | test k =>
      simp only [State.step, Option.ite_none_right_eq_some] at hst
      obtain ⟨hk, hst⟩ := hst
      cases hst
      refine h.setStage k _ (h.target_eq_none (by rw [hk]; decide)) (fun hs => ?_)
      split_ifs at hs <;> cases hs
  | send k ok =>
      simp only [State.step, Option.ite_none_right_eq_some] at hst
      obtain ⟨hk, hst⟩ := hst
      cases hst
      exact h.setStage k _ (h.target_eq_none (by rw [hk]; decide)) (fun _ => by rw [hk]; rfl)
  | served k ok =>
      simp only [State.step, Option.ite_none_right_eq_some] at hst
      obtain ⟨hk, hst⟩ := hst
      cases hst
      exact h.setStage k _ (h.target_eq_none (by rw [hk]; decide)) (fun _ => by rw [hk]; rfl)
  | setReady =>
      simp only [State.step, Option.ite_none_right_eq_some] at hst
      obtain ⟨hp, hst⟩ := hst
      cases hst
      refine ⟨h.wf, h.single, h.callers, ?_, ?_, ?_, ?_⟩
      · intro hpr
        cases hpr
      · rintro (hpr | hpr | hpr) <;> cases hpr
      · intro hpr
        cases hpr
      · intro hpr
        cases hpr
  | slot e =>
      simp only [State.step, Option.ite_none_right_eq_some, Option.map_eq_some_iff] at hst
      obtain ⟨ha, sl, hsl, rfl⟩ := hst
      exact h.slot messType (allowed_of_allowed ha) (Slots.does_of_step hsl) ht

theorem Inv.initial : State.initial.Inv where
  wf := Slots.Inv.initial.wf
  single := ⟨fun _ _ hk => (by cases hk), fun _ hr => (by cases hr)⟩
  callers := fun _ _ _ ht => (by cases ht)
  writing := fun hp => (by cases hp)
  warned := by rintro (hp | hp | hp) <;> cases hp
  canceling := fun hp => (by cases hp)
  parked := fun hp => (by cases hp)

/-- No call waits on the dead connection: when the handling of the failure is complete, the open
slot of a call that waits or is about to is not empty, or the call waits in its read and the slot
is cancelled, so that the read returns. -/
def NoneStuck (s : State) : Prop :=
  s.progress = .complete → ∀ k i, s.Owns k i →
    s.slots.queues.dataAt i ≠ [] ∨ (s.late k = true ∧ s.Parked k i)

theorem Inv.noneStuck {s : State} (h : s.Inv) : s.NoneStuck := by
  intro hp k i ho
  cases hl : s.late k with
  | false =>
      obtain ⟨v, hv, _⟩ := h.warned (.inr (.inr hp)) k i ho hl
      exact .inl (List.ne_nil_of_mem hv)
  | true => exact .inr ⟨rfl, h.parked hp k i ho hl⟩

end State

/-- **No call waits on a dead connection**, in every run in which no call adds its slot when the
handling of the failure is complete, and every call that adds its slot after `write_all` waits in
its read when `cancel_all` comes to it. -/
theorem none_stuck_of_timely {messType : ℕ → MessageType} {es : List Event} {s : State}
    (h : (failureMachine messType).run es = some s)
    (hes : (failureMachine messType).Meets State.Timely (failureMachine messType).init es) :
    s.NoneStuck := by
  have hinv : s.Inv :=
    (failureMachine messType).inv_of_meets (C := State.Timely) (I := State.Inv)
      (fun _ _ _ hs he hst => hs.step he hst) .initial hes h
  exact hinv.noneStuck

/-- A call that has added its slot before the transport fails. -/
theorem stuck_not_before_write :
    let es : List Event := [.test 1, .slot (.addQueue (.caller 1) 1), .setReady,
      .slot (.lock .transport (.writeAll (State.systemError 104 "Transport read error."))),
      .slot .visit, .slot .unlock, .slot (.lock .transport .cancelAll), .slot .visit,
      .slot .unlock]
    ∃ s, (failureMachine (fun _ => .clientCall)).run es = some s ∧ s.progress = .complete ∧
      (s.stage 1).hasSlot = true ∧ s.NoneStuck := by
  intro es
  obtain ⟨s, hs, hp, hst⟩ : ∃ s, (failureMachine (fun _ => .clientCall)).run es = some s ∧
      s.progress = .complete ∧ (s.stage 1).hasSlot = true :=
    ⟨_, rfl, rfl, rfl⟩
  refine ⟨s, hs, hp, hst, none_stuck_of_timely hs ?_⟩
  refine ⟨trivial, fun s₁ h₁ => ⟨?_, fun s₂ h₂ => ⟨trivial, fun s₃ h₃ => ⟨trivial, fun s₄ h₄ =>
    ⟨?_, fun s₅ h₅ => ⟨trivial, fun s₆ h₆ => ⟨trivial, fun s₇ h₇ => ⟨?_, fun s₈ _ =>
      ⟨trivial, fun _ _ => trivial⟩⟩⟩⟩⟩⟩⟩⟩⟩
  all_goals cases h₁
  · intro hc
    cases hc
  all_goals cases h₂; cases h₃; cases h₄
  · intro hc
    cases hc
  · cases h₅
    cases h₆
    cases h₇
    intro _ w i rest _ _ k _ hl
    -- the only slot was added while the connection worked
    have hl : Function.update (fun _ : ℕ => false) 1 false k = true := hl
    rw [Function.update_apply, ite_self] at hl
    cases hl

/-- The failure is handled between the `ready_` test of a call and its `add_queue`: the call waits
on an empty slot that nothing will fill or cancel. -/
theorem stuck_after_test :
    let es : List Event := [.test 1, .setReady,
      .slot (.lock .transport (.writeAll (State.systemError 104 "Transport read error."))),
      .slot .unlock, .slot (.lock .transport .cancelAll), .slot .unlock,
      .slot (.addQueue (.caller 1) 1), .send 1 true, .slot (.find (.caller 1) 1 .read true),
      .slot (.start (.caller 1))]
    ∃ s, (failureMachine (fun _ => .clientCall)).run es = some s ∧ s.progress = .complete ∧
      s.Owns 1 0 ∧ s.Waits 1 0 ∧ s.slots.queues.dataAt 0 = [] ∧
      s.slots.queues.canceledAt 0 = false ∧ ¬ s.NoneStuck := by
  intro es
  refine ⟨_, rfl, rfl, ⟨rfl, rfl, ⟨_, rfl, rfl⟩⟩, ⟨_, _, rfl⟩, rfl, rfl, ?_⟩
  intro h
  rcases h rfl 1 0 ⟨rfl, rfl, ⟨_, rfl, rfl⟩⟩ with hd | ⟨_, _, hc⟩
  · exact hd rfl
  · cases hc

end Failure

end Vtrc
