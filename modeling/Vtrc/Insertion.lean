import Vtrc.RpcEnd
import Mathlib.Algebra.Order.BigOperators.Group.List

/-! # Callback requests (`process_insertion`)

A callback request of the other side is pushed to the slot of the call that it is aimed at, and the
thread of that call executes it between two reads of the slot; without a slot the reading thread
answers it with `ERR_CONTEXT`, or executes it like a direct call when it is marked to need no
context.

A request that has arrived is in one of four places: the reading thread holds it, it lies in a slot,
it is a local call, or it was turned away.  `Inserted` counts the requests at these places, for any
property of the requests, and the answers that the last two have got; a step that moves a request
has it in hand in between.  That each request is answered is then a question of leaving the first
two places: a slot must not be erased while a request is there (`Inserted.eraseQueue`).

`callback_answered_once` says that the requests with an id get as many answers, in every run in
which no slot is erased with a waiting request unread or on its way to it, and the handlers of
requests answer once.  `callback_after_reply_lost` is the run in which the slot is erased: the reply
lies in it before the request. -/

namespace Vtrc

open CallEffect

/-! ### Handlers that answer once -/

namespace TrackedCall

/-- The event does not answer a call a second time, and does not end it without an answer: a handler
that has answered does not throw, one that returns after its closure was run has answered, and the
closure is not run to answer after a failure, nor where it does not answer after the return. -/
def AnswersOnce (t : TrackedCall) : CallEvent → Prop
  | .leave (some _) => sent t.log = []
  | .leave none => t.call.DoneRun → sent t.log ≠ []
  | .runDone uncaught context =>
      if LocalCall.answers uncaught context then ¬ t.call.Failed
      else t.call.phase ≠ .returned false
  | _ => True

instance (t : TrackedCall) : (e : CallEvent) → Decidable (t.AnswersOnce e)
  | .leave (some _) => inferInstanceAs (Decidable (_ = _))
  | .leave none => inferInstanceAs (Decidable (_ → _))
  | .runDone uncaught context =>
      inferInstanceAs (Decidable (if LocalCall.answers uncaught context then ¬ t.call.Failed
        else t.call.phase ≠ .returned false))
  | .start _ _ | .respond _ | .setFailed _ | .startCancel => inferInstanceAs (Decidable True)

/-- A waiting call has one answer at most, and one when it is over. -/
structure Single (t : TrackedCall) : Prop where
  inv : t.Inv
  wait : t.call.llu.opt.wait = true
  failed : t.call.Failed → (sent t.log).length = 1
  running : ¬ t.call.Failed → t.call.phase = .posted ∨ t.call.hold.protoClosure = true →
    sent t.log = []
  le : (sent t.log).length ≤ 1
  returned : t.call.phase = .returned false → t.call.DoneRun → (sent t.log).length = 1

theorem single_post {llu : LowlevelUnit} (h : llu.opt.wait = true) : Single ⟨.post llu, []⟩ where
  inv := inv_post llu
  wait := h
  failed := fun hf => (by cases hf)
  running := fun _ _ => rfl
  le := Nat.zero_le 1
  returned := fun hp => (by cases hp)

theorem Single.over {t : TrackedCall} (h : t.Single) (ho : t.call.Over) :
    (sent t.log).length = 1 := by
  rcases ho with hf | ⟨hr, hd⟩
  · exact h.failed hf
  · exact h.returned hr hd

theorem Single.finish_some {t : TrackedCall} (h : t.Single) (hstack : t.call.onStack = true)
    (hs : sent t.log = []) (ex : Thrown) :
    Single ⟨(t.call.finish (some ex)).1, t.log ++ (t.call.finish (some ex)).2⟩ := by
  obtain ⟨hph, _, _, _, _, hopt, _, hsent⟩ := t.call.finish_some_spec ex
  have hone : (sent (t.log ++ (t.call.finish (some ex)).2)).length = 1 := by
    have hlen := congrArg List.length hsent
    rw [List.length_map, h.wait] at hlen
    rw [sent_append, hs, List.nil_append, hlen]
    rfl
  refine ⟨h.inv.finish_some hstack ex, (congrArg UnitOptions.wait hopt).trans h.wait,
    fun _ => hone, ?_, hone.le, ?_⟩
  · intro hf
    exact absurd hph hf
  · intro hp
    rw [hph] at hp
    cases hp

theorem Single.closureRunner {t : TrackedCall} (h : t.Single)
    (hproto : t.call.hold.protoClosure = true) (uncaught context : Bool)
    (hc : t.AnswersOnce (.runDone uncaught context)) :
    Single ⟨(t.call.closureRunner uncaught context).1, t.log ++
      ((t.call.closureRunner uncaught context).2 ++ if t.call.onStack then []
        else (t.call.closureRunner uncaught context).1.callInternal)⟩ := by
  obtain ⟨hph, hconn, _, hgone, _, hopt, _, hsent⟩ := t.call.closureRunner_spec uncaught context
  have hinv := h.inv.closureRunner hproto uncaught context
  have hlast : sent (if t.call.onStack then []
      else (t.call.closureRunner uncaught context).1.callInternal) = [] := by
    split_ifs <;> simp
  have hlen : (sent (t.log ++ ((t.call.closureRunner uncaught context).2 ++
      if t.call.onStack then [] else (t.call.closureRunner uncaught context).1.callInternal))).length =
      (sent t.log).length + if LocalCall.answers uncaught context then 1 else 0 := by
    have hl := congrArg List.length hsent
    rw [List.length_map] at hl
    rw [sent_append, sent_append, hlast, List.append_nil, List.length_append, hl]
    split_ifs <;> rfl
  have hfailed : (t.call.closureRunner uncaught context).1.Failed ↔ t.call.Failed := by
    rw [LocalCall.Failed, hph, LocalCall.Failed]
  simp only [AnswersOnce] at hc
  refine ⟨hinv, (congrArg UnitOptions.wait hopt).trans h.wait, ?_, ?_, ?_, ?_⟩
  · intro hf
    have hf := hfailed.mp hf
    rw [hlen]
    split_ifs at hc ⊢ with ha
    · exact absurd hf hc
    · exact h.failed hf
  · intro hnf hor
    exfalso
    rcases hor with hp | hp
    · have hp : t.call.phase = .posted := hph.symm.trans hp
      have := (h.inv.fresh hp).2
      rw [hproto] at this
      cases this
    · rw [hgone] at hp
      cases hp
  · rw [hlen]
    split_ifs at hc ⊢ with ha
    · rw [h.running hc (.inr hproto)]
      exact le_rfl
    · exact h.le
  · intro hr _
    rw [hlen]
    split_ifs at hc ⊢ with ha
    · rw [h.running hc (.inr hproto)]
      rfl
    · exact absurd (hph.symm.trans hr) hc

theorem Single.step {opts : SessionOptions} {t : TrackedCall} {e : CallEvent} (h : t.Single)
    (hc : t.AnswersOnce e) {r : LocalCall × List CallEffect}
    (hs : t.call.step opts e = some r) : Single ⟨r.1, t.log ++ r.2⟩ := by
  obtain ⟨c', effs⟩ := r
  have hstep : t.step opts e = some ⟨c', t.log ++ effs⟩ := by
    rw [TrackedCall.step, hs]
    rfl
  have hinv := h.inv.step hstep
  rcases LocalCall.step_cases hs with ⟨depth, services, ex, rfl, hp, hres, rfl, rfl⟩ |
    ⟨depth, services, rfl, hp, hres, rfl, rfl⟩ |
    ⟨he, rfl, hproto, hph, hllu, hconn, hproto', hint⟩ |
    ⟨uncaught, context, rfl, hproto, rfl, rfl⟩ | ⟨thrown, rfl, hrun, rfl, rfl⟩
  · refine h.finish_some (by rw [LocalCall.onStack, hp]) (h.running ?_ (.inl hp)) ex
    rw [LocalCall.Failed, hp]
    simp
  · have hnil : sent t.log = [] := h.running (by rw [LocalCall.Failed, hp]; simp) (.inl hp)
    refine ⟨hinv, h.wait, ?_, ?_, ?_, ?_⟩
    · intro hf
      cases hf
    · intro _ _
      simpa using hnil
    · simp [hnil]
    · intro hr
      cases hr
  · have hfailed : c'.Failed ↔ t.call.Failed := by rw [LocalCall.Failed, hph, LocalCall.Failed]
    have hlog : sent (t.log ++ []) = sent t.log := by rw [List.append_nil]
    refine ⟨hinv, by rw [hllu]; exact h.wait, ?_, ?_, ?_, ?_⟩
    · intro hf
      rw [hlog]
      exact h.failed (hfailed.mp hf)
    · intro hnf _
      rw [hlog]
      exact h.running (fun hf => hnf (hfailed.mpr hf)) (.inr hproto)
    · rw [hlog]
      exact h.le
    · intro _ hd
      have := hd.2
      rw [hproto'] at this
      cases this
  · exact h.closureRunner hproto uncaught context hc
  · have hnf : ¬ t.call.Failed := by
      rw [LocalCall.Failed, hrun]
      simp
    cases thrown with
    | some ex => exact h.finish_some (by rw [LocalCall.onStack, hrun]) hc ex
    | none =>
        have hlog : sent (t.log ++ (t.call.finish none).2) = sent t.log := by
          simp [LocalCall.finish]
        refine ⟨hinv, h.wait, ?_, ?_, ?_, ?_⟩
        · intro hf
          cases hf
        · intro _ hor
          rw [hlog]
          rcases hor with hp | hp
          · cases hp
          · exact h.running hnf (.inr hp)
        · rw [hlog]
          exact h.le
        · intro _ hd
          rw [hlog]
          have hne := hc hd
          have hpos := List.length_pos_iff.mpr hne
          have := h.le
          omega

end TrackedCall

/-! ### Where a request is -/

namespace LowlevelUnit

/-- A callback request with the id `c`, or the answer to one, where `T` is the type of callbacks. -/
def isCallback (T : MessageType) (c : UInt64) (llu : LowlevelUnit) : Bool :=
  decide (llu.messageType = T ∧ llu.id = c)

/-- A callback request whose sender waits. -/
def Asks (T : MessageType) (llu : LowlevelUnit) : Prop :=
  llu.messageType = T ∧ llu.opt.wait = true

instance (T : MessageType) (llu : LowlevelUnit) : Decidable (llu.Asks T) :=
  inferInstanceAs (Decidable (_ ∧ _))

theorem isCallback_eq_true {T : MessageType} {c : UInt64} {llu : LowlevelUnit} :
    llu.isCallback T c = true ↔ llu.messageType = T ∧ llu.id = c := by
  rw [isCallback, decide_eq_true_iff]

theorem isCallback_of_ne {T : MessageType} {c : UInt64} {llu : LowlevelUnit}
    (h : llu.messageType ≠ T) : llu.isCallback T c = false := by
  rw [Bool.eq_false_iff, Ne, isCallback_eq_true]
  exact fun hc => h hc.1

theorem isCallback_congr {T : MessageType} {c : UInt64} {u llu : LowlevelUnit}
    (h : LocalCall.SameUnit u llu) : u.isCallback T c = llu.isCallback T c := by
  rw [isCallback, isCallback, h.id, h.messageType]

end LowlevelUnit

open LowlevelUnit

/-- The unit that the reading thread holds. -/
def Held.unit : Held → LowlevelUnit
  | push _ llu => llu
  | refuse llu => llu

namespace Entry

/-- An entry is a unit of its own slot with the property `p`. -/
def holds (p : LowlevelUnit → Bool) : Entry → Bool
  | own llu => p llu
  | shared _ => false

/-- The unit that a read of the entry takes out of its slot. -/
def inHand : Entry → List LowlevelUnit
  | own llu => [llu]
  | shared _ => []

theorem holds_own (p : LowlevelUnit → Bool) (llu : LowlevelUnit) : holds p (own llu) = p llu := rfl

theorem holds_shared (p : LowlevelUnit → Bool) (b : ℕ) : holds p (shared b) = false := rfl

end Entry

namespace Incoming

/-- One for a local call that was made from a unit with the property `p`. -/
def asked (p : LowlevelUnit → Bool) (l : Incoming) : ℕ :=
  if l.shared = none ∧ p l.req = true then 1 else 0

/-- The number of answers of such a call. -/
def replies (p : LowlevelUnit → Bool) (l : Incoming) : ℕ :=
  if l.shared = none ∧ p l.req = true then (sent l.tracked.log).length else 0

/-- A local call by the unit it was made from: a request of the type `T` whose sender waits is
answered once, and a unit that is shared is no request. -/
structure Executed (T : MessageType) (l : Incoming) : Prop where
  own : l.shared = none → LocalCall.SameUnit l.tracked.call.llu l.req
  single : l.shared = none → l.req.Asks T → l.tracked.Single
  foreign : l.shared ≠ none → l.tracked.call.llu.messageType ≠ T

/-- What a local call writes has the id and the type of its request, unless the unit is shared. -/
theorem replies_append {T : MessageType} (c : UInt64) {l l' : Incoming} {effs : List CallEffect}
    (hshared : l'.shared = l.shared) (hreq : l'.req = l.req)
    (hlog : sent l'.tracked.log = sent l.tracked.log ++ sent effs)
    (hown : l.shared = none → ∀ u ∈ sent effs, LocalCall.SameUnit u l.req)
    (hforeign : l.shared ≠ none → ∀ u ∈ sent effs, u.messageType ≠ T) :
    l'.replies (isCallback T c) =
      l.replies (isCallback T c) + (sent effs).countP (isCallback T c) := by
  unfold replies
  rw [hshared, hreq, hlog, List.length_append]
  by_cases hn : l.shared = none
  · by_cases hcb : l.req.isCallback T c = true
    · have hall : (sent effs).countP (isCallback T c) = (sent effs).length := by
        rw [List.countP_eq_length]
        intro u hu
        rwa [isCallback_congr (hown hn u hu)]
      rw [if_pos ⟨hn, hcb⟩, if_pos ⟨hn, hcb⟩, hall]
    · have hnone : (sent effs).countP (isCallback T c) = 0 := by
        rw [List.countP_eq_zero]
        intro u hu
        rwa [isCallback_congr (hown hn u hu)]
      rw [if_neg (fun hc => hcb hc.2), if_neg (fun hc => hcb hc.2), hnone]
  · have hnone : (sent effs).countP (isCallback T c) = 0 := by
      rw [List.countP_eq_zero]
      intro u hu
      rw [isCallback_of_ne (hforeign hn u hu)]
      exact Bool.false_ne_true
    rw [if_neg (fun hc => hn hc.1), if_neg (fun hc => hn hc.1), hnone]

end Incoming

namespace RpcEnd

/-- `MESSAGE_SERVER_CALLBACK` on the client, `MESSAGE_CLIENT_CALLBACK` on the server. -/
def insertionType (s : RpcEnd) : MessageType := s.side.other.callbackType

/-- What the reading thread holds. -/
def held (s : RpcEnd) : List LowlevelUnit := s.reader.toList.map Held.unit

/-- How many of the units that have arrived are held, in a slot, executed or turned away. -/
def placed (s : RpcEnd) (p : LowlevelUnit → Bool) : ℕ :=
  s.held.countP p + s.slots.count (Entry.holds p) + (s.incoming.map (Incoming.asked p)).sum +
    s.refused.countP p

/-- The units in the slot of the call `k`, and the one on its way there. -/
def slotUnits (s : RpcEnd) (k : UInt64) : List LowlevelUnit :=
  (s.slots.values.filter (fun h => h.key = k)).flatMap (fun h => h.data.flatMap Entry.inHand) ++
    match s.reader with
    | some (.push i u) => if (s.slots.values[i]?).any (fun h => h.key = k) then [u] else []
    | _ => []

/-- One of them is a request whose sender waits. -/
def Unread (s : RpcEnd) (k : UInt64) : Prop := ∃ u ∈ s.slotUnits k, u.Asks s.insertionType

instance (s : RpcEnd) (k : UInt64) : Decidable (s.Unread k) :=
  inferInstanceAs (Decidable (∃ u ∈ _, _))

/-- `process_insertion` will come to `send_busy`, and the sender waits. -/
def TurnsAway (opts : SessionOptions) (s : RpcEnd) (llu : LowlevelUnit) : Prop :=
  s.side = .server ∧ s.slots.valueByKey llu.targetId = none ∧ llu.callbackAlone = true ∧
    ¬ s.current + 1 ≤ opts.maxActiveCalls ∧ llu.opt.wait = true

instance (opts : SessionOptions) (s : RpcEnd) (llu : LowlevelUnit) :
    Decidable (s.TurnsAway opts llu) := inferInstanceAs (Decidable (_ ∧ _))

/-- The event loses no request: what is received as one carries no error and can be told from an
event, no slot is erased with a waiting request unread, the handlers of waiting requests answer
once, and the connection is up when an answer is written. -/
def Answers (opts : SessionOptions) (s : RpcEnd) : RpcEvent → Prop
  | .receive llu =>
      llu.messageType = s.insertionType →
        llu.error.code = 0 ∧ (s.side = .client → llu.callbackAlone = true → llu.id ≠ 0) ∧
          (s.TurnsAway opts llu → s.ready = true)
  | .out k .erase => ∀ c ∈ s.calls[k]?, ¬ s.Unread c.llu.id
  | .served j e =>
      ∀ l ∈ s.incoming[j]?, l.shared = none → l.req.Asks s.insertionType → l.tracked.AnswersOnce e
  | .unsent j _ => ∀ l ∈ s.incoming[j]?, l.shared = none → ¬ l.req.Asks s.insertionType
  | .proceed => ∀ h ∈ s.reader, h = .refuse h.unit → s.ready = true
  | _ => True

instance (opts : SessionOptions) (s : RpcEnd) : (e : RpcEvent) → Decidable (s.Answers opts e)
  | .receive _ => inferInstanceAs (Decidable (_ → _))
  | .out _ .erase => inferInstanceAs (Decidable (∀ c ∈ _, _))
  | .served _ _ => inferInstanceAs (Decidable (∀ l ∈ _, _))
  | .unsent _ _ => inferInstanceAs (Decidable (∀ l ∈ _, _))
  | .proceed => inferInstanceAs (Decidable (∀ h ∈ _, _))
  | .out _ (.fire _) | .out _ (.enter _) | .out _ .test | .out _ .add | .out _ (.write _)
  | .out _ .read | .out _ (.wake _ _) | .out _ .resume | .start _ _ _ | .systemError _ _
  | .badMessage | .cancelAll => inferInstanceAs (Decidable True)

/-- What holds of the requests, which have the type `T`, in every run that loses none; `us` are the
units that the step which is being made has in hand. -/
structure Inserted (T : MessageType) (us : List LowlevelUnit) (s : RpcEnd) : Prop where
  type : s.insertionType = T
  calls : ∀ c ∈ s.calls, c.llu.messageType ≠ T
  broadcasts : ∀ u ∈ s.broadcasts, u.messageType ≠ T
  push : ∀ i llu, s.reader = some (.push i llu) → i < s.slots.values.length ∧
    (llu.messageType = T →
      llu.error.code = 0 ∧ (llu.opt.wait = true → s.slots.storedAt i = true))
  refuse : ∀ llu, s.reader = some (.refuse llu) → llu.Asks T
  queued : ∀ i llu, .own llu ∈ s.slots.dataAt i → llu.messageType = T →
    llu.error.code = 0 ∧ (llu.opt.wait = true → s.slots.storedAt i = true)
  executed : ∀ l ∈ s.incoming, l.Executed T
  conserved : ∀ p : LowlevelUnit → Bool, (∀ u, p u = true → u.messageType = T) →
    s.arrived.countP p = s.placed p + us.countP p
  answered : ∀ c, s.sent.countP (isCallback T c) =
    (s.incoming.map (Incoming.replies (isCallback T c))).sum +
      s.refused.countP (fun u => u.isCallback T c && u.opt.wait)

theorem inserted_initial (side : Side) : Inserted side.other.callbackType [] (initial side) := by
  constructor <;> simp [initial, insertionType, placed, held, CondQueues.dataAt, CondQueues.empty,
    CondQueues.count]

/-! ### Steps -/

variable {opts : SessionOptions} {T : MessageType} {us : List LowlevelUnit} {s s' : RpcEnd}

theorem Inserted.ne_none (h : s.Inserted T us) : MessageType.none ≠ T := by
  rw [← h.type, insertionType]
  cases s.side <;> simp [Side.other, Side.callbackType]

theorem Inserted.setStage (h : s.Inserted T us) {k : ℕ} {c : Outgoing} (hc : s.calls[k]? = some c)
    (st : CallStage) : (s.setStage k c st).Inserted T us := by
  refine { h with calls := ?_ }
  intro c' hc'
  rcases List.mem_or_eq_of_mem_set hc' with hm | rfl
  · exact h.calls c' hm
  · exact h.calls c (List.mem_of_getElem? hc)

theorem Inserted.write (h : s.Inserted T us) {u : LowlevelUnit} (hu : u.messageType ≠ T) :
    Inserted T us { s with sent := s.sent ++ [u] } := by
  refine { h with answered := ?_ }
  intro c
  have := h.answered c
  simpa [List.countP_append, isCallback_of_ne hu] using this

theorem Inserted.slots (h : s.Inserted T us) {q : CondQueues UInt64 Entry}
    (hlen : s.slots.values.length ≤ q.values.length)
    (hdata : ∀ i llu, .own llu ∈ q.dataAt i → .own llu ∈ s.slots.dataAt i)
    (hstored : ∀ i llu, llu.Asks T →
      .own llu ∈ s.slots.dataAt i ∨ s.reader = some (.push i llu) →
      s.slots.storedAt i = true → q.storedAt i = true)
    (hcount : ∀ p, q.count (Entry.holds p) = s.slots.count (Entry.holds p)) :
    Inserted T us { s with slots := q } := by
  refine { h with push := ?_, queued := ?_, conserved := ?_ }
  · intro i llu hr
    obtain ⟨hi, hp⟩ := h.push i llu hr
    refine ⟨lt_of_lt_of_le hi hlen, fun ht => ⟨(hp ht).1, fun hw => ?_⟩⟩
    exact hstored i llu ⟨ht, hw⟩ (.inr hr) ((hp ht).2 hw)
  · intro i llu hm ht
    obtain ⟨hcode, hw⟩ := h.queued i llu (hdata i llu hm) ht
    exact ⟨hcode, fun hwait => hstored i llu ⟨ht, hwait⟩ (.inl (hdata i llu hm)) (hw hwait)⟩
  · intro p hp
    have := h.conserved p hp
    unfold placed at this ⊢
    rw [this]
    simp only [hcount]
    rfl

theorem Inserted.addQueue (h : s.Inserted T us) (k : UInt64) :
    Inserted T us { s with slots := s.slots.addQueue k } := by
  refine h.slots ?_ ?_ ?_ ?_
  · unfold CondQueues.addQueue
    split_ifs <;> simp
  · intro i llu hm
    rwa [CondQueues.dataAt_addQueue] at hm
  · intro i llu _ _ hst
    exact CondQueues.storedAt_addQueue hst
  · intro p
    exact CondQueues.count_addQueue

theorem Inserted.readBegin (h : s.Inserted T us) (i : ℕ) :
    Inserted T us { s with slots := s.slots.readBegin i } := by
  refine h.slots ?_ ?_ ?_ ?_
  · simp [CondQueues.readBegin]
  · intro n llu hm
    rwa [CondQueues.dataAt_readBegin] at hm
  · intro n llu _ _ hst
    rwa [CondQueues.storedAt_readBegin]
  · intro p
    exact CondQueues.count_readBegin

theorem Inserted.cancelAll (h : s.Inserted T us) :
    Inserted T us { s with slots := s.slots.cancelAll } := by
  refine h.slots ?_ ?_ ?_ ?_
  · simp [CondQueues.cancelAll]
  · intro n llu hm
    rwa [CondQueues.dataAt_cancelAll] at hm
  · intro n llu _ _ hst
    rwa [CondQueues.storedAt_cancelAll]
  · intro p
    exact CondQueues.count_cancelAll

theorem mem_slotUnits {i : ℕ} {k : UInt64} {u : LowlevelUnit} (hk : s.slots.KeyAt i k)
    (hu : .own u ∈ s.slots.dataAt i ∨ s.reader = some (.push i u)) : u ∈ s.slotUnits k := by
  obtain ⟨v, hv, hkey⟩ := hk
  rw [slotUnits, List.mem_append]
  rcases hu with hu | hu
  · left
    rw [CondQueues.dataAt, hv] at hu
    simp only [List.mem_flatMap, List.mem_filter, decide_eq_true_iff]
    exact ⟨v, ⟨List.mem_of_getElem? hv, hkey⟩, _, hu, List.mem_singleton_self u⟩
  · right
    rw [hu]
    simp [hv, hkey]

/-- Only here can a request be lost: it stays in a slot that no thread reads any more. -/
theorem Inserted.eraseQueue (h : s.Inserted T us) {k : UInt64} (hk : ¬ s.Unread k) :
    Inserted T us { s with slots := s.slots.eraseQueue k } := by
  have hT := h.type
  refine h.slots ?_ ?_ ?_ ?_
  · simp [CondQueues.eraseQueue]
  · intro n llu hm
    rwa [CondQueues.dataAt_eraseQueue] at hm
  · intro n llu hask hor hstored
    refine CondQueues.storedAt_eraseQueue hstored (fun hkey => ?_)
    rw [← hT] at hask
    exact hk ⟨llu, mem_slotUnits hkey hor, hask⟩
  · intro p
    exact CondQueues.count_eraseQueue

theorem Inserted.pushAll (h : s.Inserted T us) {u : LowlevelUnit} (hu : u.messageType ≠ T) :
    (s.pushAll u).Inserted T us := by
  have hs : Inserted T us { s with slots := s.slots.writeAll (.shared s.broadcasts.length) } := by
    refine h.slots (by simp [CondQueues.writeAll]) ?_ ?_ ?_
    · intro i llu hm
      rw [CondQueues.dataAt_writeAll, List.mem_append] at hm
      rcases hm with hm | hm
      · exact hm
      · split_ifs at hm <;> simp at hm
    · intro i llu _ _ hst
      rwa [CondQueues.storedAt_writeAll]
    · intro p
      exact CondQueues.count_writeAll rfl
  refine { hs with broadcasts := ?_ }
  intro v hv
  rcases List.mem_append.mp hv with hv | hv
  · exact h.broadcasts v hv
  · obtain rfl := List.mem_singleton.mp hv
    exact hu

theorem Inserted.drop {u : LowlevelUnit} (h : s.Inserted T (u :: us)) (hu : u.messageType ≠ T) :
    s.Inserted T us := by
  refine { h with conserved := ?_ }
  intro p hp
  have hpu : p u = false := by
    rw [Bool.eq_false_iff]
    exact fun hpu => hu (hp u hpu)
  have := h.conserved p hp
  simpa [List.countP_cons, hpu] using this

theorem Inserted.arrive (h : s.Inserted T us) (u : LowlevelUnit) :
    Inserted T (u :: us) { s with arrived := s.arrived ++ [u] } := by
  refine { h with conserved := ?_ }
  intro p hp
  have := h.conserved p hp
  simp only [placed, held, List.countP_append, List.countP_cons, List.countP_nil] at this ⊢
  omega

theorem Inserted.post {u : LowlevelUnit} (h : s.Inserted T (u :: us)) (counted : Bool) :
    (s.post u none counted).Inserted T us := by
  refine { h with executed := ?_, conserved := ?_, answered := ?_ }
  · intro l hl
    rcases List.mem_append.mp hl with hl | hl
    · exact h.executed l hl
    · obtain rfl := List.mem_singleton.mp hl
      exact ⟨fun _ => ⟨rfl, rfl, rfl⟩, fun _ ha => TrackedCall.single_post ha.2,
        fun hn => absurd rfl hn⟩
  · intro p hp
    have := h.conserved p hp
    simp only [placed, held, RpcEnd.post, List.map_append, List.map_cons, List.map_nil,
      List.sum_append, List.sum_singleton, Incoming.asked, true_and, List.countP_cons] at this ⊢
    omega
  · intro c
    have := h.answered c
    simp only [RpcEnd.post, List.map_append, List.map_cons, List.map_nil, List.sum_append,
      List.sum_singleton, Incoming.replies, sent_nil, List.length_nil, ite_self]
    exact this

theorem Inserted.post_shared (h : s.Inserted T us) {u : LowlevelUnit} (hu : u.messageType ≠ T)
    (b : ℕ) (counted : Bool) : (s.post u (some b) counted).Inserted T us := by
  refine { h with executed := ?_, conserved := ?_, answered := ?_ }
  · intro l hl
    rcases List.mem_append.mp hl with hl | hl
    · exact h.executed l hl
    · obtain rfl := List.mem_singleton.mp hl
      exact ⟨fun hn => (by cases hn), fun hn => (by cases hn), fun _ => hu⟩
  · intro p hp
    have := h.conserved p hp
    simp only [placed, held, RpcEnd.post, List.map_append, List.map_cons, List.map_nil,
      List.sum_append, List.sum_singleton, Incoming.asked] at this ⊢
    simpa using this
  · intro c
    have := h.answered c
    simp only [RpcEnd.post, List.map_append, List.map_cons, List.map_nil, List.sum_append,
      List.sum_singleton, Incoming.replies]
    simpa using this

theorem Inserted.turnAway {u : LowlevelUnit} (h : s.Inserted T (u :: us)) {rs : List LowlevelUnit}
    (hrs : ∀ c, u.isCallback T c = true →
      rs.countP (isCallback T c) = if u.opt.wait then 1 else 0)
    (hne : ∀ c, u.isCallback T c = false → rs.countP (isCallback T c) = 0) :
    Inserted T us { s with refused := s.refused ++ [u], sent := s.sent ++ rs } := by
  refine { h with conserved := ?_, answered := ?_ }
  · intro p hp
    have := h.conserved p hp
    simp only [placed, held, List.countP_append, List.countP_cons, List.countP_nil] at this ⊢
    omega
  · intro c
    have := h.answered c
    simp only [List.countP_append, List.countP_cons, List.countP_nil]
    cases hu : u.isCallback T c with
    | false => simpa [hne c hu] using this
    | true =>
        rw [hrs c hu]
        simp only [Bool.true_and]
        omega

theorem Inserted.take (h : s.Inserted T us) {hd : Held} (hr : s.reader = some hd) :
    Inserted T (hd.unit :: us) { s with reader := none } := by
  refine { h with push := ?_, refuse := ?_, conserved := ?_ }
  · intro i llu hn
    cases hn
  · intro llu hn
    cases hn
  · intro p hp
    have := h.conserved p hp
    simp only [placed, held, hr, Option.toList_some, Option.toList_none, List.map_cons,
      List.map_nil, List.countP_cons, List.countP_nil] at this ⊢
    omega

theorem Inserted.hold (hd : Held) (h : s.Inserted T (hd.unit :: us)) (hr : s.reader = none)
    (hpush : ∀ i llu, hd = .push i llu → i < s.slots.values.length ∧ (llu.messageType = T →
      llu.error.code = 0 ∧ (llu.opt.wait = true → s.slots.storedAt i = true)))
    (hrefuse : ∀ llu, hd = .refuse llu → llu.Asks T) :
    Inserted T us { s with reader := some hd } := by
  refine { h with push := ?_, refuse := ?_, conserved := ?_ }
  · intro i llu hs
    exact hpush i llu (Option.some.inj hs)
  · intro llu hs
    exact hrefuse llu (Option.some.inj hs)
  · intro p hp
    have := h.conserved p hp
    simp only [placed, held, hr, Option.toList_some, Option.toList_none, List.map_cons,
      List.map_nil, List.countP_cons, List.countP_nil] at this ⊢
    omega

theorem Inserted.pushed {u : LowlevelUnit} (h : s.Inserted T (u :: us)) {i : ℕ}
    (hi : i < s.slots.values.length)
    (hu : u.messageType = T →
      u.error.code = 0 ∧ (u.opt.wait = true → s.slots.storedAt i = true)) :
    Inserted T us { s with slots := s.slots.pushValueData i (.own u) } := by
  have heq : s.slots.pushValueData i (.own u) = s.slots.pushValues i [.own u] := rfl
  refine { h with push := ?_, queued := ?_, conserved := ?_ }
  · intro n llu hr
    obtain ⟨hn, hp⟩ := h.push n llu hr
    rw [heq]
    simp only [CondQueues.storedAt_pushValues]
    exact ⟨by simpa [CondQueues.pushValues] using hn, hp⟩
  · intro n llu hm ht
    rw [heq] at hm ⊢
    rw [CondQueues.dataAt_pushValues hi] at hm
    simp only [CondQueues.storedAt_pushValues]
    split_ifs at hm with hn
    · subst hn
      rcases List.mem_append.mp hm with hm | hm
      · exact h.queued n llu hm ht
      · simp only [List.mem_singleton, Entry.own.injEq] at hm
        subst hm
        exact hu ht
    · exact h.queued n llu hm ht
  · intro p hp
    have hc := h.conserved p hp
    have hcount := CondQueues.count_pushValueData (p := Entry.holds p) (v := .own u) hi
    rw [Entry.holds_own] at hcount
    simp only [placed, held, List.countP_cons] at hc ⊢
    omega

theorem Inserted.readEnd (h : s.Inserted T us) {i : ℕ} {v : HoldValue UInt64 Entry} {e : Entry}
    {es : List Entry} (hi : s.slots.values[i]? = some v) (hv : v.data = e :: es) :
    Inserted T (e.inHand ++ us)
      { s with slots := s.slots.readEnd i (.success e) } := by
  have hlen : (s.slots.readEnd i (.success e)).values.length = s.slots.values.length := by
    rw [CondQueues.readEnd_success, CondQueues.takeFront, CondQueues.updateAt_length]
  have hstored : ∀ n, (s.slots.readEnd i (.success e)).storedAt n = s.slots.storedAt n := by
    intro n
    rw [CondQueues.readEnd_success, CondQueues.storedAt_takeFront]
  refine { h with push := ?_, queued := ?_, conserved := ?_ }
  · intro n llu hr
    obtain ⟨hn, hp⟩ := h.push n llu hr
    simp only [hlen, hstored]
    exact ⟨hn, hp⟩
  · intro n llu hm ht
    simp only [hstored]
    refine h.queued n llu ?_ ht
    rw [CondQueues.readEnd_success, CondQueues.dataAt_takeFront] at hm
    split_ifs at hm
    · exact List.mem_of_mem_drop hm
    · exact hm
  · intro p hp
    have hc := h.conserved p hp
    have hr := CondQueues.count_readEnd (p := Entry.holds p) hi hv
    simp only [placed, held] at hc ⊢
    cases e with
    | own llu =>
        rw [Entry.holds_own] at hr
        simp only [Entry.inHand, List.countP_append, List.countP_cons, List.countP_nil]
        omega
    | shared b =>
        simp only [Entry.holds_shared, Bool.false_eq_true, if_false] at hr
        simp only [Entry.inHand, List.nil_append]
        omega

theorem Inserted.callDoes {u : LowlevelUnit} (h : s.Inserted T (u :: us))
    (hid : u.messageType = T → s.side = .client → u.id ≠ 0)
    (hready : u.messageType = T → s.side = .server → ¬ s.current + 1 ≤ opts.maxActiveCalls →
      u.opt.wait = true → s.ready = true) (hs : s.CallDoes opts u s') : s'.Inserted T us := by
  cases hs with
  | posted hside h0 => exact h.post false
  | event hside h0 =>
      have hu : u.messageType ≠ T := fun ht => hid ht hside h0
      exact (h.drop hu).pushAll hu
  | admitted hside hmax =>
      exact Inserted.post (s := { s with current := s.current + 1 }) { h with } true
  | busy hside hmax hbusy =>
      refine h.turnAway ?_ ?_
      · intro c hc
        have hb : (busyReply u).isCallback T c = true := hc
        cases hw : u.opt.wait <;> simp [busyReplies, hw, hb]
      · intro c hc
        have hb : (busyReply u).isCallback T c = false := hc
        cases hw : u.opt.wait <;> simp [busyReplies, hw, hb]
  | mute hside hmax hwait hmute =>
      -- such a unit is no callback request
      have hu : u.messageType ≠ T := by
        intro ht
        rw [hready ht hside hmax hwait] at hmute
        cases hmute
      have hturn : Inserted T us { s with refused := s.refused ++ [u], sent := s.sent ++ [] } := by
        refine h.turnAway (fun c hc => ?_) (fun c _ => rfl)
        exact absurd (isCallback_eq_true.mp hc).1 hu
      rw [List.append_nil] at hturn
      exact { hturn with }

theorem Inserted.receiveDoes (h : s.Inserted T []) {u : LowlevelUnit} (hr : s.reader = none)
    (hc : s.Answers opts (.receive u))
    (hs : { s with arrived := s.arrived ++ [u] }.ReceiveDoes opts u s') : s'.Inserted T [] := by
  have ha := h.arrive u
  have hT : s.side.other.callbackType = T := h.type
  cases hs with
  | called htype hcall =>
      have hdirect : u.messageType = T → u.messageType ≠ s.side.other.directType := by
        intro ht hd
        rw [hd, ← hT] at ht
        cases hside : s.side <;> rw [hside] at ht <;> cases ht
      refine ha.callDoes (fun ht hside => ?_) (fun ht hside hmax hwait => ?_) hcall
      · obtain ⟨hcallback, halone, _⟩ := htype.resolve_left (hdirect ht)
        exact (hc hcallback).2.1 hside halone
      · obtain ⟨hcallback, halone, hslot⟩ := htype.resolve_left (hdirect ht)
        exact (hc hcallback).2.2 ⟨hside, hslot, halone, hmax, hwait⟩
  | inserted i htype hi =>
      refine Inserted.hold (.push i u) ha hr ?_ (fun llu hn => (by cases hn))
      intro n llu hn
      cases hn
      obtain ⟨v, hi, hst, _⟩ := CondQueues.valueByKey_eq_some hi
      refine ⟨(List.getElem?_eq_some_iff.mp hi).1, fun _ => ⟨(hc htype).1, fun _ => ?_⟩⟩
      exact CondQueues.storedAt_eq_true.mpr ⟨v, hi, hst⟩
  | answered i htype hi =>
      refine Inserted.hold (.push i u) ha hr ?_ (fun llu hn => (by cases hn))
      intro n llu hn
      cases hn
      have hne : u.messageType ≠ T := by
        rw [← hT]
        rcases htype with ht | ht <;> rw [ht] <;> cases s.side <;> decide
      exact ⟨(CondQueues.keyAt_of_valueByKey hi).lt, fun ht => absurd ht hne⟩
  | noContext htype hwait =>
      refine Inserted.hold (.refuse u) ha hr (fun n llu hn => (by cases hn)) ?_
      intro llu hn
      cases hn
      exact ⟨htype.trans hT, hwait⟩
  | dropped htype hwait =>
      have hturn : Inserted T [] { s with
          arrived := s.arrived ++ [u], refused := s.refused ++ [u], sent := s.sent ++ [] } :=
        ha.turnAway (by simp [hwait]) (by simp)
      simpa using hturn
  | ignored htype => exact ha.drop (fun ht => htype (ht.trans hT.symm))

theorem Inserted.proceed (h : s.Inserted T []) {hd : Held} (hr : s.reader = some hd)
    (hc : s.Answers opts .proceed) : (s.proceed hd).Inserted T [] := by
  have ht := h.take hr
  cases hd with
  | push i u =>
      obtain ⟨hi, hu⟩ := h.push i u hr
      exact ht.pushed hi hu
  | refuse u =>
      have hask := h.refuse u hr
      have hready := hc _ hr rfl
      refine ht.turnAway ?_ ?_
      · intro c hcb
        have hctx : (contextError u).isCallback T c = true := hcb
        rw [show (Held.refuse u).unit.opt.wait = true from hask.2]
        simp [hready, hctx]
      · intro c hcb
        have hctx : (contextError u).isCallback T c = false := hcb
        simp [hready, hctx]

/-! ### Local calls -/

theorem Inserted.settle (h : s.Inserted T []) {j : ℕ} {l l' : Incoming} {effs : List CallEffect}
    (hj : s.incoming[j]? = some l) (hshared : l'.shared = l.shared) (hreq : l'.req = l.req)
    (hexec : l'.Executed T)
    (hlog : CallEffect.sent l'.tracked.log = CallEffect.sent l.tracked.log ++ CallEffect.sent effs)
    (hown : l.shared = none → ∀ u ∈ CallEffect.sent effs, LocalCall.SameUnit u l.req)
    (hforeign : l.shared ≠ none → ∀ u ∈ CallEffect.sent effs, u.messageType ≠ T) :
    (s.settle j l' effs).Inserted T [] := by
  refine { h with broadcasts := ?_, executed := ?_, conserved := ?_, answered := ?_ }
  · intro u hu
    unfold RpcEnd.settle at hu
    dsimp only at hu
    cases hs : l'.shared with
    | none =>
        rw [hs] at hu
        exact h.broadcasts u hu
    | some b =>
        rw [hs] at hu
        rcases List.mem_or_eq_of_mem_set hu with hu | rfl
        · exact h.broadcasts u hu
        · exact hexec.foreign (by simp [hs])
  · intro x hx
    rcases List.mem_or_eq_of_mem_set hx with hx | rfl
    · exact h.executed x hx
    · exact hexec
  · intro p hp
    have hc := h.conserved p hp
    have hsum := CondQueues.sum_map_set (Incoming.asked p) l' hj
    have hsame : Incoming.asked p l' = Incoming.asked p l := by
      unfold Incoming.asked
      rw [hshared, hreq]
    simp only [placed, held, RpcEnd.settle] at hc ⊢
    omega
  · intro c
    have ha := h.answered c
    have hsum := CondQueues.sum_map_set (Incoming.replies (isCallback T c)) l' hj
    have hdiff := Incoming.replies_append c hshared hreq hlog hown hforeign
    simp only [RpcEnd.settle, List.countP_append]
    omega

theorem Inserted.refresh_foreign (h : s.Inserted T us) {l : Incoming} (hl : l ∈ s.incoming)
    (hs : l.shared ≠ none) : (s.refresh l).call.llu.messageType ≠ T := by
  unfold RpcEnd.refresh
  cases hb : l.shared.bind (s.broadcasts[·]?) with
  | none => exact (h.executed l hl).foreign hs
  | some u =>
      obtain ⟨b, _, hu⟩ := Option.bind_eq_some_iff.mp hb
      exact h.broadcasts u (List.mem_of_getElem? hu)

theorem Inserted.served (h : s.Inserted T []) {j : ℕ} {l : Incoming} {e : CallEvent}
    {c : LocalCall} {effs : List CallEffect} (hj : s.incoming[j]? = some l)
    (hc : s.Answers opts (.served j e)) (hr : (s.refresh l).call.step opts e = some (c, effs)) :
    Inserted T []
      (s.settle j { l with tracked := ⟨c, (s.refresh l).log ++ effs⟩ } effs) := by
  have hl := List.mem_of_getElem? hj
  have hexec := h.executed l hl
  obtain ⟨hsame, hsent⟩ := LocalCall.sameUnit_step hr
  refine h.settle hj rfl rfl ⟨?_, ?_, ?_⟩ ?_ ?_ ?_
  · intro hn
    rw [refresh_own (l := l) s hn] at hsame
    exact hsame.trans (hexec.own hn)
  · intro hn hask
    rw [refresh_own (l := l) s hn] at hr ⊢
    exact (hexec.single hn hask).step (hc l hj hn (by rwa [h.type])) hr
  · intro hn
    rw [hsame.messageType]
    exact h.refresh_foreign hl hn
  · rw [sent_append, refresh_log]
  · intro hn u hu
    have := hsent u hu
    rw [refresh_own (l := l) s hn] at this
    exact this.trans (hexec.own hn)
  · intro hn u hu
    rw [(hsent u hu).messageType]
    exact h.refresh_foreign hl hn

theorem Inserted.unsent (h : s.Inserted T []) {j : ℕ} {l : Incoming} {ex : Thrown}
    (hj : s.incoming[j]? = some l) (hc : s.Answers opts (.unsent j ex)) {c : LocalCall}
    (heq : c = unsentCall (s.refresh l).call ex) :
    Inserted T [] (s.settle j
      { l with threw := true, tracked := ⟨c, (s.refresh l).log ++ c.release⟩ } c.release) := by
  subst heq
  have hl := List.mem_of_getElem? hj
  have hexec := h.executed l hl
  refine h.settle hj rfl rfl ⟨?_, ?_, ?_⟩ ?_ ?_ ?_
  · intro hn
    have := hexec.own hn
    rw [← refresh_own (l := l) s hn] at this
    exact ⟨this.id, this.messageType, this.opt⟩
  · intro hn hask
    exact absurd (by rwa [h.type]) (hc l hj hn)
  · exact h.refresh_foreign hl
  · rw [sent_append, refresh_log]
  · intro _ u hu
    rw [LocalCall.sent_release] at hu
    cases hu
  · intro _ u hu
    rw [LocalCall.sent_release] at hu
    cases hu

/-! ### Outgoing calls -/

theorem Inserted.type_getD (h : s.Inserted T us) (b : ℕ) :
    (s.broadcasts.getD b {}).messageType ≠ T := by
  rw [List.getD_eq_getElem?_getD]
  cases hb : s.broadcasts[b]? with
  | none => exact h.ne_none
  | some u => exact h.broadcasts u (List.mem_of_getElem? hb)

theorem Inserted.consume (h : s.Inserted T []) {k i : ℕ} {c : Outgoing} {timedOut : Bool}
    {v : HoldValue UInt64 Entry} {r : ReadResult Entry} (hk : s.calls[k]? = some c)
    (hi : s.slots.values[i]? = some v) (hr : CondQueues.readResult v timedOut = some r)
    (cbThrows : Bool) :
    ({ s with slots := s.slots.readEnd i r }.consume k c r cbThrows).Inserted T [] := by
  have hctype := h.calls c (List.mem_of_getElem? hk)
  cases r with
  | canceled => exact h.setStage hk _
  | timeout => exact h.setStage hk _
  | success e =>
      obtain ⟨es, hv⟩ := CondQueues.readResult_success hr
      have hread := h.readEnd hi hv
      cases e with
      | shared b =>
          rcases consume_cases { s with slots := s.slots.readEnd i (.success (.shared b)) } k c
            (.success (.shared b)) cbThrows with ⟨_, heq⟩ | ⟨_, _, heq⟩ | ⟨_, _, heq⟩
          · rw [heq]
            exact Inserted.setStage hread hk _
          · rw [heq]
            exact (Inserted.setStage hread hk _).post_shared (h.type_getD b) b false
          · rw [heq]
            exact Inserted.setStage hread hk _
      | own u =>
          have hcode : u.messageType = T → u.error.code = 0 := fun ht =>
            (h.queued i u (by rw [CondQueues.dataAt, hi, Option.elim_some, hv]; simp) ht).1
          rcases consume_cases { s with slots := s.slots.readEnd i (.success (.own u)) } k c
            (.success (.own u)) cbThrows with ⟨he, heq⟩ | ⟨_, _, heq⟩ | ⟨_, ht, heq⟩
          · rw [heq]
            exact Inserted.setStage (Inserted.drop hread (fun ht => he (hcode ht))) hk _
          · rw [heq]
            exact Inserted.post (Inserted.setStage hread hk _) false
          · rw [heq]
            exact Inserted.setStage (Inserted.drop hread (fun h' => hctype (ht.symm.trans h'))) hk _

theorem Inserted.startCall (h : s.Inserted T us) {ch : RpcChannel} {cc : Option LowlevelUnit}
    {m : MethodCall} (hd : ch.directType = s.side.directType)
    (hcb : ch.callbackType = s.side.callbackType) : (s.startCall ch cc m).Inserted T us := by
  refine { h with calls := ?_ }
  intro c hc
  rcases List.mem_append.mp hc with hc | hc
  · exact h.calls c hc
  · obtain rfl := List.mem_singleton.mp hc
    cases hu : ch.configure cc (nextIndex s.index) m with
    | none => exact h.ne_none
    | some u =>
        dsimp only
        rcases RpcChannel.configure_type hu with ht | ht | ht
        · rw [ht, hd, ← h.type, insertionType]
          cases s.side <;> decide
        · rw [ht, hcb, ← h.type, insertionType]
          cases s.side <;> decide
        · rw [ht]
          exact h.ne_none

theorem Inserted.outStep (h : s.Inserted T []) {k : ℕ} {c : Outgoing} {e : OutEvent}
    (hk : s.calls[k]? = some c) (hc : s.Answers opts (.out k e)) (hs : s.OutDoes k c e s') :
    s'.Inserted T [] := by
  have hctype := h.calls c (List.mem_of_getElem? hk)
  cases hs with
  | moved st hslot hreading hresult => exact h.setStage hk st
  | wrote st hslot hreading hresult => exact (h.write hctype).setStage hk st
  | added hstage => exact (h.addQueue c.llu.id).setStage hk _
  | began i hstage hi => exact (h.readBegin i).setStage hk _
  | woken i timedOut cbThrows v r hstage hi hr => exact h.consume hk hi hr cbThrows
  | erased slot r hstage => exact (h.eraseQueue (hc c hk)).setStage hk _

theorem Inserted.step (h : s.Inserted T []) {e : RpcEvent} (hc : s.Answers opts e)
    (hs : s.step opts e = some s') : s'.Inserted T [] := by
  cases does_of_step hs with
  | started ch cc m hdirect hcallback => exact h.startCall hdirect hcallback
  | out hk hdoes => exact h.outStep hk hc hdoes
  | served hj hstep => exact h.served hj hc hstep
  | unsent ex hj hstack hwait heq => exact h.unsent hj hc heq
  | received u hreader hdoes => exact h.receiveDoes hreader hc hdoes
  | proceeded hd hreader => exact h.proceed hreader hc
  | failed code add => exact Inserted.pushAll (s := { s with ready := false }) { h with } h.ne_none
  | bad hside => exact h.pushAll h.ne_none
  | canceled => exact h.cancelAll

/-! ### Runs -/

/-- A request with the id `c` is still held, in a slot of the map, or executed. -/
def UnderWay (s : RpcEnd) (c : UInt64) : Prop :=
  (∃ u ∈ s.held, u.isCallback s.insertionType c = true) ∨
  (∃ h ∈ s.slots.values, h.stored = true ∧
    ∃ e ∈ h.data, e.holds (isCallback s.insertionType c) = true) ∨
  ∃ l ∈ s.incoming, l.shared = none ∧ l.req.isCallback s.insertionType c = true ∧
    ¬ l.tracked.call.Over

instance (s : RpcEnd) (c : UInt64) : Decidable (s.UnderWay c) :=
  inferInstanceAs (Decidable (_ ∨ _ ∨ _))

theorem sum_asked_eq_zero {p : LowlevelUnit → Bool} {ls : List Incoming} :
    (ls.map (Incoming.asked p)).sum = 0 ↔
      ∀ l ∈ ls, l.shared = none → p l.req = false := by
  simp only [List.sum_eq_zero_iff_forall_eq_nat, List.mem_map, forall_exists_index, and_imp,
    forall_apply_eq_imp_iff₂, Incoming.asked, ite_eq_right_iff, Nat.one_ne_zero, imp_false, not_and,
    Bool.not_eq_true]

/-- The sender of every request with the id `c` waits, wherever the request is. -/
structure Awaited (s : RpcEnd) (c : UInt64) : Prop where
  queued : ∀ i u, .own u ∈ s.slots.dataAt i → u.isCallback s.insertionType c = true →
    u.opt.wait = true
  executed : ∀ l ∈ s.incoming, l.shared = none → l.req.isCallback s.insertionType c = true →
    l.req.opt.wait = true
  refused : ∀ u ∈ s.refused, u.isCallback s.insertionType c = true → u.opt.wait = true

theorem Inserted.awaited (h : s.Inserted T []) {c : UInt64}
    (hw : ∀ u ∈ s.arrived, u.isCallback s.insertionType c = true → u.opt.wait = true) :
    s.Awaited c := by
  have hc := h.conserved (fun u => u.isCallback T c && !u.opt.wait) (by
    intro u hu
    rw [Bool.and_eq_true] at hu
    exact (isCallback_eq_true.mp hu.1).1)
  rw [h.type] at hw
  have hzero : s.arrived.countP (fun u => u.isCallback T c && !u.opt.wait) = 0 := by
    rw [List.countP_eq_zero]
    intro u hu hp
    rw [Bool.and_eq_true] at hp
    simp [hw u hu hp.1] at hp
  rw [hzero] at hc
  obtain ⟨⟨⟨_, hslots⟩, hcalls⟩, hrefused⟩ : ((_ = 0 ∧ _ = 0) ∧ _ = 0) ∧ _ = 0 := by
    simpa only [placed, List.countP_nil, Nat.add_zero, Nat.add_eq_zero_iff] using hc.symm
  refine ⟨?_, ?_, ?_⟩
  · intro i u hm hu
    rw [h.type] at hu
    have := CondQueues.count_eq_zero.mp hslots i _ hm
    simpa [Entry.holds, hu] using this
  · intro l hl hn hu
    rw [h.type] at hu
    simpa [hu] using sum_asked_eq_zero.mp hcalls l hl hn
  · intro u hm hu
    rw [h.type] at hu
    simpa [hu] using List.countP_eq_zero.mp hrefused u hm

/-- A local call whose sender waits has one answer at most, and one when it is over. -/
theorem Inserted.replies_le (h : s.Inserted T []) {c : UInt64} (ha : s.Awaited c) {l : Incoming}
    (hl : l ∈ s.incoming) :
    l.replies (isCallback T c) ≤ l.asked (isCallback T c) ∧
      (l.tracked.call.Over → l.replies (isCallback T c) = l.asked (isCallback T c)) := by
  unfold Incoming.replies Incoming.asked
  by_cases hc : l.shared = none ∧ l.req.isCallback T c = true
  · rw [if_pos hc, if_pos hc]
    have hwait := ha.executed l hl hc.1 (by rw [h.type]; exact hc.2)
    have hsingle := (h.executed l hl).single hc.1 ⟨(isCallback_eq_true.mp hc.2).1, hwait⟩
    exact ⟨hsingle.le, hsingle.over⟩
  · rw [if_neg hc, if_neg hc]
    exact ⟨le_rfl, fun _ => rfl⟩

theorem Inserted.answers (h : s.Inserted T []) {c : UInt64} (ha : s.Awaited c) :
    s.sent.countP (isCallback T c) =
      (s.incoming.map (Incoming.replies (isCallback T c))).sum +
        s.refused.countP (isCallback T c) := by
  rw [h.answered c]
  congr 1
  apply List.countP_congr
  intro u hu
  rw [Bool.and_eq_true]
  refine ⟨fun hb => hb.1, fun hb => ⟨hb, ha.refused u hu ?_⟩⟩
  rwa [h.type]

/-- Nothing is held and nothing lies in a slot unless it is under way. -/
theorem Inserted.settled (h : s.Inserted T []) {c : UInt64} (ha : s.Awaited c)
    (hn : ¬ s.UnderWay c) :
    s.held.countP (isCallback T c) = 0 ∧ s.slots.count (Entry.holds (isCallback T c)) = 0 := by
  unfold UnderWay at hn
  rw [h.type] at hn
  push Not at hn
  obtain ⟨hheld, hslots, _⟩ := hn
  refine ⟨List.countP_eq_zero.mpr hheld, CondQueues.count_eq_zero.mpr ?_⟩
  intro i e he
  cases e with
  | shared b => rfl
  | own u =>
      rw [Entry.holds_own, Bool.eq_false_iff]
      intro hu
      have hwait := ha.queued i u he (by rw [h.type]; exact hu)
      have hstored := (h.queued i u he (isCallback_eq_true.mp hu).1).2 hwait
      obtain ⟨v, hv, hst⟩ := CondQueues.storedAt_eq_true.mp hstored
      rw [CondQueues.dataAt, hv] at he
      exact hslots v (List.mem_of_getElem? hv) hst (.own u) he hu

theorem Inserted.counts (h : s.Inserted T []) {c : UInt64} (ha : s.Awaited c) :
    s.sent.countP (isCallback T c) ≤ s.arrived.countP (isCallback T c) ∧
      (¬ s.UnderWay c →
        s.sent.countP (isCallback T c) = s.arrived.countP (isCallback T c) ∧
        s.arrived.countP (isCallback T c) =
          (s.incoming.map (Incoming.asked (isCallback T c))).sum +
            s.refused.countP (isCallback T c)) := by
  have hc := h.conserved (isCallback T c) (fun u hu => (isCallback_eq_true.mp hu).1)
  rw [placed, List.countP_nil] at hc
  rw [h.answers ha]
  refine ⟨?_, ?_⟩
  · have := List.sum_le_sum (fun l hl => (h.replies_le ha hl).1)
    omega
  · intro hn
    obtain ⟨hheld, hslots⟩ := h.settled ha hn
    have hsum : s.incoming.map (Incoming.replies (isCallback T c)) =
        s.incoming.map (Incoming.asked (isCallback T c)) := by
      apply List.map_congr_left
      intro l hl
      by_cases hover : l.tracked.call.Over
      · exact (h.replies_le ha hl).2 hover
      · unfold Incoming.replies Incoming.asked
        have hnot : ¬ (l.shared = none ∧ l.req.isCallback T c = true) := by
          rintro ⟨hsh, hcb⟩
          refine hn (.inr (.inr ⟨l, hl, hsh, ?_, hover⟩))
          rwa [h.type]
        rw [if_neg hnot, if_neg hnot]
    rw [hsum]
    omega

end RpcEnd

/-- An end of a connection. -/
def rpcMachine (opts : SessionOptions) (side : Side) : Machine RpcEnd RpcEvent where
  init := .initial side
  step := RpcEnd.step opts

/-- **No callback request is swallowed**, in every run in which no slot is erased with a waiting
request unread, the handlers of such requests answer once and the connection is up: there are never
more answers than requests with an id, and when none of them is under way there are as many, and
each request was executed or turned away. -/
theorem callback_answered_once {opts : SessionOptions} {side : Side} {es : List RpcEvent}
    {s : RpcEnd} (hrun : (rpcMachine opts side).run es = some s)
    (hes : (rpcMachine opts side).Meets (RpcEnd.Answers opts) (rpcMachine opts side).init es)
    (c : UInt64)
    (hwait : ∀ u ∈ s.arrived, u.isCallback s.insertionType c = true → u.opt.wait = true) :
    s.sent.countP (isCallback s.insertionType c) ≤ s.arrived.countP (isCallback s.insertionType c) ∧
      (¬ s.UnderWay c →
        s.sent.countP (isCallback s.insertionType c) =
          s.arrived.countP (isCallback s.insertionType c) ∧
        s.arrived.countP (isCallback s.insertionType c) =
          (s.incoming.map (Incoming.asked (isCallback s.insertionType c))).sum +
            s.refused.countP (isCallback s.insertionType c)) := by
  have hinv : s.Inserted side.other.callbackType [] := by
    refine (rpcMachine opts side).inv_of_meets (C := RpcEnd.Answers opts)
      (I := RpcEnd.Inserted side.other.callbackType []) ?_ (RpcEnd.inserted_initial side) hes hrun
    intro s e s' hs he hst
    exact hs.step he hst
  rw [hinv.type]
  exact hinv.counts (hinv.awaited hwait)

/-- A callback into the call 103 is read, executed and answered, and the call returns. -/
theorem callback_inserted_and_answered :
    let direct : RpcChannel := .create .client {} none
    let m : MethodCall := ⟨"s", "m", none, true, true, true⟩
    let request : LowlevelUnit :=
      { id := 102, targetId := 103, messageType := .serverCallback, opt := { wait := true } }
    let reply : LowlevelUnit := { id := 103, messageType := .clientCall }
    let es : List RpcEvent := [.start direct none m, .out 0 (.enter true), .out 0 .test,
      .out 0 .add, .out 0 (.write true), .out 0 .read, .receive request, .proceed,
      .out 0 (.wake false false), .served 0 (.start 1 (fun _ => .ok (some (fun _ => true)))),
      .served 0 (.runDone false true), .served 0 (.leave none), .out 0 .resume, .out 0 .read,
      .receive reply, .proceed, .out 0 (.wake false false), .out 0 .erase]
    ∃ s, (rpcMachine .defaults .client).run es = some s ∧ ¬ s.UnderWay 102 ∧
      s.arrived.countP (isCallback s.insertionType 102) = 1 ∧
      s.sent.countP (isCallback s.insertionType 102) = 1 := by
  intro direct m request reply es
  obtain ⟨s, hs, hn, hone, hwait⟩ := (rpcMachine .defaults .client).exists_run es
    (fun s => ¬ s.UnderWay 102 ∧ s.arrived.countP (isCallback s.insertionType 102) = 1 ∧
      ∀ u ∈ s.arrived, u.isCallback s.insertionType 102 = true → u.opt.wait = true)
    (by decide +kernel)
  obtain ⟨heq, _⟩ := (callback_answered_once hs (by decide +kernel) 102 hwait).2 hn
  exact ⟨s, hs, hn, hone, heq.trans hone⟩

/-- The reply is in the slot before the callback: the call returns with the reply and erases its
slot, and the callback in it is neither executed nor refused. -/
theorem callback_after_reply_lost :
    let direct : RpcChannel := .create .client {} none
    let m : MethodCall := ⟨"s", "m", none, true, true, true⟩
    let request : LowlevelUnit :=
      { id := 102, targetId := 103, messageType := .serverCallback, opt := { wait := true } }
    let reply : LowlevelUnit := { id := 103, messageType := .clientCall }
    let es : List RpcEvent := [.start direct none m, .out 0 (.enter true), .out 0 .test,
      .out 0 .add, .out 0 (.write true), .out 0 .read, .receive reply, .proceed,
      .receive request, .proceed, .out 0 (.wake false false), .out 0 .erase]
    ∃ s, (rpcMachine .defaults .client).run es = some s ∧ s.ready = true ∧ ¬ s.UnderWay 102 ∧
      s.arrived.countP (isCallback s.insertionType 102) = 1 ∧
      s.sent.countP (isCallback s.insertionType 102) = 0 ∧ s.refused = [] ∧ s.incoming = [] ∧
      ¬ s.sent.countP (isCallback s.insertionType 102) = 1 := by
  intro direct m request reply es
  exact ⟨_, rfl, by decide, by decide, by decide, by decide, by decide, rfl, by decide⟩

end Vtrc
