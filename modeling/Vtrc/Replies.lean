import Vtrc.RpcEnd

/-! # Replies reach the calls they answer

Two ends of a connection, each an `RpcEnd`, with a reliable link in both directions: what an end has
received is a prefix of what the other has written.

A reply is found by its id.  It goes into the slot of that id; the call that reads the slot takes it
for its reply when the type is that of the request, and for a callback to be executed otherwise.

* `Traced` is what holds at one end in every run: where the units in its slots come from, which
  units it executes, and what its writes are (requests of its own calls, answers of its local calls,
  errors, and answers to units that were pushed to all slots).  Every statement of it is about one
  end, so that a step of one end leaves that of the other alone.
* `Link.Inv.reply` combines the two ends: a reply without an error was written by a local call that
  the other end has made from the request of a call with this id.
* `replies_reach_their_calls` is the result.  It needs that no unit without an error is pushed to
  the slot of a call that has no type; `reply_without_handler` is a run in which that happens. -/

namespace Vtrc

open CallEffect

/-! ### What a handler answers -/

namespace LocalCall

/-- The event raises no exception with the code zero. -/
def FailsNonzero (c : LocalCall) : CallEvent → Prop
  | .start _ services =>
      match services c.llu.serviceId with
      | .error ex => ex.code ≠ 0
      | .ok _ => True
  | .leave (some ex) => ex.code ≠ 0
  | _ => True

instance (c : LocalCall) : (e : CallEvent) → Decidable (c.FailsNonzero e)
  | .start _ services =>
      match h : services c.llu.serviceId with
      | .error ex => decidable_of_iff (ex.code ≠ 0) (by simp [FailsNonzero, h])
      | .ok _ => isTrue (by simp [FailsNonzero, h])
  | .leave (some _) => inferInstanceAs (Decidable (_ ≠ _))
  | .leave none | .respond _ | .setFailed _ | .startCancel | .runDone _ _ =>
      inferInstanceAs (Decidable True)

theorem resolve_code {opts : SessionOptions} {depth : ℕ} {services : Services} {c : LocalCall}
    {ex : Thrown} (hc : c.FailsNonzero (.start depth services))
    (h : resolve opts depth services c.llu = .error ex) : ex.code ≠ 0 := by
  unfold resolve at h
  simp only [FailsNonzero] at hc
  split_ifs at h
  · cases h
    decide
  · cases hs : services c.llu.serviceId with
    | error ex' =>
        rw [hs] at h hc
        cases h
        exact hc
    | ok o =>
        rw [hs] at h
        cases o with
        | none =>
            cases h
            decide
        | some getMethod =>
            simp only at h
            split_ifs at h
            cases h
            decide

theorem closureDone_response {hold : ClosureHolder} {llu : LowlevelUnit}
    (hcode : (closureDone hold llu).error.code = 0) (ha : llu.opt.acceptResponse = true) :
    (closureDone hold llu).response = hold.res := by
  simp only [closureDone, ha, if_true] at hcode ⊢
  cases hc : hold.canceled with
  | true =>
      simp only [hc, if_true] at hcode
      cases hcode
  | false =>
      cases hf : hold.failed with
      | true =>
          simp only [hc, hf, if_true, Bool.false_eq_true, if_false] at hcode
          cases hcode
      | false => rfl

theorem answer_response {c : LocalCall} {u : LowlevelUnit} (hu : u ∈ sent c.answer.2)
    (hcode : u.error.code = 0) (ha : u.opt.acceptResponse = true) : u.response = c.hold.res := by
  simp only [answer, sent_cons_send, sent_nil, List.mem_singleton] at hu
  subst hu
  rw [closureDone_opt] at ha
  exact closureDone_response hcode ha

theorem closureRunner_response {c : LocalCall} {uncaught context : Bool} {u : LowlevelUnit}
    (hu : u ∈ sent (c.closureRunner uncaught context).2) (hcode : u.error.code = 0)
    (ha : u.opt.acceptResponse = true) :
    u.response = (c.closureRunner uncaught context).1.hold.res := by
  cases uncaught with
  | false =>
      exact answer_response (c := { c with hold := { c.hold with protoClosure := false } })
        hu hcode ha
  | true =>
      cases context with
      | false =>
          exact answer_response (c := { c with hold :=
            { c.hold with
              protoClosure := false, failed := true
              errorText := "Uncaught exception while running closure" } }) hu hcode ha
      | true => cases hu

theorem finish_hold (c : LocalCall) (thrown : Option Thrown) :
    (c.finish thrown).1.hold.res = c.hold.res ∧
      (c.finish thrown).1.hold.protoClosure = c.hold.protoClosure := by
  cases thrown with
  | none => exact ⟨rfl, rfl⟩
  | some ex =>
      simp only [finish]
      split_ifs <;> exact ⟨rfl, rfl⟩

theorem finish_code {c : LocalCall} {thrown : Option Thrown} {u : LowlevelUnit}
    (hu : u ∈ sent (c.finish thrown).2) : ∃ ex, thrown = some ex ∧ u.error.code = ex.code := by
  cases thrown with
  | none => simp [finish] at hu
  | some ex =>
      refine ⟨ex, rfl, ?_⟩
      simp only [finish] at hu
      split_ifs at hu
      · simp only [sent_append, sent_cons_send, sent_cons_done, sent_nil, sent_release,
          List.append_nil, List.mem_singleton] at hu
        rw [hu]
      · simp at hu

end LocalCall

namespace TrackedCall

/-- What the call has answered without an error is the response of its handler, which can no longer
change. -/
structure Faithful (t : TrackedCall) : Prop where
  posted : t.call.phase = .posted → sent t.log = [] ∧ t.call.hold.protoClosure = false
  answer : ∀ u ∈ sent t.log, u.error.code = 0 → t.call.hold.protoClosure = false ∧
    (u.opt.acceptResponse = true → u.response = t.call.hold.res)

theorem faithful_post (llu : LowlevelUnit) : Faithful ⟨.post llu, []⟩ :=
  ⟨fun _ => ⟨rfl, rfl⟩, fun u hu => (by cases hu)⟩

/-- While the closure has not been run there is no answer without an error. -/
theorem Faithful.open {t : TrackedCall} (h : t.Faithful) (ho : t.call.hold.protoClosure = true)
    {u : LowlevelUnit} (hu : u ∈ sent t.log) : u.error.code ≠ 0 := by
  intro hcode
  have := (h.answer u hu hcode).1
  rw [ho] at this
  cases this

theorem Faithful.finish {t : TrackedCall} (h : t.Faithful) {thrown : Option Thrown}
    (hc : ∀ ex, thrown = some ex → ex.code ≠ 0) :
    Faithful ⟨(t.call.finish thrown).1, t.log ++ (t.call.finish thrown).2⟩ := by
  obtain ⟨hres, hproto⟩ := t.call.finish_hold thrown
  refine ⟨?_, ?_⟩
  · intro hp
    exfalso
    cases thrown with
    | none => cases hp
    | some ex =>
        rw [(t.call.finish_some_spec ex).1] at hp
        cases hp
  · intro u hu hcode
    rw [sent_append, List.mem_append] at hu
    rcases hu with hu | hu
    · simp only [hres, hproto]
      exact h.answer u hu hcode
    · obtain ⟨ex, hex, hcd⟩ := LocalCall.finish_code hu
      exact absurd (hcd.symm.trans hcode) (hc ex hex)

theorem Faithful.step {opts : SessionOptions} {t : TrackedCall} {e : CallEvent} (h : t.Faithful)
    (hc : t.call.FailsNonzero e) {r : LocalCall × List CallEffect}
    (hs : t.call.step opts e = some r) : Faithful ⟨r.1, t.log ++ r.2⟩ := by
  obtain ⟨c', effs⟩ := r
  rcases LocalCall.step_cases hs with ⟨depth, services, ex, rfl, hp, hres, rfl, rfl⟩ |
    ⟨depth, services, rfl, hp, hres, rfl, rfl⟩ |
    ⟨he, rfl, hproto, hph, hllu, hconn, hproto', hint⟩ |
    ⟨uncaught, context, rfl, hproto, rfl, rfl⟩ | ⟨thrown, rfl, hrun, rfl, rfl⟩
  · refine h.finish (fun ex' hex => ?_)
    cases hex
    exact LocalCall.resolve_code hc hres
  · refine ⟨fun hp' => (by cases hp'), ?_⟩
    intro u hu
    rw [List.append_nil, (h.posted hp).1] at hu
    cases hu
  · refine ⟨?_, ?_⟩
    · intro hp
      have := (h.posted (hph.symm.trans hp)).2
      rw [hproto] at this
      cases this
    · intro u hu hcode
      rw [List.append_nil] at hu
      exact absurd hcode (h.open hproto hu)
  · obtain ⟨hph, _, _, hgone, _⟩ := t.call.closureRunner_spec uncaught context
    have hlast : sent (if t.call.onStack then []
        else (t.call.closureRunner uncaught context).1.callInternal) = [] := by
      split_ifs <;> simp
    refine ⟨?_, ?_⟩
    · intro hp
      have := (h.posted (hph.symm.trans hp)).2
      rw [hproto] at this
      cases this
    · intro u hu hcode
      rw [sent_append, sent_append, hlast, List.append_nil, List.mem_append] at hu
      rcases hu with hu | hu
      · exact absurd hcode (h.open hproto hu)
      · exact ⟨hgone, LocalCall.closureRunner_response hu hcode⟩
  · refine h.finish (fun ex hex => ?_)
    subst hex
    exact hc

end TrackedCall

/-! ### Types of units -/

namespace LowlevelUnit

/-- A request of `side`, or the reply to one. -/
def OfSide (side : Side) (u : LowlevelUnit) : Prop :=
  u.messageType = side.directType ∨ u.messageType = side.callbackType

/-- A unit that `side` may push to all its slots, or an answer to one: it is no reply. -/
def Foreign (side : Side) (u : LowlevelUnit) : Prop :=
  u.messageType = .none ∨ (u.OfSide side.other ∧ u.id = 0)

variable {side : Side} {u v : LowlevelUnit}

theorem OfSide.not_other (h : u.OfSide side) : ¬ u.OfSide side.other := by
  unfold OfSide at h ⊢
  cases side <;> rcases h with h | h <;> rw [h] <;> decide

theorem OfSide.ne_none (h : u.OfSide side) : u.messageType ≠ .none := by
  unfold OfSide at h
  cases side <;> rcases h with h | h <;> rw [h] <;> decide

theorem OfSide.congr (h : u.OfSide side) (ht : v.messageType = u.messageType) : v.OfSide side := by
  unfold OfSide
  rw [ht]
  exact h

theorem Foreign.congr (h : u.Foreign side) (hs : LocalCall.SameUnit v u) : v.Foreign side := by
  rcases h with h | ⟨h, h0⟩
  · exact .inl (hs.messageType.trans h)
  · exact .inr ⟨h.congr hs.messageType, hs.id.trans h0⟩

theorem OfSide.not_foreign (h : u.OfSide side) : ¬ u.Foreign side := by
  rintro (hn | ⟨ho, _⟩)
  · exact h.ne_none hn
  · exact h.not_other ho

end LowlevelUnit

open LowlevelUnit

namespace RpcEnd

/-- The id of the call number `k` of a side. -/
def idAt (side : Side) (k : ℕ) : UInt64 := UInt64.ofNat (side.firstIndex.toNat + 2 * (k + 1))

theorem idAt_inj {side : Side} {j k : ℕ} (hj : j < 2 ^ 63) (hk : k < 2 ^ 63)
    (h : idAt side j = idAt side k) : j = k := by
  have := congrArg UInt64.toNat h
  simp only [idAt, UInt64.toNat_ofNat'] at this
  omega

theorem nextIndex_idAt (side : Side) (n : ℕ) :
    nextIndex (UInt64.ofNat (side.firstIndex.toNat + 2 * n)) = idAt side n := by
  unfold nextIndex idAt
  rw [show (2 : UInt64) = UInt64.ofNat 2 from rfl, ← UInt64.ofNat_add]
  congr 1

/-! ### What holds at one end -/

/-- A unit in the slot number `i`: a reply with the id of the slot, or a callback request. -/
def Placed (s : RpcEnd) (i : ℕ) (u : LowlevelUnit) : Prop :=
  u ∈ s.arrived ∧ (u.OfSide s.side ∧ s.slots.KeyAt i u.id ∨
    u.messageType = s.side.other.callbackType)

/-- A call has returned with the unit `top`. -/
def Returned (s : RpcEnd) (c : Outgoing) (top : LowlevelUnit) : Prop :=
  top ∈ s.arrived ∧ top.OfSide s.side ∧ top.id = c.llu.id ∧
    top.messageType = c.llu.messageType ∧ top.error.code = 0

/-- What an end writes: a request, the answer of a local call, an error in reply to a request of the
other end, or the answer to a unit that was pushed to all slots. -/
def Writes (s : RpcEnd) (u : LowlevelUnit) : Prop :=
  (∃ c ∈ s.calls, c.llu = u) ∨
  (∃ l ∈ s.incoming, l.shared = none ∧ u ∈ CallEffect.sent l.tracked.log) ∨
  (u.OfSide s.side.other ∧ u.error.code ≠ 0) ∨ u.Foreign s.side

/-- The unit number `b` of those pushed to all slots has an error and is not executed, or is in no
slot of a call without a type. -/
def Quiet (s : RpcEnd) (b : ℕ) (u : LowlevelUnit) : Prop :=
  (u.error.code ≠ 0 ∧ ∀ l ∈ s.incoming, l.shared ≠ some b) ∨
    ∀ i, .shared b ∈ s.slots.dataAt i → ∀ c ∈ s.calls, s.slots.KeyAt i c.llu.id →
      c.llu.messageType ≠ .none

/-- A local call by the unit it was made from: one of the requests in `arrived`, or a shared unit. -/
structure Serves (side : Side) (arrived : List LowlevelUnit) (l : Incoming) : Prop where
  req : l.shared = none → l.req ∈ arrived ∧ l.req.OfSide side.other
  own : l.shared = none → LocalCall.SameUnit l.tracked.call.llu l.req
  log : l.shared = none → ∀ u ∈ CallEffect.sent l.tracked.log, LocalCall.SameUnit u l.req
  faithful : l.shared = none → l.tracked.Faithful
  foreign : l.shared ≠ none → l.tracked.call.llu.Foreign side

structure Traced (s : RpcEnd) : Prop where
  bound : s.calls.length < 2 ^ 63
  index : s.index = UInt64.ofNat (s.side.firstIndex.toNat + 2 * s.calls.length)
  numbered : ∀ k c, s.calls[k]? = some c → c.llu.id = idAt s.side k
  nonzero : ∀ c ∈ s.calls, c.llu.id ≠ 0
  typed : ∀ c ∈ s.calls, c.llu.messageType = .none ∨ c.llu.OfSide s.side
  keys : ∀ k, k ∈ s.slots.keys ↔ ∃ c ∈ s.calls, c.hasSlot = true ∧ c.llu.id = k
  owned : ∀ i k, s.slots.KeyAt i k → ∃ c ∈ s.calls, c.llu.id = k
  reading : ∀ c ∈ s.calls, ∀ i, c.stage = .reading i → s.slots.KeyAt i c.llu.id
  placed : ∀ i u, .own u ∈ s.slots.dataAt i → s.Placed i u
  push : ∀ i u, s.reader = some (.push i u) → s.Placed i u
  refuse : ∀ u, s.reader = some (.refuse u) → u.OfSide s.side.other
  shared : ∀ i b, .shared b ∈ s.slots.dataAt i → b < s.broadcasts.length
  pointers : ∀ l ∈ s.incoming, ∀ b, l.shared = some b → b < s.broadcasts.length
  broadcasts : ∀ u ∈ s.broadcasts, u.Foreign s.side
  quiet : ∀ b u, s.broadcasts[b]? = some u → u.messageType = .none → s.Quiet b u
  serves : ∀ l ∈ s.incoming, Serves s.side s.arrived l
  writes : ∀ u ∈ s.sent, s.Writes u
  returned : ∀ c ∈ s.calls, ∀ top, c.result = some top → s.Returned c top

theorem traced_initial (side : Side) : Traced (initial side) := by
  constructor <;> simp [initial, CondQueues.dataAt, CondQueues.empty, CondQueues.keys,
    CondQueues.KeyAt]

/-! ### Calls -/

variable {opts : SessionOptions} {s s' : RpcEnd}

theorem Traced.index_eq (h : s.Traced) {j k : ℕ} {c c' : Outgoing} (hj : s.calls[j]? = some c)
    (hk : s.calls[k]? = some c') (hid : c.llu.id = c'.llu.id) : j = k := by
  rw [h.numbered j c hj, h.numbered k c' hk] at hid
  have hb := h.bound
  have hj := (List.getElem?_eq_some_iff.mp hj).1
  have hk := (List.getElem?_eq_some_iff.mp hk).1
  exact idAt_inj (hj.trans hb) (hk.trans hb) hid

theorem Traced.unique (h : s.Traced) {c c' : Outgoing} (hc : c ∈ s.calls) (hc' : c' ∈ s.calls)
    (hid : c.llu.id = c'.llu.id) : c = c' := by
  obtain ⟨j, hj⟩ := List.mem_iff_getElem?.mp hc
  obtain ⟨k, hk⟩ := List.mem_iff_getElem?.mp hc'
  obtain rfl := h.index_eq hj hk hid
  exact Option.some.inj (hj.symm.trans hk)

theorem exists_set {k : ℕ} {c d : Outgoing} {cs : List Outgoing} (hk : cs[k]? = some c)
    {P : Outgoing → Prop} :
    (∃ c' ∈ cs.set k d, P c') ↔ P d ∨ ∃ j c', j ≠ k ∧ cs[j]? = some c' ∧ P c' := by
  have hlt := (List.getElem?_eq_some_iff.mp hk).1
  constructor
  · rintro ⟨c', hm, hp⟩
    obtain ⟨j, hj⟩ := List.mem_iff_getElem?.mp hm
    rw [List.getElem?_set] at hj
    split_ifs at hj with hjk
    · cases hj
      exact .inl hp
    · exact .inr ⟨j, c', Ne.symm hjk, hj, hp⟩
  · rintro (hp | ⟨j, c', hne, hj, hp⟩)
    · exact ⟨d, List.mem_set hlt d, hp⟩
    · refine ⟨c', List.mem_of_getElem? (i := j) ?_, hp⟩
      rw [List.getElem?_set, if_neg (Ne.symm hne)]
      exact hj

theorem exists_split {k : ℕ} {c : Outgoing} {cs : List Outgoing} (hk : cs[k]? = some c)
    {P : Outgoing → Prop} :
    (∃ c' ∈ cs, P c') ↔ P c ∨ ∃ j c', j ≠ k ∧ cs[j]? = some c' ∧ P c' := by
  have hset : cs.set k c = cs := by
    apply List.ext_getElem?
    intro j
    rw [List.getElem?_set]
    split_ifs with hjk hlt
    · rw [← hjk, hk]
    · exact absurd (List.getElem?_eq_some_iff.mp hk).1 hlt
    · rfl
  have := exists_set (d := c) hk (P := P)
  rwa [hset] at this

theorem Placed.mono {i : ℕ} {u : LowlevelUnit} (h : s.Placed i u) (hside : s'.side = s.side)
    (harrived : ∀ v ∈ s.arrived, v ∈ s'.arrived)
    (hkey : ∀ k, s.slots.KeyAt i k → s'.slots.KeyAt i k) : s'.Placed i u := by
  obtain ⟨hm, hp⟩ := h
  refine ⟨harrived u hm, ?_⟩
  rw [hside]
  rcases hp with ⟨ho, hk⟩ | ht
  · exact .inl ⟨ho, hkey u.id hk⟩
  · exact .inr ht

theorem Traced.move (h : s.Traced) {k : ℕ} {c : Outgoing} (hk : s.calls[k]? = some c)
    {st : CallStage} {q : CondQueues UInt64 Entry}
    (hkeys : ∀ x, x ∈ q.keys ↔ ∃ c' ∈ s.calls.set k { c with stage := st },
      c'.hasSlot = true ∧ c'.llu.id = x)
    (hkept : ∀ i x, s.slots.KeyAt i x → q.KeyAt i x)
    (hnew : ∀ i x, q.KeyAt i x → s.slots.KeyAt i x ∨ x = c.llu.id)
    (hdata : ∀ i e, e ∈ q.dataAt i → e ∈ s.slots.dataAt i)
    (hreading : ∀ i, st = .reading i → q.KeyAt i c.llu.id)
    (hresult : ∀ top, { c with stage := st }.result = some top → s.Returned c top) :
    Traced ({ s with slots := q }.setStage k c st) := by
  have hc := List.mem_of_getElem? hk
  have hold : ∀ c' ∈ s.calls.set k { c with stage := st },
      c' = { c with stage := st } ∨ c' ∈ s.calls := by
    intro c' hm
    exact (List.mem_or_eq_of_mem_set hm).symm
  have hllu : ∀ {P : LowlevelUnit → Prop}, (∃ c' ∈ s.calls, P c'.llu) →
      ∃ c' ∈ s.calls.set k { c with stage := st }, P c'.llu := by
    intro P hex
    rw [exists_set hk]
    exact (exists_split hk).mp hex
  have hplaced : ∀ {i u}, s.Placed i u → Placed ({ s with slots := q }.setStage k c st) i u :=
    fun hp => hp.mono rfl (fun _ hv => hv) (hkept _)
  refine
    { h with
      bound := ?_, index := ?_, numbered := ?_, nonzero := ?_, typed := ?_, keys := hkeys
      owned := ?_, reading := ?_, placed := ?_, push := ?_, shared := ?_, quiet := ?_, writes := ?_
      returned := ?_ }
  · rw [setStage, List.length_set]
    exact h.bound
  · rw [setStage, List.length_set]
    exact h.index
  · intro j c' hj
    rw [setStage, List.getElem?_set] at hj
    split_ifs at hj with hjk
    · cases hj
      rw [← hjk]
      exact h.numbered k c hk
    · exact h.numbered j c' hj
  · intro c' hm
    rcases hold c' hm with rfl | hm
    · exact h.nonzero c hc
    · exact h.nonzero c' hm
  · intro c' hm
    rcases hold c' hm with rfl | hm
    · exact h.typed c hc
    · exact h.typed c' hm
  · intro i x hx
    rcases hnew i x hx with hx | rfl
    · exact hllu (P := fun u => u.id = x) (h.owned i x hx)
    · exact hllu (P := fun u => u.id = c.llu.id) ⟨c, hc, rfl⟩
  · intro c' hm i hst
    rcases hold c' hm with rfl | hm
    · exact hreading i hst
    · exact hkept i _ (h.reading c' hm i hst)
  · intro i u hm
    exact hplaced (h.placed i u (hdata i _ hm))
  · intro i u hr
    exact hplaced (h.push i u hr)
  · intro i b hm
    exact h.shared i b (hdata i _ hm)
  · intro b u hb ht
    rcases h.quiet b u hb ht with hq | hq
    · exact .inl hq
    · refine .inr (fun i hm c' hc' hkey => ?_)
      have hm := hdata i _ hm
      obtain ⟨x, hx⟩ := CondQueues.keyAt_of_mem_dataAt hm
      have hx' : x = c'.llu.id := (hkept i x hx).eq hkey
      rw [hx'] at hx
      rcases hold c' hc' with rfl | hc'
      · exact hq i hm c hc hx
      · exact hq i hm c' hc' hx
  · intro u hu
    rcases h.writes u hu with hw | hw
    · exact .inl (hllu (P := fun v => v = u) hw)
    · exact .inr hw
  · intro c' hm top htop
    rcases hold c' hm with rfl | hm
    · exact hresult top htop
    · exact h.returned c' hm top htop

theorem hasSlot_set {k : ℕ} {c : Outgoing} {cs : List Outgoing} (hk : cs[k]? = some c)
    {st : CallStage} (hslot : { c with stage := st }.hasSlot = c.hasSlot) (x : UInt64) :
    (∃ c' ∈ cs.set k { c with stage := st }, c'.hasSlot = true ∧ c'.llu.id = x) ↔
      ∃ c' ∈ cs, c'.hasSlot = true ∧ c'.llu.id = x := by
  rw [exists_set hk, exists_split hk, hslot]

theorem Traced.setStage (h : s.Traced) {k : ℕ} {c : Outgoing} (hk : s.calls[k]? = some c)
    {st : CallStage} (hslot : { c with stage := st }.hasSlot = c.hasSlot)
    (hreading : ∀ i, st = .reading i → s.slots.KeyAt i c.llu.id)
    (hresult : ∀ top, { c with stage := st }.result = some top → s.Returned c top) :
    (s.setStage k c st).Traced := by
  refine h.move (q := s.slots) hk ?_ (fun _ _ hx => hx) (fun _ _ hx => .inl hx)
    (fun _ _ he => he) hreading hresult
  intro x
  rw [h.keys x]
  exact (hasSlot_set hk hslot x).symm

theorem Traced.write (h : s.Traced) {c : Outgoing} (hc : c ∈ s.calls) :
    Traced { s with sent := s.sent ++ [c.llu] } := by
  refine { h with writes := ?_ }
  intro u hu
  rcases List.mem_append.mp hu with hu | hu
  · exact h.writes u hu
  · obtain rfl := List.mem_singleton.mp hu
    exact .inl ⟨c, hc, rfl⟩

theorem Traced.add (h : s.Traced) {k : ℕ} {c : Outgoing} (hk : s.calls[k]? = some c)
    (hstage : c.stage = .admitted) :
    Traced ({ s with slots := s.slots.addQueue c.llu.id }.setStage k c .added) := by
  refine h.move hk ?_ (fun _ _ hx => hx.addQueue) ?_ ?_ (fun _ hst => (by cases hst))
    (fun _ ht => (by cases ht))
  · intro x
    rw [CondQueues.mem_keys_addQueue, h.keys x, exists_set hk, exists_split hk]
    have hno : c.hasSlot = false := by rw [Outgoing.hasSlot, hstage]
    have hyes : { c with stage := CallStage.added }.hasSlot = true := rfl
    simp only [hno, hyes, Bool.false_eq_true, false_and, false_or, true_and]
    constructor
    · rintro (hx | rfl)
      · exact .inr hx
      · exact .inl rfl
    · rintro (rfl | hx)
      · exact .inr rfl
      · exact .inl hx
  · intro i x hx
    by_cases hxc : x = c.llu.id
    · exact .inr hxc
    · exact .inl (hx.of_addQueue hxc)
  · intro i e he
    rwa [CondQueues.dataAt_addQueue] at he

theorem Traced.erase (h : s.Traced) {k : ℕ} {c : Outgoing} (hk : s.calls[k]? = some c)
    {slot : Bool} {r : CallResult} (hstage : c.stage = .leaving slot r) :
    Traced ({ s with slots := s.slots.eraseQueue c.llu.id }.setStage k c (.over r)) := by
  refine h.move hk ?_ (fun _ _ hx => CondQueues.keyAt_update.mpr hx)
    (fun _ _ hx => .inl (CondQueues.keyAt_update.mp hx)) ?_ (fun _ hst => (by cases hst)) ?_
  · intro x
    rw [CondQueues.mem_keys_eraseQueue, h.keys x, exists_set hk, exists_split hk]
    have hno : { c with stage := CallStage.over r }.hasSlot = false := rfl
    simp only [hno, Bool.false_eq_true, false_and, false_or]
    constructor
    · rintro ⟨⟨_, hx⟩ | hx, hne⟩
      · exact absurd hx.symm hne
      · exact hx
    · rintro ⟨j, c', hjk, hj, hs, rfl⟩
      exact ⟨.inr ⟨j, c', hjk, hj, hs, rfl⟩, fun hid => hjk (h.index_eq hj hk hid)⟩
  · intro i e he
    rwa [CondQueues.dataAt_eraseQueue] at he
  · intro top htop
    refine h.returned c (List.mem_of_getElem? hk) top ?_
    rw [← htop, Outgoing.result, Outgoing.result, hstage]
    cases r <;> rfl

theorem Traced.begin (h : s.Traced) {k i : ℕ} {c : Outgoing} (hk : s.calls[k]? = some c)
    (hstage : c.stage = .waiting) (hi : s.slots.valueByKey c.llu.id = some i) :
    Traced ({ s with slots := s.slots.readBegin i }.setStage k c (.reading i)) := by
  refine h.move hk ?_ (fun _ _ hx => CondQueues.keyAt_readBegin.mpr hx)
    (fun _ _ hx => .inl (CondQueues.keyAt_readBegin.mp hx)) ?_ ?_ (fun _ ht => (by cases ht))
  · intro x
    rw [CondQueues.readBegin, CondQueues.mem_keys_updateAt, h.keys x]
    exact (hasSlot_set hk (by simp [Outgoing.hasSlot, hstage]) x).symm
  · intro n e he
    rwa [CondQueues.dataAt_readBegin] at he
  · intro n hst
    cases hst
    exact CondQueues.keyAt_readBegin.mpr (CondQueues.keyAt_of_valueByKey hi)

theorem Traced.read (h : s.Traced) {k i : ℕ} {c : Outgoing} (hk : s.calls[k]? = some c)
    (hstage : c.stage = .reading i) (r : ReadResult Entry) {st : CallStage}
    (hslot : { c with stage := st }.hasSlot = true) (hreading : ∀ n, st ≠ .reading n)
    (hresult : ∀ top, { c with stage := st }.result = some top → s.Returned c top) :
    Traced ({ s with slots := s.slots.readEnd i r }.setStage k c st) := by
  refine h.move hk ?_ (fun _ _ hx => CondQueues.keyAt_readEnd.mpr hx)
    (fun _ _ hx => .inl (CondQueues.keyAt_readEnd.mp hx))
    (fun _ _ he => CondQueues.mem_of_mem_dataAt_readEnd he) (fun n hst => absurd hst (hreading n))
    hresult
  intro x
  rw [CondQueues.mem_keys_readEnd, h.keys x]
  exact (hasSlot_set hk (by rw [hslot, Outgoing.hasSlot, hstage]) x).symm

/-! ### Local calls -/

theorem Writes.mono {u : LowlevelUnit} (h : s.Writes u) (hside : s'.side = s.side)
    (hcalls : ∀ c ∈ s.calls, c ∈ s'.calls)
    (hincoming : ∀ l ∈ s.incoming, l.shared = none → ∃ l' ∈ s'.incoming, l'.shared = none ∧
      ∀ v ∈ CallEffect.sent l.tracked.log, v ∈ CallEffect.sent l'.tracked.log) : s'.Writes u := by
  rcases h with ⟨c, hc, hu⟩ | ⟨l, hl, hn, hu⟩ | ⟨ho, hcode⟩ | hf
  · exact .inl ⟨c, hcalls c hc, hu⟩
  · obtain ⟨l', hl', hn', hlog⟩ := hincoming l hl hn
    exact .inr (.inl ⟨l', hl', hn', hlog u hu⟩)
  · refine .inr (.inr (.inl ⟨?_, hcode⟩))
    rw [hside]
    exact ho
  · refine .inr (.inr (.inr ?_))
    rw [hside]
    exact hf

/-- A local call is made, of a unit of its own or of one that was pushed to all slots and has no
error. -/
theorem Traced.postUnit (h : s.Traced) {u : LowlevelUnit} {shared : Option ℕ} (counted : Bool)
    (hserves : Serves s.side s.arrived ⟨u, shared, counted, false, ⟨.post u, []⟩⟩)
    (hshared : ∀ b, shared = some b → ∃ v, s.broadcasts[b]? = some v ∧ v.error.code = 0) :
    (s.post u shared counted).Traced := by
  refine { h with pointers := ?_, quiet := ?_, serves := ?_, writes := ?_ }
  · intro l hl b hb
    rcases List.mem_append.mp hl with hl | hl
    · exact h.pointers l hl b hb
    · obtain rfl := List.mem_singleton.mp hl
      obtain ⟨v, hv, _⟩ := hshared b hb
      exact (List.getElem?_eq_some_iff.mp hv).1
  · intro b v hb ht
    rcases h.quiet b v hb ht with ⟨hcode, hnone⟩ | hq
    · refine .inl ⟨hcode, fun l hl => ?_⟩
      rcases List.mem_append.mp hl with hl | hl
      · exact hnone l hl
      · obtain rfl := List.mem_singleton.mp hl
        intro heq
        obtain ⟨v', hv', hzero⟩ := hshared b heq
        obtain rfl : v = v' := Option.some.inj (hb.symm.trans hv')
        exact hcode hzero
    · exact .inr hq
  · intro l hl
    rcases List.mem_append.mp hl with hl | hl
    · exact h.serves l hl
    · obtain rfl := List.mem_singleton.mp hl
      exact hserves
  · intro v hv
    exact (h.writes v hv).mono rfl (fun _ hc => hc)
      (fun l hl hn => ⟨l, List.mem_append_left _ hl, hn, fun _ hw => hw⟩)

theorem Traced.post (h : s.Traced) {u : LowlevelUnit} (hu : u ∈ s.arrived)
    (ho : u.OfSide s.side.other) (counted : Bool) : (s.post u none counted).Traced := by
  refine h.postUnit counted ?_ (fun b hb => (by cases hb))
  exact ⟨fun _ => ⟨hu, ho⟩, fun _ => ⟨rfl, rfl, rfl⟩, fun _ v hv => (by cases hv),
    fun _ => TrackedCall.faithful_post u, fun hn => absurd rfl hn⟩

theorem Traced.post_shared (h : s.Traced) {u : LowlevelUnit} {b : ℕ}
    (hb : s.broadcasts[b]? = some u) (hcode : u.error.code = 0) (counted : Bool) :
    (s.post u (some b) counted).Traced := by
  refine h.postUnit counted ?_ ?_
  · exact ⟨fun hn => (by cases hn), fun hn => (by cases hn), fun hn => (by cases hn),
      fun hn => (by cases hn), fun _ => h.broadcasts u (List.mem_of_getElem? hb)⟩
  · intro b' hb'
    cases hb'
    exact ⟨u, hb, hcode⟩

/-- The replies that have arrived have the types of the calls with their ids.  This is what an end
cannot know by itself. -/
def Typed (s : RpcEnd) : Prop :=
  ∀ u ∈ s.arrived, u.OfSide s.side → u.error.code = 0 →
    ∀ c ∈ s.calls, c.llu.id = u.id → c.llu.messageType = u.messageType

/-- A unit of its own that a call finds in its slot without an error: the reply, or a callback. -/
theorem Traced.found (h : s.Traced) (htyped : s.Typed) {c : Outgoing} {i : ℕ} {u : LowlevelUnit}
    (hc : c ∈ s.calls) (hstage : c.stage = .reading i) (hu : .own u ∈ s.slots.dataAt i)
    (hcode : u.error.code = 0) :
    (u.messageType ≠ c.llu.messageType → u ∈ s.arrived ∧ u.OfSide s.side.other) ∧
      (u.messageType = c.llu.messageType → s.Returned c u) := by
  obtain ⟨hm, ⟨ho, hkey⟩ | ht⟩ := h.placed i u hu
  · have hid : u.id = c.llu.id := hkey.eq (h.reading c hc i hstage)
    have htype := htyped u hm ho hcode c hc hid.symm
    exact ⟨fun hne => absurd htype.symm hne, fun heq => ⟨hm, ho, hid, heq, hcode⟩⟩
  · have ho : u.OfSide s.side.other := .inr ht
    refine ⟨fun _ => ⟨hm, ho⟩, fun heq => ?_⟩
    exfalso
    rcases h.typed c hc with hn | hs
    · exact ho.ne_none (heq.trans hn)
    · exact (hs.congr heq).not_other ho

/-- A shared unit that a call finds in its slot without an error is not taken for its reply. -/
theorem Traced.found_shared (h : s.Traced) {c : Outgoing} {i b : ℕ} (hc : c ∈ s.calls)
    (hstage : c.stage = .reading i) (hb : .shared b ∈ s.slots.dataAt i) :
    ∃ u, s.broadcasts[b]? = some u ∧
      (u.error.code = 0 → u.messageType ≠ c.llu.messageType) := by
  have hlt := h.shared i b hb
  refine ⟨_, List.getElem?_eq_getElem hlt, fun hcode heq => ?_⟩
  have hforeign := h.broadcasts _ (List.getElem_mem hlt)
  rcases h.typed c hc with hn | hs
  · rcases h.quiet b _ (List.getElem?_eq_getElem hlt) (heq.trans hn) with ⟨hne, _⟩ | hq
    · exact hne hcode
    · exact hq i hb c hc (h.reading c hc i hstage) hn
  · exact (hs.congr heq).not_foreign hforeign

theorem Traced.consume (h : s.Traced) (htyped : s.Typed) {k i : ℕ} {c : Outgoing} {timedOut : Bool}
    {v : HoldValue UInt64 Entry} {r : ReadResult Entry} (hk : s.calls[k]? = some c)
    (hstage : c.stage = .reading i) (hi : s.slots.values[i]? = some v)
    (hr : CondQueues.readResult v timedOut = some r) (cbThrows : Bool) :
    ({ s with slots := s.slots.readEnd i r }.consume k c r cbThrows).Traced := by
  have hc := List.mem_of_getElem? hk
  have hfront : ∀ e, r = .success e → e ∈ s.slots.dataAt i := by
    rintro e rfl
    obtain ⟨es, hv⟩ := CondQueues.readResult_success hr
    rw [CondQueues.dataAt, hi, Option.elim_some, hv]
    exact List.mem_cons_self
  rcases consume_cases { s with slots := s.slots.readEnd i r } k c r cbThrows with
    ⟨hcode, heq⟩ | ⟨hcode, htype, heq⟩ | ⟨hcode, htype, heq⟩
  · rw [heq]
    refine h.read hk hstage r rfl (fun _ hst => (by cases hst)) ?_
    intro top htop
    cases cbThrows <;> cases htop
  · rw [heq]
    have hmove : Traced ({ s with slots := s.slots.readEnd i r }.setStage k c
        (.serving s.incoming.length)) :=
      h.read hk hstage r rfl (fun _ hst => (by cases hst)) (fun _ ht => (by cases ht))
    cases r with
    | canceled => cases hcode
    | timeout => cases hcode
    | success e =>
        cases e with
        | own u =>
            obtain ⟨hu, ho⟩ := (h.found htyped hc hstage (hfront _ rfl) hcode).1 htype
            exact hmove.post hu ho false
        | shared b =>
            obtain ⟨u, hb, _⟩ := h.found_shared hc hstage (hfront _ rfl)
            have htop : s.broadcasts.getD b {} = u := by
              rw [List.getD_eq_getElem?_getD, hb]
              rfl
            simp only [readSlotFor, unit, htop] at hcode ⊢
            exact hmove.post_shared hb hcode false
  · rw [heq]
    refine h.read hk hstage r rfl (fun _ hst => (by cases hst)) ?_
    intro top htop
    cases htop
    cases r with
    | canceled => cases hcode
    | timeout => cases hcode
    | success e =>
        cases e with
        | own u => exact (h.found htyped hc hstage (hfront _ rfl) hcode).2 htype
        | shared b =>
            obtain ⟨u, hb, hne⟩ := h.found_shared hc hstage (hfront _ rfl)
            have htop : s.broadcasts.getD b {} = u := by
              rw [List.getD_eq_getElem?_getD, hb]
              rfl
            simp only [readSlotFor, unit, htop] at hcode htype
            exact absurd htype (hne hcode)

/-! ### Units for all slots -/

/-- A unit is pushed to all slots; without an error and without a type, no call without a type has a
slot. -/
theorem Traced.pushAll (h : s.Traced) {u : LowlevelUnit} (hu : u.Foreign s.side)
    (hquiet : u.messageType = .none → u.error.code ≠ 0 ∨
      ∀ c ∈ s.calls, c.hasSlot = true → c.llu.messageType ≠ .none) : (s.pushAll u).Traced := by
  have hdata : ∀ i e, e ∈ (s.slots.writeAll (.shared s.broadcasts.length)).dataAt i →
      e ∈ s.slots.dataAt i ∨ e = .shared s.broadcasts.length ∧ s.slots.storedAt i = true := by
    intro i e he
    rw [CondQueues.dataAt_writeAll, List.mem_append] at he
    rcases he with he | he
    · exact .inl he
    · split_ifs at he with hst
      · exact .inr ⟨List.mem_singleton.mp he, hst⟩
      · cases he
  have hplaced : ∀ {i v}, s.Placed i v → (s.pushAll u).Placed i v :=
    fun hp => hp.mono rfl (fun _ hv => hv) (fun _ => CondQueues.keyAt_writeAll.mpr)
  have hlen : (s.pushAll u).broadcasts.length = s.broadcasts.length + 1 := by
    rw [RpcEnd.pushAll, List.length_append]
    rfl
  refine
    { h with
      keys := ?_, owned := ?_, reading := ?_, placed := ?_, push := ?_, shared := ?_
      pointers := ?_, broadcasts := ?_, quiet := ?_ }
  · intro k
    rw [RpcEnd.pushAll, CondQueues.mem_keys_writeAll]
    exact h.keys k
  · intro i k hk
    exact h.owned i k (CondQueues.keyAt_writeAll.mp hk)
  · intro c hc i hst
    exact CondQueues.keyAt_writeAll.mpr (h.reading c hc i hst)
  · intro i v hm
    rcases hdata i _ hm with hm | ⟨hm, _⟩
    · exact hplaced (h.placed i v hm)
    · cases hm
  · intro i v hr
    exact hplaced (h.push i v hr)
  · intro i b hm
    rw [hlen]
    rcases hdata i _ hm with hm | ⟨hm, _⟩
    · exact (h.shared i b hm).trans (Nat.lt_succ_self _)
    · cases hm
      exact Nat.lt_succ_self _
  · intro l hl b hb
    rw [hlen]
    exact (h.pointers l hl b hb).trans (Nat.lt_succ_self _)
  · intro v hv
    rcases List.mem_append.mp hv with hv | hv
    · exact h.broadcasts v hv
    · obtain rfl := List.mem_singleton.mp hv
      exact hu
  · intro b v hb ht
    rcases Nat.lt_or_ge b s.broadcasts.length with hlt | hge
    · rw [RpcEnd.pushAll, List.getElem?_append_left hlt] at hb
      rcases h.quiet b v hb ht with hq | hq
      · exact .inl hq
      · refine .inr (fun i hm c hc hkey => ?_)
        rcases hdata i _ hm with hm | ⟨hm, _⟩
        · exact hq i hm c hc (CondQueues.keyAt_writeAll.mp hkey)
        · cases hm
          exact absurd hlt (lt_irrefl _)
    · have hbn : b = s.broadcasts.length := by
        have := (List.getElem?_eq_some_iff.mp hb).1
        rw [hlen] at this
        omega
      subst hbn
      obtain rfl : u = v := by simpa [RpcEnd.pushAll] using hb
      rcases hquiet ht with hcode | hcalls
      · refine .inl ⟨hcode, fun l hl hn => ?_⟩
        exact absurd (h.pointers l hl _ hn) (lt_irrefl _)
      · refine .inr (fun i hm c hc hkey => ?_)
        rcases hdata i _ hm with hm | ⟨_, hst⟩
        · exact absurd (h.shared i _ hm) (lt_irrefl _)
        · have hin := CondQueues.mem_keys_of_storedAt hst (CondQueues.keyAt_writeAll.mp hkey)
          obtain ⟨c', hc', hslot, hid⟩ := (h.keys _).mp hin
          obtain rfl := h.unique hc' hc hid
          exact hcalls c' hc' hslot

theorem Traced.slots (h : s.Traced) {q : CondQueues UInt64 Entry}
    (hkeys : ∀ k, k ∈ q.keys ↔ k ∈ s.slots.keys)
    (hkeyAt : ∀ i k, q.KeyAt i k ↔ s.slots.KeyAt i k)
    (hdata : ∀ i e, e ∈ q.dataAt i → e ∈ s.slots.dataAt i ∨ ∃ u, e = .own u ∧ s.Placed i u) :
    Traced { s with slots := q } := by
  have hplaced : ∀ {i v}, s.Placed i v → Placed { s with slots := q } i v :=
    fun hp => hp.mono rfl (fun _ hv => hv) (fun k => (hkeyAt _ k).mpr)
  refine
    { h with
      keys := ?_, owned := ?_, reading := ?_, placed := ?_, push := ?_, shared := ?_, quiet := ?_ }
  · intro k
    rw [hkeys]
    exact h.keys k
  · intro i k hk
    exact h.owned i k ((hkeyAt i k).mp hk)
  · intro c hc i hst
    exact (hkeyAt i _).mpr (h.reading c hc i hst)
  · intro i v hm
    rcases hdata i _ hm with hm | ⟨u, he, hu⟩
    · exact hplaced (h.placed i v hm)
    · cases he
      exact hplaced hu
  · intro i v hr
    exact hplaced (h.push i v hr)
  · intro i b hm
    rcases hdata i _ hm with hm | ⟨u, he, _⟩
    · exact h.shared i b hm
    · cases he
  · intro b v hb ht
    rcases h.quiet b v hb ht with hq | hq
    · exact .inl hq
    · refine .inr (fun i hm c hc hkey => ?_)
      rcases hdata i _ hm with hm | ⟨u, he, _⟩
      · exact hq i hm c hc ((hkeyAt i _).mp hkey)
      · cases he

theorem Traced.cancelAll (h : s.Traced) : Traced { s with slots := s.slots.cancelAll } := by
  refine h.slots (fun _ => CondQueues.mem_keys_cancelAll) (fun _ _ => CondQueues.keyAt_cancelAll) ?_
  intro i e he
  rw [CondQueues.dataAt_cancelAll] at he
  exact .inl he

/-! ### The reading thread -/

theorem Traced.arrive (h : s.Traced) (u : LowlevelUnit) :
    Traced { s with arrived := s.arrived ++ [u] } := by
  have hgrow : ∀ v ∈ s.arrived, v ∈ s.arrived ++ [u] := fun v hv => List.mem_append_left _ hv
  refine { h with placed := ?_, push := ?_, serves := ?_, returned := ?_ }
  · intro i v hm
    exact (h.placed i v hm).mono rfl hgrow (fun _ hk => hk)
  · intro i v hr
    exact (h.push i v hr).mono rfl hgrow (fun _ hk => hk)
  · intro l hl
    have hs := h.serves l hl
    exact { hs with req := fun hn => ⟨hgrow _ (hs.req hn).1, (hs.req hn).2⟩ }
  · intro c hc top ht
    obtain ⟨hv, hp⟩ := h.returned c hc top ht
    exact ⟨hgrow top hv, hp⟩

theorem Traced.hold (h : s.Traced) {r : Option Held}
    (hpush : ∀ i u, r = some (.push i u) → s.Placed i u)
    (hrefuse : ∀ u, r = some (.refuse u) → u.OfSide s.side.other) :
    Traced { s with reader := r } :=
  { h with push := hpush, refuse := hrefuse }

theorem Traced.turnAway (h : s.Traced) {rs us : List LowlevelUnit}
    (hrs : ∀ u ∈ rs, u.OfSide s.side.other ∧ u.error.code ≠ 0) :
    Traced { s with refused := us, sent := s.sent ++ rs } := by
  refine { h with writes := ?_ }
  intro u hu
  rcases List.mem_append.mp hu with hu | hu
  · exact h.writes u hu
  · exact .inr (.inr (.inl (hrs u hu)))

theorem Traced.pushed (h : s.Traced) {i : ℕ} {u : LowlevelUnit} (hu : s.Placed i u) :
    Traced { s with slots := s.slots.pushValueData i (.own u) } := by
  refine h.slots ?_ (fun _ _ => CondQueues.keyAt_pushValueData) ?_
  · intro k
    rw [CondQueues.pushValueData, CondQueues.mem_keys_updateAt]
  · intro n e he
    rcases CondQueues.mem_dataAt_pushValueData he with he | ⟨hn, heq⟩
    · exact .inl he
    · rw [hn]
      exact .inr ⟨u, heq, hu⟩

theorem Traced.callDoes (h : s.Traced) {u : LowlevelUnit} (hu : u ∈ s.arrived)
    (ho : u.OfSide s.side.other) (hs : s.CallDoes opts u s') : s'.Traced := by
  cases hs with
  | posted hside hid => exact h.post hu ho false
  | event hside hid => exact h.pushAll (.inr ⟨ho, hid⟩) (fun hn => absurd hn ho.ne_none)
  | admitted hside hmax =>
      exact Traced.post (s := { s with current := s.current + 1 }) { h with } hu ho true
  | busy hside hmax hready =>
      refine h.turnAway ?_
      intro v hv
      unfold busyReplies at hv
      split_ifs at hv
      · obtain rfl := List.mem_singleton.mp hv
        exact ⟨ho, by simp [busyReply, ErrorNumber.code_eq_zero]⟩
      · cases hv
  | mute hside hmax hwait hready => exact { h with }

theorem Traced.receiveDoes (h : s.Traced) {u : LowlevelUnit}
    (hs : { s with arrived := s.arrived ++ [u] }.ReceiveDoes opts u s') : s'.Traced := by
  have ha := h.arrive u
  have hu : u ∈ s.arrived ++ [u] := List.mem_append_right _ (List.mem_singleton_self u)
  cases hs with
  | called htype hcall => exact ha.callDoes hu (htype.imp id And.left) hcall
  | inserted i htype hi =>
      refine ha.hold ?_ (fun v hr => (by cases hr))
      intro n v hr
      cases hr
      exact ⟨hu, .inr htype⟩
  | answered i htype hi =>
      refine ha.hold ?_ (fun v hr => (by cases hr))
      intro n v hr
      cases hr
      exact ⟨hu, .inl ⟨htype, CondQueues.keyAt_of_valueByKey hi⟩⟩
  | noContext htype hwait =>
      refine ha.hold (fun n v hr => (by cases hr)) ?_
      intro v hr
      cases hr
      exact .inr htype
  | dropped htype hwait => exact { ha with }
  | ignored htype => exact ha

theorem Traced.proceed (h : s.Traced) {hd : Held} (hr : s.reader = some hd) :
    (s.proceed hd).Traced := by
  have hnone : Traced { s with reader := none } :=
    h.hold (fun i u hn => (by cases hn)) (fun u hn => (by cases hn))
  cases hd with
  | push i u => exact hnone.pushed (h.push i u hr)
  | refuse u =>
      refine hnone.turnAway ?_
      intro v hv
      split_ifs at hv
      · obtain rfl := List.mem_singleton.mp hv
        exact ⟨h.refuse u hr, by simp [contextError, ErrorNumber.code_eq_zero]⟩
      · cases hv

/-! ### Steps -/

theorem settle_broadcasts {j b : ℕ} {l : Incoming} {effs : List CallEffect} {u : LowlevelUnit}
    (h : (s.settle j l effs).broadcasts[b]? = some u) :
    l.shared = some b ∧ u = l.tracked.call.llu ∨ l.shared ≠ some b ∧ s.broadcasts[b]? = some u := by
  unfold RpcEnd.settle at h
  dsimp only at h
  cases hs : l.shared with
  | none =>
      rw [hs] at h
      exact .inr ⟨by simp, h⟩
  | some b' =>
      rw [hs, List.getElem?_set] at h
      split_ifs at h with hb
      · cases h
        exact .inl ⟨by rw [hb], rfl⟩
      · exact .inr ⟨fun heq => hb (Option.some.inj heq), h⟩

theorem Traced.settle (h : s.Traced) {j : ℕ} {l l' : Incoming} {effs : List CallEffect}
    (hj : s.incoming[j]? = some l) (hshared : l'.shared = l.shared)
    (hserves : Serves s.side s.arrived l')
    (hlog : CallEffect.sent l'.tracked.log = CallEffect.sent l.tracked.log ++ CallEffect.sent effs)
    (htype : ∀ b u, l.shared = some b → s.broadcasts[b]? = some u →
      l'.tracked.call.llu.messageType = u.messageType)
    (hforeign : l.shared ≠ none → ∀ u ∈ CallEffect.sent effs, u.Foreign s.side) :
    (s.settle j l' effs).Traced := by
  have hl := List.mem_of_getElem? hj
  have hlt := (List.getElem?_eq_some_iff.mp hj).1
  have hlen : (s.settle j l' effs).broadcasts.length = s.broadcasts.length := by
    unfold RpcEnd.settle
    dsimp only
    cases l'.shared with
    | none => rfl
    | some b => exact List.length_set
  have hold : ∀ x ∈ (s.settle j l' effs).incoming, x ∈ s.incoming ∨ x = l' :=
    fun x hx => List.mem_or_eq_of_mem_set hx
  refine
    { h with
      shared := ?_, pointers := ?_, broadcasts := ?_, quiet := ?_, serves := ?_, writes := ?_ }
  · intro i b hm
    rw [hlen]
    exact h.shared i b hm
  · intro x hx b hb
    rw [hlen]
    rcases hold x hx with hx | rfl
    · exact h.pointers x hx b hb
    · rw [hshared] at hb
      exact h.pointers l hl b hb
  · intro u hu
    obtain ⟨b, hb⟩ := List.mem_iff_getElem?.mp hu
    rcases settle_broadcasts hb with ⟨hs, rfl⟩ | ⟨_, hb⟩
    · exact hserves.foreign (by rw [hs]; simp)
    · exact h.broadcasts u (List.mem_of_getElem? hb)
  · intro b u hb ht
    rcases settle_broadcasts hb with ⟨hs, rfl⟩ | ⟨hne, hb⟩
    · -- a unit that is executed had no error, so that it is in no slot of a call without a type
      rw [hshared] at hs
      have hu := List.getElem?_eq_getElem (h.pointers l hl b hs)
      rcases h.quiet b _ hu ((htype b _ hs hu).symm.trans ht) with ⟨_, hnone⟩ | hq
      · exact absurd hs (hnone l hl)
      · exact .inr hq
    · rcases h.quiet b u hb ht with ⟨hcode, hnone⟩ | hq
      · refine .inl ⟨hcode, fun x hx => ?_⟩
        rcases hold x hx with hx | rfl
        · exact hnone x hx
        · exact hne
      · exact .inr hq
  · intro x hx
    rcases hold x hx with hx | rfl
    · exact h.serves x hx
    · exact hserves
  · intro u hu
    rcases List.mem_append.mp hu with hu | hu
    · refine (h.writes u hu).mono rfl (fun _ hc => hc) ?_
      intro x hx hn
      obtain ⟨n, hxn⟩ := List.mem_iff_getElem?.mp hx
      by_cases hnj : j = n
      · subst hnj
        rw [hj] at hxn
        cases hxn
        refine ⟨l', List.mem_set hlt l', hshared.trans hn, fun v hv => ?_⟩
        rw [hlog]
        exact List.mem_append_left _ hv
      · refine ⟨x, List.mem_of_getElem? (i := n) ?_, hn, fun v hv => hv⟩
        rw [RpcEnd.settle, List.getElem?_set, if_neg hnj]
        exact hxn
    · by_cases hn : l.shared = none
      · refine .inr (.inl ⟨l', List.mem_set hlt l', hshared.trans hn, ?_⟩)
        rw [hlog]
        exact List.mem_append_right _ hu
      · exact .inr (.inr (.inr (hforeign hn u hu)))

theorem Traced.refresh_foreign (h : s.Traced) {l : Incoming} (hl : l ∈ s.incoming)
    (hs : l.shared ≠ none) : (s.refresh l).call.llu.Foreign s.side := by
  unfold RpcEnd.refresh
  cases hb : l.shared.bind (s.broadcasts[·]?) with
  | none => exact (h.serves l hl).foreign hs
  | some u =>
      obtain ⟨b, _, hu⟩ := Option.bind_eq_some_iff.mp hb
      exact h.broadcasts u (List.mem_of_getElem? hu)

theorem refresh_shared {l : Incoming} {b : ℕ} {u : LowlevelUnit} (hs : l.shared = some b)
    (hb : s.broadcasts[b]? = some u) : (s.refresh l).call.llu = u := by
  unfold RpcEnd.refresh
  rw [hs, Option.bind_some, hb]

theorem Traced.served (h : s.Traced) {j : ℕ} {l : Incoming} {e : CallEvent} {c : LocalCall}
    {effs : List CallEffect} (hj : s.incoming[j]? = some l)
    (hc : (s.refresh l).call.FailsNonzero e)
    (hr : (s.refresh l).call.step opts e = some (c, effs)) :
    Traced (s.settle j { l with tracked := ⟨c, (s.refresh l).log ++ effs⟩ } effs) := by
  have hl := List.mem_of_getElem? hj
  have hserves := h.serves l hl
  obtain ⟨hsame, hsent⟩ := LocalCall.sameUnit_step hr
  refine h.settle hj rfl ⟨hserves.req, ?_, ?_, ?_, ?_⟩ ?_ ?_ ?_
  · intro hn
    rw [refresh_own (l := l) s hn] at hsame
    exact hsame.trans (hserves.own hn)
  · intro hn u hu
    rw [refresh_own (l := l) s hn] at hu hsent
    rcases List.mem_append.mp (sent_append _ _ ▸ hu) with hu | hu
    · exact hserves.log hn u hu
    · exact (hsent u hu).trans (hserves.own hn)
  · intro hn
    rw [refresh_own (l := l) s hn] at hr hc ⊢
    exact (hserves.faithful hn).step hc hr
  · intro hn
    exact (h.refresh_foreign hl hn).congr hsame
  · rw [sent_append, refresh_log]
  · intro b u hs hb
    rw [hsame.messageType, refresh_shared hs hb]
  · intro hn u hu
    exact (h.refresh_foreign hl hn).congr (hsent u hu)

theorem Traced.unsent (h : s.Traced) {j : ℕ} {l : Incoming} {ex : Thrown}
    (hj : s.incoming[j]? = some l) {c : LocalCall} (heq : c = unsentCall (s.refresh l).call ex) :
    Traced (s.settle j
      { l with threw := true, tracked := ⟨c, (s.refresh l).log ++ c.release⟩ } c.release) := by
  subst heq
  have hl := List.mem_of_getElem? hj
  have hserves := h.serves l hl
  refine h.settle hj rfl ⟨hserves.req, ?_, ?_, ?_, ?_⟩ ?_ ?_ ?_
  · intro hn
    have := hserves.own hn
    rw [← refresh_own (l := l) s hn] at this
    exact ⟨this.id, this.messageType, this.opt⟩
  · intro hn u hu
    rw [sent_append, LocalCall.sent_release, List.append_nil, refresh_log] at hu
    exact hserves.log hn u hu
  · intro hn
    refine ⟨fun hp => (by cases hp), fun u hu => ?_⟩
    rw [sent_append, LocalCall.sent_release, List.append_nil] at hu
    have := (hserves.faithful hn).answer u
    rw [← refresh_own (l := l) s hn] at this
    exact this hu
  · intro hn
    exact (h.refresh_foreign hl hn).congr ⟨rfl, rfl, rfl⟩
  · rw [sent_append, refresh_log]
  · intro b u hs hb
    dsimp only [unsentCall]
    rw [refresh_shared hs hb]
  · intro _ u hu
    rw [LocalCall.sent_release] at hu
    cases hu

theorem Traced.fresh (h : s.Traced) (i : ℕ) : ¬ s.slots.KeyAt i (nextIndex s.index) := by
  intro hkey
  obtain ⟨c, hc, hid⟩ := h.owned i _ hkey
  obtain ⟨k, hk⟩ := List.mem_iff_getElem?.mp hc
  have hlt := (List.getElem?_eq_some_iff.mp hk).1
  rw [h.index, nextIndex_idAt, h.numbered k c hk] at hid
  have := idAt_inj (hlt.trans h.bound) h.bound hid
  omega

theorem startCall_calls {ch : RpcChannel} (cc : Option LowlevelUnit) (m : MethodCall)
    (hd : ch.directType = s.side.directType) (hcb : ch.callbackType = s.side.callbackType) :
    ∃ c : Outgoing, (s.startCall ch cc m).calls = s.calls ++ [c] ∧ c.llu.id = nextIndex s.index ∧
      (c.llu.messageType = .none ∨ c.llu.OfSide s.side) ∧
      (c.stage = .configured ∨ c.stage = .over .thrown) := by
  refine ⟨_, rfl, ?_⟩
  cases hu : ch.configure cc (nextIndex s.index) m with
  | none => exact ⟨rfl, .inl rfl, .inr rfl⟩
  | some u =>
      refine ⟨RpcChannel.configure_id hu, ?_, .inl rfl⟩
      rcases RpcChannel.configure_type hu with ht | ht | ht
      · exact .inr (.inl (ht.trans hd))
      · exact .inr (.inr (ht.trans hcb))
      · exact .inl ht

theorem Traced.startCall (h : s.Traced) {ch : RpcChannel} {cc : Option LowlevelUnit}
    {m : MethodCall} (hd : ch.directType = s.side.directType)
    (hcb : ch.callbackType = s.side.callbackType) (hbound : s.calls.length + 1 < 2 ^ 63)
    (hzero : nextIndex s.index ≠ 0) : (s.startCall ch cc m).Traced := by
  obtain ⟨c, hcalls, hid, htype, hstage⟩ := startCall_calls cc m hd hcb
  have hmem : ∀ c' ∈ (s.startCall ch cc m).calls, c' ∈ s.calls ∨ c' = c := by
    intro c' hc'
    rw [hcalls] at hc'
    rcases List.mem_append.mp hc' with hc' | hc'
    · exact .inl hc'
    · exact .inr (List.mem_singleton.mp hc')
  have hgrow : ∀ c' ∈ s.calls, c' ∈ (s.startCall ch cc m).calls := by
    intro c' hc'
    rw [hcalls]
    exact List.mem_append_left _ hc'
  have hnew : nextIndex s.index = idAt s.side s.calls.length := by
    rw [h.index, nextIndex_idAt]
  refine
    { h with
      bound := ?_, index := ?_, numbered := ?_, nonzero := ?_, typed := ?_, keys := ?_, owned := ?_
      reading := ?_, quiet := ?_, writes := ?_, returned := ?_ }
  · rw [hcalls, List.length_append]
    exact hbound
  · rw [hcalls, List.length_append]
    exact hnew
  · intro k c' hk
    rw [hcalls] at hk
    rcases Nat.lt_or_ge k s.calls.length with hlt | hge
    · rw [List.getElem?_append_left hlt] at hk
      exact h.numbered k c' hk
    · have hlen := (List.getElem?_eq_some_iff.mp hk).1
      rw [List.length_append, List.length_singleton] at hlen
      obtain rfl : k = s.calls.length := by omega
      rw [List.getElem?_concat_length] at hk
      cases hk
      exact hid.trans hnew
  · intro c' hc'
    rcases hmem c' hc' with hc' | rfl
    · exact h.nonzero c' hc'
    · rw [hid]
      exact hzero
  · intro c' hc'
    rcases hmem c' hc' with hc' | rfl
    · exact h.typed c' hc'
    · exact htype
  · intro k
    refine (h.keys k).trans ⟨?_, ?_⟩
    · rintro ⟨c', hc', hp⟩
      exact ⟨c', hgrow c' hc', hp⟩
    · rintro ⟨c', hc', hslot, hk⟩
      rcases hmem c' hc' with hc' | rfl
      · exact ⟨c', hc', hslot, hk⟩
      · rcases hstage with hst | hst <;> simp [Outgoing.hasSlot, hst] at hslot
  · intro i k hk
    obtain ⟨c', hc', hp⟩ := h.owned i k hk
    exact ⟨c', hgrow c' hc', hp⟩
  · intro c' hc' i hst
    rcases hmem c' hc' with hc' | rfl
    · exact h.reading c' hc' i hst
    · rcases hstage with hst' | hst' <;> rw [hst'] at hst <;> cases hst
  · intro b u hb ht
    rcases h.quiet b u hb ht with hq | hq
    · exact .inl hq
    · refine .inr (fun i hm c' hc' hkey => ?_)
      rcases hmem c' hc' with hc' | rfl
      · exact hq i hm c' hc' hkey
      · rw [hid] at hkey
        exact absurd hkey (h.fresh i)
  · intro u hu
    exact (h.writes u hu).mono rfl hgrow (fun l hl hn => ⟨l, hl, hn, fun _ hv => hv⟩)
  · intro c' hc' top htop
    rcases hmem c' hc' with hc' | rfl
    · exact h.returned c' hc' top htop
    · rcases hstage with hst | hst <;> simp [Outgoing.result, hst] at htop

theorem Traced.outStep (h : s.Traced) (htyped : s.Typed) {k : ℕ} {c : Outgoing} {e : OutEvent}
    (hk : s.calls[k]? = some c) (hs : s.OutDoes k c e s') : s'.Traced := by
  have hc := List.mem_of_getElem? hk
  cases hs with
  | moved st hslot hreading hresult =>
      refine h.setStage hk hslot (fun i hi => absurd hi (hreading i)) (fun top ht => ?_)
      rw [hresult] at ht
      cases ht
  | wrote st hslot hreading hresult =>
      refine (h.write hc).setStage hk hslot (fun i hi => absurd hi (hreading i)) (fun top ht => ?_)
      rw [hresult] at ht
      cases ht
  | added hstage => exact h.add hk hstage
  | began i hstage hi => exact h.begin hk hstage hi
  | woken i timedOut cbThrows v r hstage hi hr => exact h.consume htyped hk hstage hi hr cbThrows
  | erased slot r hstage => exact h.erase hk hstage

/-- The event keeps the replies apart: there are fewer than `2 ^ 63` calls and none gets the id of
an event, handlers fail with codes other than zero, and a broken connection without an error code
finds no call without a type. -/
def Addressed (s : RpcEnd) : RpcEvent → Prop
  | .start _ _ _ => s.calls.length + 1 < 2 ^ 63 ∧ nextIndex s.index ≠ 0
  | .served j e => ∀ l ∈ s.incoming[j]?, (s.refresh l).call.FailsNonzero e
  | .systemError code _ =>
      code = 0 → ∀ c ∈ s.calls, c.hasSlot = true → c.llu.messageType ≠ .none
  | _ => True

instance (s : RpcEnd) : (e : RpcEvent) → Decidable (s.Addressed e)
  | .start _ _ _ => inferInstanceAs (Decidable (_ ∧ _))
  | .served _ _ => inferInstanceAs (Decidable (∀ l ∈ _, _))
  | .systemError _ _ => inferInstanceAs (Decidable (_ → _))
  | .out _ _ | .unsent _ _ | .receive _ | .proceed | .badMessage | .cancelAll =>
      inferInstanceAs (Decidable True)

theorem Traced.step (h : s.Traced) (htyped : s.Typed) {e : RpcEvent} (hc : s.Addressed e)
    (hs : s.step opts e = some s') : s'.Traced := by
  cases does_of_step hs with
  | started ch cc m hdirect hcallback => exact h.startCall hdirect hcallback hc.1 hc.2
  | out hk hdoes => exact h.outStep htyped hk hdoes
  | served hj hstep => exact h.served hj (hc _ hj) hstep
  | unsent ex hj hstack hwait heq => exact h.unsent hj heq
  | received u hreader hdoes => exact h.receiveDoes hdoes
  | proceeded hd hreader => exact h.proceed hreader
  | failed code add =>
      refine Traced.pushAll (s := { s with ready := false }) { h with } (.inl rfl) (fun _ => ?_)
      by_cases hcode : code = 0
      · exact .inr (hc hcode)
      · exact .inl hcode
  | bad hside => exact h.pushAll (.inl rfl) (fun _ => .inl (by decide))
  | canceled => exact h.cancelAll

end RpcEnd

/-! ### The two ends -/

/-- The two ends of a connection. -/
structure Link where
  ends : Side → RpcEnd

namespace Link

/-- An end receives what the other has written, in its order. -/
def Delivers (s : Link) (side : Side) : RpcEvent → Prop
  | .receive u => (s.ends side.other).sent[(s.ends side).arrived.length]? = some u
  | _ => True

instance (s : Link) (side : Side) : (e : RpcEvent) → Decidable (s.Delivers side e)
  | .receive _ => inferInstanceAs (Decidable (_ = _))
  | .start _ _ _ | .out _ _ | .served _ _ | .unsent _ _ | .proceed | .systemError _ _
  | .badMessage | .cancelAll => inferInstanceAs (Decidable True)

/-- A step of one end. -/
def step (opts : Side → SessionOptions) (s : Link) (e : Side × RpcEvent) : Option Link :=
  if s.Delivers e.1 e.2 then
    ((s.ends e.1).step (opts e.1) e.2).map (fun s' => ⟨Function.update s.ends e.1 s'⟩)
  else none

/-- See `RpcEnd.Addressed`. -/
def Addressed (s : Link) (e : Side × RpcEvent) : Prop := (s.ends e.1).Addressed e.2

instance (s : Link) (e : Side × RpcEvent) : Decidable (s.Addressed e) :=
  inferInstanceAs (Decidable (RpcEnd.Addressed _ _))

structure Inv (s : Link) : Prop where
  side : ∀ side, (s.ends side).side = side
  traced : ∀ side, (s.ends side).Traced
  fifo : ∀ side, (s.ends side).arrived <+: (s.ends side.other).sent

variable {opts : Side → SessionOptions} {s s' : Link}

theorem Inv.request (h : s.Inv) {side : Side} {u : LowlevelUnit}
    (hu : u ∈ (s.ends side.other).arrived) (ho : u.OfSide side) :
    ∃ c ∈ (s.ends side).calls, c.llu = u := by
  have hsent : u ∈ (s.ends side).sent := by
    have := (h.fifo side.other).subset hu
    rwa [Side.other_other] at this
  rcases (h.traced side).writes u hsent with hc | ⟨l, hl, hn, hlog⟩ | ⟨hother, _⟩ | hf
  · exact hc
  · have hserves := (h.traced side).serves l hl
    have hreq := (hserves.req hn).2
    rw [h.side side] at hreq
    have := ho.congr (hserves.log hn u hlog).messageType.symm
    exact absurd hreq this.not_other
  · rw [h.side side] at hother
    exact absurd hother ho.not_other
  · rw [h.side side] at hf
    exact absurd hf ho.not_foreign

/-- **A reply comes from the request.**  A unit without an error that has arrived as a reply was
written by a local call that the other end has made from the request of a call. -/
theorem Inv.reply (h : s.Inv) {side : Side} {u : LowlevelUnit} (hu : u ∈ (s.ends side).arrived)
    (ho : u.OfSide side) (hcode : u.error.code = 0) (hid : u.id ≠ 0) :
    ∃ l ∈ (s.ends side.other).incoming, l.shared = none ∧
      u ∈ CallEffect.sent l.tracked.log ∧ ∃ c ∈ (s.ends side).calls, c.llu = l.req := by
  have hside := h.side side.other
  rcases (h.traced side.other).writes u ((h.fifo side).subset hu) with
    ⟨c, hc, rfl⟩ | ⟨l, hl, hn, hlog⟩ | ⟨_, hne⟩ | hf
  · rcases (h.traced side.other).typed c hc with hn | hother
    · exact absurd hn ho.ne_none
    · rw [hside] at hother
      exact absurd hother ho.not_other
  · have hserves := (h.traced side.other).serves l hl
    have hsame := hserves.log hn u hlog
    refine ⟨l, hl, hn, hlog, h.request (hserves.req hn).1 ?_⟩
    exact ho.congr hsame.messageType.symm
  · exact absurd hcode hne
  · rw [hside] at hf
    rcases hf with hn | ⟨_, h0⟩
    · exact absurd hn ho.ne_none
    · exact absurd h0 hid

theorem Inv.typed (h : s.Inv) (side : Side) : (s.ends side).Typed := by
  intro u hu ho hcode c hc hid
  rw [h.side side] at ho
  have hzero : u.id ≠ 0 := by
    rw [← hid]
    exact (h.traced side).nonzero c hc
  obtain ⟨l, hl, hn, hlog, c', hc', hreq⟩ := h.reply hu ho hcode hzero
  have hsame := ((h.traced side.other).serves l hl).log hn u hlog
  have hcc : c = c' := by
    refine (h.traced side).unique hc hc' ?_
    rw [hid, hreq]
    exact hsame.id
  rw [hcc, hreq]
  exact hsame.messageType.symm

theorem inv_initial : Inv ⟨RpcEnd.initial⟩ where
  side _ := rfl
  traced := RpcEnd.traced_initial
  fifo _ := List.prefix_rfl

/-- What an end has received stays a prefix of what the other has written. -/
theorem Inv.delivered (h : s.Inv) {side : Side} {e : RpcEvent} (hd : s.Delivers side e) :
    (s.ends side).arrived ++ RpcEnd.received e <+: (s.ends side.other).sent := by
  have hfifo := h.fifo side
  cases e with
  | receive u =>
      obtain ⟨rest, hrest⟩ := hfifo
      have hu : (s.ends side.other).sent[(s.ends side).arrived.length]? = some u := hd
      rw [← hrest, List.getElem?_append_right le_rfl, Nat.sub_self] at hu
      cases rest with
      | nil => cases hu
      | cons v rest =>
          cases hu
          exact ⟨rest, by rw [← hrest]; simp [RpcEnd.received]⟩
  | _ => simpa [RpcEnd.received] using hfifo

theorem Inv.step (h : s.Inv) {e : Side × RpcEvent} (hc : s.Addressed e)
    (hs : s.step opts e = some s') : s'.Inv := by
  obtain ⟨side, e⟩ := e
  unfold Link.step at hs
  split_ifs at hs with hd
  obtain ⟨r, hr, rfl⟩ := Option.map_eq_some_iff.mp hs
  have hgrows := RpcEnd.grows_step hr
  have htraced := (h.traced side).step (h.typed side) hc hr
  have hself : Function.update s.ends side r side = r := Function.update_self _ _ _
  have hother : Function.update s.ends side r side.other = s.ends side.other := by
    refine Function.update_of_ne ?_ _ _
    cases side <;> decide
  have hends : ∀ x, x = side ∨ x = side.other := by
    intro x
    cases side <;> cases x <;> decide
  refine ⟨fun x => ?_, fun x => ?_, fun x => ?_⟩
  · rcases hends x with rfl | rfl
    · exact (congrArg RpcEnd.side hself).trans (hgrows.side.trans (h.side x))
    · exact (congrArg RpcEnd.side hother).trans (h.side side.other)
  · rcases hends x with rfl | rfl
    · dsimp only
      rw [hself]
      exact htraced
    · dsimp only
      rw [hother]
      exact h.traced side.other
  · rcases hends x with rfl | rfl
    · dsimp only
      rw [hself, hother, hgrows.arrived]
      exact h.delivered hd
    · dsimp only
      rw [Side.other_other, hself, hother]
      have := h.fifo side.other
      rw [Side.other_other] at this
      exact this.trans hgrows.sent

end Link

/-- The two ends after the handshake, with a reliable link between them. -/
def linkMachine (opts : Side → SessionOptions) : Machine Link (Side × RpcEvent) where
  init := ⟨RpcEnd.initial⟩
  step := Link.step opts

/-- **Replies reach only the call they answer**, in every run of the two ends in which no unit
without an error code is pushed to the slot of a call without a type: the keys of `rpc_queue_` are
the ids of the calls that have a slot, and a call that returns true has got the response of the
handler that the other end has run for its request. -/
theorem replies_reach_their_calls {opts : Side → SessionOptions} {es : List (Side × RpcEvent)}
    {s : Link} (hrun : (linkMachine opts).run es = some s)
    (hes : (linkMachine opts).Meets Link.Addressed (linkMachine opts).init es) (side : Side) :
    (∀ k, k ∈ (s.ends side).slots.keys ↔
      ∃ c ∈ (s.ends side).calls, c.hasSlot = true ∧ c.llu.id = k) ∧
    (∀ c ∈ (s.ends side).calls, c.hasSlot = false → c.llu.id ∉ (s.ends side).slots.keys) ∧
    ∀ c ∈ (s.ends side).calls, ∀ top, c.result = some top →
      ∃ l ∈ (s.ends side.other).incoming, l.shared = none ∧ l.req = c.llu ∧
        top ∈ CallEffect.sent l.tracked.log ∧ top.error.code = 0 ∧
        (c.llu.opt.acceptResponse = true → top.response = l.tracked.call.hold.res) := by
  have hinv : s.Inv := by
    refine (linkMachine opts).inv_of_meets (C := Link.Addressed) (I := Link.Inv) ?_
      Link.inv_initial hes hrun
    intro s e s' hs he hst
    exact hs.step he hst
  have htraced := hinv.traced side
  refine ⟨htraced.keys, ?_, ?_⟩
  · intro c hc hslot hkey
    obtain ⟨c', hc', hslot', hid⟩ := (htraced.keys _).mp hkey
    rw [htraced.unique hc' hc hid, hslot] at hslot'
    cases hslot'
  · intro c hc top htop
    obtain ⟨hu, ho, hid, _, hcode⟩ := htraced.returned c hc top htop
    rw [hinv.side side] at ho
    have hzero : top.id ≠ 0 := by
      rw [hid]
      exact htraced.nonzero c hc
    obtain ⟨l, hl, hn, hlog, c', hc', hreq⟩ := hinv.reply hu ho hcode hzero
    have hserves := (hinv.traced side.other).serves l hl
    have hsame := hserves.log hn top hlog
    have hcc : c' = c := by
      refine htraced.unique hc' hc ?_
      rw [hreq, ← hid]
      exact hsame.id.symm
    rw [hcc] at hreq
    refine ⟨l, hl, hn, hreq.symm, hlog, hcode, fun ha => ?_⟩
    refine ((hserves.faithful hn).answer top hlog hcode).2 ?_
    rw [hsame.opt, ← hreq]
    exact ha

/-- A call of the client, served and answered by the server. -/
theorem reply_of_served_call :
    let m : MethodCall := ⟨"s", "m", none, true, true, false⟩
    let es : List (Side × RpcEvent) := [(.client, .start (.create .client {} none) none m),
      (.client, .out 0 (.enter true)), (.client, .out 0 .test), (.client, .out 0 .add),
      (.client, .out 0 (.write true)), (.client, .out 0 .read),
      (.server, .receive { id := 103, messageType := .clientCall, serviceId := "s", methodId := "m",
                           opt := ⟨true, false, true⟩ }),
      (.server, .served 0 (.start 1 (fun _ => .ok (some (fun _ => true))))),
      (.server, .served 0 (.respond [7])), (.server, .served 0 (.runDone false true)),
      (.client, .receive { id := 103, messageType := .clientCall, response := [7],
                           opt := ⟨true, false, true⟩ }),
      (.client, .proceed), (.client, .out 0 (.wake false false)), (.client, .out 0 .erase)]
    ∃ s c top, (linkMachine (fun _ => .defaults)).run es = some s ∧ c ∈ (s.ends .client).calls ∧
      c.result = some top ∧ top.response = [7] ∧
      ∃ l ∈ (s.ends .server).incoming, l.req = c.llu ∧ top ∈ CallEffect.sent l.tracked.log := by
  intro m es
  obtain ⟨s, c, top, hs, hc, htop, hres⟩ : ∃ s c top,
      (linkMachine (fun _ => .defaults)).run es = some s ∧ c ∈ (s.ends .client).calls ∧
      c.result = some top ∧ top.response = [7] :=
    ⟨_, _, _, rfl, List.mem_singleton_self _, rfl, rfl⟩
  obtain ⟨l, hl, _, hreq, hlog, _⟩ :=
    (replies_reach_their_calls hs (by decide +kernel) .client).2.2 c hc top htop
  exact ⟨s, c, top, hs, hc, htop, hres, l, hl, hreq, hlog⟩

/-- A channel of the server whose static context accepts no callbacks, with an error callback that
returns: the call has no type.  A message that is too long makes the server push a unit without
type and without error code to all slots, and `call_and_wait` returns true with it. -/
theorem reply_without_handler :
    let m : MethodCall := ⟨"s", "m", none, true, true, false⟩
    let ch : RpcChannel :=
      { directType := .serverCall, callbackType := .serverCallback
        flags := { useContextCall := true, useStaticContext := true }, chanErrorReturns := true }
    let es : List (Side × RpcEvent) := [(.server, .start ch none m), (.server, .out 0 (.enter true)),
      (.server, .out 0 .test), (.server, .out 0 .add), (.server, .out 0 (.write true)),
      (.server, .out 0 .read), (.server, .systemError 0 "Transport read error."),
      (.server, .out 0 (.wake false false))]
    ∃ s c top, (linkMachine (fun _ => .defaults)).run es = some s ∧ c ∈ (s.ends .server).calls ∧
      c.result = some top ∧ (s.ends .client).incoming = [] ∧
      ¬ ∃ l ∈ (s.ends .client).incoming, l.req = c.llu ∧ top ∈ CallEffect.sent l.tracked.log := by
  intro m ch es
  refine ⟨_, _, _, rfl, List.mem_singleton_self _, rfl, rfl, ?_⟩
  rintro ⟨l, hl, _⟩
  cases hl

end Vtrc
