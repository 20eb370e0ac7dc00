import Vtrc.ChannelErrors
import Vtrc.RpcEnd

/-! # Raw calls (`rpc_channel::call_and_wait_raw`)

A raw call hands the units of its slot to an events closure of the caller, and when there is none
it drops them; so the other end must not send callbacks for such a call.  Whether it may is in the
options of the unit it has received (`can_accept_callbacks`), and `call_and_wait_raw` clears that
option when the unit has been sent already.

`rawMachine` is one raw call: its thread, its slot, the two directions of the connection, and the
other end with the call contexts that its handlers may use.  The other end makes its units through
`configure_message`, under any context and on any channel.

* `Untargeted` is the invariant of a call that was sent without the option: no unit on its way to
  the call is a callback for it.
* `callback_discarded` is the run with the option, for any unit.
* `receive_of_rpcEnd` says that the dispatch is that of `RpcEnd`, seen from the slot of the call.
* `raw_call_iff` puts them together. -/

namespace Vtrc

/-- A call context of the other end: its unit, and whether that unit belongs to this connection. -/
structure PeerContext where
  unit : LowlevelUnit
  own : Bool
deriving DecidableEq, Repr

/-- Where the thread of a raw call stands; `over` has what `raw_call` returns. -/
inductive RawStage where
  | configured
  | waiting
  | over (top : Option LowlevelUnit)
deriving DecidableEq, Repr

/-- `contexts` are those of the other end, `handled` and `discarded` the units of the slot that
were passed to the events closure and that were not. -/
structure RawCall where
  call : LowlevelUnit
  stage : RawStage := .configured
  slot : Option (List LowlevelUnit) := none
  toPeer : List LowlevelUnit := []
  toCaller : List LowlevelUnit := []
  contexts : List PeerContext := []
  handled : List LowlevelUnit := []
  discarded : List LowlevelUnit := []
deriving DecidableEq, Repr

inductive RawEvent where
  /-- `call_and_wait_raw` up to its loop: the connection is active, the layer ready, and the write
  raises no exception. -/
  | send (active ready writes : Bool)
  /-- This end writes another unit. -/
  | other (llu : LowlevelUnit)
  /-- The other end takes a unit; `made` says that a call is made from it. -/
  | take (made : Bool)
  /-- The other end executes a call that it has received on another connection. -/
  | foreign (llu : LowlevelUnit)
  /-- A channel of the other end sends a unit, see `peerChannel`. -/
  | peerSends (flags : ChannelFlags) (returns : Bool) (static current : Option PeerContext)
      (id : UInt64) (req : Option Bytes) (llu : LowlevelUnit)
  /-- The other end answers a call. -/
  | reply (llu : LowlevelUnit)
  /-- This end takes a unit; `elsewhere` says that its target has a slot, when that is not the
  slot of this call. -/
  | arrive (elsewhere : Bool)
  /-- An error is pushed to all slots. -/
  | pushAll (err : ErrorContainer)
  /-- The loop reads the slot. -/
  | read
  /-- The read ends with a time-out or a cancellation. -/
  | interrupted (err : ErrorContainer)

namespace RawCall

variable (side : Side) (events : Bool)

/-- A channel of the other end, with the context under which it was made or that was set. -/
def peerChannel (flags : ChannelFlags) (returns : Bool) (static : Option PeerContext) : RpcChannel :=
  { RpcChannel.create side.other flags (static.map PeerContext.unit) with chanErrorReturns := returns }

def push (s : RawCall) (llu : LowlevelUnit) : RawCall :=
  { s with slot := s.slot.map (· ++ [llu]) }

/-- `process_call`: on a client, the id 0 marks an event for all slots. -/
def processCall (s : RawCall) (llu : LowlevelUnit) : RawCall :=
  if side = .client ∧ llu.id = 0 then s.push llu else s

/-- `process_insertion`. -/
def processInsertion (s : RawCall) (elsewhere : Bool) (llu : LowlevelUnit) : RawCall :=
  if llu.targetId = s.call.id ∧ s.slot.isSome = true then s.push llu
  else if !elsewhere && llu.callbackAlone then s.processCall side llu
  else s

/-- The dispatch of a unit at this end. -/
def receive (s : RawCall) (elsewhere : Bool) (llu : LowlevelUnit) : RawCall :=
  if llu.messageType = side.other.directType then s.processCall side llu
  else if llu.messageType = side.other.callbackType then s.processInsertion side elsewhere llu
  else if (llu.messageType = side.directType ∨ llu.messageType = side.callbackType) ∧
      llu.id = s.call.id then s.push llu
  else s

/-- `call_and_wait_raw` up to its loop.  The option is cleared in the unit of the caller, behind
the write. -/
def send (s : RawCall) (active ready writes : Bool) : RawCall :=
  if active && ready && writes then
    { s with
      stage := .waiting
      slot := some []
      toPeer := s.toPeer ++ [s.call]
      call := if events then s.call
        else { s.call with opt := { s.call.opt with acceptCallbacks := false } } }
  else { s with stage := .over none }

/-- The body of the loop. -/
def consume (s : RawCall) (top : LowlevelUnit) : RawCall :=
  if top.error.code ≠ 0 then { s with stage := .over (some top), slot := none }
  else if top.messageType ≠ s.call.messageType then
    if events then { s with handled := s.handled ++ [top] }
    else { s with discarded := s.discarded ++ [top] }
  else { s with stage := .over (some top), slot := none }

def step (s : RawCall) : RawEvent → Option RawCall
  | .send active ready writes =>
      if s.stage = .configured then some (s.send events active ready writes) else none
  | .other llu => some { s with toPeer := s.toPeer ++ [llu] }
  | .take made =>
      match s.toPeer with
      | [] => none
      | llu :: rest =>
          -- only requests of this end become calls
          if made && (llu.messageType = side.directType || llu.messageType = side.callbackType) then
            some { s with toPeer := rest, contexts := s.contexts ++ [⟨llu, true⟩] }
          else some { s with toPeer := rest }
  | .foreign llu => some { s with contexts := s.contexts ++ [⟨llu, false⟩] }
  | .peerSends flags returns static current id req llu =>
      -- the two ends number their calls by odd and by even numbers
      if (∀ c ∈ static, c ∈ s.contexts) ∧ (∀ c ∈ current, c ∈ s.contexts) ∧ id ≠ s.call.id then
        let ch := peerChannel side flags returns static
        match ch.configureMessage (current.map PeerContext.unit) id ch.messageType req llu with
        | some u => some { s with
            toCaller := s.toCaller ++ [u]
            contexts := s.contexts ++ [⟨u, true⟩] }
        | none => some s
      else none
  | .reply llu =>
      -- a reply has the type of its request
      if llu.messageType = side.directType ∨ llu.messageType = side.callbackType then
        some { s with toCaller := s.toCaller ++ [llu] }
      else none
  | .arrive elsewhere =>
      match s.toCaller with
      | [] => none
      | llu :: rest => some ({ s with toCaller := rest }.receive side elsewhere llu)
  | .pushAll err => some (s.push { error := err })
  | .read =>
      match s.stage, s.slot with
      | .waiting, some (top :: rest) => some ({ s with slot := some rest }.consume events top)
      | _, _ => none
  | .interrupted err =>
      if s.stage = .waiting then some { s with stage := .over (some { error := err }), slot := none }
      else none

end RawCall

/-- The unit has been shared with all slots, or the reading thread has found the slot number `i`
for it. -/
def ReachesSlot (s s' : RpcEnd) (i : ℕ) (llu : LowlevelUnit) : Prop :=
  s'.reader = some (.push i llu) ∨ s'.broadcasts = s.broadcasts ++ [llu]

theorem reachesSlot_processCall_iff (opts : SessionOptions) {s : RpcEnd} (hreader : s.reader = none)
    {i : ℕ} {llu : LowlevelUnit} :
    ReachesSlot s (s.processCall opts llu) i llu ↔ s.side = .client ∧ llu.id = 0 := by
  unfold ReachesSlot
  generalize hs : s.processCall opts llu = s'
  cases hs ▸ RpcEnd.callDoes_processCall opts s llu with
  | posted hside hid => simp [RpcEnd.post, hreader, hid]
  | event hside hid => simp [RpcEnd.pushAll, hside, hid]
  | admitted hside hmax => simp [RpcEnd.post, hreader, hside]
  | busy hside hmax hready => simp [hreader, hside]
  | mute hside hmax hwait hready => simp [hreader, hside]

/-- The slot of a raw call gets what the end pushes to it, and nothing else. -/
theorem receive_of_rpcEnd {opts : SessionOptions} {s : RpcEnd} {r : RawCall} {i : ℕ}
    (hi : s.slots.valueByKey r.call.id = some i) (hr : r.slot.isSome = true)
    (hreader : s.reader = none) (llu : LowlevelUnit) :
    (ReachesSlot s (s.receive opts llu) i llu ∧
        r.receive s.side (s.slots.valueByKey llu.targetId).isSome llu = r.push llu) ∨
      (¬ ReachesSlot s (s.receive opts llu) i llu ∧
        r.receive s.side (s.slots.valueByKey llu.targetId).isSome llu = r) := by
  have hkey : ∀ {id j}, s.slots.valueByKey id = some j → (j = i ↔ id = r.call.id) := by
    intro id j hj
    constructor
    · rintro rfl
      exact (CondQueues.keyAt_of_valueByKey hj).eq (CondQueues.keyAt_of_valueByKey hi)
    · rintro rfl
      exact Option.some.inj (hj.symm.trans hi)
  -- what the two do with a request, and with a unit for the slot number `j`
  have hcall : ∀ s₁ : RpcEnd, s₁.side = s.side → s₁.reader = none → s₁.broadcasts = s.broadcasts →
      (ReachesSlot s (s₁.processCall opts llu) i llu ∧ r.processCall s.side llu = r.push llu) ∨
        (¬ ReachesSlot s (s₁.processCall opts llu) i llu ∧ r.processCall s.side llu = r) := by
    intro s₁ hside hread hb
    have hiff : ReachesSlot s (s₁.processCall opts llu) i llu ↔ s.side = .client ∧ llu.id = 0 := by
      rw [← hside, ← reachesSlot_processCall_iff opts hread, ReachesSlot, ReachesSlot, hb]
    unfold RawCall.processCall
    by_cases h : s.side = .client ∧ llu.id = 0
    · exact .inl ⟨hiff.mpr h, if_pos h⟩
    · exact .inr ⟨mt hiff.mp h, if_neg h⟩
  have hpush : ∀ (id : UInt64) (j : ℕ), s.slots.valueByKey id = some j →
      ∀ s₁ : RpcEnd, s₁.broadcasts = s.broadcasts →
      (ReachesSlot s { s₁ with reader := some (.push j llu) } i llu ↔ id = r.call.id) := by
    intro id j hj s₁ hb
    simp [ReachesSlot, hb, hkey hj]
  unfold RawCall.receive RpcEnd.receive
  dsimp only
  by_cases hdirect : llu.messageType = s.side.other.directType
  · rw [if_pos hdirect, if_pos hdirect]
    exact hcall _ rfl hreader rfl
  rw [if_neg hdirect, if_neg hdirect]
  by_cases hcallback : llu.messageType = s.side.other.callbackType
  · rw [if_pos hcallback, if_pos hcallback]
    unfold RawCall.processInsertion RpcEnd.processInsertion
    cases hj : s.slots.valueByKey llu.targetId with
    | some j =>
        dsimp only
        by_cases htarget : llu.targetId = r.call.id
        · rw [if_pos ⟨htarget, hr⟩]
          exact .inl ⟨(hpush _ j hj _ rfl).mpr htarget, rfl⟩
        · rw [if_neg (fun h => htarget h.1)]
          exact .inr ⟨mt (hpush _ j hj _ rfl).mp htarget, rfl⟩
    | none =>
        have htarget : llu.targetId ≠ r.call.id := by
          intro htarget
          rw [htarget, hi] at hj
          cases hj
        have hno : ¬ (llu.targetId = r.call.id ∧ r.slot.isSome = true) := fun h => htarget h.1
        rw [if_neg hno]
        cases halone : llu.callbackAlone with
        | true => exact hcall _ rfl hreader rfl
        | false =>
            refine .inr ⟨?_, rfl⟩
            cases llu.opt.wait <;> simp [ReachesSlot, hreader]
  rw [if_neg hcallback, if_neg hcallback]
  by_cases hanswer : llu.messageType = s.side.directType ∨ llu.messageType = s.side.callbackType
  · rw [if_pos hanswer]
    unfold RpcEnd.processAnswer
    cases hj : s.slots.valueByKey llu.id with
    | some j =>
        dsimp only
        by_cases hid : llu.id = r.call.id
        · rw [if_pos ⟨hanswer, hid⟩]
          exact .inl ⟨(hpush _ j hj _ rfl).mpr hid, rfl⟩
        · rw [if_neg (fun h => hid h.2)]
          exact .inr ⟨mt (hpush _ j hj _ rfl).mp hid, rfl⟩
    | none =>
        have hid : llu.id ≠ r.call.id := by
          intro hid
          rw [hid, hi] at hj
          cases hj
        rw [if_neg (fun h => hid h.2)]
        exact .inr ⟨by simp [ReachesSlot, hreader], rfl⟩
  · rw [if_neg hanswer, if_neg (fun h => hanswer h.1)]
    exact .inr ⟨by simp [ReachesSlot, hreader], rfl⟩

/-- A raw call with the configured unit `u`. -/
def rawMachine (side : Side) (events : Bool) (u : LowlevelUnit) : Machine RawCall RawEvent where
  init := { call := u }
  step := RawCall.step side events

/-- A callback of the other end for the call `u`. -/
structure CallbackFor (side : Side) (u b : LowlevelUnit) : Prop where
  type : b.messageType = side.other.callbackType
  target : b.targetId = u.id

/-- What a raw call relies on: no other unit of this end has its id, the other end uses no context
of another connection with that id, and a channel of it that reports an invalid context sends
nothing. -/
def Undisturbed (side : Side) (s : RawCall) : RawEvent → Prop
  | .other llu => llu.id ≠ s.call.id
  | .peerSends flags returns static current _ _ _ =>
      (∀ c ∈ static, c.own = true ∨ c.unit.id ≠ s.call.id) ∧
        (∀ c ∈ current, c.own = true ∨ c.unit.id ≠ s.call.id) ∧
        ((RawCall.peerChannel side flags returns static).InvalidContext → returns = false)
  | _ => True

instance (side : Side) (s : RawCall) : (e : RawEvent) → Decidable (Undisturbed side s e)
  | .other _ => inferInstanceAs (Decidable (_ ≠ _))
  | .peerSends .. => inferInstanceAs (Decidable (_ ∧ _ ∧ _))
  | .send .. | .take _ | .foreign _ | .reply _ | .arrive _ | .pushAll _ | .read | .interrupted _ =>
      inferInstanceAs (Decidable True)

/-! ### A call that does not accept callbacks -/

/-- The unit does not accept callbacks. -/
def Declines (x : LowlevelUnit) : Prop := x.opt.acceptCallbacks = false

/-- The other end has no context that accepts callbacks for `u`, and no callback for `u` is on its
way or has been taken from the slot. -/
structure Untargeted (side : Side) (u : LowlevelUnit) (s : RawCall) : Prop where
  id : s.call.id = u.id
  declines : Declines s.call
  toPeer : ∀ x ∈ s.toPeer, x.id = u.id → Declines x
  contexts : ∀ c ∈ s.contexts, c.own = true → c.unit.id = u.id → Declines c.unit
  toCaller : ∀ b ∈ s.toCaller, ¬ CallbackFor side u b
  slot : ∀ q ∈ s.slot, ∀ b ∈ q, ¬ CallbackFor side u b
  discarded : ∀ b ∈ s.discarded, ¬ CallbackFor side u b

section
variable {side : Side} {events : Bool} {u : LowlevelUnit}

theorem directType_ne_callbackType (side : Side) : side.directType ≠ side.callbackType := by
  cases side <;> decide

theorem own_ne_other_callbackType (side : Side) {t : MessageType}
    (h : t = side.directType ∨ t = side.callbackType) : t ≠ side.other.callbackType := by
  rcases h with rfl | rfl <;> cases side <;> decide

theorem peerChannel_fields (side : Side) (flags : ChannelFlags) (returns : Bool)
    (static : Option PeerContext) :
    (RawCall.peerChannel side flags returns static).directType = side.other.directType ∧
      (RawCall.peerChannel side flags returns static).callbackType = side.other.callbackType ∧
      (RawCall.peerChannel side flags returns static).chanErrorReturns = returns ∧
      ((RawCall.peerChannel side flags returns static).acceptCallbacks = true →
        ∃ c, static = some c ∧ canAcceptCallbacks c.unit = true ∧
          (RawCall.peerChannel side flags returns static).staticTarget = c.unit.id) := by
  cases static with
  | none => exact ⟨rfl, rfl, rfl, fun h => by cases h⟩
  | some c => exact ⟨rfl, rfl, rfl, fun h => ⟨c, rfl, h, rfl⟩⟩

theorem not_canAccept {x : LowlevelUnit} (h : Declines x) : canAcceptCallbacks x = false := by
  rw [canAcceptCallbacks, h, Bool.and_false]

/-- Only an accepting context of the call makes a callback for it. -/
theorem not_callbackFor_of_configure {flags : ChannelFlags} {returns : Bool}
    {static current : Option PeerContext} {id : UInt64} {req : Option Bytes}
    {llu b : LowlevelUnit} (hstatic : ∀ c ∈ static, c.unit.id = u.id → Declines c.unit)
    (hcurrent : ∀ c ∈ current, c.unit.id = u.id → Declines c.unit)
    (hinvalid : (RawCall.peerChannel side flags returns static).InvalidContext → returns = false)
    (hb : (RawCall.peerChannel side flags returns static).configureMessage
      (current.map PeerContext.unit) id
      (RawCall.peerChannel side flags returns static).messageType req llu = some b) :
    ¬ CallbackFor side u b := by
  rintro ⟨htype, htarget⟩
  obtain ⟨hdirect, hcallback, hreturns, haccept⟩ := peerChannel_fields side flags returns static
  generalize RawCall.peerChannel side flags returns static = ch at *
  obtain ⟨-, -, ⟨hne, ht⟩ | ⟨hcb, hs, ha, hr, -⟩ | ⟨-, -, ha, -, ht⟩ | ⟨-, -, c, hc, hca, -, ht⟩ |
    ⟨-, -, -, ht⟩⟩ := RpcChannel.configureMessage_cases hb
  · rw [← hcallback, ht] at htype
    exact hne htype
  · have := hinvalid ⟨hcb, hs, ha⟩
    rw [hr, this] at hreturns
    cases hreturns
  · obtain ⟨c, hstat, hca, htgt⟩ := haccept ha
    have hd := hstatic c hstat (htgt.symm.trans (ht.symm.trans htarget))
    rw [not_canAccept hd] at hca
    cases hca
  · obtain ⟨c', hcur, rfl⟩ := Option.map_eq_some_iff.mp hc
    have hd := hcurrent c' hcur (ht.symm.trans htarget)
    rw [not_canAccept hd] at hca
    cases hca
  · rw [ht, hdirect] at htype
    exact directType_ne_callbackType _ htype

/-! ### The steps -/

theorem Untargeted.push {s : RawCall} (h : Untargeted side u s) {b : LowlevelUnit}
    (hb : ¬ CallbackFor side u b) : Untargeted side u (s.push b) := by
  refine { h with slot := ?_ }
  intro q hq
  obtain ⟨q', hq', rfl⟩ := Option.map_eq_some_iff.mp hq
  exact List.forall_mem_append.mpr ⟨h.slot q' hq', List.forall_mem_singleton.mpr hb⟩

theorem Untargeted.processCall {s : RawCall} (h : Untargeted side u s) {b : LowlevelUnit}
    (hb : ¬ CallbackFor side u b) : Untargeted side u (s.processCall side b) := by
  unfold RawCall.processCall
  split_ifs
  · exact h.push hb
  · exact h

theorem Untargeted.receive {s : RawCall} (h : Untargeted side u s) {b : LowlevelUnit}
    (hb : ¬ CallbackFor side u b) (elsewhere : Bool) :
    Untargeted side u (s.receive side elsewhere b) := by
  unfold RawCall.receive RawCall.processInsertion
  split_ifs
  · exact h.processCall hb
  · exact h.push hb
  · exact h.processCall hb
  · exact h
  · exact h.push hb
  · exact h

theorem Untargeted.send {s : RawCall} (h : Untargeted side u s) (active ready writes : Bool) :
    Untargeted side u (s.send events active ready writes) := by
  have htoPeer : ∀ x ∈ s.toPeer ++ [s.call], x.id = u.id → Declines x :=
    List.forall_mem_append.mpr
      ⟨h.toPeer, List.forall_mem_singleton.mpr (fun _ => h.declines)⟩
  have hslot : ∀ q ∈ (some [] : Option (List LowlevelUnit)), ∀ b ∈ q, ¬ CallbackFor side u b := by
    intro q hq b hb
    obtain rfl := Option.some.inj hq
    cases hb
  unfold RawCall.send
  split_ifs
  · exact { h with toPeer := htoPeer, slot := hslot }
  · exact { h with toPeer := htoPeer, slot := hslot, declines := rfl }
  · exact { h with }

theorem Untargeted.consume {s : RawCall} (h : Untargeted side u s) {top : LowlevelUnit}
    (htop : ¬ CallbackFor side u top) : Untargeted side u (s.consume events top) := by
  have hnone : ∀ q ∈ (none : Option (List LowlevelUnit)), ∀ b ∈ q, ¬ CallbackFor side u b :=
    fun _ hq => by cases hq
  unfold RawCall.consume
  split_ifs
  · exact { h with slot := hnone }
  · exact { h with }
  · refine { h with discarded := List.forall_mem_append.mpr ⟨h.discarded, ?_⟩ }
    exact List.forall_mem_singleton.mpr htop
  · exact { h with slot := hnone }

theorem Untargeted.peerSends {s : RawCall} (h : Untargeted side u s) {flags : ChannelFlags}
    {returns : Bool} {static current : Option PeerContext} {id : UInt64} {req : Option Bytes}
    {llu b : LowlevelUnit} (hstatic : ∀ c ∈ static, c ∈ s.contexts)
    (hcurrent : ∀ c ∈ current, c ∈ s.contexts) (hid : id ≠ s.call.id)
    (hok : Undisturbed side s (.peerSends flags returns static current id req llu))
    (hb : (RawCall.peerChannel side flags returns static).configureMessage
      (current.map PeerContext.unit) id
      (RawCall.peerChannel side flags returns static).messageType req llu = some b) :
    Untargeted side u { s with
      toCaller := s.toCaller ++ [b]
      contexts := s.contexts ++ [⟨b, true⟩] } := by
  obtain ⟨hownStatic, hownCurrent, hinvalid⟩ := hok
  have hdeclines {c : PeerContext} (hc : c ∈ s.contexts)
      (hown : c.own = true ∨ c.unit.id ≠ s.call.id) (hcid : c.unit.id = u.id) : Declines c.unit :=
    h.contexts c hc (hown.resolve_right (fun hne => hne (hcid.trans h.id.symm))) hcid
  have hnot : ¬ CallbackFor side u b := not_callbackFor_of_configure
    (fun c hc => hdeclines (hstatic c hc) (hownStatic c hc))
    (fun c hc => hdeclines (hcurrent c hc) (hownCurrent c hc)) hinvalid hb
  have hbid : b.id = id := (RpcChannel.configureMessage_cases hb).1
  refine { h with
    contexts := List.forall_mem_append.mpr ⟨h.contexts, List.forall_mem_singleton.mpr ?_⟩
    toCaller := List.forall_mem_append.mpr ⟨h.toCaller, List.forall_mem_singleton.mpr hnot⟩ }
  intro _ hcid
  exact (hid (hbid.symm.trans (hcid.trans h.id.symm))).elim

theorem Untargeted.step {s s' : RawCall} {e : RawEvent} (h : Untargeted side u s)
    (hok : Undisturbed side s e) (hstep : s.step side events e = some s') :
    Untargeted side u s' := by
  cases e with
  | send active ready writes =>
      rw [RawCall.step] at hstep
      split_ifs at hstep
      obtain rfl := Option.some.inj hstep
      exact h.send active ready writes
  | other llu =>
      obtain rfl := Option.some.inj hstep
      refine { h with
        toPeer := List.forall_mem_append.mpr ⟨h.toPeer, List.forall_mem_singleton.mpr ?_⟩ }
      exact fun hid => (hok (hid.trans h.id.symm)).elim
  | take made =>
      rw [RawCall.step] at hstep
      split at hstep
      · cases hstep
      rename_i llu rest hpeer
      have hrest : ∀ x ∈ rest, x.id = u.id → Declines x := fun x hx =>
        h.toPeer x (by rw [hpeer]; exact List.mem_cons_of_mem llu hx)
      split_ifs at hstep
      · obtain rfl := Option.some.inj hstep
        refine { h with
          toPeer := hrest
          contexts := List.forall_mem_append.mpr ⟨h.contexts, List.forall_mem_singleton.mpr ?_⟩ }
        exact fun _ hid => h.toPeer llu (by rw [hpeer]; exact List.mem_cons_self) hid
      · obtain rfl := Option.some.inj hstep
        exact { h with toPeer := hrest }
  | foreign llu =>
      obtain rfl := Option.some.inj hstep
      refine { h with
        contexts := List.forall_mem_append.mpr ⟨h.contexts, List.forall_mem_singleton.mpr ?_⟩ }
      exact fun hown => (Bool.false_ne_true hown).elim
  | peerSends flags returns static current id req llu =>
      rw [RawCall.step] at hstep
      split_ifs at hstep with hguard
      obtain ⟨hstatic, hcurrent, hid⟩ := hguard
      dsimp only at hstep
      split at hstep
      · rename_i b hb
        obtain rfl := Option.some.inj hstep
        exact h.peerSends hstatic hcurrent hid hok hb
      · obtain rfl := Option.some.inj hstep
        exact h
  | reply llu =>
      rw [RawCall.step] at hstep
      split_ifs at hstep with htype
      obtain rfl := Option.some.inj hstep
      refine { h with
        toCaller := List.forall_mem_append.mpr ⟨h.toCaller, List.forall_mem_singleton.mpr ?_⟩ }
      exact fun hcb => own_ne_other_callbackType side htype hcb.type
  | arrive elsewhere =>
      rw [RawCall.step] at hstep
      split at hstep
      · cases hstep
      rename_i llu rest hcaller
      obtain rfl := Option.some.inj hstep
      have hrest : Untargeted side u { s with toCaller := rest } :=
        { h with toCaller := fun x hx =>
            h.toCaller x (by rw [hcaller]; exact List.mem_cons_of_mem llu hx) }
      exact hrest.receive (h.toCaller llu (by rw [hcaller]; exact List.mem_cons_self)) elsewhere
  | pushAll err =>
      obtain rfl := Option.some.inj hstep
      refine h.push (fun hcb => ?_)
      have := hcb.type
      cases side <;> cases this
  | read =>
      rw [RawCall.step] at hstep
      split at hstep
      · rename_i top rest _ hslot
        obtain rfl := Option.some.inj hstep
        have hall := h.slot _ hslot
        have hrest : Untargeted side u { s with slot := some rest } := by
          refine { h with slot := fun q hq b hb => ?_ }
          obtain rfl := Option.some.inj hq
          exact hall b (List.mem_cons_of_mem top hb)
        exact hrest.consume (hall top List.mem_cons_self)
      · cases hstep
  | interrupted err =>
      rw [RawCall.step] at hstep
      split_ifs at hstep
      obtain rfl := Option.some.inj hstep
      exact { h with slot := fun q hq => by cases hq }

theorem untargeted_init (hdeclines : Declines u) :
    Untargeted side u (rawMachine side events u).init where
  id := rfl
  declines := hdeclines
  toPeer := fun _ hx => by cases hx
  contexts := fun _ hc => by cases hc
  toCaller := fun _ hb => by cases hb
  slot := fun _ hq => by cases hq
  discarded := fun _ hb => by cases hb

/-! ### A call that accepts callbacks -/

/-- The callback of a handler of `u`: a call on a channel with `USE_CONTEXT_CALL`. -/
def handlerCallback (side : Side) (u : LowlevelUnit) : LowlevelUnit :=
  { id := u.id + 1, targetId := u.id, messageType := side.other.callbackType, opt := { wait := true } }

/-- The handler of `u` makes it, and the loop of the raw call takes it from the slot. -/
def callbackRun (u : LowlevelUnit) : List RawEvent :=
  [.send true true true, .take true,
    .peerSends { useContextCall := true } false none (some ⟨u, true⟩) (u.id + 1) none
      { opt := { wait := true } },
    .arrive false, .read]

theorem configure_handlerCallback (haccepts : canAcceptCallbacks u = true) :
    (RawCall.peerChannel side { useContextCall := true } false none).configureMessage (some u)
        (u.id + 1) (RawCall.peerChannel side { useContextCall := true } false none).messageType none
        { opt := { wait := true } } = some (handlerCallback side u) := by
  have hcallback : (RawCall.peerChannel side { useContextCall := true } false none).messageType =
      (RawCall.peerChannel side { useContextCall := true } false none).callbackType := rfl
  rw [RpcChannel.configureMessage, if_pos hcallback]
  change (if canAcceptCallbacks u = true then _ else _) = _
  rw [if_pos haccepts]
  rfl

variable (side) in
theorem callback_discarded (hwait : u.opt.wait = true) (haccept : u.opt.acceptCallbacks = true)
    (htype : u.messageType = side.directType ∨ u.messageType = side.callbackType) :
    ∃ s, (rawMachine side false u).run (callbackRun u) = some s ∧
      s.discarded = [handlerCallback side u] := by
  have hid : u.id + 1 ≠ u.id := by
    intro h
    have := congrArg UInt64.toNat h
    simp [UInt64.toNat_add] at this
    omega
  have haccepts : canAcceptCallbacks u = true := by
    rw [canAcceptCallbacks, hwait, haccept]
    rfl
  have hdirect : (handlerCallback side u).messageType ≠ side.other.directType :=
    (directType_ne_callbackType _).symm
  have hown := own_ne_other_callbackType side htype
  let s₁ : RawCall :=
    { call := { u with opt := { u.opt with acceptCallbacks := false } }, stage := .waiting
      slot := some [], toPeer := [u] }
  have h₁ : RawCall.step side false (rawMachine side false u).init (.send true true true) =
      some s₁ := rfl
  let s₂ : RawCall := { s₁ with toPeer := [], contexts := [⟨u, true⟩] }
  have h₂ : RawCall.step side false s₁ (.take true) = some s₂ := by
    have hmade : (true && (u.messageType = side.directType || u.messageType = side.callbackType)) =
        true := by simpa using htype
    exact if_pos hmade
  let s₃ : RawCall := { s₂ with
    toCaller := [handlerCallback side u], contexts := [⟨u, true⟩, ⟨handlerCallback side u, true⟩] }
  have h₃ : RawCall.step side false s₂ (.peerSends { useContextCall := true } false none
      (some ⟨u, true⟩) (u.id + 1) none { opt := { wait := true } }) = some s₃ := by
    rw [RawCall.step, if_pos ⟨by simp, by simp [s₂], hid⟩]
    simp only [Option.map_some, configure_handlerCallback haccepts]
    rfl
  let s₄ : RawCall := { s₃ with toCaller := [], slot := some [handlerCallback side u] }
  have h₄ : RawCall.step side false s₃ (.arrive false) = some s₄ := by
    have hinsert : RawCall.receive side { s₃ with toCaller := [] } false (handlerCallback side u) =
        s₄ := by
      have hcallback : (handlerCallback side u).messageType = side.other.callbackType := rfl
      rw [RawCall.receive, if_neg hdirect, if_pos hcallback, RawCall.processInsertion, if_pos]
      · rfl
      · exact ⟨rfl, rfl⟩
    exact congrArg some hinsert
  let s₅ : RawCall := { s₄ with slot := some [], discarded := [handlerCallback side u] }
  have h₅ : RawCall.step side false s₄ .read = some s₅ := by
    have hloop : RawCall.consume false { s₄ with slot := some [] } (handlerCallback side u) = s₅ := by
      rw [RawCall.consume, if_neg (by simp [handlerCallback]), if_pos]
      · rfl
      · exact hown.symm
    exact congrArg some hloop
  refine ⟨s₅, ?_, rfl⟩
  rw [callbackRun, Machine.run]
  simp only [Machine.runFrom_cons_eq_some]
  exact ⟨s₁, h₁, s₂, h₂, s₃, h₃, s₄, h₄, s₅, h₅, rfl⟩

end

theorem callbackRun_undisturbed (side : Side) (s : RawCall) (u : LowlevelUnit) :
    (rawMachine side false u).Meets (Undisturbed side) s (callbackRun u) := by
  have hsends (s' : RawCall) : Undisturbed side s' (.peerSends { useContextCall := true } false none
      (some ⟨u, true⟩) (u.id + 1) none { opt := { wait := true } }) := by
    refine ⟨fun c hc => (by cases hc), fun c hc => ?_, fun _ => rfl⟩
    obtain rfl := Option.some.inj hc
    exact .inl rfl
  exact ⟨trivial, fun _ _ => ⟨trivial, fun _ _ => ⟨hsends _, fun _ _ => ⟨trivial, fun _ _ =>
    ⟨trivial, fun _ _ => trivial⟩⟩⟩⟩⟩

/-- A unit that `configure_message` has not refused is a request of its side. -/
theorem configured_type {side : Side} {ch : RpcChannel} {cc : Option LowlevelUnit} {id : UInt64}
    {req : Option Bytes} {llu u : LowlevelUnit} (hside : ch.directType = side.directType)
    (hcallback : ch.callbackType = side.callbackType) (hvalid : ¬ ch.InvalidContext)
    (hconf : ch.configureMessage cc id ch.messageType req llu = some u) :
    u.messageType = side.directType ∨ u.messageType = side.callbackType := by
  rw [← hside, ← hcallback]
  obtain ⟨-, -, ⟨hne, ht⟩ | ⟨hcb, hs, ha, -, -⟩ | ⟨hcb, -, -, ht, -⟩ | ⟨hcb, -, c, -, -, ht, -⟩ |
    ⟨-, -, -, ht⟩⟩ := RpcChannel.configureMessage_cases hconf
  · rw [ht, RpcChannel.messageType]
    split_ifs
    · exact .inr rfl
    · exact .inl rfl
  · exact (hvalid ⟨hcb, hs, ha⟩).elim
  · exact .inr (ht.trans hcb)
  · exact .inr (ht.trans hcb)
  · exact .inl ht

/-- **Raw calls swallow no callback** in any run exactly when the unit that is sent does not accept
callbacks. -/
theorem raw_call_iff (side : Side) (ch : RpcChannel) (cc : Option LowlevelUnit) (id : UInt64)
    (req : Option Bytes) (llu u : LowlevelUnit) (hside : ch.directType = side.directType)
    (hcallback : ch.callbackType = side.callbackType) (hvalid : ¬ ch.InvalidContext)
    (hconf : ch.configureMessage cc id ch.messageType req llu = some u)
    (hwait : llu.opt.wait = true) :
    (∀ es s, (rawMachine side false u).run es = some s →
      (rawMachine side false u).Meets (Undisturbed side) (rawMachine side false u).init es →
      ∀ b ∈ s.discarded, ¬ (CallbackFor side u b ∧ b.opt.wait = true)) ↔
    llu.opt.acceptCallbacks = false := by
  have hopt : u.opt = llu.opt := (RpcChannel.configureMessage_cases hconf).2.1
  rw [← hopt] at hwait ⊢
  constructor
  · intro h
    by_contra haccept
    have htype := configured_type hside hcallback hvalid hconf
    obtain ⟨s, hrun, hdisc⟩ := callback_discarded side hwait (by simpa using haccept) htype
    exact h _ s hrun (callbackRun_undisturbed side _ u) (handlerCallback side u)
      (by rw [hdisc]; exact List.mem_singleton.mpr rfl) ⟨⟨rfl, rfl⟩, rfl⟩
  · intro hdeclines es s hrun hmeets b hb hcb
    have hinv : Untargeted side u s := (rawMachine side false u).inv_of_meets
      (fun _ _ _ hi hc hs => hi.step hc hs) (untargeted_init hdeclines) hmeets hrun
    exact hinv.discarded b hb hcb.1

/-- The caller has not set the option: a handler of the other end falls back to a direct call, and
the raw call returns its reply. -/
theorem raw_call_declining :
    let llu : LowlevelUnit := { opt := { wait := true } }
    let u : LowlevelUnit := { llu with id := 103, messageType := .clientCall }
    let es := [.send true true true, .take true,
      .peerSends { useContextCall := true } false none (some ⟨u, true⟩) 100 none llu,
      .arrive false, .reply u, .arrive false, .read]
    ∃ s, (rawMachine .client false u).run es = some s ∧ s.stage = .over (some u) ∧
      ∀ b ∈ s.discarded, ¬ (CallbackFor .client u b ∧ b.opt.wait = true) := by
  intro llu u es
  obtain ⟨s, hs, hstage⟩ := (rawMachine .client false u).exists_run es
    (fun s => s.stage = .over (some u)) (by decide)
  exact ⟨s, hs, hstage, (raw_call_iff .client (.create .client {} none) none 103 none llu u rfl rfl
    (by decide) (by decide) rfl).mpr rfl es s hs (by decide)⟩

/-- The caller has set the option, as a proxy does that passes on a unit it has received: the
callback is discarded. -/
theorem raw_call_accepting :
    let llu : LowlevelUnit := { opt := { wait := true, acceptCallbacks := true } }
    let u : LowlevelUnit := { llu with id := 103, messageType := .clientCall }
    (RpcChannel.create .client {} none).configureMessage none 103
        (RpcChannel.create .client {} none).messageType none llu = some u ∧
      ∃ s, (rawMachine .client false u).run (callbackRun u) = some s ∧
        (rawMachine .client false u).Meets (Undisturbed .client) (rawMachine .client false u).init
          (callbackRun u) ∧
        ∃ b ∈ s.discarded, CallbackFor .client u b ∧ b.opt.wait = true := by
  intro llu u
  obtain ⟨s, hs, hdisc⟩ := callback_discarded .client (u := u) rfl rfl (.inl rfl)
  refine ⟨by decide, s, hs, callbackRun_undisturbed .client _ u, handlerCallback .client u, ?_,
    ⟨rfl, rfl⟩, rfl⟩
  rw [hdisc]
  exact List.mem_singleton.mpr rfl

end Vtrc
