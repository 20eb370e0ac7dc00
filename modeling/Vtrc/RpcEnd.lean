import Vtrc.CondQueues
import Vtrc.RpcChannel
import Vtrc.LocalCall

/-! # One end of a connection after the handshake

The part of `protocol-layer.cpp`, `protocol-layer-c.cpp`, `protocol-layer-s.cpp` and
`rpc-channel.cpp` through which calls, replies and callbacks pass.

* An application thread makes a call: `configure_message`, then `call_and_wait` (a slot in
  `rpc_queue_`, the write, the loop that reads the slot and runs the callbacks it finds there, the
  end of the slot) or, without waiting, one write.  `Outgoing` is one such call and `CallStage` where
  its thread stands.
* The thread that reads the connection dispatches on the type of a unit: a request becomes a local
  call, a reply goes into the slot of its id, a callback into the slot of its target.  Between the
  lookup of the slot and the push it holds the unit (`Held`).
* A local call (`Incoming`) is a `TrackedCall` and runs on a pool, or on the thread of the call
  in whose slot it was found.
* A broken connection pushes one unit to all slots.  That unit is shared: a slot holds a pointer
  to it (`Entry.shared`), and the local calls made from it all write to it.

Every critical section and every visible action of a thread is one `RpcEvent`; the order of the
threads is the order of the events.  `arrived`, `refused` and `sent` are logs of what was taken
from the connection, turned away, and written to it.

`does_of_step` says what a step can do; invariants of an end are proved from it by cases. -/

namespace Vtrc

open CallEffect

/-- How `call_and_wait` ends: with the unit whose response is parsed, through the error callback,
with an exception; or before the slot, because the channel is not ready.  `posted` is the end of a
call that does not wait. -/
inductive CallResult where
  | returned (top : LowlevelUnit)
  | failed (err : ErrorContainer)
  | thrown
  | notReady
  | posted
deriving DecidableEq, Repr

/-- Where the thread of a call stands.  `leaving` is the destructor of `slot_erase`; its flag says
that `add_queue` has been reached. -/
inductive CallStage where
  | configured
  | entered
  | admitted
  | added
  | waiting
  | reading (i : ℕ)
  | serving (j : ℕ)
  | leaving (slot : Bool) (r : CallResult)
  | over (r : CallResult)
deriving DecidableEq, Repr

structure Outgoing where
  llu : LowlevelUnit
  stage : CallStage
deriving DecidableEq, Repr

namespace Outgoing

/-- The call is between `add_queue` and the end of `slot_erase`. -/
def hasSlot (c : Outgoing) : Bool :=
  match c.stage with
  | .added | .waiting | .reading _ | .serving _ => true
  | .leaving slot _ => slot
  | _ => false

/-- The unit with which `call_and_wait` returns true. -/
def result (c : Outgoing) : Option LowlevelUnit :=
  match c.stage with
  | .leaving _ (.returned top) => some top
  | .over (.returned top) => some top
  | _ => none

end Outgoing

/-- What a slot holds: a unit of its own, or the unit number `b` of those pushed to all slots. -/
inductive Entry where
  | own (llu : LowlevelUnit)
  | shared (b : ℕ)
deriving DecidableEq, Repr

/-- An execution of `make_local_call`: the unit as it was given, the shared unit it is a pointer to,
whether `call_done` is its `done` closure, and whether its frame was left by an exception. -/
structure Incoming where
  req : LowlevelUnit
  shared : Option ℕ
  counted : Bool
  threw : Bool
  tracked : TrackedCall

/-- What the reading thread is about to do with a unit: push it to the slot it has found, or send
`ERR_CONTEXT` because it has found none. -/
inductive Held where
  | push (i : ℕ) (llu : LowlevelUnit)
  | refuse (llu : LowlevelUnit)
deriving DecidableEq, Repr

structure RpcEnd where
  side : Side
  index : UInt64
  ready : Bool
  current : UInt32
  slots : CondQueues UInt64 Entry
  broadcasts : List LowlevelUnit
  calls : List Outgoing
  incoming : List Incoming
  reader : Option Held
  arrived : List LowlevelUnit
  refused : List LowlevelUnit
  sent : List LowlevelUnit

/-- The steps of a call, see `CallStage`.  `fire` is the write of a call that does not wait. -/
inductive OutEvent where
  | fire (ok : Bool)
  | enter (active : Bool)
  | test
  | add
  | write (ok : Bool)
  | read
  | wake (timedOut cbThrows : Bool)
  | resume
  | erase

inductive RpcEvent where
  /-- A stub is called on a channel of this end, under the context `cc`. -/
  | start (ch : RpcChannel) (cc : Option LowlevelUnit) (m : MethodCall)
  /-- A step of the outgoing call number `k`. -/
  | out (k : ℕ) (e : OutEvent)
  /-- A step of the local call number `j`. -/
  | served (j : ℕ) (e : CallEvent)
  /-- The local call number `j` fails, and so does the write of its reply. -/
  | unsent (j : ℕ) (ex : Thrown)
  /-- The reading thread takes a unit and looks its slot up. -/
  | receive (llu : LowlevelUnit)
  /-- The reading thread goes on with the unit it holds. -/
  | proceed
  /-- `on_system_error`. -/
  | systemError (code : UInt32) (add : String)
  /-- The client cannot parse a message. -/
  | badMessage
  /-- `cancel_all_slots`, when the connection is closed. -/
  | cancelAll

namespace RpcEnd

/-- An end that has just become ready. -/
def initial (side : Side) : RpcEnd where
  side := side
  index := side.firstIndex
  ready := true
  current := 0
  slots := .empty
  broadcasts := []
  calls := []
  incoming := []
  reader := none
  arrived := []
  refused := []
  sent := []

/-- `push_rpc_message_all`. -/
def pushAll (s : RpcEnd) (llu : LowlevelUnit) : RpcEnd :=
  { s with
    broadcasts := s.broadcasts ++ [llu]
    slots := s.slots.writeAll (.shared s.broadcasts.length) }

/-- `on_system_error`. -/
def onSystemError (s : RpcEnd) (code : UInt32) (add : String) : RpcEnd :=
  { s with ready := false }.pushAll
    { error := { code := code, category := categorySystem, fatal := true, additional := add } }

/-- The reply to a callback whose slot does not exist. -/
def contextError (llu : LowlevelUnit) : LowlevelUnit :=
  { llu with
    request := [], response := [], serviceId := "", methodId := "", opt := {}
    error := { llu.error with
      code := ErrorNumber.context.code, additional := "Context was not found.", fatal := false } }

/-- `make_local_call` is about to be executed on a unit. -/
def post (s : RpcEnd) (llu : LowlevelUnit) (shared : Option ℕ) (counted : Bool) : RpcEnd :=
  { s with incoming := s.incoming ++ [⟨llu, shared, counted, false, ⟨.post llu, []⟩⟩] }

/-- `process_call` of the two sides.  `send_busy` goes through `call_rpc_method`, which raises when
the end is not ready; `--current_calls_` is not reached then. -/
def processCall (opts : SessionOptions) (s : RpcEnd) (llu : LowlevelUnit) : RpcEnd :=
  match s.side with
  | .client => if llu.id ≠ 0 then s.post llu none false else s.pushAll llu
  | .server =>
      if s.current + 1 ≤ opts.maxActiveCalls then
        { s with current := s.current + 1 }.post llu none true
      else if llu.opt.wait && !s.ready then
        { s with current := s.current + 1, refused := s.refused ++ [llu] }
      else { s with refused := s.refused ++ [llu], sent := s.sent ++ busyReplies llu }

/-- `process_answer`, up to the lookup of the slot. -/
def processAnswer (s : RpcEnd) (llu : LowlevelUnit) : RpcEnd :=
  match s.slots.valueByKey llu.id with
  | some i => { s with reader := some (.push i llu) }
  | none => s

/-- `process_insertion`, up to the lookup of the slot and what follows without one. -/
def processInsertion (opts : SessionOptions) (s : RpcEnd) (llu : LowlevelUnit) : RpcEnd :=
  match s.slots.valueByKey llu.targetId with
  | some i => { s with reader := some (.push i llu) }
  | none =>
      if llu.callbackAlone then s.processCall opts llu
      else if llu.opt.wait then { s with reader := some (.refuse llu) }
      else { s with refused := s.refused ++ [llu] }

/-- The dispatch of `on_rpc_process` and `on_rcp_call_ready`: requests of the other side, replies
to this side, and what is ignored. -/
def receive (opts : SessionOptions) (s : RpcEnd) (llu : LowlevelUnit) : RpcEnd :=
  let s := { s with arrived := s.arrived ++ [llu] }
  if llu.messageType = s.side.other.directType then s.processCall opts llu
  else if llu.messageType = s.side.other.callbackType then s.processInsertion opts llu
  else if llu.messageType = s.side.directType ∨ llu.messageType = s.side.callbackType then
    s.processAnswer llu
  else s

/-- The push, or `call_rpc_method` with the error, which raises when the end is not ready. -/
def proceed (s : RpcEnd) : Held → RpcEnd
  | .push i llu => { s with reader := none, slots := s.slots.pushValueData i (.own llu) }
  | .refuse llu =>
      { s with
        reader := none
        refused := s.refused ++ [llu]
        sent := s.sent ++ if s.ready then [contextError llu] else [] }

/-! ### Local calls -/

/-- The local call with the unit it points to. -/
def refresh (s : RpcEnd) (l : Incoming) : TrackedCall :=
  match l.shared.bind (s.broadcasts[·]?) with
  | some llu => { l.tracked with call := { l.tracked.call with llu := llu } }
  | none => l.tracked

theorem refresh_log (s : RpcEnd) (l : Incoming) : (s.refresh l).log = l.tracked.log := by
  unfold refresh
  split <;> rfl

theorem refresh_own (s : RpcEnd) {l : Incoming} (h : l.shared = none) :
    s.refresh l = l.tracked := by
  unfold refresh
  rw [h]
  rfl

/-- The local call number `j`, now `l`, has had the effects `effs`. -/
def settle (s : RpcEnd) (j : ℕ) (l : Incoming) (effs : List CallEffect) : RpcEnd :=
  { s with
    incoming := s.incoming.set j l
    broadcasts := match l.shared with
      | some b => s.broadcasts.set b l.tracked.call.llu
      | none => s.broadcasts
    sent := s.sent ++ CallEffect.sent effs
    current := if l.counted then s.current - UInt32.ofNat (dones effs) else s.current }

/-- A step of the local call number `j`. -/
def localStep (opts : SessionOptions) (s : RpcEnd) (j : ℕ) (l : Incoming) (e : CallEvent) :
    Option RpcEnd :=
  let t := s.refresh l
  (t.call.step opts e).map (fun r =>
    s.settle j { l with tracked := ⟨r.1, t.log ++ r.2⟩ } r.2)

/-- The failed branch of `make_local_call` when `send_message` throws: the unit has its error, the
exception goes on to the caller. -/
def unsentStep (s : RpcEnd) (j : ℕ) (l : Incoming) (ex : Thrown) : Option RpcEnd :=
  let t := s.refresh l
  if t.call.onStack && t.call.llu.opt.wait then
    let c := { t.call with
      llu := { t.call.llu with
        error := { t.call.llu.error with code := ex.code, additional := ex.additional }
        response := [] }
      phase := .returned true }
    some (s.settle j { l with threw := true, tracked := ⟨c, t.log ++ c.release⟩ } c.release)
  else none

/-! ### Outgoing calls -/

/-- The stub's call up to the end of `configure_message`; a call whose channel error callback
raises has used up its id. -/
def startCall (s : RpcEnd) (ch : RpcChannel) (cc : Option LowlevelUnit) (m : MethodCall) : RpcEnd :=
  let id := nextIndex s.index
  let c : Outgoing :=
    match ch.configure cc id m with
    | some llu => ⟨llu, .configured⟩
    | none => ⟨{ ch.createLowlevel m with id := id }, .over .thrown⟩
  { s with index := id, calls := s.calls ++ [c] }

/-- The call number `k`, now at stage `st`. -/
def setStage (s : RpcEnd) (k : ℕ) (c : Outgoing) (st : CallStage) : RpcEnd :=
  { s with calls := s.calls.set k { c with stage := st } }

/-- The unit an entry points to. -/
def unit (s : RpcEnd) : Entry → LowlevelUnit
  | .own llu => llu
  | .shared b => s.broadcasts.getD b {}

/-- The unit with which `read_slot_for` comes back. -/
def readSlotFor (s : RpcEnd) : ReadResult Entry → LowlevelUnit
  | .success e => s.unit e
  | .canceled => { error := { code := ErrorNumber.canceled.code } }
  | .timeout => { error := { code := ErrorNumber.timeout.code } }

/-- The pointer that is passed on to `make_local_call`. -/
def pointer : ReadResult Entry → Option ℕ
  | .success (.shared b) => some b
  | _ => none

/-- The body of the loop of `call_and_wait`, after the read. -/
def consume (s : RpcEnd) (k : ℕ) (c : Outgoing) (r : ReadResult Entry) (cbThrows : Bool) : RpcEnd :=
  let top := s.readSlotFor r
  if top.error.code ≠ 0 then
    s.setStage k c (.leaving true (if cbThrows then .thrown else .failed top.error))
  else if top.messageType ≠ c.llu.messageType then
    (s.setStage k c (.serving s.incoming.length)).post top (pointer r) false
  else s.setStage k c (.leaving true (.returned top))

/-- The loop is left with an error, goes on with a local call, or is left with the response. -/
theorem consume_cases (s : RpcEnd) (k : ℕ) (c : Outgoing) (r : ReadResult Entry) (cbThrows : Bool) :
    ((s.readSlotFor r).error.code ≠ 0 ∧ s.consume k c r cbThrows =
      s.setStage k c (.leaving true
        (if cbThrows then .thrown else .failed (s.readSlotFor r).error))) ∨
    ((s.readSlotFor r).error.code = 0 ∧ (s.readSlotFor r).messageType ≠ c.llu.messageType ∧
      s.consume k c r cbThrows =
        (s.setStage k c (.serving s.incoming.length)).post (s.readSlotFor r) (pointer r) false) ∨
    ((s.readSlotFor r).error.code = 0 ∧ (s.readSlotFor r).messageType = c.llu.messageType ∧
      s.consume k c r cbThrows =
        s.setStage k c (.leaving true (.returned (s.readSlotFor r)))) := by
  unfold consume
  dsimp only
  by_cases he : (s.readSlotFor r).error.code ≠ 0
  · exact .inl ⟨he, if_pos he⟩
  · rw [if_neg he]
    have he := not_not.mp he
    by_cases ht : (s.readSlotFor r).messageType ≠ c.llu.messageType
    · exact .inr (.inl ⟨he, ht, if_pos ht⟩)
    · exact .inr (.inr ⟨he, not_not.mp ht, if_neg ht⟩)

theorem consume_frame (s : RpcEnd) (k : ℕ) (c : Outgoing) (r : ReadResult Entry) (cbThrows : Bool) :
    (s.consume k c r cbThrows).side = s.side ∧ (s.consume k c r cbThrows).sent = s.sent ∧
      (s.consume k c r cbThrows).arrived = s.arrived ∧
      ∃ st, (s.consume k c r cbThrows).calls = (s.setStage k c st).calls := by
  rcases consume_cases s k c r cbThrows with ⟨_, heq⟩ | ⟨_, _, heq⟩ | ⟨_, _, heq⟩
  · rw [heq]
    exact ⟨rfl, rfl, rfl, _, rfl⟩
  · rw [heq]
    exact ⟨rfl, rfl, rfl, _, rfl⟩
  · rw [heq]
    exact ⟨rfl, rfl, rfl, _, rfl⟩

/-- A step of the call number `k`. -/
def outStep (s : RpcEnd) (k : ℕ) (c : Outgoing) : OutEvent → Option RpcEnd
  | .fire ok =>
      if c.stage = .configured ∧ c.llu.opt.wait = false then
        if s.ready && ok then
          some ({ s with sent := s.sent ++ [c.llu] }.setStage k c (.over .posted))
        else some (s.setStage k c (.over .thrown))
      else none
  | .enter active =>
      if c.stage = .configured ∧ c.llu.opt.wait = true then
        some (s.setStage k c (if active then .entered else .over .notReady))
      else none
  | .test =>
      if c.stage = .entered then
        some (s.setStage k c (if s.ready then .admitted else .leaving false .thrown))
      else none
  | .add =>
      if c.stage = .admitted then
        some ({ s with slots := s.slots.addQueue c.llu.id }.setStage k c .added)
      else none
  | .write ok =>
      if c.stage = .added then
        if ok then some ({ s with sent := s.sent ++ [c.llu] }.setStage k c .waiting)
        else some (s.setStage k c (.leaving true .thrown))
      else none
  | .read =>
      if c.stage = .waiting then
        match s.slots.valueByKey c.llu.id with
        | some i => some ({ s with slots := s.slots.readBegin i }.setStage k c (.reading i))
        | none => some (s.setStage k c (.leaving true .thrown))
      else none
  | .wake timedOut cbThrows =>
      match c.stage with
      | .reading i =>
          match s.slots.values[i]? with
          | some h =>
              (CondQueues.readResult h timedOut).map (fun r =>
                { s with slots := s.slots.readEnd i r }.consume k c r cbThrows)
          | none => none
      | _ => none
  | .resume =>
      match c.stage with
      | .serving j =>
          match s.incoming[j]? with
          | some l =>
              if l.tracked.call.onStack then none
              else some (s.setStage k c (if l.threw then .leaving true .thrown else .waiting))
          | none => none
      | _ => none
  | .erase =>
      match c.stage with
      | .leaving _ r =>
          some ({ s with slots := s.slots.eraseQueue c.llu.id }.setStage k c (.over r))
      | _ => none

/-- What a step of a call can do: the call moves on and keeps its slot or stays without one, writes
its request, gets its slot, begins to read, has read, and gives its slot up. -/
inductive OutDoes (s : RpcEnd) (k : ℕ) (c : Outgoing) : OutEvent → RpcEnd → Prop
  | moved {e : OutEvent} (st : CallStage) (hslot : { c with stage := st }.hasSlot = c.hasSlot)
      (hreading : ∀ i, st ≠ .reading i) (hresult : { c with stage := st }.result = none) :
      OutDoes s k c e (s.setStage k c st)
  | wrote {e : OutEvent} (st : CallStage) (hslot : { c with stage := st }.hasSlot = c.hasSlot)
      (hreading : ∀ i, st ≠ .reading i) (hresult : { c with stage := st }.result = none) :
      OutDoes s k c e ({ s with sent := s.sent ++ [c.llu] }.setStage k c st)
  | added (hstage : c.stage = .admitted) :
      OutDoes s k c .add ({ s with slots := s.slots.addQueue c.llu.id }.setStage k c .added)
  | began (i : ℕ) (hstage : c.stage = .waiting) (hi : s.slots.valueByKey c.llu.id = some i) :
      OutDoes s k c .read ({ s with slots := s.slots.readBegin i }.setStage k c (.reading i))
  | woken (i : ℕ) (timedOut cbThrows : Bool) (h : HoldValue UInt64 Entry) (r : ReadResult Entry)
      (hstage : c.stage = .reading i) (hi : s.slots.values[i]? = some h)
      (hr : CondQueues.readResult h timedOut = some r) :
      OutDoes s k c (.wake timedOut cbThrows)
        ({ s with slots := s.slots.readEnd i r }.consume k c r cbThrows)
  | erased (slot : Bool) (r : CallResult) (hstage : c.stage = .leaving slot r) :
      OutDoes s k c .erase ({ s with slots := s.slots.eraseQueue c.llu.id }.setStage k c (.over r))

theorem outDoes_of_outStep {s s' : RpcEnd} {k : ℕ} {c : Outgoing} {e : OutEvent}
    (h : s.outStep k c e = some s') : s.OutDoes k c e s' := by
  cases e with
  | fire ok =>
      simp only [outStep] at h
      split_ifs at h with hst <;> obtain rfl := Option.some.inj h
      · exact .wrote _ (by simp [Outgoing.hasSlot, hst.1]) (by simp) rfl
      · exact .moved _ (by simp [Outgoing.hasSlot, hst.1]) (by simp) rfl
  | enter active =>
      simp only [outStep] at h
      split_ifs at h with hst hact <;> obtain rfl := Option.some.inj h
      · exact .moved _ (by simp [Outgoing.hasSlot, hst.1]) (by simp) rfl
      · exact .moved _ (by simp [Outgoing.hasSlot, hst.1]) (by simp) rfl
  | test =>
      simp only [outStep] at h
      split_ifs at h with hst hready <;> obtain rfl := Option.some.inj h
      · exact .moved _ (by simp [Outgoing.hasSlot, hst]) (by simp) rfl
      · exact .moved _ (by simp [Outgoing.hasSlot, hst]) (by simp) rfl
  | add =>
      simp only [outStep] at h
      split_ifs at h with hst
      obtain rfl := Option.some.inj h
      exact .added hst
  | write ok =>
      simp only [outStep] at h
      split_ifs at h with hst <;> obtain rfl := Option.some.inj h
      · exact .wrote _ (by simp [Outgoing.hasSlot, hst]) (by simp) rfl
      · exact .moved _ (by simp [Outgoing.hasSlot, hst]) (by simp) rfl
  | read =>
      simp only [outStep] at h
      split_ifs at h with hst
      cases hv : s.slots.valueByKey c.llu.id with
      | none =>
          rw [hv] at h
          obtain rfl := Option.some.inj h
          exact .moved _ (by simp [Outgoing.hasSlot, hst]) (by simp) rfl
      | some i =>
          rw [hv] at h
          obtain rfl := Option.some.inj h
          exact .began i hst hv
  | wake timedOut cbThrows =>
      cases hst : c.stage with
      | reading i =>
          simp only [outStep, hst] at h
          cases hv : s.slots.values[i]? with
          | none =>
              rw [hv] at h
              cases h
          | some v =>
              rw [hv] at h
              obtain ⟨r, hr, rfl⟩ := Option.map_eq_some_iff.mp h
              exact .woken i timedOut cbThrows v r hst hv hr
      | _ =>
          simp only [outStep, hst] at h
          cases h
  | resume =>
      cases hst : c.stage with
      | serving j =>
          simp only [outStep, hst] at h
          cases hj : s.incoming[j]? with
          | none =>
              rw [hj] at h
              cases h
          | some l =>
              simp only [hj] at h
              split_ifs at h with hl ht <;> obtain rfl := Option.some.inj h
              · exact .moved _ (by simp [Outgoing.hasSlot, hst]) (by simp) rfl
              · exact .moved _ (by simp [Outgoing.hasSlot, hst]) (by simp) rfl
      | _ =>
          simp only [outStep, hst] at h
          cases h
  | erase =>
      cases hst : c.stage with
      | leaving slot r =>
          simp only [outStep, hst] at h
          obtain rfl := Option.some.inj h
          exact .erased slot r hst
      | _ =>
          simp only [outStep, hst] at h
          cases h

def step (opts : SessionOptions) (s : RpcEnd) : RpcEvent → Option RpcEnd
  | .start ch cc m =>
      if ch.directType = s.side.directType ∧ ch.callbackType = s.side.callbackType then
        some (s.startCall ch cc m)
      else none
  | .out k e => s.calls[k]?.bind (fun c => s.outStep k c e)
  | .served j e => s.incoming[j]?.bind (fun l => s.localStep opts j l e)
  | .unsent j ex => s.incoming[j]?.bind (fun l => s.unsentStep j l ex)
  | .receive llu => if s.reader = none then some (s.receive opts llu) else none
  | .proceed => s.reader.map s.proceed
  | .systemError code add => some (s.onSystemError code add)
  | .badMessage =>
      if s.side = .client then
        some (s.pushAll { error :=
          { code := ErrorNumber.protocol.code, fatal := true,
            additional := "Bad message was received" } })
      else none
  | .cancelAll => some { s with slots := s.slots.cancelAll }

/-! ### What a step can do -/

/-- What `process_call` does: it makes a local call, on a client it shares an event with all slots,
and on a server it turns the request away, which it cannot say when it is not ready. -/
inductive CallDoes (opts : SessionOptions) (s : RpcEnd) (llu : LowlevelUnit) : RpcEnd → Prop
  | posted (hside : s.side = .client) (hid : llu.id ≠ 0) :
      CallDoes opts s llu (s.post llu none false)
  | event (hside : s.side = .client) (hid : llu.id = 0) : CallDoes opts s llu (s.pushAll llu)
  | admitted (hside : s.side = .server) (hmax : s.current + 1 ≤ opts.maxActiveCalls) :
      CallDoes opts s llu ({ s with current := s.current + 1 }.post llu none true)
  | busy (hside : s.side = .server) (hmax : ¬ s.current + 1 ≤ opts.maxActiveCalls)
      (hready : llu.opt.wait = true → s.ready = true) :
      CallDoes opts s llu { s with
        refused := s.refused ++ [llu], sent := s.sent ++ busyReplies llu }
  | mute (hside : s.side = .server) (hmax : ¬ s.current + 1 ≤ opts.maxActiveCalls)
      (hwait : llu.opt.wait = true) (hready : s.ready = false) :
      CallDoes opts s llu { s with current := s.current + 1, refused := s.refused ++ [llu] }

/-- What the reading thread does with a unit that it has taken: a call, also for a callback that
needs no context; a callback or a reply that it will push to the slot it has found; a callback
without a slot; or nothing. -/
inductive ReceiveDoes (opts : SessionOptions) (s : RpcEnd) (llu : LowlevelUnit) : RpcEnd → Prop
  | called {s' : RpcEnd} (htype : llu.messageType = s.side.other.directType ∨
      llu.messageType = s.side.other.callbackType ∧ llu.callbackAlone = true ∧
        s.slots.valueByKey llu.targetId = none)
      (h : s.CallDoes opts llu s') : ReceiveDoes opts s llu s'
  | inserted (i : ℕ) (htype : llu.messageType = s.side.other.callbackType)
      (hi : s.slots.valueByKey llu.targetId = some i) :
      ReceiveDoes opts s llu { s with reader := some (.push i llu) }
  | answered (i : ℕ)
      (htype : llu.messageType = s.side.directType ∨ llu.messageType = s.side.callbackType)
      (hi : s.slots.valueByKey llu.id = some i) :
      ReceiveDoes opts s llu { s with reader := some (.push i llu) }
  | noContext (htype : llu.messageType = s.side.other.callbackType)
      (hwait : llu.opt.wait = true) : ReceiveDoes opts s llu { s with reader := some (.refuse llu) }
  | dropped (htype : llu.messageType = s.side.other.callbackType)
      (hwait : llu.opt.wait = false) :
      ReceiveDoes opts s llu { s with refused := s.refused ++ [llu] }
  | ignored (htype : llu.messageType ≠ s.side.other.callbackType) : ReceiveDoes opts s llu s

/-- A local call when its reply could not be written. -/
def unsentCall (c : LocalCall) (ex : Thrown) : LocalCall :=
  { c with
    llu := { c.llu with
      error := { c.llu.error with code := ex.code, additional := ex.additional }
      response := [] }
    phase := .returned true }

/-- What a step can do. -/
inductive Does (opts : SessionOptions) (s : RpcEnd) : RpcEvent → RpcEnd → Prop
  | started (ch : RpcChannel) (cc : Option LowlevelUnit) (m : MethodCall)
      (hdirect : ch.directType = s.side.directType)
      (hcallback : ch.callbackType = s.side.callbackType) :
      Does opts s (.start ch cc m) (s.startCall ch cc m)
  | out {k : ℕ} {c : Outgoing} {e : OutEvent} {s' : RpcEnd} (hk : s.calls[k]? = some c)
      (h : s.OutDoes k c e s') : Does opts s (.out k e) s'
  | served {j : ℕ} {l : Incoming} {e : CallEvent} {c : LocalCall} {effs : List CallEffect}
      (hj : s.incoming[j]? = some l) (hstep : (s.refresh l).call.step opts e = some (c, effs)) :
      Does opts s (.served j e)
        (s.settle j { l with tracked := ⟨c, (s.refresh l).log ++ effs⟩ } effs)
  | unsent {j : ℕ} {l : Incoming} {c : LocalCall} (ex : Thrown) (hj : s.incoming[j]? = some l)
      (hstack : (s.refresh l).call.onStack = true)
      (hwait : (s.refresh l).call.llu.opt.wait = true) (hc : c = unsentCall (s.refresh l).call ex) :
      Does opts s (.unsent j ex)
        (s.settle j { l with threw := true, tracked := ⟨c, (s.refresh l).log ++ c.release⟩ }
          c.release)
  | received (llu : LowlevelUnit) {s' : RpcEnd} (hreader : s.reader = none)
      (h : { s with arrived := s.arrived ++ [llu] }.ReceiveDoes opts llu s') :
      Does opts s (.receive llu) s'
  | proceeded (hd : Held) (hreader : s.reader = some hd) : Does opts s .proceed (s.proceed hd)
  | failed (code : UInt32) (add : String) :
      Does opts s (.systemError code add) (s.onSystemError code add)
  | bad (hside : s.side = .client) : Does opts s .badMessage (s.pushAll { error :=
      { code := ErrorNumber.protocol.code, fatal := true,
        additional := "Bad message was received" } })
  | canceled : Does opts s .cancelAll { s with slots := s.slots.cancelAll }

variable {opts : SessionOptions} {s s' s'' : RpcEnd} {us : List LowlevelUnit}

variable (opts) in
theorem callDoes_processCall (s : RpcEnd) (llu : LowlevelUnit) :
    s.CallDoes opts llu (s.processCall opts llu) := by
  unfold processCall
  cases hside : s.side with
  | client =>
      dsimp only
      by_cases hid : llu.id ≠ 0
      · rw [if_pos hid]
        exact .posted hside hid
      · rw [if_neg hid]
        exact .event hside (not_not.mp hid)
  | server =>
      dsimp only
      by_cases hmax : s.current + 1 ≤ opts.maxActiveCalls
      · rw [if_pos hmax, ← hside]
        exact .admitted hside hmax
      · rw [if_neg hmax]
        by_cases hmute : (llu.opt.wait && !s.ready) = true
        · rw [if_pos hmute, ← hside]
          rw [Bool.and_eq_true, Bool.not_eq_true'] at hmute
          exact .mute hside hmax hmute.1 hmute.2
        · rw [if_neg hmute, ← hside]
          refine .busy hside hmax (fun hwait => ?_)
          simpa [hwait] using hmute

variable (opts) in
theorem receiveDoes_receive (s : RpcEnd) (llu : LowlevelUnit) :
    { s with arrived := s.arrived ++ [llu] }.ReceiveDoes opts llu (s.receive opts llu) := by
  unfold receive
  generalize { s with arrived := s.arrived ++ [llu] } = s
  dsimp only
  split_ifs with hdirect hcallback hanswer
  · exact .called (.inl hdirect) (callDoes_processCall opts s llu)
  · unfold processInsertion
    cases hi : s.slots.valueByKey llu.targetId with
    | some i => exact .inserted i hcallback hi
    | none =>
        dsimp only
        split_ifs with halone hwait
        · exact .called (.inr ⟨hcallback, halone, hi⟩) (callDoes_processCall opts s llu)
        · exact .noContext hcallback hwait
        · exact .dropped hcallback (by simpa using hwait)
  · unfold processAnswer
    cases hi : s.slots.valueByKey llu.id with
    | some i => exact .answered i hanswer hi
    | none => exact .ignored hcallback
  · exact .ignored hcallback

theorem does_of_step {e : RpcEvent} (h : s.step opts e = some s') : s.Does opts e s' := by
  cases e with
  | start ch cc m =>
      simp only [step] at h
      split_ifs at h with hch
      obtain rfl := Option.some.inj h
      exact .started ch cc m hch.1 hch.2
  | out k e =>
      obtain ⟨c, hk, h⟩ := Option.bind_eq_some_iff.mp h
      exact .out hk (outDoes_of_outStep h)
  | served j e =>
      obtain ⟨l, hj, h⟩ := Option.bind_eq_some_iff.mp h
      obtain ⟨r, hr, rfl⟩ := Option.map_eq_some_iff.mp h
      exact .served hj hr
  | unsent j ex =>
      obtain ⟨l, hj, h⟩ := Option.bind_eq_some_iff.mp h
      unfold unsentStep at h
      dsimp only at h
      split_ifs at h with hcond
      obtain rfl := Option.some.inj h
      rw [Bool.and_eq_true] at hcond
      exact .unsent ex hj hcond.1 hcond.2 rfl
  | receive llu =>
      simp only [step] at h
      split_ifs at h with hreader
      obtain rfl := Option.some.inj h
      exact .received llu hreader (receiveDoes_receive opts s llu)
  | proceed =>
      obtain ⟨hd, hreader, rfl⟩ := Option.map_eq_some_iff.mp h
      exact .proceeded hd hreader
  | systemError code add =>
      obtain rfl := Option.some.inj h
      exact .failed code add
  | badMessage =>
      simp only [step] at h
      split_ifs at h with hside
      obtain rfl := Option.some.inj h
      exact .bad hside
  | cancelAll =>
      obtain rfl := Option.some.inj h
      exact .canceled

/-! ### The logs -/

/-- A step keeps the side, appends to what was written, and appends `us` to what has arrived. -/
structure Grows (us : List LowlevelUnit) (s s' : RpcEnd) : Prop where
  side : s'.side = s.side
  sent : s.sent <+: s'.sent
  arrived : s'.arrived = s.arrived ++ us

/-- What an event takes from the connection. -/
def received : RpcEvent → List LowlevelUnit
  | .receive llu => [llu]
  | _ => []

theorem Grows.same (hside : s'.side = s.side) (hsent : s'.sent = s.sent)
    (harrived : s'.arrived = s.arrived) : Grows [] s s' :=
  ⟨hside, by rw [hsent], by rw [harrived, List.append_nil]⟩

theorem Grows.writes {us : List LowlevelUnit} (hside : s'.side = s.side)
    (hsent : s'.sent = s.sent ++ us) (harrived : s'.arrived = s.arrived) : Grows [] s s' :=
  ⟨hside, by rw [hsent]; exact List.prefix_append _ _, by rw [harrived, List.append_nil]⟩

theorem Grows.then_nil (h : Grows us s s') (h' : Grows [] s' s'') : Grows us s s'' :=
  ⟨h'.side.trans h.side, h.sent.trans h'.sent,
    h'.arrived.trans ((List.append_nil _).trans h.arrived)⟩

theorem ReceiveDoes.grows {llu : LowlevelUnit} (h : s.ReceiveDoes opts llu s') : Grows [] s s' := by
  cases h with
  | called htype h =>
      cases h with
      | busy hside hmax hready => exact .writes rfl rfl rfl
      | _ => exact .same rfl rfl rfl
  | _ => exact .same rfl rfl rfl

theorem OutDoes.grows {k : ℕ} {c : Outgoing} {e : OutEvent} (h : s.OutDoes k c e s') :
    Grows [] s s' := by
  cases h with
  | wrote st hslot hreading hresult => exact .writes rfl rfl rfl
  | woken i timedOut cbThrows v r hstage hi hr =>
      obtain ⟨hside, hsent, harrived, _⟩ :=
        consume_frame { s with slots := s.slots.readEnd i r } k c r cbThrows
      exact .same hside hsent harrived
  | _ => exact .same rfl rfl rfl

theorem grows_step {e : RpcEvent} (h : s.step opts e = some s') : Grows (received e) s s' := by
  cases does_of_step h with
  | out hk h => exact h.grows
  | served hj hstep => exact .writes rfl rfl rfl
  | unsent ex hj hstack hwait hc => exact .writes rfl rfl rfl
  | received llu hreader h =>
      have ha : Grows [llu] s { s with arrived := s.arrived ++ [llu] } :=
        ⟨rfl, List.prefix_rfl, rfl⟩
      exact ha.then_nil h.grows
  | proceeded hd hreader =>
      cases hd with
      | push i llu => exact .same rfl rfl rfl
      | refuse llu => exact .writes rfl rfl rfl
  | _ => exact .same rfl rfl rfl

end RpcEnd

end Vtrc
