import Vtrc.LocalCall
import Vtrc.RpcChannel

/-! # Channel errors (`rpc-channel.cpp`, `server/channels.cpp`, `rpc-channel-c.cpp`)

`send_message` and `raw_call` of the channels that have one connection, from the lock of the weak
pointer to the loop that waits, as lists of what they do (`SendEffect`).  A channel reports its
errors through a callback, by default one that raises; the callback of an application may return, and
the control flow then goes on behind the report.

* `configured_cases` is what `configure_message` leaves to its caller.
* `deliver_silent_iff` says when the rest of a send does nothing that the other end or the caller
  could notice.
* `channel_error_silent_iff` combines the two for the four ways to send. -/

namespace Vtrc

inductive SendEffect where
  /-- `controller->SetFailed`. -/
  | setFailed (reason : String)
  /-- The channel error callback is called. -/
  | channelError (mess : String)
  /-- An exception leaves the send. -/
  | raised (ex : Thrown)
  | addSlot (id : UInt64)
  | write (llu : LowlevelUnit)
  /-- The loop that reads the slot. -/
  | wait (id : UInt64)
  | eraseSlot (id : UInt64)
deriving DecidableEq, Repr

/-- The connection as a send finds it: `active` is what `call_and_wait` sees, `ready` what
`call_rpc_method` sees, and `writes` says that the write raises no exception. -/
inductive Connection where
  | lost
  | alive (active ready writes : Bool)
deriving DecidableEq, Repr

namespace RpcChannel

/-- The channel error callback, and what comes after it when it returns. -/
def channelError (ch : RpcChannel) (mess : String) (next : List SendEffect) : List SendEffect :=
  .channelError mess :: if ch.chanErrorReturns then next else [.raised (.raise .channel mess)]

/-- `configure_message` reports "Invalid context.". -/
def InvalidContext (ch : RpcChannel) : Prop :=
  ch.messageType = ch.callbackType ∧ ch.flags.useStaticContext = true ∧ ch.acceptCallbacks = false

instance (ch : RpcChannel) : Decidable ch.InvalidContext := inferInstanceAs (Decidable (_ ∧ _ ∧ _))

/-- `configure_message`, and what the sender does with the unit. -/
def configured (ch : RpcChannel) (cc : Option LowlevelUnit) (id : UInt64) (req : Option Bytes)
    (llu : LowlevelUnit) (next : LowlevelUnit → List SendEffect) : List SendEffect :=
  let rest := (ch.configureMessage cc id ch.messageType req llu).elim [] next
  if ch.InvalidContext then ch.channelError "Invalid context." rest else rest

/-- `call_rpc_method` with a slot; the destructor of `slot_erase` is in `callAndWait`. -/
def callRpcMethodSlot (ready writes : Bool) (llu : LowlevelUnit) (next : List SendEffect) :
    List SendEffect :=
  if !ready then [.raised (.raise .comm "")]
  else .addSlot llu.id :: if writes then .write llu :: next else [.raised .other]

/-- `call_rpc_method`. -/
def callRpcMethod (ready writes : Bool) (llu : LowlevelUnit) : List SendEffect :=
  if !ready then [.raised (.raise .comm "")]
  else if writes then [.write llu] else [.raised .other]

/-- `call_and_wait` and `call_and_wait_raw`. -/
def callAndWait (ch : RpcChannel) (active ready writes : Bool) (llu : LowlevelUnit) :
    List SendEffect :=
  if !active then ch.channelError "Channel is not ready." []
  else callRpcMethodSlot ready writes llu [.wait llu.id] ++ [.eraseSlot llu.id]

/-- The end of every send: with the wait or without it. -/
def deliver (ch : RpcChannel) (active ready writes : Bool) (llu : LowlevelUnit) : List SendEffect :=
  if llu.opt.wait then ch.callAndWait active ready writes llu else callRpcMethod ready writes llu

/-- `send_message`; `controller` says that the caller has passed one. -/
def sendMessage (ch : RpcChannel) (conn : Connection) (cc : Option LowlevelUnit) (id : UInt64)
    (controller : Bool) (m : MethodCall) : List SendEffect :=
  match conn with
  | .lost =>
      (if controller then [.setFailed "Connection lost"] else []) ++
        ch.channelError "Connection lost" []
  | .alive active ready writes =>
      ch.configured cc id m.request (ch.createLowlevel m) (ch.deliver active ready writes)

/-- `raw_call`, on a unit of the caller. -/
def rawCall (ch : RpcChannel) (conn : Connection) (cc : Option LowlevelUnit) (id : UInt64)
    (req : Option Bytes) (llu : LowlevelUnit) : List SendEffect :=
  match conn with
  | .lost => ch.channelError "Connection lost" []
  | .alive active ready writes => ch.configured cc id req llu (ch.deliver active ready writes)

end RpcChannel

/-- `rpc_channel_c::impl::send_message`. -/
def Client.sendMessage := RpcChannel.sendMessage
/-- `rpc_channel_c::impl::send_raw`. -/
def Client.sendRaw := RpcChannel.rawCall
/-- `unicast_channel::send_message`. -/
def Server.unicastSendMessage := RpcChannel.sendMessage
/-- `unicast_channel::raw_call`. -/
def Server.unicastRawCall := RpcChannel.rawCall

/-- No unit is written, the caller does not wait, and no slot stays. -/
structure Silent (effs : List SendEffect) : Prop where
  write : ∀ llu, .write llu ∉ effs
  wait : ∀ id, .wait id ∉ effs
  slots : ∀ id, .addSlot id ∈ effs → .eraseSlot id ∈ effs

/-- A send that has reported a channel error is silent. -/
def SilentOnError (effs : List SendEffect) : Prop :=
  (∃ mess, .channelError mess ∈ effs) → Silent effs

/-- A send comes through to its write, and with `wait` to its loop. -/
def Connection.Accepts (wait : Bool) : Connection → Prop
  | .lost => False
  | .alive active ready writes => ready = true ∧ writes = true ∧ (wait = true → active = true)

namespace RpcChannel

variable {ch : RpcChannel} {cc : Option LowlevelUnit} {id : UInt64} {req : Option Bytes}
  {llu : LowlevelUnit}

theorem invalid_of_configureMessage (h : ch.configureMessage cc id ch.messageType req llu = none) :
    ch.InvalidContext ∧ ch.chanErrorReturns = false := by
  unfold configureMessage at h
  dsimp only at h
  by_cases htype : ch.messageType = ch.callbackType
  swap
  · rw [if_neg htype] at h
    cases h
  rw [if_pos htype] at h
  by_cases hstatic : ch.flags.useStaticContext = true
  · rw [if_pos hstatic] at h
    cases haccept : ch.acceptCallbacks with
    | true =>
        rw [haccept] at h
        cases h
    | false =>
        rw [haccept] at h
        cases hreturns : ch.chanErrorReturns with
        | true =>
            rw [hreturns] at h
            cases h
        | false => exact ⟨⟨htype, hstatic, haccept⟩, rfl⟩
  · rw [if_neg hstatic] at h
    cases cc with
    | none => cases h
    | some c =>
        dsimp only at h
        split_ifs at h

variable (ch cc id req llu) in
theorem exists_configureMessage (h : ¬ (ch.InvalidContext ∧ ch.chanErrorReturns = false)) :
    ∃ u, ch.configureMessage cc id ch.messageType req llu = some u ∧ u.opt = llu.opt := by
  cases hu : ch.configureMessage cc id ch.messageType req llu with
  | none => exact absurd (invalid_of_configureMessage hu) h
  | some u => exact ⟨u, rfl, (configureMessage_cases hu).2.1⟩

/-- `configure_message` has reported an error to a callback that raises, has reported it to one that
returns and the sender goes on, or has configured the unit. -/
theorem configured_cases (ch : RpcChannel) (cc : Option LowlevelUnit) (id : UInt64)
    (req : Option Bytes) (llu : LowlevelUnit) (next : LowlevelUnit → List SendEffect) :
    (ch.InvalidContext ∧ ch.chanErrorReturns = false ∧ ch.configured cc id req llu next =
      [.channelError "Invalid context.", .raised (.raise .channel "Invalid context.")]) ∨
    (ch.InvalidContext ∧ ch.chanErrorReturns = true ∧ ∃ u, u.opt = llu.opt ∧
      ch.configured cc id req llu next = .channelError "Invalid context." :: next u) ∨
    (¬ ch.InvalidContext ∧ ∃ u, u.opt = llu.opt ∧ ch.configured cc id req llu next = next u) := by
  unfold configured channelError
  dsimp only
  by_cases hinvalid : ch.InvalidContext
  · rw [if_pos hinvalid]
    cases hreturns : ch.chanErrorReturns with
    | false => exact .inl ⟨hinvalid, rfl, rfl⟩
    | true =>
        obtain ⟨u, hu, hopt⟩ := exists_configureMessage ch cc id req llu (by simp [hreturns])
        refine .inr (.inl ⟨hinvalid, rfl, u, hopt, ?_⟩)
        rw [hu]
        rfl
  · obtain ⟨u, hu, hopt⟩ := exists_configureMessage ch cc id req llu (fun h => hinvalid h.1)
    refine .inr (.inr ⟨hinvalid, u, hopt, ?_⟩)
    rw [if_neg hinvalid, hu]
    rfl

theorem silent_channelError (ch : RpcChannel) (mess : String) :
    Silent (ch.channelError mess []) := by
  unfold channelError
  split_ifs <;> exact ⟨by simp, by simp, by simp⟩

/-- The rest of a send is silent exactly when it does not come through. -/
theorem silent_deliver_iff {active ready writes : Bool} {u : LowlevelUnit} :
    Silent (ch.deliver active ready writes u) ↔
      ¬ (Connection.alive active ready writes).Accepts u.opt.wait := by
  unfold deliver Connection.Accepts
  cases hwait : u.opt.wait with
  | false =>
      unfold callRpcMethod
      cases ready <;> cases writes
      · exact iff_of_true ⟨by simp, by simp, by simp⟩ (by simp)
      · exact iff_of_true ⟨by simp, by simp, by simp⟩ (by simp)
      · exact iff_of_true ⟨by simp, by simp, by simp⟩ (by simp)
      · exact iff_of_false (fun h => h.write u (by simp)) (by simp)
  | true =>
      unfold callAndWait callRpcMethodSlot
      cases active
      · exact iff_of_true (silent_channelError ch _) (by simp)
      cases ready <;> cases writes
      · exact iff_of_true ⟨by simp, by simp, by simp⟩ (by simp)
      · exact iff_of_true ⟨by simp, by simp, by simp⟩ (by simp)
      · exact iff_of_true ⟨by simp, by simp, by simp⟩ (by simp)
      · exact iff_of_false (fun h => h.wait u.id (by simp)) (by simp)

theorem silentOnError_deliver (active ready writes : Bool) (u : LowlevelUnit) :
    SilentOnError (ch.deliver active ready writes u) := by
  rintro ⟨mess, hmess⟩
  rw [silent_deliver_iff]
  rintro ⟨rfl, rfl, hactive⟩
  revert hmess
  unfold deliver callAndWait callRpcMethodSlot callRpcMethod
  cases hwait : u.opt.wait with
  | false => simp
  | true =>
      rw [hactive hwait]
      simp

theorem silentOnError_cons_iff {mess : String} {effs : List SendEffect} :
    SilentOnError (.channelError mess :: effs) ↔ Silent effs := by
  constructor
  · intro h
    obtain ⟨hwrite, hwait, hslots⟩ := h ⟨mess, List.mem_cons_self⟩
    refine ⟨fun u hu => hwrite u (List.mem_cons_of_mem _ hu),
      fun i hi => hwait i (List.mem_cons_of_mem _ hi), fun i hi => ?_⟩
    simpa using hslots i (List.mem_cons_of_mem _ hi)
  · rintro ⟨hwrite, hwait, hslots⟩ _
    exact ⟨by simpa using hwrite, by simpa using hwait, by simpa using hslots⟩

theorem silentOnError_configured_iff {active ready writes : Bool} :
    SilentOnError (ch.configured cc id req llu (ch.deliver active ready writes)) ↔
      ¬ (ch.chanErrorReturns = true ∧ ch.InvalidContext ∧
        (Connection.alive active ready writes).Accepts llu.opt.wait) := by
  rcases ch.configured_cases cc id req llu (ch.deliver active ready writes) with
    ⟨hinvalid, hreturns, heq⟩ | ⟨hinvalid, hreturns, u, hopt, heq⟩ | ⟨hvalid, u, hopt, heq⟩
  · rw [heq]
    refine iff_of_true (fun _ => ⟨by simp, by simp, by simp⟩) ?_
    rw [hreturns]
    simp
  · rw [heq, silentOnError_cons_iff, silent_deliver_iff, hopt]
    exact ⟨fun h h' => h h'.2.2, fun h h' => h ⟨hreturns, hinvalid, h'⟩⟩
  · rw [heq]
    exact iff_of_true (silentOnError_deliver active ready writes u) (fun h => hvalid h.2.1)

theorem silentOnError_rawCall_iff (ch : RpcChannel) (conn : Connection)
    (cc : Option LowlevelUnit) (id : UInt64) (req : Option Bytes) (llu : LowlevelUnit) :
    SilentOnError (ch.rawCall conn cc id req llu) ↔
      ¬ (ch.chanErrorReturns = true ∧ ch.InvalidContext ∧ conn.Accepts llu.opt.wait) := by
  cases conn with
  | lost => exact iff_of_true (fun _ => silent_channelError ch _) (fun h => h.2.2)
  | alive active ready writes => exact silentOnError_configured_iff

theorem silentOnError_sendMessage_iff (ch : RpcChannel) (conn : Connection)
    (cc : Option LowlevelUnit) (id : UInt64) (controller : Bool) (m : MethodCall) :
    SilentOnError (ch.sendMessage conn cc id controller m) ↔
      ¬ (ch.chanErrorReturns = true ∧ ch.InvalidContext ∧
        conn.Accepts (ch.createLowlevel m).opt.wait) := by
  cases conn with
  | lost =>
      refine iff_of_true (fun _ => ?_) (fun h => h.2.2)
      obtain ⟨hwrite, hwait, hslots⟩ := silent_channelError ch "Connection lost"
      unfold sendMessage
      cases controller
      · exact ⟨hwrite, hwait, hslots⟩
      · exact ⟨by simpa using hwrite, by simpa using hwait, by simpa using hslots⟩
  | alive active ready writes => exact silentOnError_configured_iff

end RpcChannel

/-- **Channel errors and what is sent.**  A send that reports a channel error writes nothing, keeps no
slot and does not wait, on each of the four paths, unless the report is the one of
`configure_message`, the error callback returns, and the connection takes the unit. -/
theorem channel_error_silent_iff (ch : RpcChannel) (conn : Connection) (cc : Option LowlevelUnit)
    (id : UInt64) (controller : Bool) (m : MethodCall) (req : Option Bytes) (llu : LowlevelUnit) :
    (SilentOnError (Client.sendMessage ch conn cc id controller m) ↔
      ¬ (ch.chanErrorReturns = true ∧ ch.InvalidContext ∧
        conn.Accepts (ch.createLowlevel m).opt.wait)) ∧
    (SilentOnError (Client.sendRaw ch conn cc id req llu) ↔
      ¬ (ch.chanErrorReturns = true ∧ ch.InvalidContext ∧ conn.Accepts llu.opt.wait)) ∧
    (SilentOnError (Server.unicastSendMessage ch conn cc id controller m) ↔
      ¬ (ch.chanErrorReturns = true ∧ ch.InvalidContext ∧
        conn.Accepts (ch.createLowlevel m).opt.wait)) ∧
    (SilentOnError (Server.unicastRawCall ch conn cc id req llu) ↔
      ¬ (ch.chanErrorReturns = true ∧ ch.InvalidContext ∧ conn.Accepts llu.opt.wait)) :=
  ⟨ch.silentOnError_sendMessage_iff conn cc id controller m,
    ch.silentOnError_rawCall_iff conn cc id req llu,
    ch.silentOnError_sendMessage_iff conn cc id controller m,
    ch.silentOnError_rawCall_iff conn cc id req llu⟩

/-- A callback channel with a static context that is not there, and an error callback that returns:
the call is written and waited for. -/
theorem invalid_context_sent :
    let ch : RpcChannel := { RpcChannel.create .server
      { useContextCall := true, useStaticContext := true } none with chanErrorReturns := true }
    let m : MethodCall := ⟨"s", "m", none, true, true, true⟩
    let u : LowlevelUnit := { ch.createLowlevel m with id := 102 }
    Server.unicastSendMessage ch (.alive true true true) none 102 false m =
        [.channelError "Invalid context.", .addSlot 102, .write u, .wait 102, .eraseSlot 102] ∧
      ¬ SilentOnError (Server.unicastSendMessage ch (.alive true true true) none 102 false m) := by
  intro ch m u
  refine ⟨rfl, fun h => ?_⟩
  have hwait := (h ⟨"Invalid context.", by decide⟩).wait 102
  revert hwait
  decide

end Vtrc
