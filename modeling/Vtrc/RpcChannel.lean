import Vtrc.Messages

/-! # Channels (`rpc-channel.cpp`, `rpc-channel-c.cpp`, `server/channels.cpp`)

A channel turns a call of a generated stub into a `lowlevel_unit`: `create_lowlevel` and
`send_message` fill in the names and the options, `configure_message` gives the unit its id, its
type and, for a callback, the call it is aimed at.  A callback is aimed at the call whose context
is on top of the thread's stack, or at the one that was on top when the channel was made
(`USE_STATIC_CONTEXT`).

Of a call context only its unit is read, so a context is that unit.  `set_channel_error_callback`
replaces the callback that raises by one of the application, which may return:
`configure_message` then leaves the unit as it is and its callers go on. -/

namespace Vtrc

/-- The two ends of a connection. -/
inductive Side where
  | client
  | server
deriving DecidableEq, Repr

namespace Side

def other : Side → Side
  | client => server
  | server => client

@[simp] theorem other_other (side : Side) : side.other.other = side := by cases side <;> rfl

/-- `direct_call_type` of the side's channels. -/
def directType : Side → MessageType
  | client => .clientCall
  | server => .serverCall

/-- `callback_type` of the side's channels. -/
def callbackType : Side → MessageType
  | client => .clientCallback
  | server => .serverCallback

/-- `rpc_index_` before the first call; the client is the odd side. -/
def firstIndex : Side → UInt64
  | client => 101
  | server => 100

end Side

/-- `next_index`: the value of `rpc_index_` after one more call. -/
def nextIndex (index : UInt64) : UInt64 := index + 2

/-- `can_accept_callbacks`. -/
def canAcceptCallbacks (cc : LowlevelUnit) : Bool := cc.opt.wait && cc.opt.acceptCallbacks

/-- `rpc_channel::flags`, bit by bit. -/
structure ChannelFlags where
  disableWait : Bool := false
  useContextCall : Bool := false
  useStaticContext : Bool := false
  contextNotRequire : Bool := false
deriving DecidableEq, Repr

/-- `rpc_channel::impl`; `chanErrorReturns` says that the channel error callback returns. -/
structure RpcChannel where
  directType : MessageType
  callbackType : MessageType
  flags : ChannelFlags := {}
  staticTarget : UInt64 := 0
  acceptCallbacks : Bool := false
  data : Bytes := []
  chanErrorReturns : Bool := false
deriving DecidableEq, Repr

/-- What a stub passes to `CallMethod`, with the method's options: `response` says that the
caller gave a response message. -/
structure MethodCall where
  serviceId : String
  methodId : String
  request : Option Bytes
  response : Bool
  wait : Bool
  acceptCallbacks : Bool
deriving DecidableEq, Repr

namespace RpcChannel

/-- `set_static_context`, which is also what the constructor does with the current context. -/
def setStaticContext (ch : RpcChannel) : Option LowlevelUnit → RpcChannel
  | some cc => { ch with acceptCallbacks := canAcceptCallbacks cc, staticTarget := cc.id }
  | none => { ch with acceptCallbacks := false, staticTarget := 0 }

/-- A channel of one side, made under the context `cc`. -/
def create (side : Side) (flags : ChannelFlags) (cc : Option LowlevelUnit) : RpcChannel :=
  { directType := side.directType, callbackType := side.callbackType, flags := flags
    : RpcChannel }.setStaticContext cc

/-- `message_type` of the channels. -/
def messageType (ch : RpcChannel) : MessageType :=
  if ch.flags.useContextCall then ch.callbackType else ch.directType

/-- The unit before `configure_message`: `create_lowlevel`, the channel data and the options. -/
def createLowlevel (ch : RpcChannel) (m : MethodCall) : LowlevelUnit where
  serviceId := m.serviceId
  methodId := m.methodId
  channelData := ch.data
  opt :=
    { wait := !ch.flags.disableWait && m.wait
      acceptCallbacks := !ch.flags.disableWait && m.acceptCallbacks
      acceptResponse := m.response }

/-- `configure_message`, with the id from `next_index` and the current context `cc`; `none` when
the channel error callback raises. -/
def configureMessage (ch : RpcChannel) (cc : Option LowlevelUnit) (id : UInt64)
    (messType : MessageType) (req : Option Bytes) (llu : LowlevelUnit) : Option LowlevelUnit :=
  let llu := { llu with id := id, request := req.getD llu.request }
  if messType = ch.callbackType then
    let llu := if ch.flags.contextNotRequire then { llu with callbackAlone := true } else llu
    if ch.flags.useStaticContext then
      if !ch.acceptCallbacks then
        -- the unit keeps the type it had
        if ch.chanErrorReturns then some llu else none
      else some { llu with messageType := messType, targetId := ch.staticTarget }
    else
      match cc with
      | some c =>
          if canAcceptCallbacks c then some { llu with messageType := messType, targetId := c.id }
          else some { llu with messageType := ch.directType }
      | none => some { llu with messageType := ch.directType }
  else some { llu with messageType := messType }

/-- The unit that the channel sends for a call under the context `cc`. -/
def configure (ch : RpcChannel) (cc : Option LowlevelUnit) (id : UInt64) (m : MethodCall) :
    Option LowlevelUnit :=
  ch.configureMessage cc id ch.messageType m.request (ch.createLowlevel m)

/-- What `configure_message` does: a direct call, a channel without a static context whose error
callback returns, a callback into the static context, a callback into the current context, a
callback that falls back to a direct call. -/
theorem configureMessage_cases {ch : RpcChannel} {cc : Option LowlevelUnit} {id : UInt64}
    {messType : MessageType} {req : Option Bytes} {llu u : LowlevelUnit}
    (h : ch.configureMessage cc id messType req llu = some u) :
    u.id = id ∧ u.opt = llu.opt ∧
      ((messType ≠ ch.callbackType ∧ u.messageType = messType) ∨
        (messType = ch.callbackType ∧ ch.flags.useStaticContext = true ∧
          ch.acceptCallbacks = false ∧ ch.chanErrorReturns = true ∧
          u.messageType = llu.messageType) ∨
        (messType = ch.callbackType ∧ ch.flags.useStaticContext = true ∧
          ch.acceptCallbacks = true ∧ u.messageType = messType ∧ u.targetId = ch.staticTarget) ∨
        (messType = ch.callbackType ∧ ch.flags.useStaticContext = false ∧
          ∃ c, cc = some c ∧ canAcceptCallbacks c = true ∧ u.messageType = messType ∧
            u.targetId = c.id) ∨
        (messType = ch.callbackType ∧ ch.flags.useStaticContext = false ∧
          (∀ c, cc = some c → canAcceptCallbacks c = false) ∧
          u.messageType = ch.directType)) := by
  unfold configureMessage at h
  dsimp only at h
  by_cases hcb : messType = ch.callbackType
  swap
  · rw [if_neg hcb] at h
    obtain rfl := Option.some.inj h
    exact ⟨rfl, rfl, .inl ⟨hcb, rfl⟩⟩
  rw [if_pos hcb] at h
  -- the flag for callbacks without a context touches neither the id nor the options nor the type
  generalize hl : (if ch.flags.contextNotRequire = true then _ else _ : LowlevelUnit) = l at h
  have hid : l.id = id ∧ l.opt = llu.opt ∧ l.messageType = llu.messageType := by
    rw [← hl]
    split_ifs <;> exact ⟨rfl, rfl, rfl⟩
  obtain ⟨hid, hopt, htype⟩ := hid
  cases hs : ch.flags.useStaticContext with
  | true =>
      rw [hs, if_pos rfl] at h
      cases ha : ch.acceptCallbacks with
      | true =>
          rw [ha] at h
          obtain rfl := Option.some.inj h
          exact ⟨hid, hopt, .inr (.inr (.inl ⟨hcb, rfl, rfl, rfl, rfl⟩))⟩
      | false =>
          rw [ha] at h
          cases hr : ch.chanErrorReturns with
          | false =>
              rw [hr] at h
              cases h
          | true =>
              rw [hr] at h
              obtain rfl := Option.some.inj h
              exact ⟨hid, hopt, .inr (.inl ⟨hcb, rfl, rfl, rfl, htype⟩)⟩
  | false =>
      rw [hs, if_neg Bool.false_ne_true] at h
      cases cc with
      | none =>
          obtain rfl := Option.some.inj h
          exact ⟨hid, hopt, .inr (.inr (.inr (.inr ⟨hcb, rfl, (fun _ hc => by cases hc), rfl⟩)))⟩
      | some c =>
          dsimp only at h
          split_ifs at h with hc
          · obtain rfl := Option.some.inj h
            exact ⟨hid, hopt, .inr (.inr (.inr (.inl ⟨hcb, rfl, c, rfl, hc, rfl, rfl⟩)))⟩
          · obtain rfl := Option.some.inj h
            refine ⟨hid, hopt, .inr (.inr (.inr (.inr ⟨hcb, rfl, ?_, rfl⟩)))⟩
            intro c' hc'
            obtain rfl := Option.some.inj hc'
            exact Bool.eq_false_of_not_eq_true hc

theorem configureMessage_isSome {ch : RpcChannel} (cc : Option LowlevelUnit) (id : UInt64)
    (messType : MessageType) (req : Option Bytes) (llu : LowlevelUnit)
    (h : ch.flags.useStaticContext = true → ch.acceptCallbacks = true) :
    ∃ u, ch.configureMessage cc id messType req llu = some u := by
  unfold configureMessage
  dsimp only
  by_cases hcb : messType = ch.callbackType
  swap
  · exact ⟨_, if_neg hcb⟩
  rw [if_pos hcb]
  cases hs : ch.flags.useStaticContext with
  | true =>
      rw [h hs]
      exact ⟨_, rfl⟩
  | false =>
      cases cc with
      | none => exact ⟨_, rfl⟩
      | some c =>
          cases hc : canAcceptCallbacks c with
          | true => exact ⟨_, if_pos hc⟩
          | false => exact ⟨_, if_neg (Bool.eq_false_iff.mp hc)⟩

theorem configure_type {ch : RpcChannel} {cc : Option LowlevelUnit} {id : UInt64} {m : MethodCall}
    {u : LowlevelUnit} (h : ch.configure cc id m = some u) :
    u.messageType = ch.directType ∨ u.messageType = ch.callbackType ∨ u.messageType = .none := by
  obtain ⟨_, _, ⟨hne, ht⟩ | ⟨_, _, _, _, ht⟩ | ⟨hcb, _, _, ht, _⟩ | ⟨hcb, _, _, _, _, ht, _⟩ |
    ⟨_, _, _, ht⟩⟩ := configureMessage_cases h
  · rw [ht, messageType]
    split_ifs
    · exact .inr (.inl rfl)
    · exact .inl rfl
  · exact .inr (.inr ht)
  · exact .inr (.inl (ht.trans hcb))
  · exact .inr (.inl (ht.trans hcb))
  · exact .inl ht

theorem configure_id {ch : RpcChannel} {cc : Option LowlevelUnit} {id : UInt64} {m : MethodCall}
    {u : LowlevelUnit} (h : ch.configure cc id m = some u) : u.id = id :=
  (configureMessage_cases h).1

end RpcChannel

end Vtrc
