import Mathlib.Logic.Function.Basic
import Vtrc.Lib.Machine
import Vtrc.RpcChannel

/-! # The channels of a server (`server/channels.cpp`)

A server has any number of connections.  A handler runs on a thread, and the calls that the thread
is in form its stack of call contexts: `make_local_call` pushes the unit of a call that was
received, `send_message` of a unicast channel the unit of a call that waits for its answer.  A
channel goes to one connection, or to all of them with or without a sender that is left out; it
takes the target of a callback from the top of the stack, or from the context that it has been
given (`USE_STATIC_CONTEXT`), and neither knows the connection on which the call of that context
came in.

`callbacks_bound` says when every callback that is written to a connection is aimed at a call
received on it, and issued under that call: exactly when every context in use is that of a call
received on the connection that the callback goes to. -/

namespace Vtrc

namespace Server

/-- A call context: the unit of its call, and the connection on which the call was received; `none`
for a call of the server that waits for its answer. -/
structure Context where
  unit : LowlevelUnit
  origin : Option ℕ

/-- `unicast_channel` and `broadcast_channel`. -/
inductive Destination where
  | unicast (client : ℕ)
  | broadcast (sender : Option ℕ)

/-- A channel, with the connection of the call whose context it was given. -/
structure ServerChannel where
  dest : Destination
  ch : RpcChannel
  origin : Option ℕ

/-- `set_flags`; a broadcast channel has flags of its own. -/
def ServerChannel.setFlags (chn : ServerChannel) (flags : ChannelFlags) : ServerChannel :=
  match chn.dest with
  | .unicast _ => { chn with ch := { chn.ch with flags := flags } }
  | .broadcast _ => chn

/-- A unit written to the connection `client`, with the connection of the call whose context has
made it a callback. -/
structure Issued where
  client : ℕ
  unit : LowlevelUnit
  origin : Option (Option ℕ)

/-- The connections, the threads and the channels of a server.  `received` and `written` are logs of
what came from the connections and what was written to them, and `issued` is `written` with the
contexts that were used. -/
structure Channels where
  clients : List ℕ
  index : ℕ → UInt64
  stack : ℕ → List Context
  channels : List ServerChannel
  received : List (ℕ × LowlevelUnit)
  written : List (ℕ × LowlevelUnit)
  issued : List Issued

inductive ChannelsEvent where
  | connect (client : ℕ)
  | drop (client : ℕ)
  /-- A call, or a callback, of a client. -/
  | receive (client : ℕ) (llu : LowlevelUnit)
  /-- `make_local_call` of the received unit number `n` begins. -/
  | enter (thread n : ℕ)
  /-- The end of a `context_holder`. -/
  | leave (thread : ℕ)
  | createUnicast (thread client : ℕ) (flags : ChannelFlags)
  | createBroadcast (thread : ℕ) (callback : Bool) (sender : Option ℕ)
  | setFlags (channel : ℕ) (flags : ChannelFlags)
  | setChannelErrorCallback (channel : ℕ) (returns : Bool)
  /-- `set_static_context`, with a context of the thread. -/
  | setStaticContext (thread channel depth : ℕ)
  /-- `send_message`: `alive` says that the client, or the sender, is still there, `active` which
  connections are ready, and `reached` how many clients a broadcast comes to before an exception
  ends it. -/
  | send (thread channel : ℕ) (m : MethodCall) (alive : Bool) (active : ℕ → Bool) (reached : ℕ)

namespace Channels

/-- A server without connections. -/
def initial : Channels where
  clients := []
  index := fun _ => Side.server.firstIndex
  stack := fun _ => []
  channels := []
  received := []
  written := []
  issued := []

/-- `call_context::get`. -/
def top (s : Channels) (t : ℕ) : Option Context := (s.stack t).head?

/-- A channel made on the thread `t`. -/
def create (s : Channels) (t : ℕ) (dest : Destination) (flags : ChannelFlags) : Channels :=
  let ctx := s.top t
  { s with channels := s.channels ++
      [⟨dest, RpcChannel.create .server flags (ctx.map (·.unit)), ctx.bind (·.origin)⟩] }

/-- `get_flags` of a broadcast channel. -/
def broadcastFlags (callback : Bool) : ChannelFlags :=
  { disableWait := true, useContextCall := callback }

/-- The unit is written to the connection. -/
def write (s : Channels) (client : ℕ) (llu : LowlevelUnit) : Channels :=
  { s with written := s.written ++ [(client, llu)] }

/-- `next_index` of a connection. -/
def useIndex (s : Channels) (client : ℕ) : Channels :=
  { s with index := Function.update s.index client (nextIndex (s.index client)) }

/-- `unicast_channel::send_message`; a connection that is not ready gets nothing. -/
def sendUnicast (s : Channels) (t : ℕ) (ch : RpcChannel) (client : ℕ) (m : MethodCall)
    (active : Bool) : Channels :=
  match ch.configure ((s.top t).map (·.unit)) (nextIndex (s.index client)) m with
  | some llu =>
      let s := if active then (s.useIndex client).write client llu else s.useIndex client
      if llu.opt.wait then
        { s with stack := Function.update s.stack t (⟨llu, none⟩ :: s.stack t) }
      else s
  | none => s.useIndex client

/-- `send_to_client`: the unit is the one that the client before has got. -/
def sendToClient (cc : Option LowlevelUnit) (ch : RpcChannel) (req : Option Bytes)
    (s : Channels × LowlevelUnit) (client : ℕ) : Channels × LowlevelUnit :=
  match ch.configureMessage cc (nextIndex (s.1.index client)) ch.messageType req s.2 with
  | some llu => ((s.1.useIndex client).write client llu, llu)
  | none => (s.1.useIndex client, s.2)

/-- The clients to which a broadcast goes. -/
def recipients (s : Channels) (sender : Option ℕ) (active : ℕ → Bool) (reached : ℕ) : List ℕ :=
  (s.clients.take reached).filter (fun c => sender ≠ some c ∧ active c = true)

/-- `broadcast_channel::send_message`. -/
def sendBroadcast (s : Channels) (t : ℕ) (ch : RpcChannel) (sender : Option ℕ) (m : MethodCall)
    (active : ℕ → Bool) (reached : ℕ) : Channels :=
  let llu := { ch.createLowlevel m with messageType := ch.messageType }
  ((s.recipients sender active reached).foldl
    (sendToClient ((s.top t).map (·.unit)) ch m.request) (s, llu)).1

/-- The connection of the call whose context `configure_message` makes a callback with: of the
context stored in the channel with `USE_STATIC_CONTEXT`, else of the current one.  It is `none` when
no callback is made, and `some none` for a context of the server's own. -/
def callbackOrigin (s : Channels) (t : ℕ) (chn : ServerChannel) : Option (Option ℕ) :=
  if chn.ch.messageType = chn.ch.callbackType then
    if chn.ch.flags.useStaticContext then
      if chn.ch.acceptCallbacks then some chn.origin else none
    else
      match s.top t with
      | some ctx => if canAcceptCallbacks ctx.unit then some ctx.origin else none
      | none => none
  else none

/-- What has been written since `s` is logged with the origin. -/
def logIssued (s' s : Channels) (origin : Option (Option ℕ)) : Channels :=
  { s' with issued := s'.issued ++
      (s'.written.drop s.written.length).map (fun p => ⟨p.1, p.2, origin⟩) }

def step (s : Channels) : ChannelsEvent → Option Channels
  | .connect c => some { s with clients := s.clients ++ [c] }
  | .drop c => some { s with clients := s.clients.erase c }
  | .receive c llu =>
      if llu.messageType = .clientCall ∨ llu.messageType = .clientCallback then
        some { s with received := s.received ++ [(c, llu)] }
      else none
  | .enter t n =>
      (s.received[n]?).map (fun r =>
        { s with stack := Function.update s.stack t (⟨r.2, some r.1⟩ :: s.stack t) })
  | .leave t => some { s with stack := Function.update s.stack t (s.stack t).tail }
  | .createUnicast t c flags => some (s.create t (.unicast c) flags)
  | .createBroadcast t callback sender =>
      some (s.create t (.broadcast sender) (broadcastFlags callback))
  | .setFlags n flags =>
      (s.channels[n]?).map (fun chn =>
        { s with channels := s.channels.set n (chn.setFlags flags) })
  | .setChannelErrorCallback n returns =>
      (s.channels[n]?).map (fun chn =>
        { s with
          channels := s.channels.set n
            { chn with ch := { chn.ch with chanErrorReturns := returns } } })
  | .setStaticContext t n depth =>
      (s.channels[n]?).map (fun chn =>
        let ctx := (s.stack t)[depth]?
        { s with channels := s.channels.set n { chn with
          ch := chn.ch.setStaticContext (ctx.map (·.unit))
          origin := ctx.bind (·.origin) } })
  | .send t n m alive active reached =>
      (s.channels[n]?).map (fun chn =>
        let s' :=
          match chn.dest with
          | .unicast c => if alive then s.sendUnicast t chn.ch c m (active c) else s
          | .broadcast sender =>
              s.sendBroadcast t chn.ch (if alive then sender else none) m active reached
        s'.logIssued s (s.callbackOrigin t chn))

end Channels

/-- The server from its start on. -/
def channelsMachine : Machine Channels ChannelsEvent where
  init := .initial
  step := Channels.step

namespace Channels

/-! ### Where a callback is aimed -/

/-- A call with this id was received on the connection. -/
def Received (s : Channels) (client : ℕ) (id : UInt64) : Prop :=
  ∃ llu, (client, llu) ∈ s.received ∧ llu.id = id

/-- Every callback that was written to a connection is aimed at a call received on it, and was
issued under a call received on it. -/
structure Bound (s : Channels) : Prop where
  target : ∀ p ∈ s.written, p.2.messageType = .serverCallback → s.Received p.1 p.2.targetId
  issuer : ∀ w ∈ s.issued, w.unit.messageType = .serverCallback → w.origin = some (some w.client)

/-- A callback from the channel to the connection uses the context of a call received there. -/
def Aimed (s : Channels) (t : ℕ) (chn : ServerChannel) (client : ℕ) : Prop :=
  ∀ origin, s.callbackOrigin t chn = some origin → origin = some client

/-- The condition on a step: it is about the connections that the unit is written to. -/
def AimedStep (s : Channels) : ChannelsEvent → Prop
  | .send t n _ alive active reached => ∀ chn, s.channels[n]? = some chn →
      match chn.dest with
      | .unicast c => alive = true → active c = true → s.Aimed t chn c
      | .broadcast sender =>
          ∀ c ∈ s.recipients (if alive then sender else none) active reached, s.Aimed t chn c
  | _ => True

/-- What holds in every run, whatever the callbacks are aimed at. -/
structure Inv (s : Channels) : Prop where
  contexts : ∀ t, ∀ ctx ∈ s.stack t, ∀ c, ctx.origin = some c → (c, ctx.unit) ∈ s.received
  statics : ∀ chn ∈ s.channels, ∀ c, chn.origin = some c → chn.ch.acceptCallbacks = true →
    s.Received c chn.ch.staticTarget
  types : ∀ chn ∈ s.channels, chn.ch.directType = .serverCall ∧
    chn.ch.callbackType = .serverCallback
  broadcasts : ∀ chn ∈ s.channels, ∀ sender, chn.dest = .broadcast sender →
    chn.ch.flags.useStaticContext = false
  logged : s.issued.map (fun w => (w.client, w.unit)) = s.written
  targets : ∀ w ∈ s.issued, w.unit.messageType = .serverCallback →
    ∀ c, w.origin = some (some c) → s.Received c w.unit.targetId

theorem Received.append {s s' : Channels} {c : ℕ} {id : UInt64} (h : s.Received c id)
    {rs : List (ℕ × LowlevelUnit)} (hr : s'.received = s.received ++ rs) : s'.Received c id := by
  obtain ⟨llu, hm, hid⟩ := h
  exact ⟨llu, hr ▸ List.mem_append_left _ hm, hid⟩

theorem Received.of_eq {s s' : Channels} {c : ℕ} {id : UInt64} (h : s.Received c id)
    (hr : s'.received = s.received) : s'.Received c id := by
  obtain ⟨llu, hm, hid⟩ := h
  exact ⟨llu, hr ▸ hm, hid⟩

theorem Inv.bound_iff {s : Channels} (h : s.Inv) :
    s.Bound ↔
      ∀ w ∈ s.issued, w.unit.messageType = .serverCallback → w.origin = some (some w.client) := by
  refine ⟨Bound.issuer, fun hw => ⟨?_, hw⟩⟩
  intro p hp hcb
  rw [← h.logged] at hp
  obtain ⟨w, hm, rfl⟩ := List.mem_map.mp hp
  exact h.targets w hm hcb w.client (hw w hm hcb)

/-! ### The unit of a channel -/

section
variable {s : Channels} {t : ℕ} {chn : ServerChannel}

theorem callbackOrigin_eq_some {origin : Option ℕ} (h : s.callbackOrigin t chn = some origin) :
    chn.ch.messageType = chn.ch.callbackType ∧
      ((chn.ch.flags.useStaticContext = true ∧ chn.ch.acceptCallbacks = true ∧
          origin = chn.origin) ∨
        (chn.ch.flags.useStaticContext = false ∧ ∃ ctx, s.top t = some ctx ∧
          canAcceptCallbacks ctx.unit = true ∧ origin = ctx.origin)) := by
  unfold callbackOrigin at h
  split_ifs at h with hcb hst hacc
  · exact ⟨hcb, .inl ⟨hst, hacc, (Option.some.inj h).symm⟩⟩
  · cases htop : s.top t with
    | none =>
        rw [htop] at h
        cases h
    | some ctx =>
        simp only [htop, Option.ite_none_right_eq_some, Option.some.injEq] at h
        exact ⟨hcb, .inr ⟨Bool.eq_false_of_not_eq_true hst, ctx, rfl, h.1, h.2.symm⟩⟩

theorem callbackOrigin_eq_none (h : s.callbackOrigin t chn = none)
    (hcb : chn.ch.messageType = chn.ch.callbackType) :
    (chn.ch.flags.useStaticContext = true → chn.ch.acceptCallbacks = false) ∧
      (chn.ch.flags.useStaticContext = false →
        ∀ ctx, s.top t = some ctx → canAcceptCallbacks ctx.unit = false) := by
  rw [callbackOrigin, if_pos hcb] at h
  constructor
  · intro hst
    rw [if_pos hst] at h
    cases hacc : chn.ch.acceptCallbacks with
    | false => rfl
    | true =>
        rw [if_pos hacc] at h
        cases h
  · intro hst ctx htop
    rw [if_neg (Bool.eq_false_iff.mp hst), htop] at h
    cases hacc : canAcceptCallbacks ctx.unit with
    | false => rfl
    | true =>
        dsimp only at h
        rw [if_pos hacc] at h
        cases h

theorem configured_callback {origin : Option ℕ} (ho : s.callbackOrigin t chn = some origin)
    {id : UInt64} {req : Option Bytes} {llu u : LowlevelUnit}
    (hu : chn.ch.configureMessage ((s.top t).map (·.unit)) id chn.ch.messageType req llu =
      some u) :
    u.messageType = chn.ch.callbackType ∧
      ((chn.ch.acceptCallbacks = true ∧ origin = chn.origin ∧ u.targetId = chn.ch.staticTarget) ∨
        ∃ ctx, s.top t = some ctx ∧ origin = ctx.origin ∧ u.targetId = ctx.unit.id) := by
  obtain ⟨hm, hcases⟩ := callbackOrigin_eq_some ho
  obtain ⟨_, _, ⟨hne, _⟩ | ⟨_, hst, hacc, _⟩ | ⟨_, hst, hacc, ht, htgt⟩ |
    ⟨_, hst, c, hc, _, ht, htgt⟩ | ⟨_, hst, hnone, _⟩⟩ := RpcChannel.configureMessage_cases hu
  · exact absurd hm hne
  · obtain ⟨_, hacc', _⟩ | ⟨hst', _⟩ := hcases
    · cases hacc.symm.trans hacc'
    · cases hst.symm.trans hst'
  · obtain ⟨_, _, horigin⟩ | ⟨hst', _⟩ := hcases
    · exact ⟨ht.trans hm, .inl ⟨hacc, horigin, htgt⟩⟩
    · cases hst.symm.trans hst'
  · obtain ⟨hst', _⟩ | ⟨_, ctx, htop, _, horigin⟩ := hcases
    · cases hst.symm.trans hst'
    · rw [htop] at hc
      obtain rfl := Option.some.inj hc
      exact ⟨ht.trans hm, .inr ⟨ctx, htop, horigin, htgt⟩⟩
  · obtain ⟨hst', _⟩ | ⟨_, ctx, htop, hacc, _⟩ := hcases
    · cases hst.symm.trans hst'
    · cases hacc.symm.trans (hnone ctx.unit (by rw [htop]; rfl))

/-- The unit is a callback exactly when a context is used for it. -/
theorem isSome_callbackOrigin_iff (h : s.Inv) (hchn : chn ∈ s.channels) {id : UInt64}
    {req : Option Bytes} {llu u : LowlevelUnit}
    (hu : chn.ch.configureMessage ((s.top t).map (·.unit)) id chn.ch.messageType req llu = some u)
    (hl : chn.ch.flags.useStaticContext = true → llu.messageType ≠ .serverCallback) :
    u.messageType = .serverCallback ↔ (s.callbackOrigin t chn).isSome = true := by
  obtain ⟨hdirect, hcallback⟩ := h.types chn hchn
  cases ho : s.callbackOrigin t chn with
  | some origin => exact iff_of_true ((configured_callback ho hu).1.trans hcallback) rfl
  | none =>
      refine iff_of_false (fun hcb => ?_) Bool.false_ne_true
      obtain ⟨_, _, ⟨hne, ht⟩ | ⟨_, hst, _, _, ht⟩ | ⟨hm, hst, hacc, _⟩ |
        ⟨hm, hst, c, hc, hacc, _⟩ | ⟨_, _, _, ht⟩⟩ := RpcChannel.configureMessage_cases hu
      · exact hne (ht.symm.trans (hcb.trans hcallback.symm))
      · exact hl hst (ht.symm.trans hcb)
      · cases hacc.symm.trans ((callbackOrigin_eq_none ho hm).1 hst)
      · obtain ⟨ctx, htop, rfl⟩ := Option.map_eq_some_iff.mp hc
        cases hacc.symm.trans ((callbackOrigin_eq_none ho hm).2 hst ctx htop)
      · rw [hcb, hdirect] at ht
        cases ht

theorem received_of_callbackOrigin (h : s.Inv) (hchn : chn ∈ s.channels) {id : UInt64}
    {req : Option Bytes} {llu u : LowlevelUnit}
    (hu : chn.ch.configureMessage ((s.top t).map (·.unit)) id chn.ch.messageType req llu = some u)
    {c : ℕ} (ho : s.callbackOrigin t chn = some (some c)) : s.Received c u.targetId := by
  obtain ⟨_, ⟨hacc, horigin, htgt⟩ | ⟨ctx, htop, horigin, htgt⟩⟩ := configured_callback ho hu
  · rw [htgt]
    exact h.statics chn hchn c horigin.symm hacc
  · rw [htgt]
    exact ⟨ctx.unit, h.contexts t ctx (List.mem_of_mem_head? htop) c horigin.symm, rfl⟩

end

/-! ### What a channel writes -/

/-- What `send_message` of the channel has done on the thread `t`, where the unit goes to the
connections `cs`: each gets at most what `configure_message` has made for it, and a callback goes
to all of them. -/
structure Sent (s s' : Channels) (t : ℕ) (chn : ServerChannel) (cs : List ℕ)
    (us : List (ℕ × LowlevelUnit)) : Prop where
  received : s'.received = s.received
  channels : s'.channels = s.channels
  issued : s'.issued = s.issued
  stack : ∀ t, ∀ ctx ∈ s'.stack t, ctx ∈ s.stack t ∨ ctx.origin = none
  written : s'.written = s.written ++ us
  clients : ∀ p ∈ us, p.1 ∈ cs
  configured : ∀ p ∈ us, ∃ id req llu,
    (chn.ch.flags.useStaticContext = true → llu.messageType ≠ .serverCallback) ∧
    chn.ch.configureMessage ((s.top t).map (·.unit)) id chn.ch.messageType req llu = some p.2
  all : (s.callbackOrigin t chn).isSome = true → ∀ c ∈ cs, ∃ u, (c, u) ∈ us

theorem exists_configured {s : Channels} {t : ℕ} {chn : ServerChannel}
    (ho : (s.callbackOrigin t chn).isSome = true) (id : UInt64) (req : Option Bytes)
    (llu : LowlevelUnit) :
    ∃ u, chn.ch.configureMessage ((s.top t).map (·.unit)) id chn.ch.messageType req llu =
      some u := by
  obtain ⟨origin, ho⟩ := Option.isSome_iff_exists.mp ho
  apply RpcChannel.configureMessage_isSome
  intro hst
  obtain ⟨_, ⟨_, hacc, _⟩ | ⟨hst', _⟩⟩ := callbackOrigin_eq_some ho
  · exact hacc
  · cases hst.symm.trans hst'

/-- While a call waits, its own unit is the context of the thread. -/
theorem Sent.wait {s s' : Channels} {t : ℕ} {chn : ServerChannel} {cs : List ℕ}
    {us : List (ℕ × LowlevelUnit)} (h : Sent s s' t chn cs us) (llu : LowlevelUnit) :
    Sent s { s' with stack := Function.update s'.stack t (⟨llu, none⟩ :: s'.stack t) } t chn cs
      us := by
  refine ⟨h.received, h.channels, h.issued, ?_, h.written, h.clients, h.configured, h.all⟩
  intro t' ctx hctx
  by_cases ht : t' = t
  · subst ht
    simp only [Function.update_self] at hctx
    cases List.mem_cons.mp hctx with
    | inl heq => exact .inr (heq ▸ rfl)
    | inr hctx => exact h.stack t' ctx hctx
  · simp only [Function.update_of_ne ht] at hctx
    exact h.stack t' ctx hctx

theorem sendUnicast_sent (s : Channels) (t : ℕ) (chn : ServerChannel) (client : ℕ) (m : MethodCall)
    (active : Bool) :
    ∃ us, Sent s (s.sendUnicast t chn.ch client m active) t chn (if active then [client] else [])
      us := by
  unfold Channels.sendUnicast
  split
  case h_1 llu hconf =>
    obtain ⟨us, hus⟩ : ∃ us, Sent s
        (if active then (s.useIndex client).write client llu else s.useIndex client) t chn
        (if active then [client] else []) us := by
      cases active with
      | false =>
          exact ⟨[], rfl, rfl, rfl, fun _ _ hctx => .inl hctx, (List.append_nil _).symm, by simp,
            by simp, fun _ => by simp⟩
      | true =>
          refine ⟨[(client, llu)], rfl, rfl, rfl, fun _ _ hctx => .inl hctx, rfl, by simp, ?_,
            fun _ => by simp⟩
          intro p hp
          obtain rfl := List.mem_singleton.mp hp
          -- the unit is new, so that it is no callback when the channel has no context
          exact ⟨_, _, _, fun _ => by simp [RpcChannel.createLowlevel], hconf⟩
    refine ⟨us, ?_⟩
    by_cases hwait : llu.opt.wait = true
    · rw [if_pos hwait]
      exact hus.wait llu
    · rw [if_neg hwait]
      exact hus
  case h_2 hconf =>
    refine ⟨[], rfl, rfl, rfl, fun _ _ hctx => .inl hctx, (List.append_nil _).symm, by simp,
      by simp, fun ho => ?_⟩
    obtain ⟨u, hu⟩ := exists_configured ho (nextIndex (s.index client)) m.request
      (chn.ch.createLowlevel m)
    cases hconf.symm.trans hu

theorem foldl_sendToClient (cc : Option LowlevelUnit) (ch : RpcChannel) (req : Option Bytes)
    (hch : ch.flags.useStaticContext = false) (cs : List ℕ) (s : Channels) (llu : LowlevelUnit) :
    let s' := (cs.foldl (sendToClient cc ch req) (s, llu)).1
    s'.received = s.received ∧ s'.stack = s.stack ∧ s'.channels = s.channels ∧
      s'.issued = s.issued ∧
      ∃ us, s'.written = s.written ++ us ∧ us.map Prod.fst = cs ∧ ∀ p ∈ us,
        ∃ id llu, ch.configureMessage cc id ch.messageType req llu = some p.2 := by
  induction cs generalizing s llu with
  | nil => exact ⟨rfl, rfl, rfl, rfl, [], (List.append_nil _).symm, rfl, fun _ hp => by cases hp⟩
  | cons c cs ih =>
      have hstatic : ch.flags.useStaticContext = true → ch.acceptCallbacks = true := by
        rw [hch]
        intro h
        cases h
      obtain ⟨u, hu⟩ := RpcChannel.configureMessage_isSome cc (nextIndex (s.index c))
        ch.messageType req llu hstatic
      simp only [List.foldl_cons, sendToClient, hu]
      obtain ⟨hr, hst, hc, hi, us, hw, hcs, hus⟩ := ih ((s.useIndex c).write c u) u
      refine ⟨hr, hst, hc, hi, (c, u) :: us, ?_, ?_, ?_⟩
      · rw [hw]
        exact List.append_assoc ..
      · rw [List.map_cons, hcs]
      · intro p hp
        cases List.mem_cons.mp hp with
        | inl heq =>
            rw [heq]
            exact ⟨_, _, hu⟩
        | inr hp => exact hus p hp

theorem sendBroadcast_sent (s : Channels) (t : ℕ) (chn : ServerChannel)
    (hchn : chn.ch.flags.useStaticContext = false) (sender : Option ℕ) (m : MethodCall)
    (active : ℕ → Bool) (reached : ℕ) :
    ∃ us, Sent s (s.sendBroadcast t chn.ch sender m active reached) t chn
      (s.recipients sender active reached) us := by
  obtain ⟨hr, hst, hc, hi, us, hw, hcs, hus⟩ := foldl_sendToClient ((s.top t).map (·.unit)) chn.ch
    m.request hchn (s.recipients sender active reached) s
    { chn.ch.createLowlevel m with messageType := chn.ch.messageType }
  refine ⟨us, hr, hc, hi, fun t' ctx hctx => .inl (hst ▸ hctx), hw, ?_, ?_, ?_⟩
  · intro p hp
    rw [← hcs]
    exact List.mem_map_of_mem hp
  · intro p hp
    obtain ⟨id, llu, hconf⟩ := hus p hp
    refine ⟨id, m.request, llu, ?_, hconf⟩
    rw [hchn]
    intro h
    cases h
  · intro _ c hmem
    rw [← hcs] at hmem
    obtain ⟨p, hp, rfl⟩ := List.mem_map.mp hmem
    exact ⟨p.2, hp⟩

section
variable {s s' : Channels} {t : ℕ} {chn : ServerChannel} {cs : List ℕ}
  {us : List (ℕ × LowlevelUnit)}

theorem Sent.logIssued_issued (hs : Sent s s' t chn cs us) (origin : Option (Option ℕ)) :
    (s'.logIssued s origin).issued = s.issued ++ us.map (fun p => ⟨p.1, p.2, origin⟩) := by
  unfold logIssued
  simp only [hs.written, hs.issued, List.drop_left]

theorem Sent.inv (hs : Sent s s' t chn cs us) (h : s.Inv) (hchn : chn ∈ s.channels) :
    (s'.logIssued s (s.callbackOrigin t chn)).Inv := by
  have hissued := hs.logIssued_issued (s.callbackOrigin t chn)
  have hrec : (s'.logIssued s (s.callbackOrigin t chn)).received = s.received := hs.received
  refine ⟨?_, ?_, ?_, ?_, ?_, ?_⟩
  · intro t' ctx hctx c ho
    rw [hrec]
    cases hs.stack t' ctx hctx with
    | inl hctx => exact h.contexts t' ctx hctx c ho
    | inr hnone => cases hnone.symm.trans ho
  · intro chn' hchn' c ho ha
    exact (h.statics chn' (hs.channels ▸ hchn') c ho ha).of_eq hrec
  · intro chn' hchn'
    exact h.types chn' (hs.channels ▸ hchn')
  · intro chn' hchn'
    exact h.broadcasts chn' (hs.channels ▸ hchn')
  · rw [hissued, List.map_append, h.logged, List.map_map]
    refine Eq.trans ?_ hs.written.symm
    simp [Function.comp_def]
  · rw [hissued]
    intro w hw hcb c ho
    cases List.mem_append.mp hw with
    | inl hw => exact (h.targets w hw hcb c ho).of_eq hrec
    | inr hw =>
        obtain ⟨p, hp, rfl⟩ := List.mem_map.mp hw
        obtain ⟨id, req, llu, _, hconf⟩ := hs.configured p hp
        exact (received_of_callbackOrigin h hchn hconf ho).of_eq hrec

theorem Sent.issuer_iff (hs : Sent s s' t chn cs us) (h : s.Inv) (hchn : chn ∈ s.channels) :
    (∀ w ∈ (s'.logIssued s (s.callbackOrigin t chn)).issued,
        w.unit.messageType = .serverCallback → w.origin = some (some w.client)) ↔
      (∀ w ∈ s.issued, w.unit.messageType = .serverCallback →
        w.origin = some (some w.client)) ∧ ∀ c ∈ cs, s.Aimed t chn c := by
  rw [hs.logIssued_issued, List.forall_mem_append]
  apply and_congr_right
  intro _
  have hiff : ∀ p ∈ us, (p.2.messageType = .serverCallback ↔
      (s.callbackOrigin t chn).isSome = true) := by
    intro p hp
    obtain ⟨id, req, llu, hl, hconf⟩ := hs.configured p hp
    exact isSome_callbackOrigin_iff h hchn hconf hl
  constructor
  · intro hall c hc origin ho
    have hsome : (s.callbackOrigin t chn).isSome = true := by rw [ho]; rfl
    obtain ⟨u, hu⟩ := hs.all hsome c hc
    have hw := hall _ (List.mem_map_of_mem hu) ((hiff _ hu).mpr hsome)
    exact Option.some.inj (ho.symm.trans hw)
  · intro haim w hw hcb
    obtain ⟨p, hp, rfl⟩ := List.mem_map.mp hw
    obtain ⟨origin, ho⟩ := Option.isSome_iff_exists.mp ((hiff p hp).mp hcb)
    exact ho.trans (congrArg some (haim p.1 (hs.clients p hp) origin ho))

end

/-! ### The invariant -/

theorem Inv.of_channels {s : Channels} (h : s.Inv) {cs : List ServerChannel}
    (hcs : ∀ chn ∈ cs,
      (∀ c, chn.origin = some c → chn.ch.acceptCallbacks = true →
        s.Received c chn.ch.staticTarget) ∧
      (chn.ch.directType = .serverCall ∧ chn.ch.callbackType = .serverCallback) ∧
      ∀ sender, chn.dest = .broadcast sender → chn.ch.flags.useStaticContext = false) :
    { s with channels := cs }.Inv :=
  ⟨h.contexts, fun chn hchn => (hcs chn hchn).1, fun chn hchn => (hcs chn hchn).2.1,
    fun chn hchn => (hcs chn hchn).2.2, h.logged, h.targets⟩

theorem Inv.of_stack {s : Channels} (h : s.Inv) (t : ℕ) {st : List Context}
    (hst : ∀ ctx ∈ st, ∀ c, ctx.origin = some c → (c, ctx.unit) ∈ s.received) :
    { s with stack := Function.update s.stack t st }.Inv := by
  refine ⟨?_, h.statics, h.types, h.broadcasts, h.logged, h.targets⟩
  intro t' ctx hctx
  by_cases ht : t' = t
  · subst ht
    simp only [Function.update_self] at hctx
    exact hst ctx hctx
  · simp only [Function.update_of_ne ht] at hctx
    exact h.contexts t' ctx hctx

theorem static_received {s : Channels} (h : s.Inv) {t : ℕ} {ctx : Option Context}
    (hctx : ∀ c, ctx = some c → c ∈ s.stack t) (ch : RpcChannel) (client : ℕ)
    (ho : ctx.bind (·.origin) = some client) :
    s.Received client (ch.setStaticContext (ctx.map (·.unit))).staticTarget := by
  cases ctx with
  | none => cases ho
  | some c => exact ⟨c.unit, h.contexts t c (hctx c rfl) client ho, rfl⟩

theorem setStaticContext_types (ch : RpcChannel) (cc : Option LowlevelUnit) :
    (ch.setStaticContext cc).directType = ch.directType ∧
      (ch.setStaticContext cc).callbackType = ch.callbackType ∧
      (ch.setStaticContext cc).flags = ch.flags := by
  cases cc <;> exact ⟨rfl, rfl, rfl⟩

theorem Inv.create {s : Channels} (h : s.Inv) (t : ℕ) (dest : Destination) (flags : ChannelFlags)
    (hb : ∀ sender, dest = .broadcast sender → flags.useStaticContext = false) :
    (s.create t dest flags).Inv := by
  apply h.of_channels
  intro chn hchn
  cases List.mem_append.mp hchn with
  | inl hchn => exact ⟨h.statics chn hchn, h.types chn hchn, h.broadcasts chn hchn⟩
  | inr hchn =>
      obtain rfl := List.mem_singleton.mp hchn
      obtain ⟨h₁, h₂, h₃⟩ := setStaticContext_types
        { directType := Side.server.directType, callbackType := Side.server.callbackType,
          flags := flags } ((s.top t).map (·.unit))
      refine ⟨?_, ⟨h₁, h₂⟩, ?_⟩
      · intro c ho _
        exact static_received h (fun ctx hc => List.mem_of_mem_head? hc) _ c ho
      · intro sender hd
        exact (congrArg ChannelFlags.useStaticContext h₃).trans (hb sender hd)

theorem Inv.set {s : Channels} (h : s.Inv) {n : ℕ} {chn chn' : ServerChannel}
    (hn : s.channels[n]? = some chn)
    (hst : ∀ c, chn'.origin = some c → chn'.ch.acceptCallbacks = true →
      s.Received c chn'.ch.staticTarget)
    (ht : chn'.ch.directType = chn.ch.directType ∧ chn'.ch.callbackType = chn.ch.callbackType)
    (hb : ∀ sender, chn'.dest = .broadcast sender →
      chn.dest = .broadcast sender ∧ chn'.ch.flags = chn.ch.flags) :
    { s with channels := s.channels.set n chn' }.Inv := by
  have hm := List.mem_of_getElem? hn
  apply h.of_channels
  intro c hc
  obtain hc | rfl := List.mem_or_eq_of_mem_set hc
  · exact ⟨h.statics c hc, h.types c hc, h.broadcasts c hc⟩
  · refine ⟨hst, ?_, ?_⟩
    · rw [ht.1, ht.2]
      exact h.types chn hm
    · intro sender hd
      obtain ⟨hd, hf⟩ := hb sender hd
      rw [hf]
      exact h.broadcasts chn hm sender hd

/-- What `send_message` does, and to which connections the unit goes. -/
theorem step_send {s s' : Channels} (h : s.Inv) {t n : ℕ} {m : MethodCall} {alive : Bool}
    {active : ℕ → Bool} {reached : ℕ} (hs : s.step (.send t n m alive active reached) = some s') :
    ∃ chn s₁ cs us, chn ∈ s.channels ∧ s' = s₁.logIssued s (s.callbackOrigin t chn) ∧
      Sent s s₁ t chn cs us ∧
      (s.AimedStep (.send t n m alive active reached) ↔ ∀ c ∈ cs, s.Aimed t chn c) := by
  obtain ⟨chn, hn, rfl⟩ := Option.map_eq_some_iff.mp hs
  have hm := List.mem_of_getElem? hn
  simp only [AimedStep, hn, Option.some.injEq, forall_eq']
  cases hd : chn.dest with
  | unicast c =>
      cases alive with
      | true =>
          obtain ⟨us, hus⟩ := s.sendUnicast_sent t chn c m (active c)
          refine ⟨chn, _, _, us, hm, rfl, hus, ?_⟩
          cases hac : active c <;> simp [hac]
      | false =>
          refine ⟨chn, s, [], [], hm, rfl, ?_, by simp⟩
          exact ⟨rfl, rfl, rfl, fun _ _ hctx => .inl hctx, (List.append_nil _).symm, by simp,
            by simp, by simp⟩
  | broadcast sender =>
      obtain ⟨us, hus⟩ := s.sendBroadcast_sent t chn (h.broadcasts chn hm sender hd)
        (if alive then sender else none) m active reached
      exact ⟨chn, _, _, us, hm, rfl, hus, Iff.rfl⟩

theorem Inv.step {s s' : Channels} {e : ChannelsEvent} (h : s.Inv) (hs : s.step e = some s') :
    s'.Inv := by
  cases e with
  | connect c =>
      cases hs
      exact ⟨h.contexts, h.statics, h.types, h.broadcasts, h.logged, h.targets⟩
  | drop c =>
      cases hs
      exact ⟨h.contexts, h.statics, h.types, h.broadcasts, h.logged, h.targets⟩
  | receive c llu =>
      simp only [Channels.step, Option.ite_none_right_eq_some] at hs
      obtain ⟨_, hs⟩ := hs
      cases hs
      refine ⟨?_, ?_, h.types, h.broadcasts, h.logged, ?_⟩
      · intro t ctx hctx c' ho
        exact List.mem_append_left _ (h.contexts t ctx hctx c' ho)
      · intro chn hchn c' ho ha
        exact (h.statics chn hchn c' ho ha).append rfl
      · intro w hw hcb c' ho
        exact (h.targets w hw hcb c' ho).append rfl
  | enter t n =>
      obtain ⟨r, hr, rfl⟩ := Option.map_eq_some_iff.mp hs
      refine h.of_stack t (fun ctx hctx c hc => ?_)
      obtain rfl | hctx := List.mem_cons.mp hctx
      · cases hc
        exact List.mem_of_getElem? hr
      · exact h.contexts t ctx hctx c hc
  | leave t =>
      cases hs
      exact h.of_stack t (fun ctx hctx => h.contexts t ctx (List.mem_of_mem_tail hctx))
  | createUnicast t c flags =>
      cases hs
      exact h.create t _ _ (fun _ hd => by cases hd)
  | createBroadcast t callback sender =>
      cases hs
      exact h.create t _ _ (fun _ _ => rfl)
  | setFlags n flags =>
      obtain ⟨chn, hn, rfl⟩ := Option.map_eq_some_iff.mp hs
      have hm := List.mem_of_getElem? hn
      refine h.set hn ?_ ?_ ?_
      · unfold ServerChannel.setFlags
        split <;> exact h.statics chn hm
      · unfold ServerChannel.setFlags
        split <;> exact ⟨rfl, rfl⟩
      · unfold ServerChannel.setFlags
        split
        case h_1 c hd =>
          intro sender hd'
          simp only [hd] at hd'
          cases hd'
        case h_2 => exact fun sender hd => ⟨hd, rfl⟩
  | setChannelErrorCallback n returns =>
      obtain ⟨chn, hn, rfl⟩ := Option.map_eq_some_iff.mp hs
      have hm := List.mem_of_getElem? hn
      exact h.set hn (h.statics chn hm) ⟨rfl, rfl⟩ (fun _ hd => ⟨hd, rfl⟩)
  | setStaticContext t n depth =>
      obtain ⟨chn, hn, rfl⟩ := Option.map_eq_some_iff.mp hs
      obtain ⟨h₁, h₂, h₃⟩ := setStaticContext_types chn.ch (((s.stack t)[depth]?).map (·.unit))
      refine h.set hn ?_ ⟨h₁, h₂⟩ (fun _ hd => ⟨hd, h₃⟩)
      intro c ho _
      exact static_received h (fun ctx hc => List.mem_of_getElem? hc) _ c ho
  | send t n m alive active reached =>
      obtain ⟨chn, s₁, cs, us, hm, rfl, hsent, _⟩ := step_send h hs
      exact hsent.inv h hm

theorem Inv.initial : Channels.initial.Inv where
  contexts := fun _ _ hctx => (by cases hctx)
  statics := fun _ hchn => (by cases hchn)
  types := fun _ hchn => (by cases hchn)
  broadcasts := fun _ hchn => (by cases hchn)
  logged := rfl
  targets := fun _ hw => (by cases hw)

theorem step_issuer_iff {s s' : Channels} {e : ChannelsEvent} (h : s.Inv)
    (hs : s.step e = some s') :
    (∀ w ∈ s'.issued, w.unit.messageType = .serverCallback → w.origin = some (some w.client)) ↔
      (∀ w ∈ s.issued, w.unit.messageType = .serverCallback →
        w.origin = some (some w.client)) ∧ s.AimedStep e := by
  by_cases hsend : ∃ t n m alive active reached, e = .send t n m alive active reached
  · obtain ⟨t, n, m, alive, active, reached, rfl⟩ := hsend
    obtain ⟨chn, s₁, cs, us, hm, rfl, hsent, haim⟩ := step_send h hs
    rw [hsent.issuer_iff h hm, haim]
  · have hissued : s'.issued = s.issued := by
      cases e with
      | send t n m alive active reached => exact absurd ⟨t, n, m, alive, active, reached, rfl⟩ hsend
      | receive c llu =>
          simp only [Channels.step, Option.ite_none_right_eq_some] at hs
          obtain ⟨_, hs⟩ := hs
          cases hs
          rfl
      | connect | drop | leave | createUnicast | createBroadcast =>
          cases hs
          rfl
      | enter | setFlags | setChannelErrorCallback | setStaticContext =>
          obtain ⟨_, _, rfl⟩ := Option.map_eq_some_iff.mp hs
          rfl
    have haim : s.AimedStep e := by
      cases e with
      | send t n m alive active reached => exact absurd ⟨t, n, m, alive, active, reached, rfl⟩ hsend
      | _ => trivial
    rw [hissued, and_iff_left haim]

end Channels

/-- **Callbacks are bound to the right connection** exactly in the runs in which a callback is sent
to a connection only under the context of a call received on that connection. -/
theorem callbacks_bound {es : List ChannelsEvent} {s : Channels}
    (h : channelsMachine.run es = some s) :
    s.issued.map (fun w => (w.client, w.unit)) = s.written ∧
      (s.Bound ↔ channelsMachine.Meets Channels.AimedStep channelsMachine.init es) := by
  have hinv : s.Inv :=
    channelsMachine.runFrom_inv (I := Channels.Inv) (fun _ _ _ hs hst => hs.step hst) .initial h
  refine ⟨hinv.logged, hinv.bound_iff.trans ?_⟩
  apply channelsMachine.iff_meets (I := Channels.Inv) .initial (fun w hw => by cases hw)
    (fun _ _ _ hs hst => hs.step hst) (fun _ _ _ hs hst => Channels.step_issuer_iff hs hst) h

/-- A callback of the handler of a call to the client that made the call. -/
theorem callback_to_caller :
    let call : LowlevelUnit :=
      { id := 103, messageType := .clientCall, opt := { wait := true, acceptCallbacks := true } }
    let m : MethodCall := ⟨"s", "m", none, true, true, true⟩
    let es : List ChannelsEvent := [.connect 0, .receive 0 call, .enter 0 0,
      .createUnicast 0 0 { useContextCall := true }, .send 0 0 m true (fun _ => true) 0]
    ∃ s, channelsMachine.run es = some s ∧
      s.written.map (fun p => (p.1, p.2.messageType, p.2.targetId)) =
        [(0, .serverCallback, 103)] ∧ s.Bound := by
  intro call m es
  obtain ⟨s, hs, hw⟩ : ∃ s, channelsMachine.run es = some s ∧
      s.written.map (fun p => (p.1, p.2.messageType, p.2.targetId)) =
        [(0, .serverCallback, 103)] :=
    ⟨_, rfl, by decide⟩
  refine ⟨s, hs, hw, (callbacks_bound hs).2.mpr ?_⟩
  refine ⟨trivial, fun s₁ h₁ => ⟨trivial, fun s₂ h₂ => ⟨trivial, fun s₃ h₃ => ⟨trivial,
    fun s₄ h₄ => ⟨?_, fun _ _ => trivial⟩⟩⟩⟩⟩
  cases h₁
  cases h₂
  cases h₃
  cases h₄
  intro chn hchn
  cases hchn
  intro _ _ origin ho
  cases ho
  rfl

/-- Two clients, and a handler that calls the second one back while it runs a call of the first:
the callback is aimed at the call of the first client, and the second has made no call.  When the
second has a call with the same id, the callback is inserted into that one. -/
theorem callback_to_other_client :
    let call : LowlevelUnit :=
      { id := 103, messageType := .clientCall, opt := { wait := true, acceptCallbacks := true } }
    let m : MethodCall := ⟨"s", "m", none, true, true, true⟩
    let es : List ChannelsEvent := [.connect 0, .connect 1, .receive 0 call, .enter 0 0,
      .createUnicast 0 1 { useContextCall := true }, .send 0 0 m true (fun _ => true) 0]
    (∃ s, channelsMachine.run es = some s ∧
      s.written.map (fun p => (p.1, p.2.messageType, p.2.targetId)) =
        [(1, .serverCallback, 103)] ∧ ¬ s.Received 1 103 ∧ ¬ s.Bound) ∧
    ∃ s, channelsMachine.run (es ++ [.receive 1 call]) = some s ∧ s.Received 1 103 ∧
      s.issued.map (fun w => (w.client, w.unit.messageType, w.unit.targetId, w.origin)) =
        [(1, .serverCallback, 103, some (some 0))] ∧ ¬ s.Bound := by
  intro call m es
  refine ⟨⟨_, rfl, by decide, ?_, ?_⟩, _, rfl, ?_, by decide, ?_⟩
  · rintro ⟨llu, hm, _⟩
    obtain ⟨hc, _⟩ := Prod.mk.inj (List.mem_singleton.mp hm)
    cases hc
  · intro h
    cases h.issuer _ List.mem_cons_self rfl
  · exact ⟨call, List.mem_cons_of_mem _ List.mem_cons_self, rfl⟩
  · intro h
    cases h.issuer _ List.mem_cons_self rfl

end Server

end Vtrc
