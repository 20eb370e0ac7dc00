import Vtrc.Direction
import Vtrc.Server.Handshake
import Vtrc.Client.Handshake
import Vtrc.Wire

/-! # A session of this client with this server

Server and client are connected by two reliable first-in first-out links.  The steps of the
`sessionMachine` are the steps of its ends, in any order: an action of a running handler, a
packing by the strand (whose bytes go to the link), the completion of a write, a unit of the RPC
layer, and the delivery of any beginning of a link to its receiver.

The handshake is a conversation in which one message is under way at a time (`Phase`), and each
end replaces its hash and its ciphers at the moment when nothing is under way that depends on
them.  `in_step` is the result: whatever an end has popped is what its peer has packed, with the
hash and the state of the cipher it was packed with. -/

namespace Vtrc

open Endpoint DefaultProtocol

/-- Two ends and the bytes that are on their way. -/
structure Session where
  server : Endpoint
  client : Endpoint
  toClient : Bytes := []
  toServer : Bytes := []

namespace Session

inductive Side where
  | server
  | client
deriving DecidableEq, Repr

/-- What happens in a session; `deliver` hands the first `n` bytes of its link to an end. -/
inductive Event where
  | act (side : Side)
  | pack (side : Side)
  | written (side : Side)
  | send (side : Side) (data : Bytes)
  | deliver (side : Side) (n : ℕ) (salts : Bytes × Bytes)

section
variable (sha256 : Bytes → Digest) (A : AuthCodecs) (unit : Codec LowlevelUnit)
  (app : Server.Application) (opts : SessionOptions) (base : Client.Base)

def step (s : Session) : Event → Option Session
  | .act .server => s.server.act.map (fun e => { s with server := e })
  | .act .client => s.client.act.map (fun e => { s with client := e })
  | .pack .server => (s.server.pack sha256).map (fun r =>
      { s with server := r.1, toClient := s.toClient ++ r.2 })
  | .pack .client => (s.client.pack sha256).map (fun r =>
      { s with client := r.1, toServer := s.toServer ++ r.2 })
  | .written .server => s.server.written.map (fun e => { s with server := e })
  | .written .client => s.client.written.map (fun e => { s with client := e })
  | .send .server data => (s.server.send data).map (fun e => { s with server := e })
  | .send .client data => (s.client.send data).map (fun e => { s with client := e })
  | .deliver .server n salts =>
      (s.server.recv sha256 unit (Server.role A sha256 app opts) (s.toServer.take n) salts).map
        (fun e => { s with server := e, toServer := s.toServer.drop n })
  | .deliver .client n salts =>
      (s.client.recv sha256 unit (Client.role A sha256 base) (s.toClient.take n) salts).map
        (fun e => { s with client := e, toClient := s.toClient.drop n })

/-- A session between this client and this server, from their first steps on. -/
def sessionMachine : Machine Session Event where
  init := { server := Server.start A opts, client := Client.start }
  step := step sha256 A unit app opts base

end

/-! ### The conversation -/

section
variable (A : AuthCodecs) (base : Client.Base)

/-- What the client selects. -/
def selection : ClientSelection :=
  if base.sessionKey.isSome then
    { hash := Client.defaultHash.index, transform := transformErseefor, id := base.sessionId }
  else { hash := Client.defaultHash.index, transform := transformNone }

def selectionMessage : Bytes :=
  A.capsule.serialize
    { text := "Miten menee?", ready := true, body := A.selection.serialize (selection base) }

/-- The salts of either end. -/
def setupMessage (salts : Bytes × Bytes) : Bytes :=
  A.capsule.serialize
    { ready := true, body := A.setup.serialize { salt1 := salts.1, salt2 := salts.2 } }

/-- The answer to a client without the key it needs. -/
def refusal : Bytes :=
  A.capsule.serialize
    { ready := false, error := Server.createError .access "Session key required" }

end

/-- The end waits for the next message of the handshake. -/
structure Waits (st : Stage) (e : Endpoint) : Prop where
  stage : e.stage = st
  serving : e.serving = false
  ready : e.ready = false
  layerReady : e.layerReady = false

/-- The closures that do not change the end's view of the session. -/
def Closure.Tame (c : Closure) : Prop := c = .default ∨ c = .startReading

/-- All closures of the end are tame. -/
structure Tame (e : Endpoint) : Prop where
  outbox : ∀ m ∈ e.outbox, Closure.Tame m.closure
  writing : ∀ c ∈ e.writing, Closure.Tame c

section
variable (sha256 : Bytes → Digest) (A : AuthCodecs) (base : Client.Base)

/-- The selection is the one message whose closure changes the packing: it is posted, or packed
and the hash of the client replaced. -/
def SelectionToken (S C : Endpoint) : Prop :=
  (C.outbox = [⟨selectionMessage A base, .setOptions⟩] ∧ flight C S = [] ∧
      C.protocol.hashMaker = S.protocol.hashChecker ∧
      C.protocol.transformer = S.protocol.revertor) ∨
    ∃ k : Packed, k = ⟨S.protocol.hashChecker, S.protocol.revertor, selectionMessage A base⟩ ∧
      C.outbox = [] ∧ flight C S = [k] ∧ C.protocol.hashMaker = Client.defaultHash ∧
      C.protocol.transformer = k.next sha256

/-- Where the conversation of the settled ends `S` and `C` is. -/
inductive Phase (S C : Endpoint) : Prop
  /-- The hello is under way. -/
  | hello (hS : Waits .clientSelection S) (hC : Waits .hello C) (tS : Tame S) (tC : Tame C)
      (sc : InStep sha256 S C) (cs : InStep sha256 C S)
      (psc : pending S C = [Server.firstMessage A]) (pcs : pending C S = [])
  /-- The selection is under way; the client already checks the hash that it has selected. -/
  | selection (hS : Waits .clientSelection S)
      (hC : Waits (if base.sessionKey.isSome then .setup else .ready) C) (tS : Tame S)
      (tC : ∀ c ∈ C.writing, Closure.Tame c)
      (checker : C.protocol.hashChecker = Client.defaultHash)
      (revertor : S.protocol.transformer = C.protocol.revertor)
      (psc : pending S C = []) (pcs : SelectionToken sha256 A base S C)
  /-- The server's salts are under way; its revertor is already keyed by them. -/
  | setup (key : Bytes) (salts : Bytes × Bytes) (hkey : base.sessionKey = some key)
      (hS : Waits .clientTransformer S) (hid : S.clientId = base.sessionId) (hC : Waits .setup C)
      (tS : Tame S) (tC : Tame C)
      (checker : S.protocol.hashChecker = Client.defaultHash)
      (revertor : S.protocol.revertor = defaultCypher sha256 key salts.1 salts.2)
      (maker : C.protocol.hashMaker = Client.defaultHash)
      (checker' : C.protocol.hashChecker = Client.defaultHash)
      (sc : InStep sha256 S C) (psc : pending S C = [setupMessage A salts])
      (pcs : pending C S = [])
  /-- The client's salts are under way; its revertor is already keyed by them. -/
  | answer (key : Bytes) (salts : Bytes × Bytes) (hkey : base.sessionKey = some key)
      (hS : Waits .clientTransformer S) (hid : S.clientId = base.sessionId) (hC : Waits .ready C)
      (tS : Tame S) (tC : Tame C)
      (maker : S.protocol.hashMaker = Client.defaultHash)
      (checker : C.protocol.hashChecker = Client.defaultHash)
      (revertor : C.protocol.revertor = defaultCypher sha256 key salts.1 salts.2)
      (cs : InStep sha256 C S) (psc : pending S C = []) (pcs : pending C S = [setupMessage A salts])
  /-- Nothing changes any more. -/
  | steady (tS : Tame S) (tC : Tame C) (hS : S.serving = true)
      (hC : C.serving = true ∨ (C.stage = .ready ∨ C.stage = .error) ∧ C.layerReady = false)
      (sc : InStep sha256 S C) (cs : InStep sha256 C S)
  /-- The client has no key and needs one. -/
  | refused (hS : Waits .clientSelection S) (sends : ∀ m ∈ S.outbox, m.closure.onSend = true)
      (tC : Tame C) (hC : Waits C.stage C) (sc : InStep sha256 S C) (cs : InStep sha256 C S)
      (pcs : pending C S = [])
      (closed : C.connClosed = true ∨ C.stage = .ready ∧ ∀ d ∈ pending S C, d = refusal A)

end

/-! ### Steps that the conversation does not see -/

section
variable {sha256 : Bytes → Digest} {A : AuthCodecs} {base : Client.Base}

theorem Waits.frame {st : Stage} {e e' : Endpoint} (h : Waits st e) (hf : Frame e e') :
    Waits st e' :=
  ⟨hf.stage.trans h.stage, hf.serving.trans h.serving, hf.ready.trans h.ready,
    hf.layerReady.trans h.layerReady⟩

theorem Tame.frame {e e' : Endpoint} (h : Tame e) (hf : Frame e e') : Tame e' :=
  ⟨by rw [hf.outbox]; exact h.outbox, fun c hc => h.writing c (hf.writing c hc)⟩

theorem SelectionToken.quiet {S S' C C' : Endpoint} (h : SelectionToken sha256 A base S C)
    (hS : Quiet S S') (hC : Quiet C C') : SelectionToken sha256 A base S' C' := by
  rcases h with ⟨hout, hf, hm, ht⟩ | ⟨k, hk, hout, hf, hm, ht⟩
  · left
    rw [flight_congr hC.packs hS.pops, hC.outbox, hC.maker, hC.transformer, hS.checker, hS.revertor]
    exact ⟨hout, hf, hm, ht⟩
  · right
    rw [flight_congr hC.packs hS.pops, hC.outbox, hC.maker, hC.transformer, hS.checker, hS.revertor]
    exact ⟨k, hk, hout, hf, hm, ht⟩

/-- **Quiet steps** of either end. -/
theorem Phase.quiet {S S' C C' : Endpoint} (h : Phase sha256 A base S C) (hS : Quiet S S')
    (hC : Quiet C C') : Phase sha256 A base S' C' := by
  cases h with
  | hello wS wC tS tC sc cs psc pcs =>
      exact .hello (wS.frame hS.toFrame) (wC.frame hC.toFrame) (tS.frame hS.toFrame)
        (tC.frame hC.toFrame) (sc.quiet hS hC) (cs.quiet hC hS)
        ((pending_quiet hS hC).trans psc) ((pending_quiet hC hS).trans pcs)
  | selection wS wC tS tC checker revertor psc pcs =>
      exact .selection (wS.frame hS.toFrame) (wC.frame hC.toFrame) (tS.frame hS.toFrame)
        (fun c hc => tC c (hC.writing c hc)) (hC.checker.trans checker)
        (by rw [hS.transformer, hC.revertor, revertor]) ((pending_quiet hS hC).trans psc)
        (pcs.quiet hS hC)
  | setup key salts hkey wS hid wC tS tC checker revertor maker checker' sc psc pcs =>
      exact .setup key salts hkey (wS.frame hS.toFrame) (hS.clientId.trans hid)
        (wC.frame hC.toFrame) (tS.frame hS.toFrame) (tC.frame hC.toFrame)
        (hS.checker.trans checker) (hS.revertor.trans revertor) (hC.maker.trans maker)
        (hC.checker.trans checker') (sc.quiet hS hC) ((pending_quiet hS hC).trans psc)
        ((pending_quiet hC hS).trans pcs)
  | answer key salts hkey wS hid wC tS tC maker checker revertor cs psc pcs =>
      exact .answer key salts hkey (wS.frame hS.toFrame) (hS.clientId.trans hid)
        (wC.frame hC.toFrame) (tS.frame hS.toFrame) (tC.frame hC.toFrame)
        (hS.maker.trans maker) (hC.checker.trans checker) (hC.revertor.trans revertor)
        (cs.quiet hC hS) ((pending_quiet hS hC).trans psc) ((pending_quiet hC hS).trans pcs)
  | steady tS tC wS wC sc cs =>
      refine .steady (tS.frame hS.toFrame) (tC.frame hC.toFrame) (hS.serving.trans wS) ?_
        (sc.quiet hS hC) (cs.quiet hC hS)
      rw [hC.serving, hC.stage, hC.layerReady]
      exact wC
  | refused wS sends tC wC sc cs pcs closed =>
      refine .refused (wS.frame hS.toFrame) (by rw [hS.outbox]; exact sends) (tC.frame hC.toFrame)
        (by rw [hC.stage]; exact wC.frame hC.toFrame) (sc.quiet hS hC) (cs.quiet hC hS)
        ((pending_quiet hC hS).trans pcs) ?_
      rw [pending_quiet hS hC, hC.stage]
      exact closed.imp_left hC.connClosed

/-! ### The strands -/

theorem not_pack_of_pending {s s' r : Endpoint} {bytes : Bytes} (h : pending s r = [])
    (hp : s.pack sha256 = some (s', bytes)) : False := by
  obtain ⟨m, outbox, hout, _⟩ := pack_cases hp
  rw [outbox_of_pending h] at hout
  cases hout

theorem pack_onSend {s s' : Endpoint} {bytes : Bytes} (hp : s.pack sha256 = some (s', bytes))
    (hsend : ∀ m ∈ s.outbox, m.closure.onSend = true) :
    ∃ m outbox, s.outbox = m :: outbox ∧ s' = { s with
      protocol := (s.protocol.packMessage sha256 m.data).1
      outbox := outbox
      packs := s.packs ++ [⟨s.protocol.hashMaker, s.protocol.transformer, m.data⟩]
      writing := s.writing ++ [m.closure] } := by
  obtain ⟨m, outbox, hout, hlen⟩ := pack_cases hp
  rw [pack_of_outbox s m outbox hout hlen] at hp
  obtain ⟨rfl, _⟩ := Prod.mk.inj (Option.some.inj hp)
  rw [if_pos (hsend m (by rw [hout]; exact List.mem_cons_self))]
  exact ⟨m, outbox, hout, rfl⟩

theorem Tame.sends {e : Endpoint} (h : Tame e) : ∀ m ∈ e.outbox, m.closure.onSend = true := by
  intro m hm
  rcases h.outbox m hm with hc | hc <;> rw [hc] <;> rfl

theorem Tame.packed {s s' : Endpoint} {bytes : Bytes} (h : Tame s)
    (hp : s.pack sha256 = some (s', bytes)) : Tame s' := by
  obtain ⟨m, outbox, hout, rfl⟩ := pack_onSend hp h.sends
  refine ⟨fun m' hm' => h.outbox m' (by rw [hout]; exact List.mem_cons_of_mem m hm'), ?_⟩
  intro c hc
  rcases List.mem_append.mp hc with hc | hc
  · exact h.writing c hc
  · rw [List.mem_singleton.mp hc]
    exact h.outbox m (by rw [hout]; exact List.mem_cons_self)

theorem inStep_packed {s s' r : Endpoint} {bytes : Bytes} (h : InStep sha256 r s)
    (hp : s.pack sha256 = some (s', bytes)) (hsend : ∀ m ∈ s.outbox, m.closure.onSend = true) :
    InStep sha256 r s' := by
  obtain ⟨m, outbox, hout, rfl⟩ := pack_onSend hp hsend
  exact h.congr rfl rfl rfl rfl rfl rfl

theorem pending_packed {s s' r : Endpoint} {bytes : Bytes}
    (hp : s.pack sha256 = some (s', bytes)) (hsend : ∀ m ∈ s.outbox, m.closure.onSend = true) :
    pending r s' = pending r s := by
  obtain ⟨m, outbox, hout, rfl⟩ := pack_onSend hp hsend
  exact pending_congr rfl rfl rfl

theorem Waits.packed {st : Stage} {s s' : Endpoint} {bytes : Bytes} (h : Waits st s)
    (hp : s.pack sha256 = some (s', bytes)) (hsend : ∀ m ∈ s.outbox, m.closure.onSend = true) :
    Waits st s' := by
  obtain ⟨m, outbox, hout, rfl⟩ := pack_onSend hp hsend
  exact ⟨h.stage, h.serving, h.ready, h.layerReady⟩

/-- **The server's strand.** -/
theorem Phase.packServer {S S' C : Endpoint} {bytes : Bytes} (h : Phase sha256 A base S C)
    (hle : C.pops.length ≤ S.packs.length) (hp : S.pack sha256 = some (S', bytes)) :
    Phase sha256 A base S' C := by
  cases h with
  | hello wS wC tS tC sc cs psc pcs =>
      obtain ⟨sc', hpend⟩ := sc.pack hle tS.sends hp
      exact .hello (wS.packed hp tS.sends) wC (tS.packed hp) tC sc' (inStep_packed cs hp tS.sends)
        (hpend.trans psc) ((pending_packed hp tS.sends).trans pcs)
  | selection wS wC tS tC checker revertor psc pcs => exact (not_pack_of_pending psc hp).elim
  | setup key salts hkey wS hid wC tS tC checker revertor maker checker' sc psc pcs =>
      obtain ⟨sc', hpend⟩ := sc.pack hle tS.sends hp
      have tS' := tS.packed hp
      have wS' := wS.packed hp tS.sends
      have pcs' := (pending_packed (r := C) hp tS.sends).trans pcs
      obtain ⟨m, outbox, hout, rfl⟩ := pack_onSend hp tS.sends
      exact .setup key salts hkey wS' hid wC tS' tC checker revertor maker checker' sc'
        (hpend.trans psc) pcs'
  | answer key salts hkey wS hid wC tS tC maker checker revertor cs psc pcs =>
      exact (not_pack_of_pending psc hp).elim
  | steady tS tC wS wC sc cs =>
      obtain ⟨sc', _⟩ := sc.pack hle tS.sends hp
      have tS' := tS.packed hp
      have cs' := inStep_packed cs hp tS.sends
      obtain ⟨m, outbox, hout, rfl⟩ := pack_onSend hp tS.sends
      exact .steady tS' tC wS wC sc' cs'
  | refused wS sends tC wC sc cs pcs closed =>
      obtain ⟨sc', hpend⟩ := sc.pack hle sends hp
      have wS' := wS.packed hp sends
      have cs' := inStep_packed cs hp sends
      have pcs' := (pending_packed (r := C) hp sends).trans pcs
      rw [← hpend] at closed
      obtain ⟨m, outbox, hout, rfl⟩ := pack_onSend hp sends
      exact .refused wS' (fun m' hm' => sends m' (by rw [hout]; exact List.mem_cons_of_mem m hm'))
        tC wC sc' cs' pcs' closed

/-- **The client's strand.** -/
theorem Phase.packClient {S C C' : Endpoint} {bytes : Bytes} (h : Phase sha256 A base S C)
    (hle : S.pops.length ≤ C.packs.length) (hp : C.pack sha256 = some (C', bytes)) :
    Phase sha256 A base S C' := by
  cases h with
  | hello wS wC tS tC sc cs psc pcs => exact (not_pack_of_pending pcs hp).elim
  | selection wS wC tS tC checker revertor psc pcs =>
      rcases pcs with ⟨hout, hf, hm, ht⟩ | ⟨k, _, hout, _⟩
      swap
      · obtain ⟨m, outbox, hout', _⟩ := pack_cases hp
        rw [hout] at hout'
        cases hout'
      -- the closure of the selection runs when it has been packed
      have hlen : (selectionMessage A base).length < 2 ^ 63 := by
        obtain ⟨m, outbox, hout', hlen⟩ := pack_cases hp
        rw [hout] at hout'
        rw [← (List.cons.inj hout').1] at hlen
        exact hlen
      rw [pack_of_outbox C _ [] hout hlen] at hp
      obtain ⟨rfl, _⟩ := Prod.mk.inj (Option.some.inj hp)
      refine .selection wS ⟨wC.stage, wC.serving, wC.ready, wC.layerReady⟩ tS tC checker revertor psc
        (.inr ⟨_, rfl, rfl, ?_, rfl, ?_⟩)
      · rw [flight_snoc hle rfl, hf, hm, ht]
        rfl
      · rw [← hm, ← ht]
        rfl
  | setup key salts hkey wS hid wC tS tC checker revertor maker checker' sc psc pcs =>
      exact (not_pack_of_pending pcs hp).elim
  | answer key salts hkey wS hid wC tS tC maker checker revertor cs psc pcs =>
      obtain ⟨cs', hpend⟩ := cs.pack hle tC.sends hp
      have tC' := tC.packed hp
      have wC' := wC.packed hp tC.sends
      have psc' := (pending_packed (r := S) hp tC.sends).trans psc
      obtain ⟨m, outbox, hout, rfl⟩ := pack_onSend hp tC.sends
      exact .answer key salts hkey wS hid wC' tS tC' maker checker revertor cs' psc' (hpend.trans pcs)
  | steady tS tC wS wC sc cs =>
      obtain ⟨cs', _⟩ := cs.pack hle tC.sends hp
      have tC' := tC.packed hp
      have sc' := inStep_packed sc hp tC.sends
      obtain ⟨m, outbox, hout, rfl⟩ := pack_onSend hp tC.sends
      exact .steady tS tC' wS wC sc' cs'
  | refused wS sends tC wC sc cs pcs closed => exact (not_pack_of_pending pcs hp).elim

/-! ### Completions and units -/

theorem quiet_written {e e' : Endpoint} (hsend : ∀ c ∈ e.writing, c.onSend = true)
    (hclose : .closeClient ∈ e.writing → e.ready = false) (h : e.written = some e') :
    Quiet e e' := by
  obtain ⟨c, writing, hw, rfl⟩ := written_eq_some h
  have hmem : c ∈ e.writing := by rw [hw]; exact List.mem_cons_self
  have hsub : ∀ c' ∈ writing, c' ∈ e.writing := by
    intro c' hc'
    rw [hw]
    exact List.mem_cons_of_mem c hc'
  cases c with
  | setOptions => cases hsend _ hmem
  | closeClient =>
      exact ⟨⟨rfl, rfl, rfl, rfl, rfl, (hclose hmem).symm, rfl, rfl, rfl, rfl, rfl, hsub,
        fun _ => rfl⟩, rfl, rfl⟩
  | _ => exact ⟨⟨rfl, rfl, rfl, rfl, rfl, rfl, rfl, rfl, rfl, rfl, rfl, hsub, id⟩, rfl, rfl⟩

theorem Tame.noClose {cs : List Closure} (h : ∀ c ∈ cs, Closure.Tame c) : .closeClient ∉ cs := by
  intro hc
  rcases h _ hc with h | h <;> cases h

theorem Phase.closeServer {S C : Endpoint} (h : Phase sha256 A base S C) :
    .closeClient ∈ S.writing → S.ready = false := by
  intro hc
  cases h with
  | refused wS => exact wS.ready
  | hello _ _ tS => exact (Tame.noClose tS.writing hc).elim
  | selection _ _ tS => exact (Tame.noClose tS.writing hc).elim
  | setup _ _ _ _ _ _ tS => exact (Tame.noClose tS.writing hc).elim
  | answer _ _ _ _ _ _ tS => exact (Tame.noClose tS.writing hc).elim
  | steady tS => exact (Tame.noClose tS.writing hc).elim

theorem Phase.closeClient {S C : Endpoint} (h : Phase sha256 A base S C) :
    .closeClient ∉ C.writing := by
  cases h with
  | hello _ _ _ tC => exact Tame.noClose tC.writing
  | selection _ _ _ tC => exact Tame.noClose tC
  | setup _ _ _ _ _ _ _ tC => exact Tame.noClose tC.writing
  | answer _ _ _ _ _ _ _ tC => exact Tame.noClose tC.writing
  | steady _ tC => exact Tame.noClose tC.writing
  | refused _ _ tC => exact Tame.noClose tC.writing

theorem Tame.post {e : Endpoint} (h : Tame e) (data : Bytes) :
    Tame { e with outbox := e.outbox ++ [⟨data, .default⟩] } := by
  refine ⟨fun m hm => ?_, h.writing⟩
  rcases List.mem_append.mp hm with hm | hm
  · exact h.outbox m hm
  · rw [List.mem_singleton.mp hm]
    exact .inl rfl

theorem not_layerReady {e : Endpoint} {p : Prop} (h : e.layerReady = false)
    (h' : e.layerReady = true) : p := by
  rw [h] at h'
  cases h'

/-- **A unit of the server.** -/
theorem Phase.sendServer {S S' C : Endpoint} {data : Bytes} (h : Phase sha256 A base S C)
    (hs : S.send data = some S') : Phase sha256 A base S' C := by
  obtain ⟨hlayer, rfl⟩ := send_eq_some hs
  cases h with
  | steady tS tC wS wC sc cs =>
      exact .steady (tS.post data) tC wS wC (sc.congr rfl rfl rfl rfl rfl rfl)
        (cs.congr rfl rfl rfl rfl rfl rfl)
  | hello wS => exact not_layerReady wS.layerReady hlayer
  | selection wS => exact not_layerReady wS.layerReady hlayer
  | setup _ _ _ wS => exact not_layerReady wS.layerReady hlayer
  | answer _ _ _ wS => exact not_layerReady wS.layerReady hlayer
  | refused wS => exact not_layerReady wS.layerReady hlayer

/-- **A unit of the client.** -/
theorem Phase.sendClient {S C C' : Endpoint} {data : Bytes} (h : Phase sha256 A base S C)
    (hs : C.send data = some C') : Phase sha256 A base S C' := by
  obtain ⟨hlayer, rfl⟩ := send_eq_some hs
  cases h with
  | steady tS tC wS wC sc cs =>
      exact .steady tS (tC.post data) wS wC (sc.congr rfl rfl rfl rfl rfl rfl)
        (cs.congr rfl rfl rfl rfl rfl rfl)
  | hello _ wC => exact not_layerReady wC.layerReady hlayer
  | selection _ wC => exact not_layerReady wC.layerReady hlayer
  | setup _ _ _ _ _ wC => exact not_layerReady wC.layerReady hlayer
  | answer _ _ _ _ _ wC => exact not_layerReady wC.layerReady hlayer
  | refused _ _ _ wC => exact not_layerReady wC.layerReady hlayer

/-! ### What the handlers do with the messages of this conversation -/

section
variable (hA : A.Lawful)
include hA

theorem onHelloCall_hello :
    Client.onHelloCall A base (Server.firstMessage A) =
      [.setHashChecker Client.defaultHash,
        .changeStage (if base.sessionKey.isSome then .setup else .ready),
        .write (selectionMessage A base) .setOptions] := by
  have hsel : (base.sessionKey.isSome && Client.serverHasTransformer A
      (A.capsule.parse (Server.firstMessage A)).2 transformErseefor) = base.sessionKey.isSome := by
    simp [Client.serverHasTransformer, Server.firstMessage, hA.capsule _, hA.initProtocol _]
  rw [Client.onHelloCall]
  simp only [hsel]
  simp only [Server.firstMessage, hA.capsule _, Bool.not_true, Bool.false_eq_true, if_false,
    selectionMessage, selection]

theorem onTransSetup_setup (salts salts' : Bytes × Bytes) {sha256 : Bytes → Digest} :
    Client.onTransSetup A sha256 base salts' (setupMessage A salts) =
      [.setTransformer (defaultCypher sha256 (base.sessionKey.getD []) salts.1 salts.2),
        .setRevertor (defaultCypher sha256 (base.sessionKey.getD []) salts'.1 salts'.2),
        .changeStage .ready, .write (setupMessage A salts') .default] := by
  rw [Client.onTransSetup, setupMessage, hA.capsule _]
  simp only [Bool.not_true, Bool.false_eq_true, if_false, hA.setup _]
  rfl

theorem onServerReady_refusal :
    Client.onServerReady A (refusal A) =
      [.accessorError (Server.createError .access "Session key required") "Session key required",
        .changeStage .error, .accessorClose, .connectionClose] := by
  rw [Client.onServerReady, refusal, hA.capsule _]
  rfl

theorem onClientTransformer_answer (app : Server.Application) (opts : SessionOptions)
    {sha256 : Bytes → Digest} (clientId : Bytes) (salts : Bytes × Bytes) :
    Server.onClientTransformer A sha256 app opts clientId (setupMessage A salts) =
      .setTransformer (defaultCypher sha256 (app.getSessionKey clientId) salts.1 salts.2) ::
        Server.setClientReady A app opts {} := by
  rw [Server.onClientTransformer, setupMessage, hA.capsule _]
  simp only [Bool.not_true, Bool.false_eq_true, if_false, hA.setup _]

theorem onClientSelection_selection (app : Server.Application) (opts : SessionOptions)
    {sha256 : Bytes → Digest} (salts : Bytes × Bytes) :
    Server.onClientSelection A sha256 app opts salts (selectionMessage A base) =
      [.setClientId (selection base).id, .setHashChecker Client.defaultHash,
        .setHashMaker Client.defaultHash] ++
        Server.setupTransformer A sha256 app opts (selection base).id salts
          (selection base).transform := by
  have hhash : (selection base).hash = Client.defaultHash.index := by
    rw [selection]
    split_ifs <;> rfl
  rw [Server.onClientSelection, selectionMessage, hA.capsule _]
  simp only [Bool.not_true, Bool.false_eq_true, if_false, hA.selection _, hhash,
    HashKind.createByIndex_index]

end

/-! ### The conversation goes on -/

theorem waits_finish {st : Stage} {e : Endpoint} (h : Waits st e) : Waits st (finish e) := by
  refine ⟨h.stage, ?_, h.ready, ?_⟩
  · rw [finish, h.ready]
    exact h.serving
  · rw [finish, h.ready]
    exact h.layerReady

/-- What a handler of the client does in its last stage: hash, ciphers and writes are left
alone. -/
def Act.closing : Act → Bool
  | .configure _ | .configureSession _ | .setReady | .changeStage .error | .accessorError _ _
  | .accessorClose | .connectionClose => true
  | _ => false

theorem closing_onServerReady (d : Bytes) : ∀ a ∈ Client.onServerReady A d, Act.closing a = true := by
  rw [Client.onServerReady]
  simp only
  split_ifs <;> simp [Client.errorAndClose, Client.close, Act.closing]

variable (sha256 A base) in
theorem closing_stageCall {e : Endpoint} (salts : Bytes × Bytes) (d : Bytes)
    (hst : e.stage = .ready ∨ e.stage = .error) :
    ∀ a ∈ (Client.role A sha256 base).stageCall e salts d, Act.closing a = true := by
  rcases hst with hst | hst
  · simp only [Client.role, hst]
    exact closing_onServerReady d
  · simp [Client.role, hst]

theorem configures_of_closing {a : Act} (h : Act.closing a = true) : a.configures = false := by
  cases a <;> first | rfl | cases h

/-- What the closing actions leave alone. -/
structure Ended (e e' : Endpoint) : Prop where
  maker : e'.protocol.hashMaker = e.protocol.hashMaker
  checker : e'.protocol.hashChecker = e.protocol.hashChecker
  transformer : e'.protocol.transformer = e.protocol.transformer
  revertor : e'.protocol.revertor = e.protocol.revertor
  outbox : e'.outbox = e.outbox
  writing : e'.writing = e.writing
  packs : e'.packs = e.packs
  pops : e'.pops = e.pops
  layerReady : e'.layerReady = e.layerReady
  stage : e'.stage = e.stage ∨ e'.stage = .error

theorem ended_closing {as : List Act} (has : ∀ a ∈ as, Act.closing a = true) :
    ∀ e : Endpoint, Ended e (as.foldl exec e) := by
  induction as with
  | nil => exact fun e => ⟨rfl, rfl, rfl, rfl, rfl, rfl, rfl, rfl, rfl, .inl rfl⟩
  | cons a as ih =>
      intro e
      have hstep : Ended e (e.exec a) := by
        have ha := has a List.mem_cons_self
        cases a with
        | changeStage st =>
            cases st <;> first | exact ⟨rfl, rfl, rfl, rfl, rfl, rfl, rfl, rfl, rfl, .inr rfl⟩ | cases ha
        | _ => first | exact ⟨rfl, rfl, rfl, rfl, rfl, rfl, rfl, rfl, rfl, .inl rfl⟩ | cases ha
      have hrest := ih (fun b hb => has b (List.mem_cons_of_mem a hb)) (e.exec a)
      exact ⟨hrest.maker.trans hstep.maker, hrest.checker.trans hstep.checker,
        hrest.transformer.trans hstep.transformer, hrest.revertor.trans hstep.revertor,
        hrest.outbox.trans hstep.outbox, hrest.writing.trans hstep.writing,
        hrest.packs.trans hstep.packs, hrest.pops.trans hstep.pops,
        hrest.layerReady.trans hstep.layerReady,
        hrest.stage.elim (fun h => by rw [List.foldl_cons, h]; exact hstep.stage) .inr⟩

/-- **The client pops the last message of its handshake**, whatever it says. -/
theorem steady_of_ready {S C : Endpoint} {k : Packed} {ks : List Packed} (salts : Bytes × Bytes)
    (tS : Tame S) (tC : Tame C) (hS : S.serving = true) (hC : C.stage = .ready ∨ C.stage = .error)
    (hlayer : C.layerReady = false) (sc : InStep sha256 S C) (cs : InStep sha256 C S)
    (hf : flight S C = k :: ks) :
    Phase sha256 A base S (finish (((Client.role A sha256 base).stageCall (afterPop sha256 C k)
      salts k.data).foldl exec (afterPop sha256 C k))) := by
  have he := ended_closing (closing_stageCall sha256 A base (e := afterPop sha256 C k) salts k.data hC)
    (afterPop sha256 C k)
  refine .steady tS ⟨?_, ?_⟩ hS ?_ ((sc.pop hf).congr rfl rfl rfl he.pops he.checker he.revertor)
    (cs.congr he.packs he.maker he.transformer rfl rfl rfl)
  · rw [show (finish _).outbox = C.outbox from he.outbox]
    exact tC.outbox
  · rw [show (finish _).writing = C.writing from he.writing]
    exact tC.writing
  · rw [finish]
    cases hr : (((Client.role A sha256 base).stageCall (afterPop sha256 C k) salts k.data).foldl exec
      (afterPop sha256 C k)).ready with
    | true => exact .inl rfl
    | false =>
        refine .inr ⟨?_, he.layerReady.trans hlayer⟩
        rcases he.stage with hst | hst
        · exact hC.imp hst.trans hst.trans
        · exact .inr hst

/-! The handlers of the stages, for the message that has been popped. -/

section
variable {e : Endpoint} {k : Packed}

theorem stageCall_hello (hst : e.stage = .hello) (salts : Bytes × Bytes) (data : Bytes) :
    (Client.role A sha256 base).stageCall (afterPop sha256 e k) salts data =
      Client.onHelloCall A base data := by
  simp only [Client.role, afterPop, hst]

theorem stageCall_setup (hst : e.stage = .setup) (salts : Bytes × Bytes) (data : Bytes) :
    (Client.role A sha256 base).stageCall (afterPop sha256 e k) salts data =
      Client.onTransSetup A sha256 base salts data := by
  simp only [Client.role, afterPop, hst]

theorem stageCall_ready (hst : e.stage = .ready) (salts : Bytes × Bytes) (data : Bytes) :
    (Client.role A sha256 base).stageCall (afterPop sha256 e k) salts data =
      Client.onServerReady A data := by
  simp only [Client.role, afterPop, hst]

theorem stageCall_clientSelection {app : Server.Application} {opts : SessionOptions}
    (hst : e.stage = .clientSelection) (salts : Bytes × Bytes) (data : Bytes) :
    (Server.role A sha256 app opts).stageCall (afterPop sha256 e k) salts data =
      Server.onClientSelection A sha256 app opts salts data := by
  simp only [Server.role, afterPop, hst]

theorem stageCall_clientTransformer {app : Server.Application} {opts : SessionOptions}
    (hst : e.stage = .clientTransformer) (salts : Bytes × Bytes) (data : Bytes) :
    (Server.role A sha256 app opts).stageCall (afterPop sha256 e k) salts data =
      Server.onClientTransformer A sha256 app opts e.clientId data := by
  simp only [Server.role, afterPop, hst]

end

section
variable {S C : Endpoint} {k : Packed} {ks : List Packed} (hA : A.Lawful)
include hA

/-- **The client pops the hello.** -/
theorem selection_of_hello (salts : Bytes × Bytes) (hS : Waits .clientSelection S)
    (hC : Waits .hello C) (tS : Tame S) (tC : Tame C) (sc : InStep sha256 S C)
    (cs : InStep sha256 C S) (psc : pending S C = [Server.firstMessage A])
    (pcs : pending C S = []) (hf : flight S C = k :: ks) :
    Phase sha256 A base S (finish (((Client.role A sha256 base).stageCall (afterPop sha256 C k)
      salts k.data).foldl exec (afterPop sha256 C k))) := by
  obtain ⟨hdata, rfl, hout⟩ := pending_one psc hf
  have hf' : flight S (afterPop sha256 C k) = [] := flight_tail hf rfl
  have hsc := (sc.pop hf).settings hf'
  have hnil := flight_of_pending pcs
  have hcs := cs.settings hnil
  rw [stageCall_hello hC.stage, hdata, onHelloCall_hello hA]
  refine .selection hS (waits_finish ⟨rfl, hC.serving, hC.ready, hC.layerReady⟩) tS tC.writing rfl
    hsc.2 ?_ (.inl ⟨?_, hnil, hcs.1, hcs.2⟩)
  · exact (pending_of_nil hf').trans (by rw [hout]; rfl)
  · show C.outbox ++ _ = _
    rw [outbox_of_pending pcs]
    rfl

/-- **The client pops the server's salts.** -/
theorem answer_of_setup {key : Bytes} {salts : Bytes × Bytes} (salts' : Bytes × Bytes)
    (hkey : base.sessionKey = some key)
    (hS : Waits .clientTransformer S) (hid : S.clientId = base.sessionId) (hC : Waits .setup C)
    (tS : Tame S) (tC : Tame C) (checker : S.protocol.hashChecker = Client.defaultHash)
    (revertor : S.protocol.revertor = defaultCypher sha256 key salts.1 salts.2)
    (maker : C.protocol.hashMaker = Client.defaultHash)
    (checker' : C.protocol.hashChecker = Client.defaultHash)
    (sc : InStep sha256 S C) (psc : pending S C = [setupMessage A salts])
    (pcs : pending C S = []) (hf : flight S C = k :: ks) :
    Phase sha256 A base S (finish (((Client.role A sha256 base).stageCall (afterPop sha256 C k)
      salts' k.data).foldl exec (afterPop sha256 C k))) := by
  obtain ⟨hdata, rfl, hout⟩ := pending_one psc hf
  have hf' : flight S (afterPop sha256 C k) = [] := flight_tail hf rfl
  have hnil := flight_of_pending pcs
  rw [stageCall_setup hC.stage, hdata, onTransSetup_setup hA, hkey, Option.getD_some]
  refine .answer key salts' hkey hS hid (waits_finish ⟨rfl, hC.serving, hC.ready, hC.layerReady⟩) tS
    ⟨?_, tC.writing⟩ (sc.maker.trans checker') checker' rfl
    (inStep_of_flight hnil (maker.trans checker.symm) revertor.symm) ?_ ?_
  · exact (Tame.post tC (setupMessage A salts')).outbox
  · exact (pending_of_nil hf').trans (by rw [hout]; rfl)
  · refine (pending_of_nil ?_).trans ?_
    · exact hnil
    show (C.outbox ++ _).map Posted.data = _
    rw [outbox_of_pending pcs]
    rfl

/-- **The client pops the refusal.** -/
theorem refused_of_refusal (salts : Bytes × Bytes) (hS : Waits .clientSelection S)
    (sends : ∀ m ∈ S.outbox, m.closure.onSend = true) (tC : Tame C) (hC : Waits .ready C)
    (sc : InStep sha256 S C) (cs : InStep sha256 C S) (pcs : pending C S = [])
    (hdata : ∀ d ∈ pending S C, d = refusal A) (hf : flight S C = k :: ks) :
    Phase sha256 A base S (finish (((Client.role A sha256 base).stageCall (afterPop sha256 C k)
      salts k.data).foldl exec (afterPop sha256 C k))) := by
  rw [stageCall_ready hC.stage, hdata k.data (by rw [pending, hf]; simp), onServerReady_refusal hA]
  exact .refused hS sends ⟨tC.outbox, tC.writing⟩
    (waits_finish ⟨rfl, hC.serving, hC.ready, hC.layerReady⟩)
    ((sc.pop hf).congr rfl rfl rfl rfl rfl rfl) (cs.congr rfl rfl rfl rfl rfl rfl) pcs (.inl rfl)

/-- **The server pops the selection** of a client with a key. -/
theorem setup_of_selection {key : Bytes} (app : Server.Application) (opts : SessionOptions)
    (salts : Bytes × Bytes) (hkey : base.sessionKey = some key)
    (happ : app.getSessionKey base.sessionId = key) (hS : Waits .clientSelection S)
    (hC : Waits .setup C) (tS : Tame S) (tC : Tame C)
    (maker : C.protocol.hashMaker = Client.defaultHash)
    (checker : C.protocol.hashChecker = Client.defaultHash)
    (revertor : S.protocol.transformer = C.protocol.revertor) (psc : pending S C = [])
    (hout : C.outbox = []) (hf : flight C S = [k]) (hdata : k.data = selectionMessage A base) :
    Phase sha256 A base (finish (((Server.role A sha256 app opts).stageCall (afterPop sha256 S k)
      salts k.data).foldl exec (afterPop sha256 S k))) C := by
  have hsel : selection base = ⟨Client.defaultHash.index, transformErseefor, base.sessionId⟩ := by
    rw [selection, hkey]
    rfl
  have hf' : flight C (afterPop sha256 S k) = [] := flight_tail hf rfl
  have hnil := flight_of_pending psc
  rw [stageCall_clientSelection hS.stage, hdata, onClientSelection_selection hA, hsel]
  refine .setup key salts hkey (waits_finish ⟨rfl, hS.serving, hS.ready, hS.layerReady⟩) rfl hC
    ⟨?_, tS.writing⟩ tC rfl ?_ maker checker (inStep_of_flight hnil checker.symm revertor) ?_ ?_
  · exact (Tame.post tS _).outbox
  · rw [← happ]
    rfl
  · refine (pending_of_nil ?_).trans ?_
    · exact hnil
    show (S.outbox ++ _).map Posted.data = _
    rw [outbox_of_pending psc]
    rfl
  · exact (pending_of_nil hf').trans (by rw [hout]; rfl)

/-- **The server pops the selection** of a client without a key. -/
theorem ready_or_refused_of_selection (app : Server.Application) (opts : SessionOptions)
    (salts : Bytes × Bytes) (hkey : base.sessionKey = none) (hS : Waits .clientSelection S)
    (hC : Waits .ready C) (tS : Tame S) (tC : Tame C)
    (maker : C.protocol.hashMaker = Client.defaultHash)
    (transformer : C.protocol.transformer = k.next sha256)
    (checker : C.protocol.hashChecker = Client.defaultHash)
    (revertor : S.protocol.transformer = C.protocol.revertor) (psc : pending S C = [])
    (hout : C.outbox = []) (hf : flight C S = [k]) (hdata : k.data = selectionMessage A base) :
    Phase sha256 A base (finish (((Server.role A sha256 app opts).stageCall (afterPop sha256 S k)
      salts k.data).foldl exec (afterPop sha256 S k))) C := by
  have hsel : selection base = ⟨Client.defaultHash.index, transformNone, []⟩ := by
    rw [selection, hkey]
    rfl
  have hf' : flight C (afterPop sha256 S k) = [] := flight_tail hf rfl
  have hnil := flight_of_pending psc
  rw [stageCall_clientSelection hS.stage, hdata, onClientSelection_selection hA, hsel,
    Server.setupTransformer, if_pos rfl]
  cases hreq : app.sessionKeyRequired ([] : Bytes) with
  | false =>
      refine .steady ⟨(Tame.post tS _).outbox, tS.writing⟩ tC rfl (.inr ⟨.inl hC.stage, hC.layerReady⟩)
        (inStep_of_flight hnil checker.symm revertor) (inStep_of_flight hf' maker transformer)
  | true =>
      have hout' := outbox_of_pending psc
      refine .refused (waits_finish ⟨hS.stage, hS.serving, hS.ready, hS.layerReady⟩) ?_ tC
        ⟨rfl, hC.serving, hC.ready, hC.layerReady⟩ (inStep_of_flight hnil checker.symm revertor)
        (inStep_of_flight hf' maker transformer) ?_ (.inr ⟨hC.stage, ?_⟩)
      · show ∀ m ∈ S.outbox ++ _, _
        rw [hout']
        simp [Closure.onSend]
      · exact (pending_of_nil hf').trans (by rw [hout]; rfl)
      · intro d hd
        rw [pending_of_nil (by exact hnil)] at hd
        change d ∈ (S.outbox ++ [(⟨refusal A, .closeClient⟩ : Posted)]).map Posted.data at hd
        rw [hout'] at hd
        exact List.mem_singleton.mp hd

/-- **The server pops the client's salts.** -/
theorem steady_of_answer {key : Bytes} {salts : Bytes × Bytes} (app : Server.Application)
    (opts : SessionOptions) (salts' : Bytes × Bytes) (happ : app.getSessionKey base.sessionId = key)
    (hS : Waits .clientTransformer S) (hid : S.clientId = base.sessionId) (hC : Waits .ready C)
    (tS : Tame S) (tC : Tame C) (maker : S.protocol.hashMaker = Client.defaultHash)
    (checker : C.protocol.hashChecker = Client.defaultHash)
    (revertor : C.protocol.revertor = defaultCypher sha256 key salts.1 salts.2)
    (cs : InStep sha256 C S) (psc : pending S C = []) (pcs : pending C S = [setupMessage A salts])
    (hf : flight C S = k :: ks) :
    Phase sha256 A base (finish (((Server.role A sha256 app opts).stageCall (afterPop sha256 S k)
      salts' k.data).foldl exec (afterPop sha256 S k))) C := by
  obtain ⟨hdata, rfl, _⟩ := pending_one pcs hf
  have hnil := flight_of_pending psc
  rw [stageCall_clientTransformer hS.stage, hdata, onClientTransformer_answer hA, hid, happ]
  exact .steady ⟨(Tame.post tS _).outbox, tS.writing⟩ tC rfl (.inr ⟨.inl hC.stage, hC.layerReady⟩)
    (inStep_of_flight hnil (maker.trans checker.symm) revertor.symm)
    ((cs.pop hf).congr rfl rfl rfl rfl rfl rfl)

end

/-! ### Handlers are orderly -/

theorem shaped_client (e : Endpoint) (salts : Bytes × Bytes) (d : Bytes) :
    Shaped ((Client.role A sha256 base).stageCall e salts d ++ [.switchToReady, .accessorReady]) := by
  simp only [Client.role]
  split
  · simp only [Client.onHelloCall]
    split_ifs <;> simp [Shaped, Act.configures, Client.errorAndClose, Client.close]
  · simp only [Client.onTransSetup]
    split_ifs <;> simp [Shaped, Act.configures, Client.errorAndClose, Client.close,
      Client.sendProtoMessage]
  · simp only [Client.onServerReady]
    split_ifs <;> simp [Shaped, Client.errorAndClose, Client.close]
  · simp [Shaped]

theorem shaped_server (app : Server.Application) (opts : SessionOptions) (e : Endpoint)
    (salts : Bytes × Bytes) (d : Bytes) :
    Shaped ((Server.role A sha256 app opts).stageCall e salts d ++
      [.switchToReady, .accessorReady]) := by
  simp only [Server.role]
  split
  · simp only [Server.onClientSelection, Server.setupTransformer]
    split_ifs
    · simp [Shaped, Server.close]
    · simp [Shaped]
    all_goals
      split
      · simp [Shaped, Server.close]
      · simp [Shaped, Act.configures, Server.setClientReady, Server.sendProtoMessage,
          Server.sendAndClose]
  · simp only [Server.onClientTransformer]
    split_ifs <;> simp [Shaped, Act.configures, Server.setClientReady, Server.sendProtoMessage,
      Server.close]
  · simp [Shaped]

theorem orderly_started {e : Endpoint} {as : List Act} (hshaped : Shaped as)
    (hcfg : e.outbox = [] ∨ ∀ a ∈ as, a.configures = false)
    (hw : ∀ c ∈ e.writing, c.onSend = true) (hlayer : e.layerReady = false) :
    Orderly { e with todo := as } :=
  ⟨hshaped, fun hne => hcfg.resolve_left hne, hw, fun hr => not_layerReady hlayer hr⟩

theorem orderly_idle {e : Endpoint} (htodo : e.todo = []) (hw : ∀ c ∈ e.writing, c.onSend = true) :
    Orderly e :=
  ⟨by rw [htodo]; trivial, by rw [htodo]; simp, hw, fun _ => htodo⟩

theorem flight_ne_nil {p : Prop} {s r : Endpoint} {k : Packed} {ks : List Packed}
    (hf : flight s r = k :: ks) (h : flight s r = []) : p := by
  rw [h] at hf
  cases hf

/-- What a handler comes to: the next phase, with the link as it was. -/
structure Handled (sha256 : Bytes → Digest) (A : AuthCodecs) (base : Client.Base)
    (S C : Endpoint) (s r r' : Endpoint) (link : Bytes) : Prop where
  phase : Phase sha256 A base S C
  linked : Linked sha256 s r'.settle link
  orderly : Orderly r'
  packs : r'.packs = r.packs

/-- **The client handles a message.** -/
theorem Phase.handleClient {S C : Endpoint} (hA : A.Lawful) (h : Phase sha256 A base S C)
    {link : Bytes} (hl : Linked sha256 S C link) (hw : ∀ c ∈ C.writing, c.onSend = true)
    (hopen : C.connClosed = false) (htodo : C.todo = []) (hserv : C.serving = false)
    (hne : C.protocol.queue.messages ≠ []) (salts : Bytes × Bytes) {C' : Endpoint}
    (hC' : C' = doHandshake sha256 (Client.role A sha256 base) C salts) :
    Handled sha256 A base S C'.settle S C C' link := by
  obtain ⟨k, ks, hf⟩ := hl.flight_cons hopen hne
  -- the handler is the same in all phases, the next phase is not
  have hstart : ∀ _ : InStep sha256 S C, C.layerReady = false →
      (C.outbox = [] ∨ ∀ a ∈ (Client.role A sha256 base).stageCall (afterPop sha256 C k) salts k.data,
        a.configures = false) →
      Phase sha256 A base S (finish (((Client.role A sha256 base).stageCall (afterPop sha256 C k)
        salts k.data).foldl exec (afterPop sha256 C k))) →
      Handled sha256 A base S C'.settle S C C' link := by
    intro sc hlayer hcfg hphase
    obtain ⟨hhash, hrev⟩ := sc.head hf
    obtain ⟨hl', hdo, hsettle⟩ := hl.handshake hopen htodo hf hhash hrev hne
      (Client.role A sha256 base) salts
    rw [← hC'] at hdo hsettle
    refine ⟨by rw [hsettle]; exact hphase, by rw [hsettle]; exact hl'.finished _, ?_, by rw [hdo]; rfl⟩
    rw [hdo]
    refine orderly_started (shaped_client _ salts k.data) ?_ hw hlayer
    refine hcfg.imp_right (fun hno a ha => ?_)
    rcases List.mem_append.mp ha with ha | ha
    · exact hno a ha
    · simp only [List.mem_cons, List.not_mem_nil, or_false] at ha
      rcases ha with rfl | rfl <;> rfl
  cases h with
  | hello wS wC tS tC sc cs psc pcs =>
      exact hstart sc wC.layerReady (.inl (outbox_of_pending pcs))
        (selection_of_hello hA salts wS wC tS tC sc cs psc pcs hf)
  | selection wS wC tS tC checker revertor psc pcs => exact flight_ne_nil hf (flight_of_pending psc)
  | setup key salts' hkey wS hid wC tS tC checker revertor maker checker' sc psc pcs =>
      exact hstart sc wC.layerReady (.inl (outbox_of_pending pcs))
        (answer_of_setup hA salts hkey wS hid wC tS tC checker revertor maker checker' sc psc pcs hf)
  | answer key salts' hkey wS hid wC tS tC maker checker revertor cs psc pcs =>
      exact flight_ne_nil hf (flight_of_pending psc)
  | steady tS tC wS wC sc cs =>
      obtain ⟨hst, hlayer⟩ := wC.resolve_left (by rw [hserv]; simp)
      exact hstart sc hlayer
        (.inr (fun a ha => configures_of_closing (closing_stageCall sha256 A base salts k.data hst a ha)))
        (steady_of_ready salts tS tC wS hst hlayer sc cs hf)
  | refused wS sends tC wC sc cs pcs closed =>
      rcases closed with hc | ⟨hst, hdata⟩
      · rw [hopen] at hc
        cases hc
      · exact hstart sc wC.layerReady (.inl (outbox_of_pending pcs))
          (refused_of_refusal hA salts wS sends tC ⟨hst, wC.serving, wC.ready, wC.layerReady⟩ sc cs
            pcs hdata hf)

/-- **The server handles a message.** -/
theorem Phase.handleServer {S C : Endpoint} (hA : A.Lawful) (app : Server.Application)
    (opts : SessionOptions)
    (happ : ∀ key, base.sessionKey = some key → app.getSessionKey base.sessionId = key)
    (h : Phase sha256 A base S C) {link : Bytes} (hl : Linked sha256 C S link)
    (hw : ∀ c ∈ S.writing, c.onSend = true) (hopen : S.connClosed = false) (htodo : S.todo = [])
    (hserv : S.serving = false) (hne : S.protocol.queue.messages ≠ []) (salts : Bytes × Bytes)
    {S' : Endpoint} (hS' : S' = doHandshake sha256 (Server.role A sha256 app opts) S salts) :
    Handled sha256 A base S'.settle C C S S' link := by
  obtain ⟨k, ks, hf⟩ := hl.flight_cons hopen hne
  have hstart : k.hash = S.protocol.hashChecker → k.transformer = S.protocol.revertor →
      S.layerReady = false → S.outbox = [] →
      Phase sha256 A base (finish (((Server.role A sha256 app opts).stageCall (afterPop sha256 S k)
        salts k.data).foldl exec (afterPop sha256 S k))) C →
      Handled sha256 A base S'.settle C C S S' link := by
    intro hhash hrev hlayer hout hphase
    obtain ⟨hl', hdo, hsettle⟩ := hl.handshake hopen htodo hf hhash hrev hne
      (Server.role A sha256 app opts) salts
    rw [← hS'] at hdo hsettle
    refine ⟨by rw [hsettle]; exact hphase, by rw [hsettle]; exact hl'.finished _, ?_, by rw [hdo]; rfl⟩
    rw [hdo]
    exact orderly_started (shaped_server app opts _ salts k.data) (.inl hout) hw hlayer
  cases h with
  | hello wS wC tS tC sc cs psc pcs => exact flight_ne_nil hf (flight_of_pending pcs)
  | selection wS wC tS tC checker revertor psc pcs =>
      rcases pcs with ⟨_, hnil, _⟩ | ⟨k', hk', hout, hf', maker, transformer⟩
      · exact flight_ne_nil hf hnil
      obtain ⟨rfl, rfl⟩ : k = k' ∧ ks = [] := List.cons.inj (hf.symm.trans hf')
      have tC' : Tame C := ⟨by rw [hout]; simp, tC⟩
      refine hstart (by rw [hk']) (by rw [hk']) wS.layerReady (outbox_of_pending psc) ?_
      cases hkey : base.sessionKey with
      | none =>
          rw [hkey] at wC
          exact ready_or_refused_of_selection hA app opts salts hkey wS wC tS tC' maker transformer
            checker revertor psc hout hf (by rw [hk'])
      | some key =>
          rw [hkey] at wC
          exact setup_of_selection hA app opts salts hkey (happ key hkey) wS wC tS tC' maker checker
            revertor psc hout hf (by rw [hk'])
  | setup key salts' hkey wS hid wC tS tC checker revertor maker checker' sc psc pcs =>
      exact flight_ne_nil hf (flight_of_pending pcs)
  | answer key salts' hkey wS hid wC tS tC maker checker revertor cs psc pcs =>
      obtain ⟨hhash, hrev⟩ := cs.head hf
      exact hstart hhash hrev wS.layerReady (outbox_of_pending psc)
        (steady_of_answer hA app opts salts (happ key hkey) wS hid wC tS tC maker checker revertor cs
          psc pcs hf)
  | steady tS tC wS wC sc cs =>
      rw [hserv] at wS
      cases wS
  | refused wS sends tC wC sc cs pcs closed => exact flight_ne_nil hf (flight_of_pending pcs)

/-! ### Sessions -/

/-- The invariant of a session, in terms of its settled ends. -/
structure Inv (sha256 : Bytes → Digest) (A : AuthCodecs) (base : Client.Base) (s : Session) :
    Prop where
  phase : Phase sha256 A base s.server.settle s.client.settle
  toClient : Linked sha256 s.server.settle s.client.settle s.toClient
  toServer : Linked sha256 s.client.settle s.server.settle s.toServer
  server : Orderly s.server
  client : Orderly s.client

theorem linked_quiet {s r r' : Endpoint} {link : Bytes} (h : Linked sha256 s r link)
    (hq : Quiet r r') (hqueue : r'.protocol.queue = r.protocol.queue) : Linked sha256 s r' link := by
  refine ⟨by rw [hq.pops]; exact h.aligned, h.short, fun hc => ?_⟩
  rw [hqueue, flight, hq.pops]
  refine h.stream (Bool.eq_false_iff.mpr (fun hc' => ?_))
  rw [hq.connClosed hc'] at hc
  cases hc

theorem queue_written {e e' : Endpoint} (h : e.written = some e') :
    e'.protocol.queue = e.protocol.queue := by
  obtain ⟨c, writing, _, rfl⟩ := written_eq_some h
  cases c <;> rfl

theorem linked_packed {s r r' : Endpoint} {link bytes : Bytes} (h : Linked sha256 s r link)
    (hp : r.pack sha256 = some (r', bytes)) : Linked sha256 s r' link := by
  obtain ⟨m, hm⟩ := packing_of_pack hp
  refine ⟨by rw [hm.pops]; exact h.aligned, h.short, fun hopen => ?_⟩
  rw [hm.queue, flight_congr rfl hm.pops]
  exact h.stream (hm.connClosed ▸ hopen)

theorem inv_start {opts : SessionOptions} :
    Inv sha256 A base { server := Server.start A opts, client := Client.start } := by
  have hlink : ∀ s r : Endpoint, s.packs = [] → r.pops = [] → r.protocol.queue.messages = [] →
      r.protocol.queue.data = [] → Linked sha256 s r [] := by
    intro s r hpacks hpops hms hdata
    refine ⟨by rw [hpacks, hpops]; exact List.nil_prefix, by rw [hpacks]; simp, fun _ => ⟨[], ?_, ?_⟩⟩
    · simp [flight, hpacks, hms]
    · rw [hdata]
      rfl
  refine ⟨.hello ⟨rfl, rfl, rfl, rfl⟩ ⟨rfl, rfl, rfl, rfl⟩ ⟨?_, by simp [Server.start, settle]⟩
    ⟨by simp [Client.start, settle], by simp [Client.start, settle]⟩ (inStep_of_flight rfl rfl rfl)
    (inStep_of_flight rfl rfl rfl) rfl rfl, hlink _ _ rfl rfl rfl rfl, hlink _ _ rfl rfl rfl rfl,
    orderly_idle rfl (by simp [Server.start]), orderly_idle rfl (by simp [Client.start])⟩
  intro m hm
  have hm' : m = ⟨Server.firstMessage A, .startReading⟩ := List.mem_singleton.mp hm
  rw [hm']
  exact .inr rfl

section
variable {unit : Codec LowlevelUnit} {app : Server.Application} {opts : SessionOptions}
  {s s' : Session}

theorem Inv.act {side : Side} (h : Inv sha256 A base s)
    (hs : step sha256 A unit app opts base s (.act side) = some s') : Inv sha256 A base s' := by
  obtain ⟨hphase, htc, hts, hos, hoc⟩ := h
  cases side with
  | server =>
      obtain ⟨e, he, rfl⟩ := Option.map_eq_some_iff.mp hs
      have heq := settle_act he
      exact ⟨by rw [heq]; exact hphase, by rw [heq]; exact htc, by rw [heq]; exact hts, hos.act he, hoc⟩
  | client =>
      obtain ⟨e, he, rfl⟩ := Option.map_eq_some_iff.mp hs
      have heq := settle_act he
      exact ⟨by rw [heq]; exact hphase, by rw [heq]; exact htc, by rw [heq]; exact hts, hos, hoc.act he⟩

theorem Inv.pack {side : Side} (h : Inv sha256 A base s)
    (hs : step sha256 A unit app opts base s (.pack side) = some s') : Inv sha256 A base s' := by
  obtain ⟨hphase, htc, hts, hos, hoc⟩ := h
  cases side with
  | server =>
      obtain ⟨⟨e, bytes⟩, he, rfl⟩ := Option.map_eq_some_iff.mp hs
      have hp := settle_pack hos he
      exact ⟨hphase.packServer htc.length_le hp, htc.pack hp, linked_packed hts hp, hos.pack he, hoc⟩
  | client =>
      obtain ⟨⟨e, bytes⟩, he, rfl⟩ := Option.map_eq_some_iff.mp hs
      have hp := settle_pack hoc he
      exact ⟨hphase.packClient hts.length_le hp, linked_packed htc hp, hts.pack hp, hos, hoc.pack he⟩

theorem Inv.written {side : Side} (h : Inv sha256 A base s)
    (hs : step sha256 A unit app opts base s (.written side) = some s') : Inv sha256 A base s' := by
  obtain ⟨hphase, htc, hts, hos, hoc⟩ := h
  cases side with
  | server =>
      obtain ⟨e, he, rfl⟩ := Option.map_eq_some_iff.mp hs
      have hclose := hphase.closeServer
      have hw := settle_written hos (by rw [← settle_writing]; exact hclose) he
      have hq := quiet_written (by rw [settle_writing]; exact hos.writing) hclose hw
      exact ⟨hphase.quiet hq (quiet_refl _), htc.sender hq.packs,
        linked_quiet hts hq (queue_written hw), hos.written he, hoc⟩
  | client =>
      obtain ⟨e, he, rfl⟩ := Option.map_eq_some_iff.mp hs
      have hclose : .closeClient ∈ s.client.settle.writing → s.client.settle.ready = false :=
        fun hc => (hphase.closeClient hc).elim
      have hw := settle_written hoc (by rw [← settle_writing]; exact hclose) he
      have hq := quiet_written (by rw [settle_writing]; exact hoc.writing) hclose hw
      exact ⟨hphase.quiet (quiet_refl _) hq, linked_quiet htc hq (queue_written hw),
        hts.sender hq.packs, hos, hoc.written he⟩

theorem linked_sent {x r r' : Endpoint} {link data : Bytes} (h : Linked sha256 x r link)
    (hs : r.send data = some r') : Linked sha256 x r' link := by
  obtain ⟨_, rfl⟩ := send_eq_some hs
  exact ⟨h.aligned, h.short, h.stream⟩

theorem Inv.send {side : Side} {data : Bytes} (h : Inv sha256 A base s)
    (hs : step sha256 A unit app opts base s (.send side data) = some s') : Inv sha256 A base s' := by
  obtain ⟨hphase, htc, hts, hos, hoc⟩ := h
  cases side with
  | server =>
      obtain ⟨e, he, rfl⟩ := Option.map_eq_some_iff.mp hs
      obtain ⟨hsend, hos'⟩ := settle_send hos he
      have hpacks : e.settle.packs = s.server.settle.packs := by
        obtain ⟨_, heq⟩ := send_eq_some hsend
        rw [heq]
      exact ⟨hphase.sendServer hsend, htc.sender hpacks, linked_sent hts hsend, hos', hoc⟩
  | client =>
      obtain ⟨e, he, rfl⟩ := Option.map_eq_some_iff.mp hs
      obtain ⟨hsend, hoc'⟩ := settle_send hoc he
      have hpacks : e.settle.packs = s.client.settle.packs := by
        obtain ⟨_, heq⟩ := send_eq_some hsend
        rw [heq]
      exact ⟨hphase.sendClient hsend, linked_sent htc hsend, hts.sender hpacks, hos, hoc'⟩

theorem not_serving {p : Prop} {e : Endpoint} {st : Stage} (h : Waits st e) (hserv : e.serving = true) :
    p := by
  rw [h.serving] at hserv
  cases hserv

/-- The server is ready before the client. -/
theorem Phase.serving_of_client {S C : Endpoint} (h : Phase sha256 A base S C)
    (hserv : C.serving = true) : S.serving = true := by
  cases h with
  | steady _ _ hS => exact hS
  | hello _ wC => exact not_serving wC hserv
  | selection _ wC => exact not_serving wC hserv
  | setup _ _ _ _ _ wC => exact not_serving wC hserv
  | answer _ _ _ _ _ wC => exact not_serving wC hserv
  | refused _ _ _ wC => exact not_serving wC hserv

/-- Once the server is ready, the ends stay in step. -/
theorem Phase.inStep {S C : Endpoint} (h : Phase sha256 A base S C) (hserv : S.serving = true) :
    InStep sha256 S C ∧ InStep sha256 C S := by
  cases h with
  | steady _ _ _ _ sc cs => exact ⟨sc, cs⟩
  | hello wS => exact not_serving wS hserv
  | selection wS => exact not_serving wS hserv
  | setup _ _ _ wS => exact not_serving wS hserv
  | answer _ _ _ wS => exact not_serving wS hserv
  | refused wS => exact not_serving wS hserv

variable (unit) in
/-- **The server serves** units in the steady phase only. -/
theorem Phase.serveServer {S C : Endpoint} (h : Phase sha256 A base S C) (hserv : S.serving = true)
    {link : Bytes} (hl : Linked sha256 C S link) (hopen : S.connClosed = false) (n : ℕ) :
    Phase sha256 A base (serve sha256 unit n S) C ∧ Linked sha256 C (serve sha256 unit n S) link ∧
      Frame S (serve sha256 unit n S) := by
  cases h with
  | steady tS tC wS wC sc cs =>
      obtain ⟨hl', cs', hf⟩ := cs.serve unit n hl hopen
      exact ⟨.steady (tS.frame hf) tC (hf.serving.trans wS) wC
        (sc.congr hf.packs hf.maker hf.transformer rfl rfl rfl) cs', hl', hf⟩
  | hello wS => exact not_serving wS hserv
  | selection wS => exact not_serving wS hserv
  | setup _ _ _ wS => exact not_serving wS hserv
  | answer _ _ _ wS => exact not_serving wS hserv
  | refused wS => exact not_serving wS hserv

variable (unit) in
/-- **The client serves** units in the steady phase only. -/
theorem Phase.serveClient {S C : Endpoint} (h : Phase sha256 A base S C) (hserv : C.serving = true)
    {link : Bytes} (hl : Linked sha256 S C link) (hopen : C.connClosed = false) (n : ℕ) :
    Phase sha256 A base S (serve sha256 unit n C) ∧ Linked sha256 S (serve sha256 unit n C) link ∧
      Frame C (serve sha256 unit n C) := by
  cases h with
  | steady tS tC wS wC sc cs =>
      obtain ⟨hl', sc', hf⟩ := sc.serve unit n hl hopen
      exact ⟨.steady tS (tC.frame hf) wS (.inl (hf.serving.trans hserv)) sc'
        (cs.congr hf.packs hf.maker hf.transformer rfl rfl rfl), hl', hf⟩
  | hello _ wC => exact not_serving wC hserv
  | selection _ wC => exact not_serving wC hserv
  | setup _ _ _ _ _ wC => exact not_serving wC hserv
  | answer _ _ _ _ _ wC => exact not_serving wC hserv
  | refused _ _ _ wC => exact not_serving wC hserv

theorem Inv.deliverServer {n : ℕ} {salts : Bytes × Bytes} (hA : A.Lawful)
    (happ : ∀ key, base.sessionKey = some key → app.getSessionKey base.sessionId = key)
    (h : Inv sha256 A base s)
    (hs : step sha256 A unit app opts base s (.deliver .server n salts) = some s') :
    Inv sha256 A base s' := by
  obtain ⟨hphase, htc, hts, hos, hoc⟩ := h
  obtain ⟨e, he, rfl⟩ := Option.map_eq_some_iff.mp hs
  have hsettle := settle_of_todo (recv_cases he).2.2.1
  rw [hsettle] at hphase htc hts
  obtain ⟨hopen, htodo, ⟨hq, hl⟩ | ⟨q, hl, hne, ⟨hserv, rfl⟩ | ⟨hserv, rfl⟩⟩⟩ := hts.recv he
  · have he' := settle_of_todo (hq.todo.trans htodo)
    refine ⟨?_, ?_, ?_, orderly_idle (hq.todo.trans htodo) ?_, hoc⟩
    · rw [he']
      exact hphase.quiet hq (quiet_refl _)
    · rw [he']
      exact htc.sender hq.packs
    · rw [he']
      exact hl
    · exact fun c hc => hos.writing c (hq.writing c hc)
  · have hq := quiet_requeue s.server q
    obtain ⟨hphase', hl', hf⟩ := (hphase.quiet hq (quiet_refl _)).serveServer unit hserv hl hopen
      q.messages.length
    have he' := settle_of_todo (hf.todo.trans htodo)
    refine ⟨?_, ?_, ?_, orderly_idle (hf.todo.trans htodo) ?_, hoc⟩
    · rw [he']
      exact hphase'
    · rw [he']
      exact htc.sender hf.packs
    · rw [he']
      exact hl'
    · exact fun c hc => hos.writing c (hf.writing c hc)
  · have hq := quiet_requeue s.server q
    obtain ⟨hphase', hl', ho', hpacks⟩ := (hphase.quiet hq (quiet_refl _)).handleServer hA app opts happ
      hl hos.writing hopen htodo hserv hne salts rfl
    exact ⟨hphase', htc.sender ((settle_packs _).trans hpacks), hl', ho', hoc⟩

theorem Inv.deliverClient {n : ℕ} {salts : Bytes × Bytes} (hA : A.Lawful)
    (h : Inv sha256 A base s)
    (hs : step sha256 A unit app opts base s (.deliver .client n salts) = some s') :
    Inv sha256 A base s' := by
  obtain ⟨hphase, htc, hts, hos, hoc⟩ := h
  obtain ⟨e, he, rfl⟩ := Option.map_eq_some_iff.mp hs
  have hsettle := settle_of_todo (recv_cases he).2.2.1
  rw [hsettle] at hphase htc hts
  obtain ⟨hopen, htodo, ⟨hq, hl⟩ | ⟨q, hl, hne, ⟨hserv, rfl⟩ | ⟨hserv, rfl⟩⟩⟩ := htc.recv he
  · have he' := settle_of_todo (hq.todo.trans htodo)
    refine ⟨?_, ?_, ?_, hos, orderly_idle (hq.todo.trans htodo) ?_⟩
    · rw [he']
      exact hphase.quiet (quiet_refl _) hq
    · rw [he']
      exact hl
    · rw [he']
      exact hts.sender hq.packs
    · exact fun c hc => hoc.writing c (hq.writing c hc)
  · have hq := quiet_requeue s.client q
    obtain ⟨hphase', hl', hf⟩ := (hphase.quiet (quiet_refl _) hq).serveClient unit hserv hl hopen
      q.messages.length
    have he' := settle_of_todo (hf.todo.trans htodo)
    refine ⟨?_, ?_, ?_, hos, orderly_idle (hf.todo.trans htodo) ?_⟩
    · rw [he']
      exact hphase'
    · rw [he']
      exact hl'
    · rw [he']
      exact hts.sender hf.packs
    · exact fun c hc => hoc.writing c (hf.writing c hc)
  · have hq := quiet_requeue s.client q
    obtain ⟨hphase', hl', ho', hpacks⟩ := (hphase.quiet (quiet_refl _) hq).handleClient hA hl
      hoc.writing hopen htodo hserv hne salts rfl
    exact ⟨hphase', hl', hts.sender ((settle_packs _).trans hpacks), hos, ho'⟩

/-- **Every step** keeps the invariant. -/
theorem Inv.step (hA : A.Lawful)
    (happ : ∀ key, base.sessionKey = some key → app.getSessionKey base.sessionId = key)
    {ev : Event} (h : Inv sha256 A base s)
    (hs : Session.step sha256 A unit app opts base s ev = some s') : Inv sha256 A base s' := by
  cases ev with
  | act side => exact h.act hs
  | pack side => exact h.pack hs
  | written side => exact h.written hs
  | send side data => exact h.send hs
  | deliver side n salts =>
      cases side with
      | server => exact h.deliverServer hA happ hs
      | client => exact h.deliverClient hA hs

end

/-- **Agreement**: in every state of a session between ends that hold the same key, what either end
has popped is a beginning of what its peer has packed: each message was packed with the hash that
the checker had at its pop and with the state that the revertor had then, and its payload was
recovered. -/
theorem in_step (sha256 : Bytes → Digest) (A : AuthCodecs) (unit : Codec LowlevelUnit)
    (app : Server.Application) (opts : SessionOptions) (base : Client.Base) (hA : A.Lawful)
    (happ : ∀ key, base.sessionKey = some key → app.getSessionKey base.sessionId = key)
    (s : Session) (hs : (sessionMachine sha256 A unit app opts base).Reachable s) :
    s.client.pops <+: s.server.packs.map Packed.popped ∧
      s.server.pops <+: s.client.packs.map Packed.popped := by
  have hinv : Inv sha256 A base s := hs.inv inv_start (fun _ _ _ h hstep => h.step hA happ hstep)
  have hc := hinv.toClient.aligned
  have hs := hinv.toServer.aligned
  simp only [settle_pops, settle_packs] at hc hs
  exact ⟨hc, hs⟩

end

/-- A session with a key, from the hello to both ends being ready, and a unit of the client. -/
def keyRun : List Event :=
  let salts : Bytes × Bytes := (List.replicate 256 0x02, List.replicate 256 0x03)
  [Event.pack .server, .written .server, .deliver .client 28 salts] ++
    List.replicate 5 (Event.act .client) ++ [Event.pack .client, .deliver .server 23 salts] ++
    List.replicate 8 (Event.act .server) ++ [Event.pack .server, .deliver .client 529 salts] ++
    List.replicate 6 (Event.act .client) ++ [Event.pack .client, .deliver .server 529 salts] ++
    List.replicate 6 (Event.act .server) ++ [Event.pack .server, .deliver .client 44 salts] ++
    List.replicate 5 (Event.act .client) ++
    [Event.send .client [0x2a], .pack .client, .deliver .server 6 salts]

/-- Both ends hold a key and replace their hashes and ciphers; three messages go each way. -/
theorem in_step_key :
    let sha256 : Bytes → Digest := fun _ => ⟨List.replicate 32 0, rfl⟩
    let app : Server.Application := ⟨fun _ => true, fun _ => [0x01], id⟩
    ∃ s, (sessionMachine sha256 keyCodecs ⟨fun _ => [], fun _ => (true, {})⟩ app .defaults
        ⟨some [0x01], []⟩).Reachable s ∧
      s.client.pops.map Popped.hash = [.none, .crc32, .crc32] ∧
      s.server.pops.map Popped.hash = [.none, .crc32, .crc32] ∧
      s.server.pops.getLast?.bind Popped.result = some [0x2a] ∧
      s.client.pops <+: s.server.packs.map Packed.popped ∧
        s.server.pops <+: s.client.packs.map Packed.popped := by
  intro sha256 app
  have hrun : ((sessionMachine sha256 keyCodecs ⟨fun _ => [], fun _ => (true, {})⟩ app .defaults
      ⟨some [0x01], []⟩).run keyRun).map (fun s => (s.client.pops.map Popped.hash,
        s.server.pops.map Popped.hash, s.server.pops.getLast?.bind Popped.result)) =
      some ([.none, .crc32, .crc32], [.none, .crc32, .crc32], some [0x2a]) := by
    decide +kernel
  obtain ⟨s, hs, heq⟩ := Option.map_eq_some_iff.mp hrun
  simp only [Prod.mk.injEq] at heq
  obtain ⟨hclient, hserver, hlast⟩ := heq
  refine ⟨s, ⟨_, hs⟩, hclient, hserver, hlast,
    in_step sha256 keyCodecs _ app .defaults _ keyCodecs_lawful ?_ s ⟨_, hs⟩⟩
  rintro key ⟨⟩
  rfl

end Session

end Vtrc
