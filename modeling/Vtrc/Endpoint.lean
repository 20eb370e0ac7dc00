import Vtrc.Lowlevel

/-! # One end of a connection (`lowlevel-protocol-default.cpp`, `stream-impl.h`)

Client and server run the same skeleton: a `default_protocol` whose stage function is replaced
as the handshake goes on, a strand that packs the posted writes one by one, and a reader that
does not read on before `process_data` has returned.  A handler of the handshake is a list of
actions (`Act`), executed one at a time, so that the steps of the strand may fall between any
two of them; what the two sides do on a message is given by a `Role`.

An `Endpoint` is the state, with a log of what was packed and popped.  Its steps are

* `act`: the running handler executes its next action;
* `pack`: `write_impl` packs the next posted write, and runs its closure when the closure is
  not to wait for the sending;
* `written`: the oldest packed write has been sent, its closure runs;
* `recv`: a chunk is read and processed;
* `send`: the RPC layer writes a unit. -/

namespace Vtrc

/-- The stages of both handshakes: `on_client_selection` and `on_client_transformer` of the
server, `STAGE_HELLO`, `STAGE_SETUP`, `STAGE_ERROR` and `STAGE_READY` of the client. -/
inductive Stage where
  | clientSelection
  | clientTransformer
  | hello
  | setup
  | error
  | ready
deriving DecidableEq, Repr

/-- The closures that are written with a message: nothing, `set_options` of the client (run when
the message has been packed), `close_client` and `start_read_clos` of the server. -/
inductive Closure where
  | default
  | setOptions
  | closeClient
  | startReading
deriving DecidableEq, Repr

/-- `on_send_success` of the write that has this closure. -/
def Closure.onSend : Closure → Bool
  | setOptions => false
  | _ => true

/-- The elementary actions of the handlers. -/
inductive Act where
  | setHashMaker (h : HashKind)
  | setHashChecker (h : HashKind)
  | setTransformer (t : Transformer)
  | setRevertor (t : Transformer)
  | configure (opts : SessionOptions)
  | configureSession (opts : SessionOptions)
  | changeStage (st : Stage)
  | setClientId (id : Bytes)
  | setReady
  | write (data : Bytes) (closure : Closure)
  | switchToReady
  | accessorReady
  | accessorError (err : ErrorContainer) (message : String)
  | accessorClose
  | connectionClose

/-- A posted write. -/
structure Posted where
  data : Bytes
  closure : Closure
deriving DecidableEq, Repr

/-- A message as it was packed: the hash and the state of the transformer it was packed with. -/
structure Packed where
  hash : HashKind
  transformer : Transformer
  data : Bytes

/-- A message as it was popped: the checker and the state of the revertor at the pop, and the
payload when the check succeeded. -/
structure Popped where
  hash : HashKind
  revertor : Transformer
  result : Option Bytes

/-- The state of one end.  `serving` says that `process_stage_` is `ready_call`, `ready` is
`ready_` of the handshake and `layerReady` that of the protocol layer, `closed` is `closed_` of
the accessor, `connClosed` that the connection itself was closed. -/
structure Endpoint where
  protocol : DefaultProtocol
  serving : Bool := false
  stage : Stage
  ready : Bool := false
  layerReady : Bool := false
  clientId : Bytes := []
  sessionOpts : SessionOptions
  closed : Bool := false
  connClosed : Bool := false
  reading : Bool := false
  todo : List Act := []
  outbox : List Posted := []
  writing : List Closure := []
  errors : List (ErrorContainer × String) := []
  dispatched : List LowlevelUnit := []
  packs : List Packed := []
  pops : List Popped := []

/-- What an end does with a handshake message: `badHash` when the check of the message fails,
`stageCall` on its payload, with the salts that `generate_key_infos` would draw. -/
structure Role where
  badHash : List Act
  stageCall : Endpoint → Bytes × Bytes → Bytes → List Act

namespace Endpoint

def setProtocol (e : Endpoint) (p : DefaultProtocol) : Endpoint := { e with protocol := p }

/-- One action. -/
def exec (e : Endpoint) : Act → Endpoint
  | .setHashMaker h => e.setProtocol (e.protocol.setHashMaker h)
  | .setHashChecker h => e.setProtocol (e.protocol.setHashChecker h)
  | .setTransformer t => e.setProtocol (e.protocol.setTransformer t)
  | .setRevertor t => e.setProtocol (e.protocol.setRevertor t)
  | .configure opts => e.setProtocol (e.protocol.configure opts)
  | .configureSession opts =>
      { e.setProtocol (e.protocol.configure opts) with sessionOpts := opts }
  | .changeStage st => { e with stage := st }
  | .setClientId id => { e with clientId := id }
  | .setReady => { e with ready := true }
  | .write data closure => { e with outbox := e.outbox ++ [⟨data, closure⟩] }
  | .switchToReady => if e.ready then { e with serving := true } else e
  | .accessorReady => if e.ready then { e with layerReady := true } else e
  | .accessorError err message => { e with errors := e.errors ++ [(err, message)] }
  | .accessorClose => { e with closed := true }
  | .connectionClose => { e with connClosed := true }

/-- The running handler goes on. -/
def act (e : Endpoint) : Option Endpoint :=
  match e.todo with
  | [] => none
  | a :: todo => some ({ e with todo := todo }.exec a)

/-- A closure runs. -/
def runClosure (e : Endpoint) : Closure → Endpoint
  | .default => e
  | .setOptions => e.setProtocol (e.protocol.setHashMaker .crc32)
  | .closeClient => { e with ready := false, connClosed := true }
  | .startReading => { e with reading := true }

section
variable (sha256 : Bytes → Digest)

/-- `write_impl`: the end and the bytes it hands to the stream.  A `std::string` is shorter
than `2 ^ 63`. -/
def pack (e : Endpoint) : Option (Endpoint × Bytes) :=
  match e.outbox with
  | [] => none
  | m :: outbox =>
      if m.data.length < 2 ^ 63 then
        let r := e.protocol.packMessage sha256 m.data
        let e' : Endpoint := { e with
          protocol := r.1
          outbox := outbox
          packs := e.packs ++ [⟨e.protocol.hashMaker, e.protocol.transformer, m.data⟩] }
        some (if m.closure.onSend then { e' with writing := e'.writing ++ [m.closure] }
          else e'.runClosure m.closure, r.2)
      else none

/-- The oldest write has been sent. -/
def written (e : Endpoint) : Option Endpoint :=
  match e.writing with
  | [] => none
  | c :: writing => some ({ e with writing := writing }.runClosure c)

/-- The RPC layer writes a unit (`call_rpc_method`, `send_message`). -/
def send (e : Endpoint) (data : Bytes) : Option Endpoint :=
  if e.layerReady then some { e with outbox := e.outbox ++ [⟨data, .default⟩] } else none

/-- The next message of the queue is popped and logged. -/
def popRaw (e : Endpoint) : Option (Endpoint × Option Bytes) :=
  (e.protocol.popRawMessage sha256).map (fun r =>
    ({ e with
      protocol := r.1
      pops := e.pops ++ [⟨e.protocol.hashChecker, e.protocol.revertor, r.2⟩] }, r.2))

/-- `do_handshake`: one message is popped; its handler starts. -/
def doHandshake (role : Role) (e : Endpoint) (salts : Bytes × Bytes) : Endpoint :=
  match e.popRaw sha256 with
  | none => e
  | some (e', none) => { e' with todo := role.badHash }
  | some (e', some data) =>
      { e' with todo := role.stageCall e' salts data ++ [.switchToReady, .accessorReady] }

/-- The loop of `on_rpc_process` and `on_rcp_call_ready`: messages are popped, parsed and
dispatched until the queue is empty or one of them is bad, which closes the connection.  The
first argument bounds the rounds. -/
def serve (unit : Codec LowlevelUnit) : ℕ → Endpoint → Endpoint
  | 0, e => e
  | n + 1, e =>
      match e.popRaw sha256 with
      | none => e
      | some (e', res) =>
          match res.bind (fun d => let u := unit.parse d; if u.1 then some u.2 else none) with
          | none => { e' with connClosed := true }
          | some llu => serve unit n { e' with dispatched := e'.dispatched ++ [llu] }

/-- A chunk is read: `process_data`, with its stage function.  When the parser raises, the end
stops reading. -/
def recv (unit : Codec LowlevelUnit) (role : Role) (e : Endpoint) (chunk : Bytes)
    (salts : Bytes × Bytes) : Option Endpoint :=
  if e.reading && !e.connClosed && e.todo.isEmpty then
    match e.protocol.processData chunk with
    | (p, .raised _) => some { e.setProtocol p with reading := false, connClosed := true }
    | (p, .idle) => some (e.setProtocol p)
    | (p, .stage) =>
        if e.serving then some (serve sha256 unit p.queueSize (e.setProtocol p))
        else some (doHandshake sha256 role (e.setProtocol p) salts)
  else none

end

/-- The running handler goes on to its end. -/
def settle (e : Endpoint) : Endpoint := e.todo.foldl exec { e with todo := [] }

/-! ### What a step can do -/

section
variable {sha256 : Bytes → Digest}

theorem act_eq_some {e e' : Endpoint} (h : e.act = some e') :
    ∃ a todo, e.todo = a :: todo ∧ e' = { e with todo := todo }.exec a := by
  rw [act] at h
  split at h
  · cases h
  · rename_i a todo htodo
    exact ⟨a, todo, htodo, (Option.some.inj h).symm⟩

theorem pack_eq_some {e e' : Endpoint} {bytes : Bytes} (h : e.pack sha256 = some (e', bytes)) :
    ∃ m outbox, e.outbox = m :: outbox ∧ m.data.length < 2 ^ 63 ∧
      bytes = (e.protocol.packMessage sha256 m.data).2 ∧
      ∃ e₁ : Endpoint, e₁ = { e with
          protocol := (e.protocol.packMessage sha256 m.data).1
          outbox := outbox
          packs := e.packs ++ [⟨e.protocol.hashMaker, e.protocol.transformer, m.data⟩] } ∧
        e' = if m.closure.onSend then { e₁ with writing := e₁.writing ++ [m.closure] }
          else e₁.runClosure m.closure := by
  rw [pack] at h
  split at h
  · cases h
  · rename_i m outbox hout
    simp only at h
    split_ifs at h with hlen hsend
    · obtain ⟨rfl, rfl⟩ := Prod.mk.inj (Option.some.inj h)
      exact ⟨m, outbox, hout, hlen, rfl, _, rfl, by rw [if_pos hsend]⟩
    · obtain ⟨rfl, rfl⟩ := Prod.mk.inj (Option.some.inj h)
      exact ⟨m, outbox, hout, hlen, rfl, _, rfl, by rw [if_neg hsend]⟩

theorem written_eq_some {e e' : Endpoint} (h : e.written = some e') :
    ∃ c writing, e.writing = c :: writing ∧ e' = { e with writing := writing }.runClosure c := by
  rw [written] at h
  split at h
  · cases h
  · rename_i c writing hw
    exact ⟨c, writing, hw, (Option.some.inj h).symm⟩

theorem send_eq_some {e e' : Endpoint} {data : Bytes} (h : e.send data = some e') :
    e.layerReady = true ∧ e' = { e with outbox := e.outbox ++ [⟨data, .default⟩] } := by
  rw [send] at h
  split_ifs at h with hr
  exact ⟨hr, (Option.some.inj h).symm⟩

theorem popRaw_eq_some {e e' : Endpoint} {res : Option Bytes}
    (h : e.popRaw sha256 = some (e', res)) :
    ∃ p, e.protocol.popRawMessage sha256 = some (p, res) ∧
      e' = { e with
        protocol := p
        pops := e.pops ++ [⟨e.protocol.hashChecker, e.protocol.revertor, res⟩] } := by
  rw [popRaw] at h
  obtain ⟨⟨p, r⟩, hp, heq⟩ := Option.map_eq_some_iff.mp h
  obtain ⟨rfl, rfl⟩ := Prod.mk.inj heq
  exact ⟨p, hp, rfl⟩

/-- A chunk is read in one of four ways: the parser raises, no message is complete, the messages
are served, or one message is handed to the handshake. -/
theorem recv_cases {unit : Codec LowlevelUnit} {role : Role} {e e' : Endpoint} {chunk : Bytes}
    {salts : Bytes × Bytes} (h : e.recv sha256 unit role chunk salts = some e') :
    e.reading = true ∧ e.connClosed = false ∧ e.todo = [] ∧
      ((∃ p err, e.protocol.processData chunk = (p, .raised err) ∧
          e' = { e.setProtocol p with reading := false, connClosed := true }) ∨
        (∃ p, e.protocol.processData chunk = (p, .idle) ∧ e' = e.setProtocol p) ∨
        (∃ p, e.protocol.processData chunk = (p, .stage) ∧ e.serving = true ∧
          e' = serve sha256 unit p.queueSize (e.setProtocol p)) ∨
        (∃ p, e.protocol.processData chunk = (p, .stage) ∧ e.serving = false ∧
          e' = doHandshake sha256 role (e.setProtocol p) salts)) := by
  rw [recv] at h
  by_cases hcond : (e.reading && !e.connClosed && e.todo.isEmpty) = true
  swap
  · rw [if_neg hcond] at h
    cases h
  rw [if_pos hcond] at h
  simp only [Bool.and_eq_true, Bool.not_eq_true', List.isEmpty_iff] at hcond
  refine ⟨hcond.1.1, hcond.1.2, hcond.2, ?_⟩
  split at h
  · rename_i p err hp
    exact .inl ⟨p, err, hp, (Option.some.inj h).symm⟩
  · rename_i p hp
    exact .inr (.inl ⟨p, hp, (Option.some.inj h).symm⟩)
  · rename_i p hp
    split_ifs at h with hserv
    · exact .inr (.inr (.inl ⟨p, hp, hserv, (Option.some.inj h).symm⟩))
    · exact .inr (.inr (.inr ⟨p, hp, by simpa using hserv, (Option.some.inj h).symm⟩))

variable (sha256) in
theorem doHandshake_cases (role : Role) (e : Endpoint) (salts : Bytes × Bytes) :
    e.popRaw sha256 = none ∧ doHandshake sha256 role e salts = e ∨
    (∃ e', e.popRaw sha256 = some (e', none) ∧
      doHandshake sha256 role e salts = { e' with todo := role.badHash }) ∨
    (∃ e' data, e.popRaw sha256 = some (e', some data) ∧
      doHandshake sha256 role e salts =
        { e' with todo := role.stageCall e' salts data ++ [.switchToReady, .accessorReady] }) := by
  rw [doHandshake]
  split
  · rename_i hp
    exact .inl ⟨hp, rfl⟩
  · rename_i e' hp
    exact .inr (.inl ⟨e', hp, rfl⟩)
  · rename_i e' data hp
    exact .inr (.inr ⟨e', data, hp, rfl⟩)

variable (sha256) in
/-- What every served message keeps, the whole loop keeps. -/
theorem serve_inv (unit : Codec LowlevelUnit) {I : Endpoint → Prop}
    (hpop : ∀ e e' res, I e → e.popRaw sha256 = some (e', res) → I e')
    (hclose : ∀ e, I e → I { e with connClosed := true })
    (hdisp : ∀ e llu, I e → I { e with dispatched := e.dispatched ++ [llu] })
    (n : ℕ) (e : Endpoint) (h : I e) : I (serve sha256 unit n e) := by
  induction n generalizing e with
  | zero => exact h
  | succ n ih =>
      rw [serve]
      split
      · exact h
      · rename_i e' res hp
        have he' := hpop e e' res h hp
        split
        · exact hclose e' he'
        · exact ih _ (hdisp e' _ he')

end

/-! ### Handlers in the middle -/

@[simp] theorem exec_todo (e : Endpoint) (a : Act) : (e.exec a).todo = e.todo := by
  cases a <;> simp only [exec] <;> (try split_ifs) <;> rfl

/-- `G` holds now and after each of the remaining actions; it may mention what remains. -/
def Guarded (G : Endpoint → List Act → Prop) : Endpoint → List Act → Prop
  | e, [] => G e []
  | e, a :: as => G e (a :: as) ∧ Guarded G (e.exec a) as

theorem Guarded.now {G : Endpoint → List Act → Prop} {e : Endpoint} {as : List Act}
    (h : Guarded G e as) : G e as := by
  cases as with
  | nil => exact h
  | cons a as => exact h.1

/-- A change of the state that commutes with the actions and keeps `G` may happen in the middle
of a handler. -/
theorem Guarded.mono {G : Endpoint → List Act → Prop} {R : Endpoint → Endpoint → Prop}
    (hexec : ∀ e e' a, R e e' → R (e.exec a) (e'.exec a))
    (hG : ∀ e e' as, R e e' → G e as → G e' as) {as : List Act} :
    ∀ {e e' : Endpoint}, R e e' → Guarded G e as → Guarded G e' as := by
  induction as with
  | nil =>
      intro e e' hR h
      exact hG e e' [] hR h
  | cons a as ih =>
      intro e e' hR h
      exact ⟨hG e e' (a :: as) hR h.1, ih (hexec e e' a hR) h.2⟩

end Endpoint

end Vtrc
