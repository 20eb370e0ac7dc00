import Vtrc.Endpoint

/-! # The server's handshake (`server/connection/default.cpp`)

The server offers its hashes and transformers in a hello, takes a selection from the client
and, when the client has selected a transformer, exchanges salts with it: the key of the
client's messages is derived from salts of the server, the key of the server's messages from
salts of the client.  A selection without a transformer is accepted when the application does
not require a key for the id of the client.

Some messages are rejected with `accessor()->close()`.  On this side that sets `closed_` and
calls `iface::close`, which is empty: the connection is neither closed nor does the stage
function change.

`serverMachine` runs this handshake against arbitrary chunks, with the strand, the completions
of the writes, the init timer and the RPC layer at arbitrary moments. -/

namespace Vtrc.Server

/-- What the handshake asks of the application, for one connection. -/
structure Application where
  sessionKeyRequired : Bytes → Bool
  getSessionKey : Bytes → Bytes
  configureSession : SessionOptions → SessionOptions

section
variable (A : AuthCodecs)

/-- `first_message`. -/
def firstMessage : Bytes :=
  A.capsule.serialize
    { text := "Tervetuloa!"
      ready := true
      body := A.initProtocol.serialize
        { hashSupported := [HashKind.index .none, HashKind.index .crc32, HashKind.index .sha2_256]
          transformSupported := [transformNone, transformErseefor] } }

/-- `accessor()->close()`: `closed_` is set, `iface::close` does nothing. -/
def close : List Act := [.accessorClose]

def sendProtoMessage (capsule : InitCapsule) : List Act :=
  [.write (A.capsule.serialize capsule) .default]

def sendAndClose (capsule : InitCapsule) : List Act :=
  [.write (A.capsule.serialize capsule) .closeClient]

/-- `create_error`. -/
def createError (e : ErrorNumber) (add : String) : ErrorContainer :=
  { code := e.code, category := categoryInternal, additional := add }

variable (sha256 : Bytes → Digest) (app : Application) (opts : SessionOptions)

def setClientReady (capsule : InitCapsule) : List Act :=
  let options := app.configureSession opts
  [.configure options, .setReady] ++
    sendProtoMessage A { capsule with
      ready := true, text := "Kiva nahda sinut!", body := A.session.serialize options }

def onClientTransformer (clientId data : Bytes) : List Act :=
  let capsule := A.capsule.parse data
  if !capsule.1 then close
  else if !capsule.2.ready then [.connectionClose]
  else
    let tsetup := (A.setup.parse capsule.2.body).2
    .setTransformer (defaultCypher sha256 (app.getSessionKey clientId) tsetup.salt1 tsetup.salt2) ::
      setClientReady A app opts {}

def setupTransformer (clientId : Bytes) (salts : Bytes × Bytes) (id : UInt32) : List Act :=
  if id = transformNone then
    if !app.sessionKeyRequired clientId then setClientReady A app opts {}
    else sendAndClose A { ready := false, error := createError .access "Session key required" }
  else if id = transformErseefor then
    [.setRevertor (defaultCypher sha256 (app.getSessionKey clientId) salts.1 salts.2),
      .changeStage .clientTransformer] ++
      sendProtoMessage A
        { ready := true, body := A.setup.serialize { salt1 := salts.1, salt2 := salts.2 } }
  else sendAndClose A { ready := false, error := createError .invalidValue "Invalid transformer" }

def onClientSelection (salts : Bytes × Bytes) (data : Bytes) : List Act :=
  let capsule := A.capsule.parse data
  if !capsule.1 then close
  else if !capsule.2.ready then []
  else
    let cs := (A.selection.parse capsule.2.body).2
    match HashKind.createByIndex cs.hash with
    | none => close
    | some h =>
        [.setClientId cs.id, .setHashChecker h, .setHashMaker h] ++
          setupTransformer A sha256 app opts cs.id salts cs.transform

/-- The server's side of the handshake. -/
def role : Role where
  badHash := .accessorError (createError .internal "") "Bad hash." :: close
  stageCall e salts data :=
    match e.stage with
    | .clientSelection => onClientSelection A sha256 app opts salts data
    | .clientTransformer => onClientTransformer A sha256 app opts e.clientId data
    | _ => []

/-- The connection after `init`: the hello is posted, and reading starts when it has been sent. -/
def start : Endpoint where
  protocol := DefaultProtocol.create.configure opts
  stage := .clientSelection
  sessionOpts := opts
  outbox := [⟨firstMessage A, .startReading⟩]

/-- `on_init_timeout`, called without an error. -/
def onInitTimeout (e : Endpoint) : Endpoint :=
  if !e.ready then
    { e with outbox := e.outbox ++ [⟨A.capsule.serialize
        { ready := false, error := { code := ErrorNumber.timeout.code } }, .closeClient⟩] }
  else e

end

/-- What happens at the server. -/
inductive Event where
  | act
  | pack
  | written
  | recv (chunk : Bytes) (salts : Bytes × Bytes)
  | send (data : Bytes)
  | initTimeout

section
variable (sha256 : Bytes → Digest) (A : AuthCodecs) (unit : Codec LowlevelUnit)
  (app : Application) (opts : SessionOptions)

def step (e : Endpoint) : Event → Option Endpoint
  | .act => e.act
  | .pack => (e.pack sha256).map Prod.fst
  | .written => e.written
  | .recv chunk salts => e.recv sha256 unit (role A sha256 app opts) chunk salts
  | .send data => e.send data
  | .initTimeout => some (onInitTimeout A e)

/-- The server's end of a connection, against any client. -/
def serverMachine : Machine Endpoint Event where
  init := start A opts
  step := step sha256 A unit app opts

end

end Vtrc.Server
