import Vtrc.Endpoint

/-! # The client's handshake (`client/connection-default.cpp`)

The client answers the server's hello with a selection, exchanges salts with the server when it
has a session key, and is ready when the server says so.  It checks CRC-32 from the hello on,
and makes CRC-32 from the moment its selection has been packed (`set_options`).

Unlike the server's, the accessor of the client closes the connection on `close()`. -/

namespace Vtrc.Client

/-- What the handshake asks of `client::base`: `env( ).get( "session_key" )`, when it exists,
and the id of the session. -/
structure Base where
  sessionKey : Option Bytes
  sessionId : Bytes

/-- `default_hash_value`. -/
def defaultHash : HashKind := .crc32

/-- `create_error`. -/
def createError (e : ErrorNumber) (add : String) : ErrorContainer :=
  { code := e.code, category := categoryInternal, additional := add }

/-- `accessor()->close()`: `closed_` is set and the connection is closed. -/
def close : List Act := [.accessorClose, .connectionClose]

/-- The message is reported and the connection closed. -/
def errorAndClose (err : ErrorContainer) (message : String) : List Act :=
  .accessorError err message :: close

section
variable (A : AuthCodecs)

def sendProtoMessage (capsule : InitCapsule) : List Act :=
  [.write (A.capsule.serialize capsule) .default]

def serverHasTransformer (capsule : InitCapsule) (transformerType : UInt32) : Bool :=
  (A.initProtocol.parse capsule.body).2.transformSupported.contains transformerType

variable (sha256 : Bytes → Digest) (base : Base)

def onHelloCall (data : Bytes) : List Act :=
  let capsule := A.capsule.parse data
  if !capsule.1 then
    errorAndClose (createError .internal "") "Server's 'Hello' has bad hash."
  else if !capsule.2.ready then
    errorAndClose capsule.2.error "Server is not ready; stage: 'Hello'"
  else
    let keySet := base.sessionKey.isSome
    let init : ClientSelection :=
      if keySet && serverHasTransformer A capsule.2 transformErseefor then
        { hash := defaultHash.index, transform := transformErseefor, id := base.sessionId }
      else { hash := defaultHash.index, transform := transformNone }
    [.setHashChecker defaultHash, .changeStage (if keySet then .setup else .ready),
      .write (A.capsule.serialize { capsule.2 with
        ready := true, text := "Miten menee?", body := A.selection.serialize init }) .setOptions]

def onTransSetup (salts : Bytes × Bytes) (data : Bytes) : List Act :=
  let capsule := A.capsule.parse data
  if !capsule.1 then
    errorAndClose (createError .internal "") "Server's 'Ready' has bad hash. Bad session key."
  else if !capsule.2.ready then
    errorAndClose capsule.2.error "Server is not ready; stage: 'Setup'"
  else
    let tsetup := (A.setup.parse capsule.2.body).2
    let key := base.sessionKey.getD []
    [.setTransformer (defaultCypher sha256 key tsetup.salt1 tsetup.salt2),
      .setRevertor (defaultCypher sha256 key salts.1 salts.2), .changeStage .ready] ++
      sendProtoMessage A { capsule.2 with
        ready := true, body := A.setup.serialize { salt1 := salts.1, salt2 := salts.2 } }

def onServerReady (data : Bytes) : List Act :=
  let capsule := A.capsule.parse data
  if !capsule.1 then
    errorAndClose (createError .internal "") "Server's 'Ready' has bad hash. Bad session key."
  else if !capsule.2.ready then
    [.accessorError capsule.2.error
      (if capsule.2.error.additional ≠ "" then capsule.2.error.additional
        else "Server is not ready; stage: 'Ready'"), .changeStage .error] ++ close
  else
    let opts := (A.session.parse capsule.2.body).2
    [.configureSession opts, .configure opts, .setReady]

/-- The client's side of the handshake. -/
def role : Role where
  badHash := .changeStage .error :: errorAndClose (createError .internal "") "Bad hash."
  stageCall e salts data :=
    match e.stage with
    | .hello => onHelloCall A base data
    | .setup => onTransSetup A sha256 base salts data
    | .ready => onServerReady A data
    | _ => []

/-- The connection after `init`, reading. -/
def start : Endpoint where
  protocol := DefaultProtocol.create.configure .defaults
  stage := .hello
  sessionOpts := .defaults
  reading := true

end

end Vtrc.Client
