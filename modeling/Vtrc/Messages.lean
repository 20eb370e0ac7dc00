import Vtrc.SizePack
import Vtrc.Lib.Codec

/-! # Protocol messages (`protocol-base/*.proto`)

The messages as the code reads and writes them through the accessors that protobuf generates:
an unset optional field reads as its default.  Fields that no modelled function touches are
left out.  Serialization is done by the protobuf library, which is not part of the
repository: `Codec α` stands for the generated `SerializeAsString` and `ParseFromString` of a
message type.  `parse` returns the success flag together with the message as the call leaves
it, since several callers ignore the flag. -/

namespace Vtrc

/-! ### vtrc-errors.proto -/

/-- `errors_numbers`, as far as the modelled code uses them. -/
inductive ErrorNumber where
  | noError
  | badFile
  | access
  | busy
  | invalidValue
  | noFunc
  | timeout
  | comm
  | protocol
  | canceled
  | unknown
  | callFailed
  | internal
  | channel
  | overflow
  | context
deriving DecidableEq, Repr

def ErrorNumber.code : ErrorNumber → UInt32
  | noError => 0
  | badFile => 9
  | access => 13
  | busy => 16
  | invalidValue => 22
  | noFunc => 38
  | timeout => 62
  | comm => 70
  | protocol => 71
  | canceled => 125
  | unknown => 1000
  | callFailed => 1001
  | internal => 1002
  | channel => 1003
  | overflow => 1004
  | context => 1005

theorem ErrorNumber.code_eq_zero {e : ErrorNumber} : e.code = 0 ↔ e = .noError := by
  cases e <;> decide

/-- `CATEGORY_INTERNAL`. -/
def categoryInternal : UInt32 := 0
/-- `CATEGORY_SYSTEM`. -/
def categorySystem : UInt32 := 2

/-- `errors.container`. -/
structure ErrorContainer where
  code : UInt32 := 0
  category : UInt32 := 0
  fatal : Bool := false
  additional : String := ""
deriving DecidableEq, Repr, Countable

/-! ### vtrc-rpc-options.proto -/

/-- `session_options`. -/
structure SessionOptions where
  maxActiveCalls : UInt32 := 0
  maxMessageLength : UInt32 := 0
  maxStackSize : UInt32 := 0
  readBufferSize : UInt32 := 0
  initTimeout : UInt32 := 0
deriving DecidableEq, Repr, Countable

/-- `defaults::session_options`. -/
def SessionOptions.defaults : SessionOptions where
  maxActiveCalls := 5
  maxMessageLength := 65536
  maxStackSize := 16
  readBufferSize := 4096
  initTimeout := 10000

/-- `unit_options`. -/
structure UnitOptions where
  wait : Bool := false
  acceptCallbacks : Bool := false
  acceptResponse : Bool := false
deriving DecidableEq, Repr, Countable

/-! ### vtrc-rpc-lowlevel.proto -/

/-- `message_info.type_enum`; the wire carries any `uint32`. -/
inductive MessageType where
  | none
  | clientCall
  | serverCall
  | clientCallback
  | serverCallback
  | service
  | internal
  | invalid (value : UInt32)
deriving DecidableEq, Repr, Countable

/-- `lowlevel_unit`. -/
structure LowlevelUnit where
  id : UInt64 := 0
  targetId : UInt64 := 0
  messageType : MessageType := .none
  callbackAlone : Bool := false
  serviceId : String := ""
  methodId : String := ""
  error : ErrorContainer := {}
  opt : UnitOptions := {}
  channelData : Bytes := []
  request : Bytes := []
  response : Bytes := []
deriving DecidableEq, Repr, Countable

/-! ### vtrc-auth.proto -/

/-- `TRANSFORM_NONE`. -/
def transformNone : UInt32 := 0
/-- `TRANSFORM_ERSEEFOR`. -/
def transformErseefor : UInt32 := 1

/-- `init_protocol`: what the server offers in its hello. -/
structure InitProtocol where
  hashSupported : List UInt32 := []
  transformSupported : List UInt32 := []
deriving DecidableEq, Repr, Countable

/-- `client_selection`. -/
structure ClientSelection where
  hash : UInt32 := 0
  transform : UInt32 := 0
  id : Bytes := []
deriving DecidableEq, Repr, Countable

/-- `transformer_setup`. -/
structure TransformerSetup where
  salt1 : Bytes := []
  salt2 : Bytes := []
deriving DecidableEq, Repr, Countable

/-- `init_capsule`: the wrapper of every handshake message. -/
structure InitCapsule where
  text : String := ""
  ready : Bool := false
  error : ErrorContainer := {}
  body : Bytes := []
deriving DecidableEq, Repr, Countable

/-- The generated codecs of the messages of the handshake. -/
structure AuthCodecs where
  capsule : Codec InitCapsule
  initProtocol : Codec InitProtocol
  selection : Codec ClientSelection
  setup : Codec TransformerSetup
  /-- `session_setup`, whose only field is `options`. -/
  session : Codec SessionOptions

/-- Every codec of the handshake gives back what was serialized. -/
structure AuthCodecs.Lawful (A : AuthCodecs) : Prop where
  capsule : A.capsule.Lawful
  initProtocol : A.initProtocol.Lawful
  selection : A.selection.Lawful
  setup : A.setup.Lawful
  session : A.session.Lawful

end Vtrc
