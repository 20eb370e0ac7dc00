import Vtrc.Errors

/-! # Decoding of requests and responses (`lowlevel-protocol-default.cpp`: `parse_message`)

`make_local_call_impl` parses the request of a call into a new message of the method's request type,
and `call_and_wait` the response of a reply into the message of the caller.  Both do it through
`protocol_layer_iface::parse_message`, which returns nothing: what `ParseFromString` says is lost, and
the message is used as the parser has left it.

* `localCall_step_start` connects the callee to `LocalCall`, `afterRead_eq_returned` the caller to
  `RpcEnd`.
* `only_decoded_delivered_iff` says when what is delivered was decoded. -/

namespace Vtrc

open CallEffect

variable {α β : Type}

/-- `protocol_layer_iface::parse_message`. -/
def parseMessage (C : Codec α) (data : Bytes) : α := (C.parse data).2

/-- The bytes parse as a message. -/
def Codec.Parses (C : Codec α) (data : Bytes) : Prop := (C.parse data).1 = true

instance (C : Codec α) (data : Bytes) : Decidable (C.Parses data) :=
  inferInstanceAs (Decidable (_ = _))

/-! ### Requests -/

/-- `make_local_call_impl` up to `call_method`: what the method is invoked with, or the exception.
`requests` gives the request type of a method of a service. -/
def makeLocalCallImpl (requests : String → String → Codec α) (opts : SessionOptions) (depth : ℕ)
    (services : Services) (llu : LowlevelUnit) : Except Thrown α :=
  match resolve opts depth services llu with
  | .ok () => .ok (parseMessage (requests llu.serviceId llu.methodId) llu.request)
  | .error ex => .error ex

/-- The call number of `make_local_call` goes to its handler, with the message, or is left with the
exception. -/
theorem localCall_step_start (requests : String → String → Codec α) (opts : SessionOptions)
    (depth : ℕ) (services : Services) (llu : LowlevelUnit) :
    ∃ r, (LocalCall.post llu).step opts (.start depth services) = some r ∧
      ((∃ req, makeLocalCallImpl requests opts depth services llu = .ok req) →
        r.1.phase = .running ∧ r.2 = []) ∧
      ∀ ex, makeLocalCallImpl requests opts depth services llu = .error ex →
        r = (LocalCall.post llu).finish (some ex) := by
  unfold makeLocalCallImpl
  cases hres : resolve opts depth services llu with
  | ok u =>
      refine ⟨(⟨llu, .running, { connection := true, protoClosure := true }⟩, []), ?_,
        fun _ => ⟨rfl, rfl⟩, fun ex h => (by cases h)⟩
      simp only [LocalCall.step, LocalCall.post, hres, if_true]
  | error ex =>
      refine ⟨(LocalCall.post llu).finish (some ex), ?_, ?_, ?_⟩
      · simp only [LocalCall.step, LocalCall.post, hres, if_true]
      · rintro ⟨_, h⟩
        cases h
      · intro ex' h
        cases h
        rfl

/-- The call is answered with an error as soon as `make_local_call` begins. -/
def AnsweredWithError (opts : SessionOptions) (depth : ℕ) (services : Services)
    (llu : LowlevelUnit) : Prop :=
  ∃ r u, (LocalCall.post llu).step opts (.start depth services) = some r ∧ u ∈ sent r.2 ∧
    u.error.code ≠ 0

/-- The method is invoked only with a request that was decoded; if it does not parse, a call that
waits is answered with an error. -/
def InvokedDecoded (requests : String → String → Codec α) (opts : SessionOptions) (depth : ℕ)
    (services : Services) (llu : LowlevelUnit) : Prop :=
  (∀ req, makeLocalCallImpl requests opts depth services llu = .ok req →
    (requests llu.serviceId llu.methodId).Parses llu.request) ∧
  (¬ (requests llu.serviceId llu.methodId).Parses llu.request → llu.opt.wait = true →
    AnsweredWithError opts depth services llu)

theorem invokedDecoded_iff (requests : String → String → Codec α) (opts : SessionOptions)
    (depth : ℕ) (services : Services) (llu : LowlevelUnit) :
    InvokedDecoded requests opts depth services llu ↔
      (requests llu.serviceId llu.methodId).Parses llu.request ∨
        ∃ ex, resolve opts depth services llu = .error ex ∧ (llu.opt.wait = true → ex.code ≠ 0) := by
  obtain ⟨r, hstep, hok, herr⟩ := localCall_step_start requests opts depth services llu
  by_cases hparses : (requests llu.serviceId llu.methodId).Parses llu.request
  · exact iff_of_true ⟨fun _ _ => hparses, fun hnot => absurd hparses hnot⟩ (.inl hparses)
  cases hres : resolve opts depth services llu with
  | ok u =>
      -- the method gets a message that was not decoded
      have himpl : makeLocalCallImpl requests opts depth services llu =
          .ok (parseMessage (requests llu.serviceId llu.methodId) llu.request) := by
        unfold makeLocalCallImpl
        rw [hres]
      refine iff_of_false (fun h => hparses (h.1 _ himpl)) ?_
      rintro (h | ⟨ex, h, _⟩)
      · exact hparses h
      · cases h
  | error ex =>
      have himpl : makeLocalCallImpl requests opts depth services llu = .error ex := by
        unfold makeLocalCallImpl
        rw [hres]
      have hanswered : llu.opt.wait = true →
          (AnsweredWithError opts depth services llu ↔ ex.code ≠ 0) := by
        intro hwait
        have hsent : sent r.2 = [(LocalCall.post llu).failure ex] := by
          rw [herr ex himpl]
          exact LocalCall.sent_finish_some hwait ex
        constructor
        · rintro ⟨r', u, hstep', hu, hcode⟩
          obtain rfl := Option.some.inj (hstep.symm.trans hstep')
          rw [hsent] at hu
          obtain rfl := List.mem_singleton.mp hu
          exact hcode
        · intro hcode
          exact ⟨r, _, hstep, by rw [hsent]; exact List.mem_singleton_self _, hcode⟩
      constructor
      · rintro ⟨_, hanswer⟩
        refine .inr ⟨ex, rfl, fun hwait => ?_⟩
        exact (hanswered hwait).mp (hanswer hparses hwait)
      · rintro (h | ⟨ex', h, hcode⟩)
        · exact absurd h hparses
        · cases h
          refine ⟨?_, fun _ hwait => (hanswered hwait).mpr (hcode hwait)⟩
          intro req h
          rw [himpl] at h
          cases h

/-! ### Responses -/

/-- What the loop of `call_and_wait` does with a unit: it returns false through the error callback,
makes a local call, or returns true with what is now in `response`. -/
inductive ReadOutcome (β : Type) where
  | failed (err : ErrorContainer)
  | localCall (top : LowlevelUnit)
  | returned (response : Option β)

/-- The body of the loop; `response` is null when the caller has passed none. -/
def callAndWaitRead (C : Codec β) (messType : MessageType) (response : Option β)
    (top : LowlevelUnit) : ReadOutcome β :=
  if top.error.code ≠ 0 then .failed top.error
  else if top.messageType ≠ messType then .localCall top
  else .returned (response.map (fun _ => parseMessage C top.response))

theorem afterRead_eq_returned (C : Codec β) (response : Option β) (llu top : LowlevelUnit) (n : ℕ) :
    RpcEnd.afterRead llu top n = .leaving true (.returned top) ↔
      ∃ res, callAndWaitRead C llu.messageType response top = .returned res := by
  unfold RpcEnd.afterRead callAndWaitRead
  split_ifs <;> simp

/-- A response object comes back only with a response that was decoded. -/
def ReturnsDecoded (C : Codec β) (messType : MessageType) (response : Option β)
    (top : LowlevelUnit) : Prop :=
  ∀ res, callAndWaitRead C messType response top = .returned (some res) → C.Parses top.response

theorem returnsDecoded_iff (C : Codec β) (messType : MessageType) (response : Option β)
    (top : LowlevelUnit) :
    ReturnsDecoded C messType response top ↔
      C.Parses top.response ∨ response = none ∨ top.error.code ≠ 0 ∨ top.messageType ≠ messType := by
  unfold ReturnsDecoded callAndWaitRead
  cases response with
  | none => split_ifs <;> simp
  | some old => split_ifs <;> simp [*]

/-- **Only decoded messages are delivered**, to the methods and to the callers, exactly when the bytes
parse or are not looked at: a request whose call is not resolved (a call that waits is then answered
with the exception, which is an error unless its code is zero), a response that the caller does not
want, or a unit that is no reply. -/
theorem only_decoded_delivered_iff (requests : String → String → Codec α) (responses : Codec β)
    (opts : SessionOptions) (depth : ℕ) (services : Services) (llu : LowlevelUnit)
    (messType : MessageType) (response : Option β) (top : LowlevelUnit) :
    (InvokedDecoded requests opts depth services llu ↔
      (requests llu.serviceId llu.methodId).Parses llu.request ∨
        ∃ ex, resolve opts depth services llu = .error ex ∧
          (llu.opt.wait = true → ex.code ≠ 0)) ∧
    (ReturnsDecoded responses messType response top ↔
      responses.Parses top.response ∨ response = none ∨ top.error.code ≠ 0 ∨
        top.messageType ≠ messType) :=
  ⟨invokedDecoded_iff requests opts depth services llu,
    returnsDecoded_iff responses messType response top⟩

/-- A codec of one byte that stands for itself. -/
def byteCodec : Codec UInt8 where
  serialize b := [b]
  parse
    | [b] => (true, b)
    | _ => (false, 0)

/-- A call with no request bytes, where the request type has one byte, is invoked with a message of
which nothing was read; and a reply without response bytes comes back as a response. -/
theorem undecoded_delivered :
    let llu : LowlevelUnit :=
      { id := 103, messageType := .clientCall, serviceId := "s", methodId := "m"
        opt := { wait := true } }
    let services : Services := fun _ => .ok (some (fun _ => true))
    makeLocalCallImpl (fun _ _ => byteCodec) .defaults 1 services llu = .ok 0 ∧
      ¬ byteCodec.Parses llu.request ∧
      ¬ InvokedDecoded (fun _ _ => byteCodec) .defaults 1 services llu ∧
      ¬ ReturnsDecoded byteCodec .clientCall (some 7) { id := 103, messageType := .clientCall } := by
  intro llu services
  refine ⟨rfl, by decide, ?_, ?_⟩
  · intro h
    have hparses := h.1 0 rfl
    revert hparses
    decide
  · intro h
    have hparses := h 0 rfl
    revert hparses
    decide

end Vtrc
