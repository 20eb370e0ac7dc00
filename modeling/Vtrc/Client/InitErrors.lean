import Vtrc.Client.Handshake
import Vtrc.Settle
import Vtrc.Wire

/-! # The errors of the client's handshake (`on_init_error`)

The client reports an initialisation error from two places: from the handler of a handshake
message, and from `check_disconnect_stage`, which the close of the connection calls while the
handshake is not `ready_`.  A handler that reports an error closes the connection itself, so both
places see the same failure; the second stays silent when the handler has changed the stage to
`STAGE_ERROR` before it closes, which the handlers of a bad hash and of a refusal at the last
stage do, and those of the first two stages do not.

`initMachine` runs the handshake with these closes: the handler one action at a time, the strand,
the reader, and at any moment a close by the application or by the other side.  A read that was
pending when the connection closed may still deliver its bytes.

* `Once` is the invariant: at most one error has been reported or is still to be reported by the
  running handler, and once there is one an open connection closes with `STAGE_ERROR`.
* `Final` says that nothing is reported after `ready_`.
* `init_error_once` puts them together. -/

namespace Vtrc.Client

open Endpoint

/-- `check_disconnect_stage`: what it reports. -/
def checkDisconnectStage : Stage → List (ErrorContainer × String)
  | .hello => [(createError .busy "", "Server in not ready")]
  | .setup => [(createError .invalidValue "", "Bad setup info.")]
  | .ready => [(createError .internal "", "Bad session key.")]
  | _ => []

/-- `close` of the handshake: what it reports. -/
def handshakeClose (e : Endpoint) : List (ErrorContainer × String) :=
  if !e.ready then checkDisconnectStage e.stage else []

/-- `transport_impl::close`: the first one calls `protocol_layer_c::close`, which calls the
`close` of the handshake. -/
def transportClose (e : Endpoint) : Endpoint :=
  if e.connClosed then e
  else { e with connClosed := true, errors := e.errors ++ handshakeClose e }

/-- `start_reading`; on a closed handle the read fails. -/
def startReading (e : Endpoint) : Endpoint := { e with reading := !e.connClosed }

/-- One action of a handler. -/
def exec (e : Endpoint) : Act → Endpoint
  | .connectionClose => startReading (transportClose e)
  | a => e.exec a

/-- The running handler goes on. -/
def act (e : Endpoint) : Option Endpoint :=
  match e.todo with
  | [] => none
  | a :: todo => some (exec { e with todo := todo } a)

/-- What happens at the client. -/
inductive InitEvent where
  | act
  | pack
  | written
  | recv (chunk : Bytes) (salts : Bytes × Bytes)
  | close

section
variable (sha256 : Bytes → Digest) (A : AuthCodecs) (unit : Codec LowlevelUnit) (base : Base)

/-- `read_handler`, with `process_data` under it.  An end that serves is `ready_`, so that the
close of a bad message reports nothing. -/
def recv (e : Endpoint) (chunk : Bytes) (salts : Bytes × Bytes) : Option Endpoint :=
  if e.reading && e.todo.isEmpty then
    match e.protocol.processData chunk with
    | (p, .raised _) => some { transportClose (e.setProtocol p) with reading := false }
    | (p, .idle) => some (startReading (e.setProtocol p))
    | (p, .stage) =>
        if e.serving then
          some (startReading (serve sha256 unit p.queueSize (e.setProtocol p)))
        else some (startReading (doHandshake sha256 (role A sha256 base) (e.setProtocol p) salts))
  else none

def step (e : Endpoint) : InitEvent → Option Endpoint
  | .act => act e
  | .pack => (e.pack sha256).map Prod.fst
  | .written => e.written
  | .recv chunk salts => recv sha256 A unit base e chunk salts
  -- a close in the middle of a handler finds no read pending
  | .close => some { transportClose e with reading := e.reading && e.todo.isEmpty }

/-- The client's end of a connection, against any server. -/
def initMachine : Machine Endpoint InitEvent where
  init := start
  step := step sha256 A unit base

/-- The message that `do_handshake` pops when `chunk` is read: nothing when it is not called,
`some none` for a bad hash. -/
def handed (e : Endpoint) (chunk : Bytes) : Option (Option Bytes) :=
  match e.protocol.processData chunk with
  | (p, .stage) => if e.serving then none else ((e.setProtocol p).popRaw sha256).map Prod.snd
  | _ => none

/-- The messages on which the handshake reports no second error: with a bad hash on an open
connection, at the first two stages a `ready` capsule, and at the last one a `ready` capsule, or
on an open connection a refusal. -/
def ReportsOnce (e : Endpoint) : Option Bytes → Prop
  | none => e.connClosed = false
  | some data =>
      (e.stage = .hello ∨ e.stage = .setup →
        (A.capsule.parse data).1 = true ∧ (A.capsule.parse data).2.ready = true) ∧
      (e.stage = .ready →
        (A.capsule.parse data).1 = true ∧
          ((A.capsule.parse data).2.ready = true ∨ e.connClosed = false))

instance (e : Endpoint) (res : Option Bytes) : Decidable (ReportsOnce A e res) :=
  match res with
  | none => inferInstanceAs (Decidable (e.connClosed = false))
  | some _ => inferInstanceAs (Decidable (_ ∧ _))

end

/-- Does the action report an error? -/
def reports : Act → Bool
  | .accessorError _ _ => true
  | _ => false

/-- Does the action mark the handshake as failed? -/
def marksFailed : Act → Bool
  | .changeStage .error => true
  | _ => false

/-- No step makes the client report an error twice: a message is one of `ReportsOnce`, and the
connection is not closed under a handler that is about to mark the handshake as failed. -/
def OnceEach (sha256 : Bytes → Digest) (A : AuthCodecs) (e : Endpoint) : InitEvent → Prop
  | .recv chunk _ => ∀ res ∈ handed sha256 e chunk, ReportsOnce A e res
  | .close => e.connClosed = true ∨ e.todo.any marksFailed = false
  | _ => True

instance (sha256 : Bytes → Digest) (A : AuthCodecs) (e : Endpoint) (ev : InitEvent) :
    Decidable (OnceEach sha256 A e ev) :=
  match ev with
  | .recv _ _ => inferInstanceAs (Decidable (∀ _ ∈ _, _))
  | .close => inferInstanceAs (Decidable (_ ∨ _))
  | .act | .pack | .written => inferInstanceAs (Decidable True)

/-! ### What a step can do -/

section
variable {sha256 : Bytes → Digest} {A : AuthCodecs} {unit : Codec LowlevelUnit} {base : Base}

theorem act_eq_some {e e' : Endpoint} (h : act e = some e') :
    ∃ a todo, e.todo = a :: todo ∧ e' = exec { e with todo := todo } a := by
  rw [act] at h
  split at h
  · cases h
  · rename_i a todo htodo
    exact ⟨a, todo, htodo, (Option.some.inj h).symm⟩

@[simp] theorem transportClose_todo (e : Endpoint) : (transportClose e).todo = e.todo := by
  unfold transportClose
  split_ifs <;> rfl

theorem exec_switch (e : Endpoint) :
    exec e .switchToReady = { e with serving := e.ready || e.serving } := exec_switchToReady e

theorem exec_accessor (e : Endpoint) :
    exec e .accessorReady = { e with layerReady := e.ready || e.layerReady } :=
  exec_accessorReady e

@[simp] theorem todo_exec (e : Endpoint) (a : Act) : (exec e a).todo = e.todo := by
  cases a with
  | connectionClose => exact transportClose_todo e
  | _ => exact exec_todo e _

/-- The fields that the reports and the closes depend on are the same. -/
structure Same (e e' : Endpoint) : Prop where
  stage : e'.stage = e.stage
  ready : e'.ready = e.ready
  serving : e'.serving = e.serving
  connClosed : e'.connClosed = e.connClosed
  todo : e'.todo = e.todo
  errors : e'.errors = e.errors

theorem same_pack {e e' : Endpoint} {bytes : Bytes} (h : e.pack sha256 = some (e', bytes)) :
    Same e e' := by
  obtain ⟨m, outbox, hout, hlen, _⟩ := pack_eq_some h
  rw [Endpoint.pack, hout] at h
  simp only [hlen, if_true] at h
  cases hc : m.closure with
  | setOptions =>
      rw [hc] at h
      obtain ⟨rfl, -⟩ := Prod.mk.inj (Option.some.inj h)
      exact ⟨rfl, rfl, rfl, rfl, rfl, rfl⟩
  | _ =>
      rw [hc] at h
      obtain ⟨rfl, -⟩ := Prod.mk.inj (Option.some.inj h)
      exact ⟨rfl, rfl, rfl, rfl, rfl, rfl⟩

theorem same_popRaw {e e' : Endpoint} {res : Option Bytes}
    (h : e.popRaw sha256 = some (e', res)) : Same e e' := by
  obtain ⟨p, -, rfl⟩ := popRaw_eq_some h
  exact ⟨rfl, rfl, rfl, rfl, rfl, rfl⟩

/-- A chunk is read in one of four ways: the parser raises, no message is complete, the messages
are served, or one message is handed to the handshake. -/
theorem recv_cases {e e' : Endpoint} {chunk : Bytes} {salts : Bytes × Bytes}
    (h : recv sha256 A unit base e chunk salts = some e') :
    e.todo = [] ∧
      ((∃ p err, e.protocol.processData chunk = (p, .raised err) ∧
          e' = { transportClose (e.setProtocol p) with reading := false }) ∨
        (∃ p, e.protocol.processData chunk = (p, .idle) ∧
          e' = startReading (e.setProtocol p)) ∨
        (∃ p, e.protocol.processData chunk = (p, .stage) ∧ e.serving = true ∧
          e' = startReading (serve sha256 unit p.queueSize (e.setProtocol p))) ∨
        (∃ p, e.protocol.processData chunk = (p, .stage) ∧ e.serving = false ∧
          e' = startReading (doHandshake sha256 (role A sha256 base) (e.setProtocol p) salts))) := by
  rw [recv] at h
  by_cases hcond : (e.reading && e.todo.isEmpty) = true
  swap
  · rw [if_neg hcond] at h
    cases h
  rw [if_pos hcond] at h
  simp only [Bool.and_eq_true, List.isEmpty_iff] at hcond
  refine ⟨hcond.2, ?_⟩
  split at h
  · rename_i p err hp
    exact .inl ⟨p, err, hp, (Option.some.inj h).symm⟩
  · rename_i p hp
    exact .inr (.inl ⟨p, hp, (Option.some.inj h).symm⟩)
  · rename_i p hp
    split_ifs at h with hserv
    · exact .inr (.inr (.inl ⟨p, hp, hserv, (Option.some.inj h).symm⟩))
    · exact .inr (.inr (.inr ⟨p, hp, by simpa using hserv, (Option.some.inj h).symm⟩))

/-! ### At most one error -/

/-- The handler closes the connection, and the stage is `STAGE_ERROR` when it does. -/
def ClosesFailed : Stage → List Act → Prop
  | _, [] => False
  | st, .connectionClose :: _ => st = .error
  | _, .changeStage st :: as => ClosesFailed st as
  | st, _ :: as => ClosesFailed st as

/-- An error that has been reported or is still to be reported is the only one, and an open
connection is about to be closed because of it. -/
structure Once (e : Endpoint) : Prop where
  total : e.errors.length + e.todo.countP reports ≤ 1
  closes : e.connClosed = false → 0 < e.errors.length + e.todo.countP reports →
    ClosesFailed e.stage e.todo

theorem Once.congr {e e' : Endpoint} (h : Once e) (hs : Same e e') : Once e' := by
  refine ⟨?_, ?_⟩
  · rw [hs.errors, hs.todo]
    exact h.total
  · rw [hs.errors, hs.todo, hs.stage, hs.connClosed]
    exact h.closes

/-- Between two handlers an open connection has reported nothing. -/
theorem Once.errors_eq_nil {e : Endpoint} (h : Once e) (htodo : e.todo = [])
    (hopen : e.connClosed = false) : e.errors = [] := by
  by_contra hne
  have hpos : 0 < e.errors.length := List.length_pos_of_ne_nil hne
  have := h.closes hopen (Nat.lt_of_lt_of_le hpos (Nat.le_add_right _ _))
  rw [htodo] at this
  exact this

/-- A handler that closes as failed has done so already, or is about to mark the stage. -/
theorem ClosesFailed.stage {st : Stage} {as : List Act} (h : ClosesFailed st as)
    (hmark : as.any marksFailed = false) : st = .error := by
  induction as generalizing st with
  | nil => exact h.elim
  | cons a as ih =>
      rw [List.any_cons, Bool.or_eq_false_iff] at hmark
      cases a with
      | connectionClose => exact h
      | changeStage st' =>
          have := ih h hmark.2
          rw [this] at hmark
          cases hmark.1
      | _ => exact ih h hmark.2

theorem handshakeClose_length (e : Endpoint) : (handshakeClose e).length ≤ 1 := by
  unfold handshakeClose checkDisconnectStage
  split_ifs
  · cases e.stage <;> decide
  · exact Nat.zero_le 1

theorem handshakeClose_of_error {e : Endpoint} (h : e.stage = .error) : handshakeClose e = [] := by
  rw [handshakeClose, h]
  exact ite_self _

theorem handshakeClose_of_ready {e : Endpoint} (h : e.ready = true) : handshakeClose e = [] := by
  rw [handshakeClose, h]
  rfl

/-- The close reports nothing when an error is there already, provided that the stage says so. -/
theorem once_transportClose {e : Endpoint}
    (htotal : e.errors.length + e.todo.countP reports ≤ 1)
    (hstage : e.connClosed = false →
      0 < e.errors.length + e.todo.countP reports → e.stage = .error) :
    Once (transportClose e) := by
  unfold transportClose
  split_ifs with hclosed
  · exact ⟨htotal, fun hopen => by rw [hclosed] at hopen; cases hopen⟩
  have hopen : e.connClosed = false := by simpa using hclosed
  refine ⟨?_, fun hc => by cases hc⟩
  simp only [List.length_append]
  rcases Nat.eq_zero_or_pos (e.errors.length + e.todo.countP reports) with hzero | hpos
  · have := handshakeClose_length e
    omega
  · rw [handshakeClose_of_error (hstage hopen hpos)]
    exact htotal

theorem same_startReading (e : Endpoint) : Same e (startReading e) :=
  ⟨rfl, rfl, rfl, rfl, rfl, rfl⟩

theorem Once.exec {e : Endpoint} {a : Act} {as : List Act} (h : Once e) (htodo : e.todo = a :: as) :
    Once (exec { e with todo := as } a) := by
  obtain ⟨htotal, hcloses⟩ := h
  rw [htodo] at htotal hcloses
  cases a with
  | connectionClose =>
      exact (once_transportClose htotal hcloses).congr (same_startReading _)
  | accessorError err message =>
      have hcount : (e.errors ++ [(err, message)]).length + as.countP reports =
          e.errors.length + (Act.accessorError err message :: as).countP reports := by
        rw [List.length_append, List.countP_cons_of_pos rfl]
        simp only [List.length_singleton]
        omega
      exact ⟨hcount.trans_le htotal, fun hopen hpos => hcloses hopen (hpos.trans_eq hcount)⟩
  | switchToReady =>
      rw [exec_switch]
      exact ⟨htotal, hcloses⟩
  | accessorReady =>
      rw [exec_accessor]
      exact ⟨htotal, hcloses⟩
  | _ => exact ⟨htotal, hcloses⟩

variable (sha256 base) in
/-- The handler of a message, when the message is one of `ReportsOnce`. -/
theorem stageCall_reports {e : Endpoint} {data : Bytes} (h : ReportsOnce A e (some data))
    (salts : Bytes × Bytes) :
    let as := (role A sha256 base).stageCall e salts data ++ [.switchToReady, .accessorReady]
    as.countP reports = 0 ∨
      e.connClosed = false ∧ as.countP reports = 1 ∧ ClosesFailed e.stage as := by
  obtain ⟨hfirst, hlast⟩ := h
  simp only [role]
  cases hst : e.stage with
  | hello =>
      obtain ⟨hparse, hready⟩ := hfirst (.inl hst)
      left
      simp only [onHelloCall, hparse, hready]
      rfl
  | setup =>
      obtain ⟨hparse, hready⟩ := hfirst (.inr hst)
      left
      simp only [onTransSetup, hparse, hready]
      rfl
  | ready =>
      obtain ⟨hparse, hor⟩ := hlast hst
      cases hready : (A.capsule.parse data).2.ready with
      | true =>
          left
          simp only [onServerReady, hparse, hready]
          rfl
      | false =>
          right
          refine ⟨hor.resolve_left (by rw [hready]; exact Bool.false_ne_true), ?_⟩
          simp only [onServerReady, hparse, hready]
          exact ⟨rfl, rfl⟩
  | clientSelection => exact .inl rfl
  | clientTransformer => exact .inl rfl
  | error => exact .inl rfl

theorem Once.doHandshake {e : Endpoint} (h : Once e) (htodo : e.todo = [])
    (hres : ∀ res ∈ (e.popRaw sha256).map Prod.snd, ReportsOnce A e res) (salts : Bytes × Bytes) :
    Once (doHandshake sha256 (role A sha256 base) e salts) := by
  rcases doHandshake_cases sha256 (role A sha256 base) e salts with
    ⟨hpop, heq⟩ | ⟨e', hpop, heq⟩ | ⟨e', data, hpop, heq⟩
  · rw [heq]
    exact h
  · rw [heq]
    have hs := same_popRaw hpop
    have hopen : e.connClosed = false := hres none (by rw [hpop]; rfl)
    have hnil := h.errors_eq_nil htodo hopen
    refine ⟨?_, fun _ _ => rfl⟩
    rw [hs.errors, hnil]
    exact Nat.le_refl 1
  · rw [heq]
    have hs := same_popRaw hpop
    have hok : ReportsOnce A e' (some data) := by
      have := hres (some data) (by rw [hpop]; rfl)
      simpa only [ReportsOnce, hs.stage, hs.connClosed] using this
    rcases stageCall_reports sha256 base hok salts with
      hnone | ⟨hopen, hone, hcloses⟩
    · have htotal := h.total
      rw [htodo] at htotal
      refine ⟨?_, fun hopen hpos => ?_⟩
      · rw [hs.errors, hnone]
        exact htotal
      · have hnil := h.errors_eq_nil htodo (hs.connClosed ▸ hopen)
        rw [hs.errors, hnil, hnone] at hpos
        cases hpos
    · have hnil := h.errors_eq_nil htodo (hs.connClosed ▸ hopen)
      refine ⟨?_, fun _ _ => hcloses⟩
      rw [hs.errors, hnil, hone]
      exact Nat.le_refl 1

theorem Once.serve {e : Endpoint} (h : Once e) (n : ℕ) : Once (serve sha256 unit n e) := by
  refine serve_inv sha256 unit (fun e e' res h hpop => h.congr (same_popRaw hpop)) ?_ ?_ n e h
  · exact fun e h => ⟨h.total, fun hopen => by cases hopen⟩
  · exact fun e llu h => h.congr ⟨rfl, rfl, rfl, rfl, rfl, rfl⟩

theorem handed_of_stage {e : Endpoint} {chunk : Bytes} {p : DefaultProtocol}
    (hp : e.protocol.processData chunk = (p, .stage)) (hserv : e.serving = false) :
    handed sha256 e chunk = ((e.setProtocol p).popRaw sha256).map Prod.snd := by
  rw [handed, hp]
  simp only [hserv, Bool.false_eq_true, if_false]

theorem Once.recv {e e' : Endpoint} {chunk : Bytes} {salts : Bytes × Bytes} (h : Once e)
    (hok : OnceEach sha256 A e (.recv chunk salts))
    (hrecv : recv sha256 A unit base e chunk salts = some e') : Once e' := by
  have hset (p : DefaultProtocol) : Once (e.setProtocol p) := h.congr ⟨rfl, rfl, rfl, rfl, rfl, rfl⟩
  obtain ⟨htodo, hcases⟩ := recv_cases hrecv
  rcases hcases with
    ⟨p, err, -, rfl⟩ | ⟨p, -, rfl⟩ | ⟨p, -, -, rfl⟩ | ⟨p, hp, hserv, rfl⟩
  · have hclose : Once (transportClose (e.setProtocol p)) := by
      refine once_transportClose h.total (fun hopen hpos => ?_)
      have := h.closes hopen hpos
      rw [htodo] at this
      exact this.elim
    exact hclose.congr ⟨rfl, rfl, rfl, rfl, rfl, rfl⟩
  · exact (hset p).congr (same_startReading _)
  · exact ((hset p).serve _).congr (same_startReading _)
  · refine Once.congr ?_ (same_startReading _)
    refine (hset p).doHandshake htodo (fun res hres => ?_) salts
    exact hok res (by rw [handed_of_stage hp hserv]; exact hres)

theorem Once.step {e e' : Endpoint} {ev : InitEvent} (h : Once e) (hok : OnceEach sha256 A e ev)
    (hstep : step sha256 A unit base e ev = some e') : Once e' := by
  cases ev with
  | act =>
      obtain ⟨a, todo, htodo, rfl⟩ := act_eq_some hstep
      exact h.exec htodo
  | pack =>
      obtain ⟨⟨e', bytes⟩, hpack, rfl⟩ := Option.map_eq_some_iff.mp hstep
      exact h.congr (same_pack hpack)
  | written =>
      obtain ⟨c, writing, -, rfl⟩ := written_eq_some hstep
      cases c with
      | closeClient => exact ⟨h.total, fun hopen => by cases hopen⟩
      | _ => exact h.congr ⟨rfl, rfl, rfl, rfl, rfl, rfl⟩
  | recv chunk salts => exact h.recv hok hstep
  | close =>
      obtain rfl := Option.some.inj hstep
      have hclose : Once (transportClose e) := by
        refine once_transportClose h.total (fun hopen hpos => ?_)
        have hmark := hok.resolve_left (by rw [hopen]; exact Bool.false_ne_true)
        exact (h.closes hopen hpos).stage hmark
      exact hclose.congr ⟨rfl, rfl, rfl, rfl, rfl, rfl⟩

/-! ### Nothing after `ready_` -/

/-- `ready_` is set when nothing is left to be reported, and before the switch to serving. -/
def ReadyLast : List Act → Prop
  | [] => True
  | .setReady :: as => (∀ a ∈ as, reports a = false) ∧ .switchToReady ∈ as ∧ ReadyLast as
  | _ :: as => ReadyLast as

/-- A `ready_` end has nothing to report and serves, or is about to.  The last three fields say
that the client never resets `ready_`: it writes nothing with `close_client`. -/
structure Final (e : Endpoint) : Prop where
  todo : ReadyLast e.todo
  ready : e.ready = true →
    (∀ a ∈ e.todo, reports a = false) ∧ (e.serving = true ∨ .switchToReady ∈ e.todo)
  writes : ∀ d, .write d .closeClient ∉ e.todo
  outbox : ∀ m ∈ e.outbox, m.closure ≠ .closeClient
  writing : .closeClient ∉ e.writing

/-- What a step of a `ready_` end keeps. -/
structure Stays (e e' : Endpoint) : Prop where
  ready : e.ready = true → e'.ready = true
  errors : e.ready = true → e'.errors = e.errors

theorem Same.stays {e e' : Endpoint} (h : Same e e') : Stays e e' :=
  ⟨fun hr => h.ready.trans hr, fun _ => h.errors⟩

theorem stays_transportClose (e : Endpoint) : Stays e (transportClose e) := by
  unfold transportClose
  split_ifs
  · exact ⟨fun hr => hr, fun _ => rfl⟩
  · refine ⟨fun hr => hr, fun hr => ?_⟩
    rw [handshakeClose_of_ready hr, List.append_nil]

theorem Final.congr {e e' : Endpoint} (h : Final e) (hs : Same e e') (hout : e'.outbox = e.outbox)
    (hwriting : e'.writing = e.writing) : Final e' := by
  refine ⟨?_, ?_, ?_, ?_, ?_⟩
  · rw [hs.todo]
    exact h.todo
  · rw [hs.todo, hs.ready, hs.serving]
    exact h.ready
  · rw [hs.todo]
    exact h.writes
  · rw [hout]
    exact h.outbox
  · rw [hwriting]
    exact h.writing

theorem Final.transportClose {e : Endpoint} (h : Final e) : Final (transportClose e) := by
  unfold Client.transportClose
  split_ifs
  · exact h
  · exact ⟨h.todo, h.ready, h.writes, h.outbox, h.writing⟩

theorem ReadyLast.tail {a : Act} {as : List Act} (h : ReadyLast (a :: as)) : ReadyLast as := by
  cases a with
  | setReady => exact h.2.2
  | _ => exact h

theorem Final.exec {e : Endpoint} {a : Act} {as : List Act} (h : Final e)
    (htodo : e.todo = a :: as) :
    Final (exec { e with todo := as } a) ∧ Stays e (exec { e with todo := as } a) := by
  obtain ⟨hlast, hready, hwrites, hout, hwriting⟩ := h
  rw [htodo] at hlast hready hwrites
  have hwrites' : ∀ d, Act.write d .closeClient ∉ as := fun d hd =>
    hwrites d (List.mem_cons_of_mem a hd)
  have hrest (hne : a ≠ .switchToReady) : e.ready = true →
      (∀ b ∈ as, reports b = false) ∧ (e.serving = true ∨ .switchToReady ∈ as) := by
    intro hr
    obtain ⟨hquiet, hserv⟩ := hready hr
    refine ⟨fun b hb => hquiet b (List.mem_cons_of_mem a hb), hserv.imp id (fun hmem => ?_)⟩
    exact (List.mem_cons.mp hmem).resolve_left (fun heq => hne heq.symm)
  cases a with
  | connectionClose =>
      have hbase : Final { e with todo := as } :=
        ⟨hlast.tail, hrest (by simp), hwrites', hout, hwriting⟩
      have hstays := stays_transportClose { e with todo := as }
      exact ⟨hbase.transportClose.congr (same_startReading _) rfl rfl,
        ⟨hstays.ready, hstays.errors⟩⟩
  | setReady =>
      exact ⟨⟨hlast.tail, fun _ => ⟨hlast.1, .inr hlast.2.1⟩, hwrites', hout, hwriting⟩,
        fun _ => rfl, fun _ => rfl⟩
  | switchToReady =>
      rw [exec_switch]
      refine ⟨⟨hlast.tail, fun hr => ⟨fun b hb => (hready hr).1 b (List.mem_cons_of_mem _ hb),
        .inl ?_⟩, hwrites', hout, hwriting⟩, fun hr => hr, fun _ => rfl⟩
      have hr : e.ready = true := hr
      exact (congrArg (· || e.serving) hr).trans (Bool.true_or _)
  | accessorReady =>
      rw [exec_accessor]
      exact ⟨⟨hlast.tail, hrest (by simp), hwrites', hout, hwriting⟩, fun hr => hr, fun _ => rfl⟩
  | accessorError err message =>
      refine ⟨⟨hlast.tail, hrest (by simp), hwrites', hout, hwriting⟩, fun hr => hr, fun hr => ?_⟩
      cases (hready hr).1 _ List.mem_cons_self
  | write d c =>
      refine ⟨⟨hlast.tail, hrest (by simp), hwrites', ?_, hwriting⟩, fun hr => hr, fun _ => rfl⟩
      intro m hm
      rcases List.mem_append.mp hm with hm | hm
      · exact hout m hm
      · rw [List.mem_singleton.mp hm]
        intro hc
        exact hwrites d (hc ▸ List.mem_cons_self)
  | _ => exact ⟨⟨hlast.tail, hrest (by simp), hwrites', hout, hwriting⟩, fun hr => hr, fun _ => rfl⟩

theorem Final.pack {e e' : Endpoint} {bytes : Bytes} (h : Final e)
    (hpack : e.pack sha256 = some (e', bytes)) : Final e' := by
  have hs := same_pack hpack
  obtain ⟨m, outbox, hout, hlen⟩ := pack_cases hpack
  have hm := h.outbox m (by rw [hout]; exact List.mem_cons_self)
  have hrest : ∀ m' ∈ outbox, m'.closure ≠ .closeClient := fun m' hm' =>
    h.outbox m' (by rw [hout]; exact List.mem_cons_of_mem m hm')
  rw [pack_of_outbox e m outbox hout hlen] at hpack
  obtain ⟨rfl, -⟩ := Prod.mk.inj (Option.some.inj hpack)
  split_ifs with hsend
  · refine ⟨h.todo, h.ready, h.writes, hrest, fun hmem => ?_⟩
    rcases List.mem_append.mp hmem with hmem | hmem
    · exact h.writing hmem
    · exact hm (List.mem_singleton.mp hmem).symm
  · exact ⟨h.todo, h.ready, h.writes, hrest, h.writing⟩

variable (sha256 A base) in
theorem readyLast_stageCall (e : Endpoint) (salts : Bytes × Bytes) (data : Bytes) :
    let as := (role A sha256 base).stageCall e salts data ++ [.switchToReady, .accessorReady]
    ReadyLast as ∧ ∀ d, .write d .closeClient ∉ as := by
  simp only [role]
  cases e.stage with
  | hello =>
      simp only [onHelloCall]
      split_ifs <;> simp [ReadyLast, errorAndClose, close]
  | setup =>
      simp only [onTransSetup]
      split_ifs <;> simp [ReadyLast, errorAndClose, close, sendProtoMessage]
  | ready =>
      simp only [onServerReady]
      split_ifs <;> simp [ReadyLast, errorAndClose, close, reports]
  | _ => simp [ReadyLast]

variable (sha256 unit) in
theorem Final.serve {e : Endpoint} (h : Final e) (n : ℕ) :
    Final (serve sha256 unit n e) ∧ Stays e (serve sha256 unit n e) := by
  have hinv := serve_inv sha256 unit
    (I := fun x => Final x ∧ x.ready = e.ready ∧ x.errors = e.errors) ?_ ?_ ?_ n e ⟨h, rfl, rfl⟩
  · exact ⟨hinv.1, fun hr => hinv.2.1.trans hr, fun _ => hinv.2.2⟩
  · rintro x x' res ⟨hx, hready, herrors⟩ hpop
    have hs := same_popRaw hpop
    obtain ⟨p, -, rfl⟩ := popRaw_eq_some hpop
    exact ⟨hx.congr hs rfl rfl, hready, herrors⟩
  · rintro x ⟨hx, hready, herrors⟩
    exact ⟨⟨hx.todo, hx.ready, hx.writes, hx.outbox, hx.writing⟩, hready, herrors⟩
  · rintro x llu ⟨hx, hready, herrors⟩
    exact ⟨hx.congr ⟨rfl, rfl, rfl, rfl, rfl, rfl⟩ rfl rfl, hready, herrors⟩

/-- A message is handed to the handshake only while the end is not `ready_`. -/
theorem Final.doHandshake {e : Endpoint} (h : Final e) (hready : e.ready = false)
    (salts : Bytes × Bytes) : Final (doHandshake sha256 (role A sha256 base) e salts) := by
  rcases doHandshake_cases sha256 (role A sha256 base) e salts with
    ⟨-, heq⟩ | ⟨e', hpop, heq⟩ | ⟨e', data, hpop, heq⟩
  · rw [heq]
    exact h
  · rw [heq]
    obtain ⟨p, -, rfl⟩ := popRaw_eq_some hpop
    refine ⟨trivial, fun hr => ?_, by simp [role, errorAndClose, close], h.outbox, h.writing⟩
    cases hready.symm.trans hr
  · rw [heq]
    obtain ⟨hlast, hwrites⟩ := readyLast_stageCall sha256 A base e' salts data
    obtain ⟨p, -, rfl⟩ := popRaw_eq_some hpop
    refine ⟨hlast, fun hr => ?_, hwrites, h.outbox, h.writing⟩
    cases hready.symm.trans hr

theorem Final.recv {e e' : Endpoint} {chunk : Bytes} {salts : Bytes × Bytes} (h : Final e)
    (hrecv : recv sha256 A unit base e chunk salts = some e') : Final e' ∧ Stays e e' := by
  have hset (p : DefaultProtocol) : Final (e.setProtocol p) :=
    h.congr ⟨rfl, rfl, rfl, rfl, rfl, rfl⟩ rfl rfl
  obtain ⟨htodo, hcases⟩ := recv_cases hrecv
  rcases hcases with
    ⟨p, err, -, rfl⟩ | ⟨p, -, rfl⟩ | ⟨p, -, -, rfl⟩ | ⟨p, hp, hserv, rfl⟩
  · have hstays := stays_transportClose (e.setProtocol p)
    exact ⟨(hset p).transportClose.congr ⟨rfl, rfl, rfl, rfl, rfl, rfl⟩ rfl rfl,
      hstays.ready, hstays.errors⟩
  · exact ⟨(hset p).congr (same_startReading _) rfl rfl, fun hr => hr, fun _ => rfl⟩
  · obtain ⟨hfinal, hstays⟩ := (hset p).serve sha256 unit p.queueSize
    exact ⟨hfinal.congr (same_startReading _) rfl rfl, hstays.ready, hstays.errors⟩
  · have hready : e.ready = false := by
      by_contra hr
      rcases (h.ready (by simpa using hr)).2 with hs | hmem
      · cases hserv.symm.trans hs
      · rw [htodo] at hmem
        cases hmem
    have hne : e.ready ≠ true := by rw [hready]; exact Bool.false_ne_true
    exact ⟨((hset p).doHandshake hready salts).congr (same_startReading _) rfl rfl,
      fun hr => (hne hr).elim, fun hr => (hne hr).elim⟩

theorem Final.step {e e' : Endpoint} {ev : InitEvent} (h : Final e)
    (hstep : step sha256 A unit base e ev = some e') : Final e' ∧ Stays e e' := by
  cases ev with
  | act =>
      obtain ⟨a, todo, htodo, rfl⟩ := act_eq_some hstep
      exact h.exec htodo
  | pack =>
      obtain ⟨⟨e', bytes⟩, hpack, rfl⟩ := Option.map_eq_some_iff.mp hstep
      exact ⟨h.pack hpack, (same_pack hpack).stays⟩
  | written =>
      obtain ⟨c, writing, hw, rfl⟩ := written_eq_some hstep
      have hwriting : .closeClient ∉ writing := fun hc =>
        h.writing (by rw [hw]; exact List.mem_cons_of_mem c hc)
      cases c with
      | closeClient => exact (h.writing (by rw [hw]; exact List.mem_cons_self)).elim
      | _ =>
          exact ⟨⟨h.todo, h.ready, h.writes, h.outbox, hwriting⟩, fun hr => hr, fun _ => rfl⟩
  | recv chunk salts => exact h.recv hstep
  | close =>
      obtain rfl := Option.some.inj hstep
      have hstays := stays_transportClose e
      exact ⟨h.transportClose.congr ⟨rfl, rfl, rfl, rfl, rfl, rfl⟩ rfl rfl,
        hstays.ready, hstays.errors⟩

theorem final_start : Final start where
  todo := trivial
  ready := fun hr => by cases hr
  writes := fun _ => List.not_mem_nil
  outbox := fun _ hm => by cases hm
  writing := List.not_mem_nil

theorem Final.run {es : List InitEvent} {e e' : Endpoint} (h : Final e) (hready : e.ready = true)
    (hrun : (initMachine sha256 A unit base).runFrom e es = some e') : e'.errors = e.errors := by
  have hinv := (initMachine sha256 A unit base).runFrom_inv
    (I := fun x => Final x ∧ x.ready = true ∧ x.errors = e.errors) ?_ ⟨h, hready, rfl⟩ hrun
  · exact hinv.2.2
  · rintro x ev x' ⟨hx, hr, herrors⟩ hstep
    obtain ⟨hx', hstays⟩ := hx.step hstep
    exact ⟨hx', hstays.ready hr, (hstays.errors hr).trans herrors⟩

end

/-- **One initialisation error for a connection.**  In every run each of whose steps meets
`OnceEach` the client reports at most one error; and in every run, whatever happens after
`ready_`, it reports none. -/
theorem init_error_once (sha256 : Bytes → Digest) (A : AuthCodecs) (unit : Codec LowlevelUnit)
    (base : Base) (es : List InitEvent) (e : Endpoint)
    (hrun : (initMachine sha256 A unit base).run es = some e) :
    ((initMachine sha256 A unit base).Meets (OnceEach sha256 A) start es → e.errors.length ≤ 1) ∧
      ∀ fs e', e.ready = true → (initMachine sha256 A unit base).runFrom e fs = some e' →
        e'.errors = e.errors := by
  constructor
  · intro hmeets
    have hstart : Once start := ⟨Nat.zero_le 1, fun _ h => by cases h⟩
    have honce : Once e := (initMachine sha256 A unit base).inv_of_meets
      (fun _ _ _ hi hc hs => hi.step hc hs) hstart hmeets hrun
    exact (Nat.le_add_right _ _).trans honce.total
  · intro fs e' hready hfs
    have hfinal : Final e := (initMachine sha256 A unit base).runFrom_inv
      (fun _ _ _ hi hs => (hi.step hs).1) final_start hrun
    exact hfinal.run hready hfs

/-- A bad hash at the last stage, and the application closes the connection under its handler:
one error. -/
theorem init_error_once_badHash :
    let M := initMachine (fun _ => ⟨List.replicate 32 0, rfl⟩) .sample
      ⟨fun _ => [], fun _ => (false, {})⟩ ⟨none, []⟩
    ∃ e, M.run [.recv [0x02, 0x10, 0x01] ([], []), .act, .act, .act, .act, .act,
        .recv [0x04, 1, 0, 0, 0] ([], []), .act, .close, .act, .act, .act] = some e ∧
      e.errors ≠ [] ∧ e.errors.length ≤ 1 := by
  intro M
  obtain ⟨e, he, herrors⟩ := M.exists_run
    [.recv [0x02, 0x10, 0x01] ([], []), .act, .act, .act, .act, .act,
      .recv [0x04, 1, 0, 0, 0] ([], []), .act, .close, .act, .act, .act]
    (fun e => e.errors ≠ []) (by decide +kernel)
  exact ⟨e, he, herrors, (init_error_once _ _ _ _ _ e he).1 (by decide +kernel)⟩

/-- A server that is not ready at the hello: the client reports its refusal, closes at
`STAGE_HELLO`, and reports a second error. -/
theorem init_error_twice :
    let M := initMachine (fun _ => ⟨List.replicate 32 0, rfl⟩) .sample
      ⟨fun _ => [], fun _ => (false, {})⟩ ⟨none, []⟩
    ∃ e, M.run [.recv [0x00] ([], []), .act, .act, .act] = some e ∧
      e.errors = [({}, "Server is not ready; stage: 'Hello'"),
        (createError .busy "", "Server in not ready")] := by
  intro M
  exact M.exists_run [.recv [0x00] ([], []), .act, .act, .act]
    (fun e => e.errors = [({}, "Server is not ready; stage: 'Hello'"),
      (createError .busy "", "Server in not ready")]) (by decide +kernel)

end Vtrc.Client
