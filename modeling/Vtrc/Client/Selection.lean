import Vtrc.Client.InitErrors

/-! # Selection and next stage of the client

`on_hello_call` decides twice what comes next: it selects `TRANSFORM_ERSEEFOR` when the client has
a session key and the server offers that transformer, and it goes to `STAGE_SETUP` when the client
has a session key.  A server that follows the contract of the handshake answers the selection, so
the two decisions have to agree.

A `ContractServer` offers any transformers and answers with its own salts and options;
`ServerMessage.sequence` is the order in which it sends its messages.  `Answers` is the condition
on the steps of the client that the messages it takes are those of such a server, whatever their
chunks, and `ReadsReply` what the client should then do.  `Conversation` describes the client of a
contract server when the two decisions agree, `misread` exhibits the run in which they do not. -/

namespace Vtrc.Client

open Endpoint DefaultProtocol Framing

/-- The messages of a server. -/
inductive ServerMessage where
  | hello
  | setup
  | session
deriving DecidableEq, Repr

/-- The stage whose handler reads the message: `on_hello_call`, `on_trans_setup` and
`on_server_ready`. -/
def ServerMessage.stage : ServerMessage → Stage
  | hello => .hello
  | setup => .setup
  | session => .ready

/-- The messages for a client that has not selected yet, or has selected that transformer. -/
def ServerMessage.sequence : Option UInt32 → List ServerMessage
  | none => [hello]
  | some t =>
      if t = transformErseefor then [hello, setup, session]
      else if t = transformNone then [hello, session]
      else [hello]

/-- A server that is ready for every client: what it offers and what it answers. -/
structure ContractServer where
  hashes : List UInt32
  offer : List UInt32
  salts : TransformerSetup
  opts : SessionOptions
  text : ServerMessage → String

section
variable (sha256 : Bytes → Digest) (A : AuthCodecs) (unit : Codec LowlevelUnit) (base : Base)
  (S : ContractServer)

namespace ContractServer

def body : ServerMessage → Bytes
  | .hello => A.initProtocol.serialize { hashSupported := S.hashes, transformSupported := S.offer }
  | .setup => A.setup.serialize S.salts
  | .session => A.session.serialize S.opts

def capsule (m : ServerMessage) : InitCapsule :=
  { text := S.text m, ready := true, body := S.body A m }

def payload (m : ServerMessage) : Bytes := A.capsule.serialize (S.capsule A m)

/-- The messages of the server fit the limit that the client has during the handshake. -/
def Fits : Prop := ∀ m, (S.payload A m).length + defaultHash.size ≤
  SessionOptions.defaults.maxMessageLength.toNat

end ContractServer

/-- The payloads that the client has written. -/
def written (e : Endpoint) : List Bytes := e.packs.map Packed.data ++ e.outbox.map Posted.data

/-- The transformer selected in the first of the payloads. -/
def selectedIn (ds : List Bytes) : Option UInt32 :=
  ds.head?.map (fun d => (A.selection.parse (A.capsule.parse d).2.body).2.transform)

/-- The selection of the client, once it is written. -/
def selected (e : Endpoint) : Option UInt32 := selectedIn A (written e)

/-- The next message of the server. -/
def nextMessage (e : Endpoint) : Option ServerMessage :=
  (ServerMessage.sequence (selected A e))[e.pops.length]?

/-- The message that the handshake takes is the next one of the server. -/
def Answers (e : Endpoint) : InitEvent → Prop
  | .recv chunk _ => ∀ res ∈ handed sha256 e chunk, ∀ m ∈ nextMessage A e,
      res = some (S.payload A m)
  | _ => True

instance (e : Endpoint) (ev : InitEvent) : Decidable (Answers sha256 A S e ev) :=
  match ev with
  | .recv _ _ => inferInstanceAs (Decidable (∀ _ ∈ _, ∀ _ ∈ _, _))
  | .act | .pack | .written | .close => inferInstanceAs (Decidable True)

/-- A cipher is installed. -/
def Ciphered (e : Endpoint) : Prop :=
  e.protocol.transformer ≠ .none ∨ e.protocol.revertor ≠ .none

/-- Every message is read by its handler, and a cipher is there only if it was selected. -/
structure ReadsReply (e : Endpoint) : Prop where
  reads : ∀ chunk salts m, (step sha256 A unit base e (.recv chunk salts)).isSome = true →
    nextMessage A e = some m → handed sha256 e chunk = some (some (S.payload A m)) →
    e.stage = m.stage
  ciphered : Ciphered e → selected A e = some transformErseefor

/-- What `on_hello_call` selects. -/
def choice : UInt32 :=
  if base.sessionKey.isSome && S.offer.contains transformErseefor then transformErseefor
  else transformNone

/-- Where `on_hello_call` goes. -/
def nextStage : Stage := if base.sessionKey.isSome then .setup else .ready

end

/-! ### A handler in the middle -/

/-- The payload that the action writes. -/
def writes : Act → Option Bytes
  | .write d _ => some d
  | _ => none

/-- The payloads that will be written when the running handler is done. -/
def posted (e : Endpoint) : List Bytes := written e ++ e.todo.filterMap writes

/-- The stage after the actions. -/
def stageAfter : Stage → List Act → Stage
  | st, [] => st
  | _, .changeStage st :: as => stageAfter st as
  | st, _ :: as => stageAfter st as

/-- Does the action install a cipher? -/
def installs : Act → Bool
  | .setTransformer _ => true
  | .setRevertor _ => true
  | _ => false

/-- The handshake is not about to be `ready_`. -/
structure Unready (e : Endpoint) : Prop where
  ready : e.ready = false
  serving : e.serving = false
  todo : .setReady ∉ e.todo

/-- The client of a contract server, by the messages it has taken. -/
inductive Conversation (A : AuthCodecs) (base : Base) (S : ContractServer) (e : Endpoint) : Prop
  | hello (unready : Unready e) (pops : e.pops = []) (todo : e.todo = []) (written : written e = [])
      (stage : e.stage = .hello)
  | selected (unready : Unready e) (pops : e.pops.length = 1)
      (selected : selectedIn A (posted e) = some (choice base S))
      (stage : stageAfter e.stage e.todo = nextStage base)
  | keyed (unready : Unready e) (key : base.sessionKey.isSome = true) (pops : e.pops.length = 2)
      (selected : selected A e = some (choice base S)) (stage : stageAfter e.stage e.todo = .ready)
  | done (pops : (ServerMessage.sequence (some (choice base S))).length ≤ e.pops.length)
      (selected : selected A e = some (choice base S))

/-- Ciphers are for a client with a session key, and not before its second message. -/
structure Keyed (base : Base) (e : Endpoint) : Prop where
  key : e.stage = .setup ∨ .changeStage .setup ∈ e.todo ∨ Ciphered e ∨
    e.todo.any installs = true → base.sessionKey.isSome = true
  pops : Ciphered e ∨ e.todo.any installs = true → 2 ≤ e.pops.length

section
variable {sha256 : Bytes → Digest} {A : AuthCodecs} {unit : Codec LowlevelUnit} {base : Base}
  {S : ContractServer}

theorem transform_eq_none {t : Transformer} {data : Bytes} :
    (t.transform data).1 = .none ↔ t = .none := by
  cases t <;> simp [Transformer.transform]

/-- The fields that the handshake with a contract server depends on are the same. -/
structure SameView (e e' : Endpoint) : Prop where
  stage : e'.stage = e.stage
  ready : e'.ready = true → e.ready = true
  serving : e'.serving = e.serving
  todo : e'.todo = e.todo
  pops : e'.pops = e.pops
  written : written e' = written e
  ciphered : Ciphered e' ↔ Ciphered e

theorem SameView.selected {e e' : Endpoint} (h : SameView e e') : selected A e' = selected A e := by
  rw [Client.selected, h.written, Client.selected]

theorem SameView.unready {e e' : Endpoint} (h : SameView e e') (hu : Unready e) : Unready e' := by
  refine ⟨?_, h.serving.trans hu.serving, h.todo ▸ hu.todo⟩
  by_contra hne
  have := h.ready (by simpa using hne)
  rw [hu.ready] at this
  cases this

theorem Conversation.congr {e e' : Endpoint} (h : Conversation A base S e) (hs : SameView e e') :
    Conversation A base S e' := by
  cases h with
  | hello unready pops todo written stage =>
      exact .hello (hs.unready unready) (hs.pops.trans pops) (hs.todo.trans todo)
        (hs.written.trans written) (hs.stage.trans stage)
  | selected unready pops selected stage =>
      refine .selected (hs.unready unready) (by rw [hs.pops, pops]) ?_ ?_
      · rw [posted, hs.written, hs.todo]
        exact selected
      · rw [hs.stage, hs.todo]
        exact stage
  | keyed unready key pops selected stage =>
      refine .keyed (hs.unready unready) key (by rw [hs.pops, pops]) (hs.selected.trans selected) ?_
      rw [hs.stage, hs.todo]
      exact stage
  | done pops selected =>
      exact .done (by rw [hs.pops]; exact pops) (hs.selected.trans selected)

theorem Keyed.congr {e e' : Endpoint} (h : Keyed base e) (hs : SameView e e') : Keyed base e' := by
  refine ⟨?_, ?_⟩
  · rw [hs.stage, hs.todo, hs.ciphered]
    exact h.key
  · rw [hs.todo, hs.ciphered, hs.pops]
    exact h.pops

theorem SameView.refl (e : Endpoint) : SameView e e := ⟨rfl, id, rfl, rfl, rfl, rfl, Iff.rfl⟩

theorem sameView_transportClose (e : Endpoint) : SameView e (transportClose e) := by
  unfold transportClose
  split_ifs
  · exact .refl e
  · exact ⟨rfl, id, rfl, rfl, rfl, rfl, Iff.rfl⟩

theorem sameView_reading (e : Endpoint) (r : Bool) : SameView e { e with reading := r } :=
  ⟨rfl, id, rfl, rfl, rfl, rfl, Iff.rfl⟩

theorem sameView_runClosure (e : Endpoint) (c : Closure) : SameView e (e.runClosure c) := by
  cases c with
  | closeClient =>
      exact ⟨rfl, fun hr => (Bool.false_ne_true hr).elim, rfl, rfl, rfl, rfl, Iff.rfl⟩
  | _ => exact ⟨rfl, id, rfl, rfl, rfl, rfl, Iff.rfl⟩

theorem sameView_pack {e e' : Endpoint} {bytes : Bytes} (h : e.pack sha256 = some (e', bytes)) :
    SameView e e' := by
  obtain ⟨m, outbox, hout, hlen⟩ := pack_cases h
  rw [pack_of_outbox e m outbox hout hlen] at h
  obtain ⟨rfl, -⟩ := Prod.mk.inj (Option.some.inj h)
  have hwritten : (e.packs ++ [(⟨e.protocol.hashMaker, e.protocol.transformer, m.data⟩ : Packed)]).map
      Packed.data ++ outbox.map Posted.data = written e := by
    rw [written, hout, List.map_append, List.append_assoc]
    rfl
  have hciphered : (e.protocol.packMessage sha256 m.data).1.transformer ≠ .none ∨
      (e.protocol.packMessage sha256 m.data).1.revertor ≠ .none ↔ Ciphered e :=
    or_congr (not_congr transform_eq_none) Iff.rfl
  split_ifs <;> exact ⟨rfl, id, rfl, rfl, rfl, hwritten, hciphered⟩

theorem sameView_popRaw {e e' : Endpoint} {res : Option Bytes}
    (h : e.popRaw sha256 = some (e', res)) :
    SameView { e with pops := e'.pops } e' ∧ e'.pops.length = e.pops.length + 1 := by
  obtain ⟨p, hp, rfl⟩ := popRaw_eq_some h
  refine ⟨⟨rfl, id, rfl, rfl, rfl, rfl, ?_⟩, List.length_append⟩
  rw [popRawMessage] at hp
  split at hp
  · cases hp
  · have hp : ∃ data, p = e.protocol.popFront (e.protocol.revertor.transform data).1 := by
      simp only at hp
      split_ifs at hp <;> exact ⟨_, (Prod.mk.inj (Option.some.inj hp)).1.symm⟩
    obtain ⟨data, rfl⟩ := hp
    exact or_congr Iff.rfl (not_congr transform_eq_none)

/-! ### The steps -/

/-- What an action of a handler does to what will have been done when the handler is finished. -/
structure Runs (e e' : Endpoint) : Prop where
  posted : posted e' = posted e
  written : written e <+: written e'
  pops : e'.pops = e.pops
  stage : stageAfter e'.stage e'.todo = stageAfter e.stage e.todo
  unready : Unready e → Unready e'

theorem Unready.tail {e : Endpoint} {a : Act} {as : List Act} (h : Unready e)
    (htodo : e.todo = a :: as) : .setReady ∉ as := fun hmem =>
  h.todo (by rw [htodo]; exact List.mem_cons_of_mem a hmem)

theorem runs_tail {e : Endpoint} {a : Act} {as : List Act} (htodo : e.todo = a :: as)
    (hwrites : writes a = none) (hstage : ∀ st, a ≠ .changeStage st) :
    Runs e { e with todo := as } := by
  refine ⟨?_, List.prefix_refl _, rfl, ?_, fun hu => ⟨hu.ready, hu.serving, hu.tail htodo⟩⟩
  · rw [posted, posted, htodo, List.filterMap_cons_none hwrites]
    rfl
  · rw [htodo]
    cases a with
    | changeStage st => exact (hstage st rfl).elim
    | _ => rfl

theorem Runs.congr {e e₁ e₂ : Endpoint} (h : Runs e e₁) (hs : SameView e₁ e₂) : Runs e e₂ where
  posted := by rw [← h.posted, Client.posted, Client.posted, hs.written, hs.todo]
  written := hs.written ▸ h.written
  pops := hs.pops.trans h.pops
  stage := by rw [hs.stage, hs.todo, h.stage]
  unready := fun hu => hs.unready (h.unready hu)

theorem runs_exec {e : Endpoint} {a : Act} {as : List Act} (htodo : e.todo = a :: as) :
    Runs e (exec { e with todo := as } a) := by
  cases a with
  | connectionClose =>
      exact ((runs_tail htodo rfl (by simp)).congr (sameView_transportClose _)).congr
        (sameView_reading _ _)
  | changeStage st =>
      refine ⟨?_, List.prefix_refl _, rfl, ?_, fun hu => ⟨hu.ready, hu.serving, hu.tail htodo⟩⟩
      · rw [posted, posted, htodo]
        rfl
      · rw [htodo]
        rfl
  | write d c =>
      refine ⟨?_, ?_, rfl, ?_, fun hu => ⟨hu.ready, hu.serving, hu.tail htodo⟩⟩
      · rw [posted, posted, htodo, written, written]
        simp [Client.exec, Endpoint.exec, writes]
      · refine ⟨[d], ?_⟩
        rw [written, written]
        simp [Client.exec, Endpoint.exec]
      · rw [htodo]
        rfl
  | switchToReady =>
      have h := runs_tail htodo rfl (by simp)
      rw [exec_switch]
      refine ⟨h.posted, h.written, rfl, h.stage, fun hu => ?_⟩
      have hu' := h.unready hu
      exact ⟨hu'.ready, by simp [hu.ready, hu.serving], hu'.todo⟩
  | accessorReady =>
      have h := runs_tail htodo rfl (by simp)
      rw [exec_accessor]
      exact h.congr ⟨rfl, id, rfl, rfl, rfl, rfl, Iff.rfl⟩
  | setReady =>
      have h := runs_tail htodo rfl (by simp)
      refine ⟨h.posted, h.written, rfl, h.stage, fun hu => ?_⟩
      exact (hu.todo (by rw [htodo]; exact List.mem_cons_self)).elim
  | _ =>
      have h := runs_tail htodo rfl (by simp)
      exact ⟨h.posted, h.written, rfl, h.stage,
        fun hu => ⟨hu.ready, hu.serving, hu.tail htodo⟩⟩

theorem selectedIn_mono {ds ds' : List Bytes} (h : ds <+: ds') {t : UInt32}
    (hs : selectedIn A ds = some t) : selectedIn A ds' = some t := by
  obtain ⟨more, rfl⟩ := h
  cases ds with
  | nil => cases hs
  | cons d ds => exact hs

theorem Conversation.act {e : Endpoint} {a : Act} {as : List Act} (h : Conversation A base S e)
    (htodo : e.todo = a :: as) : Conversation A base S (exec { e with todo := as } a) := by
  have hr := runs_exec htodo
  cases h with
  | hello unready pops todo written stage =>
      rw [htodo] at todo
      cases todo
  | selected unready pops selected stage =>
      exact .selected (hr.unready unready) (by rw [hr.pops, pops]) (by rw [hr.posted, selected])
        (by rw [hr.stage, stage])
  | keyed unready key pops selected stage =>
      exact .keyed (hr.unready unready) key (by rw [hr.pops, pops])
        (selectedIn_mono hr.written selected) (by rw [hr.stage, stage])
  | done pops selected =>
      exact .done (by rw [hr.pops]; exact pops) (selectedIn_mono hr.written selected)

/-- Where a stage and a cipher come from. -/
theorem exec_installs {e : Endpoint} {a : Act} {as : List Act} (htodo : e.todo = a :: as) :
    ((exec { e with todo := as } a).stage = .setup →
        e.stage = .setup ∨ .changeStage .setup ∈ e.todo) ∧
      (Ciphered (exec { e with todo := as } a) → Ciphered e ∨ e.todo.any installs = true) := by
  rw [htodo]
  cases a with
  | connectionClose =>
      have hs := sameView_transportClose { e with todo := as }
      exact ⟨fun h => .inl (hs.stage ▸ h), fun h => .inl (hs.ciphered.mp h)⟩
  | changeStage st =>
      refine ⟨fun h => .inr ?_, .inl⟩
      have h : st = .setup := h
      rw [h]
      exact List.mem_cons_self
  | setTransformer t => exact ⟨.inl, fun _ => .inr rfl⟩
  | setRevertor t => exact ⟨.inl, fun _ => .inr rfl⟩
  | switchToReady =>
      rw [exec_switch]
      exact ⟨.inl, .inl⟩
  | accessorReady =>
      rw [exec_accessor]
      exact ⟨.inl, .inl⟩
  | _ => exact ⟨.inl, .inl⟩

theorem Keyed.act {e : Endpoint} {a : Act} {as : List Act} (h : Keyed base e)
    (htodo : e.todo = a :: as) : Keyed base (exec { e with todo := as } a) := by
  have hr := runs_exec htodo
  obtain ⟨hstage, hcipher⟩ := exec_installs htodo
  have has : (exec { e with todo := as } a).todo = as := todo_exec { e with todo := as } a
  have htail : as.any installs = true → e.todo.any installs = true := by
    intro hany
    rw [htodo, List.any_cons, hany, Bool.or_true]
  refine ⟨?_, ?_⟩
  · rw [has]
    rintro (hst | hst | hci | hany)
    · exact h.key ((hstage hst).imp id .inl)
    · exact h.key (.inr (.inl (by rw [htodo]; exact List.mem_cons_of_mem a hst)))
    · exact h.key (.inr (.inr (hcipher hci)))
    · exact h.key (.inr (.inr (.inr (htail hany))))
  · rw [has, hr.pops]
    rintro (hci | hany)
    · exact h.pops (hcipher hci)
    · exact h.pops (.inr (htail hany))

/-! ### The handlers of the three messages -/

theorem parse_payload (hA : A.Lawful) (m : ServerMessage) :
    A.capsule.parse (S.payload A m) = (true, S.capsule A m) := hA.capsule _

variable (sha256 base S) in
theorem stageCall_hello (hA : A.Lawful) {e : Endpoint} (hst : e.stage = .hello)
    (salts : Bytes × Bytes) :
    ∃ d, selectedIn A [d] = some (choice base S) ∧
      (role A sha256 base).stageCall e salts (S.payload A .hello) =
        [.setHashChecker defaultHash, .changeStage (nextStage base), .write d .setOptions] := by
  have hoffer : serverHasTransformer A (S.capsule A .hello) transformErseefor =
      S.offer.contains transformErseefor := by
    rw [serverHasTransformer, ContractServer.capsule, ContractServer.body, hA.initProtocol]
  simp only [role, hst, onHelloCall, parse_payload hA, hoffer]
  refine ⟨_, ?_, rfl⟩
  simp only [selectedIn, List.head?_cons, Option.map_some, hA.capsule _, hA.selection _, choice]
  split_ifs <;> rfl

variable (sha256 base S) in
theorem stageCall_setup (hA : A.Lawful) {e : Endpoint} (hst : e.stage = .setup)
    (salts : Bytes × Bytes) :
    ∃ t r d, (role A sha256 base).stageCall e salts (S.payload A .setup) =
      [.setTransformer t, .setRevertor r, .changeStage .ready, .write d .default] := by
  simp only [role, hst, onTransSetup, parse_payload hA]
  exact ⟨_, _, _, rfl⟩

variable (sha256 A base) in
/-- Only the hello leads to the setup, and only for a client with a key; only the setup installs
ciphers. -/
theorem stageCall_keyed (e : Endpoint) (salts : Bytes × Bytes) (data : Bytes) :
    let as := (role A sha256 base).stageCall e salts data ++ [.switchToReady, .accessorReady]
    (.changeStage .setup ∈ as → base.sessionKey.isSome = true) ∧
      (as.any installs = true → e.stage = .setup) := by
  simp only [role]
  cases hst : e.stage with
  | hello =>
      simp only [onHelloCall]
      cases hs : base.sessionKey.isSome with
      | true => split_ifs <;> simp [installs, errorAndClose, close]
      | false =>
          simp only [Bool.false_and, Bool.false_eq_true, if_false]
          split_ifs <;> simp [installs, errorAndClose, close]
  | setup =>
      simp only [onTransSetup]
      split_ifs <;> simp [installs, errorAndClose, close, sendProtoMessage]
  | ready =>
      simp only [onServerReady]
      split_ifs <;> simp [installs, errorAndClose, close]
  | _ => simp [installs]

/-! ### The client of a contract server -/

theorem choice_eq (hkey : base.sessionKey.isSome = true → transformErseefor ∈ S.offer) :
    choice base S = if base.sessionKey.isSome then transformErseefor else transformNone := by
  rw [choice]
  cases hs : base.sessionKey.isSome with
  | true => simp [hkey hs]
  | false => rfl

/-- The next message, and the stage that waits for it between two handlers. -/
theorem Conversation.reads {e : Endpoint} (h : Conversation A base S e) (htodo : e.todo = [])
    (hkey : base.sessionKey.isSome = true → transformErseefor ∈ S.offer) {m : ServerMessage}
    (hnext : nextMessage A e = some m) : e.stage = m.stage := by
  have hchoice := choice_eq hkey
  rw [nextMessage] at hnext
  cases h with
  | hello unready pops todo written stage =>
      rw [Client.selected, written, pops] at hnext
      obtain rfl := Option.some.inj hnext
      exact stage
  | selected unready pops selected stage =>
      have hsel : Client.selected A e = some (choice base S) := by
        rw [posted, htodo, List.filterMap_nil, List.append_nil] at selected
        exact selected
      rw [htodo, nextStage] at stage
      rw [hsel, pops, hchoice] at hnext
      cases hs : base.sessionKey.isSome with
      | true =>
          rw [hs] at hnext stage
          obtain rfl := Option.some.inj hnext
          exact stage
      | false =>
          rw [hs] at hnext stage
          obtain rfl := Option.some.inj hnext
          exact stage
  | keyed unready key pops selected stage =>
      rw [htodo] at stage
      rw [selected, pops, hchoice, key] at hnext
      obtain rfl := Option.some.inj hnext
      exact stage
  | done pops selected =>
      rw [selected, List.getElem?_eq_none pops] at hnext
      cases hnext

/-- The handshake takes the next message of the server, and the handler that it starts is the
one that the message is for. -/
theorem Conversation.handshake (hA : A.Lawful) {e e₁ : Endpoint} {res : Option Bytes}
    (h : Conversation A base S e) (salts : Bytes × Bytes) (htodo : e.todo = [])
    (hkey : base.sessionKey.isSome = true → transformErseefor ∈ S.offer)
    (hpop : e.popRaw sha256 = some (e₁, res))
    (hres : ∀ m ∈ nextMessage A e, res = some (S.payload A m)) {as : List Act}
    (has : ∀ data, res = some data →
      as = (role A sha256 base).stageCall e₁ salts data ++ [.switchToReady, .accessorReady]) :
    Conversation A base S { e₁ with todo := as } := by
  obtain ⟨hview, hlen⟩ := sameView_popRaw hpop
  have hwritten : written { e₁ with todo := as } = written e := hview.written
  have hreads {m : ServerMessage} (hm : nextMessage A e = some m) : e₁.stage = m.stage :=
    hview.stage.trans (h.reads htodo hkey hm)
  have hcall {m : ServerMessage} (hm : nextMessage A e = some m) :
      as = (role A sha256 base).stageCall e₁ salts (S.payload A m) ++
        [.switchToReady, .accessorReady] := has _ (hres m hm)
  have hchoice := choice_eq hkey
  have hunready (hu : Unready e) (hmem : .setReady ∉ as) : Unready { e₁ with todo := as } :=
    have hu₁ := hview.unready ⟨hu.ready, hu.serving, hu.todo⟩
    ⟨hu₁.ready, hu₁.serving, hmem⟩
  cases h with
  | hello unready pops todo written stage =>
      have hnext : nextMessage A e = some .hello := by
        rw [nextMessage, Client.selected, written, pops]
        rfl
      obtain ⟨d, hsel, heq⟩ := stageCall_hello sha256 base S hA (hreads hnext) salts
      have has := hcall hnext
      rw [heq] at has
      refine .selected (hunready unready ?_) (by rw [hlen, pops]; rfl) ?_ ?_
      · rw [has]
        simp
      · rw [posted, hwritten, written, has]
        exact hsel
      · rw [has]
        rfl
  | selected unready pops selected stage =>
      have hsel : Client.selected A e = some (choice base S) := by
        rw [posted, htodo, List.filterMap_nil, List.append_nil] at selected
        exact selected
      have hsel' : Client.selected A { e₁ with todo := as } = some (choice base S) := by
        rw [Client.selected, hwritten]
        exact hsel
      cases hs : base.sessionKey.isSome with
      | true =>
          have hnext : nextMessage A e = some .setup := by
            rw [nextMessage, hsel, pops, hchoice, hs]
            rfl
          obtain ⟨t, r, d, heq⟩ := stageCall_setup sha256 base S hA (hreads hnext) salts
          have has := hcall hnext
          rw [heq] at has
          refine .keyed (hunready unready ?_) hs (by rw [hlen, pops]) hsel' ?_
          · rw [has]
            simp
          · rw [has]
            rfl
      | false =>
          refine .done ?_ hsel'
          rw [hlen, pops, hchoice, hs]
          decide
  | keyed unready key pops selected stage =>
      refine .done ?_ ?_
      · rw [hlen, pops, hchoice, key]
        decide
      · rw [Client.selected, hwritten]
        exact selected
  | done pops selected =>
      refine .done ?_ ?_
      · rw [hlen]
        exact pops.trans (Nat.le_succ _)
      · rw [Client.selected, hwritten]
        exact selected

theorem Conversation.pops_pos {e : Endpoint} (h : Conversation A base S e)
    (hst : e.stage = .setup) : 0 < e.pops.length := by
  cases h with
  | hello unready pops todo written stage => cases hst.symm.trans stage
  | selected unready pops selected stage =>
      rw [pops]
      exact Nat.one_pos
  | keyed unready key pops selected stage =>
      rw [pops]
      exact Nat.two_pos
  | done pops selected =>
      refine Nat.lt_of_lt_of_le ?_ pops
      unfold ServerMessage.sequence
      dsimp only
      split_ifs <;> exact Nat.succ_pos _

theorem Keyed.handshake {e e₁ : Endpoint} {res : Option Bytes} (h : Keyed base e)
    (hpos : e.stage = .setup → 0 < e.pops.length)
    (hpop : e.popRaw sha256 = some (e₁, res)) {as : List Act}
    (hsetup : .changeStage .setup ∈ as → base.sessionKey.isSome = true)
    (hinstalls : as.any installs = true → e₁.stage = .setup) :
    Keyed base { e₁ with todo := as } := by
  obtain ⟨hview, hlen⟩ := sameView_popRaw hpop
  have hst : e₁.stage = e.stage := hview.stage
  have hci : Ciphered e₁ ↔ Ciphered e := hview.ciphered
  refine ⟨?_, ?_⟩
  · rintro (hs | hs | hs | hs)
    · exact h.key (.inl (hst.symm.trans hs))
    · exact hsetup hs
    · exact h.key (.inr (.inr (.inl (hci.mp hs))))
    · exact h.key (.inl (hst.symm.trans (hinstalls hs)))
  · show _ → 2 ≤ e₁.pops.length
    rw [hlen]
    rintro (hs | hs)
    · have := h.pops (.inl (hci.mp hs))
      omega
    · have := hpos (hst.symm.trans (hinstalls hs))
      omega

/-- The client of a contract server keeps to the conversation. -/
def Follows (A : AuthCodecs) (base : Base) (S : ContractServer) (e : Endpoint) : Prop :=
  Conversation A base S e ∧ Keyed base e

theorem Follows.congr {e e' : Endpoint} (h : Follows A base S e) (hs : SameView e e') :
    Follows A base S e' := ⟨h.1.congr hs, h.2.congr hs⟩

theorem Follows.doHandshake (hA : A.Lawful) {e : Endpoint} (h : Follows A base S e)
    (htodo : e.todo = []) (hkey : base.sessionKey.isSome = true → transformErseefor ∈ S.offer)
    (hres : ∀ res ∈ (e.popRaw sha256).map Prod.snd, ∀ m ∈ nextMessage A e,
      res = some (S.payload A m)) (salts : Bytes × Bytes) :
    Follows A base S (doHandshake sha256 (role A sha256 base) e salts) := by
  obtain ⟨hconv, hkeyed⟩ := h
  rcases doHandshake_cases sha256 (role A sha256 base) e salts with
    ⟨-, heq⟩ | ⟨e₁, hpop, heq⟩ | ⟨e₁, data, hpop, heq⟩
  · rw [heq]
    exact ⟨hconv, hkeyed⟩
  · rw [heq]
    have hres := hres none (by rw [hpop]; rfl)
    exact ⟨hconv.handshake hA salts htodo hkey hpop hres (fun data hdata => by cases hdata),
      hkeyed.handshake hconv.pops_pos hpop (by simp [role, errorAndClose, close])
        (by simp [role, errorAndClose, close, installs])⟩
  · rw [heq]
    have hres := hres (some data) (by rw [hpop]; rfl)
    obtain ⟨hsetup, hinstalls⟩ := stageCall_keyed sha256 A base e₁ salts data
    refine ⟨hconv.handshake hA salts htodo hkey hpop hres (fun d hd => ?_),
      hkeyed.handshake hconv.pops_pos hpop hsetup hinstalls⟩
    rw [Option.some.inj hd]

theorem Follows.serve {e : Endpoint} (h : Follows A base S e) (hserv : e.serving = true) (n : ℕ) :
    Follows A base S (serve sha256 unit n e) := by
  have hinv := serve_inv sha256 unit (I := fun x => Follows A base S x ∧ x.serving = true)
    ?_ ?_ ?_ n e ⟨h, hserv⟩
  · exact hinv.1
  · rintro x x' res ⟨⟨hconv, hkeyed⟩, hs⟩ hpop
    obtain ⟨hview, hlen⟩ := sameView_popRaw hpop
    refine ⟨⟨?_, ?_⟩, hview.serving.trans hs⟩
    · cases hconv with
      | done pops selected =>
          refine .done ?_ ?_
          · rw [hlen]
            exact pops.trans (Nat.le_succ _)
          · rw [Client.selected, hview.written]
            exact selected
      | hello unready _ _ _ _ => cases hs.symm.trans unready.serving
      | selected unready _ _ _ => cases hs.symm.trans unready.serving
      | keyed unready _ _ _ _ => cases hs.symm.trans unready.serving
    · refine Keyed.congr (e := { x with pops := x'.pops }) ⟨hkeyed.key, fun hc => ?_⟩ hview
      have : 2 ≤ x.pops.length := hkeyed.pops hc
      show 2 ≤ x'.pops.length
      omega
  · rintro x ⟨hx, hs⟩
    exact ⟨hx.congr ⟨rfl, id, rfl, rfl, rfl, rfl, Iff.rfl⟩, hs⟩
  · rintro x llu ⟨hx, hs⟩
    exact ⟨hx.congr ⟨rfl, id, rfl, rfl, rfl, rfl, Iff.rfl⟩, hs⟩

theorem sameView_setProtocol {e : Endpoint} {p : DefaultProtocol} {chunk : Bytes}
    {r : ProcessResult} (hp : e.protocol.processData chunk = (p, r)) :
    SameView e (e.setProtocol p) := by
  have hfst := processData_fst e.protocol chunk
  rw [hp] at hfst
  have hp : p = { e.protocol with queue := p.queue } := hfst
  refine ⟨rfl, id, rfl, rfl, rfl, rfl, ?_⟩
  rw [Ciphered, Endpoint.setProtocol, hp]
  exact Iff.rfl

theorem Follows.recv (hA : A.Lawful) {e e' : Endpoint} {chunk : Bytes} {salts : Bytes × Bytes}
    (h : Follows A base S e)
    (hkey : base.sessionKey.isSome = true → transformErseefor ∈ S.offer)
    (hans : Answers sha256 A S e (.recv chunk salts))
    (hrecv : recv sha256 A unit base e chunk salts = some e') : Follows A base S e' := by
  obtain ⟨htodo, hcases⟩ := recv_cases hrecv
  rcases hcases with
    ⟨p, err, hp, rfl⟩ | ⟨p, hp, rfl⟩ | ⟨p, hp, hserv, rfl⟩ | ⟨p, hp, hserv, rfl⟩
  · exact ((h.congr (sameView_setProtocol hp)).congr (sameView_transportClose _)).congr
      (sameView_reading _ _)
  · exact (h.congr (sameView_setProtocol hp)).congr (sameView_reading _ _)
  · exact ((h.congr (sameView_setProtocol hp)).serve hserv _).congr (sameView_reading _ _)
  · refine Follows.congr ?_ (sameView_reading _ _)
    refine (h.congr (sameView_setProtocol hp)).doHandshake hA htodo hkey (fun res hres => ?_) salts
    exact hans res (by rw [handed_of_stage hp hserv]; exact hres)

theorem Follows.step (hA : A.Lawful) {e e' : Endpoint} {ev : InitEvent} (h : Follows A base S e)
    (hkey : base.sessionKey.isSome = true → transformErseefor ∈ S.offer)
    (hans : Answers sha256 A S e ev) (hstep : step sha256 A unit base e ev = some e') :
    Follows A base S e' := by
  cases ev with
  | act =>
      obtain ⟨a, todo, htodo, rfl⟩ := act_eq_some hstep
      exact ⟨h.1.act htodo, h.2.act htodo⟩
  | pack =>
      obtain ⟨⟨e', bytes⟩, hpack, rfl⟩ := Option.map_eq_some_iff.mp hstep
      exact h.congr (sameView_pack hpack)
  | written =>
      obtain ⟨c, writing, -, rfl⟩ := written_eq_some hstep
      have hw : SameView e { e with writing := writing } := ⟨rfl, id, rfl, rfl, rfl, rfl, Iff.rfl⟩
      exact (h.congr hw).congr (sameView_runClosure _ c)
  | recv chunk salts => exact h.recv hA hkey hans hstep
  | close =>
      obtain rfl := Option.some.inj hstep
      exact (h.congr (sameView_transportClose e)).congr (sameView_reading _ _)

theorem follows_start : Follows A base S start := by
  have hplain : ¬ Ciphered start := by simp [Ciphered, start, DefaultProtocol.create, configure]
  refine ⟨.hello ⟨rfl, rfl, List.not_mem_nil⟩ rfl rfl rfl rfl, ?_, ?_⟩
  · rintro (hs | hs | hs | hs)
    · cases hs
    · cases hs
    · exact (hplain hs).elim
    · cases hs
  · rintro (hs | hs)
    · exact (hplain hs).elim
    · cases hs

/-- A cipher is there only after the selection of its transformer. -/
theorem Follows.ciphered {e : Endpoint} (h : Follows A base S e)
    (hkey : base.sessionKey.isSome = true → transformErseefor ∈ S.offer) (hc : Ciphered e) :
    selected A e = some transformErseefor := by
  obtain ⟨hconv, hkeyed⟩ := h
  have hk := hkeyed.key (.inr (.inr (.inl hc)))
  have hpops := hkeyed.pops (.inl hc)
  have hchoice := choice_eq hkey
  rw [hk, if_pos rfl] at hchoice
  cases hconv with
  | hello unready pops todo written stage =>
      rw [pops] at hpops
      cases hpops
  | selected unready pops selected stage =>
      rw [pops] at hpops
      omega
  | keyed unready key pops selected stage => rw [selected, hchoice]
  | done pops selected => rw [selected, hchoice]

/-! ### A server that does not offer the transformer -/

theorem processData_frame {p : DefaultProtocol} {b : Bytes} (hdata : p.queue.data = [])
    (hmessages : p.queue.messages = []) (hbody : b.length ≤ maxBody)
    (hfit : b.length ≤ p.queue.maxValidLength) :
    p.processData (DataQueue.frame sizePolicy b) =
      ({ p with queue := { p.queue with messages := [b] } }, .stage) := by
  have hended : ended (frames [b]) (p.queue.data ++ DataQueue.frame sizePolicy b).length = 1 := by
    rw [hdata, List.nil_append, frames_cons, ended_cons_of_le (Nat.le_refl _)]
    rfl
  have hstream : p.queue.data ++ (DataQueue.frame sizePolicy b ++ []) = (frames [b]).flatten := by
    rw [hdata]
    simp
  have hproc := processData_frames (frame_ne_nil b) hstream (by simpa using hbody)
    (by simpa using hfit)
  rw [hproc, hended, fedFrames, hended, rest, hended, hdata, hmessages]
  simp only [List.nil_append, frames_cons, frames_nil, List.take_succ_cons, List.take_zero,
    List.flatten_cons, List.flatten_nil, List.append_nil, List.drop_length, Nat.one_pos, if_true]
  rw [← hdata]

variable (sha256) in
theorem popRaw_frame {e : Endpoint} {d : Bytes} (hdata : e.protocol.queue.data = [])
    (hmessages : e.protocol.queue.messages = [])
    (hlimit : e.protocol.queue.maxValidLength = SessionOptions.defaults.maxMessageLength.toNat)
    (hfit : d.length + e.protocol.hashChecker.size ≤
      SessionOptions.defaults.maxMessageLength.toNat) :
    let b := (e.protocol.revertor.transform (sealed sha256 e.protocol.hashChecker d)).2
    let p := { e.protocol with queue := { e.protocol.queue with messages := [b] } }
    e.protocol.processData (DataQueue.frame sizePolicy b) = (p, .stage) ∧
      (e.setProtocol p).popRaw sha256 = some ({ e with
        protocol := p.popFront
          (e.protocol.revertor.transform (sealed sha256 e.protocol.hashChecker d)).1
        pops := e.pops ++ [⟨e.protocol.hashChecker, e.protocol.revertor, some d⟩] }, some d) := by
  intro b p
  have hlen : b.length = d.length + e.protocol.hashChecker.size := by
    rw [Transformer.transform_length, sealed_length]
  refine ⟨processData_frame hdata hmessages ?_ ?_, ?_⟩
  · rw [hlen]
    exact hfit.trans (by decide)
  · rw [hlen, hlimit]
    exact hfit
  · rw [popRaw]
    have hpop := popRawMessage_sealed sha256 p d [] rfl
    rw [show (e.setProtocol p).protocol = p from rfl, hpop]
    rfl

variable (sha256 A unit base) in
theorem recv_frame {e : Endpoint} {d : Bytes} (hreading : e.reading = true)
    (hopen : e.connClosed = false) (htodo : e.todo = []) (hserv : e.serving = false)
    (hdata : e.protocol.queue.data = []) (hmessages : e.protocol.queue.messages = [])
    (hlimit : e.protocol.queue.maxValidLength = SessionOptions.defaults.maxMessageLength.toNat)
    (hfit : d.length + e.protocol.hashChecker.size ≤
      SessionOptions.defaults.maxMessageLength.toNat) (salts : Bytes × Bytes) :
    ∃ chunk q r k, q.data = [] ∧ q.messages = [] ∧
      q.maxValidLength = e.protocol.queue.maxValidLength ∧ handed sha256 e chunk = some (some d) ∧
      recv sha256 A unit base e chunk salts = some { e with
        protocol := { e.protocol with queue := q, revertor := r }
        pops := e.pops ++ [k]
        todo := (role A sha256 base).stageCall e salts d ++ [.switchToReady, .accessorReady] } := by
  obtain ⟨hproc, hpop⟩ := popRaw_frame sha256 hdata hmessages hlimit hfit
  refine ⟨DataQueue.frame sizePolicy
      (e.protocol.revertor.transform (sealed sha256 e.protocol.hashChecker d)).2,
    { e.protocol.queue with messages := [] },
    (e.protocol.revertor.transform (sealed sha256 e.protocol.hashChecker d)).1,
    ⟨e.protocol.hashChecker, e.protocol.revertor, some d⟩, hdata, rfl, rfl, ?_, ?_⟩
  · rw [handed_of_stage hproc hserv, hpop]
    rfl
  · rw [recv, hreading, htodo, List.isEmpty_nil, Bool.and_true, if_pos rfl, hproc]
    dsimp only
    rw [if_neg (by rw [hserv]; exact Bool.false_ne_true), doHandshake, hpop]
    simp only [startReading, hopen, Bool.not_false, ← hreading]
    rfl

variable (sha256 unit base) in
/-- A client with a key, and a server that does not offer the transformer: the session setup finds
the client at `STAGE_SETUP`. -/
theorem misread (hA : A.Lawful) (hfits : S.Fits A) (hkey : base.sessionKey.isSome = true)
    (hoffer : transformErseefor ∉ S.offer) (salts : Bytes × Bytes) :
    ∃ es e chunk, (initMachine sha256 A unit base).run es = some e ∧
      (initMachine sha256 A unit base).Meets (Answers sha256 A S) start es ∧
      (step sha256 A unit base e (.recv chunk salts)).isSome = true ∧
      nextMessage A e = some .session ∧
      handed sha256 e chunk = some (some (S.payload A .session)) ∧ e.stage = .setup := by
  have hchoice : choice base S = transformNone := by
    rw [choice, if_neg]
    simp [hoffer]
  have hstage : nextStage base = .setup := by rw [nextStage, hkey]; rfl
  obtain ⟨chunk, q, r, k, hdata, hmessages, hlimit, hhanded, hrecv⟩ :=
    recv_frame sha256 A unit base (e := start) (d := S.payload A .hello) rfl rfl rfl rfl rfl rfl rfl
      ((Nat.add_le_add_left (by decide) _).trans (hfits .hello)) salts
  obtain ⟨d, hsel, hcall⟩ := stageCall_hello sha256 base S hA (e := start) rfl salts
  rw [hcall, hstage] at hrecv
  obtain ⟨e, he, hpops, hwritten, hst, hidle, hqueue, hcheck⟩ : ∃ e : Endpoint,
      (initMachine sha256 A unit base).run
          [.recv chunk salts, .act, .act, .act, .act, .act] = some e ∧
        e.pops = [k] ∧ written e = [d] ∧ e.stage = .setup ∧
        (e.reading = true ∧ e.connClosed = false ∧ e.todo = [] ∧ e.serving = false) ∧
        e.protocol.queue = q ∧ e.protocol.hashChecker = defaultHash := by
    exact ⟨_, ((initMachine sha256 A unit base).runFrom_cons_eq_some).mpr ⟨_, hrecv, rfl⟩,
      rfl, rfl, rfl, ⟨rfl, rfl, rfl, rfl⟩, rfl, rfl⟩
  have hnext : nextMessage A e = some .session := by
    rw [nextMessage, selected, hwritten, hsel, hpops, hchoice]
    rfl
  obtain ⟨chunk', _, _, _, _, _, _, hhanded', hrecv'⟩ :=
    recv_frame sha256 A unit base (e := e) (d := S.payload A .session) hidle.1 hidle.2.1
      hidle.2.2.1 hidle.2.2.2 (hqueue ▸ hdata) (hqueue ▸ hmessages)
      (by rw [hqueue, hlimit]; rfl) (by rw [hcheck]; exact hfits .session) salts
  refine ⟨_, e, chunk', he, ?_, ?_, hnext, hhanded', hst⟩
  · refine ⟨fun res hres m hm => ?_, fun _ _ => ⟨trivial, fun _ _ => ⟨trivial, fun _ _ =>
      ⟨trivial, fun _ _ => ⟨trivial, fun _ _ => ⟨trivial, fun _ _ => trivial⟩⟩⟩⟩⟩⟩
    rw [hhanded] at hres
    obtain rfl := Option.some.inj hres
    obtain rfl : ServerMessage.hello = m := Option.some.inj hm
    rfl
  · rw [step, hrecv']
    rfl

end

/-- **The client reads the reply it asked for** in every run with the server, exactly when the
server offers the transformer to a client that has a session key. -/
theorem reads_reply_iff (sha256 : Bytes → Digest) (A : AuthCodecs) (unit : Codec LowlevelUnit)
    (base : Base) (S : ContractServer) (hA : A.Lawful) (hfits : S.Fits A) :
    (∀ es e, (initMachine sha256 A unit base).run es = some e →
      (initMachine sha256 A unit base).Meets (Answers sha256 A S) start es →
      ReadsReply sha256 A unit base S e) ↔
    (base.sessionKey.isSome = true → transformErseefor ∈ S.offer) := by
  constructor
  · intro h hkey
    by_contra hoffer
    obtain ⟨es, e, chunk, hrun, hmeets, hstep, hnext, hhanded, hst⟩ :=
      misread sha256 unit base hA hfits hkey hoffer ([], [])
    have := (h es e hrun hmeets).reads chunk _ _ hstep hnext hhanded
    cases hst.symm.trans this
  · intro hkey es e hrun hmeets
    have hinv : Follows A base S e := (initMachine sha256 A unit base).inv_of_meets
      (fun _ _ _ hi hc hs => hi.step hA hkey hc hs) follows_start hmeets hrun
    refine ⟨fun chunk salts m hstep hnext _ => ?_, hinv.ciphered hkey⟩
    obtain ⟨e', he'⟩ := Option.isSome_iff_exists.mp hstep
    exact hinv.1.reads (recv_cases he').1 hkey hnext

/-- A server that offers both transformers. -/
def keyServer : ContractServer where
  hashes := [0, 2, 10]
  offer := [transformNone, transformErseefor]
  salts := ⟨List.replicate 256 0x02, List.replicate 256 0x03⟩
  opts := .defaults
  text m :=
    match m with
    | .hello => "Tervetuloa!"
    | .setup => ""
    | .session => "Kiva nahda sinut!"

theorem keyServer_fits : keyServer.Fits keyCodecs := by
  intro m
  cases m <;> decide +kernel

/-- A client with a key: it takes the hello and the setup, has both ciphers and is in the stage that
reads the session setup. -/
theorem reads_reply_key :
    let sha256 : Bytes → Digest := fun _ => ⟨List.replicate 32 0, rfl⟩
    let unit : Codec LowlevelUnit := ⟨fun _ => [], fun _ => (false, {})⟩
    let base : Base := ⟨some [0x01], []⟩
    let pack := fun h m => ((DefaultProtocol.create.setHashMaker h).packMessage sha256
      (keyServer.payload keyCodecs m)).2
    let es := [InitEvent.recv (pack .none .hello) ([], [])] ++ List.replicate 5 .act ++
      [.pack, .recv (pack .crc32 .setup) ([0x04], [0x05])] ++ List.replicate 6 .act
    ∃ e, (initMachine sha256 keyCodecs unit base).run es = some e ∧
      (e.stage = .ready ∧ selected keyCodecs e = some transformErseefor ∧
        nextMessage keyCodecs e = some .session) ∧
      ReadsReply sha256 keyCodecs unit base keyServer e := by
  intro sha256 unit base pack es
  obtain ⟨e, he, hview⟩ := (initMachine sha256 keyCodecs unit base).exists_run es (fun e =>
    e.stage = .ready ∧ selected keyCodecs e = some transformErseefor ∧
      nextMessage keyCodecs e = some .session) (by decide +kernel)
  refine ⟨e, he, hview, (reads_reply_iff sha256 keyCodecs unit base keyServer keyCodecs_lawful
    keyServer_fits).mpr (fun _ => by decide) es e he ?_⟩
  decide +kernel

/-- A server that offers `TRANSFORM_NONE` only. -/
def restrictedServer : ContractServer where
  hashes := [2]
  offer := [transformNone]
  salts := {}
  opts := { maxMessageLength := 65536 }
  text _ := ""

/-- Lawful codecs with the wire bytes of its messages, and of the client's answer to the hello. -/
noncomputable def restrictedCodecs : AuthCodecs where
  capsule := .withTable {}
    [({ ready := true, body := [0x08, 0x02, 0x10, 0x00] },
      [0x10, 0x01, 0x52, 0x04, 0x08, 0x02, 0x10, 0x00]),
     ({ ready := true, body := [0x0a, 0x04, 0x10, 0x80, 0x80, 0x04] },
      [0x10, 0x01, 0x52, 0x06, 0x0a, 0x04, 0x10, 0x80, 0x80, 0x04]),
     ({ ready := true }, [0x10, 0x01]),
     ({ text := "Miten menee?", ready := true, body := [0x08, 0x02, 0x10, 0x00] },
      [0x0a, 0x0c, 0x4d, 0x69, 0x74, 0x65, 0x6e, 0x20, 0x6d, 0x65, 0x6e, 0x65, 0x65, 0x3f, 0x10, 0x01,
       0x52, 0x04, 0x08, 0x02, 0x10, 0x00])]
  initProtocol := .withBytes { hashSupported := [2], transformSupported := [0] }
    [0x08, 0x02, 0x10, 0x00]
  selection := .withBytes { hash := 2, transform := 0 } [0x08, 0x02, 0x10, 0x00]
  setup := .withBytes {} []
  session := .withBytes { maxMessageLength := 65536 } [0x0a, 0x04, 0x10, 0x80, 0x80, 0x04]

theorem restrictedCodecs_lawful : restrictedCodecs.Lawful where
  capsule := Codec.withTable_lawful _ (by simp) (by simp)
  initProtocol := Codec.withBytes_lawful _ (by decide)
  selection := Codec.withBytes_lawful _ (by decide)
  setup := Codec.withBytes_lawful _ (by decide)
  session := Codec.withBytes_lawful _ (by decide)

theorem restrictedServer_fits : restrictedServer.Fits restrictedCodecs := by
  intro m
  cases m <;> decide +kernel

/-- A client with a key: it selects `TRANSFORM_NONE`, and reads the session setup as a transformer
setup. -/
theorem misread_with_key :
    let sha256 : Bytes → Digest := fun _ => ⟨List.replicate 32 0, rfl⟩
    let unit : Codec LowlevelUnit := ⟨fun _ => [], fun _ => (false, {})⟩
    let base : Base := ⟨some [0x6b], []⟩
    ∃ es e, (initMachine sha256 restrictedCodecs unit base).run es = some e ∧
      (initMachine sha256 restrictedCodecs unit base).Meets
        (Answers sha256 restrictedCodecs restrictedServer) start es ∧
      ¬ ReadsReply sha256 restrictedCodecs unit base restrictedServer e := by
  intro sha256 unit base
  obtain ⟨es, e, chunk, hrun, hmeets, hstep, hnext, hhanded, hst⟩ :=
    misread sha256 unit base restrictedCodecs_lawful restrictedServer_fits rfl
      (by decide) ([], [])
  refine ⟨es, e, hrun, hmeets, fun h => ?_⟩
  cases hst.symm.trans (h.reads chunk _ _ hstep hnext hhanded)

end Vtrc.Client
