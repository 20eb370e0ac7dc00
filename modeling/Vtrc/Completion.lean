import Mathlib.Data.Prod.Lex
import Vtrc.Conversation

/-! # The handshake can always be completed

A session does not run into a state in which its ends wait for each other.  The server does not
read before its hello has been sent, a handler may be anywhere between its first action and its
last, the writes are packed and completed when the strand gets to them and the bytes of a message
arrive in pieces; still, as long as neither end has closed the connection, some steps of the
handshake lead from wherever the session is to both ends being ready (`handshake_completes`).

An end that is still in the handshake `Greets`: it reads or will read when its hello has been sent,
its parser has the limit it was configured with, and what it has posted fits the limit of its peer.
`Awaits` says of a direction that the receiver has popped all messages that are complete.  Both
hold in every state of a session (`Lively.step`).  The `rank` of a session counts the handlers that
are still to run; a message in flight can be delivered to its last byte and not further
(`deliver_exact`), which runs the next of them. -/

namespace Vtrc.Session

open Endpoint DefaultProtocol Framing

/-! ### What the handshake needs -/

/-- The salts are two random blocks of 256 bytes. -/
def Drawn (salts : Bytes × Bytes) : Prop := salts.1.length = 256 ∧ salts.2.length = 256

theorem exists_drawn : ∃ salts, Drawn salts :=
  ⟨(List.replicate 256 0, List.replicate 256 0), List.length_replicate, List.length_replicate⟩

/-- The salts of the event, if it has any, were drawn. -/
def Event.Drawn : Event → Prop
  | .deliver _ _ salts => Session.Drawn salts
  | _ => True

/-- The events without the units of the RPC layer. -/
def Event.Handshake : Event → Prop
  | .send _ _ => False
  | ev => ev.Drawn

theorem Event.Handshake.drawn {ev : Event} (h : ev.Handshake) : ev.Drawn := by
  cases ev with
  | send side data => exact trivial
  | _ => exact h

/-- The messages of the handshake, with the largest hash, are within the limits they are parsed
with. -/
structure MessagesFit (A : AuthCodecs) (app : Server.Application) (opts : SessionOptions)
    (base : Client.Base) : Prop where
  hello : (Server.firstMessage A).length + 32 ≤ SessionOptions.defaults.maxMessageLength.toNat
  selection : (selectionMessage A base).length + 32 ≤ opts.maxMessageLength.toNat
  setup : base.sessionKey.isSome → ∀ salts, Drawn salts →
    (setupMessage A salts).length + 32 ≤ SessionOptions.defaults.maxMessageLength.toNat ∧
      (setupMessage A salts).length + 32 ≤ opts.maxMessageLength.toNat
  ready : (readyMessage A (app.configureSession opts)).length + 32 ≤
    SessionOptions.defaults.maxMessageLength.toNat

/-! ### The invariant -/

/-- The end is in the handshake; `limit` is what its parser takes, `reach` what its peer's does. -/
structure Greets (limit reach : ℕ) (e : Endpoint) : Prop where
  reads : e.connClosed = false →
    e.reading = true ∨ (∃ m ∈ e.outbox, m.closure = .startReading) ∨ .startReading ∈ e.writing
  limit : e.protocol.queue.maxValidLength = limit
  short : ∀ d ∈ posted e, d.length + 32 ≤ reach
  selection : e.stage = .clientSelection → e.pops = []
  answered : e.stage = .setup ∨ e.stage = .ready → posted e ≠ []

/-- The end serves and has told its layer so, or it is in the handshake. -/
structure Attends (limit reach : ℕ) (e : Endpoint) : Prop where
  serves : e.serving = true → e.layerReady = true
  greets : e.serving = false → Greets limit reach e

section
variable (sha256 : Bytes → Digest)

/-- A receiver in the handshake has popped the messages that have arrived completely. -/
def Awaits (s r : Endpoint) : Prop :=
  r.serving = false → r.connClosed = false → r.protocol.queue.messages = [] ∧
    Partial (frames ((flight s r).map (Packed.body sha256))) r.protocol.queue.data

end

/-- The messages that an end in the stage has still to handle. -/
def handlersLeft : Stage → ℕ
  | .hello => 3
  | .setup | .clientSelection => 2
  | .ready | .error | .clientTransformer => 1

/-- The messages that the end has still to handle before it serves. -/
def rank (e : Endpoint) : ℕ := if e.serving then 0 else handlersLeft e.stage

theorem rank_of_serving {e : Endpoint} (h : e.serving = true) : rank e = 0 := by
  rw [rank, if_pos h]

theorem rank_of_stage {e : Endpoint} (st : Stage) (h : e.serving = false) (hst : e.stage = st) :
    rank e = handlersLeft st := by
  rw [rank, h, hst]
  rfl

section
variable {sha256 : Bytes → Digest} {limit reach : ℕ}

/-! ### Steps outside the handlers -/

theorem Attends.pack {e e' : Endpoint} {bytes : Bytes} (h : Attends limit reach e)
    (hp : e.pack sha256 = some (e', bytes)) : Attends limit reach e' := by
  obtain ⟨m, hm⟩ := packing_of_pack hp
  refine ⟨fun hserv => hm.layerReady.trans (h.serves (hm.serving ▸ hserv)), fun hserv => ?_⟩
  have g := h.greets (hm.serving ▸ hserv)
  have hposted := posted_packing hm
  refine ⟨fun hopen => ?_, (congrArg DataQueue.maxValidLength hm.queue).trans g.limit,
    by rw [hposted]; exact g.short, by rw [hm.stage, hm.pops]; exact g.selection,
    by rw [hm.stage, hposted]; exact g.answered⟩
  rw [hm.reading, hm.writing]
  rcases g.reads (hm.connClosed ▸ hopen) with hr | ⟨m', hm', hc⟩ | hw
  · exact .inl hr
  · rw [hm.outbox] at hm'
    rcases List.mem_cons.mp hm' with rfl | hm'
    · -- the closure waits for the sending, so it is in the list of the writes now
      exact .inr (.inr (by simp [hc, Closure.onSend]))
    · exact .inr (.inl ⟨m', hm', hc⟩)
  · refine .inr (.inr ?_)
    split_ifs
    · exact List.mem_append_left _ hw
    · exact hw

theorem Attends.written {e e' : Endpoint} (h : Attends limit reach e) (hw : e.written = some e') :
    Attends limit reach e' := by
  obtain ⟨c, writing, hwriting, rfl⟩ := written_eq_some hw
  have hreads : ∀ g : Greets limit reach e, c ≠ .startReading → e.connClosed = false →
      e.reading = true ∨ (∃ m ∈ e.outbox, m.closure = .startReading) ∨ .startReading ∈ writing := by
    intro g hc hopen
    refine (g.reads hopen).imp_right (Or.imp_right fun hmem => ?_)
    rw [hwriting] at hmem
    exact (List.mem_cons.mp hmem).resolve_left (fun heq => hc heq.symm)
  refine ⟨?_, ?_⟩
  · cases c <;> exact h.serves
  · intro hserv
    have g := h.greets (by cases c <;> exact hserv)
    cases c with
    | startReading => exact ⟨fun _ => .inl rfl, g.limit, g.short, g.selection, g.answered⟩
    | closeClient =>
        exact ⟨fun hopen => (by cases hopen), g.limit, g.short, g.selection, g.answered⟩
    | default => exact ⟨hreads g (by simp), g.limit, g.short, g.selection, g.answered⟩
    | setOptions => exact ⟨hreads g (by simp), g.limit, g.short, g.selection, g.answered⟩

theorem Attends.send {e e' : Endpoint} {data : Bytes} (h : Attends limit reach e)
    (hserv : e.layerReady = true → e.serving = true) (hs : e.send data = some e') :
    Attends limit reach e' := by
  obtain ⟨hlayer, rfl⟩ := send_eq_some hs
  refine ⟨h.serves, fun hnot => ?_⟩
  rw [show e.serving = false from hnot] at hserv
  cases hserv hlayer

theorem Attends.of_serving {e : Endpoint} (hserv : e.serving = true) (hlayer : e.layerReady = true) :
    Attends limit reach e :=
  ⟨fun _ => hlayer, fun h => by rw [hserv] at h; cases h⟩

theorem Awaits.of_serving {s r : Endpoint} (hserv : r.serving = true) : Awaits sha256 s r :=
  fun h => by rw [hserv] at h; cases h

theorem Awaits.congr {s s' r r' : Endpoint} (h : Awaits sha256 s r) (hpacks : s'.packs = s.packs)
    (hserv : r'.serving = r.serving) (hopen : r'.connClosed = false → r.connClosed = false)
    (hqueue : r'.protocol.queue = r.protocol.queue) (hpops : r'.pops = r.pops) :
    Awaits sha256 s' r' := by
  intro hs ho
  rw [flight_congr hpacks hpops, hqueue]
  exact h (hserv ▸ hs) (hopen ho)

theorem Awaits.packed {s s' r : Endpoint} {bytes : Bytes} (h : Awaits sha256 s r)
    (hle : r.pops.length ≤ s.packs.length) (hp : s.pack sha256 = some (s', bytes)) :
    Awaits sha256 s' r := by
  obtain ⟨m, hm⟩ := packing_of_pack hp
  intro hserv hopen
  obtain ⟨hms, hpart⟩ := h hserv hopen
  refine ⟨hms, ?_⟩
  rw [flight_snoc hle hm.packs, List.map_append, frames_append]
  exact hpart.snoc (frame_ne_nil _)

/-! ### Chunks without a complete message -/

/-- A chunk that completes no frame leaves a proper beginning of the first frame in the buffer. -/
theorem processData_idle {p p' : DefaultProtocol} {bs : List Bytes} {chunk tail : Bytes}
    (hdata : p.queue.data ++ (chunk ++ tail) = (frames bs).flatten)
    (hbs : ∀ b ∈ bs, b.length ≤ maxBody) (hpart : Partial (frames bs) p.queue.data)
    (hp : p.processData chunk = (p', .idle)) :
    p'.queue.messages = p.queue.messages ∧ Partial (frames bs) p'.queue.data := by
  rw [processData] at hp
  split_ifs at hp
  · rcases feed_frames hdata hbs with ⟨_, hfeed⟩ | ⟨_, herr⟩
    · obtain ⟨_, hrest⟩ := fedFrames_rest hdata
      rw [hfeed] at hp
      obtain ⟨rfl, hidle⟩ := Prod.mk.inj hp
      split_ifs at hidle with hlt
      have hle := ended_le_length (frames bs) (p.queue.data ++ chunk).length
      have hzero : ended (frames bs) (p.queue.data ++ chunk).length = 0 := by
        simp only [fedFrames, List.length_append, List.length_take, frames_length] at hlt hle ⊢
        omega
      rw [hzero, List.drop_zero] at hrest
      refine ⟨?_, hrest⟩
      rw [fedFrames, hzero, List.take_zero, List.append_nil]
    · simp only at hp
      rw [herr] at hp
      cases (Prod.mk.inj hp).2
  · obtain ⟨rfl, _⟩ := Prod.mk.inj hp
    exact ⟨rfl, hpart⟩

theorem Awaits.idle {s r : Endpoint} {link : Bytes} (h : Awaits sha256 s r)
    (hl : Linked sha256 s r link) {n : ℕ} {p : DefaultProtocol}
    (hp : r.protocol.processData (link.take n) = (p, .idle)) : Awaits sha256 s (r.setProtocol p) := by
  intro hserv hopen
  obtain ⟨hms, hpart⟩ := h hserv hopen
  obtain ⟨bs, hbs, hdata⟩ := hl.stream hopen
  rw [hms, List.nil_append] at hbs
  subst hbs
  rw [← List.take_append_drop n link] at hdata
  obtain ⟨hms', hpart'⟩ := processData_idle hdata hl.body_le hpart hp
  exact ⟨hms'.trans hms, hpart'⟩

theorem Attends.processed {e : Endpoint} (h : Attends limit reach e) (chunk : Bytes) :
    Attends limit reach (e.setProtocol (e.protocol.processData chunk).1) := by
  refine ⟨h.serves, fun hserv => ?_⟩
  have g := h.greets hserv
  exact ⟨g.reads, (processData_maxValidLength _ _).trans g.limit, g.short, g.selection, g.answered⟩

theorem Attends.raised {e : Endpoint} (h : Attends limit reach e) :
    Attends limit reach { e with reading := false, connClosed := true } := by
  refine ⟨h.serves, fun hserv => ?_⟩
  have g := h.greets hserv
  exact ⟨fun hopen => (by cases hopen), g.limit, g.short, g.selection, g.answered⟩

/-! ### The handlers -/

theorem Greets.post {e e' : Endpoint} (g : Greets limit reach e) (m : Posted)
    (hlen : m.data.length + 32 ≤ reach) (hout : e'.outbox = e.outbox ++ [m])
    (hpacks : e'.packs = e.packs) (hwriting : e'.writing = e.writing)
    (hreading : e'.reading = e.reading) (hopen : e'.connClosed = e.connClosed)
    (hlimit : e'.protocol.queue.maxValidLength = e.protocol.queue.maxValidLength)
    (hstage : e'.stage ≠ .clientSelection) : Greets limit reach e' := by
  have hposted := posted_post m hpacks hout
  refine ⟨fun ho => ?_, hlimit.trans g.limit, fun d hd => ?_, fun hst => absurd hst hstage,
    fun _ => by rw [hposted]; simp⟩
  · rw [hreading, hwriting, hout]
    refine (g.reads (hopen ▸ ho)).imp_right (Or.imp_left ?_)
    rintro ⟨m', hm', hc⟩
    exact ⟨m', List.mem_append_left _ hm', hc⟩
  · rw [hposted] at hd
    rcases List.mem_append.mp hd with hd | hd
    · exact g.short d hd
    · rw [List.mem_singleton.mp hd]
      exact hlen

/-- What a handler comes to: its end goes on, with nothing in flight to it while it is in the
handshake, and does not close the connection. -/
structure Moves (limit reach : ℕ) (s e' : Endpoint) : Prop where
  attends : Attends limit reach e'
  flight : e'.serving = false → flight s e' = []
  isOpen : e'.connClosed = false

theorem Moves.of_serving {s e' : Endpoint} (hserv : e'.serving = true) (hlayer : e'.layerReady = true)
    (hopen : e'.connClosed = false) : Moves limit reach s e' :=
  ⟨.of_serving hserv hlayer, fun h => (by rw [hserv] at h; cases h), hopen⟩

theorem Moves.of_greets {s e' : Endpoint} (hserv : e'.serving = false) (g : Greets limit reach e')
    (hf : Vtrc.flight s e' = []) (hopen : e'.connClosed = false) : Moves limit reach s e' :=
  ⟨⟨fun h => (by rw [hserv] at h; cases h), fun _ => g⟩, fun _ => hf, hopen⟩

end

section
variable {sha256 : Bytes → Digest} {A : AuthCodecs} {app : Server.Application}
  {opts : SessionOptions} {base : Client.Base} {S C : Endpoint}

theorem not_refused {limit reach limit' reach' : ℕ} {p : Prop} (gS : Greets limit reach S)
    (gC : Greets limit' reach' C) (hS : S.stage = .clientSelection) (hC : C.stage = .ready)
    (pcs : pending C S = []) : p := by
  have hpacks := flight_of_pending pcs
  rw [flight, gS.selection hS, List.length_nil, List.drop_zero] at hpacks
  refine absurd ?_ (gC.answered (.inr hC))
  rw [posted, hpacks, outbox_of_pending pcs]
  rfl

/-- **The client handles a message**: one handler less is to run. -/
theorem moves_client {o : SessionOptions} {limit reach : ℕ} (hA : A.Lawful)
    (hfit : MessagesFit A app opts base) (hphase : Phase sha256 A base S C)
    (hlim : Limits A base opts o S C) (aS : Attends limit reach S)
    (aC : Attends SessionOptions.defaults.maxMessageLength.toNat opts.maxMessageLength.toNat C)
    {link : Bytes} (hl : Linked sha256 S C link) (hopen : C.connClosed = false)
    (htodo : C.todo = []) (hserv : C.serving = false) (hne : C.protocol.queue.messages ≠ [])
    {salts : Bytes × Bytes} (hsalts : Drawn salts) {C' : Endpoint}
    (hC' : C' = doHandshake sha256 (Client.role A sha256 base) C salts) :
    Moves SessionOptions.defaults.maxMessageLength.toNat opts.maxMessageLength.toNat S C'.settle ∧
      rank C'.settle < rank C ∧ .connectionClose ∉ C'.todo := by
  obtain ⟨k, ks, acts, hruns, hacts⟩ :=
    client_runs hA hphase hlim hl hopen htodo hserv hne salts hC'
  have gC := aC.greets hserv
  rw [hruns.todo, hruns.settle]
  have hf : flight S (afterPop sha256 C k) = ks := flight_tail hruns.flight rfl
  cases hacts with
  | hello wC =>
      have hwait := waits_serving wC
      refine ⟨.of_greets hwait (gC.post ⟨selectionMessage A base, .setOptions⟩ hfit.selection rfl rfl
        rfl rfl rfl rfl ?_) hf hopen, ?_, by simp⟩
      · show (if base.sessionKey.isSome then Stage.setup else Stage.ready) ≠ .clientSelection
        split_ifs <;> simp
      · rw [rank_of_stage _ hserv wC.stage, rank_of_stage
          (if base.sessionKey.isSome then .setup else .ready) hwait rfl]
        split_ifs <;> decide
  | setup key hkey wC t =>
      have hwait := waits_serving wC
      refine ⟨.of_greets hwait (gC.post ⟨setupMessage A salts, .default⟩
        (hfit.setup (by rw [hkey]; rfl) salts hsalts).2 rfl rfl rfl rfl rfl rfl
        (by simp [finish, exec])) hf hopen, ?_, by simp⟩
      rw [rank_of_stage _ hserv wC.stage, rank_of_stage .ready hwait rfl]
      exact Nat.one_lt_two
  | ready ks hS hC hst =>
      refine ⟨.of_serving rfl rfl hopen, ?_, by simp⟩
      rw [rank_of_serving rfl, rank_of_stage _ hserv hst]
      exact Nat.one_pos
  | refused ks wS wC pcs => exact not_refused (aS.greets wS.serving) gC wS.stage wC.stage pcs

/-- **The server handles a message**: one handler less is to run. -/
theorem moves_server (hA : A.Lawful)
    (hkey : base.sessionKey = none → app.sessionKeyRequired [] = false)
    (hfit : MessagesFit A app opts base) (hphase : Phase sha256 A base S C)
    (aS : Attends opts.maxMessageLength.toNat SessionOptions.defaults.maxMessageLength.toNat S)
    {link : Bytes} (hl : Linked sha256 C S link) (hopen : S.connClosed = false)
    (htodo : S.todo = []) (hserv : S.serving = false) (hne : S.protocol.queue.messages ≠ [])
    {salts : Bytes × Bytes} (hsalts : Drawn salts) {S' : Endpoint}
    (hS' : S' = doHandshake sha256 (Server.role A sha256 app opts) S salts) :
    Moves opts.maxMessageLength.toNat SessionOptions.defaults.maxMessageLength.toNat C S'.settle ∧
      rank S'.settle < rank S ∧ .connectionClose ∉ S'.todo := by
  obtain ⟨k, acts, hruns, hacts⟩ :=
    server_runs hA app opts hphase hl hopen htodo hserv hne salts hS'
  have gS := aS.greets hserv
  rw [hruns.todo, hruns.settle]
  have hf : flight C (afterPop sha256 S k) = [] := flight_tail hruns.flight rfl
  cases hacts with
  | accept hnone hreq wS wC psc =>
      refine ⟨.of_serving rfl rfl hopen, ?_, by simp⟩
      rw [rank_of_serving rfl, rank_of_stage _ hserv wS.stage]
      exact Nat.two_pos
  | refuse hnone hreq wS wC psc =>
      rw [hkey hnone] at hreq
      cases hreq
  | setup key hsome wS wC psc =>
      have hwait := waits_serving wS
      refine ⟨.of_greets hwait (gS.post ⟨setupMessage A salts, .default⟩
        (hfit.setup (by rw [hsome]; rfl) salts hsalts).1 rfl rfl rfl rfl rfl rfl
        (by simp [finish, exec])) hf hopen, ?_, by simp⟩
      rw [rank_of_stage _ hserv wS.stage, rank_of_stage .clientTransformer hwait rfl]
      exact Nat.one_lt_two
  | answer key hsome wS wC psc t =>
      refine ⟨.of_serving rfl rfl hopen, ?_, by simp⟩
      rw [rank_of_serving rfl, rank_of_stage _ hserv wS.stage]
      exact Nat.one_pos

end

/-! ### Sessions -/

section
variable {sha256 : Bytes → Digest}

theorem not_mem_todo {e e' : Endpoint} (h : .connectionClose ∉ e.todo) (hact : e.act = some e') :
    .connectionClose ∉ e'.todo := by
  obtain ⟨a, todo, htodo, rfl⟩ := act_eq_some hact
  rw [exec_todo]
  exact fun hmem => h (by rw [htodo]; exact List.mem_cons_of_mem a hmem)

theorem open_exec {e : Endpoint} {a : Act} (ha : a ≠ .connectionClose) :
    (e.exec a).connClosed = e.connClosed := by
  cases a with
  | connectionClose => exact absurd rfl ha
  | switchToReady => rw [exec_switchToReady]
  | accessorReady => rw [exec_accessorReady]
  | _ => rfl

theorem settle_open {e : Endpoint} (h : .connectionClose ∉ e.todo) (hopen : e.connClosed = false) :
    e.settle.connClosed = false := by
  have hfold : ∀ (as : List Act) (e : Endpoint), .connectionClose ∉ as →
      (as.foldl exec e).connClosed = e.connClosed := by
    intro as
    induction as with
    | nil => exact fun _ _ => rfl
    | cons a as ih =>
        intro e h
        rw [List.foldl_cons, ih (e.exec a) (fun hmem => h (List.mem_cons_of_mem a hmem))]
        exact open_exec (fun heq => h (by rw [heq]; exact List.mem_cons_self))
  exact (hfold e.todo { e with todo := [] } h).trans hopen

/-- An end is open when its handler would leave it open. -/
theorem open_of_settle {e : Endpoint} (h : e.settle.connClosed = false) : e.connClosed = false :=
  (foldl_exec_queue e.todo { e with todo := [] }).2.2 h

variable (sha256) in
theorem serve_serving (unit : Codec LowlevelUnit) (n : ℕ) (e : Endpoint) (hserv : e.serving = true)
    (hlayer : e.layerReady = true) :
    (serve sha256 unit n e).serving = true ∧ (serve sha256 unit n e).layerReady = true := by
  refine serve_inv sha256 unit (I := fun e => e.serving = true ∧ e.layerReady = true) ?_ ?_ ?_ n e
    ⟨hserv, hlayer⟩
  · intro e₁ e₂ res h hp
    obtain ⟨p, _, rfl⟩ := popRaw_eq_some hp
    exact h
  · exact fun e₁ h => h
  · exact fun e₁ llu h => h

/-- What a step of the strand and a completion leave of an end as a receiver. -/
structure Receives (e e' : Endpoint) : Prop where
  serving : e'.serving = e.serving
  isOpen : e'.connClosed = false → e.connClosed = false
  queue : e'.protocol.queue = e.protocol.queue
  pops : e'.pops = e.pops

theorem receives_pack {e e' : Endpoint} {bytes : Bytes} (h : e.pack sha256 = some (e', bytes)) :
    Receives e e' := by
  obtain ⟨m, hm⟩ := packing_of_pack h
  exact ⟨hm.serving, fun hopen => hm.connClosed ▸ hopen, hm.queue, hm.pops⟩

theorem receives_written {e e' : Endpoint} (h : e.written = some e') : Receives e e' := by
  obtain ⟨c, writing, _, rfl⟩ := written_eq_some h
  cases c with
  | closeClient => exact ⟨rfl, fun ho => (by cases ho), rfl, rfl⟩
  | _ => exact ⟨rfl, id, rfl, rfl⟩

theorem Awaits.receives {s s' r r' : Endpoint} (h : Awaits sha256 s r) (hpacks : s'.packs = s.packs)
    (hr : Receives r r') : Awaits sha256 s' r' :=
  h.congr hpacks hr.serving hr.isOpen hr.queue hr.pops

theorem packs_written {e e' : Endpoint} (h : e.written = some e') : e'.packs = e.packs := by
  obtain ⟨c, writing, _, rfl⟩ := written_eq_some h
  cases c <;> rfl

theorem packs_recv {unit : Codec LowlevelUnit} {role : Role} {e e' : Endpoint} {chunk : Bytes}
    {salts : Bytes × Bytes} (h : e.recv sha256 unit role chunk salts = some e') :
    e'.settle.packs = e.packs := by
  rw [settle_packs]
  obtain ⟨_, _, _, ⟨p, err, hp, rfl⟩ | ⟨p, hp, rfl⟩ | ⟨p, hp, hserv, rfl⟩ | ⟨p, hp, hserv, rfl⟩⟩ :=
    recv_cases h
  · rfl
  · rfl
  · refine serve_inv sha256 unit (I := fun e₁ => e₁.packs = e.packs) ?_ ?_ ?_ p.queueSize
      (e.setProtocol p) rfl
    · intro e₁ e₂ res h hpop
      obtain ⟨p', _, rfl⟩ := popRaw_eq_some hpop
      exact h
    · exact fun e₁ h => h
    · exact fun e₁ llu h => h
  · obtain ⟨_, heq⟩ | ⟨e₁, hpop, heq⟩ | ⟨e₁, data, hpop, heq⟩ :=
      doHandshake_cases sha256 role (e.setProtocol p) salts
    · rw [heq]
      rfl
    all_goals
      obtain ⟨p', _, rfl⟩ := popRaw_eq_some hpop
      rw [heq]
      rfl

/-- **A chunk** for an end of a session, with what its handlers come to. -/
theorem received {unit : Codec LowlevelUnit} {role : Role} {limit reach n : ℕ} {s r r' : Endpoint}
    {link link' : Bytes} {salts : Bytes × Bytes} (hl : Linked sha256 s r link)
    (a : Attends limit reach r) (w : Awaits sha256 s r)
    (hmoves : ∀ q, Linked sha256 s (requeue r q) (link.drop n) → q.messages ≠ [] →
      Kept r (requeue r q) → Attends limit reach (requeue r q) → r.serving = false →
      r.connClosed = false → r.todo = [] → ∀ e, e = doHandshake sha256 role (requeue r q) salts →
        Moves limit reach s e.settle ∧ rank e.settle < rank r ∧ .connectionClose ∉ e.todo)
    (hr : r.recv sha256 unit role (link.take n) salts = some r')
    (hl' : Linked sha256 s r'.settle link') :
    Attends limit reach r'.settle ∧ Awaits sha256 s r'.settle ∧ .connectionClose ∉ r'.todo ∧
      (r.serving = false → (r.protocol.processData (link.take n)).2 = .stage →
        rank r'.settle < rank r ∧ r'.connClosed = false) := by
  have hproc := a.processed (link.take n)
  have hkept := kept_processData r (link.take n)
  have hstay : .connectionClose ∉ r.todo := by
    rw [(recv_cases hr).2.2.1]
    simp
  obtain ⟨_, hopen, htodo, ⟨p, err, hp, rfl⟩ | ⟨p, hp, rfl⟩ | ⟨p, hp, hserv, rfl⟩ |
    ⟨p, hp, hserv, hr'⟩⟩ := recv_cases hr
  · rw [hp] at hproc ⊢
    have hidle : ({ r.setProtocol p with reading := false, connClosed := true } : Endpoint).settle =
        { r.setProtocol p with reading := false, connClosed := true } := settle_of_todo htodo
    refine ⟨?_, ?_, ?_, fun _ hst => by cases hst⟩
    · rw [hidle]
      exact hproc.raised
    · rw [hidle]
      exact fun _ ho => (by cases ho)
    · exact hstay
  · rw [hp] at hproc ⊢
    have hidle : (r.setProtocol p).settle = r.setProtocol p := settle_of_todo htodo
    refine ⟨?_, ?_, ?_, fun _ hst => by cases hst⟩
    · rw [hidle]
      exact hproc
    · rw [hidle]
      exact w.idle hl hp
    · exact hstay
  · have hserve := kept_serve sha256 unit p.queueSize (e := r.setProtocol p) hserv
    obtain ⟨hserv', hlayer'⟩ := serve_serving sha256 unit p.queueSize (r.setProtocol p)
      hserv (a.serves hserv)
    have htodo' : (serve sha256 unit p.queueSize (r.setProtocol p)).todo = [] := hserve.todo.trans htodo
    rw [settle_of_todo htodo']
    refine ⟨.of_serving hserv' hlayer', .of_serving hserv', by rw [htodo']; simp, fun hnot => ?_⟩
    rw [hserv] at hnot
    cases hnot
  · obtain ⟨_, herr⟩ | ⟨q, rfl, hlq, hne⟩ := hl.processData hopen n hp
    · cases herr
    rw [hp] at hproc hkept ⊢
    obtain ⟨hm, hrank, hstay'⟩ := hmoves q hlq (hne rfl) hkept hproc hserv hopen htodo r' hr'
    refine ⟨hm.attends, fun hserv' _ => ?_, hstay', fun _ _ => ⟨hrank, open_of_settle hm.isOpen⟩⟩
    obtain ⟨bs, hbs, hdata⟩ := hl'.stream hm.isOpen
    rw [hm.flight hserv', List.map_nil] at hbs ⊢
    obtain ⟨hms, rfl⟩ := List.append_eq_nil_iff.mp hbs.symm
    exact ⟨hms, (List.append_eq_nil_iff.mp hdata).1⟩

end

/-- The invariant of a session whose handshake can be completed. -/
structure Lively (sha256 : Bytes → Digest) (A : AuthCodecs) (app : Server.Application)
    (opts : SessionOptions) (base : Client.Base) (s : Session) : Prop where
  inv : Inv sha256 A base s
  limits : Limits A base opts (app.configureSession opts) s.server.settle s.client.settle
  server : Attends opts.maxMessageLength.toNat SessionOptions.defaults.maxMessageLength.toNat
    s.server.settle
  client : Attends SessionOptions.defaults.maxMessageLength.toNat opts.maxMessageLength.toNat
    s.client.settle
  toClient : Awaits sha256 s.server.settle s.client.settle
  toServer : Awaits sha256 s.client.settle s.server.settle
  serverStays : .connectionClose ∉ s.server.todo
  clientStays : .connectionClose ∉ s.client.todo

section
variable {sha256 : Bytes → Digest} {A : AuthCodecs} {unit : Codec LowlevelUnit}
  {app : Server.Application} {opts : SessionOptions} {base : Client.Base} {s s' : Session}

theorem lively_start (hfit : MessagesFit A app opts base) :
    Lively sha256 A app opts base { server := Server.start A opts, client := Client.start } := by
  have hS : (Server.start A opts).settle = Server.start A opts := rfl
  have hC : Client.start.settle = Client.start := rfl
  refine ⟨inv_start, limits_start, ⟨fun h => (by cases h), fun _ => ?_⟩,
    ⟨fun h => (by cases h), fun _ => ?_⟩, fun _ _ => ⟨rfl, rfl⟩, fun _ _ => ⟨rfl, rfl⟩,
    by simp [Server.start], by simp [Client.start]⟩
  · refine ⟨fun _ => .inr (.inl ⟨_, List.mem_singleton.mpr rfl, rfl⟩), rfl, fun d hd => ?_,
      fun _ => rfl, fun h => ?_⟩
    · obtain rfl : d = Server.firstMessage A := List.mem_singleton.mp hd
      exact hfit.hello
    · rcases h with h | h <;> cases h
  · refine ⟨fun _ => .inl rfl, rfl, fun d hd => (by cases hd), fun h => (by cases h), fun h => ?_⟩
    rcases h with h | h <;> cases h

theorem Lively.receivedServer (hA : A.Lawful)
    (happ : ∀ key, base.sessionKey = some key → app.getSessionKey base.sessionId = key)
    (hkey : base.sessionKey = none → app.sessionKeyRequired [] = false)
    (hfit : MessagesFit A app opts base) (h : Lively sha256 A app opts base s) {n : ℕ}
    {salts : Bytes × Bytes} (hsalts : Drawn salts) {e : Endpoint}
    (he : s.server.recv sha256 unit (Server.role A sha256 app opts) (s.toServer.take n) salts =
      some e) :
    Attends opts.maxMessageLength.toNat SessionOptions.defaults.maxMessageLength.toNat e.settle ∧
      Awaits sha256 s.client.settle e.settle ∧ .connectionClose ∉ e.todo ∧
      (s.server.serving = false → (s.server.protocol.processData (s.toServer.take n)).2 = .stage →
        rank e.settle < rank s.server ∧ e.connClosed = false) := by
  have hs : Session.step sha256 A unit app opts base s (.deliver .server n salts) =
      some { s with server := e, toServer := s.toServer.drop n } := by
    rw [Session.step, he]
    rfl
  have hinv := h.inv.step hA happ hs
  obtain ⟨⟨hphase, _, hts, _, _⟩, _, a, _, _, w, _, _⟩ := h
  rw [settle_of_todo (recv_cases he).2.2.1] at hphase hts a w
  exact received hts a w (fun q hlq hne _ aq hserv hopen htodo e' he' =>
    moves_server hA hkey hfit (hphase.quiet (quiet_requeue s.server q) (quiet_refl _)) aq
      hlq hopen htodo hserv hne hsalts he') he hinv.toServer

theorem Lively.receivedClient (hA : A.Lawful)
    (happ : ∀ key, base.sessionKey = some key → app.getSessionKey base.sessionId = key)
    (hfit : MessagesFit A app opts base) (h : Lively sha256 A app opts base s) {n : ℕ}
    {salts : Bytes × Bytes} (hsalts : Drawn salts) {e : Endpoint}
    (he : s.client.recv sha256 unit (Client.role A sha256 base) (s.toClient.take n) salts =
      some e) :
    Attends SessionOptions.defaults.maxMessageLength.toNat opts.maxMessageLength.toNat e.settle ∧
      Awaits sha256 s.server.settle e.settle ∧ .connectionClose ∉ e.todo ∧
      (s.client.serving = false → (s.client.protocol.processData (s.toClient.take n)).2 = .stage →
        rank e.settle < rank s.client ∧ e.connClosed = false) := by
  have hs : Session.step sha256 A unit app opts base s (.deliver .client n salts) =
      some { s with client := e, toClient := s.toClient.drop n } := by
    rw [Session.step, he]
    rfl
  have hinv := h.inv.step hA happ hs
  obtain ⟨⟨hphase, htc, _, _, _⟩, hlim, aS, a, w, _, _, _⟩ := h
  rw [settle_of_todo (recv_cases he).2.2.1] at hphase htc hlim a w
  exact received htc a w (fun q hlq hne hkq aq hserv hopen htodo e' he' =>
    moves_client hA hfit (hphase.quiet (quiet_refl _) (quiet_requeue s.client q))
      (hlim.kept (Kept.refl _) hkq) aS aq hlq hopen htodo hserv hne hsalts he') he hinv.toClient

/-- Only a refusal is sent with the closure that closes the connection. -/
theorem Lively.not_closing (h : Lively sha256 A app opts base s)
    (hopenC : s.client.connClosed = false) :
    .closeClient ∉ s.server.writing ∧ .closeClient ∉ s.client.writing := by
  have hphase := h.inv.phase
  rw [← settle_writing, ← settle_writing s.client]
  refine ⟨?_, hphase.closeClient⟩
  cases hphase with
  | hello _ _ tS => exact Tame.noClose tS.writing
  | selection _ _ tS => exact Tame.noClose tS.writing
  | setup _ _ _ _ _ _ tS => exact Tame.noClose tS.writing
  | answer _ _ _ _ _ _ tS => exact Tame.noClose tS.writing
  | steady tS => exact Tame.noClose tS.writing
  | refused wS sends tC wC sc cs pcs closed =>
      obtain ⟨hst, _⟩ := closed.resolve_left (by rw [settle_open h.clientStays hopenC]; simp)
      exact not_refused (h.server.greets wS.serving) (h.client.greets wC.serving) wS.stage hst pcs

/-- **Every step** keeps the invariant. -/
theorem Lively.step (hA : A.Lawful)
    (happ : ∀ key, base.sessionKey = some key → app.getSessionKey base.sessionId = key)
    (hkey : base.sessionKey = none → app.sessionKeyRequired [] = false)
    (hfit : MessagesFit A app opts base) {ev : Event} (hev : ev.Drawn)
    (h : Lively sha256 A app opts base s)
    (hs : Session.step sha256 A unit app opts base s ev = some s') :
    Lively sha256 A app opts base s' := by
  have hinv := h.inv.step hA happ hs
  have hlimits := Limits.step hA happ h.inv h.limits hs
  obtain ⟨⟨hphase, htc, hts, hos, hoc⟩, _, aS, aC, wC, wS, stS, stC⟩ := id h
  cases ev with
  | act side =>
      cases side with
      | server =>
          obtain ⟨e, he, rfl⟩ := Option.map_eq_some_iff.mp hs
          have heq := settle_act he
          rw [← heq] at aS wC wS
          exact ⟨hinv, hlimits, aS, aC, wC, wS, not_mem_todo stS he, stC⟩
      | client =>
          obtain ⟨e, he, rfl⟩ := Option.map_eq_some_iff.mp hs
          have heq := settle_act he
          rw [← heq] at aC wC wS
          exact ⟨hinv, hlimits, aS, aC, wC, wS, stS, not_mem_todo stC he⟩
  | pack side =>
      cases side with
      | server =>
          obtain ⟨⟨e, bytes⟩, he, rfl⟩ := Option.map_eq_some_iff.mp hs
          have hp := settle_pack hos he
          refine ⟨hinv, hlimits, aS.pack hp, aC, wC.packed htc.length_le hp,
            wS.receives rfl (receives_pack hp), ?_, stC⟩
          rw [show e.todo = s.server.todo from (pack_setTodo he []).2]
          exact stS
      | client =>
          obtain ⟨⟨e, bytes⟩, he, rfl⟩ := Option.map_eq_some_iff.mp hs
          have hp := settle_pack hoc he
          refine ⟨hinv, hlimits, aS, aC.pack hp, wC.receives rfl (receives_pack hp),
            wS.packed hts.length_le hp, stS, ?_⟩
          rw [show e.todo = s.client.todo from (pack_setTodo he []).2]
          exact stC
  | written side =>
      cases side with
      | server =>
          obtain ⟨e, he, rfl⟩ := Option.map_eq_some_iff.mp hs
          have hw := settle_written hos (by rw [← settle_writing]; exact hphase.closeServer) he
          refine ⟨hinv, hlimits, aS.written hw, aC, wC.congr (packs_written hw) rfl id rfl rfl,
            wS.receives rfl (receives_written hw), ?_, stC⟩
          rw [(kept_written he).todo]
          exact stS
      | client =>
          obtain ⟨e, he, rfl⟩ := Option.map_eq_some_iff.mp hs
          have hw := settle_written hoc
            (fun hc => (hphase.closeClient (by rw [settle_writing]; exact hc)).elim) he
          refine ⟨hinv, hlimits, aS, aC.written hw, wC.receives rfl (receives_written hw),
            wS.congr (packs_written hw) rfl id rfl rfl, stS, ?_⟩
          rw [(kept_written he).todo]
          exact stC
  | send side data =>
      cases side with
      | server =>
          obtain ⟨e, he, rfl⟩ := Option.map_eq_some_iff.mp hs
          have hsend := (settle_send hos he).1
          have a := aS.send hphase.servingServer hsend
          have htodo := (kept_send he).todo
          obtain ⟨_, heq⟩ := send_eq_some hsend
          refine ⟨hinv, hlimits, a, aC, ?_, ?_, by rw [htodo]; exact stS, stC⟩
          · exact wC.congr (by rw [heq]) rfl id rfl rfl
          · exact wS.receives rfl (by rw [heq]; exact ⟨rfl, id, rfl, rfl⟩)
      | client =>
          obtain ⟨e, he, rfl⟩ := Option.map_eq_some_iff.mp hs
          have hsend := (settle_send hoc he).1
          have a := aC.send hphase.servingClient hsend
          have htodo := (kept_send he).todo
          obtain ⟨_, heq⟩ := send_eq_some hsend
          refine ⟨hinv, hlimits, aS, a, ?_, ?_, stS, by rw [htodo]; exact stC⟩
          · exact wC.receives rfl (by rw [heq]; exact ⟨rfl, id, rfl, rfl⟩)
          · exact wS.congr (by rw [heq]) rfl id rfl rfl
  | deliver side n salts =>
      cases side with
      | server =>
          obtain ⟨e, he, rfl⟩ := Option.map_eq_some_iff.mp hs
          obtain ⟨a, w, st, _⟩ := h.receivedServer hA happ hkey hfit hev he
          refine ⟨hinv, hlimits, a, aC, ?_, w, st, stC⟩
          rw [settle_of_todo (recv_cases he).2.2.1] at wC
          exact wC.congr (packs_recv he) rfl id rfl rfl
      | client =>
          obtain ⟨e, he, rfl⟩ := Option.map_eq_some_iff.mp hs
          obtain ⟨a, w, st, _⟩ := h.receivedClient hA happ hfit hev he
          refine ⟨hinv, hlimits, aS, a, w, ?_, stS, st⟩
          rw [settle_of_todo (recv_cases he).2.2.1] at wS
          exact wS.congr (packs_recv he) rfl id rfl rfl

/-! ### Progress -/

/-- **A message in flight** can be delivered to its last byte and not further. -/
theorem deliver_exact {S C : Endpoint} {link : Bytes} (hl : Linked sha256 S C link)
    (w : Awaits sha256 S C) (hopen : C.connClosed = false) (hserv : C.serving = false) {k : Packed}
    {ks : List Packed} (hf : flight S C = k :: ks)
    (hlen : k.data.length + 32 ≤ C.protocol.queue.maxValidLength) :
    ∃ n, (C.protocol.processData (link.take n)).2 = .stage := by
  obtain ⟨hms, hpart⟩ := w hserv hopen
  obtain ⟨bs, hbs, hdata⟩ := hl.stream hopen
  rw [hms, List.nil_append, hf, List.map_cons] at hbs
  rw [hf] at hpart
  subst hbs
  have hshort : C.protocol.queue.data.length <
      (DataQueue.frame sizePolicy (k.body sha256)).length := hpart
  have hbody : (k.body sha256).length ≤ C.protocol.queue.maxValidLength := by
    have := hashKind_size_le k.hash
    rw [Packed.body_length]
    omega
  rw [frames_cons, List.flatten_cons] at hdata
  refine ⟨(DataQueue.frame sizePolicy (k.body sha256)).length - C.protocol.queue.data.length, ?_⟩
  generalize hn : (DataQueue.frame sizePolicy (k.body sha256)).length -
    C.protocol.queue.data.length = n
  have hframe : C.protocol.queue.data ++ (link.take n ++ []) =
      (frames [k.body sha256]).flatten := by
    have htake := congrArg (List.take (DataQueue.frame sizePolicy (k.body sha256)).length) hdata
    rw [List.take_append, List.take_of_length_le hshort.le, List.take_left, hn] at htake
    rw [List.append_nil, htake]
    simp
  have hne : link.take n ≠ [] := by
    intro hnil
    rw [hnil] at hframe
    have := congrArg List.length hframe
    simp at this
    omega
  have hmax : (k.body sha256).length ≤ maxBody :=
    hl.body_le _ (by rw [hf]; exact List.mem_cons_self)
  rw [processData_frames hne hframe (by simpa using hmax) (by simpa using hbody)]
  rw [List.append_nil] at hframe
  rw [hframe, ended_flatten]
  rfl

theorem recv_of_reading (unit : Codec LowlevelUnit) (role : Role) {e : Endpoint} (chunk : Bytes)
    (salts : Bytes × Bytes) (hread : e.reading = true) (hopen : e.connClosed = false)
    (htodo : e.todo = []) : ∃ e', e.recv sha256 unit role chunk salts = some e' := by
  rw [recv, hread, hopen, htodo, if_pos (by rfl)]
  split
  · exact ⟨_, rfl⟩
  · exact ⟨_, rfl⟩
  · split_ifs <;> exact ⟨_, rfl⟩

theorem Greets.short_head {limit : ℕ} {M : UInt32} {e : Endpoint} (g : Greets limit M.toNat e)
    {m : Posted} {outbox : List Posted} (hout : e.outbox = m :: outbox) : m.data.length < 2 ^ 63 := by
  have hmem : m.data ∈ posted e := by
    rw [posted, hout]
    simp
  have := g.short _ hmem
  have := M.toNat_lt
  omega

theorem Greets.short_flight {limit reach : ℕ} {e r : Endpoint} (g : Greets limit reach e) {k : Packed}
    {ks : List Packed} (hf : flight e r = k :: ks) : k.data.length + 32 ≤ reach :=
  g.short _ (List.mem_of_getElem? (posted_of_flight hf))

theorem Greets.reading {limit reach : ℕ} {e : Endpoint} (g : Greets limit reach e)
    (hopen : e.connClosed = false) (hout : e.outbox = []) (hw : e.writing = []) : e.reading = true := by
  rcases g.reads hopen with hr | ⟨m, hm, _⟩ | hc
  · exact hr
  · rw [hout] at hm
    cases hm
  · rw [hw] at hc
    cases hc

theorem flight_cons_of_pending {e r : Endpoint} {d : Bytes} (h : pending e r = [d])
    (hout : e.outbox = []) : ∃ k ks, flight e r = k :: ks := by
  rw [pending, hout, List.map_nil, List.append_nil] at h
  exact List.exists_cons_of_ne_nil (fun hnil => by rw [hnil] at h; cases h)

/-- The message after the packed ones is the first of the posted. -/
theorem outbox_of_posted {e : Endpoint} {d : Bytes} (h : (posted e)[e.packs.length]? = some d) :
    ∃ m outbox, e.outbox = m :: outbox ∧ m.data = d := by
  rw [posted, List.getElem?_append_right (by rw [List.length_map]), List.length_map, Nat.sub_self,
    List.getElem?_map] at h
  cases hout : e.outbox with
  | nil =>
      rw [hout] at h
      cases h
  | cons m outbox =>
      rw [hout] at h
      exact ⟨m, outbox, rfl, Option.some.inj h⟩

/-- What the end has still to do by itself. -/
def work (e : Endpoint) : ℕ := 3 * e.todo.length + 2 * e.outbox.length + e.writing.length

theorem work_act {e e' : Endpoint} (h : e.act = some e') : work e' < work e := by
  obtain ⟨a, todo, htodo, rfl⟩ := act_eq_some h
  rw [work, work, exec_todo, htodo]
  cases a with
  | write data closure =>
      simp only [exec, List.length_append, List.length_cons, List.length_nil]
      omega
  | switchToReady =>
      rw [exec_switchToReady]
      simp only [List.length_cons]
      omega
  | accessorReady =>
      rw [exec_accessorReady]
      simp only [List.length_cons]
      omega
  | _ =>
      simp only [exec, setProtocol, List.length_cons]
      omega

theorem work_pack {e e' : Endpoint} {bytes : Bytes} (h : e.pack sha256 = some (e', bytes)) :
    work e' < work e := by
  obtain ⟨m, hm⟩ := packing_of_pack h
  rw [work, work, hm.todo, hm.outbox, hm.writing]
  split_ifs
  · simp only [List.length_append, List.length_cons, List.length_nil]
    omega
  · simp only [List.length_cons]
    omega

theorem work_written {e e' : Endpoint} (h : e.written = some e') : work e' < work e := by
  obtain ⟨c, writing, hw, rfl⟩ := written_eq_some h
  rw [work, work, hw]
  cases c <;> simp only [runClosure, setProtocol, List.length_cons] <;> omega

theorem rank_kept {e e' : Endpoint} (h : Kept e e') : rank e' = rank e := by
  rw [rank, rank, h.serving, h.stage]

theorem open_act {e e' : Endpoint} (h : e.act = some e') (hstay : .connectionClose ∉ e.todo)
    (hopen : e.connClosed = false) : e'.connClosed = false := by
  obtain ⟨a, todo, htodo, rfl⟩ := act_eq_some h
  rw [open_exec (fun heq => hstay (by rw [htodo, heq]; exact List.mem_cons_self))]
  exact hopen

theorem open_pack {e e' : Endpoint} {bytes : Bytes} (h : e.pack sha256 = some (e', bytes))
    (hopen : e.connClosed = false) : e'.connClosed = false := by
  obtain ⟨m, hm⟩ := packing_of_pack h
  exact hm.connClosed.trans hopen

theorem open_written {e e' : Endpoint} (h : e.written = some e') (hclose : .closeClient ∉ e.writing)
    (hopen : e.connClosed = false) : e'.connClosed = false := by
  obtain ⟨c, writing, hw, rfl⟩ := written_eq_some h
  cases c with
  | closeClient => exact absurd (by rw [hw]; exact List.mem_cons_self) hclose
  | _ => exact hopen

/-- The messages that are still to be handled, then what the ends have to do by themselves. -/
def distance (s : Session) : ℕ ×ₗ ℕ :=
  toLex (rank s.server.settle + rank s.client.settle, work s.server + work s.client)

theorem distance_of_work {s s' : Session} (hrank : rank s'.server.settle + rank s'.client.settle =
      rank s.server.settle + rank s.client.settle)
    (hwork : work s'.server + work s'.client < work s.server + work s.client) :
    distance s' < distance s :=
  Prod.Lex.toLex_lt_toLex.mpr (.inr ⟨hrank, hwork⟩)

theorem distance_of_rank {s s' : Session} (hrank : rank s'.server.settle + rank s'.client.settle <
      rank s.server.settle + rank s.client.settle) : distance s' < distance s :=
  Prod.Lex.toLex_lt_toLex.mpr (.inl hrank)

variable (sha256 A unit app opts base) in
/-- An event of the handshake brings the session nearer to its goal and closes nothing. -/
def Advances (s : Session) : Prop :=
  ∃ ev s', ev.Handshake ∧ Session.step sha256 A unit app opts base s ev = some s' ∧
    s'.server.connClosed = false ∧ s'.client.connClosed = false ∧ distance s' < distance s

section
variable (hopenS : s.server.connClosed = false) (hopenC : s.client.connClosed = false)
include hopenS hopenC

theorem Lively.advance_act (h : Lively sha256 A app opts base s)
    (htodo : s.server.todo ≠ [] ∨ s.client.todo ≠ []) : Advances sha256 A unit app opts base s := by
  rcases htodo with htodo | htodo
  · obtain ⟨a, todo, htodo⟩ := List.exists_cons_of_ne_nil htodo
    obtain ⟨e, hact⟩ : ∃ e, s.server.act = some e := ⟨_, by rw [Endpoint.act, htodo]⟩
    refine ⟨.act .server, { s with server := e }, trivial, by rw [Session.step, hact]; rfl,
      open_act hact h.serverStays hopenS, hopenC, distance_of_work ?_ ?_⟩
    · rw [settle_act hact]
    · exact Nat.add_lt_add_right (work_act hact) _
  · obtain ⟨a, todo, htodo⟩ := List.exists_cons_of_ne_nil htodo
    obtain ⟨e, hact⟩ : ∃ e, s.client.act = some e := ⟨_, by rw [Endpoint.act, htodo]⟩
    refine ⟨.act .client, { s with client := e }, trivial, by rw [Session.step, hact]; rfl, hopenS,
      open_act hact h.clientStays hopenC, distance_of_work ?_ ?_⟩
    · rw [settle_act hact]
    · exact Nat.add_lt_add_left (work_act hact) _

theorem Lively.advance_packServer (h : Lively sha256 A app opts base s) {m : Posted}
    {outbox : List Posted} (hout : s.server.outbox = m :: outbox) (hlen : m.data.length < 2 ^ 63) :
    Advances sha256 A unit app opts base s := by
  obtain ⟨⟨e, bytes⟩, hp⟩ : ∃ r, s.server.pack sha256 = some r :=
    ⟨_, pack_of_outbox s.server m outbox hout hlen⟩
  refine ⟨.pack .server, { s with server := e, toClient := s.toClient ++ bytes }, trivial,
    by rw [Session.step, hp]; rfl, open_pack hp hopenS, hopenC,
    distance_of_work ?_ ?_⟩
  · rw [rank_kept (kept_pack (settle_pack h.inv.server hp))]
  · exact Nat.add_lt_add_right (work_pack hp) _

theorem Lively.advance_packClient (h : Lively sha256 A app opts base s) {m : Posted}
    {outbox : List Posted} (hout : s.client.outbox = m :: outbox) (hlen : m.data.length < 2 ^ 63) :
    Advances sha256 A unit app opts base s := by
  obtain ⟨⟨e, bytes⟩, hp⟩ : ∃ r, s.client.pack sha256 = some r :=
    ⟨_, pack_of_outbox s.client m outbox hout hlen⟩
  refine ⟨.pack .client, { s with client := e, toServer := s.toServer ++ bytes }, trivial,
    by rw [Session.step, hp]; rfl, hopenS, open_pack hp hopenC,
    distance_of_work ?_ ?_⟩
  · rw [rank_kept (kept_pack (settle_pack h.inv.client hp))]
  · exact Nat.add_lt_add_left (work_pack hp) _

theorem Lively.advance_written (h : Lively sha256 A app opts base s)
    (hw : s.server.writing ≠ [] ∨ s.client.writing ≠ []) :
    Advances sha256 A unit app opts base s := by
  obtain ⟨hcloseS, hcloseC⟩ := h.not_closing hopenC
  rcases hw with hw | hw
  · obtain ⟨c, writing, hw⟩ := List.exists_cons_of_ne_nil hw
    obtain ⟨e, he⟩ : ∃ e, s.server.written = some e := ⟨_, written_of_writing s.server c writing hw⟩
    refine ⟨.written .server, { s with server := e }, trivial, by rw [Session.step, he]; rfl,
      open_written he hcloseS hopenS, hopenC, distance_of_work ?_ ?_⟩
    · rw [rank_kept (kept_written (settle_written h.inv.server (fun hc => absurd hc hcloseS) he))]
    · exact Nat.add_lt_add_right (work_written he) _
  · obtain ⟨c, writing, hw⟩ := List.exists_cons_of_ne_nil hw
    obtain ⟨e, he⟩ : ∃ e, s.client.written = some e := ⟨_, written_of_writing s.client c writing hw⟩
    refine ⟨.written .client, { s with client := e }, trivial, by rw [Session.step, he]; rfl, hopenS,
      open_written he hcloseC hopenC, distance_of_work ?_ ?_⟩
    · rw [rank_kept (kept_written (settle_written h.inv.client (fun hc => absurd hc hcloseC) he))]
    · exact Nat.add_lt_add_left (work_written he) _

theorem Lively.advance_deliverClient (hA : A.Lawful)
    (happ : ∀ key, base.sessionKey = some key → app.getSessionKey base.sessionId = key)
    (hfit : MessagesFit A app opts base) (h : Lively sha256 A app opts base s)
    (htodoS : s.server.todo = []) (htodoC : s.client.todo = []) (hread : s.client.reading = true)
    (hserv : s.client.serving = false) {k : Packed} {ks : List Packed}
    (hf : flight s.server s.client = k :: ks)
    (hlen : k.data.length + 32 ≤ SessionOptions.defaults.maxMessageLength.toNat) :
    Advances sha256 A unit app opts base s := by
  have hlink := h.inv.toClient
  have w := h.toClient
  have g := h.client.greets (by rw [settle_of_todo htodoC]; exact hserv)
  rw [settle_of_todo htodoS, settle_of_todo htodoC] at hlink w
  rw [settle_of_todo htodoC] at g
  obtain ⟨salts, hdrawn⟩ := exists_drawn
  obtain ⟨n, hn⟩ := deliver_exact hlink w hopenC hserv hf (hlen.trans g.limit.ge)
  obtain ⟨e, he⟩ := recv_of_reading unit (Client.role A sha256 base) (s.toClient.take n) salts
    hread hopenC htodoC
  obtain ⟨_, _, _, hmoves⟩ := h.receivedClient hA happ hfit hdrawn he
  obtain ⟨hrank, hopen⟩ := hmoves hserv hn
  refine ⟨.deliver .client n salts, { s with client := e, toClient := s.toClient.drop n }, hdrawn,
    by rw [Session.step, he]; rfl, hopenS, hopen, distance_of_rank ?_⟩
  rw [settle_of_todo htodoC]
  exact Nat.add_lt_add_left hrank _

theorem Lively.advance_deliverServer (hA : A.Lawful)
    (happ : ∀ key, base.sessionKey = some key → app.getSessionKey base.sessionId = key)
    (hkey : base.sessionKey = none → app.sessionKeyRequired [] = false)
    (hfit : MessagesFit A app opts base) (h : Lively sha256 A app opts base s)
    (htodoS : s.server.todo = []) (htodoC : s.client.todo = []) (hread : s.server.reading = true)
    (hserv : s.server.serving = false) {k : Packed} {ks : List Packed}
    (hf : flight s.client s.server = k :: ks)
    (hlen : k.data.length + 32 ≤ opts.maxMessageLength.toNat) :
    Advances sha256 A unit app opts base s := by
  have hlink := h.inv.toServer
  have w := h.toServer
  have g := h.server.greets (by rw [settle_of_todo htodoS]; exact hserv)
  rw [settle_of_todo htodoS, settle_of_todo htodoC] at hlink w
  rw [settle_of_todo htodoS] at g
  obtain ⟨salts, hdrawn⟩ := exists_drawn
  obtain ⟨n, hn⟩ := deliver_exact hlink w hopenS hserv hf (hlen.trans g.limit.ge)
  obtain ⟨e, he⟩ := recv_of_reading unit (Server.role A sha256 app opts) (s.toServer.take n) salts
    hread hopenS htodoS
  obtain ⟨_, _, _, hmoves⟩ := h.receivedServer hA happ hkey hfit hdrawn he
  obtain ⟨hrank, hopen⟩ := hmoves hserv hn
  refine ⟨.deliver .server n salts, { s with server := e, toServer := s.toServer.drop n }, hdrawn,
    by rw [Session.step, he]; rfl, hopen, hopenC, distance_of_rank ?_⟩
  rw [settle_of_todo htodoS]
  exact Nat.add_lt_add_right hrank _

/-- The client waits for the announcement, which is packed or delivered. -/
theorem Lively.advance_announcement (hA : A.Lawful)
    (happ : ∀ key, base.sessionKey = some key → app.getSessionKey base.sessionId = key)
    (hfit : MessagesFit A app opts base) (h : Lively sha256 A app opts base s)
    (htodoS : s.server.todo = []) (htodoC : s.client.todo = []) (hS : s.server.serving = true)
    (hread : s.client.reading = true) (hserv : s.client.serving = false)
    (hst : s.client.stage = .ready) : Advances sha256 A unit app opts base s := by
  have hlim := h.limits
  have hlink := h.inv.toClient
  rw [settle_of_todo htodoS, settle_of_todo htodoC] at hlim hlink
  have hposted := hlim.posted hS
  rw [← hlim.ready hserv hst] at hposted
  rcases hf : flight s.server s.client with _ | ⟨k, ks⟩
  · rw [flight, List.drop_eq_nil_iff] at hf
    rw [← Nat.le_antisymm hf hlink.length_le] at hposted
    obtain ⟨m, outbox, hout, hdata⟩ := outbox_of_posted hposted
    have hready := hfit.ready
    rw [← hdata] at hready
    have hmax : SessionOptions.defaults.maxMessageLength.toNat < 2 ^ 63 := by decide
    exact h.advance_packServer hopenS hopenC hout (by omega)
  · have hk := posted_of_flight hf
    rw [hposted] at hk
    refine h.advance_deliverClient hopenS hopenC hA happ hfit htodoS htodoC hread hserv hf ?_
    rw [← Option.some.inj hk]
    exact hfit.ready

/-- **Progress**: short of its goal, a session can go on. -/
theorem Lively.progress (hA : A.Lawful)
    (happ : ∀ key, base.sessionKey = some key → app.getSessionKey base.sessionId = key)
    (hkey : base.sessionKey = none → app.sessionKeyRequired [] = false)
    (hfit : MessagesFit A app opts base) (h : Lively sha256 A app opts base s)
    (hgoal : ¬ (s.server.layerReady = true ∧ s.client.layerReady = true)) :
    Advances sha256 A unit app opts base s := by
  -- the running handlers come first, then the completions of the writes
  by_cases htodo : s.server.todo ≠ [] ∨ s.client.todo ≠ []
  · exact h.advance_act hopenS hopenC htodo
  obtain ⟨htodoS, htodoC⟩ := not_or.mp htodo
  rw [not_not] at htodoS htodoC
  by_cases hw : s.server.writing ≠ [] ∨ s.client.writing ≠ []
  · exact h.advance_written hopenS hopenC hw
  obtain ⟨hwS, hwC⟩ := not_or.mp hw
  rw [not_not] at hwS hwC
  have aS := h.server
  have aC := h.client
  have hphase := h.inv.phase
  have hlim := h.limits
  have hlink := h.inv.toClient
  rw [settle_of_todo htodoS] at aS hphase hlim hlink
  rw [settle_of_todo htodoC] at aC hphase hlim hlink
  by_cases houtS : s.server.serving = false ∧ s.server.outbox ≠ []
  · obtain ⟨m, outbox, hout⟩ := List.exists_cons_of_ne_nil houtS.2
    exact h.advance_packServer hopenS hopenC hout ((aS.greets houtS.1).short_head hout)
  by_cases houtC : s.client.serving = false ∧ s.client.outbox ≠ []
  · obtain ⟨m, outbox, hout⟩ := List.exists_cons_of_ne_nil houtC.2
    exact h.advance_packClient hopenS hopenC hout ((aC.greets houtC.1).short_head hout)
  have hnoneS : s.server.serving = false → s.server.outbox = [] :=
    fun hserv => not_not.mp (fun hne => houtS ⟨hserv, hne⟩)
  have hnoneC : s.client.serving = false → s.client.outbox = [] :=
    fun hserv => not_not.mp (fun hne => houtC ⟨hserv, hne⟩)
  have hdeliverC : ∀ k ks, s.client.serving = false → flight s.server s.client = k :: ks →
      k.data.length + 32 ≤ SessionOptions.defaults.maxMessageLength.toNat →
      Advances sha256 A unit app opts base s := fun k ks hserv hf hlen =>
    h.advance_deliverClient hopenS hopenC hA happ hfit htodoS htodoC
      ((aC.greets hserv).reading hopenC (hnoneC hserv) hwC) hserv hf hlen
  have hdeliverS : ∀ k ks, s.server.serving = false → s.client.serving = false →
      flight s.client s.server = k :: ks → Advances sha256 A unit app opts base s :=
    fun k ks hserv hserv' hf =>
      h.advance_deliverServer hopenS hopenC hA happ hkey hfit htodoS htodoC
        ((aS.greets hserv).reading hopenS (hnoneS hserv) hwS) hserv hf
        ((aC.greets hserv').short_flight hf)
  cases hphase with
  | hello wS wC tS tC sc cs psc pcs =>
      obtain ⟨k, ks, hf⟩ := flight_cons_of_pending psc (hnoneS wS.serving)
      exact hdeliverC k ks wC.serving hf ((aS.greets wS.serving).short_flight hf)
  | selection wS wC tS tC checker revertor psc pcs =>
      rcases pcs with ⟨hout, _⟩ | ⟨k, _, _, hf, _⟩
      · rw [hnoneC wC.serving] at hout
        cases hout
      · exact hdeliverS k [] wS.serving wC.serving hf
  | setup key salts hkey' wS hid wC tS tC checker revertor maker checker' sc psc pcs =>
      obtain ⟨k, ks, hf⟩ := flight_cons_of_pending psc (hnoneS wS.serving)
      exact hdeliverC k ks wC.serving hf ((aS.greets wS.serving).short_flight hf)
  | answer key salts hkey' wS hid wC tS tC maker checker revertor cs psc pcs =>
      obtain ⟨k, ks, hf⟩ := flight_cons_of_pending pcs (hnoneC wC.serving)
      exact hdeliverS k ks wS.serving wC.serving hf
  | steady tS tC hS hC sc cs =>
      rcases hC with hC | ⟨hst, hlayer⟩
      · exact absurd ⟨aS.serves hS, aC.serves hC⟩ hgoal
      have hserv : s.client.serving = false := by
        rw [Bool.eq_false_iff]
        intro hserv
        rw [aC.serves hserv] at hlayer
        cases hlayer
      have hst : s.client.stage = .ready := by
        refine hst.resolve_right (fun herr => ?_)
        rw [hlim.error herr] at hS
        cases hS
      exact h.advance_announcement hopenS hopenC hA happ hfit htodoS htodoC hS
        ((aC.greets hserv).reading hopenC (hnoneC hserv) hwC) hserv hst
  | refused wS sends tC wC sc cs pcs closed =>
      obtain ⟨hst, _⟩ := closed.resolve_left (by rw [hopenC]; simp)
      exact not_refused (aS.greets wS.serving) (aC.greets wC.serving) wS.stage hst pcs

end

end

/-- **The handshake can be completed.**  Let server and client hold the same key, or the client none
and the server require none, and let the messages of the handshake be within the limits of the
parsers.  From every state that a session reaches with neither end closed, events of the handshake
alone lead to a state in which both layers are ready and neither end has closed: no order of the
steps of the ends, the strands, the completions and the pieces of the link leaves them waiting for
each other. -/
theorem handshake_completes (sha256 : Bytes → Digest) (A : AuthCodecs) (unit : Codec LowlevelUnit)
    (app : Server.Application) (opts : SessionOptions) (base : Client.Base) (hA : A.Lawful)
    (happ : ∀ key, base.sessionKey = some key → app.getSessionKey base.sessionId = key)
    (hkey : base.sessionKey = none → app.sessionKeyRequired [] = false)
    (hfit : MessagesFit A app opts base) (es : List Event) (hdrawn : ∀ ev ∈ es, ev.Drawn)
    (s : Session) (hs : (sessionMachine sha256 A unit app opts base).run es = some s)
    (hserver : s.server.connClosed = false) (hclient : s.client.connClosed = false) :
    ∃ es' s', (∀ ev ∈ es', ev.Handshake) ∧
      (sessionMachine sha256 A unit app opts base).runFrom s es' = some s' ∧
      (s'.server.layerReady = true ∧ s'.client.layerReady = true) ∧
      s'.server.connClosed = false ∧ s'.client.connClosed = false := by
  have hlively : Lively sha256 A app opts base s :=
    (sessionMachine sha256 A unit app opts base).inv_of_meets (C := fun _ ev => ev.Drawn)
      (fun _ _ _ h hev hstep => h.step hA happ hkey hfit hev hstep) (lively_start hfit)
      (Machine.meets_of_forall_mem _ hdrawn) hs
  obtain ⟨es', s', hes', hrun, ⟨_, hopen⟩, hgoal⟩ :=
    (sessionMachine sha256 A unit app opts base).exists_runFrom_of_decreasing (C := Event.Handshake)
      (I := fun s => Lively sha256 A app opts base s ∧ s.server.connClosed = false ∧
        s.client.connClosed = false)
      (G := fun s => s.server.layerReady = true ∧ s.client.layerReady = true) distance
      (fun s ⟨h, hS, hC⟩ hG => by
        obtain ⟨ev, s', hev, hstep, hS', hC', hlt⟩ : Advances sha256 A unit app opts base s :=
          h.progress hS hC hA happ hkey hfit hG
        refine ⟨[ev], s', by simpa using hev, ?_, ⟨h.step hA happ hkey hfit hev.drawn hstep, hS', hC'⟩,
          hlt⟩
        exact Machine.runFrom_cons_eq_some _ |>.mpr ⟨s', hstep, rfl⟩) s ⟨hlively, hserver, hclient⟩
  exact ⟨es', s', hes', hrun, hgoal, hopen⟩

/-! ### A session with a key -/

theorem keyCodecs_fit (app : Server.Application) (happ : app.configureSession .defaults = .defaults) :
    MessagesFit keyCodecs app .defaults ⟨some [0x01], []⟩ where
  hello := by decide +kernel
  selection := by decide +kernel
  setup := by
    rintro - ⟨s₁, s₂⟩ ⟨h₁, h₂⟩
    have hp : ∀ n, n < 128 ^ 2 → (Varint.pack n).length ≤ 2 := fun n hn => Varint.pack_length_le 1 n hn
    have hbody : (setupCodec.serialize ⟨s₁, s₂⟩).length ≤ 518 := by
      have hs₁ : s₁.length = 256 := h₁
      have hs₂ : s₂.length = 256 := h₂
      have hp₁ := hp s₁.length (by omega)
      have hp₂ := hp s₂.length (by omega)
      simp only [setupCodec, List.length_cons, List.length_append]
      omega
    have hlen : (setupMessage keyCodecs (s₁, s₂)).length ≤ 600 := by
      have := hp (setupCodec.serialize ⟨s₁, s₂⟩).length (by omega)
      rw [setupMessage, keyCodecs]
      simp only [readyCapsules, if_true, List.length_cons, List.length_append]
      omega
    have hmax : SessionOptions.defaults.maxMessageLength.toNat = 65536 := rfl
    omega
  ready := by
    rw [happ]
    decide +kernel

/-- Both ends hold a key; five bytes of the hello have arrived and nobody has heard of its being
sent. -/
theorem handshake_completes_key :
    let sha256 : Bytes → Digest := fun _ => ⟨List.replicate 32 0, rfl⟩
    let app : Server.Application := ⟨fun _ => true, fun _ => [0x01], id⟩
    let M := sessionMachine sha256 keyCodecs ⟨fun _ => [], fun _ => (false, {})⟩ app .defaults
      ⟨some [0x01], []⟩
    ∃ s, M.run [.pack .server, .deliver .client 5
        (List.replicate 256 0x02, List.replicate 256 0x03)] = some s ∧
      ∃ es' s', (∀ ev ∈ es', ev.Handshake) ∧ M.runFrom s es' = some s' ∧
        (s'.server.layerReady = true ∧ s'.client.layerReady = true) ∧
        s'.server.connClosed = false ∧ s'.client.connClosed = false := by
  intro sha256 app M
  have hrun : (M.run [.pack .server, .deliver .client 5
      (List.replicate 256 0x02, List.replicate 256 0x03)]).map (fun s =>
        (s.server.connClosed, s.client.connClosed)) = some (false, false) := by
    decide +kernel
  obtain ⟨s, hs, heq⟩ := Option.map_eq_some_iff.mp hrun
  obtain ⟨hserver, hclient⟩ := Prod.mk.inj heq
  refine ⟨s, hs, handshake_completes sha256 keyCodecs _ app .defaults _ keyCodecs_lawful ?_ ?_
    (keyCodecs_fit app rfl) _ ?_ s hs hserver hclient⟩
  · rintro key ⟨⟩
    rfl
  · rintro ⟨⟩
  · intro ev hev
    simp only [List.mem_cons, List.not_mem_nil, or_false] at hev
    rcases hev with rfl | rfl
    · exact trivial
    · exact ⟨List.length_replicate, List.length_replicate⟩

end Vtrc.Session
