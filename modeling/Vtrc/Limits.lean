import Vtrc.Session

/-! # The limits of a session

`session_options` live in four places: the protocol layer of each end, which reads
`max_active_calls` and `max_stack_size`, and the frame parser of each end, which reads
`max_message_length`.  When the server is ready it lets the application change a copy of the
listener's options (`configure_session`), configures its parser with the copy and announces the
copy to the client, which configures its parser and its layer with it.  The server's layer keeps
the listener's options.

`limits_iff` says when the limits that the ends use are the announced ones: when the application
changes neither of the two limits of the layer.  The invariant behind it (`Limits`) adds to the
phases of a session where in the server's messages the announcement stands. -/

namespace Vtrc.Session

open Endpoint DefaultProtocol

/-- The number of the server's messages before the one that ends the handshake. -/
def readyIndex (base : Client.Base) : ℕ := if base.sessionKey.isSome then 2 else 1

section
variable (A : AuthCodecs)

/-- The capsule of `set_client_ready`. -/
def readyMessage (o : SessionOptions) : Bytes :=
  A.capsule.serialize
    { ready := true, text := "Kiva nahda sinut!", body := A.session.serialize o }

/-- The options in the `session_setup` that the server has sent. -/
def announced (base : Client.Base) (s : Session) : Option SessionOptions :=
  (s.server.packs[readyIndex base]?).map (fun k =>
    (A.session.parse (A.capsule.parse k.data).2.body).2)

end

/-- The limits that the end uses are those of `o`. -/
structure Enforces (e : Endpoint) (o : SessionOptions) : Prop where
  maxActiveCalls : e.sessionOpts.maxActiveCalls = o.maxActiveCalls
  maxStackSize : e.sessionOpts.maxStackSize = o.maxStackSize
  maxMessageLength : e.protocol.queue.maxValidLength = o.maxMessageLength.toNat

/-- Everything the end has posted, packed or not. -/
def posted (e : Endpoint) : List Bytes := e.packs.map Packed.data ++ e.outbox.map Posted.data

/-- The invariant: what the server announces and where, and how far the client is. -/
structure Limits (A : AuthCodecs) (base : Client.Base) (opts o : SessionOptions)
    (S C : Endpoint) : Prop where
  opts : S.sessionOpts = opts
  parser : S.serving = true → S.protocol.queue.maxValidLength = o.maxMessageLength.toNat
  posted : S.serving = true → (posted S)[readyIndex base]? = some (readyMessage A o)
  hello : C.serving = false → C.stage = .hello → C.pops.length = 0
  setup : C.serving = false → C.stage = .setup → C.pops.length = 1
  ready : C.serving = false → C.stage = .ready → C.pops.length = readyIndex base
  error : C.stage = .error → S.serving = false
  client : C.serving = true → Enforces C o ∧ readyIndex base < C.pops.length

/-! ### Steps that do not concern the limits -/

/-- The end uses the limits it used, and goes on where it was. -/
structure Kept (e e' : Endpoint) : Prop where
  opts : e'.sessionOpts = e.sessionOpts
  parser : e'.protocol.queue.maxValidLength = e.protocol.queue.maxValidLength
  serving : e'.serving = e.serving
  stage : e'.stage = e.stage
  posted : posted e <+: posted e'
  pops : e'.pops = e.pops ∨ e.serving = true ∧ e.pops.length ≤ e'.pops.length
  todo : e'.todo = e.todo

theorem Kept.refl (e : Endpoint) : Kept e e :=
  ⟨rfl, rfl, rfl, rfl, List.prefix_rfl, .inl rfl, rfl⟩

theorem Kept.pops_eq {e e' : Endpoint} (h : Kept e e') (hserv : e.serving = false) :
    e'.pops = e.pops := by
  rcases h.pops with heq | ⟨htrue, _⟩
  · exact heq
  · rw [hserv] at htrue
    cases htrue

section
variable {A : AuthCodecs} {base : Client.Base} {opts o : SessionOptions}

theorem Limits.kept {S S' C C' : Endpoint} (h : Limits A base opts o S C) (hS : Kept S S')
    (hC : Kept C C') : Limits A base opts o S' C' where
  opts := hS.opts.trans h.opts
  parser hserv := hS.parser.trans (h.parser (hS.serving ▸ hserv))
  posted hserv := by
    obtain ⟨rest, hrest⟩ := hS.posted
    have hget := h.posted (hS.serving ▸ hserv)
    obtain ⟨hlt, _⟩ := List.getElem?_eq_some_iff.mp hget
    rw [← hrest, List.getElem?_append_left hlt]
    exact hget
  hello hserv hst := by
    rw [hC.serving] at hserv
    rw [hC.pops_eq hserv]
    exact h.hello hserv (hC.stage ▸ hst)
  setup hserv hst := by
    rw [hC.serving] at hserv
    rw [hC.pops_eq hserv]
    exact h.setup hserv (hC.stage ▸ hst)
  ready hserv hst := by
    rw [hC.serving] at hserv
    rw [hC.pops_eq hserv]
    exact h.ready hserv (hC.stage ▸ hst)
  error hst := hS.serving.trans (h.error (hC.stage ▸ hst))
  client hserv := by
    obtain ⟨henf, hlt⟩ := h.client (hC.serving ▸ hserv)
    refine ⟨⟨?_, ?_, hC.parser.trans henf.maxMessageLength⟩, ?_⟩
    · rw [hC.opts]
      exact henf.maxActiveCalls
    · rw [hC.opts]
      exact henf.maxStackSize
    · rcases hC.pops with heq | ⟨_, hle⟩
      · rwa [heq]
      · omega

end

section
variable {sha256 : Bytes → Digest}

theorem posted_post {e e' : Endpoint} (m : Posted) (hpacks : e'.packs = e.packs)
    (hout : e'.outbox = e.outbox ++ [m]) : posted e' = posted e ++ [m.data] := by
  rw [posted, posted, hpacks, hout, List.map_append, List.append_assoc]
  rfl

theorem posted_packing {m : Posted} {e e' : Endpoint} (h : Packing m e e') : posted e' = posted e := by
  rw [posted, posted, h.packs, h.outbox]
  simp

theorem kept_pack {e e' : Endpoint} {bytes : Bytes} (h : e.pack sha256 = some (e', bytes)) :
    Kept e e' := by
  obtain ⟨m, hm⟩ := packing_of_pack h
  refine ⟨hm.sessionOpts, congrArg DataQueue.maxValidLength hm.queue, hm.serving, hm.stage, ?_,
    .inl hm.pops, hm.todo⟩
  rw [posted_packing hm]

theorem kept_written {e e' : Endpoint} (h : e.written = some e') : Kept e e' := by
  obtain ⟨c, writing, _, rfl⟩ := written_eq_some h
  cases c <;> exact ⟨rfl, rfl, rfl, rfl, List.prefix_rfl, .inl rfl, rfl⟩

theorem kept_send {e e' : Endpoint} {data : Bytes} (h : e.send data = some e') : Kept e e' := by
  obtain ⟨_, rfl⟩ := send_eq_some h
  have hposted : posted { e with outbox := e.outbox ++ [⟨data, .default⟩] } = posted e ++ [data] :=
    posted_post ⟨data, .default⟩ rfl rfl
  exact ⟨rfl, rfl, rfl, rfl, hposted ▸ List.prefix_append _ _, .inl rfl, rfl⟩

theorem kept_processData (e : Endpoint) (chunk : Bytes) :
    Kept e (e.setProtocol (e.protocol.processData chunk).1) :=
  ⟨rfl, e.protocol.processData_maxValidLength chunk, rfl, rfl, List.prefix_rfl, .inl rfl, rfl⟩

theorem kept_requeue {e : Endpoint} {chunk : Bytes} {q : DataQueue}
    (hq : (e.protocol.processData chunk).1 = { e.protocol with queue := q }) :
    Kept e (requeue e q) := by
  have hkept := kept_processData e chunk
  rwa [hq] at hkept

variable (sha256) in
theorem kept_serve (unit : Codec LowlevelUnit) (n : ℕ) {e : Endpoint} (hserv : e.serving = true) :
    Kept e (serve sha256 unit n e) := by
  refine serve_inv sha256 unit (I := Kept e) ?_ ?_ ?_ n e (Kept.refl e)
  · intro e₁ e₂ res h hp
    obtain ⟨p, hpop, rfl⟩ := popRaw_eq_some hp
    refine ⟨h.opts, ?_, h.serving, h.stage, h.posted, .inr ⟨hserv, ?_⟩, h.todo⟩
    · rw [← h.parser]
      exact popRawMessage_maxValidLength hpop
    · have : e.pops.length ≤ e₁.pops.length := by
        rcases h.pops with heq | ⟨_, hle⟩
        · rw [heq]
        · exact hle
      simp only [List.length_append, List.length_singleton]
      omega
  · exact fun e₁ h => ⟨h.opts, h.parser, h.serving, h.stage, h.posted, h.pops, h.todo⟩
  · exact fun e₁ llu h => ⟨h.opts, h.parser, h.serving, h.stage, h.posted, h.pops, h.todo⟩

theorem kept_recv {unit : Codec LowlevelUnit} {role : Role} {e e' : Endpoint} {chunk : Bytes}
    {salts : Bytes × Bytes} (h : e.recv sha256 unit role chunk salts = some e') :
    Kept e e' ∨ e.serving = false ∧ e.protocol.processData chunk =
        ((e.protocol.processData chunk).1, .stage) ∧
      e' = doHandshake sha256 role (e.setProtocol (e.protocol.processData chunk).1) salts := by
  have hkept := kept_processData e chunk
  obtain ⟨_, _, _, ⟨p, err, hp, rfl⟩ | ⟨p, hp, rfl⟩ | ⟨p, hp, hserv, rfl⟩ | ⟨p, hp, hserv, rfl⟩⟩ :=
    recv_cases h
  · rw [hp] at hkept
    exact .inl ⟨hkept.opts, hkept.parser, hkept.serving, hkept.stage, hkept.posted, hkept.pops,
      hkept.todo⟩
  · rw [hp] at hkept
    exact .inl hkept
  · rw [hp] at hkept
    have hrest := kept_serve sha256 unit p.queueSize (e := e.setProtocol p) hserv
    exact .inl ⟨hrest.opts.trans hkept.opts, hrest.parser.trans hkept.parser,
      hrest.serving.trans hkept.serving, hrest.stage.trans hkept.stage,
      hkept.posted.trans hrest.posted, hrest.pops, hrest.todo⟩
  · rw [hp]
    exact .inr ⟨hserv, rfl, rfl⟩

/-- **The rule for a chunk**: what every way to read it brings about, a handler followed to its
end. -/
theorem recv_inv {unit : Codec LowlevelUnit} {role : Role} {n : ℕ} {s r r' : Endpoint}
    {link : Bytes} {salts : Bytes × Bytes} {I : Endpoint → Prop} (hl : Linked sha256 s r link)
    (hproc : ∀ p, I (r.setProtocol p))
    (hraise : ∀ p, I { r.setProtocol p with reading := false, connClosed := true })
    (hserve : ∀ p, r.serving = true → r.connClosed = false →
      I (serve sha256 unit p.queueSize (r.setProtocol p)))
    (hhandle : ∀ q, Linked sha256 s (requeue r q) (link.drop n) → q.messages ≠ [] →
      Kept r (requeue r q) → r.serving = false → r.connClosed = false → r.todo = [] →
      ∀ e, e = doHandshake sha256 role (requeue r q) salts → I e.settle)
    (hr : r.recv sha256 unit role (link.take n) salts = some r') : I r'.settle := by
  have hkept := kept_processData r (link.take n)
  obtain ⟨_, hopen, htodo, ⟨p, err, hp, rfl⟩ | ⟨p, hp, rfl⟩ | ⟨p, hp, hserv, rfl⟩ |
    ⟨p, hp, hserv, hr'⟩⟩ := recv_cases hr
  · have hidle : ({ r.setProtocol p with reading := false, connClosed := true } : Endpoint).settle =
        { r.setProtocol p with reading := false, connClosed := true } := settle_of_todo htodo
    rw [hidle]
    exact hraise p
  · have hidle : (r.setProtocol p).settle = r.setProtocol p := settle_of_todo htodo
    rw [hidle]
    exact hproc p
  · have htodo' := (kept_serve sha256 unit p.queueSize (e := r.setProtocol p) hserv).todo.trans htodo
    rw [settle_of_todo htodo']
    exact hserve p hserv hopen
  · obtain ⟨_, herr⟩ | ⟨q, rfl, hlq, hne⟩ := hl.processData hopen n hp
    · cases herr
    rw [hp] at hkept
    exact hhandle q hlq (hne rfl) hkept hserv hopen htodo r' hr'

end

/-! ### The handlers -/

section
variable {sha256 : Bytes → Digest} {A : AuthCodecs} {base : Client.Base} {opts o : SessionOptions}
  {S C : Endpoint}

theorem onServerReady_ready (hA : A.Lawful) (o : SessionOptions) :
    Client.onServerReady A (readyMessage A o) = [.configureSession o, .configure o, .setReady] := by
  rw [Client.onServerReady, readyMessage, hA.capsule _]
  simp only [Bool.not_true, Bool.false_eq_true, if_false, hA.session _]

theorem posted_of_flight {k : Packed} {ks : List Packed} (hf : flight S C = k :: ks) :
    (posted S)[C.pops.length]? = some k.data := by
  have hget : S.packs[C.pops.length]? = some k := by
    have := congrArg (fun l : List Packed => l[0]?) hf
    simpa [flight] using this
  have hlt : C.pops.length < (S.packs.map Packed.data).length := by
    rw [List.length_map]
    exact (List.getElem?_eq_some_iff.mp hget).1
  rw [posted, List.getElem?_append_left hlt, List.getElem?_map, hget]
  rfl

/-- With nothing pending, the next message that is posted has the number that is popped next. -/
theorem posted_snoc {link : Bytes} (hl : Linked sha256 S C link) (hp : pending S C = [])
    (S' : Endpoint) (m : Posted) (hpacks : S'.packs = S.packs) (hout : S'.outbox = S.outbox ++ [m]) :
    (posted S')[C.pops.length]? = some m.data := by
  have hlen : (S.packs.map Packed.data).length = C.pops.length := by
    have hdrop := flight_of_pending hp
    rw [flight, List.drop_eq_nil_iff] at hdrop
    rw [List.length_map]
    exact Nat.le_antisymm hdrop hl.length_le
  rw [posted, hpacks, hout, outbox_of_pending hp, ← hlen]
  simp

theorem Limits.greeting {C' : Endpoint} (h : Limits A base opts o S C) (hserv : C'.serving = false)
    (hhello : C'.stage = .hello → C'.pops.length = 0)
    (hsetup : C'.stage = .setup → C'.pops.length = 1)
    (hready : C'.stage = .ready → C'.pops.length = readyIndex base)
    (herror : C'.stage = .error → S.serving = false) : Limits A base opts o S C' where
  opts := h.opts
  parser := h.parser
  posted := h.posted
  hello _ := hhello
  setup _ := hsetup
  ready _ := hready
  error := herror
  client hs := by rw [hserv] at hs; cases hs

theorem Limits.configured {C' : Endpoint} (h : Limits A base opts o S C) (hserv : C'.serving = true)
    (hstage : C'.stage = .ready) (henf : Enforces C' o)
    (hpops : readyIndex base < C'.pops.length) : Limits A base opts o S C' where
  opts := h.opts
  parser := h.parser
  posted := h.posted
  hello hs := by rw [hserv] at hs; cases hs
  setup hs := by rw [hserv] at hs; cases hs
  ready hs := by rw [hserv] at hs; cases hs
  error herr := by rw [hstage] at herr; cases herr
  client _ := ⟨henf, hpops⟩

theorem Limits.popHello (hA : A.Lawful) (h : Limits A base opts o S C) {k : Packed}
    (hpops : C.pops.length = 0) (hwait : (C.ready || C.serving) = false) :
    Limits A base opts o S (finish ((Client.onHelloCall A base (Server.firstMessage A)).foldl exec
      (afterPop sha256 C k))) := by
  rw [onHelloCall_hello hA]
  have hone : (C.pops ++ [k.popped]).length = 1 := by
    rw [List.length_append, hpops]
    rfl
  refine h.greeting hwait (fun hst => ?_) (fun _ => hone) (fun hst => ?_) (fun hst => ?_)
  · change (if base.sessionKey.isSome then Stage.setup else Stage.ready) = .hello at hst
    split_ifs at hst
  · change (if base.sessionKey.isSome then Stage.setup else Stage.ready) = .ready at hst
    have hindex : readyIndex base = 1 := by
      rw [readyIndex]
      split_ifs at hst ⊢
      rfl
    rw [hindex]
    exact hone
  · change (if base.sessionKey.isSome then Stage.setup else Stage.ready) = .error at hst
    split_ifs at hst

theorem Limits.popSetup (hA : A.Lawful) (h : Limits A base opts o S C) {k : Packed} {key : Bytes}
    (hkey : base.sessionKey = some key) (salts salts' : Bytes × Bytes)
    (hpops : C.pops.length = 1) (hwait : (C.ready || C.serving) = false) :
    Limits A base opts o S (finish ((Client.onTransSetup A sha256 base salts
      (setupMessage A salts')).foldl exec (afterPop sha256 C k))) := by
  rw [onTransSetup_setup hA]
  refine h.greeting hwait (fun hst => by cases hst) (fun hst => by cases hst) (fun _ => ?_)
    (fun hst => by cases hst)
  change (C.pops ++ [k.popped]).length = _
  rw [List.length_append, hpops, readyIndex, hkey]
  rfl

theorem Limits.popReady (hA : A.Lawful) (h : Limits A base opts o S C) {k : Packed}
    (hst : C.stage = .ready) (hpops : C.pops.length = readyIndex base) :
    Limits A base opts o S (finish ((Client.onServerReady A (readyMessage A o)).foldl exec
      (afterPop sha256 C k))) := by
  rw [onServerReady_ready hA]
  refine h.configured rfl hst ⟨rfl, rfl, rfl⟩ ?_
  change readyIndex base < (C.pops ++ [k.popped]).length
  rw [List.length_append, hpops]
  exact Nat.lt_succ_self _

theorem Limits.popRefusal (hA : A.Lawful) (h : Limits A base opts o S C) {k : Packed}
    (hserver : S.serving = false) (hwait : (C.ready || C.serving) = false) :
    Limits A base opts o S (finish ((Client.onServerReady A (refusal A)).foldl exec
      (afterPop sha256 C k))) := by
  rw [onServerReady_refusal hA]
  exact h.greeting hwait (fun hst => by cases hst) (fun hst => by cases hst)
    (fun hst => by cases hst) (fun _ => hserver)

/-- **The client handles a message.** -/
theorem Limits.handleClient (hA : A.Lawful) (h : Limits A base opts o S C)
    (hphase : Phase sha256 A base S C) {link : Bytes} (hl : Linked sha256 S C link)
    (hopen : C.connClosed = false) (htodo : C.todo = []) (hserv : C.serving = false)
    (hne : C.protocol.queue.messages ≠ []) (salts : Bytes × Bytes) {C' : Endpoint}
    (hC' : C' = doHandshake sha256 (Client.role A sha256 base) C salts) :
    Limits A base opts o S C'.settle := by
  obtain ⟨k, ks, hf⟩ := hl.flight_cons hopen hne
  have hsettle : InStep sha256 S C → C'.settle =
      finish (((Client.role A sha256 base).stageCall (afterPop sha256 C k) salts k.data).foldl exec
        (afterPop sha256 C k)) := by
    intro sc
    obtain ⟨hhash, hrev⟩ := sc.head hf
    rw [hC']
    exact (hl.handshake hopen htodo hf hhash hrev hne (Client.role A sha256 base) salts).2.2
  -- the call that each phase makes of the message that it has pending
  cases hphase with
  | hello wS wC tS tC sc cs psc pcs =>
      rw [hsettle sc, stageCall_hello wC.stage, (pending_one psc hf).1]
      exact h.popHello hA (h.hello hserv wC.stage) (by rw [wC.ready, wC.serving]; rfl)
  | selection wS wC tS tC checker revertor psc pcs => exact flight_ne_nil hf (flight_of_pending psc)
  | setup key salts' hkey wS hid wC tS tC checker revertor maker checker' sc psc pcs =>
      rw [hsettle sc, stageCall_setup wC.stage, (pending_one psc hf).1]
      exact h.popSetup hA hkey salts salts' (h.setup hserv wC.stage)
        (by rw [wC.ready, wC.serving]; rfl)
  | answer key salts' hkey wS hid wC tS tC maker checker revertor cs psc pcs =>
      exact flight_ne_nil hf (flight_of_pending psc)
  | steady tS tC wS wC sc cs =>
      obtain ⟨hst, _⟩ := wC.resolve_left (by rw [hserv]; simp)
      have hst : C.stage = .ready := by
        refine hst.resolve_right (fun herr => ?_)
        rw [h.error herr] at wS
        cases wS
      have hpops := h.ready hserv hst
      have hdata : k.data = readyMessage A o := by
        have hk := posted_of_flight hf
        rw [hpops, h.posted wS] at hk
        exact (Option.some.inj hk).symm
      rw [hsettle sc, stageCall_ready hst, hdata]
      exact h.popReady hA hst hpops
  | refused wS sends tC wC sc cs pcs closed =>
      obtain ⟨hst, hdata⟩ := closed.resolve_left (by rw [hopen]; simp)
      rw [hsettle sc, stageCall_ready hst, hdata k.data (by rw [pending, hf]; simp)]
      exact h.popRefusal hA wS.serving (by rw [wC.ready, wC.serving]; rfl)

theorem Limits.waiting {S' : Endpoint} (h : Limits A base opts o S C)
    (hopts : S'.sessionOpts = S.sessionOpts) (hserv : S'.serving = false) :
    Limits A base opts o S' C where
  opts := hopts.trans h.opts
  parser hs := by rw [hserv] at hs; cases hs
  posted hs := by rw [hserv] at hs; cases hs
  hello := h.hello
  setup := h.setup
  ready := h.ready
  error _ := hserv
  client := h.client

theorem Limits.announce {S' : Endpoint} (h : Limits A base opts o S C)
    (hopts : S'.sessionOpts = S.sessionOpts)
    (hmax : S'.protocol.queue.maxValidLength = o.maxMessageLength.toNat)
    (hposted : (Session.posted S')[C.pops.length]? = some (readyMessage A o))
    (hstage : C.stage = .ready) (hserv : C.serving = false) : Limits A base opts o S' C where
  opts := hopts.trans h.opts
  parser _ := hmax
  posted _ := by
    rw [← h.ready hserv hstage]
    exact hposted
  hello := h.hello
  setup := h.setup
  ready := h.ready
  error herr := by rw [hstage] at herr; cases herr
  client := h.client

/-- **The server handles a message.** -/
theorem Limits.handleServer (hA : A.Lawful) (app : Server.Application)
    (happ : ∀ key, base.sessionKey = some key → app.getSessionKey base.sessionId = key)
    (h : Limits A base opts (app.configureSession opts) S C) (hphase : Phase sha256 A base S C)
    {link link' : Bytes} (hsc : Linked sha256 S C link') (hl : Linked sha256 C S link)
    (hopen : S.connClosed = false) (htodo : S.todo = []) (hserv : S.serving = false)
    (hne : S.protocol.queue.messages ≠ []) (salts : Bytes × Bytes) {S' : Endpoint}
    (hS' : S' = doHandshake sha256 (Server.role A sha256 app opts) S salts) :
    Limits A base opts (app.configureSession opts) S'.settle C := by
  obtain ⟨k, ks, hf⟩ := hl.flight_cons hopen hne
  have hsettle : k.hash = S.protocol.hashChecker → k.transformer = S.protocol.revertor →
      S'.settle = finish (((Server.role A sha256 app opts).stageCall (afterPop sha256 S k)
        salts k.data).foldl exec (afterPop sha256 S k)) := by
    intro hhash hrev
    rw [hS']
    exact (hl.handshake hopen htodo hf hhash hrev hne (Server.role A sha256 app opts) salts).2.2
  cases hphase with
  | hello wS wC tS tC sc cs psc pcs => exact flight_ne_nil hf (flight_of_pending pcs)
  | selection wS wC tS tC checker revertor psc pcs =>
      rcases pcs with ⟨_, hnil, _⟩ | ⟨k', hk', _, hf', _, _⟩
      · exact flight_ne_nil hf hnil
      obtain ⟨rfl, rfl⟩ : k = k' ∧ ks = [] := List.cons.inj (hf.symm.trans hf')
      have hdata : k.data = selectionMessage A base := by rw [hk']
      rw [hsettle (by rw [hk']) (by rw [hk']), stageCall_clientSelection wS.stage, hdata,
        onClientSelection_selection hA]
      have hwait : (S.ready || S.serving) = false := by
        rw [wS.ready, wS.serving]
        rfl
      cases hkey : base.sessionKey with
      | none =>
          have hsel : selection base = ⟨Client.defaultHash.index, transformNone, []⟩ := by
            rw [selection, hkey]
            rfl
          rw [hkey] at wC
          rw [hsel, Server.setupTransformer, if_pos rfl]
          cases hreq : app.sessionKeyRequired ([] : Bytes) with
          | false =>
              exact h.announce rfl rfl (posted_snoc hsc psc _
                ⟨readyMessage A (app.configureSession opts), .default⟩ rfl rfl) wC.stage wC.serving
          | true => exact h.waiting rfl hwait
      | some key =>
          have hsel : selection base = ⟨Client.defaultHash.index, transformErseefor, base.sessionId⟩ := by
            rw [selection, hkey]
            rfl
          rw [hsel]
          exact h.waiting rfl hwait
  | setup key salts' hkey wS hid wC tS tC checker revertor maker checker' sc psc pcs =>
      exact flight_ne_nil hf (flight_of_pending pcs)
  | answer key salts' hkey wS hid wC tS tC maker checker revertor cs psc pcs =>
      obtain ⟨hhash, hrev⟩ := cs.head hf
      rw [hsettle hhash hrev, stageCall_clientTransformer wS.stage, (pending_one pcs hf).1,
        onClientTransformer_answer hA, hid, happ key hkey]
      exact h.announce rfl rfl (posted_snoc hsc psc _
        ⟨readyMessage A (app.configureSession opts), .default⟩ rfl rfl) wC.stage wC.serving
  | steady tS tC wS wC sc cs =>
      rw [hserv] at wS
      cases wS
  | refused wS sends tC wC sc cs pcs closed => exact flight_ne_nil hf (flight_of_pending pcs)

end

/-! ### Sessions -/

section
variable {sha256 : Bytes → Digest} {A : AuthCodecs} {unit : Codec LowlevelUnit}
  {app : Server.Application} {opts : SessionOptions} {base : Client.Base} {s s' : Session}

theorem limits_start :
    Limits A base opts (app.configureSession opts) (Server.start A opts).settle
      Client.start.settle := by
  refine ⟨rfl, fun h => ?_, fun h => ?_, fun _ _ => rfl, fun _ h => ?_, fun _ h => ?_, fun h => ?_,
    fun h => ?_⟩ <;> cases h

/-- **Every step** keeps the limits. -/
theorem Limits.step (hA : A.Lawful)
    (happ : ∀ key, base.sessionKey = some key → app.getSessionKey base.sessionId = key)
    {ev : Event} (hinv : Inv sha256 A base s)
    (h : Limits A base opts (app.configureSession opts) s.server.settle s.client.settle)
    (hs : Session.step sha256 A unit app opts base s ev = some s') :
    Limits A base opts (app.configureSession opts) s'.server.settle s'.client.settle := by
  obtain ⟨hphase, htc, hts, hos, hoc⟩ := hinv
  cases ev with
  | act side =>
      cases side with
      | server =>
          obtain ⟨e, he, rfl⟩ := Option.map_eq_some_iff.mp hs
          rw [settle_act he]
          exact h
      | client =>
          obtain ⟨e, he, rfl⟩ := Option.map_eq_some_iff.mp hs
          rw [settle_act he]
          exact h
  | pack side =>
      cases side with
      | server =>
          obtain ⟨⟨e, bytes⟩, he, rfl⟩ := Option.map_eq_some_iff.mp hs
          exact h.kept (kept_pack (settle_pack hos he)) (Kept.refl _)
      | client =>
          obtain ⟨⟨e, bytes⟩, he, rfl⟩ := Option.map_eq_some_iff.mp hs
          exact h.kept (Kept.refl _) (kept_pack (settle_pack hoc he))
  | written side =>
      cases side with
      | server =>
          obtain ⟨e, he, rfl⟩ := Option.map_eq_some_iff.mp hs
          have hw := settle_written hos (by rw [← settle_writing]; exact hphase.closeServer) he
          exact h.kept (kept_written hw) (Kept.refl _)
      | client =>
          obtain ⟨e, he, rfl⟩ := Option.map_eq_some_iff.mp hs
          have hw := settle_written hoc
            (fun hc => (hphase.closeClient (by rw [settle_writing]; exact hc)).elim) he
          exact h.kept (Kept.refl _) (kept_written hw)
  | send side data =>
      cases side with
      | server =>
          obtain ⟨e, he, rfl⟩ := Option.map_eq_some_iff.mp hs
          exact h.kept (kept_send (settle_send hos he).1) (Kept.refl _)
      | client =>
          obtain ⟨e, he, rfl⟩ := Option.map_eq_some_iff.mp hs
          exact h.kept (Kept.refl _) (kept_send (settle_send hoc he).1)
  | deliver side n salts =>
      cases side with
      | server =>
          obtain ⟨e, he, rfl⟩ := Option.map_eq_some_iff.mp hs
          obtain ⟨_, hopen, htodo, _⟩ := recv_cases he
          rw [settle_of_todo htodo] at h hphase htc hts
          obtain hk | ⟨hserv, hp, rfl⟩ := kept_recv he
          · rw [settle_of_todo (hk.todo.trans htodo)]
            exact h.kept hk (Kept.refl _)
          · obtain ⟨_, herr⟩ | ⟨q, hq, hl, hne⟩ := hts.processData hopen n hp
            · cases herr
            have hquiet := quiet_requeue s.server q
            rw [hq]
            exact (h.kept (kept_requeue hq) (Kept.refl _)).handleServer hA app happ
              (hphase.quiet hquiet (quiet_refl _)) (htc.sender hquiet.packs) hl hopen htodo hserv
              (hne rfl) salts rfl
      | client =>
          obtain ⟨e, he, rfl⟩ := Option.map_eq_some_iff.mp hs
          obtain ⟨_, hopen, htodo, _⟩ := recv_cases he
          rw [settle_of_todo htodo] at h hphase htc hts
          obtain hk | ⟨hserv, hp, rfl⟩ := kept_recv he
          · rw [settle_of_todo (hk.todo.trans htodo)]
            exact h.kept (Kept.refl _) hk
          · obtain ⟨_, herr⟩ | ⟨q, hq, hl, hne⟩ := htc.processData hopen n hp
            · cases herr
            have hquiet := quiet_requeue s.client q
            rw [hq]
            exact (h.kept (Kept.refl _) (kept_requeue hq)).handleClient hA
              (hphase.quiet (quiet_refl _) hquiet) hl hopen htodo hserv (hne rfl) salts rfl

theorem Phase.servingServer {S C : Endpoint} (h : Phase sha256 A base S C)
    (hlayer : S.layerReady = true) : S.serving = true := by
  cases h with
  | steady _ _ hS => exact hS
  | hello wS => exact not_layerReady wS.layerReady hlayer
  | selection wS => exact not_layerReady wS.layerReady hlayer
  | setup _ _ _ wS => exact not_layerReady wS.layerReady hlayer
  | answer _ _ _ wS => exact not_layerReady wS.layerReady hlayer
  | refused wS => exact not_layerReady wS.layerReady hlayer

theorem Phase.servingClient {S C : Endpoint} (h : Phase sha256 A base S C)
    (hlayer : C.layerReady = true) : C.serving = true := by
  cases h with
  | steady _ _ _ hC => exact hC.resolve_right (fun h => not_layerReady h.2 hlayer)
  | hello _ wC => exact not_layerReady wC.layerReady hlayer
  | selection _ wC => exact not_layerReady wC.layerReady hlayer
  | setup _ _ _ _ _ wC => exact not_layerReady wC.layerReady hlayer
  | answer _ _ _ _ _ wC => exact not_layerReady wC.layerReady hlayer
  | refused _ _ _ wC => exact not_layerReady wC.layerReady hlayer

/-- What a session in which both layers are ready uses and has announced. -/
theorem limits_of_ready (hA : A.Lawful)
    (happ : ∀ key, base.sessionKey = some key → app.getSessionKey base.sessionId = key)
    (hs : (sessionMachine sha256 A unit app opts base).Reachable s)
    (hserver : s.server.layerReady = true) (hclient : s.client.layerReady = true) :
    announced A base s = some (app.configureSession opts) ∧ s.server.sessionOpts = opts ∧
      s.server.protocol.queue.maxValidLength =
        (app.configureSession opts).maxMessageLength.toNat ∧
      Enforces s.client (app.configureSession opts) := by
  obtain ⟨⟨hphase, htc, hts, hos, hoc⟩, h⟩ : Inv sha256 A base s ∧
      Limits A base opts (app.configureSession opts) s.server.settle s.client.settle :=
    hs.inv (I := fun s => Inv sha256 A base s ∧
        Limits A base opts (app.configureSession opts) s.server.settle s.client.settle)
      ⟨inv_start, limits_start⟩
      (fun _ _ _ hi hstep => ⟨hi.1.step hA happ hstep, hi.2.step hA happ hi.1 hstep⟩)
  rw [settle_of_todo (hos.ready hserver), settle_of_todo (hoc.ready hclient)] at hphase htc h
  have hS := hphase.servingServer hserver
  obtain ⟨henf, hlt⟩ := h.client (hphase.servingClient hclient)
  refine ⟨?_, h.opts, h.parser hS, henf⟩
  -- the client has popped the announcement, so it has been packed
  have hpacked : readyIndex base < s.server.packs.length := hlt.trans_le htc.length_le
  have hget := h.posted hS
  rw [posted, List.getElem?_append_left (by rw [List.length_map]; exact hpacked),
    List.getElem?_map] at hget
  obtain ⟨k, hk, hdata⟩ := Option.map_eq_some_iff.mp hget
  rw [announced, hk, Option.map_some, hdata, readyMessage, hA.capsule _]
  simp only [hA.session _]

end

/-- **Announced limits.**  When both ends of a session are ready, the limits they use are the ones
that the server has announced if and only if the application's `configure_session` leaves
`max_active_calls` and `max_stack_size` of the listener's options as they are. -/
theorem limits_iff (sha256 : Bytes → Digest) (A : AuthCodecs) (unit : Codec LowlevelUnit)
    (app : Server.Application) (opts : SessionOptions) (base : Client.Base) (hA : A.Lawful)
    (happ : ∀ key, base.sessionKey = some key → app.getSessionKey base.sessionId = key)
    (s : Session) (hs : (sessionMachine sha256 A unit app opts base).Reachable s)
    (hserver : s.server.layerReady = true) (hclient : s.client.layerReady = true) :
    (∃ o, announced A base s = some o ∧ Enforces s.server o ∧ Enforces s.client o) ↔
      (app.configureSession opts).maxActiveCalls = opts.maxActiveCalls ∧
        (app.configureSession opts).maxStackSize = opts.maxStackSize := by
  obtain ⟨hann, hopts, hparser, hclient⟩ := limits_of_ready hA happ hs hserver hclient
  constructor
  · rintro ⟨o, ho, henf, _⟩
    obtain rfl := Option.some.inj (hann.symm.trans ho)
    have henf' := And.intro henf.maxActiveCalls henf.maxStackSize
    rw [hopts] at henf'
    exact ⟨henf'.1.symm, henf'.2.symm⟩
  · rintro ⟨hcalls, hstack⟩
    refine ⟨_, hann, ⟨?_, ?_, hparser⟩, hclient⟩
    · rw [hopts, hcalls]
    · rw [hopts, hstack]

/-- A session without a key, from the hello to both ends being ready. -/
def plainRun : List Event :=
  [Event.pack .server, .written .server, .deliver .client 28 ([], [])] ++
    List.replicate 5 (Event.act .client) ++ [Event.pack .client, .deliver .server 23 ([], [])] ++
    List.replicate 8 (Event.act .server) ++ [Event.pack .server, .deliver .client 44 ([], [])] ++
    List.replicate 5 (Event.act .client)

/-- An application that allows messages of twice the length and leaves the other options alone. -/
theorem limits_longer_messages :
    let sha256 : Bytes → Digest := fun _ => ⟨List.replicate 32 0, rfl⟩
    let app : Server.Application :=
      ⟨fun _ => false, fun _ => [], fun o => { o with maxMessageLength := 131072 }⟩
    ∃ s, (sessionMachine sha256 (plainCodecs 5 8) ⟨fun _ => [], fun _ => (false, {})⟩ app .defaults
        ⟨none, []⟩).Reachable s ∧
      ∃ o, announced (plainCodecs 5 8) ⟨none, []⟩ s = some o ∧ o.maxMessageLength = 131072 ∧
        Enforces s.server o ∧ Enforces s.client o := by
  intro sha256 app
  have hrun : ((sessionMachine sha256 (plainCodecs 5 8) ⟨fun _ => [], fun _ => (false, {})⟩ app
      .defaults ⟨none, []⟩).run plainRun).map (fun s => (s.server.layerReady, s.client.layerReady,
        (announced (plainCodecs 5 8) ⟨none, []⟩ s).map SessionOptions.maxMessageLength)) =
      some (true, true, some 131072) := by
    decide +kernel
  obtain ⟨s, hs, heq⟩ := Option.map_eq_some_iff.mp hrun
  simp only [Prod.mk.injEq] at heq
  obtain ⟨hserver, hclient, hmax⟩ := heq
  obtain ⟨o, ho, henf⟩ := (limits_iff sha256 (plainCodecs 5 8) _ app .defaults _
    (plainCodecs_lawful 5 8) (fun key hkey => by cases hkey) s ⟨_, hs⟩ hserver hclient).mpr ⟨rfl, rfl⟩
  rw [ho] at hmax
  exact ⟨s, ⟨_, hs⟩, o, ho, Option.some.inj hmax, henf⟩

/-- An application that allows one call: one call is announced to the client and configured by it,
the server allows five. -/
theorem limits_one_call :
    let sha256 : Bytes → Digest := fun _ => ⟨List.replicate 32 0, rfl⟩
    let app : Server.Application :=
      ⟨fun _ => false, fun _ => [], fun o => { o with maxActiveCalls := 1 }⟩
    ∃ s, (sessionMachine sha256 (plainCodecs 1 4) ⟨fun _ => [], fun _ => (false, {})⟩ app .defaults
        ⟨none, []⟩).Reachable s ∧
      s.server.layerReady = true ∧ s.client.layerReady = true ∧
      (announced (plainCodecs 1 4) ⟨none, []⟩ s).map SessionOptions.maxActiveCalls = some 1 ∧
      s.client.sessionOpts.maxActiveCalls = 1 ∧ s.server.sessionOpts.maxActiveCalls = 5 := by
  intro sha256 app
  have hrun : ((sessionMachine sha256 (plainCodecs 1 4) ⟨fun _ => [], fun _ => (false, {})⟩ app .defaults
      ⟨none, []⟩).run plainRun).map (fun s => (s.server.layerReady, s.client.layerReady,
        (announced (plainCodecs 1 4) ⟨none, []⟩ s).map SessionOptions.maxActiveCalls,
        s.client.sessionOpts.maxActiveCalls, s.server.sessionOpts.maxActiveCalls)) =
      some (true, true, some 1, 1, 5) := by
    decide +kernel
  obtain ⟨s, hs, heq⟩ := Option.map_eq_some_iff.mp hrun
  simp only [Prod.mk.injEq] at heq
  exact ⟨s, ⟨_, hs⟩, heq⟩

end Vtrc.Session
