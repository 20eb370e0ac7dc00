import Vtrc.Client.Handshake
import Vtrc.Settle
import Vtrc.Wire

/-! # What arrives with the end of the handshake

`process_data` calls the stage function once for a chunk in which at least one message ends,
while `do_handshake` takes one message from the queue.  A server that is ready may send its first
units right behind its last capsule, and a chunk may hold all of them.

`ServerStream` is a well-formed stream of a server, as the payloads of its messages, and
`ServerStream.bodies` are the bodies of its frames.  The client reads the stream in chunks
(`processChunks`); `Progress` describes it after a prefix of the stream, by the number `c` of
chunks that have completed a message so far.  Up to its answer to the ready capsule the parser has
the default limit, and raises on the header of a longer unit (`LongHeader`), before the stage
function is called.  `delivered_iff` says for which chunks all units are dispatched. -/

namespace Vtrc.Client

open Endpoint Framing DefaultProtocol

/-- The payloads of a server's messages; the transformer setup is there when the client has a
session key. -/
structure ServerStream where
  hello : Bytes
  setup : Option Bytes
  ready : Bytes
  units : List Bytes

section
variable (sha256 : Bytes → Digest) (A : AuthCodecs) (unit : Codec LowlevelUnit) (base : Base)
  (salts : Bytes × Bytes)

/-- One call of `process_data`, to the end of the handler that it starts. -/
def processChunk (e : Endpoint) (chunk : Bytes) : Option Endpoint :=
  (e.recv sha256 unit (role A sha256 base) chunk salts).map settle

def processChunks : Endpoint → List Bytes → Option Endpoint
  | e, [] => some e
  | e, chunk :: chunks =>
      (processChunk sha256 A unit base salts e chunk).bind (fun e' => processChunks e' chunks)

namespace ServerStream

/-- The number of handshake messages. -/
def handshake (S : ServerStream) : ℕ := if S.setup.isSome then 3 else 2

/-- The revertor from the ready capsule on. -/
def cypher (S : ServerStream) : Transformer :=
  if S.setup.isSome then defaultCypher sha256 (base.sessionKey.getD []) salts.1 salts.2 else .none

/-- The revertor after the ready capsule. -/
def unitCypher (S : ServerStream) : Transformer :=
  ((S.cypher sha256 base salts).transform (sealed sha256 defaultHash S.ready)).1

/-- The bodies of the handshake: the hello is packed without a hash, the transformer setup with
CRC-32, the ready capsule also with the cipher of the session. -/
def handshakeBodies (S : ServerStream) : List Bytes :=
  [sealed sha256 .none S.hello] ++ S.setup.toList.map (sealed sha256 defaultHash) ++
    [((S.cypher sha256 base salts).transform (sealed sha256 defaultHash S.ready)).2]

/-- The bodies of the whole stream. -/
def bodies (S : ServerStream) : List Bytes :=
  S.handshakeBodies sha256 base salts ++
    envelope sha256 defaultHash (S.unitCypher sha256 base salts) S.units

/-- The bytes of the stream. -/
def stream (S : ServerStream) : Bytes := (frames (S.bodies sha256 base salts)).flatten

/-- The options announced by the ready capsule. -/
def announced (S : ServerStream) : SessionOptions :=
  (A.session.parse (A.capsule.parse S.ready).2.body).2

/-- The units as the client parses them. -/
def parsed (S : ServerStream) : List LowlevelUnit := S.units.map (fun d => (unit.parse d).2)

/-- The stream of a server that is willing to serve this client: every capsule is well-formed and
`ready`, every unit parses, the frames of the handshake fit the default limit of the client and
the units fit the announced one. -/
structure WellFormed (S : ServerStream) : Prop where
  hello : (A.capsule.parse S.hello).1 = true ∧ (A.capsule.parse S.hello).2.ready = true
  setup : S.setup.isSome = base.sessionKey.isSome
  setupReady : ∀ d ∈ S.setup, (A.capsule.parse d).1 = true ∧ (A.capsule.parse d).2.ready = true
  ready : (A.capsule.parse S.ready).1 = true ∧ (A.capsule.parse S.ready).2.ready = true
  parses : ∀ d ∈ S.units, (unit.parse d).1 = true
  fits : ∀ b ∈ S.handshakeBodies sha256 base salts,
    b.length ≤ SessionOptions.defaults.maxMessageLength.toNat
  fitsAnnounced : ∀ d ∈ S.units,
    d.length + defaultHash.size ≤ (S.announced A).maxMessageLength.toNat

/-- The first `n` bytes of the stream hold the size header of a frame above the default limit. -/
def LongHeader (S : ServerStream) (n : ℕ) : Prop :=
  DataQueue.Overlong sizePolicy SessionOptions.defaults.maxMessageLength.toNat
    (S.bodies sha256 base salts) n

/-- No chunk that is read in the handshake brings the size header of a frame above the default
limit: `n` bytes of the stream and `c` chunks that completed a message came before. -/
def HeadersInTime (S : ServerStream) (n c : ℕ) (chunks : List Bytes) : Prop :=
  ∀ pre chunk post, chunks = pre ++ chunk :: post →
    c + completing (frames (S.bodies sha256 base salts)) n (pre.map List.length) < S.handshake →
      ¬ S.LongHeader sha256 base salts (n + (pre.flatten ++ chunk).length)

end ServerStream

end

/-! ### The three handlers -/

/-- What the client expects next: the hash and the state of the revertor for the next message,
and the stage that handles it. -/
structure Stand where
  hash : HashKind
  revertor : Transformer
  stage : Stage

/-- The client waits in the handshake. -/
structure AtStand (st : Stand) (e : Endpoint) : Prop where
  reading : e.reading = true
  connClosed : e.connClosed = false
  todo : e.todo = []
  serving : e.serving = false
  ready : e.ready = false
  hash : e.protocol.hashChecker = st.hash
  revertor : e.protocol.revertor = st.revertor
  stage : e.stage = st.stage
  dispatched : e.dispatched = []
  limit : e.protocol.queue.maxValidLength = SessionOptions.defaults.maxMessageLength.toNat

/-- The client serves units. -/
structure Serving (t : Transformer) (limit : ℕ) (e : Endpoint) : Prop where
  reading : e.reading = true
  connClosed : e.connClosed = false
  todo : e.todo = []
  serving : e.serving = true
  hash : e.protocol.hashChecker = defaultHash
  revertor : e.protocol.revertor = t
  limit : e.protocol.queue.maxValidLength = limit

section
variable (sha256 : Bytes → Digest) (base : Base) (salts : Bytes × Bytes)

namespace ServerStream

/-- What the client expects after `c` handshake messages. -/
def stand (S : ServerStream) : ℕ → Stand
  | 0 => ⟨.none, .none, .hello⟩
  | 1 => ⟨defaultHash, .none, if S.setup.isSome then .setup else .ready⟩
  | _ => ⟨defaultHash, S.cypher sha256 base salts, .ready⟩

/-- The payloads of the handshake. -/
def handshakePayload (S : ServerStream) : ℕ → Bytes
  | 0 => S.hello
  | 1 => S.setup.getD S.ready
  | _ => S.ready

/-- The body of the next handshake message is packed as the client expects it. -/
theorem bodies_drop (S : ServerStream) {c : ℕ} (hc : c < S.handshake) :
    (S.bodies sha256 base salts).drop c =
      ((S.stand sha256 base salts c).revertor.transform
        (sealed sha256 (S.stand sha256 base salts c).hash (S.handshakePayload c))).2 ::
      (S.bodies sha256 base salts).drop (c + 1) := by
  obtain ⟨hello, setup, ready, units⟩ := S
  cases setup with
  | none =>
      have : c = 0 ∨ c = 1 := by
        simp only [handshake, Option.isSome_none, Bool.false_eq_true, if_false] at hc
        omega
      rcases this with rfl | rfl <;> rfl
  | some d =>
      have : c = 0 ∨ c = 1 ∨ c = 2 := by
        simp only [handshake, Option.isSome_some, if_true] at hc
        omega
      rcases this with rfl | rfl | rfl <;> rfl

theorem bodies_drop_handshake (S : ServerStream) (m : ℕ) :
    (S.bodies sha256 base salts).drop (S.handshake + m) =
      envelope sha256 defaultHash (advance sha256 defaultHash (S.unitCypher sha256 base salts)
        (S.units.take m)) (S.units.drop m) := by
  have hlen : (S.handshakeBodies sha256 base salts).length = S.handshake := by
    obtain ⟨hello, setup, ready, units⟩ := S
    cases setup <;> rfl
  rw [bodies, ← hlen, List.drop_length_add_append, envelope_drop]

theorem bodies_length (S : ServerStream) :
    (S.bodies sha256 base salts).length = S.handshake + S.units.length := by
  obtain ⟨hello, setup, ready, units⟩ := S
  cases setup <;> simp [bodies, handshakeBodies, handshake] <;> omega

/-- The number of messages that have arrived with the first `n` bytes of the stream. -/
def arrived (S : ServerStream) (n : ℕ) : ℕ := ended (frames (S.bodies sha256 base salts)) n

theorem headersInTime_cons {S : ServerStream} {n c : ℕ} {chunk : Bytes} {chunks : List Bytes} :
    S.HeadersInTime sha256 base salts n c (chunk :: chunks) ↔
      (c < S.handshake → ¬ S.LongHeader sha256 base salts (n + chunk.length)) ∧
        S.HeadersInTime sha256 base salts (n + chunk.length)
          (c + if S.arrived sha256 base salts n < S.arrived sha256 base salts (n + chunk.length)
            then 1 else 0) chunks := by
  constructor
  · intro h
    refine ⟨fun hc => h [] chunk chunks rfl hc, ?_⟩
    intro pre chunk' post hsplit hc
    have := h (chunk :: pre) chunk' post (by rw [hsplit, List.cons_append])
    rw [List.map_cons, completing_cons, ← Nat.add_assoc, List.flatten_cons, List.append_assoc,
      List.length_append, ← Nat.add_assoc] at this
    exact this hc
  · rintro ⟨hhead, htail⟩ pre chunk' post hsplit hc
    cases pre with
    | nil =>
        obtain ⟨rfl, rfl⟩ := List.cons.inj hsplit
        exact hhead hc
    | cons first pre =>
        obtain ⟨rfl, rfl⟩ := List.cons.inj hsplit
        rw [List.map_cons, completing_cons, ← Nat.add_assoc] at hc
        rw [List.flatten_cons, List.append_assoc, List.length_append, ← Nat.add_assoc]
        exact htail pre chunk' post rfl hc

theorem headersInTime_nil (S : ServerStream) (n c : ℕ) :
    S.HeadersInTime sha256 base salts n c [] := by
  intro pre chunk post hsplit
  cases pre <;> cases hsplit

theorem headersInTime_of_fits {S : ServerStream}
    (h : ∀ b ∈ S.bodies sha256 base salts,
      b.length ≤ SessionOptions.defaults.maxMessageLength.toNat) (n c : ℕ) (chunks : List Bytes) :
    S.HeadersInTime sha256 base salts n c chunks :=
  fun _ _ _ _ _ => DataQueue.not_overlong_of_fits h _

end ServerStream

end

section
variable {sha256 : Bytes → Digest} {A : AuthCodecs} {unit : Codec LowlevelUnit} {base : Base}
  {salts : Bytes × Bytes} {S : ServerStream}

/-- The handler of a payload to its end. -/
def handled (sha256 : Bytes → Digest) (A : AuthCodecs) (base : Base) (salts : Bytes × Bytes)
    (e : Endpoint) (d : Bytes) : Endpoint :=
  ((role A sha256 base).stageCall e salts d ++
    [Act.switchToReady, Act.accessorReady]).foldl exec { e with todo := [] }

variable (A base salts) in
theorem doHandshake_settle {e : Endpoint} {d : Bytes} {ms : List Bytes}
    (hq : e.protocol.queue.messages =
      (e.protocol.revertor.transform (sealed sha256 e.protocol.hashChecker d)).2 :: ms) :
    ∃ e₁ : Endpoint, e₁ = { e with
        protocol := e.protocol.popFront
          (e.protocol.revertor.transform (sealed sha256 e.protocol.hashChecker d)).1
        pops := e.pops ++ [⟨e.protocol.hashChecker, e.protocol.revertor, some d⟩] } ∧
      (doHandshake sha256 (role A sha256 base) e salts).settle = handled sha256 A base salts e₁ d := by
  have hpop := popRawMessage_sealed sha256 e.protocol d ms hq
  refine ⟨_, rfl, ?_⟩
  rw [doHandshake, popRaw, hpop]
  rfl

variable (sha256 base salts) in
theorem handled_hello {e : Endpoint} {d : Bytes} {t : Transformer}
    (hd : (A.capsule.parse d).1 = true ∧ (A.capsule.parse d).2.ready = true)
    (h : AtStand ⟨.none, t, .hello⟩ e) :
    AtStand ⟨defaultHash, t, if base.sessionKey.isSome then .setup else .ready⟩
        (handled sha256 A base salts e d) ∧
      (handled sha256 A base salts e d).protocol.queue = e.protocol.queue := by
  have hcall : (role A sha256 base).stageCall e salts d = onHelloCall A base d := by
    simp only [role, h.stage]
  rw [handled, hcall, onHelloCall]
  simp only [hd.1, hd.2, Bool.not_true, Bool.false_eq_true, if_false, List.cons_append,
    List.nil_append, List.foldl_cons, List.foldl_nil, exec, setProtocol, h.ready]
  exact ⟨⟨h.reading, h.connClosed, rfl, h.serving, rfl, rfl, h.revertor, rfl, h.dispatched,
    h.limit⟩, rfl⟩

variable (sha256 base salts) in
theorem handled_setup {e : Endpoint} {d : Bytes} {t : Transformer}
    (hd : (A.capsule.parse d).1 = true ∧ (A.capsule.parse d).2.ready = true)
    (h : AtStand ⟨defaultHash, t, .setup⟩ e) :
    AtStand ⟨defaultHash, defaultCypher sha256 (base.sessionKey.getD []) salts.1 salts.2, .ready⟩
        (handled sha256 A base salts e d) ∧
      (handled sha256 A base salts e d).protocol.queue = e.protocol.queue := by
  have hcall : (role A sha256 base).stageCall e salts d = onTransSetup A sha256 base salts d := by
    simp only [role, h.stage]
  rw [handled, hcall, onTransSetup]
  simp only [hd.1, hd.2, Bool.not_true, Bool.false_eq_true, if_false, sendProtoMessage,
    List.cons_append, List.nil_append, List.foldl_cons, List.foldl_nil, exec, setProtocol, h.ready]
  exact ⟨⟨h.reading, h.connClosed, rfl, h.serving, rfl, h.hash, rfl, rfl, h.dispatched,
    h.limit⟩, rfl⟩

variable (sha256 base salts) in
theorem handled_ready {e : Endpoint} {d : Bytes} {t : Transformer}
    (hd : (A.capsule.parse d).1 = true ∧ (A.capsule.parse d).2.ready = true)
    (h : AtStand ⟨defaultHash, t, .ready⟩ e) :
    Serving t (A.session.parse (A.capsule.parse d).2.body).2.maxMessageLength.toNat
        (handled sha256 A base salts e d) ∧
      (handled sha256 A base salts e d).dispatched = [] ∧
      (handled sha256 A base salts e d).protocol.queue.messages = e.protocol.queue.messages ∧
      (handled sha256 A base salts e d).protocol.queue.data = e.protocol.queue.data := by
  have hcall : (role A sha256 base).stageCall e salts d = onServerReady A d := by
    simp only [role, h.stage]
  rw [handled, hcall, onServerReady]
  simp only [hd.1, hd.2, Bool.not_true, Bool.false_eq_true, if_false, if_true,
    List.cons_append, List.nil_append, List.foldl_cons, List.foldl_nil, exec, setProtocol]
  exact ⟨⟨h.reading, h.connClosed, rfl, rfl, h.hash, h.revertor, rfl⟩, h.dispatched, rfl, rfl⟩

/-- **A handshake message in step**: the client goes to the next stand, or begins to serve. -/
theorem handshake_step (hS : S.WellFormed sha256 A unit base salts) {c : ℕ} (hc : c < S.handshake)
    {e : Endpoint} (h : AtStand (S.stand sha256 base salts c) e) {ms : List Bytes}
    (hq : e.protocol.queue.messages = ((S.stand sha256 base salts c).revertor.transform
      (sealed sha256 (S.stand sha256 base salts c).hash (S.handshakePayload c))).2 :: ms) :
    ∃ e', (doHandshake sha256 (role A sha256 base) e salts).settle = e' ∧
      e'.protocol.queue.messages = ms ∧ e'.protocol.queue.data = e.protocol.queue.data ∧
      (c + 1 < S.handshake ∧ AtStand (S.stand sha256 base salts (c + 1)) e' ∨
        c + 1 = S.handshake ∧ e'.dispatched = [] ∧
          Serving (S.unitCypher sha256 base salts) (S.announced A).maxMessageLength.toNat e') := by
  rw [← h.hash, ← h.revertor] at hq
  obtain ⟨e₁, he₁, hsettle⟩ := doHandshake_settle A base salts hq
  refine ⟨_, hsettle, ?_⟩
  have hms : e₁.protocol.queue.messages = ms := by
    rw [he₁]
    show e.protocol.queue.messages.tail = ms
    rw [hq, List.tail_cons]
  have hdata : e₁.protocol.queue.data = e.protocol.queue.data := by rw [he₁]; rfl
  have h₁ : AtStand { S.stand sha256 base salts c with
      revertor := ((S.stand sha256 base salts c).revertor.transform
        (sealed sha256 (S.stand sha256 base salts c).hash (S.handshakePayload c))).1 } e₁ := by
    subst he₁
    refine { h with hash := h.hash, revertor := ?_ }
    rw [← h.hash, ← h.revertor]
    rfl
  rw [← hms, ← hdata]
  match c, hc, h₁ with
  | 0, _, h₁ =>
      obtain ⟨hst, hqu⟩ := handled_hello sha256 base salts hS.hello h₁
      refine ⟨congrArg _ hqu, congrArg _ hqu, .inl ⟨?_, ?_⟩⟩
      · rw [ServerStream.handshake]
        split_ifs <;> decide
      · rw [← hS.setup] at hst
        exact hst
  | 1, hc, h₁ =>
      cases hset : S.setup with
      | none =>
          simp only [ServerStream.stand, ServerStream.handshakePayload, hset, Option.isSome_none,
            Bool.false_eq_true, if_false, Option.getD_none] at h₁ ⊢
          obtain ⟨hst, hd, hm, hda⟩ := handled_ready sha256 base salts hS.ready h₁
          refine ⟨hm, hda, .inr ⟨by simp [ServerStream.handshake, hset], hd, ?_⟩⟩
          rw [ServerStream.unitCypher, ServerStream.cypher, hset]
          exact hst
      | some d =>
          simp only [ServerStream.stand, ServerStream.handshakePayload, hset, Option.isSome_some,
            if_true, Option.getD_some] at h₁ ⊢
          obtain ⟨hst, hqu⟩ := handled_setup sha256 base salts (hS.setupReady d hset) h₁
          refine ⟨congrArg _ hqu, congrArg _ hqu, .inl ⟨by simp [ServerStream.handshake, hset], ?_⟩⟩
          rw [ServerStream.cypher, hset]
          exact hst
  | c + 2, hc, h₁ =>
      obtain ⟨hset, rfl⟩ : S.setup.isSome = true ∧ c = 0 := by
        rw [ServerStream.handshake] at hc
        split_ifs at hc with hset
        · exact ⟨hset, by omega⟩
        · omega
      obtain ⟨hst, hd, hm, hda⟩ := handled_ready sha256 base salts hS.ready h₁
      exact ⟨hm, hda, .inr ⟨by simp [ServerStream.handshake, hset], hd, hst⟩⟩

/-! ### The loop over the units -/

/-- Units in step are served one after the other until the queue is empty. -/
theorem serve_envelope {ds : List Bytes} (hparse : ∀ d ∈ ds, (unit.parse d).1 = true)
    {t : Transformer} {limit : ℕ} {e : Endpoint} (h : Serving t limit e)
    (hq : e.protocol.queue.messages = envelope sha256 defaultHash t ds) :
    ∃ e', serve sha256 unit ds.length e = e' ∧ Serving (advance sha256 defaultHash t ds) limit e' ∧
      e'.dispatched = e.dispatched ++ ds.map (fun d => (unit.parse d).2) ∧
      e'.protocol.queue.messages = [] ∧ e'.protocol.queue.data = e.protocol.queue.data := by
  induction ds generalizing t e with
  | nil => exact ⟨e, rfl, h, (List.append_nil _).symm, hq, rfl⟩
  | cons d ds ih =>
      rw [envelope_cons, ← h.hash, ← h.revertor] at hq
      have hpop := popRawMessage_sealed sha256 e.protocol d _ hq
      have hd := hparse d List.mem_cons_self
      rw [List.length_cons, serve, popRaw, hpop]
      simp only [Option.map_some, Option.bind_some, hd, if_true]
      obtain ⟨e', he', hserv, hdisp, hms, hdata⟩ := ih
        (fun d' hd' => hparse d' (List.mem_cons_of_mem _ hd'))
        (t := (t.transform (sealed sha256 defaultHash d)).1)
        (e := { e with
          protocol := e.protocol.popFront
            (e.protocol.revertor.transform (sealed sha256 e.protocol.hashChecker d)).1
          pops := e.pops ++ [⟨e.protocol.hashChecker, e.protocol.revertor, some d⟩]
          dispatched := e.dispatched ++ [(unit.parse d).2] })
        ⟨h.reading, h.connClosed, h.todo, h.serving, h.hash,
          by rw [← h.hash, ← h.revertor]; rfl, h.limit⟩
        (by
          show e.protocol.queue.messages.tail = _
          rw [hq, List.tail_cons, h.hash, h.revertor])
      refine ⟨e', he', hserv, ?_, hms, hdata⟩
      rw [hdisp, List.map_cons, List.append_assoc]
      rfl

/-! ### A prefix of the stream -/

/-- The client after the prefix `pre` of the stream, `c` chunks having completed a message: it
has taken one message in each of them during the handshake, where no header above the default
limit has come, and all that were there in each of them afterwards. -/
structure Progress (sha256 : Bytes → Digest) (A : AuthCodecs) (unit : Codec LowlevelUnit)
    (base : Base) (salts : Bytes × Bytes) (S : ServerStream) (pre : Bytes) (c : ℕ) (e : Endpoint) :
    Prop where
  data : e.protocol.queue.data = rest (frames (S.bodies sha256 base salts)) pre
  le : c ≤ S.arrived sha256 base salts pre.length
  state :
    (c < S.handshake ∧ AtStand (S.stand sha256 base salts c) e ∧
      ¬ S.LongHeader sha256 base salts pre.length ∧
      e.protocol.queue.messages =
        ((S.bodies sha256 base salts).take (S.arrived sha256 base salts pre.length)).drop c) ∨
    ∃ m, Serving (advance sha256 defaultHash (S.unitCypher sha256 base salts) (S.units.take m))
        (S.announced A).maxMessageLength.toNat e ∧
      e.dispatched = (S.parsed unit).take m ∧
      e.protocol.queue.messages = ((S.bodies sha256 base salts).take
        (S.arrived sha256 base salts pre.length)).drop (S.handshake + m) ∧
      (c = S.handshake ∧ m = 0 ∨
        S.handshake < c ∧ S.handshake + m = S.arrived sha256 base salts pre.length)

theorem progress_start : Progress sha256 A unit base salts S [] 0 start := by
  have hzero : S.arrived sha256 base salts ([] : Bytes).length = 0 :=
    ended_zero (fun f hf => by
      obtain ⟨b, _, rfl⟩ := List.mem_map.mp hf
      exact frame_ne_nil b)
  refine ⟨(List.drop_nil).symm, Nat.zero_le _, .inl ⟨?_, ?_, ?_, ?_⟩⟩
  · rw [ServerStream.handshake]
    split_ifs <;> decide
  · exact ⟨rfl, rfl, rfl, rfl, rfl, rfl, rfl, rfl, rfl, rfl⟩
  · rintro ⟨i, b, _, _, hle⟩
    have := List.length_pos_iff.mpr (Varint.pack_ne_nil b.length)
    rw [List.length_nil] at hle
    exact absurd hle (by rw [show sizePolicy.pack b.length = Varint.pack b.length from rfl]; omega)
  · rw [hzero]
    rfl

theorem bodies_le_maxBody (hS : S.WellFormed sha256 A unit base salts) :
    ∀ b ∈ S.bodies sha256 base salts, b.length ≤ maxBody := by
  intro b hb
  rcases List.mem_append.mp hb with hb | hb
  · exact (hS.fits b hb).trans (by decide)
  · obtain ⟨d, hd, hlen⟩ := length_mem_envelope sha256 hb
    have hfit := hS.fitsAnnounced d hd
    have hmax := (S.announced A).maxMessageLength.toNat_lt
    rw [hlen, maxBody]
    omega

theorem headersInTime_of_no_units (hS : S.WellFormed sha256 A unit base salts) (h : S.units = [])
    (chunks : List Bytes) : S.HeadersInTime sha256 base salts 0 0 chunks := by
  refine ServerStream.headersInTime_of_fits _ _ _ (fun b hb => hS.fits b ?_) 0 0 chunks
  rwa [ServerStream.bodies, h, envelope_nil, List.append_nil] at hb

theorem Progress.not_overlong (hS : S.WellFormed sha256 A unit base salts)
    {pre chunk tail : Bytes} (hstream : pre ++ (chunk ++ tail) = S.stream sha256 base salts) {c : ℕ}
    {e : Endpoint} (h : Progress sha256 A unit base salts S pre c e)
    (hin : c < S.handshake → ¬ S.LongHeader sha256 base salts (pre ++ chunk).length) :
    ¬ DataQueue.Overlong sizePolicy e.protocol.queue.maxValidLength
      ((S.bodies sha256 base salts).drop (S.arrived sha256 base salts pre.length))
      (e.protocol.queue.data ++ chunk).length := by
  rcases h.state with ⟨hc, hst, hbefore, _⟩ | ⟨m, hserv, _, _, hm⟩
  · rw [hst.limit, h.data]
    exact fun hover => hin hc ((DataQueue.overlong_drop hstream hbefore).mp hover)
  · refine DataQueue.not_overlong_of_fits (fun b hb => ?_) _
    rw [hserv.limit]
    have hle : S.handshake ≤ S.arrived sha256 base salts pre.length := by
      have := h.le
      omega
    obtain ⟨n, hn⟩ := Nat.exists_eq_add_of_le hle
    rw [hn, S.bodies_drop_handshake] at hb
    obtain ⟨d, hd, hlen⟩ := length_mem_envelope sha256 hb
    rw [hlen]
    exact hS.fitsAnnounced d (List.mem_of_mem_drop hd)

theorem Progress.idle {pre : Bytes} {c : ℕ} {e : Endpoint}
    (h : Progress sha256 A unit base salts S pre c e) :
    (e.reading && !e.connClosed && e.todo.isEmpty) = true ∧ e.todo = [] := by
  rcases h.state with ⟨_, hst, _⟩ | ⟨m, hst, _⟩
  · simp [hst.reading, hst.connClosed, hst.todo]
  · simp [hst.reading, hst.connClosed, hst.todo]

/-- The parser takes a chunk: the messages that end in it are put behind those in the queue. -/
theorem Progress.processData (hS : S.WellFormed sha256 A unit base salts) {pre chunk tail : Bytes}
    (hne : chunk ≠ []) (hstream : pre ++ (chunk ++ tail) = S.stream sha256 base salts) {c : ℕ}
    {e : Endpoint} (h : Progress sha256 A unit base salts S pre c e)
    (hin : c < S.handshake → ¬ S.LongHeader sha256 base salts (pre ++ chunk).length) :
    ∃ q : DataQueue, q.maxValidLength = e.protocol.queue.maxValidLength ∧
      q.data = rest (frames (S.bodies sha256 base salts)) (pre ++ chunk) ∧
      (∀ k, k ≤ S.arrived sha256 base salts pre.length →
        e.protocol.queue.messages = ((S.bodies sha256 base salts).take
          (S.arrived sha256 base salts pre.length)).drop k →
        q.messages = ((S.bodies sha256 base salts).take
          (S.arrived sha256 base salts (pre ++ chunk).length)).drop k) ∧
      S.arrived sha256 base salts pre.length ≤ S.arrived sha256 base salts (pre ++ chunk).length ∧
      e.protocol.processData chunk = ({ e.protocol with queue := q },
        if S.arrived sha256 base salts pre.length <
            S.arrived sha256 base salts (pre ++ chunk).length
        then .stage else .idle) := by
  have hshort := h.not_overlong hS hstream hin
  obtain ⟨-, hrest, -⟩ := split_ended _ pre (chunk ++ tail) hstream
  have hadd : S.arrived sha256 base salts (pre ++ chunk).length =
      S.arrived sha256 base salts _ + _ :=
    ended_add _ pre chunk tail hstream
  have hradd := rest_add _ pre chunk tail hstream
  rw [← h.data, ← frames_drop] at hrest hadd hradd
  have hproc := processData_within hne hrest
    (fun b hb => bodies_le_maxBody hS b (List.mem_of_mem_drop hb)) hshort
  have hale := ended_le_length (frames (S.bodies sha256 base salts)) pre.length
  rw [frames_length] at hale
  refine ⟨(e.protocol.fedFrames ((S.bodies sha256 base salts).drop
    (S.arrived sha256 base salts pre.length)) chunk).queue, rfl, hradd.symm, ?_, by omega, ?_⟩
  · intro k hk hq
    rw [hadd, List.take_add, List.drop_append_of_le_length ?_, ← hq]
    · rfl
    · rw [List.length_take]
      exact le_min hk (hk.trans hale)
  · rw [hproc, hadd]
    simp only [Nat.lt_add_right_iff_pos]
    rfl

theorem AtStand.requeue {st : Stand} {e : Endpoint} (h : AtStand st e) {q : DataQueue}
    (hq : q.maxValidLength = e.protocol.queue.maxValidLength) :
    AtStand st (e.setProtocol { e.protocol with queue := q }) :=
  ⟨h.reading, h.connClosed, h.todo, h.serving, h.ready, h.hash, h.revertor, h.stage, h.dispatched,
    hq.trans h.limit⟩

theorem Serving.requeue {t : Transformer} {limit : ℕ} {e : Endpoint} (h : Serving t limit e)
    {q : DataQueue} (hq : q.maxValidLength = e.protocol.queue.maxValidLength) :
    Serving t limit (e.setProtocol { e.protocol with queue := q }) :=
  ⟨h.reading, h.connClosed, h.todo, h.serving, h.hash, h.revertor, hq.trans h.limit⟩

/-- **One chunk**: progress goes on, and is counted when a message ends in the chunk. -/
theorem Progress.chunk (hS : S.WellFormed sha256 A unit base salts) {pre chunk tail : Bytes}
    (hstream : pre ++ (chunk ++ tail) = S.stream sha256 base salts) {c : ℕ} {e : Endpoint}
    (h : Progress sha256 A unit base salts S pre c e)
    (hin : c < S.handshake → ¬ S.LongHeader sha256 base salts (pre ++ chunk).length) :
    ∃ e', processChunk sha256 A unit base salts e chunk = some e' ∧
      Progress sha256 A unit base salts S (pre ++ chunk)
        (c + if S.arrived sha256 base salts pre.length <
          S.arrived sha256 base salts (pre ++ chunk).length then 1 else 0) e' := by
  obtain ⟨hcond, htodo⟩ := h.idle
  have hcle := h.le
  rcases eq_or_ne chunk [] with rfl | hne
  · refine ⟨e, ?_, by simpa using h⟩
    rw [processChunk, recv, if_pos hcond]
    exact congrArg some (settle_of_todo htodo)
  obtain ⟨q, hlimit, hdata, hms, hle, hproc⟩ := h.processData hS hne hstream hin
  by_cases hlt : S.arrived sha256 base salts pre.length <
      S.arrived sha256 base salts (pre ++ chunk).length
  · rw [if_pos hlt] at hproc ⊢
    rcases h.state with ⟨hc, hst, _, hq⟩ | ⟨m, hst, hdisp, hq, hm⟩
    · have hq₁ := hms c hcle hq
      rw [List.drop_take, S.bodies_drop sha256 base salts hc] at hq₁
      obtain ⟨k, hk⟩ : ∃ k, S.arrived sha256 base salts (pre ++ chunk).length - c = k + 1 :=
        ⟨_, (Nat.succ_pred_eq_of_pos (by omega)).symm⟩
      rw [hk, List.take_succ_cons] at hq₁
      obtain ⟨e', he', hms', hdata', hnext⟩ := handshake_step hS hc (hst.requeue hlimit) hq₁
      have hq' : e'.protocol.queue.messages = ((S.bodies sha256 base salts).take
          (S.arrived sha256 base salts (pre ++ chunk).length)).drop (c + 1) := by
        rw [hms', List.drop_take]
        congr 1
        omega
      refine ⟨e', ?_, hdata'.trans hdata, by omega, ?_⟩
      · rw [processChunk, recv, if_pos hcond, hproc]
        simp only [hst.serving]
        exact congrArg some he'
      · rcases hnext with ⟨hc', hst'⟩ | ⟨hc', hdisp', hst'⟩
        · exact .inl ⟨hc', hst', hin hc, hq'⟩
        · exact .inr ⟨0, hst', hdisp', by rw [hq', hc', Nat.add_zero], .inl ⟨hc', rfl⟩⟩
    · have hq₁ := hms (S.handshake + m) (by omega) hq
      obtain ⟨k, hk⟩ := Nat.exists_eq_add_of_le
        (show S.handshake + m ≤ S.arrived sha256 base salts (pre ++ chunk).length by omega)
      rw [List.drop_take, S.bodies_drop_handshake, envelope_take, hk, Nat.add_sub_cancel_left] at hq₁
      obtain ⟨e', he', hst', hdisp', hms', hdata'⟩ := serve_envelope
        (fun d hd => hS.parses d (List.mem_of_mem_drop (List.mem_of_mem_take hd)))
        (hst.requeue hlimit) hq₁
      have hsize : q.messages.length = ((S.units.drop m).take k).length := by
        rw [hq₁, envelope_length]
      refine ⟨e', ?_, hdata'.trans hdata, by omega,
        .inr ⟨m + k, ?_, ?_, ?_, .inr ⟨by omega, by omega⟩⟩⟩
      · rw [processChunk, recv, if_pos hcond, hproc]
        simp only [hst.serving, if_true, queueSize]
        rw [hsize, he', Option.map_some, settle_of_todo hst'.todo]
      · rw [List.take_add, advance_append]
        exact hst'
      · rw [hdisp', ServerStream.parsed, ← List.map_take, List.take_add, List.map_append]
        show e.dispatched ++ _ = _
        rw [hdisp, ServerStream.parsed, ← List.map_take]
      · rw [hms', hk, Nat.add_assoc]
        exact (List.drop_eq_nil_of_le (by rw [List.length_take]; omega)).symm
  · rw [if_neg hlt] at hproc ⊢
    have heq : S.arrived sha256 base salts (pre ++ chunk).length =
        S.arrived sha256 base salts pre.length := by
      omega
    refine ⟨e.setProtocol { e.protocol with queue := q }, ?_, hdata, by omega, ?_⟩
    · rw [processChunk, recv, if_pos hcond, hproc]
      exact congrArg some (settle_of_todo htodo)
    · rcases h.state with ⟨hc, hst, _, hq⟩ | ⟨m, hst, hdisp, hq, hm⟩
      · exact .inl ⟨hc, hst.requeue hlimit, hin hc, hms c hcle hq⟩
      · exact .inr ⟨m, hst.requeue hlimit, hdisp, hms _ (by omega) hq, by omega⟩

theorem Progress.raised (hS : S.WellFormed sha256 A unit base salts) {pre chunk tail : Bytes}
    (hstream : pre ++ (chunk ++ tail) = S.stream sha256 base salts) {c : ℕ} {e : Endpoint}
    (h : Progress sha256 A unit base salts S pre c e) (hc : c < S.handshake)
    (hover : S.LongHeader sha256 base salts (pre ++ chunk).length) :
    ∃ e', processChunk sha256 A unit base salts e chunk = some e' ∧ e'.reading = false ∧
      e'.dispatched = [] := by
  obtain ⟨hcond, htodo⟩ := h.idle
  rcases h.state with ⟨_, hst, hbefore, _⟩ | ⟨m, _, _, _, hm⟩
  swap
  · omega
  have hne : chunk ≠ [] := by
    rintro rfl
    rw [List.append_nil] at hover
    exact hbefore hover
  obtain ⟨-, hrest, -⟩ := split_ended _ pre (chunk ++ tail) hstream
  rw [← h.data, ← frames_drop] at hrest
  have hover' := (DataQueue.overlong_drop hstream hbefore).mpr hover
  rw [← hst.limit] at hover'
  obtain ⟨p, hproc⟩ := processData_overlong hne hrest
    (fun b hb => bodies_le_maxBody hS b (List.mem_of_mem_drop hb)) (by rwa [h.data])
  refine ⟨{ e.setProtocol p with reading := false, connClosed := true }, ?_, rfl, hst.dispatched⟩
  rw [processChunk, recv, if_pos hcond, hproc]
  exact congrArg some (settle_of_todo htodo)

theorem processChunks_of_not_reading {e e' : Endpoint} (hread : e.reading = false)
    {chunks : List Bytes} (h : processChunks sha256 A unit base salts e chunks = some e') :
    e' = e := by
  cases chunks with
  | nil => exact (Option.some.inj h).symm
  | cons chunk chunks =>
      rw [processChunks, processChunk, recv, hread] at h
      cases h

/-- **All chunks**: progress goes on to the end of the stream, unless a header came too early. -/
theorem Progress.chunks (hS : S.WellFormed sha256 A unit base salts) {chunks : List Bytes} :
    ∀ {pre : Bytes} {c : ℕ} {e : Endpoint}, pre ++ chunks.flatten = S.stream sha256 base salts →
      Progress sha256 A unit base salts S pre c e →
      S.HeadersInTime sha256 base salts pre.length c chunks ∧
        (∃ e', processChunks sha256 A unit base salts e chunks = some e' ∧
          Progress sha256 A unit base salts S (S.stream sha256 base salts)
            (c + completing (frames (S.bodies sha256 base salts)) pre.length
              (chunks.map List.length)) e') ∨
      ¬ S.HeadersInTime sha256 base salts pre.length c chunks ∧
        ∀ e', processChunks sha256 A unit base salts e chunks = some e' → e'.dispatched = [] := by
  induction chunks with
  | nil =>
      intro pre c e hpre h
      rw [List.flatten_nil, List.append_nil] at hpre
      exact .inl ⟨ServerStream.headersInTime_nil _ _ _ S _ _, e, rfl, hpre ▸ h⟩
  | cons chunk chunks ih =>
      intro pre c e hpre h
      rw [List.flatten_cons] at hpre
      rw [ServerStream.headersInTime_cons, ← List.length_append]
      by_cases hin : c < S.handshake → ¬ S.LongHeader sha256 base salts (pre ++ chunk).length
      · obtain ⟨e₁, he₁, h₁⟩ := h.chunk hS hpre hin
        rw [← List.append_assoc] at hpre
        rw [processChunks, he₁, Option.bind_some, List.map_cons, completing_cons, ← Nat.add_assoc,
          ← List.length_append]
        rcases ih hpre h₁ with ⟨htime, hrun⟩ | ⟨htime, hrun⟩
        · exact .inl ⟨⟨hin, htime⟩, hrun⟩
        · exact .inr ⟨fun h => htime h.2, hrun⟩
      · right
        refine ⟨fun h => hin h.1, ?_⟩
        rw [Classical.not_imp, not_not] at hin
        obtain ⟨e₁, he₁, hread, hdisp⟩ := h.raised hS hpre hin.1 hin.2
        intro e' he'
        rw [processChunks, he₁, Option.bind_some] at he'
        rw [processChunks_of_not_reading hread he', hdisp]

theorem arrived_stream (S : ServerStream) :
    S.arrived sha256 base salts (S.stream sha256 base salts).length =
      S.handshake + S.units.length := by
  rw [ServerStream.arrived, ServerStream.stream, ended_flatten, frames_length, S.bodies_length]

theorem Progress.delivered {c : ℕ} {e : Endpoint}
    (h : Progress sha256 A unit base salts S (S.stream sha256 base salts) c e) :
    (e.protocol.queueSize = 0 ∧ e.dispatched = S.parsed unit) ↔
      S.handshake + min S.units.length 1 ≤ c := by
  have hlen := S.bodies_length sha256 base salts
  have hst := h.state
  rw [arrived_stream, ← hlen, List.take_length] at hst
  rcases hst with ⟨hc, _, _, hq⟩ | ⟨m, _, hdisp, hq, ⟨hc, rfl⟩ | ⟨hc, hm⟩⟩
  · rw [queueSize, hq, List.length_drop, hlen]
    exact ⟨fun hd => by omega, fun hd => by omega⟩
  · rw [queueSize, hq, List.length_drop, hlen, hdisp]
    constructor
    · intro hd
      omega
    · intro hd
      have hnil : S.units = [] := List.length_eq_zero_iff.mp (by omega)
      simp [ServerStream.parsed, hnil]
  · have hm' : m = S.units.length := by omega
    rw [queueSize, hq, List.length_drop, hdisp, hm', ServerStream.parsed, hlen]
    refine ⟨fun _ => by omega, fun _ => ⟨by omega, ?_⟩⟩
    exact List.take_of_length_le (by rw [List.length_map])

/-- **Which chunks deliver everything**: exactly those in which messages end in more chunks than
the handshake has messages (in as many, when there is no unit), and no chunk of the handshake
brings the header of a unit above the default limit. -/
theorem delivered_iff (sha256 : Bytes → Digest) (A : AuthCodecs) (unit : Codec LowlevelUnit)
    (base : Base) (salts : Bytes × Bytes) (S : ServerStream) (chunks : List Bytes)
    (hS : S.WellFormed sha256 A unit base salts)
    (hchunks : chunks.flatten = S.stream sha256 base salts) :
    (∃ e, processChunks sha256 A unit base salts start chunks = some e ∧
      e.protocol.queueSize = 0 ∧ e.dispatched = S.parsed unit) ↔
    S.handshake + min S.units.length 1 ≤
        completing (frames (S.bodies sha256 base salts)) 0 (chunks.map List.length) ∧
      S.HeadersInTime sha256 base salts 0 0 chunks := by
  rcases Progress.chunks hS (by rwa [List.nil_append]) progress_start with
    ⟨htime, e, he, h⟩ | ⟨htime, hrun⟩
  · rw [List.length_nil, Nat.zero_add] at h
    rw [List.length_nil] at htime
    rw [← h.delivered]
    constructor
    · rintro ⟨e', he', hd⟩
      rw [he] at he'
      cases he'
      exact ⟨hd, htime⟩
    · exact fun hd => ⟨e, he, hd.1⟩
  · refine iff_of_false ?_ (fun h => htime h.2)
    rintro ⟨e, he, _, hdisp⟩
    rw [hrun e he] at hdisp
    have hunits : S.units = [] := List.map_eq_nil_iff.mp hdisp.symm
    exact htime (headersInTime_of_no_units hS hunits chunks)

end

/-- A server without keys: hello, a ready capsule that announces `max_message_length = 65536`,
and one event with id 101. -/
def plainStream : ServerStream where
  hello := [0x10, 0x01]
  setup := none
  ready := [0x10, 0x01, 0x52, 0x06, 0x0a, 0x04, 0x10, 0x80, 0x80, 0x04]
  units := [[0x08, 0x65, 0x1a, 0x02, 0x08, 0x02]]

/-- The wire bytes of that event. -/
def eventCodec : Codec LowlevelUnit where
  serialize _ := []
  parse b :=
    if b = [0x08, 0x65, 0x1a, 0x02, 0x08, 0x02] then
      (true, { id := 101, messageType := .serverCall })
    else (false, {})

theorem plainStream_fits (sha256 : Bytes → Digest) :
    ∀ b ∈ plainStream.bodies sha256 ⟨none, []⟩ ([], []),
      b.length ≤ SessionOptions.defaults.maxMessageLength.toNat := by
  have h : plainStream.bodies sha256 ⟨none, []⟩ ([], []) =
      plainStream.bodies (fun _ => ⟨List.replicate 32 0, rfl⟩) ⟨none, []⟩ ([], []) := rfl
  rw [h]
  decide +kernel

theorem plainStream_wellFormed (sha256 : Bytes → Digest) :
    plainStream.WellFormed sha256 .sample eventCodec ⟨none, []⟩ ([], []) where
  hello := by decide
  setup := rfl
  setupReady := by simp [plainStream]
  ready := by decide
  parses := by decide
  fits b hb := plainStream_fits sha256 b (List.mem_append_left _ hb)
  fitsAnnounced := by decide

/-- Every message in a chunk of its own: the event is dispatched. -/
theorem delivered_one_by_one :
    let sha256 : Bytes → Digest := fun _ => ⟨List.replicate 32 0, rfl⟩
    ∃ e, processChunks sha256 .sample eventCodec ⟨none, []⟩ ([], []) start
        (frames (plainStream.bodies sha256 ⟨none, []⟩ ([], []))) = some e ∧
      e.protocol.queueSize = 0 ∧ e.dispatched = plainStream.parsed eventCodec := by
  intro sha256
  exact (delivered_iff sha256 .sample eventCodec ⟨none, []⟩ ([], []) plainStream _
    (plainStream_wellFormed sha256) rfl).mpr ⟨by decide +kernel,
      ServerStream.headersInTime_of_fits _ _ _ (plainStream_fits sha256) 0 0 _⟩

/-- The event in one chunk with the ready capsule: the event stays in the queue. -/
theorem stranded_with_ready :
    let sha256 : Bytes → Digest := fun _ => ⟨List.replicate 32 0, rfl⟩
    plainStream.WellFormed sha256 .sample eventCodec ⟨none, []⟩ ([], []) ∧
    plainStream.stream sha256 ⟨none, []⟩ ([], []) =
      [[0x02, 0x10, 0x01],
        [0x0e, 0x7e, 0x55, 0xa9, 0xb7, 0x10, 0x01, 0x52, 0x06, 0x0a, 0x04, 0x10, 0x80, 0x80, 0x04,
         0x0a, 0x16, 0xb4, 0x53, 0x42, 0x08, 0x65, 0x1a, 0x02, 0x08, 0x02]].flatten ∧
    ∃ e, processChunks sha256 .sample eventCodec ⟨none, []⟩ ([], []) start
        [[0x02, 0x10, 0x01],
          [0x0e, 0x7e, 0x55, 0xa9, 0xb7, 0x10, 0x01, 0x52, 0x06, 0x0a, 0x04, 0x10, 0x80, 0x80, 0x04,
           0x0a, 0x16, 0xb4, 0x53, 0x42, 0x08, 0x65, 0x1a, 0x02, 0x08, 0x02]] = some e ∧
      e.serving = true ∧ e.protocol.queueSize = 1 ∧ e.dispatched = [] := by
  intro sha256
  have hrun : (processChunks sha256 .sample eventCodec ⟨none, []⟩ ([], []) start
      [[0x02, 0x10, 0x01],
        [0x0e, 0x7e, 0x55, 0xa9, 0xb7, 0x10, 0x01, 0x52, 0x06, 0x0a, 0x04, 0x10, 0x80, 0x80, 0x04,
         0x0a, 0x16, 0xb4, 0x53, 0x42, 0x08, 0x65, 0x1a, 0x02, 0x08, 0x02]]).map
      (fun e => (e.serving, e.protocol.queueSize, e.dispatched)) = some (true, 1, []) := by
    decide +kernel
  obtain ⟨e, he, heq⟩ := Option.map_eq_some_iff.mp hrun
  simp only [Prod.mk.injEq] at heq
  exact ⟨plainStream_wellFormed sha256, by decide +kernel, e, he, heq⟩

end Vtrc.Client
