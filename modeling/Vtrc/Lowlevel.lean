import Vtrc.DataQueue
import Vtrc.Transformer
import Vtrc.Messages
import Vtrc.Lib.Machine

/-! # The default low-level protocol (`lowlevel-protocol-default.cpp`)

`default_protocol` puts a payload into its envelope and takes it out again:

    frame = pack_size( hash size + payload size ) ++ transform( hash( payload ) ++ payload )

`packMessage` is `pack_message`, `popRawMessage` and `popProtoMessage` take the front message
of the parser's queue, revert it, check its hash and drop it in every case.  `processData`
feeds a chunk to the parser and reports whether `process_stage_` is called: once, when at least
one message was added, and not at all when the parser raises.

The second half is the session: a sender packs a list of payloads, a receiver in the same
starting state is fed the bytes in arbitrary chunks and pops at arbitrary moments.  `Synced` is
the invariant that keeps the two ciphers in step, `envelope_roundtrip` the result. -/

namespace Vtrc

open Framing

/-- `data_queue::varint` over a `size_t` of 64 bits. -/
def sizePolicy : SizePolicy := varintPolicy 8

/-- The longest body that is ever packed: a `std::string` and a hash. -/
def maxBody : ℕ := 2 ^ 63 + 2 ^ 32

/-- Below that length the parser's sums do not overflow. -/
theorem sizePolicy_lawful : sizePolicy.Lawful maxBody :=
  varintPolicy_lawful 8 maxBody (by decide)

theorem frame_ne_nil (b : Bytes) : DataQueue.frame sizePolicy b ≠ [] := by
  intro h
  exact Varint.pack_ne_nil _ (List.append_eq_nil_iff.mp h).1

/-- The members of `default_protocol`, without the stage function and the accessor. -/
structure DefaultProtocol where
  hashMaker : HashKind
  hashChecker : HashKind
  transformer : Transformer
  revertor : Transformer
  queue : DataQueue

/-- What `process_data` comes to. -/
inductive ProcessResult where
  | idle
  | stage
  | raised (e : LengthError)
deriving DecidableEq, Repr

namespace DefaultProtocol

/-- The constructor. -/
def create : DefaultProtocol where
  hashMaker := .createDefault
  hashChecker := .createDefault
  transformer := .none
  revertor := .none
  queue := .createParser SessionOptions.defaults.maxMessageLength.toNat

def setTransformer (p : DefaultProtocol) (t : Transformer) : DefaultProtocol :=
  { p with transformer := t }

def setRevertor (p : DefaultProtocol) (t : Transformer) : DefaultProtocol :=
  { p with revertor := t }

def setHashMaker (p : DefaultProtocol) (h : HashKind) : DefaultProtocol :=
  { p with hashMaker := h }

def setHashChecker (p : DefaultProtocol) (h : HashKind) : DefaultProtocol :=
  { p with hashChecker := h }

def configure (p : DefaultProtocol) (opts : SessionOptions) : DefaultProtocol :=
  { p with queue := p.queue.setMaximumLength opts.maxMessageLength.toNat }

/-- `append` and `process` of the parser. -/
def feed (p : DefaultProtocol) (chunk : Bytes) : DefaultProtocol × Option LengthError :=
  let r := (p.queue.append chunk).process sizePolicy
  ({ p with queue := r.1 }, r.2)

/-- `process_data`, up to the call of the stage function. -/
def processData (p : DefaultProtocol) (data : Bytes) : DefaultProtocol × ProcessResult :=
  if data.length > 0 then
    let old := p.queue.messages.length
    let r := p.feed data
    match r.2 with
    | some e => (r.1, .raised e)
    | none => (r.1, if old < r.1.queue.messages.length then .stage else .idle)
  else (p, .idle)

def queueSize (p : DefaultProtocol) : ℕ := p.queue.messages.length

/-- The front message is removed and the revertor has advanced to `t`. -/
def popFront (p : DefaultProtocol) (t : Transformer) : DefaultProtocol :=
  { p with revertor := t, queue := { p.queue with messages := p.queue.messages.tail } }

section
variable (sha256 : Bytes → Digest)

/-- `pack_message`. -/
def packMessage (p : DefaultProtocol) (data : Bytes) : DefaultProtocol × Bytes :=
  let bodyLen := (data.length + p.hashMaker.size) % 2 ^ 64
  let result := sizePolicy.pack bodyLen
  let body := p.hashMaker.getDataHash sha256 data ++ data
  let r := p.transformer.transform body
  ({ p with transformer := r.1 }, result ++ r.2)

/-- `check_message`. -/
def checkMessage (p : DefaultProtocol) (mess : Bytes) : Bool :=
  let hashLength := p.hashChecker.size
  if mess.length ≥ hashLength then
    p.hashChecker.checkDataHash sha256 (mess.drop hashLength) mess
  else false

/-- `pop_raw_message`: `none` on an empty queue (the code has no such call), otherwise the
popped protocol and the payload when the check succeeds. -/
def popRawMessage (p : DefaultProtocol) : Option (DefaultProtocol × Option Bytes) :=
  match p.queue.messages with
  | [] => none
  | data :: _ =>
      let r := p.revertor.transform data
      let p' := p.popFront r.1
      if p.checkMessage sha256 r.2 then some (p', some (r.2.drop p.hashChecker.size))
      else some (p', none)

/-- `pop_proto_message`: as `pop_raw_message`, and the payload must parse as a unit. -/
def popProtoMessage (unit : Codec LowlevelUnit) (p : DefaultProtocol) :
    Option (DefaultProtocol × Option LowlevelUnit) :=
  (p.popRawMessage sha256).map (fun r =>
    (r.1, r.2.bind (fun d =>
      let u := unit.parse d
      if u.1 then some u.2 else none)))

end

@[simp] theorem feed_hashChecker (p : DefaultProtocol) (c : Bytes) :
    (p.feed c).1.hashChecker = p.hashChecker := rfl

theorem processData_fst (p : DefaultProtocol) (data : Bytes) :
    (p.processData data).1 = { p with queue := (p.processData data).1.queue } := by
  rw [processData]
  split_ifs
  · simp only
    split <;> rfl
  · rfl

theorem processData_maxValidLength (p : DefaultProtocol) (data : Bytes) :
    (p.processData data).1.queue.maxValidLength = p.queue.maxValidLength := by
  have hfeed : (p.feed data).1.queue.maxValidLength = p.queue.maxValidLength :=
    DataQueue.processLoop_maxValidLength _ _ _
  rw [processData]
  split_ifs
  · simp only
    split <;> exact hfeed
  · rfl

theorem popRawMessage_maxValidLength {sha256 : Bytes → Digest} {p p' : DefaultProtocol}
    {res : Option Bytes} (h : p.popRawMessage sha256 = some (p', res)) :
    p'.queue.maxValidLength = p.queue.maxValidLength := by
  rw [popRawMessage] at h
  split at h
  · cases h
  · simp only at h
    split_ifs at h
    · obtain ⟨rfl, _⟩ := Prod.mk.inj (Option.some.inj h)
      rfl
    · obtain ⟨rfl, _⟩ := Prod.mk.inj (Option.some.inj h)
      rfl

/-- The frames around bodies. -/
def frames (bs : List Bytes) : List Bytes := bs.map (DataQueue.frame sizePolicy)

@[simp] theorem frames_nil : frames [] = [] := rfl
@[simp] theorem frames_cons (b : Bytes) (bs : List Bytes) :
    frames (b :: bs) = DataQueue.frame sizePolicy b :: frames bs := rfl
@[simp] theorem frames_append (bs cs : List Bytes) : frames (bs ++ cs) = frames bs ++ frames cs :=
  List.map_append
theorem frames_drop (bs : List Bytes) (n : ℕ) : frames (bs.drop n) = (frames bs).drop n :=
  List.map_drop
@[simp] theorem frames_length (bs : List Bytes) : (frames bs).length = bs.length :=
  List.length_map _

/-- The protocol after the next bytes of a stream of frames: the frames that end in them stand
in the queue. -/
def fedFrames (p : DefaultProtocol) (bs : List Bytes) (chunk : Bytes) : DefaultProtocol :=
  { p with queue := { p.queue with
      data := rest (frames bs) (p.queue.data ++ chunk)
      messages := p.queue.messages ++ bs.take (ended (frames bs) (p.queue.data ++ chunk).length) } }

/-- Feeding the next bytes of a stream of frames, or the header of a frame above the limit. -/
theorem feed_frames {p : DefaultProtocol} {bs : List Bytes} {chunk tail : Bytes}
    (hdata : p.queue.data ++ (chunk ++ tail) = (frames bs).flatten)
    (hbs : ∀ b ∈ bs, b.length ≤ maxBody) :
    ¬ DataQueue.Overlong sizePolicy p.queue.maxValidLength bs (p.queue.data ++ chunk).length ∧
        p.feed chunk = (p.fedFrames bs chunk, none) ∨
      DataQueue.Overlong sizePolicy p.queue.maxValidLength bs (p.queue.data ++ chunk).length ∧
        (p.feed chunk).2 = some .tooLong := by
  rw [← List.append_assoc] at hdata
  rcases DataQueue.process_frames sizePolicy_lawful bs (p.queue.append chunk) tail hdata hbs with
    ⟨hin, hproc⟩ | ⟨hover, herr⟩
  · left
    rw [feed, hproc]
    exact ⟨hin, rfl⟩
  · right
    exact ⟨hover, herr⟩

/-- Processing the next bytes of a stream of frames: the stage function is called when a frame ends
in them. -/
theorem processData_within {p : DefaultProtocol} {bs : List Bytes} {chunk tail : Bytes}
    (hne : chunk ≠ []) (hdata : p.queue.data ++ (chunk ++ tail) = (frames bs).flatten)
    (hbs : ∀ b ∈ bs, b.length ≤ maxBody)
    (hin : ¬ DataQueue.Overlong sizePolicy p.queue.maxValidLength bs
      (p.queue.data ++ chunk).length) :
    p.processData chunk = (p.fedFrames bs chunk,
      if 0 < ended (frames bs) (p.queue.data ++ chunk).length then .stage else .idle) := by
  obtain ⟨_, hfeed⟩ | ⟨hover, _⟩ := feed_frames hdata hbs
  swap
  · exact absurd hover hin
  have hle := ended_le_length (frames bs) (p.queue.data ++ chunk).length
  rw [frames_length] at hle
  rw [processData, if_pos (List.length_pos_iff.mpr hne), hfeed]
  simp only [fedFrames, List.length_append, List.length_take, Nat.lt_add_right_iff_pos] at hle ⊢
  rw [Nat.min_eq_left hle]

theorem processData_frames {p : DefaultProtocol} {bs : List Bytes} {chunk tail : Bytes}
    (hne : chunk ≠ []) (hdata : p.queue.data ++ (chunk ++ tail) = (frames bs).flatten)
    (hbs : ∀ b ∈ bs, b.length ≤ maxBody) (hfit : ∀ b ∈ bs, b.length ≤ p.queue.maxValidLength) :
    p.processData chunk = (p.fedFrames bs chunk,
      if 0 < ended (frames bs) (p.queue.data ++ chunk).length then .stage else .idle) :=
  processData_within hne hdata hbs (DataQueue.not_overlong_of_fits hfit _)

theorem processData_overlong {p : DefaultProtocol} {bs : List Bytes} {chunk tail : Bytes}
    (hne : chunk ≠ []) (hdata : p.queue.data ++ (chunk ++ tail) = (frames bs).flatten)
    (hbs : ∀ b ∈ bs, b.length ≤ maxBody)
    (hover : DataQueue.Overlong sizePolicy p.queue.maxValidLength bs
      (p.queue.data ++ chunk).length) :
    ∃ p', p.processData chunk = (p', .raised .tooLong) := by
  obtain ⟨hin, _⟩ | ⟨_, herr⟩ := feed_frames hdata hbs
  · exact absurd hover hin
  · refine ⟨(p.feed chunk).1, ?_⟩
    rw [processData, if_pos (List.length_pos_iff.mpr hne)]
    simp only
    rw [herr]

theorem fedFrames_rest {p : DefaultProtocol} {bs : List Bytes} {chunk tail : Bytes}
    (hdata : p.queue.data ++ (chunk ++ tail) = (frames bs).flatten) :
    (p.fedFrames bs chunk).queue.data ++ tail =
        (frames (bs.drop (ended (frames bs) (p.queue.data ++ chunk).length))).flatten ∧
      Partial (frames (bs.drop (ended (frames bs) (p.queue.data ++ chunk).length)))
        (p.fedFrames bs chunk).queue.data := by
  rw [← List.append_assoc] at hdata
  obtain ⟨_, hrest, hpart⟩ := split_ended _ _ _ hdata
  rw [frames_drop]
  exact ⟨hrest, hpart⟩

/-! ### The envelope -/

section
variable (sha256 : Bytes → Digest)

/-- The body of a payload before it is transformed. -/
def sealed (h : HashKind) (d : Bytes) : Bytes := h.getDataHash sha256 d ++ d

theorem sealed_length (h : HashKind) (d : Bytes) :
    (sealed sha256 h d).length = d.length + h.size := by
  rw [sealed, List.length_append, HashKind.getDataHash_length]
  omega

/-- The bodies of the payloads `ds`, transformed one after the other from `t`. -/
def envelope (h : HashKind) (t : Transformer) (ds : List Bytes) : List Bytes :=
  Transformer.cipher.encode t (ds.map (sealed sha256 h))

/-- The transformer after the payloads `ds`. -/
def advance (h : HashKind) (t : Transformer) (ds : List Bytes) : Transformer :=
  Transformer.cipher.advance t (ds.map (sealed sha256 h))

theorem envelope_cons (h : HashKind) (t : Transformer) (d : Bytes) (ds : List Bytes) :
    envelope sha256 h t (d :: ds) =
      (t.transform (sealed sha256 h d)).2 ::
        envelope sha256 h (t.transform (sealed sha256 h d)).1 ds := rfl

@[simp] theorem envelope_nil (h : HashKind) (t : Transformer) :
    envelope sha256 h t [] = [] := rfl

theorem advance_cons (h : HashKind) (t : Transformer) (d : Bytes) (ds : List Bytes) :
    advance sha256 h t (d :: ds) = advance sha256 h (t.transform (sealed sha256 h d)).1 ds := rfl

theorem advance_append (h : HashKind) (t : Transformer) (ds es : List Bytes) :
    advance sha256 h t (ds ++ es) = advance sha256 h (advance sha256 h t ds) es := by
  rw [advance, List.map_append, StreamCipher.advance_append]
  rfl

theorem envelope_take (h : HashKind) (t : Transformer) (ds : List Bytes) (n : ℕ) :
    (envelope sha256 h t ds).take n = envelope sha256 h t (ds.take n) := by
  induction ds generalizing t n with
  | nil => simp [envelope, StreamCipher.encode]
  | cons d ds ih =>
      cases n with
      | zero => rfl
      | succ n => rw [envelope_cons, List.take_succ_cons, ih, List.take_succ_cons, envelope_cons]

theorem envelope_drop (h : HashKind) (t : Transformer) (ds : List Bytes) (n : ℕ) :
    (envelope sha256 h t ds).drop n =
      envelope sha256 h (advance sha256 h t (ds.take n)) (ds.drop n) := by
  induction ds generalizing t n with
  | nil => simp [envelope, StreamCipher.encode]
  | cons d ds ih =>
      cases n with
      | zero => rfl
      | succ n => rw [envelope_cons, List.drop_succ_cons, ih, List.drop_succ_cons,
          List.take_succ_cons, advance_cons]

@[simp] theorem envelope_length (h : HashKind) (t : Transformer) (ds : List Bytes) :
    (envelope sha256 h t ds).length = ds.length := by
  rw [envelope, StreamCipher.encode_length, List.length_map]

theorem length_mem_envelope {h : HashKind} {t : Transformer} {ds : List Bytes} {b : Bytes}
    (hb : b ∈ envelope sha256 h t ds) : ∃ d ∈ ds, b.length = d.length + h.size := by
  induction ds generalizing t with
  | nil => simp at hb
  | cons d ds ih =>
      rw [envelope_cons, List.mem_cons] at hb
      rcases hb with rfl | hb
      · refine ⟨d, List.mem_cons_self, ?_⟩
        rw [Transformer.transform_length, sealed_length]
      · obtain ⟨d', hd', hlen⟩ := ih hb
        exact ⟨d', List.mem_cons_of_mem _ hd', hlen⟩

theorem packMessage_eq (p : DefaultProtocol) (d : Bytes) (hd : d.length + p.hashMaker.size < 2 ^ 64) :
    p.packMessage sha256 d =
      ({ p with transformer := (p.transformer.transform (sealed sha256 p.hashMaker d)).1 },
        DataQueue.frame sizePolicy (p.transformer.transform (sealed sha256 p.hashMaker d)).2) := by
  rw [packMessage, DataQueue.frame, Transformer.transform_length, sealed_length,
    Nat.mod_eq_of_lt hd]
  rfl

theorem checkMessage_sealed (p : DefaultProtocol) (d : Bytes) :
    p.checkMessage sha256 (sealed sha256 p.hashChecker d) = true := by
  have hlen : p.hashChecker.size ≤ (sealed sha256 p.hashChecker d).length := by
    rw [sealed_length]
    omega
  have hhash : (p.hashChecker.getDataHash sha256 d).length = p.hashChecker.size :=
    HashKind.getDataHash_length sha256 _ d
  rw [checkMessage, if_pos hlen, HashKind.checkDataHash_iff sha256 _ _ _ hlen]
  simp only [sealed]
  rw [List.take_left' hhash, List.drop_left' hhash]

/-- **A pop in step**: when the front body was transformed from the state the revertor is in,
the payload comes out and the revertor advances as the transformer did. -/
theorem popRawMessage_sealed (p : DefaultProtocol) (d : Bytes) (rest : List Bytes)
    (h : p.queue.messages =
      (p.revertor.transform (sealed sha256 p.hashChecker d)).2 :: rest) :
    p.popRawMessage sha256 =
      some (p.popFront (p.revertor.transform (sealed sha256 p.hashChecker d)).1, some d) := by
  have hhash : (p.hashChecker.getDataHash sha256 d).length = p.hashChecker.size :=
    HashKind.getDataHash_length sha256 _ d
  rw [popRawMessage, h]
  simp only [Transformer.transform_transform, checkMessage_sealed, if_true]
  rw [sealed, List.drop_left' hhash]

end

/-! ### Sessions -/

section
variable (sha256 : Bytes → Digest)

/-- A sender packs the payloads in order; the bytes it hands to the stream. -/
def packAll : DefaultProtocol → List Bytes → DefaultProtocol × Bytes
  | p, [] => (p, [])
  | p, d :: ds =>
      let r := p.packMessage sha256 d
      let rs := packAll r.1 ds
      (rs.1, r.2 ++ rs.2)

theorem packAll_eq (ds : List Bytes) (p : DefaultProtocol)
    (hlen : ∀ d ∈ ds, d.length + p.hashMaker.size < 2 ^ 64) :
    (packAll sha256 p ds).2 =
      (frames (envelope sha256 p.hashMaker p.transformer ds)).flatten := by
  induction ds generalizing p with
  | nil => rfl
  | cons d ds ih =>
      rw [packAll, packMessage_eq sha256 p d (hlen d List.mem_cons_self)]
      have hrest := ih { p with transformer := (p.transformer.transform (sealed sha256 p.hashMaker d)).1 }
        (fun d' hd' => hlen d' (List.mem_cons_of_mem _ hd'))
      simp only
      rw [hrest, envelope_cons, frames_cons, List.flatten_cons]

/-- What happens at the receiver: a chunk is appended and processed, or a message is popped. -/
inductive ReceiverEvent where
  | feed (chunk : Bytes)
  | pop

/-- The receiver with what its pops returned and the errors its parser raised. -/
structure Receiver where
  protocol : DefaultProtocol
  results : List (Option Bytes)
  errors : List LengthError

/-- The receiver as a machine; a pop is enabled when the queue is not empty. -/
def receiver (p : DefaultProtocol) : Machine Receiver ReceiverEvent where
  init := ⟨p, [], []⟩
  step r
    | .feed chunk =>
        let f := r.protocol.feed chunk
        some { r with protocol := f.1, errors := r.errors ++ f.2.toList }
    | .pop => (r.protocol.popRawMessage sha256).map (fun q =>
        { r with protocol := q.1, results := r.results ++ [q.2] })

/-- The bytes fed by a list of events. -/
def fed : List ReceiverEvent → Bytes
  | [] => []
  | .feed chunk :: es => chunk ++ fed es
  | .pop :: es => fed es

/-- The receiver with the payloads `ds` still to be popped and the bytes `tail` still to be
fed: the queue holds the first bodies of the envelope of `ds` from the revertor's state, the
buffer and `tail` are the frames of the others. -/
def Synced (p : DefaultProtocol) (ds : List Bytes) (tail : Bytes) : Prop :=
  ∃ bs, envelope sha256 p.hashChecker p.revertor ds = p.queue.messages ++ bs ∧
    p.queue.data ++ tail = (frames bs).flatten ∧ Partial (frames bs) p.queue.data

variable {sha256}

theorem Synced.feed {p : DefaultProtocol} {ds : List Bytes} {chunk tail : Bytes}
    (h : Synced sha256 p ds (chunk ++ tail))
    (hlen : ∀ d ∈ ds, d.length + p.hashChecker.size ≤ p.queue.maxValidLength)
    (hmax : p.queue.maxValidLength ≤ 2 ^ 32) :
    (p.feed chunk).2 = none ∧ Synced sha256 (p.feed chunk).1 ds tail ∧
      (p.feed chunk).1.queue.maxValidLength = p.queue.maxValidLength := by
  obtain ⟨bs, hmess, hdata, _⟩ := h
  have hbs : ∀ b ∈ bs, b.length ≤ p.queue.maxValidLength := by
    intro b hb
    have hmem : b ∈ envelope sha256 p.hashChecker p.revertor ds := by
      rw [hmess]
      exact List.mem_append_right _ hb
    obtain ⟨d, hd, hbd⟩ := length_mem_envelope sha256 hmem
    have := hlen d hd
    omega
  have hbody : ∀ b ∈ bs, b.length ≤ maxBody := by
    intro b hb
    have := hbs b hb
    rw [maxBody]
    omega
  rcases feed_frames hdata hbody with ⟨_, hfeed⟩ | ⟨hover, _⟩
  · obtain ⟨hrest, hpart⟩ := fedFrames_rest hdata
    rw [hfeed]
    refine ⟨rfl, ⟨_, ?_, hrest, hpart⟩, rfl⟩
    simp only [fedFrames]
    rw [hmess, List.append_assoc, List.take_append_drop]
  · exact absurd hover (DataQueue.not_overlong_of_fits hbs _)

theorem Synced.pop {p p' : DefaultProtocol} {ds : List Bytes} {tail : Bytes} {res : Option Bytes}
    (h : Synced sha256 p ds tail) (hpop : p.popRawMessage sha256 = some (p', res)) :
    ∃ d ds', ds = d :: ds' ∧ res = some d ∧ Synced sha256 p' ds' tail ∧
      p' = p.popFront (p.revertor.transform (sealed sha256 p.hashChecker d)).1 := by
  obtain ⟨bs, hmess, hdata, hpart⟩ := h
  cases ds with
  | nil =>
      rw [envelope_nil, eq_comm, List.append_eq_nil_iff] at hmess
      rw [popRawMessage, hmess.1] at hpop
      cases hpop
  | cons d ds =>
      rw [envelope_cons] at hmess
      cases hq : p.queue.messages with
      | nil =>
          rw [popRawMessage, hq] at hpop
          cases hpop
      | cons m ms =>
          rw [hq, List.cons_append] at hmess
          obtain ⟨hm, hms⟩ := List.cons.inj hmess
          rw [popRawMessage_sealed sha256 p d ms (by rw [hq, ← hm])] at hpop
          obtain ⟨rfl, rfl⟩ := Prod.mk.inj (Option.some.inj hpop)
          refine ⟨d, ds, rfl, rfl, ⟨bs, ?_, hdata, hpart⟩, rfl⟩
          simp only [popFront, hq, List.tail_cons]
          exact hms

/-- The run lemma of the receiver: whatever the order of chunks and pops, the pops return the
payloads from the first on, and the receiver stays in step with the others. -/
theorem synced_run (es : List ReceiverEvent) (r r' : Receiver) (ds : List Bytes) (tail : Bytes)
    (hsync : Synced sha256 r.protocol ds (fed es ++ tail))
    (hlen : ∀ d ∈ ds, d.length + r.protocol.hashChecker.size ≤ r.protocol.queue.maxValidLength)
    (hmax : r.protocol.queue.maxValidLength ≤ 2 ^ 32) {p : DefaultProtocol}
    (hrun : (receiver sha256 p).runFrom r es = some r') :
    ∃ done todo, ds = done ++ todo ∧ r'.results = r.results ++ done.map some ∧
      r'.errors = r.errors ∧ Synced sha256 r'.protocol todo tail := by
  induction es generalizing r ds with
  | nil =>
      cases hrun
      exact ⟨[], ds, rfl, by simp, rfl, hsync⟩
  | cons e es ih =>
      obtain ⟨r₁, h₁, h₂⟩ := (receiver sha256 p).runFrom_cons_eq_some.mp hrun
      cases e with
      | feed chunk =>
          obtain rfl := Option.some.inj h₁
          rw [fed, List.append_assoc] at hsync
          obtain ⟨herr, hsync', hmax'⟩ := hsync.feed hlen hmax
          obtain ⟨done, todo, hds, hres, herrs, hs⟩ :=
            ih _ ds hsync' (by simpa [hmax'] using hlen) (by simpa [hmax'] using hmax) h₂
          exact ⟨done, todo, hds, hres, by simpa [herr] using herrs, hs⟩
      | pop =>
          obtain ⟨⟨q, res⟩, hq, rfl⟩ := Option.map_eq_some_iff.mp h₁
          obtain ⟨d, ds', rfl, rfl, hsync', rfl⟩ := hsync.pop hq
          rw [fed] at hsync'
          obtain ⟨done, todo, rfl, hres, herrs, hs⟩ := ih ⟨_, _, _⟩ ds' hsync'
            (fun d' hd' => hlen d' (List.mem_cons_of_mem _ hd')) hmax h₂
          refine ⟨d :: done, todo, rfl, ?_, herrs, hs⟩
          rw [hres]
          simp

theorem Synced.finished {p : DefaultProtocol} {ds : List Bytes} (h : Synced sha256 p ds []) :
    p.queue.data = [] ∧ p.queue.messages.length = ds.length := by
  obtain ⟨bs, hmess, hdata, hpart⟩ := h
  rw [List.append_nil] at hdata
  cases bs with
  | nil =>
      refine ⟨hdata, ?_⟩
      rw [List.append_nil] at hmess
      rw [← hmess, envelope_length]
  | cons b bs =>
      -- a proper part of a frame is shorter than the frames that should be there
      simp only [frames_cons, List.flatten_cons, Partial] at hdata hpart
      rw [hdata, List.length_append] at hpart
      omega

/-- A sender or receiver at the start of a session: one hash and one cipher in both directions,
and the length limit of the session. -/
def sessionStart (h : HashKind) (kind : TransformerKind) (key : Key) (opts : SessionOptions) :
    DefaultProtocol :=
  ((((create.setHashMaker h).setHashChecker h).setTransformer (.create kind key)).setRevertor
    (.create kind key)).configure opts

@[simp] theorem sessionStart_hashMaker {h : HashKind} {kind : TransformerKind} {key : Key}
    {opts : SessionOptions} : (sessionStart h kind key opts).hashMaker = h := rfl
/-- **Session envelope round trip.**  Payloads that fit the receiver's limit, packed in order
and fed to a receiver with the same hash and key in arbitrary chunks, come out of its pops
unchanged and in order, at whatever moments it pops; nothing is raised, no byte is left over,
and once the queue is empty all payloads have been popped. -/
theorem envelope_roundtrip (sha256 : Bytes → Digest) (h : HashKind) (kind : TransformerKind)
    (key : Key) (sopts ropts : SessionOptions) (payloads : List Bytes)
    (hlen : ∀ d ∈ payloads, d.length + h.size ≤ ropts.maxMessageLength.toNat)
    (es : List ReceiverEvent) (r : Receiver)
    (hfed : fed es = (packAll sha256 (sessionStart h kind key sopts) payloads).2)
    (hrun : (receiver sha256 (sessionStart h kind key ropts)).run es = some r) :
    r.errors = [] ∧ r.protocol.queue.data = [] ∧
      r.results = (payloads.take r.results.length).map some ∧
      r.results.length + r.protocol.queue.messages.length = payloads.length ∧
      (r.protocol.queueSize = 0 → r.results = payloads.map some) := by
  have hmax := ropts.maxMessageLength.toNat_lt
  have hpack := packAll_eq sha256 payloads (sessionStart h kind key sopts)
    (fun d hd => by have := hlen d hd; rw [sessionStart_hashMaker]; omega)
  have hsync : Synced sha256 (sessionStart h kind key ropts) payloads (fed es ++ []) := by
    refine ⟨_, rfl, ?_, partial_nil ?_⟩
    · rw [List.append_nil, hfed, hpack]
      rfl
    · intro f hf
      obtain ⟨b, _, rfl⟩ := List.mem_map.mp hf
      exact frame_ne_nil b
  obtain ⟨done, todo, rfl, hres, herrs, hs⟩ :=
    synced_run es _ r payloads [] hsync hlen hmax.le hrun
  obtain ⟨hdata, hqueue⟩ := hs.finished
  have hres' : r.results = done.map some := by simpa [receiver] using hres
  refine ⟨by simpa [receiver] using herrs, hdata, ?_, ?_, ?_⟩
  · rw [hres']
    simp
  · rw [hres', hqueue]
    simp
  · intro h0
    have : todo = [] := List.length_eq_zero_iff.mp (hqueue.symm.trans h0)
    rw [hres', this, List.append_nil]

/-- Two payloads under CRC-32, the second one empty, cut inside both frames. -/
theorem envelope_roundtrip_two :
    let es := [.feed [0x05, 0xe8, 0xb7], .feed [0xbe, 0x43, 0x61, 0x04], .pop, .feed [0, 0],
      .feed [0, 0], .pop]
    let start := sessionStart .crc32 .none ⟨[0x6b], by decide⟩ .defaults
    fed es = (packAll (fun _ => ⟨List.replicate 32 0, rfl⟩) start [[0x61], []]).2 ∧
      ∃ r, (receiver (fun _ => ⟨List.replicate 32 0, rfl⟩) start).run es = some r ∧
        r.errors = [] ∧ r.protocol.queue.data = [] ∧ r.results = [some [0x61], some []] := by
  have hfed : fed [.feed [0x05, 0xe8, 0xb7], .feed [0xbe, 0x43, 0x61, 0x04], .pop, .feed [0, 0],
      .feed [0, 0], .pop] = (packAll (fun _ => ⟨List.replicate 32 0, rfl⟩)
        (sessionStart .crc32 .none ⟨[0x6b], by decide⟩ .defaults) [[0x61], []]).2 := by
    have h₅ : sizePolicy.pack 5 = [5] := Varint.pack_of_le (by decide)
    have h₄ : sizePolicy.pack 4 = [4] := Varint.pack_of_le (by decide)
    simp only [packAll, packMessage, sessionStart_hashMaker, HashKind.size, List.length_cons,
      List.length_nil, Nat.reduceAdd, Nat.reducePow, Nat.reduceMod, h₅, h₄]
    rfl
  refine ⟨hfed, _, rfl, ?_⟩
  obtain ⟨herr, hdata, _, _, hall⟩ := envelope_roundtrip _ _ _ _ _ .defaults _
    (by decide) _ _ hfed rfl
  exact ⟨herr, hdata, hall rfl⟩

end

end DefaultProtocol

end Vtrc
