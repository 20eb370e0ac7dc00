import Mathlib.Data.Prod.Lex
import Vtrc.WriteErrors
import Vtrc.Lowlevel

/-! # A running session from end to end

One direction of a session after the handshake: the write queue of one end
(`transport/stream-impl.h`) over its protocol (`pack_message`), the bytes on the way, and the
protocol of the other end, which parses what arrives in chunks of any size and whose messages are
popped at any moment.

The stream takes the bytes of a submission piece by piece, and they may arrive before the
completion handler runs; the handler reports what has been taken, or an error, after which some
bytes of the message have gone out.

`stack_safe` says that in every run, with errors and closing at any moment, the payloads popped
are the first ones posted, in order; `stack_delivers` says that a run without errors can always
be continued, with no further write, until all of them are. -/

namespace Vtrc

open WriteTrace Framing

/-- The two ends and what lies between them.  `taken` counts the bytes of the submission under
way that the stream has, `wire` is all that the stream has taken so far. -/
structure Stack (κ : Type) where
  sender : Transport DefaultProtocol κ
  taken : ℕ := 0
  wire : Bytes := []
  link : Bytes := []
  receiver : DefaultProtocol.Receiver

inductive StackEvent (κ : Type) where
  | write (r : WriteRequest κ)
  | writeImpl
  | take (n : ℕ)
  | written
  | writeError
  | close
  | deliver (n : ℕ)
  | pop

/-- What the two ends do by themselves: nothing is posted and nothing fails. -/
def StackEvent.Forward {κ : Type} : StackEvent κ → Prop
  | .write _ | .writeError | .close => False
  | _ => True

/-- What an event posts. -/
def StackEvent.posted {κ : Type} : StackEvent κ → List (WriteRequest κ)
  | .write r => [r]
  | _ => []

namespace Stack

open DefaultProtocol

variable {κ : Type}

section
variable (sha256 : Bytes → Digest) (act : κ → DefaultProtocol → DefaultProtocol)

/-- A step of the write queue; a completion leaves nothing taken. -/
def onSender (s : Stack κ) (e : TransportEvent κ) (taken : ℕ) : Option (Stack κ) :=
  (s.sender.step (packMessage sha256) act e).map (fun t => { s with sender := t, taken := taken })

def step (s : Stack κ) : StackEvent κ → Option (Stack κ)
  | .write r => s.onSender sha256 act (.write r) s.taken
  | .writeImpl => s.onSender sha256 act .writeImpl s.taken
  | .take n =>
      match s.sender.outstanding with
      | [] => none
      | p :: _ =>
          if s.taken + n ≤ p.data.length then
            let data := (p.data.drop s.taken).take n
            some { s with taken := s.taken + n, wire := s.wire ++ data, link := s.link ++ data }
          else none
  | .written => s.onSender sha256 act (.written 0 s.taken) 0
  | .writeError => s.onSender sha256 act (.writeError 0) 0
  | .close => s.onSender sha256 act .close s.taken
  | .deliver n =>
      if 0 < n ∧ n ≤ s.link.length then
        ((DefaultProtocol.receiver sha256 s.receiver.protocol).step s.receiver
          (.feed (s.link.take n))).map
          (fun r => { s with link := s.link.drop n, receiver := r })
      else none
  | .pop =>
      ((DefaultProtocol.receiver sha256 s.receiver.protocol).step s.receiver .pop).map
        (fun r => { s with receiver := r })

end

end Stack

/-- A session between two protocols that have just become ready. -/
def stack {κ : Type} (sha256 : Bytes → Digest) (act : κ → DefaultProtocol → DefaultProtocol)
    (p q : DefaultProtocol) : Machine (Stack κ) (StackEvent κ) where
  init := { sender := { protocol := p }, receiver := ⟨q, [], []⟩ }
  step := Stack.step sha256 act

namespace Stack

open DefaultProtocol Transport

variable {κ : Type}

/-- The payloads packed so far. -/
def payloads (s : Stack κ) : List Bytes := (packs s.sender.trace).map Prod.snd

/-- The packed bytes that the stream has not taken. -/
def unsent (s : Stack κ) : Bytes := (results s.sender.trace).flatten.drop s.wire.length

/-- What the stream has taken: the acknowledged bytes and those of the submission under way that
have not been reported. -/
def Wired (s : Stack κ) : Prop :=
  match s.sender.outstanding with
  | [] => s.taken = 0 ∧ s.wire <+: (results s.sender.trace).flatten ∧
      ((∀ i, .failed i ∉ s.sender.trace) → s.wire = ackedBytes s.sender.trace)
  | p :: _ => s.taken ≤ p.data.length ∧ s.wire = ackedBytes s.sender.trace ++ p.data.take s.taken

section
variable (sha256 : Bytes → Digest) (h : HashKind) (t : Transformer) (max : ℕ)

/-- The receiver has popped the first payloads and is in step with the others. -/
structure Following (s : Stack κ) (popped todo : List Bytes) : Prop where
  split : s.payloads = popped ++ todo
  results : s.receiver.results = popped.map some
  errors : s.receiver.errors = []
  hashChecker : s.receiver.protocol.hashChecker = h
  maxLength : s.receiver.protocol.queue.maxValidLength = max
  revertor : s.receiver.protocol.revertor = advance sha256 h t popped
  synced : Synced sha256 s.receiver.protocol todo (s.link ++ s.unsent)

/-- The invariant of a session under the hash `h`, started with the cipher `t`. -/
structure Holds (s : Stack κ) : Prop where
  safe : ∃ done, s.sender.Safe done
  wired : s.Wired
  hashMaker : s.sender.protocol.hashMaker = h
  transformer : s.sender.protocol.transformer = advance sha256 h t s.payloads
  packed : WriteTrace.results s.sender.trace = frames (envelope sha256 h t s.payloads)
  following : ∃ popped todo, Following sha256 h t max s popped todo

end

/-- Every posted payload fits the limit of the receiver. -/
def Fits (h : HashKind) (max : ℕ) (s : Stack κ) : Prop :=
  ∀ r ∈ s.sender.requests, r.data.length + h.size ≤ max

variable {sha256 : Bytes → Digest} {act : κ → DefaultProtocol → DefaultProtocol} {h : HashKind}
  {t : Transformer} {max : ℕ}

theorem Wired.isPrefix {s : Stack κ} {done : ℕ} (hw : s.Wired) (hsafe : s.sender.Safe done) :
    s.wire <+: (results s.sender.trace).flatten := by
  rw [Wired] at hw
  split at hw
  · exact hw.2.1
  · rename_i p ps hout
    obtain ⟨top, queue, total, hq, _, htotal, hof, hp, _⟩ :=
      hsafe.underWay (k := 0) (p := p) (by rw [hout]; rfl)
    have hget := (hsafe.queue 0 top (by rw [hq]; rfl)).2.1
    rw [hw.2, hsafe.acked, hof, flatten_of_getElem? hget, List.append_assoc, List.append_assoc,
      hp, ← List.take_add]
    exact (List.prefix_append_right_inj _).mpr
      ((List.take_prefix _ top.message).trans (List.prefix_append _ _))

theorem Wired.unsent_eq {s : Stack κ} {done : ℕ} (hw : s.Wired) (hsafe : s.sender.Safe done) :
    s.wire ++ s.unsent = (results s.sender.trace).flatten := by
  obtain ⟨rest, hrest⟩ := hw.isPrefix hsafe
  rw [unsent, ← hrest, List.drop_left]

theorem payloads_eq {s : Stack κ} {done : ℕ} (hsafe : s.sender.Safe done) :
    s.payloads ++ s.sender.strand.map MessageHolder.message =
      s.sender.requests.map WriteRequest.data := by
  have hpacks := congrArg (List.map Prod.snd) hsafe.packs
  simp only [List.map_append, List.map_map] at hpacks
  have hdata : (Prod.snd ∘ fun r : WriteRequest κ × ℕ => (r.2, r.1.data)) =
      WriteRequest.data ∘ Prod.fst := rfl
  rw [hdata, ← List.map_map (f := Prod.fst), List.zipIdx_map_fst] at hpacks
  exact hpacks

theorem Fits.payload {s : Stack κ} {done : ℕ} (hfit : s.Fits h max) (hsafe : s.sender.Safe done)
    {d : Bytes} (hd : d ∈ s.payloads ∨ d ∈ s.sender.strand.map MessageHolder.message) :
    d.length + h.size ≤ max := by
  have hmem : d ∈ s.sender.requests.map WriteRequest.data := by
    rw [← payloads_eq hsafe]
    exact List.mem_append.mpr hd
  obtain ⟨r, hr, rfl⟩ := List.mem_map.mp hmem
  exact hfit r hr

end Stack

namespace DefaultProtocol

variable {sha256 : Bytes → Digest}

theorem envelope_snoc (h : HashKind) (t : Transformer) (ds : List Bytes) (d : Bytes) :
    envelope sha256 h t (ds ++ [d]) =
      envelope sha256 h t ds ++ [((advance sha256 h t ds).transform (sealed sha256 h d)).2] := by
  rw [envelope, List.map_append, StreamCipher.encode_append]
  rfl

theorem advance_snoc (h : HashKind) (t : Transformer) (ds : List Bytes) (d : Bytes) :
    advance sha256 h t (ds ++ [d]) =
      ((advance sha256 h t ds).transform (sealed sha256 h d)).1 := by
  rw [advance_append]
  rfl

theorem Synced.extend {p : DefaultProtocol} {ds : List Bytes} {tail : Bytes}
    (h : Synced sha256 p ds tail) (d : Bytes) :
    Synced sha256 p (ds ++ [d]) (tail ++ DataQueue.frame sizePolicy
      ((advance sha256 p.hashChecker p.revertor ds).transform
        (sealed sha256 p.hashChecker d)).2) := by
  obtain ⟨bs, hmess, hdata, hpart⟩ := h
  refine ⟨bs ++ [((advance sha256 p.hashChecker p.revertor ds).transform
    (sealed sha256 p.hashChecker d)).2], ?_, ?_, ?_⟩
  · rw [envelope_snoc, hmess, List.append_assoc]
  · rw [← List.append_assoc, hdata]
    simp
  · cases bs with
    | nil =>
        -- the buffer is empty and the new frame is not
        simp only [frames_nil, Partial] at hpart
        rw [hpart]
        exact List.length_pos_iff.mpr (frame_ne_nil _)
    | cons b bs => exact hpart

end DefaultProtocol

namespace Stack

open DefaultProtocol Transport

variable {κ : Type} {sha256 : Bytes → Digest} {act : κ → DefaultProtocol → DefaultProtocol}
  {h : HashKind} {t : Transformer} {max : ℕ}

/-- The closures of a running session leave the sending side of the protocol alone. -/
def Keeps (act : κ → DefaultProtocol → DefaultProtocol) : Prop :=
  ∀ k p, (act k p).hashMaker = p.hashMaker ∧ (act k p).transformer = p.transformer

theorem Keeps.after (hact : Keeps act) {q p : DefaultProtocol} (hp : AfterClosure act q p) :
    p.hashMaker = q.hashMaker ∧ p.transformer = q.transformer := by
  obtain ⟨c, rfl⟩ := hp
  cases c with
  | none => exact ⟨rfl, rfl⟩
  | some k => exact hact k q

theorem Holds.quiet {s s' : Stack κ} (hs : Holds sha256 h t max s)
    (hsafe : ∃ done, s'.sender.Safe done) (hwired : s'.Wired)
    (hpacks : packs s'.sender.trace = packs s.sender.trace)
    (hres : results s'.sender.trace = results s.sender.trace) (hwire : s'.wire = s.wire)
    (hlink : s'.link = s.link) (hrec : s'.receiver = s.receiver)
    (hproto : s'.sender.protocol.hashMaker = s.sender.protocol.hashMaker ∧
      s'.sender.protocol.transformer = s.sender.protocol.transformer) :
    Holds sha256 h t max s' := by
  have hpay : s'.payloads = s.payloads := by rw [payloads, hpacks, payloads]
  have hunsent : s'.unsent = s.unsent := by rw [unsent, hres, hwire, unsent]
  obtain ⟨popped, todo, hf⟩ := hs.following
  refine ⟨hsafe, hwired, hproto.1.trans hs.hashMaker, ?_, ?_, popped, todo, ?_⟩
  · rw [hproto.2, hs.transformer, hpay]
  · rw [hres, hs.packed, hpay]
  · exact ⟨hpay.trans hf.split, by rw [hrec, hf.results], by rw [hrec, hf.errors],
      by rw [hrec, hf.hashChecker], by rw [hrec, hf.maxLength], by rw [hrec, hf.revertor],
      by rw [hrec, hlink, hunsent]; exact hf.synced⟩

theorem Holds.write {s : Stack κ} (hs : Holds sha256 h t max s) (r : WriteRequest κ) :
    Holds sha256 h t max { s with sender := s.sender.write r } := by
  obtain ⟨done, hsafe⟩ := hs.safe
  exact hs.quiet ⟨done, hsafe.write r⟩ hs.wired rfl rfl rfl rfl rfl ⟨rfl, rfl⟩

theorem Holds.close {s : Stack κ} (hs : Holds sha256 h t max s) :
    Holds sha256 h t max { s with sender := { s.sender with closed := true } } := by
  obtain ⟨done, hsafe⟩ := hs.safe
  exact hs.quiet ⟨done, hsafe.close⟩ hs.wired rfl rfl rfl rfl rfl ⟨rfl, rfl⟩

/-- **A payload is packed.** -/
theorem Holds.writeImpl {s : Stack κ} {x : Transport DefaultProtocol κ}
    (hs : Holds sha256 h t max s) (hact : Keeps act) (hmax : max < 2 ^ 32) (hfit : s.Fits h max)
    (hx : s.sender.writeImpl (packMessage sha256) act = some x) :
    Holds sha256 h t max { s with sender := x } := by
  obtain ⟨done, hsafe⟩ := hs.safe
  have hwired := hs.wired
  have hall := hwired.unsent_eq hsafe
  obtain ⟨m, strand, p, b, hstrand, hb, hp, rfl⟩ := writeImpl_cases hx
  have hlen : m.message.length + h.size ≤ max := by
    refine hfit.payload hsafe (Or.inr ?_)
    rw [hstrand]
    exact List.mem_cons_self
  have hpack := packMessage_eq sha256 s.sender.protocol m.message
    (by rw [hs.hashMaker]; omega)
  rw [hs.hashMaker, hs.transformer] at hpack
  have hproto := hact.after hp
  rw [hpack] at hb hproto
  change b = DataQueue.frame sizePolicy ((advance sha256 h t s.payloads).transform
    (sealed sha256 h m.message)).2 at hb
  set alone := s.sender.writeQueue.isEmpty && !s.sender.closed with halone
  obtain ⟨hpacks, hresults, _, _, hacked, _⟩ := packing_spec m b alone
  have hpay : (packs (s.sender.trace ++ packing m b alone)).map Prod.snd =
      s.payloads ++ [m.message] := by
    rw [packs_append, hpacks, List.map_append]
    rfl
  have hres : results (s.sender.trace ++ packing m b alone) = results s.sender.trace ++ [b] := by
    rw [results_append, hresults]
  obtain ⟨popped, todo, hf⟩ := hs.following
  refine ⟨⟨done, hsafe.writeImpl hx⟩, ?_, hproto.1, ?_, ?_,
    popped, todo ++ [m.message], ?_⟩
  · rw [Wired] at hwired ⊢
    simp only
    have hfailed (i : ℕ) :
        .failed i ∈ s.sender.trace ++ packing m b alone ↔ .failed i ∈ s.sender.trace := by
      rw [List.mem_append, or_iff_left (failed_packing m b alone i)]
    cases hout : s.sender.outstanding with
    | nil =>
        rw [hout] at hwired
        obtain ⟨htaken, hprefix, hsame⟩ := hwired
        rw [ackedBytes_append, hacked, List.append_nil]
        by_cases hone : alone = true
        · -- the queue was empty, so nothing has failed
          have hnone (i : ℕ) : .failed i ∉ s.sender.trace := by
            intro hmem
            have hq := (hsafe.failed i hmem).2.2
            rw [halone, Bool.and_eq_true, List.isEmpty_iff] at hone
            exact hq hone.1
          simp only [List.nil_append, hone, if_true, htaken, List.take_zero, List.append_nil]
          exact ⟨Nat.zero_le _, hsame hnone⟩
        · simp only [if_neg hone, List.append_nil]
          refine ⟨htaken, ?_, fun hnone => hsame (fun i hi => hnone i ((hfailed i).mpr hi))⟩
          rw [hres, List.flatten_append]
          exact hprefix.trans (List.prefix_append _ _)
    | cons q qs =>
        rw [hout] at hwired
        simp only [List.cons_append]
        rw [ackedBytes_append, hacked, List.append_nil]
        exact hwired
  · change p.transformer = advance sha256 h t
      ((packs (s.sender.trace ++ packing m b alone)).map Prod.snd)
    rw [hproto.2, hpay, advance_snoc]
  · change results (s.sender.trace ++ packing m b alone) = frames (envelope sha256 h t
      ((packs (s.sender.trace ++ packing m b alone)).map Prod.snd))
    rw [hres, hpay, hs.packed, envelope_snoc, frames_append, hb]
    rfl
  · have hunsent : unsent { s with sender := { s.sender with
        strand := strand
        protocol := p
        writeQueue := s.sender.writeQueue ++ [{ m with message := b }]
        outstanding := s.sender.outstanding ++ if alone then [⟨m.index, b, b.length, 0⟩] else []
        trace := s.sender.trace ++ packing m b alone } } = s.unsent ++ b := by
      change (results (s.sender.trace ++ packing m b alone)).flatten.drop s.wire.length = _
      rw [hres, List.flatten_append, List.flatten_singleton, unsent,
        List.drop_append_of_le_length (hwired.isPrefix hsafe).length_le]
    refine ⟨?_, hf.results, hf.errors, hf.hashChecker, hf.maxLength, hf.revertor, ?_⟩
    · change (packs (s.sender.trace ++ packing m b alone)).map Prod.snd = _
      rw [hpay, hf.split, List.append_assoc]
    · have hnext := hf.synced.extend m.message
      rw [hf.hashChecker, hf.revertor, ← advance_append, ← hf.split, ← hb, List.append_assoc,
        ← hunsent] at hnext
      exact hnext

/-- **The stream takes bytes** of the submission under way. -/
theorem Holds.take {s : Stack κ} {p : HandlerParams} {ps : List HandlerParams} {n : ℕ}
    (hs : Holds sha256 h t max s) (hout : s.sender.outstanding = p :: ps)
    (hn : s.taken + n ≤ p.data.length) :
    Holds sha256 h t max { s with
      taken := s.taken + n
      wire := s.wire ++ (p.data.drop s.taken).take n
      link := s.link ++ (p.data.drop s.taken).take n } := by
  obtain ⟨done, hsafe⟩ := hs.safe
  have hall := hs.wired.unsent_eq hsafe
  have hold := hs.wired
  rw [Wired, hout] at hold
  have hwired : Wired { s with
      taken := s.taken + n
      wire := s.wire ++ (p.data.drop s.taken).take n
      link := s.link ++ (p.data.drop s.taken).take n } := by
    rw [Wired]
    simp only [hout]
    exact ⟨hn, by rw [hold.2, List.append_assoc, ← List.take_add]⟩
  have hall' := hwired.unsent_eq hsafe
  simp only at hall'
  rw [← hall, List.append_assoc, List.append_cancel_left_eq] at hall'
  obtain ⟨popped, todo, hf⟩ := hs.following
  refine ⟨hs.safe, hwired, hs.hashMaker, hs.transformer, hs.packed, popped, todo, hf.split,
    hf.results, hf.errors, hf.hashChecker, hf.maxLength, hf.revertor, ?_⟩
  rw [List.append_assoc, hall']
  exact hf.synced

theorem wired_of_acked {s : Stack κ} {done : ℕ} (hsafe : s.sender.Safe done) (htaken : s.taken = 0)
    (hwire : s.wire = ackedBytes s.sender.trace) : s.Wired := by
  rw [Wired]
  split
  · refine ⟨htaken, ?_, fun _ => hwire⟩
    rw [hwire]
    exact hsafe.acked_prefix
  · rw [htaken, hwire, List.take_zero, List.append_nil]
    exact ⟨Nat.zero_le _, rfl⟩

/-- **A completion** reports what has been taken. -/
theorem Holds.written {s : Stack κ} {x : Transport DefaultProtocol κ}
    (hs : Holds sha256 h t max s) (hact : Keeps act)
    (hx : s.sender.step (packMessage sha256) act (.written 0 s.taken) = some x) :
    Holds sha256 h t max { s with sender := x, taken := 0 } := by
  obtain ⟨done, hsafe⟩ := hs.safe
  have hwired := hs.wired
  rw [Wired] at hwired
  obtain ⟨top, queue, total, hq, _, hof, hfailed, hone, hcases⟩ := written_cases hsafe hx
  obtain ⟨done', hsafe'⟩ := hsafe.step hx
  rw [hone] at hwired
  have hwire : s.wire = ackedBytes s.sender.trace ++ (top.message.drop total).take s.taken :=
    hwired.2
  rcases hcases with ⟨_, rfl⟩ | ⟨p, hle, hp, rfl⟩
  · refine hs.quiet ⟨done', hsafe'⟩ (wired_of_acked hsafe' rfl ?_) ?_ ?_ rfl rfl rfl ⟨rfl, rfl⟩
    · rw [hwire]
      cases s.sender.closed <;> simp [ackedBytes]
    · cases s.sender.closed <;> simp [packs]
    · cases s.sender.closed <;> simp [WriteTrace.results]
  · have hrest : (top.message.drop total).take s.taken = top.message.drop total :=
      List.take_of_length_le (by rw [List.length_drop]; omega)
    refine hs.quiet ⟨done', hsafe'⟩ (wired_of_acked hsafe' rfl ?_) ?_ ?_ rfl rfl rfl
      (hact.after hp)
    · rw [hwire, hrest]
      cases s.sender.closed <;> cases queue <;> simp only <;> split_ifs <;>
        simp [submission, ackedBytes]
    · cases s.sender.closed <;> cases queue <;> simp only <;> split_ifs <;>
        simp [submission, packs]
    · cases s.sender.closed <;> cases queue <;> simp only <;> split_ifs <;>
        simp [submission, WriteTrace.results]

/-- **An error**: what has been taken of the message stays on the way. -/
theorem Holds.writeError {s : Stack κ} {x : Transport DefaultProtocol κ}
    (hs : Holds sha256 h t max s) (hact : Keeps act)
    (hx : s.sender.step (packMessage sha256) act (.writeError 0) = some x) :
    Holds sha256 h t max { s with sender := x, taken := 0 } := by
  obtain ⟨done, hsafe⟩ := hs.safe
  have hprefix := hs.wired.isPrefix hsafe
  obtain ⟨done', hsafe'⟩ := hsafe.step hx
  obtain ⟨top, queue, p, hq, hfailed, hp, rfl⟩ := writeError_cases hsafe hx
  have hres : results (s.sender.trace ++
      (if top.onSend && top.closure.isSome then [ran done] else []) ++ [WriteTrace.failed done]) =
        results s.sender.trace := by
    split_ifs <;> simp [WriteTrace.results]
  refine hs.quiet ⟨done', hsafe'⟩ ?_ ?_ hres rfl rfl rfl (hact.after hp)
  · refine ⟨rfl, ?_, fun hnone => absurd ?_ (hnone done)⟩
    · rw [hres]
      exact hprefix
    · exact List.mem_append_right _ (List.mem_singleton_self _)
  · simp only
    split_ifs <;> simp [packs]

/-- **Bytes arrive.** -/
theorem Holds.deliver {s : Stack κ} {r : Receiver} {n : ℕ} (hs : Holds sha256 h t max s)
    (hmax : max < 2 ^ 32) (hfit : s.Fits h max)
    (hr : (DefaultProtocol.receiver sha256 s.receiver.protocol).step s.receiver
      (.feed (s.link.take n)) = some r) :
    Holds sha256 h t max { s with link := s.link.drop n, receiver := r } := by
  obtain ⟨done, hsafe⟩ := hs.safe
  obtain ⟨popped, todo, hf⟩ := hs.following
  obtain rfl := Option.some.inj hr
  have hlen : ∀ d ∈ todo, d.length + s.receiver.protocol.hashChecker.size ≤
      s.receiver.protocol.queue.maxValidLength := by
    intro d hd
    rw [hf.hashChecker, hf.maxLength]
    exact hfit.payload hsafe (Or.inl (by rw [hf.split]; exact List.mem_append_right _ hd))
  have hsync := hf.synced
  rw [← List.take_append_drop n s.link, List.append_assoc] at hsync
  obtain ⟨herr, hsync', hmax'⟩ := hsync.feed hlen (by rw [hf.maxLength]; omega)
  refine ⟨hs.safe, hs.wired, hs.hashMaker, hs.transformer, hs.packed, popped, todo, hf.split,
    hf.results, ?_, hf.hashChecker, hmax'.trans hf.maxLength, hf.revertor, hsync'⟩
  simp [herr, hf.errors]

/-- **A message is popped.** -/
theorem Holds.pop {s : Stack κ} {r : Receiver} (hs : Holds sha256 h t max s)
    (hr : (DefaultProtocol.receiver sha256 s.receiver.protocol).step s.receiver .pop = some r) :
    Holds sha256 h t max { s with receiver := r } := by
  obtain ⟨popped, todo, hf⟩ := hs.following
  obtain ⟨⟨q, res⟩, hq, rfl⟩ := Option.map_eq_some_iff.mp hr
  obtain ⟨d, todo', rfl, rfl, hsync, rfl⟩ := hf.synced.pop hq
  refine ⟨hs.safe, hs.wired, hs.hashMaker, hs.transformer, hs.packed, popped ++ [d], todo', ?_, ?_,
    hf.errors, hf.hashChecker, hf.maxLength, ?_, hsync⟩
  · change s.payloads = _
    rw [hf.split, List.append_assoc]
    rfl
  · simp [hf.results]
  · rw [advance_snoc, ← hf.revertor, ← hf.hashChecker]
    rfl

theorem onSender_eq_some {s s' : Stack κ} {e : TransportEvent κ} {n : ℕ}
    (hs : s.onSender sha256 act e n = some s') :
    ∃ x, s.sender.step (packMessage sha256) act e = some x ∧
      s' = { s with sender := x, taken := n } := by
  obtain ⟨x, hx, rfl⟩ := Option.map_eq_some_iff.mp hs
  exact ⟨x, hx, rfl⟩

theorem Holds.step {s s' : Stack κ} {e : StackEvent κ} (hs : Holds sha256 h t max s)
    (hact : Keeps act) (hmax : max < 2 ^ 32) (hfit : s.Fits h max)
    (hstep : s.step sha256 act e = some s') : Holds sha256 h t max s' := by
  cases e with
  | write r =>
      obtain ⟨x, hx, rfl⟩ := onSender_eq_some hstep
      obtain rfl := Option.some.inj hx
      exact hs.write r
  | writeImpl =>
      obtain ⟨x, hx, rfl⟩ := onSender_eq_some hstep
      exact hs.writeImpl hact hmax hfit hx
  | take n =>
      simp only [Stack.step] at hstep
      split at hstep
      · cases hstep
      · rename_i p ps hout
        split_ifs at hstep with hn
        obtain rfl := Option.some.inj hstep
        exact hs.take hout hn
  | written =>
      obtain ⟨x, hx, rfl⟩ := onSender_eq_some hstep
      exact hs.written hact hx
  | writeError =>
      obtain ⟨x, hx, rfl⟩ := onSender_eq_some hstep
      exact hs.writeError hact hx
  | close =>
      obtain ⟨x, hx, rfl⟩ := onSender_eq_some hstep
      obtain rfl := Option.some.inj hx
      exact hs.close
  | deliver n =>
      simp only [Stack.step] at hstep
      split_ifs at hstep
      obtain ⟨r, hr, rfl⟩ := Option.map_eq_some_iff.mp hstep
      exact hs.deliver hmax hfit hr
  | pop =>
      obtain ⟨r, hr, rfl⟩ := Option.map_eq_some_iff.mp hstep
      exact hs.pop hr

/-! ### Whole runs -/

theorem sender_of_step {s s' : Stack κ} {e : StackEvent κ} (hstep : s.step sha256 act e = some s') :
    s'.sender = s.sender ∨ ∃ te, (e.Forward → te.Plain) ∧
      s.sender.step (packMessage sha256) act te = some s'.sender := by
  cases e with
  | take n =>
      simp only [Stack.step] at hstep
      split at hstep
      · cases hstep
      · split_ifs at hstep
        obtain rfl := Option.some.inj hstep
        exact Or.inl rfl
  | deliver n =>
      simp only [Stack.step] at hstep
      split_ifs at hstep
      obtain ⟨r, _, rfl⟩ := Option.map_eq_some_iff.mp hstep
      exact Or.inl rfl
  | pop =>
      obtain ⟨r, _, rfl⟩ := Option.map_eq_some_iff.mp hstep
      exact Or.inl rfl
  | write r =>
      obtain ⟨x, hx, rfl⟩ := onSender_eq_some hstep
      exact Or.inr ⟨.write r, False.elim, hx⟩
  | writeImpl =>
      obtain ⟨x, hx, rfl⟩ := onSender_eq_some hstep
      exact Or.inr ⟨.writeImpl, fun _ => trivial, hx⟩
  | written =>
      obtain ⟨x, hx, rfl⟩ := onSender_eq_some hstep
      exact Or.inr ⟨.written 0 s.taken, fun _ => trivial, hx⟩
  | writeError =>
      obtain ⟨x, hx, rfl⟩ := onSender_eq_some hstep
      exact Or.inr ⟨.writeError 0, False.elim, hx⟩
  | close =>
      obtain ⟨x, hx, rfl⟩ := onSender_eq_some hstep
      exact Or.inr ⟨.close, False.elim, hx⟩

theorem safe_step {s s' : Stack κ} {e : StackEvent κ} (hsafe : ∃ done, s.sender.Safe done)
    (hstep : s.step sha256 act e = some s') : ∃ done, s'.sender.Safe done := by
  obtain ⟨done, hsafe⟩ := hsafe
  rcases sender_of_step hstep with heq | ⟨te, _, hx⟩
  · rw [heq]
    exact ⟨done, hsafe⟩
  · exact hsafe.step hx

theorem requests_of_step {s s' : Stack κ} {e : StackEvent κ} (hsafe : ∃ done, s.sender.Safe done)
    (hstep : s.step sha256 act e = some s') :
    s'.sender.requests = s.sender.requests ++ e.posted := by
  obtain ⟨done, hsafe⟩ := hsafe
  cases e with
  | write r =>
      obtain ⟨x, hx, rfl⟩ := onSender_eq_some hstep
      obtain rfl := Option.some.inj hx
      rfl
  | writeImpl =>
      obtain ⟨x, hx, rfl⟩ := onSender_eq_some hstep
      obtain ⟨m, strand, p, b, _, _, _, rfl⟩ := writeImpl_cases hx
      exact (List.append_nil _).symm
  | written =>
      obtain ⟨x, hx, rfl⟩ := onSender_eq_some hstep
      obtain ⟨top, queue, total, _, _, _, _, _, ⟨_, rfl⟩ | ⟨p, _, _, rfl⟩⟩ := written_cases hsafe hx
      · exact (List.append_nil _).symm
      · exact (List.append_nil _).symm
  | writeError =>
      obtain ⟨x, hx, rfl⟩ := onSender_eq_some hstep
      obtain ⟨top, queue, p, _, _, _, rfl⟩ := writeError_cases hsafe hx
      exact (List.append_nil _).symm
  | close =>
      obtain ⟨x, hx, rfl⟩ := onSender_eq_some hstep
      obtain rfl := Option.some.inj hx
      exact (List.append_nil _).symm
  | take n =>
      simp only [Stack.step] at hstep
      split at hstep
      · cases hstep
      · split_ifs at hstep
        obtain rfl := Option.some.inj hstep
        exact (List.append_nil _).symm
  | deliver n =>
      simp only [Stack.step] at hstep
      split_ifs at hstep
      obtain ⟨r, _, rfl⟩ := Option.map_eq_some_iff.mp hstep
      exact (List.append_nil _).symm
  | pop =>
      obtain ⟨r, _, rfl⟩ := Option.map_eq_some_iff.mp hstep
      exact (List.append_nil _).symm

theorem results_of_step {s s' : Stack κ} {e : StackEvent κ} (he : e ≠ .pop)
    (hstep : s.step sha256 act e = some s') : s'.receiver.results = s.receiver.results := by
  cases e with
  | pop => exact absurd rfl he
  | deliver n =>
      simp only [Stack.step] at hstep
      split_ifs at hstep
      obtain ⟨r, hr, rfl⟩ := Option.map_eq_some_iff.mp hstep
      obtain rfl := Option.some.inj hr
      rfl
  | take n =>
      simp only [Stack.step] at hstep
      split at hstep
      · cases hstep
      · split_ifs at hstep
        obtain rfl := Option.some.inj hstep
        rfl
  | _ =>
      obtain ⟨x, _, rfl⟩ := onSender_eq_some hstep
      rfl

theorem Fits.of_step {s s' : Stack κ} {e : StackEvent κ} (hsafe : ∃ done, s.sender.Safe done)
    (hstep : s.step sha256 act e = some s') (hfit : s'.Fits h max) : s.Fits h max := by
  obtain ⟨done, hsafe⟩ := hsafe
  rcases sender_of_step hstep with heq | ⟨te, _, hx⟩
  · rwa [Fits, heq] at hfit
  · obtain ⟨rs, hrs⟩ := hsafe.requests_step hx
    intro r hr
    refine hfit r ?_
    rw [hrs]
    exact List.mem_append_left _ hr

theorem holds_of_run {p q : DefaultProtocol} {es : List (StackEvent κ)} {s : Stack κ}
    (hact : Keeps act) (hmax : max < 2 ^ 32)
    (hinit : Holds sha256 h t max (stack sha256 act p q).init)
    (hrun : (stack sha256 act p q).run es = some s) (hfit : s.Fits h max) :
    Holds sha256 h t max s := by
  have hrule := (stack sha256 act p q).run_induction
    (P := fun _ s => (∃ done, s.sender.Safe done) ∧ (s.Fits h max → Holds sha256 h t max s))
    ⟨hinit.safe, fun _ => hinit⟩
    (fun _ s e s' ⟨hsafe, hih⟩ hstep => ⟨safe_step hsafe hstep, fun hfit' =>
      have hfit := hfit'.of_step hsafe hstep
      (hih hfit).step hact hmax hfit hstep⟩) hrun
  exact hrule.2 hfit

theorem holds_start (sha256 : Bytes → Digest) (act : κ → DefaultProtocol → DefaultProtocol)
    (h : HashKind) (kind : TransformerKind) (key : Key) (sopts ropts : SessionOptions) :
    Holds sha256 h (.create kind key) ropts.maxMessageLength.toNat
      (stack sha256 act (sessionStart h kind key sopts) (sessionStart h kind key ropts)).init := by
  refine ⟨⟨0, ?_⟩, ⟨rfl, List.nil_prefix, fun _ => rfl⟩, rfl, rfl, rfl, [], [], ?_⟩
  · exact @safe_init _ _ (packMessage sha256) act _
  · exact ⟨rfl, rfl, rfl, rfl, rfl, rfl, [], rfl, rfl, rfl⟩

end Stack

/-- **The stream is safe.**  In every run of a session, with errors and closing at any moment and
the bytes cut anywhere, the receiver raises no error and the payloads it has popped are the first
ones posted, in order. -/
theorem stack_safe {κ : Type} (sha256 : Bytes → Digest)
    (act : κ → DefaultProtocol → DefaultProtocol) (hact : Stack.Keeps act) (h : HashKind)
    (kind : TransformerKind) (key : Key) (sopts ropts : SessionOptions)
    (es : List (StackEvent κ)) (s : Stack κ)
    (hrun : (stack sha256 act (DefaultProtocol.sessionStart h kind key sopts)
      (DefaultProtocol.sessionStart h kind key ropts)).run es = some s)
    (hfit : s.Fits h ropts.maxMessageLength.toNat) :
    s.receiver.errors = [] ∧ s.receiver.results <+: s.sender.requests.map (fun r => some r.data) := by
  have hmax := ropts.maxMessageLength.toNat_lt
  have hs := Stack.holds_of_run hact hmax
    (Stack.holds_start sha256 act h kind key sopts ropts) hrun hfit
  obtain ⟨done, hsafe⟩ := hs.safe
  obtain ⟨popped, todo, hf⟩ := hs.following
  refine ⟨hf.errors, ?_⟩
  have hposted : s.sender.requests.map (fun r => some r.data) =
      ((popped ++ todo) ++ s.sender.strand.map MessageHolder.message).map some := by
    rw [← hf.split, Stack.payloads_eq hsafe, List.map_map]
    rfl
  rw [hposted, hf.results, List.append_assoc, List.map_append]
  exact List.prefix_append _ _

/-- The first of two payloads arrives in pieces, and the completion of its last bytes is an
error. -/
theorem stack_safe_failing :
    let hash : Bytes → Digest := fun _ => ⟨List.replicate 32 0, rfl⟩
    let act : Unit → DefaultProtocol → DefaultProtocol := fun _ p => p
    let start := DefaultProtocol.sessionStart .crc32 .none ⟨[0x6b], by decide⟩ .defaults
    let es : List (StackEvent Unit) := [.write ⟨[0x61], none, false⟩, .write ⟨[], none, false⟩,
      .writeImpl, .take 3, .deliver 2, .written, .take 3, .deliver 4, .pop, .writeError]
    ∃ s, (stack hash act start start).run es = some s ∧ s.sender.Stopped ∧
      s.receiver.results = [some [0x61]] ∧ s.receiver.errors = [] ∧
      s.receiver.results <+: s.sender.requests.map (fun r => some r.data) := by
  intro hash act start es
  have hpack : start.packMessage hash [0x61] = (start, [5, 0xe8, 0xb7, 0xbe, 0x43, 0x61]) := by
    have h₅ : sizePolicy.pack 5 = [5] := Varint.pack_of_le (by decide)
    simp only [DefaultProtocol.packMessage, start, DefaultProtocol.sessionStart_hashMaker,
      HashKind.size, List.length_cons, List.length_nil, Nat.reduceAdd, Nat.reducePow,
      Nat.reduceMod, h₅]
    rfl
  obtain ⟨s, hrun, hfailed, hres, hfit⟩ : ∃ s, (stack hash act start start).run es = some s ∧
      .failed 0 ∈ s.sender.trace ∧ s.receiver.results = [some [0x61]] ∧
      s.Fits .crc32 SessionOptions.defaults.maxMessageLength.toNat := by
    let ws : List (WriteRequest Unit) := [⟨[0x61], none, false⟩, ⟨[], none, false⟩]
    let b : Bytes := [5, 0xe8, 0xb7, 0xbe, 0x43, 0x61]
    let x : Transport DefaultProtocol Unit := { protocol := start, requests := ws }
    let x₁ := { x with strand := [⟨0, [0x61], none, false⟩, ⟨1, [], none, false⟩] }
    let x₂ := { x with
      strand := [⟨1, [], none, false⟩]
      writeQueue := [⟨0, b, none, false⟩]
      outstanding := [⟨0, b, 6, 0⟩]
      trace := [.packed 0 [0x61] b, .submitted 0 b] }
    let s₁ : Stack Unit := { sender := x₁, receiver := ⟨start, [], []⟩ }
    let s₂ : Stack Unit := { s₁ with sender := x₂ }
    have h₁ : (stack hash act start start).runFrom (stack hash act start start).init
        [.write ⟨[0x61], none, false⟩, .write ⟨[], none, false⟩] = some s₁ := rfl
    have h₂ : (stack hash act start start).step s₁ .writeImpl = some s₂ := by
      simp only [stack, Stack.step, Stack.onSender, Transport.step, Transport.writeImpl, s₁, x₁, x, hpack]
      rfl
    have hrun : (stack hash act start start).run es =
        (stack hash act start start).runFrom s₂ (es.drop 3) := by
      change (stack hash act start start).runFrom _ ([_, _] ++ (.writeImpl :: es.drop 3)) = _
      rw [Machine.runFrom_append, h₁, Option.bind_some, Machine.runFrom_cons, h₂, Option.bind_some]
    obtain ⟨s, hs, hfailed, hres, hreq⟩ := (stack hash act start start).exists_runFrom s₂ (es.drop 3)
      (fun s => .failed 0 ∈ s.sender.trace ∧ s.receiver.results = [some [0x61]] ∧
        ∀ r ∈ s.sender.requests, r.data.length + HashKind.crc32.size ≤
          SessionOptions.defaults.maxMessageLength.toNat) (by decide)
    exact ⟨s, hrun.trans hs, hfailed, hres, hreq⟩
  have hsafe := stack_safe hash act (fun _ _ => ⟨rfl, rfl⟩) .crc32 .none ⟨[0x6b], by decide⟩ .defaults
    .defaults es s hrun hfit
  exact ⟨s, hrun, Or.inr ⟨0, hfailed⟩, hres, hsafe.1, hsafe.2⟩

/-! ### Every payload arrives -/

namespace Stack

open DefaultProtocol Transport

variable {κ : Type} {sha256 : Bytes → Digest} {act : κ → DefaultProtocol → DefaultProtocol}
  {h : HashKind} {t : Transformer} {max : ℕ}

/-- A session in which the requests `rs` have been posted and nothing has failed. -/
structure Live (sha256 : Bytes → Digest) (h : HashKind) (t : Transformer) (max : ℕ)
    (rs : List (WriteRequest κ)) (s : Stack κ) : Prop where
  holds : Holds sha256 h t max s
  fits : s.Fits h max
  inv : ∃ done, s.sender.Inv done
  requests : s.sender.requests = rs

/-- The queue of a sender that has not stopped has its submission under way. -/
theorem inv_of_step {s s' : Stack κ} {e : StackEvent κ} (hsafe : ∃ done, s.sender.Safe done)
    (hinv : ¬ s.sender.Stopped → ∃ done, s.sender.Inv done)
    (hstep : s.step sha256 act e = some s') (hopen : ¬ s'.sender.Stopped) :
    ∃ done, s'.sender.Inv done := by
  obtain ⟨done, hsafe⟩ := hsafe
  rcases sender_of_step hstep with heq | ⟨te, _, hx⟩
  · rw [heq] at hopen ⊢
    exact hinv hopen
  · obtain ⟨hplain, hopen'⟩ := hsafe.plain_of_not_stopped hx hopen
    obtain ⟨done', hinv'⟩ := hinv hopen'
    exact hinv'.step hplain hx

theorem inv_of_run {p q : DefaultProtocol} {es : List (StackEvent κ)} {s : Stack κ}
    (hrun : (stack sha256 act p q).run es = some s) (hopen : ¬ s.sender.Stopped) :
    ∃ done, s.sender.Inv done := by
  have hrule := (stack sha256 act p q).run_induction
    (P := fun _ s => (∃ done, s.sender.Safe done) ∧
      (¬ s.sender.Stopped → ∃ done, s.sender.Inv done))
    ⟨⟨0, @safe_init _ _ (packMessage sha256) act p⟩,
      fun _ => ⟨0, @inv_init _ _ (packMessage sha256) act p⟩⟩
    (fun _ _ _ _ ⟨hsafe, hinv⟩ hstep => ⟨safe_step hsafe hstep, inv_of_step hsafe hinv hstep⟩) hrun
  exact hrule.2 hopen

theorem Live.step {rs : List (WriteRequest κ)} {s s' : Stack κ} {e : StackEvent κ}
    (hs : Live sha256 h t max rs s) (hact : Keeps act) (hmax : max < 2 ^ 32) (he : e.Forward)
    (hstep : s.step sha256 act e = some s') : Live sha256 h t max rs s' := by
  have hholds := hs.holds.step hact hmax hs.fits hstep
  have hinv : ∃ done, s'.sender.Inv done := by
    obtain ⟨done, hinv⟩ := hs.inv
    rcases sender_of_step hstep with heq | ⟨te, hplain, hx⟩
    · rw [heq]
      exact ⟨done, hinv⟩
    · exact hinv.step (hplain he) hx
  have hreq : s'.sender.requests = s.sender.requests := by
    rw [requests_of_step hs.holds.safe hstep]
    cases e with
    | write | writeError | close => exact he.elim
    | _ => exact List.append_nil _
  refine ⟨hholds, ?_, hinv, hreq.trans hs.requests⟩
  rw [Fits, hreq]
  exact hs.fits

theorem Live.run {rs : List (WriteRequest κ)} {p q : DefaultProtocol} {es : List (StackEvent κ)}
    {s s' : Stack κ} (hs : Live sha256 h t max rs s) (hact : Keeps act) (hmax : max < 2 ^ 32)
    (hes : ∀ e ∈ es, e.Forward) (hrun : (stack sha256 act p q).runFrom s es = some s') :
    Live sha256 h t max rs s' :=
  (stack sha256 act p q).inv_of_meets (C := fun _ e => e.Forward)
    (fun _ _ _ hs he hstep => hs.step hact hmax he hstep) hs
    ((stack sha256 act p q).meets_of_forall_mem hes) hrun

variable (sha256 act) in
theorem exists_writeImpl {s : Stack κ} {m : MessageHolder κ} {ms : List (MessageHolder κ)}
    (hstrand : s.sender.strand = m :: ms) :
    ∃ s', s.step sha256 act .writeImpl = some s' ∧ s'.sender.strand = ms := by
  obtain ⟨x, hx⟩ : ∃ x, s.sender.step (packMessage sha256) act .writeImpl = some x := by
    simp only [Transport.step, Transport.writeImpl, hstrand]
    exact ⟨_, rfl⟩
  refine ⟨{ s with sender := x }, by rw [Stack.step, onSender, hx]; rfl, ?_⟩
  obtain ⟨m', strand, p, b, hstrand', _, _, rfl⟩ := writeImpl_cases hx
  rw [hstrand] at hstrand'
  exact (List.cons.inj hstrand').2.symm

variable (act) in
/-- The stream can take the rest of the submission under way, and its completion finishes the
front message. -/
theorem Live.exists_written {rs : List (WriteRequest κ)} {s : Stack κ} {top : MessageHolder κ}
    {queue : List (MessageHolder κ)} (hs : Live sha256 h t max rs s) (p q : DefaultProtocol)
    (hq : s.sender.writeQueue = top :: queue) :
    ∃ n s', (stack sha256 act p q).runFrom s [.take n, .written] = some s' ∧
      s'.sender.strand = s.sender.strand ∧ s'.sender.writeQueue = queue := by
  obtain ⟨done, hinv⟩ := hs.inv
  obtain ⟨_, hsafe⟩ := hs.holds.safe
  have hout := hinv.outstanding
  rw [Submitted, hq] at hout
  obtain ⟨total, htotal, hout, _⟩ := hout
  have hwired := hs.holds.wired
  rw [Wired, hout] at hwired
  have hle : s.taken ≤ top.message.length - total := by
    rw [← List.length_drop]
    exact hwired.1
  obtain ⟨x, hx⟩ : ∃ x, s.sender.step (packMessage sha256) act
      (.written 0 (top.message.length - total)) = some x := by
    simp only [Transport.step, hout, List.getElem?_cons_zero, le_refl, if_true,
      Transport.writeHandler, hq, lt_irrefl, if_false]
    exact ⟨_, rfl⟩
  obtain ⟨n, hn⟩ := Nat.exists_eq_add_of_le hle
  let s₁ : Stack κ := { s with
    taken := s.taken + n
    wire := s.wire ++ ((top.message.drop total).drop s.taken).take n
    link := s.link ++ ((top.message.drop total).drop s.taken).take n }
  have htake : s.step sha256 act (.take n) = some s₁ := by
    have hfit : s.taken + n ≤ (top.message.drop total).length := by
      rw [List.length_drop, hn]
    simp only [Stack.step, hout, if_pos hfit]
    rfl
  rw [hn] at hx
  have hwritten : s₁.step sha256 act .written = some { s₁ with sender := x, taken := 0 } := by
    rw [Stack.step, onSender]
    exact congrArg (Option.map _) hx
  refine ⟨n, { s₁ with sender := x, taken := 0 }, (Machine.runFrom_cons_eq_some _).mpr
    ⟨s₁, htake, (Machine.runFrom_cons_eq_some _).mpr ⟨_, hwritten, rfl⟩⟩, ?_⟩
  obtain ⟨top', queue', total', hq', _, _, _, hone, ⟨hlt, _⟩ | ⟨_, _, _, rfl⟩⟩ :=
    written_cases hsafe hx
  · rw [hq] at hq'
    obtain rfl := (List.cons.inj hq').1
    have htot := congrArg (List.map HandlerParams.total) (hout.symm.trans hone)
    simp only [List.map_cons, List.map_nil, List.cons.injEq, and_true] at htot
    omega
  · rw [hq] at hq'
    exact ⟨rfl, (List.cons.inj hq').2.symm⟩

/-- When the strand and the queue are empty, the stream has taken all that was packed. -/
theorem Live.unsent_eq_nil {rs : List (WriteRequest κ)} {s : Stack κ}
    (hs : Live sha256 h t max rs s) (hq : s.sender.writeQueue = []) : s.unsent = [] := by
  obtain ⟨done, hinv⟩ := hs.inv
  obtain ⟨_, hsafe⟩ := hs.holds.safe
  have hout := hinv.outstanding
  have hwired := hs.holds.wired
  rw [Submitted, hq] at hout
  rw [Wired, hout.1] at hwired
  have hnone (i : ℕ) : .failed i ∉ s.sender.trace := fun hi => (hsafe.failed i hi).2.2 hq
  rw [unsent, hwired.2.2 hnone, hinv.drained hq, List.drop_length]

variable (sha256 act) in
theorem exists_deliver {s : Stack κ} (hlink : s.link ≠ []) :
    ∃ s', s.step sha256 act (.deliver s.link.length) = some s' ∧ s'.sender = s.sender ∧
      s'.link = [] := by
  have hpos := List.length_pos_iff.mpr hlink
  obtain ⟨r, hr⟩ : ∃ r, (DefaultProtocol.receiver sha256 s.receiver.protocol).step s.receiver
      (.feed (s.link.take s.link.length)) = some r := ⟨_, rfl⟩
  refine ⟨{ s with link := s.link.drop s.link.length, receiver := r }, ?_, rfl, List.drop_length⟩
  simp only [Stack.step, if_pos (And.intro hpos le_rfl), hr, Option.map_some]

variable (act) in
theorem Live.exists_pop {rs : List (WriteRequest κ)} {s : Stack κ} (hs : Live sha256 h t max rs s)
    (hq : s.sender.writeQueue = []) (hlink : s.link = [])
    (hlt : s.receiver.results.length < s.payloads.length) :
    ∃ s', s.step sha256 act .pop = some s' ∧ s'.sender = s.sender ∧ s'.link = [] ∧
      s'.receiver.results.length = s.receiver.results.length + 1 := by
  obtain ⟨popped, todo, hf⟩ := hs.holds.following
  have hsync := hf.synced
  rw [hlink, hs.unsent_eq_nil hq, List.append_nil] at hsync
  have hlen := hsync.finished.2
  rw [hf.split, hf.results, List.length_map, List.length_append] at hlt
  obtain ⟨⟨p, res⟩, hpop⟩ : ∃ r, s.receiver.protocol.popRawMessage sha256 = some r := by
    cases hm : s.receiver.protocol.queue.messages with
    | nil =>
        rw [hm, List.length_nil] at hlen
        omega
    | cons m ms =>
        rw [popRawMessage, hm]
        simp only
        split_ifs
        · exact ⟨_, rfl⟩
        · exact ⟨_, rfl⟩
  refine ⟨{ s with receiver :=
    { s.receiver with protocol := p, results := s.receiver.results ++ [res] } }, ?_, rfl, hlink, ?_⟩
  · simp only [Stack.step, DefaultProtocol.receiver, hpop, Option.map_some]
  · simp

/-- What is left to do: to pack, to send, to deliver, to pop. -/
def todo (s : Stack κ) : ℕ ×ₗ ℕ ×ₗ ℕ ×ₗ ℕ :=
  toLex (s.sender.strand.length, toLex (s.sender.writeQueue.length,
    toLex (s.link.length, s.payloads.length - s.receiver.results.length)))

/-- Nothing is left to do. -/
structure Drained (s : Stack κ) : Prop where
  strand : s.sender.strand = []
  writeQueue : s.sender.writeQueue = []
  link : s.link = []
  popped : s.payloads.length ≤ s.receiver.results.length

/-- Until nothing is left, the two ends can do something by themselves. -/
theorem Live.progress {rs : List (WriteRequest κ)} {s : Stack κ} (hs : Live sha256 h t max rs s)
    (hact : Keeps act) (hmax : max < 2 ^ 32) (p q : DefaultProtocol) (hleft : ¬ s.Drained) :
    ∃ es s', (∀ e ∈ es, StackEvent.Forward e) ∧ (stack sha256 act p q).runFrom s es = some s' ∧
      Live sha256 h t max rs s' ∧ s'.todo < s.todo := by
  have hone (e : StackEvent κ) (s' : Stack κ) (he : e.Forward)
      (hstep : s.step sha256 act e = some s') (hlt : s'.todo < s.todo) :
      ∃ es s', (∀ e ∈ es, StackEvent.Forward e) ∧ (stack sha256 act p q).runFrom s es = some s' ∧
        Live sha256 h t max rs s' ∧ s'.todo < s.todo :=
    ⟨[e], s', List.forall_mem_singleton.mpr he,
      (Machine.runFrom_cons_eq_some _).mpr ⟨s', hstep, rfl⟩, hs.step hact hmax he hstep, hlt⟩
  cases hstrand : s.sender.strand with
  | cons m ms =>
      obtain ⟨s', hstep, hms⟩ := exists_writeImpl sha256 act hstrand
      refine hone .writeImpl s' trivial hstep ?_
      rw [todo, todo, Prod.Lex.toLex_lt_toLex, hms, hstrand]
      exact Or.inl (Nat.lt_succ_self _)
  | nil =>
  cases hq : s.sender.writeQueue with
  | cons top queue =>
      obtain ⟨n, s', hrun, hstrand', hq'⟩ := hs.exists_written act p q hq
      have hes : ∀ e ∈ [StackEvent.take n, .written], StackEvent.Forward (κ := κ) e := by
        simp [StackEvent.Forward]
      refine ⟨_, s', hes, hrun, hs.run hact hmax hes hrun, ?_⟩
      rw [todo, todo, Prod.Lex.toLex_lt_toLex, Prod.Lex.toLex_lt_toLex, hstrand', hq', hq]
      exact Or.inr ⟨rfl, Or.inl (Nat.lt_succ_self _)⟩
  | nil =>
  by_cases hlink : s.link = []
  · have hlt : s.receiver.results.length < s.payloads.length := by
      by_contra hle
      exact hleft ⟨hstrand, hq, hlink, by omega⟩
    obtain ⟨s', hstep, hsender, hlink', hres⟩ := hs.exists_pop act hq hlink hlt
    refine hone .pop s' trivial hstep ?_
    rw [todo, todo, payloads, hsender, hlink, hlink', hres]
    simp only [Prod.Lex.toLex_lt_toLex, lt_irrefl, true_and, false_or]
    change s.payloads.length - _ < _
    omega
  · obtain ⟨s', hstep, hsender, hlink'⟩ := exists_deliver sha256 act hlink
    refine hone (.deliver s.link.length) s' trivial hstep ?_
    have hpos := List.length_pos_iff.mpr hlink
    rw [todo, todo, hsender, hlink']
    simp only [Prod.Lex.toLex_lt_toLex, lt_irrefl, true_and, false_or, List.length_nil]
    exact Or.inl hpos

theorem Live.delivers {rs : List (WriteRequest κ)} {s : Stack κ} (hs : Live sha256 h t max rs s)
    (hact : Keeps act) (hmax : max < 2 ^ 32) (p q : DefaultProtocol) :
    ∃ fs s', (∀ e ∈ fs, StackEvent.Forward e) ∧ (stack sha256 act p q).runFrom s fs = some s' ∧
      Live sha256 h t max rs s' ∧ s'.Drained :=
  Machine.exists_runFrom_of_decreasing _ todo
    (fun _ hs hleft => hs.progress hact hmax p q hleft) s hs

theorem Live.drained {rs : List (WriteRequest κ)} {s : Stack κ} (hs : Live sha256 h t max rs s)
    (hd : s.Drained) : s.receiver.errors = [] ∧
      s.receiver.results = rs.map (fun r => some r.data) := by
  obtain ⟨popped, todo, hf⟩ := hs.holds.following
  obtain ⟨done, hsafe⟩ := hs.holds.safe
  have hlen := hd.popped
  rw [hf.split, hf.results, List.length_map, List.length_append] at hlen
  obtain rfl : todo = [] := List.length_eq_zero_iff.mp (by omega)
  have hall := payloads_eq hsafe
  rw [hd.strand, List.map_nil, List.append_nil, hf.split, List.append_nil, hs.requests] at hall
  refine ⟨hf.errors, ?_⟩
  rw [hf.results, hall, List.map_map]
  rfl

end Stack

/-- **The stream delivers.**  A session in which nothing has failed or been closed can always go on
by itself, without a further write, until nothing is queued or on the way and the receiver has
popped every payload posted so far, in order. -/
theorem stack_delivers {κ : Type} (sha256 : Bytes → Digest)
    (act : κ → DefaultProtocol → DefaultProtocol) (hact : Stack.Keeps act) (h : HashKind)
    (kind : TransformerKind) (key : Key) (sopts ropts : SessionOptions)
    (es : List (StackEvent κ)) (s : Stack κ)
    (hrun : (stack sha256 act (DefaultProtocol.sessionStart h kind key sopts)
      (DefaultProtocol.sessionStart h kind key ropts)).run es = some s)
    (hfit : s.Fits h ropts.maxMessageLength.toNat) (hopen : ¬ s.sender.Stopped) :
    ∃ fs s', (∀ e ∈ fs, StackEvent.Forward e) ∧
      (stack sha256 act (DefaultProtocol.sessionStart h kind key sopts)
        (DefaultProtocol.sessionStart h kind key ropts)).runFrom s fs = some s' ∧
      s'.sender.writeQueue = [] ∧ s'.link = [] ∧ s'.receiver.errors = [] ∧
      s'.receiver.results = s.sender.requests.map (fun r => some r.data) := by
  have hmax := ropts.maxMessageLength.toNat_lt
  have hs := Stack.holds_of_run hact hmax
    (Stack.holds_start sha256 act h kind key sopts ropts) hrun hfit
  have hlive : Stack.Live sha256 h (.create kind key) ropts.maxMessageLength.toNat
      s.sender.requests s := ⟨hs, hfit, Stack.inv_of_run hrun hopen, rfl⟩
  obtain ⟨fs, s', hfs, hrest, hlive', hd⟩ := hlive.delivers hact hmax
    (DefaultProtocol.sessionStart h kind key sopts) (DefaultProtocol.sessionStart h kind key ropts)
  obtain ⟨herr, hres⟩ := hlive'.drained hd
  exact ⟨fs, s', hfs, hrest, hd.writeQueue, hd.link, herr, hres⟩

/-- Two payloads that have only been posted. -/
theorem stack_delivers_two :
    let hash : Bytes → Digest := fun _ => ⟨List.replicate 32 0, rfl⟩
    let act : Unit → DefaultProtocol → DefaultProtocol := fun _ p => p
    let start := DefaultProtocol.sessionStart .crc32 .none ⟨[0x6b], by decide⟩ .defaults
    ∃ s fs s', (stack hash act start start).run [.write ⟨[0x61], none, false⟩,
        .write ⟨[], none, false⟩] = some s ∧ (∀ e ∈ fs, StackEvent.Forward e) ∧
      (stack hash act start start).runFrom s fs = some s' ∧ s'.sender.writeQueue = [] ∧
      s'.link = [] ∧ s'.receiver.errors = [] ∧ s'.receiver.results = [some [0x61], some []] := by
  intro hash act start
  have hopen : ¬ Transport.Stopped (σ := DefaultProtocol) (κ := Unit) { protocol := start } := by
    rintro (hclosed | ⟨i, hi⟩)
    · cases hclosed
    · cases hi
  obtain ⟨fs, s', hfs, hrest, hqueue, hlink, herr, hres⟩ := stack_delivers hash act
    (fun _ _ => ⟨rfl, rfl⟩) .crc32 .none ⟨[0x6b], by decide⟩ .defaults .defaults
    [.write ⟨[0x61], none, false⟩, .write ⟨[], none, false⟩] _ rfl (by rw [Stack.Fits]; decide) hopen
  exact ⟨_, fs, s', rfl, hfs, hrest, hqueue, hlink, herr, hres⟩

end Vtrc
