import Vtrc.Settle

/-! # One direction of a connection

A sender packs messages and a reliable first-in first-out link carries its bytes to a receiver,
which pops them.  `Linked` is what the link itself guarantees: the receiver has popped, in order
and unchanged, a beginning of what the sender has packed, and what it has not popped is in its
queue, in its buffer or on the link.  `InStep` says that hash and cipher of the two fit: the
messages in flight were packed as the receiver will pop them, and the sender will pack the next
one as the receiver will expect it then.

Both are about the log of the sender and that of the receiver, so every step of a session that
leaves these alone keeps them. -/

namespace Vtrc

open Endpoint Framing DefaultProtocol

/-- The pop of a packed message by a receiver in step with its sender. -/
def Packed.popped (k : Packed) : Popped := ⟨k.hash, k.transformer, some k.data⟩

/-- The messages packed by `s` that `r` has not popped. -/
def flight (s r : Endpoint) : List Packed := s.packs.drop r.pops.length

/-- The payloads that `r` has still to get from `s`. -/
def pending (s r : Endpoint) : List Bytes :=
  (flight s r).map Packed.data ++ s.outbox.map Posted.data

section
variable (sha256 : Bytes → Digest)

/-- The body of a packed message. -/
def Packed.body (k : Packed) : Bytes := (k.transformer.transform (sealed sha256 k.hash k.data)).2

/-- The transformer after a packed message. -/
def Packed.next (k : Packed) : Transformer := (k.transformer.transform (sealed sha256 k.hash k.data)).1

/-- The end that has popped `k`. -/
def afterPop (r : Endpoint) (k : Packed) : Endpoint :=
  { r with
    protocol := r.protocol.popFront (k.next sha256)
    pops := r.pops ++ [k.popped] }

/-- The payloads `ds` packed one after the other. -/
def packedFrom (h : HashKind) : Transformer → List Bytes → List Packed
  | _, [] => []
  | t, d :: ds => ⟨h, t, d⟩ :: packedFrom h (Packed.next sha256 ⟨h, t, d⟩) ds

/-- What the link guarantees; a receiver that has closed the connection does not read on. -/
structure Linked (s r : Endpoint) (link : Bytes) : Prop where
  aligned : r.pops <+: s.packs.map Packed.popped
  short : ∀ k ∈ s.packs, k.data.length < 2 ^ 63
  stream : r.connClosed = false → ∃ bs,
    (flight s r).map (Packed.body sha256) = r.protocol.queue.messages ++ bs ∧
      r.protocol.queue.data ++ link = (frames bs).flatten

/-- Hash and cipher of the two ends fit. -/
structure InStep (s r : Endpoint) : Prop where
  packed : flight s r = packedFrom sha256 r.protocol.hashChecker r.protocol.revertor
    ((flight s r).map Packed.data)
  maker : s.protocol.hashMaker = r.protocol.hashChecker
  transformer : s.protocol.transformer =
    advance sha256 r.protocol.hashChecker r.protocol.revertor ((flight s r).map Packed.data)

end

/-! ### Messages in flight -/

section
variable {sha256 : Bytes → Digest}

theorem packedFrom_append (h : HashKind) (t : Transformer) (ds : List Bytes) (d : Bytes) :
    packedFrom sha256 h t (ds ++ [d]) =
      packedFrom sha256 h t ds ++ [⟨h, advance sha256 h t ds, d⟩] := by
  induction ds generalizing t with
  | nil => rfl
  | cons d' ds ih =>
      rw [List.cons_append, packedFrom, ih, packedFrom, List.cons_append]
      rfl

theorem Packed.body_length (k : Packed) : (k.body sha256).length = k.data.length + k.hash.size := by
  rw [Packed.body, Transformer.transform_length, sealed_length]

theorem hashKind_size_le (h : HashKind) : h.size ≤ 32 := by
  cases h <;> decide

theorem Linked.body_le {s r : Endpoint} {link : Bytes} (h : Linked sha256 s r link) :
    ∀ b ∈ (flight s r).map (Packed.body sha256), b.length ≤ maxBody := by
  intro b hb
  obtain ⟨k, hk, rfl⟩ := List.mem_map.mp hb
  have hlen := h.short k (List.mem_of_mem_drop hk)
  have hsize := hashKind_size_le k.hash
  have hmax : maxBody = 2 ^ 63 + 2 ^ 32 := rfl
  rw [Packed.body_length]
  omega

theorem Linked.length_le {s r : Endpoint} {link : Bytes} (h : Linked sha256 s r link) :
    r.pops.length ≤ s.packs.length := by
  have := h.aligned.length_le
  rwa [List.length_map] at this

theorem flight_snoc {s s' r : Endpoint} {k : Packed} (hle : r.pops.length ≤ s.packs.length)
    (hpacks : s'.packs = s.packs ++ [k]) : flight s' r = flight s r ++ [k] := by
  rw [flight, hpacks, List.drop_append_of_le_length hle]
  rfl

theorem flight_tail {s r r' : Endpoint} {k : Packed} {ks : List Packed} (hf : flight s r = k :: ks)
    (hpops : r'.pops = r.pops ++ [k.popped]) : flight s r' = ks := by
  rw [flight, hpops, List.length_append, List.length_singleton, ← List.drop_drop]
  change (flight s r).drop 1 = ks
  rw [hf]
  rfl

/-! ### The sender packs -/

/-- **Packing** puts the frame of the message on the link. -/
theorem Linked.pack {s s' r : Endpoint} {link bytes : Bytes} (h : Linked sha256 s r link)
    (hp : s.pack sha256 = some (s', bytes)) : Linked sha256 s' r (link ++ bytes) := by
  obtain ⟨m, outbox, hout, hlen⟩ := pack_cases hp
  rw [pack_of_outbox s m outbox hout hlen] at hp
  obtain ⟨hs', rfl⟩ := Prod.mk.inj (Option.some.inj hp)
  have hpacks : s'.packs = s.packs ++ [⟨s.protocol.hashMaker, s.protocol.transformer, m.data⟩] := by
    rw [← hs']
    split_ifs <;> rfl
  have hbytes : (s.protocol.packMessage sha256 m.data).2 = DataQueue.frame sizePolicy
      (Packed.body sha256 ⟨s.protocol.hashMaker, s.protocol.transformer, m.data⟩) := by
    rw [packMessage_eq sha256 s.protocol m.data]
    · rfl
    · have := hashKind_size_le s.protocol.hashMaker
      omega
  refine ⟨?_, ?_, fun hc => ?_⟩
  · rw [hpacks, List.map_append]
    exact h.aligned.trans (List.prefix_append _ _)
  · intro k hk
    rw [hpacks] at hk
    rcases List.mem_append.mp hk with hk | hk
    · exact h.short k hk
    · rw [List.mem_singleton.mp hk]
      exact hlen
  · obtain ⟨bs, hms, hdata⟩ := h.stream hc
    refine ⟨bs ++ [Packed.body sha256 ⟨s.protocol.hashMaker, s.protocol.transformer, m.data⟩], ?_, ?_⟩
    · rw [flight_snoc h.length_le hpacks, List.map_append, hms, List.append_assoc]
      rfl
    · rw [← List.append_assoc, hdata, frames_append, List.flatten_append, hbytes]
      simp

/-- Packing keeps the ends in step, unless its closure replaces the hash. -/
theorem InStep.pack {s s' r : Endpoint} {bytes : Bytes} (h : InStep sha256 s r)
    (hle : r.pops.length ≤ s.packs.length) (hsend : ∀ m ∈ s.outbox, m.closure.onSend = true)
    (hp : s.pack sha256 = some (s', bytes)) :
    InStep sha256 s' r ∧ pending s' r = pending s r := by
  obtain ⟨m, outbox, hout, hlen⟩ := pack_cases hp
  rw [pack_of_outbox s m outbox hout hlen] at hp
  obtain ⟨hs', rfl⟩ := Prod.mk.inj (Option.some.inj hp)
  rw [if_pos (hsend m (by rw [hout]; exact List.mem_cons_self))] at hs'
  have hflight : flight s' r =
      flight s r ++ [⟨s.protocol.hashMaker, s.protocol.transformer, m.data⟩] :=
    flight_snoc hle (by rw [← hs'])
  have hdatas : (flight s' r).map Packed.data = (flight s r).map Packed.data ++ [m.data] := by
    rw [hflight, List.map_append]
    rfl
  refine ⟨⟨?_, ?_, ?_⟩, ?_⟩
  · rw [hdatas, packedFrom_append, ← h.packed, hflight, h.maker, h.transformer]
  · rw [← hs']
    exact h.maker
  · rw [hdatas, advance_append, ← h.transformer, ← h.maker, ← hs']
    rfl
  · rw [pending, pending, hdatas, hout, ← hs', List.append_assoc]
    rfl

/-! ### The receiver reads -/

/-- The parser has taken bytes from the link: a change of the queue only. -/
def requeue (r : Endpoint) (q : DataQueue) : Endpoint :=
  r.setProtocol { r.protocol with queue := q }

/-- The next bytes of the link are parsed, or the receiver closes the connection. -/
theorem Linked.processData {s r : Endpoint} {link : Bytes} (h : Linked sha256 s r link)
    (hopen : r.connClosed = false) (n : ℕ) {p : DefaultProtocol} {res : ProcessResult}
    (hp : r.protocol.processData (link.take n) = (p, res)) :
    (∃ err, res = .raised err) ∨
      ∃ q, p = { r.protocol with queue := q } ∧ Linked sha256 s (requeue r q) (link.drop n) ∧
        (res = .stage → q.messages ≠ []) := by
  obtain ⟨bs, hms, hdata⟩ := h.stream hopen
  have hbs : ∀ b ∈ bs, b.length ≤ maxBody := by
    intro b hb
    exact h.body_le b (by rw [hms]; exact List.mem_append_right _ hb)
  have hsplit : r.protocol.queue.data ++ (link.take n ++ link.drop n) = (frames bs).flatten := by
    rw [List.take_append_drop, hdata]
  rw [DefaultProtocol.processData] at hp
  split_ifs at hp with hpos
  · rcases feed_frames hsplit hbs with ⟨_, hfeed⟩ | ⟨_, herr⟩
    · right
      obtain ⟨hrest, _⟩ := fedFrames_rest hsplit
      rw [hfeed] at hp
      obtain ⟨rfl, rfl⟩ := Prod.mk.inj hp
      refine ⟨(r.protocol.fedFrames bs (link.take n)).queue, rfl,
        ⟨h.aligned, h.short, fun _ => ⟨_, ?_, hrest⟩⟩, ?_⟩
      · show _ = (r.protocol.queue.messages ++ bs.take _) ++ bs.drop _
        rw [List.append_assoc, List.take_append_drop]
        exact hms
      · intro hstage hnil
        split_ifs at hstage with hlt
        simp only [hnil, List.length_nil] at hlt
        omega
    · left
      simp only at hp
      rw [herr] at hp
      exact ⟨_, (Prod.mk.inj hp).2.symm⟩
  · right
    obtain ⟨rfl, rfl⟩ := Prod.mk.inj hp
    have hlink : link.drop n = link := by
      have hnil : link.take n = [] := List.length_eq_zero_iff.mp (by omega)
      have := List.take_append_drop n link
      rwa [hnil, List.nil_append] at this
    refine ⟨r.protocol.queue, rfl, ?_, fun hs => by cases hs⟩
    rw [hlink]
    exact ⟨h.aligned, h.short, h.stream⟩

/-- **A pop** of a message that was packed as the receiver expects it. -/
theorem Linked.popRaw {s r : Endpoint} {link : Bytes} (h : Linked sha256 s r link)
    (hopen : r.connClosed = false) {k : Packed} {ks : List Packed} (hf : flight s r = k :: ks)
    (hhash : k.hash = r.protocol.hashChecker) (hrev : k.transformer = r.protocol.revertor)
    (hne : r.protocol.queue.messages ≠ []) :
    r.popRaw sha256 = some (afterPop sha256 r k, some k.data) ∧
      Linked sha256 s (afterPop sha256 r k) link := by
  obtain ⟨bs, hms, hdata⟩ := h.stream hopen
  obtain ⟨b, ms, hq⟩ := List.exists_cons_of_ne_nil hne
  rw [hf, List.map_cons, hq, List.cons_append] at hms
  obtain ⟨hb, hks⟩ := List.cons.inj hms
  rw [← hb, Packed.body, hhash, hrev] at hq
  have hpop := popRawMessage_sealed sha256 r.protocol k.data ms hq
  refine ⟨?_, ⟨?_, h.short, fun _ => ⟨bs, ?_, hdata⟩⟩⟩
  · rw [Endpoint.popRaw, hpop, afterPop, Packed.next, Packed.popped, hhash, hrev]
    rfl
  · obtain ⟨rest, hrest⟩ := h.aligned
    have hflight : (flight s r).map Packed.popped = rest := by
      rw [flight, List.map_drop, ← hrest, List.drop_left]
    rw [hf, List.map_cons] at hflight
    exact ⟨ks.map Packed.popped, by rw [← hrest, ← hflight]; simp [afterPop]⟩
  · rw [flight_tail hf rfl, hks]
    show ms ++ bs = r.protocol.queue.messages.tail ++ bs
    rw [hq, List.tail_cons]

theorem Linked.flight_cons {s r : Endpoint} {link : Bytes} (h : Linked sha256 s r link)
    (hopen : r.connClosed = false) (hne : r.protocol.queue.messages ≠ []) :
    ∃ k ks, flight s r = k :: ks := by
  obtain ⟨bs, hms, _⟩ := h.stream hopen
  apply List.exists_cons_of_ne_nil
  intro hnil
  rw [hnil, List.map_nil] at hms
  exact hne (List.append_eq_nil_iff.mp hms.symm).1

theorem InStep.head {s r : Endpoint} (h : InStep sha256 s r) {k : Packed} {ks : List Packed}
    (hf : flight s r = k :: ks) :
    k.hash = r.protocol.hashChecker ∧ k.transformer = r.protocol.revertor := by
  have hp := h.packed
  rw [hf, List.map_cons, packedFrom] at hp
  have hk := (List.cons.inj hp).1
  rw [hk]
  exact ⟨rfl, rfl⟩

theorem InStep.pop {s r : Endpoint} (h : InStep sha256 s r) {k : Packed} {ks : List Packed}
    (hf : flight s r = k :: ks) : InStep sha256 s (afterPop sha256 r k) := by
  obtain ⟨hhash, htr⟩ := h.head hf
  have hf' : flight s (afterPop sha256 r k) = ks := flight_tail hf rfl
  have hnext : k.next sha256 =
      Packed.next sha256 ⟨r.protocol.hashChecker, r.protocol.revertor, k.data⟩ := by
    rw [← hhash, ← htr]
  have hp := h.packed
  have ht := h.transformer
  rw [hf, List.map_cons] at hp ht
  refine ⟨?_, h.maker, ?_⟩
  · rw [hf']
    show ks = packedFrom sha256 r.protocol.hashChecker (k.next sha256) _
    rw [hnext]
    exact (List.cons.inj hp).2
  · rw [hf', ht]
    show _ = advance sha256 r.protocol.hashChecker (k.next sha256) _
    rw [hnext]
    rfl

/-- `e'` differs from `e` at most in its queue, its revertor, its log of pops, its dispatched
units and in having closed the connection or completed writes. -/
structure Frame (e e' : Endpoint) : Prop where
  maker : e'.protocol.hashMaker = e.protocol.hashMaker
  checker : e'.protocol.hashChecker = e.protocol.hashChecker
  transformer : e'.protocol.transformer = e.protocol.transformer
  stage : e'.stage = e.stage
  serving : e'.serving = e.serving
  ready : e'.ready = e.ready
  layerReady : e'.layerReady = e.layerReady
  clientId : e'.clientId = e.clientId
  outbox : e'.outbox = e.outbox
  packs : e'.packs = e.packs
  todo : e'.todo = e.todo
  writing : ∀ c ∈ e'.writing, c ∈ e.writing
  connClosed : e.connClosed = true → e'.connClosed = true

theorem Frame.refl (e : Endpoint) : Frame e e :=
  ⟨rfl, rfl, rfl, rfl, rfl, rfl, rfl, rfl, rfl, rfl, rfl, fun _ h => h, id⟩

theorem Frame.trans {e e' e'' : Endpoint} (h : Frame e e') (h' : Frame e' e'') : Frame e e'' :=
  ⟨h'.maker.trans h.maker, h'.checker.trans h.checker, h'.transformer.trans h.transformer,
    h'.stage.trans h.stage, h'.serving.trans h.serving, h'.ready.trans h.ready,
    h'.layerReady.trans h.layerReady, h'.clientId.trans h.clientId, h'.outbox.trans h.outbox,
    h'.packs.trans h.packs, h'.todo.trans h.todo, fun c hc => h.writing c (h'.writing c hc),
    fun hc => h'.connClosed (h.connClosed hc)⟩

/-- A frame in which nothing was popped either. -/
structure Quiet (e e' : Endpoint) : Prop extends Frame e e' where
  revertor : e'.protocol.revertor = e.protocol.revertor
  pops : e'.pops = e.pops

theorem quiet_requeue (r : Endpoint) (q : DataQueue) : Quiet r (requeue r q) :=
  ⟨⟨rfl, rfl, rfl, rfl, rfl, rfl, rfl, rfl, rfl, rfl, rfl, fun _ h => h, id⟩, rfl, rfl⟩

/-- **The loop of the ready stage** pops messages in step. -/
theorem InStep.serve {s : Endpoint} {link : Bytes} (unit : Codec LowlevelUnit) (n : ℕ) :
    ∀ {r : Endpoint}, Linked sha256 s r link → InStep sha256 s r → r.connClosed = false →
      Linked sha256 s (Endpoint.serve sha256 unit n r) link ∧
        InStep sha256 s (Endpoint.serve sha256 unit n r) ∧
        Frame r (Endpoint.serve sha256 unit n r) := by
  induction n with
  | zero => exact fun hl h _ => ⟨hl, h, Frame.refl _⟩
  | succ n ih =>
      intro r hl h hopen
      by_cases hne : r.protocol.queue.messages = []
      · have hnone : r.popRaw sha256 = none := by
          rw [Endpoint.popRaw, popRawMessage, hne]
          rfl
        rw [Endpoint.serve, hnone]
        exact ⟨hl, h, Frame.refl _⟩
      · obtain ⟨k, ks, hf⟩ := hl.flight_cons hopen hne
        obtain ⟨hhash, hrev⟩ := h.head hf
        obtain ⟨hpop, hl'⟩ := hl.popRaw hopen hf hhash hrev hne
        have h' := h.pop hf
        have hframe : Frame r (afterPop sha256 r k) :=
          ⟨rfl, rfl, rfl, rfl, rfl, rfl, rfl, rfl, rfl, rfl, rfl, fun _ h => h, id⟩
        rw [Endpoint.serve, hpop]
        simp only [Option.bind_some]
        split
        · exact ⟨⟨hl'.aligned, hl'.short, fun hc => by cases hc⟩,
            ⟨h'.packed, h'.maker, h'.transformer⟩,
            hframe.trans ⟨rfl, rfl, rfl, rfl, rfl, rfl, rfl, rfl, rfl, rfl, rfl, fun _ h => h,
              fun _ => rfl⟩⟩
        · rename_i llu _
          obtain ⟨hl'', h'', hframe'⟩ := ih
            (r := { afterPop sha256 r k with dispatched := (afterPop sha256 r k).dispatched ++ [llu] })
            ⟨hl'.aligned, hl'.short, hl'.stream⟩ ⟨h'.packed, h'.maker, h'.transformer⟩ hopen
          have hdisp : Frame (afterPop sha256 r k)
              { afterPop sha256 r k with dispatched := (afterPop sha256 r k).dispatched ++ [llu] } :=
            ⟨rfl, rfl, rfl, rfl, rfl, rfl, rfl, rfl, rfl, rfl, rfl, fun _ h => h, id⟩
          exact ⟨hl'', h'', (hframe.trans hdisp).trans hframe'⟩

/-- **A chunk from the link** changes nothing but the queue, or is served, or starts a handler. -/
theorem Linked.recv {s r r' : Endpoint} {link : Bytes} (hl : Linked sha256 s r link)
    {unit : Codec LowlevelUnit} {role : Role} {n : ℕ} {salts : Bytes × Bytes}
    (hr : r.recv sha256 unit role (link.take n) salts = some r') :
    r.connClosed = false ∧ r.todo = [] ∧
      (Quiet r r' ∧ Linked sha256 s r' (link.drop n) ∨
        ∃ q, Linked sha256 s (requeue r q) (link.drop n) ∧ q.messages ≠ [] ∧
          (r.serving = true ∧ r' = Endpoint.serve sha256 unit q.messages.length (requeue r q) ∨
            r.serving = false ∧ r' = doHandshake sha256 role (requeue r q) salts)) := by
  obtain ⟨_, hopen, htodo, hcases⟩ := recv_cases hr
  refine ⟨hopen, htodo, ?_⟩
  rcases hcases with ⟨p, err, hp, rfl⟩ | ⟨p, hp, rfl⟩ | ⟨p, hp, hserv, rfl⟩ | ⟨p, hp, hserv, rfl⟩
  · left
    obtain rfl : p = (r.protocol.processData (link.take n)).1 := by rw [hp]
    have hfst := r.protocol.processData_fst (link.take n)
    rw [hfst]
    exact ⟨⟨⟨rfl, rfl, rfl, rfl, rfl, rfl, rfl, rfl, rfl, rfl, rfl, fun _ h => h, fun _ => rfl⟩,
      rfl, rfl⟩, ⟨hl.aligned, hl.short, fun hc => by cases hc⟩⟩
  · obtain ⟨_, herr⟩ | ⟨q, rfl, hl', _⟩ := hl.processData hopen n hp
    · cases herr
    · exact .inl ⟨quiet_requeue r q, hl'⟩
  · obtain ⟨_, herr⟩ | ⟨q, rfl, hl', hne⟩ := hl.processData hopen n hp
    · cases herr
    · exact .inr ⟨q, hl', hne rfl, .inl ⟨hserv, rfl⟩⟩
  · obtain ⟨_, herr⟩ | ⟨q, rfl, hl', hne⟩ := hl.processData hopen n hp
    · cases herr
    · exact .inr ⟨q, hl', hne rfl, .inr ⟨hserv, rfl⟩⟩

/-! ### What the log of an end determines -/

theorem flight_congr {s s' r r' : Endpoint} (hpacks : s'.packs = s.packs) (hpops : r'.pops = r.pops) :
    flight s' r' = flight s r := by
  rw [flight, flight, hpacks, hpops]

theorem pending_congr {s s' r r' : Endpoint} (hpacks : s'.packs = s.packs)
    (hout : s'.outbox = s.outbox) (hpops : r'.pops = r.pops) : pending s' r' = pending s r := by
  rw [pending, pending, flight_congr hpacks hpops, hout]

theorem InStep.congr {s s' r r' : Endpoint} (h : InStep sha256 s r) (hpacks : s'.packs = s.packs)
    (hmaker : s'.protocol.hashMaker = s.protocol.hashMaker)
    (htr : s'.protocol.transformer = s.protocol.transformer) (hpops : r'.pops = r.pops)
    (hcheck : r'.protocol.hashChecker = r.protocol.hashChecker)
    (hrev : r'.protocol.revertor = r.protocol.revertor) : InStep sha256 s' r' := by
  obtain ⟨hp, hm, ht⟩ := h
  refine ⟨?_, ?_, ?_⟩
  · rw [flight_congr hpacks hpops, hcheck, hrev]
    exact hp
  · rw [hmaker, hcheck]
    exact hm
  · rw [flight_congr hpacks hpops, htr, hcheck, hrev]
    exact ht

theorem InStep.quiet {s s' r r' : Endpoint} (h : InStep sha256 s r) (hs : Quiet s s')
    (hr : Quiet r r') : InStep sha256 s' r' :=
  h.congr hs.packs hs.maker hs.transformer hr.pops hr.checker hr.revertor

theorem pending_quiet {s s' r r' : Endpoint} (hs : Quiet s s') (hr : Quiet r r') :
    pending s' r' = pending s r :=
  pending_congr hs.packs hs.outbox hr.pops

theorem quiet_refl (e : Endpoint) : Quiet e e := ⟨Frame.refl e, rfl, rfl⟩

theorem outbox_of_pending {s r : Endpoint} (h : pending s r = []) : s.outbox = [] := by
  rw [pending, List.append_eq_nil_iff] at h
  exact List.map_eq_nil_iff.mp h.2

theorem flight_of_pending {s r : Endpoint} (h : pending s r = []) : flight s r = [] := by
  rw [pending, List.append_eq_nil_iff] at h
  exact List.map_eq_nil_iff.mp h.1

theorem pending_one {s r : Endpoint} {d : Bytes} (h : pending s r = [d]) {k : Packed}
    {ks : List Packed} (hf : flight s r = k :: ks) : k.data = d ∧ ks = [] ∧ s.outbox = [] := by
  rw [pending, hf, List.map_cons, List.cons_append] at h
  obtain ⟨hd, hnil⟩ := List.cons.inj h
  obtain ⟨hks, hout⟩ := List.append_eq_nil_iff.mp hnil
  exact ⟨hd, List.map_eq_nil_iff.mp hks, List.map_eq_nil_iff.mp hout⟩

/-- Two ends with nothing in flight are in step when their settings agree. -/
theorem inStep_of_flight {s r : Endpoint} (hf : flight s r = [])
    (hmaker : s.protocol.hashMaker = r.protocol.hashChecker)
    (htr : s.protocol.transformer = r.protocol.revertor) : InStep sha256 s r := by
  refine ⟨?_, hmaker, ?_⟩
  · rw [hf]
    rfl
  · rw [hf, htr]
    rfl

theorem InStep.settings {s r : Endpoint} (h : InStep sha256 s r) (hf : flight s r = []) :
    s.protocol.hashMaker = r.protocol.hashChecker ∧
      s.protocol.transformer = r.protocol.revertor := by
  refine ⟨h.maker, ?_⟩
  rw [h.transformer, hf]
  rfl

theorem pending_of_nil {s r : Endpoint} (hf : flight s r = []) :
    pending s r = s.outbox.map Posted.data := by
  rw [pending, hf]
  rfl

/-! ### A handler -/

/-- The end of `do_handshake`. -/
def finish (e : Endpoint) : Endpoint :=
  { e with serving := e.ready || e.serving, layerReady := e.ready || e.layerReady }

theorem foldl_exec_finish (as : List Act) (e : Endpoint) :
    (as ++ [Act.switchToReady, Act.accessorReady]).foldl exec e = finish (as.foldl exec e) := by
  rw [List.foldl_append, List.foldl_cons, List.foldl_cons, List.foldl_nil, exec_switchToReady,
    exec_accessorReady]
  rfl

/-- **A handshake message** that was packed as the receiver expects it is popped, and its handler
starts. -/
theorem Linked.handshake {s r : Endpoint} {link : Bytes} (h : Linked sha256 s r link)
    (hopen : r.connClosed = false) (htodo : r.todo = []) {k : Packed} {ks : List Packed}
    (hf : flight s r = k :: ks) (hhash : k.hash = r.protocol.hashChecker)
    (hrev : k.transformer = r.protocol.revertor) (hne : r.protocol.queue.messages ≠ [])
    (role : Role) (salts : Bytes × Bytes) :
    Linked sha256 s (afterPop sha256 r k) link ∧
      doHandshake sha256 role r salts = { afterPop sha256 r k with
        todo := role.stageCall (afterPop sha256 r k) salts k.data ++
          [.switchToReady, .accessorReady] } ∧
      (doHandshake sha256 role r salts).settle =
        finish ((role.stageCall (afterPop sha256 r k) salts k.data).foldl exec
          (afterPop sha256 r k)) := by
  obtain ⟨hpop, hl'⟩ := h.popRaw hopen hf hhash hrev hne
  have hdo : doHandshake sha256 role r salts = { afterPop sha256 r k with
      todo := role.stageCall (afterPop sha256 r k) salts k.data ++
        [.switchToReady, .accessorReady] } := by
    rw [doHandshake, hpop]
  refine ⟨hl', hdo, ?_⟩
  have hnil : { afterPop sha256 r k with todo := [] } = afterPop sha256 r k := by
    rw [afterPop]
    simp only [htodo]
  rw [hdo, ← foldl_exec_finish]
  show (_ ++ [Act.switchToReady, Act.accessorReady]).foldl exec
    { afterPop sha256 r k with todo := [] } = _
  rw [hnil]

/-- Actions leave the parser's buffer and its messages alone and do not open a connection. -/
theorem foldl_exec_queue (as : List Act) (e : Endpoint) :
    (as.foldl exec e).protocol.queue.messages = e.protocol.queue.messages ∧
      (as.foldl exec e).protocol.queue.data = e.protocol.queue.data ∧
      ((as.foldl exec e).connClosed = false → e.connClosed = false) := by
  induction as generalizing e with
  | nil => exact ⟨rfl, rfl, id⟩
  | cons a as ih =>
      obtain ⟨hms, hdata, hclosed⟩ := ih (e.exec a)
      rw [List.foldl_cons, hms, hdata]
      have ha : (e.exec a).protocol.queue.messages = e.protocol.queue.messages ∧
          (e.exec a).protocol.queue.data = e.protocol.queue.data ∧
          ((e.exec a).connClosed = false → e.connClosed = false) := by
        cases a with
        | switchToReady => rw [exec_switchToReady]; exact ⟨rfl, rfl, id⟩
        | accessorReady => rw [exec_accessorReady]; exact ⟨rfl, rfl, id⟩
        | connectionClose => exact ⟨rfl, rfl, fun h => by cases h⟩
        | _ => exact ⟨rfl, rfl, id⟩
      exact ⟨ha.1, ha.2.1, fun h => ha.2.2 (hclosed h)⟩

theorem Linked.finished {s r : Endpoint} {link : Bytes} (h : Linked sha256 s r link)
    (as : List Act) : Linked sha256 s (finish (as.foldl exec r)) link := by
  obtain ⟨hms, hdata, hclosed⟩ := foldl_exec_queue as r
  have hpops := (foldl_exec_writing r as).2.2
  refine ⟨?_, h.short, fun hc => ?_⟩
  · rw [show (finish (as.foldl exec r)).pops = r.pops from hpops]
    exact h.aligned
  · obtain ⟨bs, hbs, hd⟩ := h.stream (hclosed hc)
    refine ⟨bs, ?_, ?_⟩
    · rw [flight, show (finish (as.foldl exec r)).pops = r.pops from hpops,
        show (finish (as.foldl exec r)).protocol.queue.messages = r.protocol.queue.messages from hms]
      exact hbs
    · rw [show (finish (as.foldl exec r)).protocol.queue.data = r.protocol.queue.data from hdata]
      exact hd

theorem Linked.sender {s s' r : Endpoint} {link : Bytes} (h : Linked sha256 s r link)
    (hpacks : s'.packs = s.packs) : Linked sha256 s' r link := by
  refine ⟨by rw [hpacks]; exact h.aligned, by rw [hpacks]; exact h.short, fun hc => ?_⟩
  rw [flight, hpacks]
  exact h.stream hc

end

end Vtrc
