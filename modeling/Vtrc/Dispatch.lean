import Vtrc.Endpoint
import Vtrc.FrameParser

/-! # The ready stage and the chunks of a stream

In the ready stage `process_data` first extracts every frame that a chunk completes and only then
runs the stage function, which pops, checks, parses and dispatches one unit after the other.  A
message that is not a unit closes the connection there; a malformed header raises out of the
extraction, before the stage function, and the read handler closes the connection.

`unitsIn` is what the bytes of a stream mean: the units of its complete frames, up to the first
message that is not one, whatever follows.  `dispatched_iff` says for which ways of cutting a
stream the connection dispatches exactly these: the chunk on which the parser raises must not
complete a unit. -/

namespace Vtrc

open Endpoint DefaultProtocol

namespace DataQueue

/-- The queue with the messages `ms` before its own. -/
def after (ms : List Bytes) (q : DataQueue) : DataQueue := { q with messages := ms ++ q.messages }

theorem processOne_after (P : SizePolicy) (ms : List Bytes) (q : DataQueue) :
    processOne P (q.after ms) = (processOne P q).map (Option.map (after ms)) := by
  obtain ⟨data, messages, limit⟩ := q
  change processOne P ⟨data, ms ++ messages, limit⟩ = _
  simp only [processOne]
  by_cases hpos : P.sizeLength data > 0
  swap
  · rw [if_neg hpos, if_neg hpos]
    rfl
  by_cases hlong : P.sizeLength data > P.maxLength
  · rw [if_pos hpos, if_pos hpos, if_pos hlong, if_pos hlong]
    rfl
  by_cases hlen : P.unpack data > limit
  · rw [if_pos hpos, if_pos hpos, if_neg hlong, if_neg hlong, if_pos hlen, if_pos hlen]
    rfl
  rw [if_pos hpos, if_pos hpos, if_neg hlong, if_neg hlong, if_neg hlen, if_neg hlen]
  split_ifs
  · rfl
  · simp only [Except.map, Option.map_some, after, List.append_assoc]
  · rfl

/-- The messages that are already there do not concern the parser. -/
theorem processLoop_after (P : SizePolicy) (ms : List Bytes) (n : ℕ) (q : DataQueue) :
    processLoop P n (q.after ms) =
      ((processLoop P n q).1.after ms, (processLoop P n q).2) := by
  induction n generalizing q with
  | zero => rfl
  | succ n ih =>
      rw [processLoop, processLoop, processOne_after]
      cases processOne P q with
      | error e => rfl
      | ok r =>
          cases r with
          | none => rfl
          | some q' => exact ih q'

theorem length_messages_processLoop (P : SizePolicy) (n : ℕ) (q : DataQueue) :
    q.messages.length ≤ (processLoop P n q).1.messages.length := by
  have hq : q = ({ q with messages := [] } : DataQueue).after q.messages := by
    simp [after]
  rw [hq, processLoop_after]
  simp [after]

theorem process_after (P : SizePolicy) (ms : List Bytes) (q : DataQueue) :
    process P (q.after ms) = ((process P q).1.after ms, (process P q).2) :=
  processLoop_after P ms _ q

end DataQueue

section
variable (sha256 : Bytes → Digest) (unit : Codec LowlevelUnit)

/-- The unit in a reverted message, if its hash is good and it parses. -/
def openUnit (h : HashKind) (mess : Bytes) : Option LowlevelUnit :=
  if h.size ≤ mess.length && h.checkDataHash sha256 (mess.drop h.size) mess then
    let u := unit.parse (mess.drop h.size)
    if u.1 then some u.2 else none
  else none

/-- The units in the bodies, from the state of the revertor on, up to the first body that is not
a unit. -/
def unitsOf (h : HashKind) : Transformer → List Bytes → List LowlevelUnit
  | _, [] => []
  | t, b :: bs =>
      match openUnit sha256 unit h (t.transform b).2 with
      | none => []
      | some llu => llu :: unitsOf h (t.transform b).1 bs

/-- The revertor after the bodies. -/
def revertAll (t : Transformer) (bs : List Bytes) : Transformer :=
  bs.foldl (fun t b => (t.transform b).1) t

/-- The units that the bytes `s` complete. -/
def unitsIn (p : DefaultProtocol) (s : Bytes) : List LowlevelUnit :=
  if s ≠ [] ∧ p.queue.messages.length < (p.feed s).1.queue.messages.length then
    unitsOf sha256 unit p.hashChecker p.revertor (p.feed s).1.queue.messages
  else []

/-- The parser raises on the bytes `s`. -/
def Raises (p : DefaultProtocol) (s : Bytes) : Prop := s ≠ [] ∧ (p.feed s).2 ≠ none

/-- The chunk on which the parser raises, if there is one, completes no unit. -/
def RaisesAlone (p : DefaultProtocol) (chunks : List Bytes) : Prop :=
  ∀ pre c post, chunks = pre ++ c :: post → ¬ Raises p pre.flatten →
    Raises p (pre.flatten ++ c) → unitsIn sha256 unit p (pre.flatten ++ c) =
      unitsIn sha256 unit p pre.flatten

/-- The chunks are read one after the other, as long as the connection reads. -/
def receiveAll (role : Role) (salts : Bytes × Bytes) : Endpoint → List Bytes → Endpoint
  | e, [] => e
  | e, c :: cs =>
      match e.recv sha256 unit role c salts with
      | none => e
      | some e' => receiveAll role salts e' cs

end

/-- A connection in the ready stage that reads. -/
structure Serving (e : Endpoint) : Prop where
  serving : e.serving = true
  reading : e.reading = true
  connClosed : e.connClosed = false
  todo : e.todo = []

/-! ### Bodies -/

section
variable {sha256 : Bytes → Digest} {unit : Codec LowlevelUnit}

/-- Further bodies count when all bodies before them are units. -/
theorem unitsOf_append (h : HashKind) (t : Transformer) (bs cs : List Bytes) :
    unitsOf sha256 unit h t (bs ++ cs) =
      if (unitsOf sha256 unit h t bs).length = bs.length then
        unitsOf sha256 unit h t bs ++ unitsOf sha256 unit h (revertAll t bs) cs
      else unitsOf sha256 unit h t bs := by
  induction bs generalizing t with
  | nil => rfl
  | cons b bs ih =>
      rw [List.cons_append, unitsOf, unitsOf]
      cases openUnit sha256 unit h (t.transform b).2 with
      | none => rfl
      | some llu =>
          simp only [ih, List.length_cons, Nat.add_right_cancel_iff]
          split_ifs <;> rfl

/-! ### The stage function -/

variable (sha256 unit) in
theorem popRaw_cons {e : Endpoint} {b : Bytes} {bs : List Bytes}
    (hq : e.protocol.queue.messages = b :: bs) :
    ∃ res, e.popRaw sha256 = some ({ e with
        protocol := e.protocol.popFront (e.protocol.revertor.transform b).1
        pops := e.pops ++ [⟨e.protocol.hashChecker, e.protocol.revertor, res⟩] }, res) ∧
      res.bind (fun d => let u := unit.parse d; if u.1 then some u.2 else none) =
        openUnit sha256 unit e.protocol.hashChecker (e.protocol.revertor.transform b).2 := by
  rw [Endpoint.popRaw, popRawMessage, hq]
  simp only [checkMessage, openUnit]
  generalize e.protocol.revertor.transform b = r
  by_cases hlen : e.protocol.hashChecker.size ≤ r.2.length
  · by_cases hcheck : e.protocol.hashChecker.checkDataHash sha256
        (r.2.drop e.protocol.hashChecker.size) r.2 = true
    · exact ⟨some (r.2.drop e.protocol.hashChecker.size), by simp [hlen, hcheck],
        by simp [hlen, hcheck]⟩
    · exact ⟨none, by simp [hcheck], by simp [hcheck]⟩
  · exact ⟨none, by simp [hlen], by simp [hlen]⟩

/-- The protocol after all messages have been served. -/
def served (p : DefaultProtocol) : DefaultProtocol :=
  { p with
    revertor := revertAll p.revertor p.queue.messages
    queue := { p.queue with messages := [] } }

theorem served_of_nil {p : DefaultProtocol} (h : p.queue.messages = []) : served p = p := by
  rw [served, h, revertAll, List.foldl_nil, ← h]

theorem serve_of_nil (n : ℕ) {e : Endpoint} (h : e.protocol.queue.messages = []) :
    serve sha256 unit n e = e := by
  cases n with
  | zero => rfl
  | succ n =>
      have hnone : e.popRaw sha256 = none := by
        rw [Endpoint.popRaw, popRawMessage, h]
        rfl
      rw [serve, hnone]

variable (sha256 unit) in
/-- **The loop of the ready stage** dispatches the units of the queue; a message that is not a unit
closes the connection, otherwise the queue is empty afterwards. -/
theorem serve_units (n : ℕ) (e : Endpoint) (hn : e.protocol.queue.messages.length ≤ n) :
    (serve sha256 unit n e).dispatched = e.dispatched ++ unitsOf sha256 unit e.protocol.hashChecker
        e.protocol.revertor e.protocol.queue.messages ∧
      ((unitsOf sha256 unit e.protocol.hashChecker e.protocol.revertor
          e.protocol.queue.messages).length = e.protocol.queue.messages.length →
        (serve sha256 unit n e).protocol = served e.protocol ∧
          (Serving e → Serving (serve sha256 unit n e))) ∧
      ((unitsOf sha256 unit e.protocol.hashChecker e.protocol.revertor
          e.protocol.queue.messages).length ≠ e.protocol.queue.messages.length →
        (serve sha256 unit n e).connClosed = true) := by
  induction n generalizing e with
  | zero =>
      have hnil : e.protocol.queue.messages = [] := List.length_eq_zero_iff.mp (by omega)
      rw [serve_of_nil 0 hnil, served_of_nil hnil, hnil]
      simp [unitsOf]
  | succ n ih =>
      cases hq : e.protocol.queue.messages with
      | nil =>
          rw [serve_of_nil _ hq, served_of_nil hq]
          simp [unitsOf]
      | cons b bs =>
          obtain ⟨res, hpop, hres⟩ := popRaw_cons sha256 unit hq
          rw [serve, hpop, unitsOf]
          simp only [hres]
          cases openUnit sha256 unit e.protocol.hashChecker (e.protocol.revertor.transform b).2 with
          | none => simp
          | some llu =>
              simp only
              rw [hq, List.length_cons] at hn
              have htail : (e.protocol.popFront (e.protocol.revertor.transform b).1).queue.messages =
                  bs := by
                rw [popFront, hq]
                rfl
              obtain ⟨hdisp, hall, hbad⟩ := ih { e with
                protocol := e.protocol.popFront (e.protocol.revertor.transform b).1
                pops := e.pops ++ [⟨e.protocol.hashChecker, e.protocol.revertor, res⟩]
                dispatched := e.dispatched ++ [llu] } (by rw [htail]; omega)
              simp only [htail] at hdisp hall hbad
              simp only [List.length_cons, ne_eq, Nat.add_right_cancel_iff]
              refine ⟨?_, fun hlen => ?_, hbad⟩
              · rw [hdisp, List.append_assoc]
                rfl
              · obtain ⟨hprot, hserv⟩ := hall hlen
                refine ⟨?_, fun h => hserv ⟨h.serving, h.reading, h.connClosed, h.todo⟩⟩
                rw [hprot, served, served, htail, hq]
                rfl

/-! ### Bytes that come in two parts -/

section
variable {p : DefaultProtocol} (hfit : p.queue.Fits sizePolicy)
include hfit

theorem feed_append (a b : Bytes) : p.feed (a ++ b) = (p.feed a).1.feed b := by
  have happ : (p.queue.append a).append b = p.queue.append (a ++ b) := by
    simp [DataQueue.append]
  have h := DataQueue.process_append (varintPolicy_headerSpec 8) (q := p.queue.append a) hfit b
  rw [happ] at h
  simp only [DefaultProtocol.feed]
  exact congrArg₂ Prod.mk (congrArg (fun q => { p with queue := q }) (congrArg Prod.fst h))
    (congrArg Prod.snd h)

theorem fits_feed (a : Bytes) : (p.feed a).1.queue.Fits sizePolicy := by
  rw [DataQueue.Fits, show (p.feed a).1.queue.maxValidLength = p.queue.maxValidLength from
    DataQueue.processLoop_maxValidLength _ _ _]
  exact hfit

theorem feed_raised {c : Bytes} (hr : (p.feed c).2 ≠ none) (r : Bytes) :
    (p.feed (c ++ r)).2 ≠ none ∧
      (p.feed (c ++ r)).1.queue.messages = (p.feed c).1.queue.messages := by
  obtain ⟨err, herr⟩ := Option.ne_none_iff_exists'.mp hr
  have hP : sizePolicy.HeaderSpec Varint.value := varintPolicy_headerSpec 8
  obtain ⟨hmax, hstop⟩ := DataQueue.process_stopped (q := p.queue.append c) hfit
  rw [show (DataQueue.process sizePolicy (p.queue.append c)).2 = some err from herr] at hstop
  have hfit' := fits_feed hfit c
  have hagain := DataQueue.process_of_stopped (e := some err) (by exact hfit')
    (DataQueue.processOne_append_error hP hfit' hstop r)
  rw [feed_append hfit]
  simp only [DefaultProtocol.feed] at hagain ⊢
  rw [hagain]
  exact ⟨by simp, rfl⟩

end

/-- The served messages do not concern the parser. -/
theorem feed_served (p : DefaultProtocol) (r : Bytes) :
    (p.feed r).2 = ((served p).feed r).2 ∧ (p.feed r).1.queue.messages =
      p.queue.messages ++ ((served p).feed r).1.queue.messages := by
  have hq : p.queue.append r = ((served p).queue.append r).after p.queue.messages := by
    simp [DataQueue.append, DataQueue.after, served]
  have h := DataQueue.process_after sizePolicy p.queue.messages ((served p).queue.append r)
  rw [← hq] at h
  simp only [DefaultProtocol.feed]
  rw [h]
  exact ⟨rfl, rfl⟩

theorem length_messages_feed (p : DefaultProtocol) (c : Bytes) :
    p.queue.messages.length ≤ (p.feed c).1.queue.messages.length :=
  DataQueue.length_messages_processLoop sizePolicy _ (p.queue.append c)

@[simp] theorem unitsIn_nil (p : DefaultProtocol) : unitsIn sha256 unit p [] = [] := by
  simp [unitsIn]

theorem not_raises_nil (p : DefaultProtocol) : ¬ Raises p [] := fun h => h.1 rfl

theorem unitsIn_raised {p : DefaultProtocol} (hfit : p.queue.Fits sizePolicy) {c : Bytes}
    (hc : c ≠ []) (hr : (p.feed c).2 ≠ none) (r : Bytes) :
    unitsIn sha256 unit p (c ++ r) = unitsIn sha256 unit p c := by
  rw [unitsIn, unitsIn, (feed_raised hfit hr r).2]
  simp [hc, DefaultProtocol.feed]

theorem unitsIn_idle {p : DefaultProtocol} (hfit : p.queue.Fits sizePolicy) {c : Bytes}
    (hidle : (p.feed c).1.queue.messages.length = p.queue.messages.length) (r : Bytes) :
    unitsIn sha256 unit p (c ++ r) = unitsIn sha256 unit (p.feed c).1 r := by
  rcases eq_or_ne r [] with rfl | hr
  · rw [List.append_nil, unitsIn_nil, unitsIn, if_neg]
    omega
  · rw [unitsIn, unitsIn, feed_append hfit, hidle]
    simp [hr, DefaultProtocol.feed]

theorem unitsIn_served {p : DefaultProtocol} (hfit : p.queue.Fits sizePolicy) {c : Bytes}
    (hc : c ≠ []) (hnew : p.queue.messages.length < (p.feed c).1.queue.messages.length)
    (hall : (unitsOf sha256 unit p.hashChecker p.revertor (p.feed c).1.queue.messages).length =
      (p.feed c).1.queue.messages.length) (r : Bytes) :
    unitsIn sha256 unit p (c ++ r) =
      unitsOf sha256 unit p.hashChecker p.revertor (p.feed c).1.queue.messages ++
        unitsIn sha256 unit (served (p.feed c).1) r := by
  rcases eq_or_ne r [] with rfl | hr
  · rw [List.append_nil, unitsIn_nil, List.append_nil, unitsIn, if_pos ⟨hc, hnew⟩]
  · obtain ⟨_, hms⟩ := feed_served (p.feed c).1 r
    have hpos : p.queue.messages.length < (p.feed (c ++ r)).1.queue.messages.length := by
      rw [feed_append hfit, hms, List.length_append]
      omega
    rw [unitsIn, if_pos ⟨by simp [hc], hpos⟩, feed_append hfit, hms, unitsOf_append, if_pos hall]
    congr 1
    rw [unitsIn]
    split_ifs with hcond
    · rfl
    · have hnil : ((served (p.feed c).1).feed r).1.queue.messages = [] := by
        refine List.length_eq_zero_iff.mp (Nat.le_zero.mp (Nat.le_of_not_lt (fun h => hcond ⟨hr, ?_⟩)))
        exact h
      rw [hnil, unitsOf]

theorem unitsIn_closed {p : DefaultProtocol} (hfit : p.queue.Fits sizePolicy) {c : Bytes}
    (hc : c ≠ []) (hnew : p.queue.messages.length < (p.feed c).1.queue.messages.length)
    (hbad : (unitsOf sha256 unit p.hashChecker p.revertor (p.feed c).1.queue.messages).length ≠
      (p.feed c).1.queue.messages.length) (r : Bytes) :
    unitsIn sha256 unit p (c ++ r) =
      unitsOf sha256 unit p.hashChecker p.revertor (p.feed c).1.queue.messages := by
  obtain ⟨_, hms⟩ := feed_served (p.feed c).1 r
  have hpos : p.queue.messages.length < (p.feed (c ++ r)).1.queue.messages.length := by
    rw [feed_append hfit, hms, List.length_append]
    omega
  rw [unitsIn, if_pos ⟨by simp [hc], hpos⟩, feed_append hfit, hms, unitsOf_append, if_neg hbad]

/-- After a chunk on which the parser does not raise, whether it raises is up to the rest. -/
theorem raises_append {p : DefaultProtocol} (hfit : p.queue.Fits sizePolicy) {c : Bytes}
    (hc : ¬ Raises p c) (hne : c ≠ []) (r : Bytes) :
    Raises p (c ++ r) ↔ Raises (p.feed c).1 r := by
  rcases eq_or_ne r [] with rfl | hr
  · rw [List.append_nil]
    exact iff_of_false hc (not_raises_nil _)
  · rw [Raises, Raises, feed_append hfit]
    simp [hr, hne]

theorem raises_served (p : DefaultProtocol) (r : Bytes) : Raises (served p) r ↔ Raises p r := by
  rw [Raises, Raises, (feed_served p r).1]

/-! ### Chunks -/

theorem raisesAlone_cons (p : DefaultProtocol) (c : Bytes) (cs : List Bytes) :
    RaisesAlone sha256 unit p (c :: cs) ↔
      (Raises p c → unitsIn sha256 unit p c = []) ∧
        ∀ pre c' post, cs = pre ++ c' :: post → ¬ Raises p (c ++ pre.flatten) →
          Raises p (c ++ (pre.flatten ++ c')) → unitsIn sha256 unit p (c ++ (pre.flatten ++ c')) =
            unitsIn sha256 unit p (c ++ pre.flatten) := by
  constructor
  · intro h
    refine ⟨fun hr => ?_, fun pre c' post hcs hno hr => ?_⟩
    · have := h [] c cs rfl (not_raises_nil p) (by simpa using hr)
      simpa using this
    · have := h (c :: pre) c' post (by rw [hcs]; rfl) (by simpa using hno) (by simpa using hr)
      simpa using this
  · rintro ⟨hfirst, hrest⟩ pre c' post hcs hno hr
    cases pre with
    | nil =>
        obtain ⟨rfl, _⟩ := List.cons.inj hcs
        simpa using hfirst (by simpa using hr)
    | cons c₀ pre =>
        obtain ⟨rfl, htail⟩ := List.cons.inj hcs
        simpa using hrest pre c' post htail (by simpa using hno) (by simpa using hr)

/-- A chunk after which the connection goes on with the protocol `p'`. -/
theorem raisesAlone_step {p : DefaultProtocol} (p' : DefaultProtocol) {c : Bytes}
    (us : List LowlevelUnit) (hno : ¬ Raises p c)
    (hunits : ∀ r, unitsIn sha256 unit p (c ++ r) = us ++ unitsIn sha256 unit p' r)
    (hraises : ∀ r, Raises p (c ++ r) ↔ Raises p' r) (cs : List Bytes) :
    RaisesAlone sha256 unit p (c :: cs) ↔ RaisesAlone sha256 unit p' cs := by
  rw [raisesAlone_cons]
  simp only [hunits, hraises, List.append_cancel_left_eq]
  exact ⟨fun h => h.2, fun h => ⟨fun hr => absurd hr hno, h⟩⟩

variable (sha256 unit) in
theorem recv_serving (role : Role) (salts : Bytes × Bytes) {e : Endpoint} (h : Serving e)
    {c : Bytes} (hc : c ≠ []) :
    e.recv sha256 unit role c salts = some (
      if (e.protocol.feed c).2 ≠ none then
        { e.setProtocol (e.protocol.feed c).1 with reading := false, connClosed := true }
      else if e.protocol.queue.messages.length < (e.protocol.feed c).1.queue.messages.length then
        serve sha256 unit (e.protocol.feed c).1.queueSize (e.setProtocol (e.protocol.feed c).1)
      else e.setProtocol (e.protocol.feed c).1) := by
  have hpos : c.length > 0 := List.length_pos_of_ne_nil hc
  rw [Endpoint.recv, h.reading, h.connClosed, h.todo, DefaultProtocol.processData, if_pos hpos]
  simp only [h.serving]
  cases (e.protocol.feed c).2 with
  | some err => rfl
  | none =>
      simp only [ne_eq, not_true_eq_false, if_false]
      split_ifs <;> simp_all

theorem receiveAll_closed {role : Role} {salts : Bytes × Bytes} {e : Endpoint}
    (h : e.connClosed = true) (cs : List Bytes) : receiveAll sha256 unit role salts e cs = e := by
  cases cs with
  | nil => rfl
  | cons c cs =>
      have hnone : e.recv sha256 unit role c salts = none := by
        rw [Endpoint.recv, h]
        simp
      rw [receiveAll, hnone]

end

/-- **Dispatch and chunks.**  A connection in the ready stage dispatches the units of a stream,
each of its complete frames up to the first message that is not a unit, if and only if the chunk on
which the parser raises completes none of them. -/
theorem dispatched_iff (sha256 : Bytes → Digest) (unit : Codec LowlevelUnit) (role : Role)
    (salts : Bytes × Bytes) (e : Endpoint) (h : Serving e)
    (hmax : e.protocol.queue.maxValidLength < 2 ^ 32) (chunks : List Bytes) :
    (receiveAll sha256 unit role salts e chunks).dispatched =
        e.dispatched ++ unitsIn sha256 unit e.protocol chunks.flatten ↔
      RaisesAlone sha256 unit e.protocol chunks := by
  induction chunks generalizing e with
  | nil => simp [receiveAll, RaisesAlone]
  | cons c cs ih =>
      have hfit : e.protocol.queue.Fits sizePolicy := by
        have hlen : sizePolicy.maxLength = 10 := by decide
        have hbits : sizePolicy.bits = 64 := rfl
        rw [DataQueue.Fits, hlen, hbits]
        omega
      rw [List.flatten_cons]
      rcases eq_or_ne c [] with rfl | hc
      · have hrecv : e.recv sha256 unit role [] salts = some e := by
          rw [Endpoint.recv, h.reading, h.connClosed, h.todo]
          rfl
        rw [receiveAll, hrecv, raisesAlone_step e.protocol [] (not_raises_nil _)
          (fun r => rfl) (fun r => Iff.rfl)]
        exact ih e h hmax
      have hrecv := recv_serving sha256 unit role salts h hc
      have hlimit : (e.protocol.feed c).1.queue.maxValidLength < 2 ^ 32 :=
        lt_of_eq_of_lt (DataQueue.processLoop_maxValidLength _ _ _) hmax
      by_cases hr : (e.protocol.feed c).2 ≠ none
      · rw [if_pos hr] at hrecv
        rw [receiveAll, hrecv, raisesAlone_cons]
        simp only
        rw [receiveAll_closed rfl, unitsIn_raised hfit hc hr]
        refine ⟨fun hd => ⟨fun _ => List.self_eq_append_right.mp hd, fun pre c' post _ hno => ?_⟩,
          fun hd => ?_⟩
        · exact absurd ⟨by simp [hc], (feed_raised hfit hr pre.flatten).1⟩ hno
        · rw [hd.1 ⟨hc, hr⟩, List.append_nil]
          rfl
      have hno : ¬ Raises e.protocol c := fun hraises => hr hraises.2
      rw [if_neg hr] at hrecv
      by_cases hnew : e.protocol.queue.messages.length < (e.protocol.feed c).1.queue.messages.length
      · rw [if_pos hnew] at hrecv
        rw [receiveAll, hrecv]
        obtain ⟨hdisp, hall, hbad⟩ := serve_units sha256 unit
          (e.protocol.feed c).1.queueSize (e.setProtocol (e.protocol.feed c).1) (le_refl _)
        by_cases hunits : (unitsOf sha256 unit e.protocol.hashChecker e.protocol.revertor
            (e.protocol.feed c).1.queue.messages).length =
              (e.protocol.feed c).1.queue.messages.length
        · obtain ⟨hprot, hserv⟩ := hall hunits
          have hnext := ih _ (hserv ⟨h.serving, h.reading, h.connClosed, h.todo⟩)
            (by rw [hprot]; exact hlimit)
          rw [hdisp, hprot, List.append_assoc] at hnext
          rw [raisesAlone_step _ _ hno (unitsIn_served hfit hc hnew hunits)
            (fun r => (raises_append hfit hno hc r).trans (raises_served _ r).symm),
            unitsIn_served hfit hc hnew hunits]
          exact hnext
        · simp only
          rw [receiveAll_closed (hbad hunits), raisesAlone_cons]
          simp only [unitsIn_closed hfit hc hnew hunits]
          exact iff_of_true hdisp ⟨fun hraises => absurd hraises hno, fun _ _ _ _ _ _ => trivial⟩
      · have hidle : (e.protocol.feed c).1.queue.messages.length = e.protocol.queue.messages.length :=
          Nat.le_antisymm (Nat.le_of_not_lt hnew) (length_messages_feed e.protocol c)
        rw [if_neg hnew] at hrecv
        rw [receiveAll, hrecv, raisesAlone_step _ [] hno (unitsIn_idle hfit hidle)
          (raises_append hfit hno hc), unitsIn_idle hfit hidle]
        exact ih (e.setProtocol (e.protocol.feed c).1)
          ⟨h.serving, h.reading, h.connClosed, h.todo⟩ hlimit

/-- A server connection in the ready stage, of a client that has selected no hash and no
transformer. -/
def readyServer : Endpoint where
  protocol := DefaultProtocol.create.configure .defaults
  serving := true
  stage := .clientSelection
  ready := true
  layerReady := true
  sessionOpts := .defaults
  reading := true

/-- The wire bytes of a call with id 103. -/
def callCodec : Codec LowlevelUnit where
  serialize _ := [0x08, 0x67, 0x1a, 0x02, 0x08, 0x01]
  parse b :=
    if b = [0x08, 0x67, 0x1a, 0x02, 0x08, 0x01] then
      (true, { id := 103, messageType := .clientCall })
    else (false, {})

/-- The frame of the call in one chunk, a header above the limit in the next: the call is
dispatched. -/
theorem dispatched_two_chunks :
    let sha256 : Bytes → Digest := fun _ => ⟨List.replicate 32 0, rfl⟩
    let chunks : List Bytes := [[0x06, 0x08, 0x67, 0x1a, 0x02, 0x08, 0x01], [0x81, 0x80, 0x04]]
    (receiveAll sha256 callCodec ⟨[], fun _ _ _ => []⟩ ([], []) readyServer chunks).dispatched =
        readyServer.dispatched ++ unitsIn sha256 callCodec readyServer.protocol chunks.flatten ∧
      (unitsIn sha256 callCodec readyServer.protocol chunks.flatten).map LowlevelUnit.id = [103] := by
  intro sha256 chunks
  refine ⟨(dispatched_iff sha256 callCodec _ ([], []) readyServer ⟨rfl, rfl, rfl, rfl⟩ (by decide)
    chunks).mpr ?_, by decide +kernel⟩
  rintro (_ | ⟨c₁, _ | ⟨c₂, pre⟩⟩) c post hsplit hno hraises
  · obtain ⟨rfl, _⟩ := List.cons.inj hsplit
    exact absurd hraises.2 (by decide +kernel)
  · obtain ⟨rfl, htail⟩ := List.cons.inj hsplit
    obtain ⟨rfl, _⟩ := List.cons.inj htail
    decide +kernel
  · simp [chunks] at hsplit

/-- The same bytes in one chunk: the call is lost. -/
theorem dispatched_one_chunk :
    let sha256 : Bytes → Digest := fun _ => ⟨List.replicate 32 0, rfl⟩
    let role : Role := ⟨[], fun _ _ _ => []⟩
    let chunks : List Bytes := [[0x06, 0x08, 0x67, 0x1a, 0x02, 0x08, 0x01], [0x81, 0x80, 0x04]]
    (receiveAll sha256 callCodec role ([], []) readyServer chunks).dispatched.map LowlevelUnit.id =
        [103] ∧
      (receiveAll sha256 callCodec role ([], []) readyServer [chunks.flatten]).dispatched = [] := by
  decide +kernel

end Vtrc
