import Vtrc.Messages
import Vtrc.Lib.Machine

/-! # The write queue of a transport (`stream-impl.h`)

`write` posts a holder to a strand; `write_impl` runs on the strand, packs the message, puts the
holder into `write_queue_`, runs its closure unless the closure is to wait for the sending, and
submits the message when the queue was empty.  `write_handler`, on the same strand, is called with
the number of bytes that the stream has taken: it submits the rest, or, when nothing is left, runs
the closure that waits for the sending, removes the holder and submits the next one.

A state holds the queues, the submissions that have not completed, and a trace of everything that
happened to the messages; the messages are numbered in the order of their posting.  The protocol
that packs is a parameter: its state, `pack_message`, and what a closure does to the state.  A post
from inside a closure is a post right after the step in which the closure runs.

The trace is no more than a record: `Logged` says that the protocol is where the packs and closures
of the trace lead it (`replay`), that every packed message is what `pack_message` made of it there,
and that every submission under way is in it.

`write_queue_correct` is about every run without errors on a transport that is not closed. -/

namespace Vtrc

/-- A call of `write`. -/
structure WriteRequest (κ : Type) where
  data : Bytes
  closure : Option κ := none
  onSend : Bool := false
deriving DecidableEq, Repr

/-- `message_holder`, with the number of the message. -/
structure MessageHolder (κ : Type) where
  index : ℕ
  message : Bytes
  closure : Option κ
  onSend : Bool
deriving DecidableEq, Repr

/-- An `async_write_some` that has not completed: its buffer and its `handler_params`. -/
structure HandlerParams where
  index : ℕ
  data : Bytes
  length : ℕ
  total : ℕ
deriving DecidableEq, Repr

/-- What happens to the message with the given number. -/
inductive WriteTrace where
  | packed (i : ℕ) (message result : Bytes)
  | ran (i : ℕ)
  | submitted (i : ℕ) (data : Bytes)
  | acked (i : ℕ) (data : Bytes)
  | failed (i : ℕ)
deriving DecidableEq, Repr

/-- `transport_impl`.  `requests` are all calls of `write` so far. -/
structure Transport (σ κ : Type) where
  protocol : σ
  closed : Bool := false
  requests : List (WriteRequest κ) := []
  strand : List (MessageHolder κ) := []
  writeQueue : List (MessageHolder κ) := []
  outstanding : List HandlerParams := []
  trace : List WriteTrace := []

/-- A message is written, the strand runs `write_impl`, the submission number `k` completes with `n`
bytes or with an error, the transport is closed. -/
inductive TransportEvent (κ : Type) where
  | write (r : WriteRequest κ)
  | writeImpl
  | written (k n : ℕ)
  | writeError (k : ℕ)
  | close

namespace Transport

variable {σ κ : Type}

/-- `async_write( data, length, total )`. -/
def asyncWrite (s : Transport σ κ) (i : ℕ) (data : Bytes) (length total : ℕ) : Transport σ κ :=
  if !s.closed then
    { s with
      outstanding := s.outstanding ++ [⟨i, data, length, total⟩]
      trace := s.trace ++ [.submitted i (data.take length)] }
  else s

/-- `async_write( )`: the front of the queue from its beginning. -/
def asyncWriteFront (s : Transport σ κ) : Transport σ κ :=
  match s.writeQueue with
  | [] => s
  | top :: _ => s.asyncWrite top.index top.message top.message.length 0

section
variable (pack : σ → Bytes → σ × Bytes) (act : κ → σ → σ)

/-- The closure of a message runs. -/
def runClosure (s : Transport σ κ) (i : ℕ) : Option κ → Transport σ κ
  | none => s
  | some k => { s with protocol := act k s.protocol, trace := s.trace ++ [.ran i] }

def write (s : Transport σ κ) (r : WriteRequest κ) : Transport σ κ :=
  { s with
    requests := s.requests ++ [r]
    strand := s.strand ++ [⟨s.requests.length, r.data, r.closure, r.onSend⟩] }

def writeImpl (s : Transport σ κ) : Option (Transport σ κ) :=
  match s.strand with
  | [] => none
  | h :: strand =>
      let empty := s.writeQueue.isEmpty
      let r := pack s.protocol h.message
      let s := { s with
        strand := strand
        protocol := r.1
        writeQueue := s.writeQueue ++ [{ h with message := r.2 }]
        trace := s.trace ++ [.packed h.index h.message r.2] }
      let s := if !h.onSend then s.runClosure act h.index h.closure else s
      some (if empty then s.asyncWriteFront else s)

/-- `write_handler` after a write of `n` bytes; there is a front, or the code is undefined. -/
def writeHandler (s : Transport σ κ) (p : HandlerParams) (n : ℕ) : Option (Transport σ κ) :=
  match s.writeQueue with
  | [] => none
  | top :: queue =>
      if n < p.length then
        let total := p.total + n
        some (s.asyncWrite top.index (top.message.drop total) (top.message.length - total) total)
      else
        let s := if top.onSend then s.runClosure act top.index top.closure else s
        let s := { s with writeQueue := queue }
        some (if queue.isEmpty then s else s.asyncWriteFront)

/-- `write_handler` with an error. -/
def writeHandlerError (s : Transport σ κ) : Option (Transport σ κ) :=
  match s.writeQueue with
  | [] => none
  | top :: _ =>
      let s := if top.onSend then s.runClosure act top.index top.closure else s
      some { s with trace := s.trace ++ [.failed top.index] }

def step (s : Transport σ κ) : TransportEvent κ → Option (Transport σ κ)
  | .write r => some (s.write r)
  | .writeImpl => s.writeImpl pack act
  | .written k n =>
      match s.outstanding[k]? with
      | none => none
      | some p =>
          if n ≤ p.length then
            writeHandler act { s with
              outstanding := s.outstanding.eraseIdx k
              trace := s.trace ++ [.acked p.index (p.data.take n)] } p n
          else none
  | .writeError k =>
      match s.outstanding[k]? with
      | none => none
      | some _ => writeHandlerError act { s with outstanding := s.outstanding.eraseIdx k }
  | .close => some { s with closed := true }

end

end Transport

/-- A transport over the protocol state `init`. -/
def transport {σ κ : Type} (pack : σ → Bytes → σ × Bytes) (act : κ → σ → σ) (init : σ) :
    Machine (Transport σ κ) (TransportEvent κ) where
  init := { protocol := init }
  step := Transport.step pack act

/-- No error and no closing. -/
def TransportEvent.Plain {κ : Type} : TransportEvent κ → Prop
  | .writeError _ | .close => False
  | _ => True

/-! ### The trace -/

namespace WriteTrace

/-- The calls of `pack_message`: number and argument. -/
def packs (t : List WriteTrace) : List (ℕ × Bytes) :=
  t.filterMap (fun | packed i message _ => some (i, message) | _ => none)

/-- The packed messages. -/
def results (t : List WriteTrace) : List Bytes :=
  t.filterMap (fun | packed _ _ result => some result | _ => none)

/-- The numbers of the messages whose closures ran. -/
def runs (t : List WriteTrace) : List ℕ := t.filterMap (fun | ran i => some i | _ => none)

/-- The numbers of the messages of which something was submitted. -/
def submits (t : List WriteTrace) : List ℕ :=
  t.filterMap (fun | submitted i _ => some i | _ => none)

/-- The acknowledged bytes. -/
def ackedBytes (t : List WriteTrace) : Bytes := t.flatMap (fun | acked _ data => data | _ => [])

/-- The acknowledged bytes of one message. -/
def ackedOf (i : ℕ) (t : List WriteTrace) : Bytes :=
  t.flatMap (fun | acked j data => if j = i then data else [] | _ => [])

section
variable (t t' : List WriteTrace) (i : ℕ)

@[simp] theorem packs_append : packs (t ++ t') = packs t ++ packs t' := List.filterMap_append
@[simp] theorem results_append : results (t ++ t') = results t ++ results t' :=
  List.filterMap_append
@[simp] theorem runs_append : runs (t ++ t') = runs t ++ runs t' := List.filterMap_append
@[simp] theorem submits_append : submits (t ++ t') = submits t ++ submits t' :=
  List.filterMap_append
@[simp] theorem ackedBytes_append : ackedBytes (t ++ t') = ackedBytes t ++ ackedBytes t' :=
  List.flatMap_append
@[simp] theorem ackedOf_append : ackedOf i (t ++ t') = ackedOf i t ++ ackedOf i t' :=
  List.flatMap_append

theorem packs_length : (packs t).length = (results t).length := by
  induction t with
  | nil => rfl
  | cons e t ih => cases e <;> simpa [packs, results] using ih

end

end WriteTrace

open WriteTrace

namespace Transport

variable {σ κ : Type}

/-- The moment for the closure of the message `i`, after the trace `l`: the message has just been
packed; or, when the closure waits for the sending, all of it has been acknowledged and nothing of
a later message has been submitted. -/
def Timely (requests : List (WriteRequest κ)) (l : List WriteTrace) (i : ℕ) : Prop :=
  ∃ r, requests[i]? = some r ∧ r.closure.isSome ∧
    if r.onSend then (results l)[i]? = some (ackedOf i l) ∧ ∀ j ∈ submits l, j ≤ i
    else ∃ l' result, l = l' ++ [.packed i r.data result]

/-- The closure of the message `i` has had its moment: the message is packed, or has left the
queue. -/
def due (s : Transport σ κ) (r : WriteRequest κ) (i : ℕ) : Bool :=
  if r.onSend then decide (i + s.writeQueue.length < (results s.trace).length)
  else decide (i < (results s.trace).length)

section
variable (pack : σ → Bytes → σ × Bytes) (act : κ → σ → σ)

/-- What an entry of the trace does to the protocol: a message is packed, or the closure of a
message runs. -/
def replayEntry (requests : List (WriteRequest κ)) (p : σ) : WriteTrace → σ
  | .packed _ message _ => (pack p message).1
  | .ran i =>
      match requests[i]?.bind WriteRequest.closure with
      | some k => act k p
      | none => p
  | _ => p

/-- The protocol after the entries of a trace. -/
def replay (requests : List (WriteRequest κ)) (p : σ) (t : List WriteTrace) : σ :=
  t.foldl (replayEntry pack act requests) p

/-- What the write queue guarantees on a transport that started with the protocol `init`.  One
submission is under way when the queue is not empty, and none otherwise; the acknowledged bytes are
a beginning of the packed messages, and all of them when the queue is empty; `pack_message` has
been called for the first messages in the order of their posting, once for each, with the protocol
as the earlier packs and closures left it, and the others are still to come; a closure has run once
when its moment has come, not at all before, and at that moment. -/
structure WriteCorrect (init : σ) (s : Transport σ κ) : Prop where
  outstanding : s.outstanding.length = if s.writeQueue = [] then 0 else 1
  acked : ackedBytes s.trace <+: (results s.trace).flatten
  drained : s.writeQueue = [] → ackedBytes s.trace = (results s.trace).flatten
  packed_once : packs s.trace ++ s.strand.map (fun h => (h.index, h.message)) =
    s.requests.zipIdx.map (fun r => (r.2, r.1.data))
  ran_once : ∀ i r, s.requests[i]? = some r →
    (runs s.trace).count i = if r.closure.isSome && s.due r i then 1 else 0
  timely : ∀ l i rest, s.trace = l ++ .ran i :: rest → Timely s.requests l i
  packed_result : ∀ l i message result rest, s.trace = l ++ .packed i message result :: rest →
    result = (pack (replay pack act s.requests init l) message).2
  protocol : s.protocol = replay pack act s.requests init s.trace
  handed : ∀ q ∈ s.outstanding, .submitted q.index (q.data.take q.length) ∈ s.trace

/-! ### The record -/

/-- The trace is a record of what happened: the holders have the closures of their messages, the
packed messages are those of `pack_message` where the trace has led the protocol, which stands at
the end of it, and every submission that is under way is in it. -/
structure Logged (init : σ) (s : Transport σ κ) : Prop where
  held : ∀ h ∈ s.strand ++ s.writeQueue, ∃ r, s.requests[h.index]? = some r ∧ r.closure = h.closure
  known : ∀ i, .ran i ∈ s.trace → i < s.requests.length
  packed_result : ∀ l i message result rest, s.trace = l ++ .packed i message result :: rest →
    result = (pack (replay pack act s.requests init l) message).2
  protocol : s.protocol = replay pack act s.requests init s.trace
  handed : ∀ q ∈ s.outstanding, .submitted q.index (q.data.take q.length) ∈ s.trace

end

section
variable {pack : σ → Bytes → σ × Bytes} {act : κ → σ → σ} {init : σ}

theorem replay_snoc (requests : List (WriteRequest κ)) (p : σ) (t : List WriteTrace)
    (e : WriteTrace) : replay pack act requests p (t ++ [e]) =
      replayEntry pack act requests (replay pack act requests p t) e := by
  rw [replay, List.foldl_append]
  rfl

/-- Later requests do not concern a trace whose closures are those of earlier ones. -/
theorem replay_requests_append {requests : List (WriteRequest κ)} {t : List WriteTrace}
    (h : ∀ i, .ran i ∈ t → i < requests.length) (rs : List (WriteRequest κ)) (p : σ) :
    replay pack act (requests ++ rs) p t = replay pack act requests p t := by
  induction t generalizing p with
  | nil => rfl
  | cons e t ih =>
      have hentry : replayEntry pack act (requests ++ rs) p e =
          replayEntry pack act requests p e := by
        cases e with
        | ran i =>
            rw [replayEntry, replayEntry,
              List.getElem?_append_left (h i List.mem_cons_self)]
        | packed | submitted | acked | failed => rfl
      change replay pack act (requests ++ rs) (replayEntry pack act (requests ++ rs) p e) t =
        replay pack act requests (replayEntry pack act requests p e) t
      rw [hentry]
      exact ih (fun i hi => h i (List.mem_cons_of_mem _ hi)) _

theorem split_snoc {α : Type} {t l rest : List α} {e x : α} (h : t ++ [e] = l ++ x :: rest) :
    (t = l ∧ e = x) ∨ ∃ rest', t = l ++ x :: rest' := by
  rcases List.eq_nil_or_concat rest with rfl | ⟨rest', e', rfl⟩
  · obtain ⟨ht, he⟩ := List.append_inj' h rfl
    exact Or.inl ⟨ht, List.singleton_inj.mp he⟩
  · have hsplit : t ++ [e] = (l ++ x :: rest') ++ [e'] := by
      rw [h]
      simp
    exact Or.inr ⟨rest', (List.append_inj' hsplit rfl).1⟩

theorem getElem?_of_append {α : Type} {l m : List α} {i : ℕ} {x : α} (h : l[i]? = some x) :
    (l ++ m)[i]? = some x := by
  obtain ⟨hlt, _⟩ := List.getElem?_eq_some_iff.mp h
  rw [List.getElem?_append_left hlt]
  exact h

theorem Logged.entry {s : Transport σ κ} (h : s.Logged pack act init) (e : WriteTrace)
    (hran : ∀ i, e = .ran i → i < s.requests.length)
    (hpacked : ∀ i message result, e = .packed i message result →
      result = (pack s.protocol message).2) :
    Logged pack act init { s with
      protocol := replayEntry pack act s.requests s.protocol e
      trace := s.trace ++ [e] } := by
  refine ⟨h.held, ?_, ?_, ?_, fun q hq => List.mem_append_left _ (h.handed q hq)⟩
  · intro i hi
    rcases List.mem_append.mp hi with hi | hi
    · exact h.known i hi
    · exact hran i (List.mem_singleton.mp hi).symm
  · intro l i message result rest hsplit
    rcases split_snoc hsplit with ⟨rfl, he⟩ | ⟨rest', ht⟩
    · rw [← h.protocol]
      exact hpacked i message result he
    · exact h.packed_result l i message result rest' ht
  · rw [replay_snoc, ← h.protocol]

theorem Logged.requeue {s : Transport σ κ} (h : s.Logged pack act init)
    {strand queue : List (MessageHolder κ)} {outstanding : List HandlerParams}
    (hheld : ∀ m ∈ strand ++ queue, ∃ x ∈ s.strand ++ s.writeQueue,
      x.index = m.index ∧ x.closure = m.closure)
    (hout : ∀ q ∈ outstanding, q ∈ s.outstanding) :
    Logged pack act init
      { s with strand := strand, writeQueue := queue, outstanding := outstanding } := by
  refine ⟨?_, h.known, h.packed_result, h.protocol, fun q hq => h.handed q (hout q hq)⟩
  intro m hm
  obtain ⟨x, hx, hindex, hclosure⟩ := hheld m hm
  obtain ⟨r, hr, hrc⟩ := h.held x hx
  exact ⟨r, hindex ▸ hr, hrc.trans hclosure⟩

theorem Logged.runClosure {s : Transport σ κ} (h : s.Logged pack act init) {i : ℕ} {c : Option κ}
    (hc : ∃ r, s.requests[i]? = some r ∧ r.closure = c) :
    (s.runClosure act i c).Logged pack act init := by
  obtain ⟨r, hr, hrc⟩ := hc
  cases c with
  | none => exact h
  | some k =>
      have hentry := h.entry (.ran i)
        (fun j hj => WriteTrace.ran.inj hj ▸ (List.getElem?_eq_some_iff.mp hr).1) (by simp)
      rw [replayEntry, hr, Option.bind_some, hrc] at hentry
      exact hentry

theorem Logged.asyncWrite {s : Transport σ κ} (h : s.Logged pack act init) (i : ℕ) (data : Bytes)
    (length total : ℕ) : (s.asyncWrite i data length total).Logged pack act init := by
  rw [Transport.asyncWrite]
  split_ifs
  · have hentry := h.entry (.submitted i (data.take length)) (by simp) (by simp)
    refine ⟨hentry.held, hentry.known, hentry.packed_result, hentry.protocol, ?_⟩
    intro q hq
    rcases List.mem_append.mp hq with hq | hq
    · exact hentry.handed q hq
    · rw [List.mem_singleton.mp hq]
      exact List.mem_append_right _ (List.mem_singleton.mpr rfl)
  · exact h

theorem Logged.asyncWriteFront {s : Transport σ κ} (h : s.Logged pack act init) :
    s.asyncWriteFront.Logged pack act init := by
  rw [Transport.asyncWriteFront]
  split
  · exact h
  · exact h.asyncWrite _ _ _ _

theorem Logged.write {s : Transport σ κ} (h : s.Logged pack act init) (r : WriteRequest κ) :
    (s.write r).Logged pack act init := by
  refine ⟨?_, ?_, ?_, ?_, h.handed⟩
  · intro m hm
    change m ∈ (s.strand ++ [_]) ++ s.writeQueue at hm
    simp only [List.mem_append, List.mem_singleton, or_right_comm] at hm
    rcases hm with hm | rfl
    · obtain ⟨x, hx, hxc⟩ := h.held m (List.mem_append.mpr hm)
      exact ⟨x, getElem?_of_append hx, hxc⟩
    · exact ⟨r, by simp [Transport.write], rfl⟩
  · intro i hi
    have := h.known i hi
    change i < (s.requests ++ [r]).length
    rw [List.length_append]
    omega
  · intro l i message result rest hsplit
    change s.trace = l ++ .packed i message result :: rest at hsplit
    change result = (pack (replay pack act (s.requests ++ [r]) init l) message).2
    have hl : ∀ j, .ran j ∈ l → j < s.requests.length := fun j hj =>
      h.known j (hsplit ▸ List.mem_append_left _ hj)
    rw [replay_requests_append hl]
    exact h.packed_result l i message result rest hsplit
  · change s.protocol = replay pack act (s.requests ++ [r]) init s.trace
    rw [replay_requests_append h.known, ← h.protocol]

theorem Logged.writeImpl {s s' : Transport σ κ} (h : s.Logged pack act init)
    (hs : s.writeImpl pack act = some s') : s'.Logged pack act init := by
  rw [Transport.writeImpl] at hs
  split at hs
  · cases hs
  rename_i m strand hstrand
  have hm : m ∈ s.strand ++ s.writeQueue := by simp [hstrand]
  have hheld : ∀ x ∈ strand ++
      (s.writeQueue ++ [{ m with message := (pack s.protocol m.message).2 }]),
      ∃ y ∈ s.strand ++ s.writeQueue, y.index = x.index ∧ y.closure = x.closure := by
    intro x hx
    simp only [List.mem_append, List.mem_singleton] at hx
    rcases hx with hx | hx | rfl
    · exact ⟨x, by simp [hstrand, hx], rfl, rfl⟩
    · exact ⟨x, by simp [hx], rfl, rfl⟩
    · exact ⟨m, hm, rfl, rfl⟩
  have hentry := h.entry (.packed m.index m.message (pack s.protocol m.message).2) (by simp)
    (by rintro i message result heq; cases heq; rfl)
  have hpacked := hentry.requeue hheld (fun q (hq : q ∈ s.outstanding) => hq)
  have hran := hpacked.runClosure (h.held m hm)
  obtain rfl := Option.some.inj hs
  split_ifs
  · exact hran.asyncWriteFront
  · exact hpacked.asyncWriteFront
  · exact hran
  · exact hpacked

theorem Logged.writeHandler {s s' : Transport σ κ} (h : s.Logged pack act init) {p : HandlerParams}
    {n : ℕ} (hs : s.writeHandler act p n = some s') : s'.Logged pack act init := by
  rw [Transport.writeHandler] at hs
  split at hs
  · cases hs
  rename_i top queue hq
  by_cases hlt : n < p.length
  · rw [if_pos hlt] at hs
    obtain rfl := Option.some.inj hs
    exact h.asyncWrite _ _ _ _
  rw [if_neg hlt] at hs
  have hdrop : ∀ s₁ : Transport σ κ, s₁.Logged pack act init → s₁.strand = s.strand →
      s₁.writeQueue = s.writeQueue →
      Logged pack act init { s₁ with writeQueue := queue } := by
    intro s₁ h₁ hstrand hqueue
    refine h₁.requeue (fun m hm => ⟨m, ?_, rfl, rfl⟩) (fun q hq => hq)
    rw [hqueue, hq]
    rcases List.mem_append.mp hm with hm | hm
    · exact List.mem_append_left _ hm
    · exact List.mem_append_right _ (List.mem_cons_of_mem _ hm)
  have hran := h.runClosure (h.held top (by simp [hq]))
  have hfields : (s.runClosure act top.index top.closure).strand = s.strand ∧
      (s.runClosure act top.index top.closure).writeQueue = s.writeQueue := by
    cases top.closure <;> exact ⟨rfl, rfl⟩
  obtain rfl := Option.some.inj hs
  split_ifs
  · exact hdrop _ hran hfields.1 hfields.2
  · exact hdrop _ h rfl rfl
  · exact (hdrop _ hran hfields.1 hfields.2).asyncWriteFront
  · exact (hdrop _ h rfl rfl).asyncWriteFront

theorem Logged.writeHandlerError {s s' : Transport σ κ} (h : s.Logged pack act init)
    (hs : s.writeHandlerError act = some s') : s'.Logged pack act init := by
  rw [Transport.writeHandlerError] at hs
  split at hs
  · cases hs
  rename_i top queue hq
  obtain rfl := Option.some.inj hs
  split_ifs
  · exact (h.runClosure (h.held top (by simp [hq]))).entry (.failed top.index) (by simp) (by simp)
  · exact h.entry (.failed top.index) (by simp) (by simp)

/-- **Every step is recorded.** -/
theorem Logged.step {s s' : Transport σ κ} {e : TransportEvent κ} (h : s.Logged pack act init)
    (hs : s.step pack act e = some s') : s'.Logged pack act init := by
  have herase (k : ℕ) :
      Logged pack act init { s with outstanding := s.outstanding.eraseIdx k } :=
    h.requeue (fun m hm => ⟨m, hm, rfl, rfl⟩) (fun q hq => List.mem_of_mem_eraseIdx hq)
  cases e with
  | write r =>
      obtain rfl := Option.some.inj hs
      exact h.write r
  | writeImpl => exact h.writeImpl hs
  | written k n =>
      simp only [Transport.step] at hs
      split at hs
      · cases hs
      rename_i p hp
      split_ifs at hs
      exact ((herase k).entry (.acked p.index (p.data.take n)) (by simp) (by simp)).writeHandler hs
  | writeError k =>
      simp only [Transport.step] at hs
      split at hs
      · cases hs
      · exact (herase k).writeHandlerError hs
  | close =>
      obtain rfl := Option.some.inj hs
      exact ⟨h.held, h.known, h.packed_result, h.protocol, h.handed⟩

theorem logged_of_run {es : List (TransportEvent κ)} {s : Transport σ κ}
    (hrun : (transport pack act init).run es = some s) : s.Logged pack act init := by
  refine Machine.Reachable.inv (I := fun s => s.Logged pack act init) ?_
    (fun _ _ _ h hs => h.step hs) ⟨es, hrun⟩
  refine ⟨?_, ?_, ?_, rfl, ?_⟩ <;> simp [transport]

end

/-! ### The invariant -/

/-- The submission that is under way, and what of its message has been acknowledged. -/
def Submitted (s : Transport σ κ) (done : ℕ) : Prop :=
  match s.writeQueue with
  | [] => s.outstanding = [] ∧ ackedOf done s.trace = []
  | top :: _ => ∃ total, total ≤ top.message.length ∧
      s.outstanding = [⟨done, top.message.drop total, top.message.length - total, total⟩] ∧
      ackedOf done s.trace = top.message.take total

/-- The first `done` messages have been written, the next ones are in the queue, the others are on
the strand. -/
structure Inv (s : Transport σ κ) (done : ℕ) : Prop where
  closed : s.closed = false
  length : done + s.writeQueue.length = (results s.trace).length
  queue : ∀ k h, s.writeQueue[k]? = some h → h.index = done + k ∧
    (results s.trace)[done + k]? = some h.message ∧
    ∃ d, s.requests[done + k]? = some ⟨d, h.closure, h.onSend⟩
  strand : ∀ k h, s.strand[k]? = some h → h.index = (results s.trace).length + k ∧
    s.requests[(results s.trace).length + k]? = some ⟨h.message, h.closure, h.onSend⟩
  packs : packs s.trace ++ s.strand.map (fun h => (h.index, h.message)) =
    s.requests.zipIdx.map (fun r => (r.2, r.1.data))
  outstanding : s.Submitted done
  acked : ackedBytes s.trace = ((results s.trace).take done).flatten ++ ackedOf done s.trace
  later : ∀ j, done < j → ackedOf j s.trace = []
  submits : ∀ j ∈ submits s.trace, j ≤ done ∧ (s.writeQueue = [] → j < done)
  runs : ∀ i r, s.requests[i]? = some r →
    (runs s.trace).count i = if r.closure.isSome && s.due r i then 1 else 0
  known : ∀ i ∈ WriteTrace.runs s.trace, i < s.requests.length
  timely : ∀ l i rest, s.trace = l ++ .ran i :: rest → Timely s.requests l i

theorem take_succ_flatten {l : List Bytes} {n : ℕ} {x : Bytes} (h : l[n]? = some x) :
    (l.take (n + 1)).flatten = (l.take n).flatten ++ x := by
  rw [List.take_add_one, h, List.flatten_append]
  simp

theorem flatten_of_getElem? {l : List Bytes} {n : ℕ} {x : Bytes} (h : l[n]? = some x) :
    l.flatten = (l.take n).flatten ++ x ++ (l.drop (n + 1)).flatten := by
  rw [← take_succ_flatten h, ← List.flatten_append, List.take_append_drop]

/-- An empty queue: every packed byte has been acknowledged. -/
theorem Inv.drained {s : Transport σ κ} {done : ℕ} (h : s.Inv done) (hq : s.writeQueue = []) :
    ackedBytes s.trace = (results s.trace).flatten := by
  have hlen := h.length
  have hout := h.outstanding
  rw [Submitted, hq] at hout
  rw [h.acked, hout.2, List.append_nil, List.take_of_length_le]
  rw [hq, List.length_nil] at hlen
  omega

theorem Inv.acked_prefix {s : Transport σ κ} {done : ℕ} (h : s.Inv done) :
    ackedBytes s.trace <+: (results s.trace).flatten := by
  have hout := h.outstanding
  rw [Submitted] at hout
  split at hout
  · rename_i hq
    rw [h.drained hq]
  · rename_i top queue hq
    obtain ⟨total, _, _, hacked⟩ := hout
    have hget := (h.queue 0 top (by rw [hq]; rfl)).2.1
    rw [h.acked, hacked, flatten_of_getElem? hget, List.append_assoc]
    exact (List.prefix_append_right_inj _).mpr
      ((List.take_prefix total top.message).trans (List.prefix_append _ _))

theorem Inv.correct {pack : σ → Bytes → σ × Bytes} {act : κ → σ → σ} {init : σ}
    {s : Transport σ κ} {done : ℕ} (h : s.Inv done) (hlog : s.Logged pack act init) :
    s.WriteCorrect pack act init := by
  refine ⟨?_, h.acked_prefix, h.drained, h.packs, h.runs, h.timely, hlog.packed_result,
    hlog.protocol, hlog.handed⟩
  have hout := h.outstanding
  rw [Submitted] at hout
  split at hout
  · rename_i hq
    rw [hq, hout.1]
    rfl
  · rename_i top queue hq
    obtain ⟨total, _, hout, _⟩ := hout
    rw [hq, hout]
    rfl

/-! ### Steps -/

section
variable {pack : σ → Bytes → σ × Bytes} {act : κ → σ → σ}

theorem timely_snoc {requests : List (WriteRequest κ)} {t : List WriteTrace} {e : WriteTrace}
    (ht : ∀ l i rest, t = l ++ .ran i :: rest → Timely requests l i)
    (he : ∀ i, e = .ran i → Timely requests t i) :
    ∀ l i rest, t ++ [e] = l ++ .ran i :: rest → Timely requests l i := by
  intro l i rest hsplit
  rcases split_snoc hsplit with ⟨rfl, heq⟩ | ⟨rest', heq⟩
  · exact he i heq
  · exact ht l i rest' heq

theorem timely_ite {requests : List (WriteRequest κ)} {t : List WriteTrace} {e : WriteTrace}
    (c : Bool) (ht : ∀ l i rest, t = l ++ .ran i :: rest → Timely requests l i)
    (he : c = true → ∀ i, e = .ran i → Timely requests t i) :
    ∀ l i rest, (t ++ if c then [e] else []) = l ++ .ran i :: rest → Timely requests l i := by
  cases c with
  | true => exact timely_snoc ht (he rfl)
  | false =>
      intro l i rest hsplit
      exact ht l i rest (by simpa using hsplit)

theorem Inv.requests_length {s : Transport σ κ} {done : ℕ} (h : s.Inv done) :
    (results s.trace).length + s.strand.length = s.requests.length := by
  have hlen := congrArg List.length h.packs
  simpa [packs_length] using hlen

theorem Timely.append {requests : List (WriteRequest κ)} {l : List WriteTrace} {i : ℕ}
    (h : Timely requests l i) (rs : List (WriteRequest κ)) : Timely (requests ++ rs) l i := by
  obtain ⟨r, hr, hrest⟩ := h
  exact ⟨r, getElem?_of_append hr, hrest⟩

/-- **A write** is posted. -/
theorem Inv.write {s : Transport σ κ} {done : ℕ} (h : s.Inv done) (r : WriteRequest κ) :
    (s.write r).Inv done := by
  have hlen := h.requests_length
  refine ⟨h.closed, h.length, ?_, ?_, ?_, h.outstanding, h.acked, h.later, h.submits, ?_, ?_, ?_⟩
  · intro k m hm
    obtain ⟨hi, hres, d, hd⟩ := h.queue k m hm
    exact ⟨hi, hres, d, getElem?_of_append hd⟩
  · intro k m hm
    change (s.strand ++ [_])[k]? = some m at hm
    rcases Nat.lt_or_ge k s.strand.length with hk | hk
    · rw [List.getElem?_append_left hk] at hm
      obtain ⟨hi, hd⟩ := h.strand k m hm
      exact ⟨hi, getElem?_of_append hd⟩
    · rw [List.getElem?_append_right hk] at hm
      obtain ⟨hzero, hget⟩ := List.getElem?_eq_some_iff.mp hm
      rw [List.length_singleton] at hzero
      obtain rfl : _ = m := (List.getElem_singleton _).symm.trans hget
      have hk : (results s.trace).length + k = s.requests.length := by omega
      refine ⟨hk.symm, ?_⟩
      change (s.requests ++ [r])[(results s.trace).length + k]? = _
      rw [hk]
      simp
  · change WriteTrace.packs s.trace ++ (s.strand ++ [_]).map _ = (s.requests ++ [r]).zipIdx.map _
    rw [List.map_append, ← List.append_assoc, h.packs, List.zipIdx_append, List.map_append]
    simp
  · intro i r' hr'
    change (s.requests ++ [r])[i]? = some r' at hr'
    rcases Nat.lt_or_ge i s.requests.length with hi | hi
    · rw [List.getElem?_append_left hi] at hr'
      exact h.runs i r' hr'
    · have hcount : (WriteTrace.runs s.trace).count i = 0 := by
        rw [List.count_eq_zero]
        intro hmem
        have := h.known i hmem
        omega
      have hdue : s.due r' i = false := by
        rw [due]
        split_ifs <;> simp <;> omega
      change (WriteTrace.runs s.trace).count i = if r'.closure.isSome && s.due r' i then 1 else 0
      rw [hcount, hdue, Bool.and_false]
      rfl
  · intro i hi
    have := h.known i hi
    change i < (s.requests ++ [r]).length
    rw [List.length_append]
    omega
  · exact fun l i rest hsplit => (h.timely l i rest hsplit).append [r]

/-- The entries of the trace when a message is packed; `alone` says that the queue was empty. -/
def packing (m : MessageHolder κ) (b : Bytes) (alone : Bool) : List WriteTrace :=
  [packed m.index m.message b] ++
    (if !m.onSend && m.closure.isSome then [ran m.index] else []) ++
    if alone then [submitted m.index b] else []

theorem packing_spec (m : MessageHolder κ) (b : Bytes) (alone : Bool) :
    packs (packing m b alone) = [(m.index, m.message)] ∧ results (packing m b alone) = [b] ∧
      runs (packing m b alone) = (if !m.onSend && m.closure.isSome then [m.index] else []) ∧
      submits (packing m b alone) = (if alone then [m.index] else []) ∧
      ackedBytes (packing m b alone) = [] ∧ ∀ j, ackedOf j (packing m b alone) = [] := by
  unfold packing
  split_ifs <;> simp [packs, results, runs, submits, ackedBytes, ackedOf]

theorem writeImpl_eq_some {s s' : Transport σ κ} (hopen : s.closed = false)
    (hs : s.writeImpl pack act = some s') :
    ∃ h strand p b, s.strand = h :: strand ∧ s' = { s with
      strand := strand
      protocol := p
      writeQueue := s.writeQueue ++ [{ h with message := b }]
      outstanding := s.outstanding ++
        if s.writeQueue.isEmpty then [⟨h.index, b, b.length, 0⟩] else []
      trace := s.trace ++ packing h b s.writeQueue.isEmpty } := by
  rw [writeImpl] at hs
  split at hs
  · cases hs
  rename_i h strand hstrand
  refine ⟨h, strand, s'.protocol, (pack s.protocol h.message).2, hstrand, ?_⟩
  obtain rfl := Option.some.inj hs
  cases hq : s.writeQueue <;> cases hc : h.closure <;> cases ho : h.onSend <;>
    simp [packing, runClosure, asyncWriteFront, asyncWrite, hopen, hc, ho]

theorem count_packed {s : Transport σ κ} {done : ℕ} (h : s.Inv done) {m : WriteRequest κ}
    (hm : s.requests[(results s.trace).length]? = some m) {s' : Transport σ κ}
    (hreq : s'.requests = s.requests)
    (hq : s'.writeQueue.length = s.writeQueue.length + 1)
    (hres : (results s'.trace).length = (results s.trace).length + 1)
    (hruns : runs s'.trace = runs s.trace ++
      if !m.onSend && m.closure.isSome then [(results s.trace).length] else []) :
    ∀ i r, s'.requests[i]? = some r →
      (runs s'.trace).count i = if r.closure.isSome && s'.due r i then 1 else 0 := by
  intro i r hr
  rw [hreq] at hr
  have hold := h.runs i r hr
  rw [hruns, List.count_append, hold]
  rcases eq_or_ne i (results s.trace).length with rfl | hi
  · obtain rfl := Option.some.inj (hm.symm.trans hr)
    cases ho : m.onSend <;> cases hc : m.closure <;> simp [due, ho, hq, hres]
  · have hdue : s'.due r i = s.due r i := by
      rw [due, due, hq, hres]
      split_ifs
      · exact decide_eq_decide.mpr (by omega)
      · exact decide_eq_decide.mpr (by omega)
    have hnone :
        (if !m.onSend && m.closure.isSome then [(results s.trace).length] else []).count i = 0 := by
      split_ifs
      · rw [List.count_eq_zero, List.mem_singleton]
        exact hi
      · rfl
    rw [hnone, hdue, Nat.add_zero]

/-- **`write_impl`** packs the next message. -/
theorem Inv.writeImpl {s s' : Transport σ κ} {done : ℕ} (h : s.Inv done)
    (hs : s.writeImpl pack act = some s') : s'.Inv done := by
  obtain ⟨m, strand, p, b, hstrand, rfl⟩ := writeImpl_eq_some h.closed hs
  obtain ⟨hindex, hreq⟩ := h.strand 0 m (by rw [hstrand]; rfl)
  rw [Nat.add_zero] at hindex hreq
  have hlen := h.length
  have hout := h.outstanding
  obtain ⟨hpacks, hresults, hruns, hsubmits, hacked, _⟩ := packing_spec m b s.writeQueue.isEmpty
  have hres : results (s.trace ++ packing m b s.writeQueue.isEmpty) = results s.trace ++ [b] := by
    rw [results_append, hresults]
  have hof : ∀ j alone, ackedOf j (s.trace ++ packing m b alone) = ackedOf j s.trace := by
    intro j alone
    rw [ackedOf_append, (packing_spec m b alone).2.2.2.2.2, List.append_nil]
  refine ⟨h.closed, ?_, ?_, ?_, ?_, ?_, ?_, ?_, ?_, ?_, ?_, ?_⟩
  · rw [hres, List.length_append, List.length_append, List.length_singleton,
      List.length_singleton]
    omega
  · intro k x hx
    rw [hres]
    rcases Nat.lt_or_ge k s.writeQueue.length with hk | hk
    · rw [List.getElem?_append_left hk] at hx
      obtain ⟨hi, hx, hd⟩ := h.queue k x hx
      exact ⟨hi, getElem?_of_append hx, hd⟩
    · rw [List.getElem?_append_right hk] at hx
      obtain ⟨hzero, hget⟩ := List.getElem?_eq_some_iff.mp hx
      rw [List.length_singleton] at hzero
      obtain rfl : _ = x := (List.getElem_singleton _).symm.trans hget
      have hk : done + k = (results s.trace).length := by omega
      rw [hk]
      exact ⟨hindex, by simp, m.message, hreq⟩
  · intro k x hx
    obtain ⟨hi, hd⟩ := h.strand (k + 1) x (by rw [hstrand]; exact hx)
    rw [hres, List.length_append, List.length_singleton, Nat.add_assoc, Nat.add_comm 1 k]
    exact ⟨hi, hd⟩
  · have := h.packs
    rw [hstrand, List.map_cons] at this
    rw [packs_append, hpacks, List.append_assoc]
    exact this
  · rw [Submitted] at hout ⊢
    cases hq : s.writeQueue with
    | nil =>
        rw [hq] at hout hlen
        have hdone : m.index = done := by
          rw [hindex, ← hlen]
          rfl
        refine ⟨0, Nat.zero_le _, ?_, ?_⟩
        · simp [hout.1, hdone]
        · rw [hof, hout.2]
          rfl
    | cons top queue =>
        rw [hq] at hout
        obtain ⟨total, htotal, heq, htop⟩ := hout
        refine ⟨total, htotal, ?_, ?_⟩
        · simp [heq]
        · rw [hof, htop]
  · rw [ackedBytes_append, hacked, List.append_nil, hof, hres,
      List.take_append_of_le_length (by omega)]
    exact h.acked
  · intro j hj
    rw [hof]
    exact h.later j hj
  · intro j hj
    rw [submits_append, hsubmits] at hj
    refine ⟨?_, fun hnil => by simp at hnil⟩
    rcases List.mem_append.mp hj with hj | hj
    · exact (h.submits j hj).1
    · split_ifs at hj with hempty
      · rw [List.isEmpty_iff] at hempty
        rw [hempty, List.length_nil] at hlen
        rw [List.mem_singleton.mp hj]
        omega
      · cases hj
  · refine count_packed h hreq rfl (by simp) (by rw [hres]; simp) ?_
    rw [runs_append, hruns, hindex]
  · intro i hi
    rw [runs_append, hruns] at hi
    rcases List.mem_append.mp hi with hi | hi
    · exact h.known i hi
    · split_ifs at hi
      · rw [List.mem_singleton.mp hi, hindex]
        exact (List.getElem?_eq_some_iff.mp hreq).1
      · cases hi
  · have htimely := timely_snoc (e := .packed m.index m.message b) h.timely (by simp)
    rw [packing, ← List.append_assoc, ← List.append_assoc]
    refine timely_ite _ (timely_ite _ htimely (fun hc i hi => ?_)) (by simp)
    obtain rfl := WriteTrace.ran.inj hi
    rw [Bool.and_eq_true, Bool.not_eq_true'] at hc
    rw [hindex]
    refine ⟨_, hreq, hc.2, ?_⟩
    rw [if_neg (by simp [hc.1])]
    exact ⟨s.trace, b, rfl⟩

/-- The submission of the front of a queue. -/
def submission (queue : List (MessageHolder κ)) : List HandlerParams :=
  queue.head?.toList.map (fun m => ⟨m.index, m.message, m.message.length, 0⟩)

/-- What a completion does on an open transport: the rest of the front is submitted, or the front is
finished and the next message is submitted. -/
theorem written_eq_some {s s' : Transport σ κ} {done k n : ℕ} (h : s.Inv done)
    (hs : s.step pack act (.written k n) = some s') :
    ∃ top queue total, s.writeQueue = top :: queue ∧ top.index = done ∧
      total ≤ top.message.length ∧ ackedOf done s.trace = top.message.take total ∧
      ((total + n ≤ top.message.length ∧ s' = { s with
          outstanding := [⟨done, top.message.drop (total + n), top.message.length - (total + n),
            total + n⟩]
          trace := s.trace ++ [acked done ((top.message.drop total).take n)] ++
            [submitted done ((top.message.drop (total + n)).take
              (top.message.length - (total + n)))] }) ∨
        ∃ p, s' = { s with
          protocol := p
          writeQueue := queue
          outstanding := submission queue
          trace := s.trace ++ [acked done (top.message.drop total)] ++
            (if top.onSend && top.closure.isSome then [ran done] else []) ++
            (submission queue).map (fun q => .submitted q.index q.data) }) := by
  have hopen := h.closed
  have hout := h.outstanding
  rw [Submitted] at hout
  simp only [step] at hs
  cases hq : s.writeQueue with
  | nil =>
      rw [hq] at hout
      rw [hout.1] at hs
      cases hs
  | cons top queue =>
      rw [hq] at hout
      obtain ⟨total, htotal, heq, hof⟩ := hout
      have htop : top.index = done := (h.queue 0 top (by rw [hq]; rfl)).1
      refine ⟨top, queue, total, rfl, htop, htotal, hof, ?_⟩
      rw [heq] at hs
      split at hs
      · cases hs
      rename_i p hp
      obtain ⟨hk, hget⟩ := List.getElem?_eq_some_iff.mp hp
      obtain rfl : k = 0 := Nat.lt_one_iff.mp hk
      obtain rfl : (⟨done, top.message.drop total, top.message.length - total, total⟩ :
        HandlerParams) = p := hget
      split_ifs at hs with hle
      have hn : n ≤ top.message.length - total := hle
      simp only [writeHandler, hq] at hs
      by_cases hlt : n < top.message.length - total
      · left
        rw [if_pos hlt] at hs
        obtain rfl := Option.some.inj hs
        refine ⟨by omega, ?_⟩
        simp [asyncWrite, hopen, htop]
      · right
        rw [if_neg hlt] at hs
        refine ⟨s'.protocol, ?_⟩
        obtain rfl := Option.some.inj hs
        have htake : (top.message.drop total).take n = top.message.drop total :=
          List.take_of_length_le (by rw [List.length_drop]; omega)
        cases hq' : queue <;> cases hc : top.closure <;> cases ho : top.onSend <;>
          simp [runClosure, asyncWriteFront, asyncWrite, hopen, submission, htop, htake]

/-- **More of the front** is acknowledged, and its rest is submitted. -/
theorem Inv.continued {s : Transport σ κ} {done total n : ℕ} {top : MessageHolder κ}
    {queue : List (MessageHolder κ)} (h : s.Inv done) (hq : s.writeQueue = top :: queue)
    (hle : total + n ≤ top.message.length) (hof : ackedOf done s.trace = top.message.take total) :
    Inv { s with
      outstanding :=
        [⟨done, top.message.drop (total + n), top.message.length - (total + n), total + n⟩]
      trace := s.trace ++ [WriteTrace.acked done ((top.message.drop total).take n)] ++
        [submitted done ((top.message.drop (total + n)).take
          (top.message.length - (total + n)))] } done := by
  have hresults : ∀ x y, results (s.trace ++ [WriteTrace.acked done x] ++ [submitted done y]) =
      results s.trace := by simp [results]
  have hruns : ∀ x y,
      WriteTrace.runs (s.trace ++ [WriteTrace.acked done x] ++ [submitted done y]) =
        WriteTrace.runs s.trace := by simp [WriteTrace.runs]
  have hacked : ∀ x y, ackedOf done (s.trace ++ [WriteTrace.acked done x] ++ [submitted done y]) =
      ackedOf done s.trace ++ x := by simp [ackedOf]
  refine ⟨h.closed, ?_, ?_, ?_, ?_, ?_, ?_, ?_, ?_, ?_, ?_, ?_⟩
  · rw [hresults]
    exact h.length
  · rw [hresults]
    exact h.queue
  · rw [hresults]
    exact h.strand
  · simpa [WriteTrace.packs] using h.packs
  · rw [Submitted]
    simp only [hq]
    refine ⟨total + n, hle, rfl, ?_⟩
    rw [hacked, hof, List.take_add]
  · rw [hresults, hacked, ← List.append_assoc, ← h.acked]
    simp [ackedBytes]
  · intro j hj
    have hne : done ≠ j := by omega
    simpa [ackedOf, hne] using h.later j hj
  · intro j hj
    rw [submits_append, submits_append] at hj
    simp only [hq]
    refine ⟨?_, fun hnil => by cases hnil⟩
    rcases List.mem_append.mp hj with hj | hj
    · rcases List.mem_append.mp hj with hj | hj
      · exact (h.submits j hj).1
      · cases hj
    · exact le_of_eq (List.mem_singleton.mp hj)
  · intro i r hr
    have hdue := h.runs i r hr
    rw [due] at hdue ⊢
    simp only [hruns, hresults]
    exact hdue
  · rw [hruns]
    exact h.known
  · exact timely_snoc (timely_snoc h.timely (by simp)) (by simp)

theorem count_finished {s : Transport σ κ} {done : ℕ} (h : s.Inv done) {m : WriteRequest κ}
    (hm : s.requests[done]? = some m) {s' : Transport σ κ} (hreq : s'.requests = s.requests)
    (hq : s.writeQueue.length = s'.writeQueue.length + 1)
    (hres : results s'.trace = results s.trace)
    (hruns : runs s'.trace = runs s.trace ++ if m.onSend && m.closure.isSome then [done] else []) :
    ∀ i r, s'.requests[i]? = some r →
      (runs s'.trace).count i = if r.closure.isSome && s'.due r i then 1 else 0 := by
  intro i r hr
  rw [hreq] at hr
  have hold := h.runs i r hr
  have hlen := h.length
  rw [hruns, List.count_append, hold]
  rcases eq_or_ne i done with rfl | hi
  · obtain rfl := Option.some.inj (hm.symm.trans hr)
    have hlt : i + s'.writeQueue.length < (results s.trace).length := by omega
    have hpacked : i < (results s.trace).length := by omega
    have hqueued : ¬ i + s.writeQueue.length < (results s.trace).length := by omega
    cases ho : m.onSend <;> cases hc : m.closure <;> simp [due, ho, hres, hlt, hqueued, hpacked]
  · have hdue : s'.due r i = s.due r i := by
      rw [due, due, hq, hres]
      split_ifs
      · exact decide_eq_decide.mpr (by omega)
      · rfl
    have hnone : (if m.onSend && m.closure.isSome then [done] else []).count i = 0 := by
      split_ifs
      · rw [List.count_eq_zero, List.mem_singleton]
        exact hi
      · rfl
    rw [hnone, hdue, Nat.add_zero]

theorem Inv.tail {s : Transport σ κ} {done : ℕ} {top : MessageHolder κ}
    {queue : List (MessageHolder κ)} (h : s.Inv done) (hq : s.writeQueue = top :: queue) :
    ∀ k m, queue[k]? = some m → m.index = done + 1 + k ∧
      (results s.trace)[done + 1 + k]? = some m.message ∧
      ∃ d, s.requests[done + 1 + k]? = some ⟨d, m.closure, m.onSend⟩ := by
  intro k m hm
  have hnext := h.queue (k + 1) m (by rw [hq]; exact hm)
  rwa [show done + (k + 1) = done + 1 + k by omega] at hnext

theorem Inv.submission_index {s : Transport σ κ} {done : ℕ} {top : MessageHolder κ}
    {queue : List (MessageHolder κ)} (h : s.Inv done) (hq : s.writeQueue = top :: queue) :
    ∀ q ∈ submission queue, q.index = done + 1 := by
  intro q hmem
  cases hqueue : queue with
  | nil =>
      rw [hqueue] at hmem
      cases hmem
  | cons m ms =>
      rw [hqueue] at hmem
      rw [List.mem_singleton.mp hmem]
      exact (h.tail hq 0 m (by rw [hqueue]; rfl)).1

/-- The entries of the trace when the front is finished. -/
def finishing (top : MessageHolder κ) (rest : Bytes) (queue : List (MessageHolder κ)) (done : ℕ) :
    List WriteTrace :=
  [acked done rest] ++
    (if top.onSend && top.closure.isSome then [ran done] else []) ++
    (submission queue).map (fun q => submitted q.index q.data)

theorem finishing_spec (top : MessageHolder κ) (rest : Bytes) (queue : List (MessageHolder κ))
    (done : ℕ) :
    packs (finishing top rest queue done) = [] ∧ results (finishing top rest queue done) = [] ∧
      runs (finishing top rest queue done) =
        (if top.onSend && top.closure.isSome then [done] else []) ∧
      submits (finishing top rest queue done) = (submission queue).map HandlerParams.index ∧
      ackedBytes (finishing top rest queue done) = rest ∧
      ∀ j, ackedOf j (finishing top rest queue done) = if done = j then rest else [] := by
  cases queue <;> simp only [finishing] <;> split_ifs <;>
    simp [submission, packs, results, runs, submits, ackedBytes, ackedOf]

theorem Inv.timely_finishing {s : Transport σ κ} {done : ℕ} {top : MessageHolder κ}
    {queue : List (MessageHolder κ)} {rest : Bytes} (h : s.Inv done)
    (hq : s.writeQueue = top :: queue) (hfull : ackedOf done s.trace ++ rest = top.message) :
    ∀ l i r, s.trace ++ finishing top rest queue done = l ++ ran i :: r →
      Timely s.requests l i := by
  obtain ⟨_, htop, d, hd⟩ := h.queue 0 top (by rw [hq]; rfl)
  rw [Nat.add_zero] at htop hd
  have hran : ∀ l i r, s.trace ++ [WriteTrace.acked done rest] ++
      (if top.onSend && top.closure.isSome then [ran done] else []) =
        l ++ ran i :: r → Timely s.requests l i := by
    refine timely_ite _ (timely_snoc h.timely (by simp)) (fun hc i hi => ?_)
    obtain rfl := WriteTrace.ran.inj hi
    rw [Bool.and_eq_true] at hc
    refine ⟨_, hd, hc.2, ?_⟩
    rw [if_pos hc.1]
    refine ⟨?_, fun j hj => ?_⟩
    · rw [ackedOf_append,
        show ackedOf done [WriteTrace.acked done rest] = rest by simp [ackedOf], hfull]
      simpa [results] using htop
    · have hj : j ∈ WriteTrace.submits s.trace := by simpa [WriteTrace.submits] using hj
      exact (h.submits j hj).1
  rw [finishing, ← List.append_assoc, ← List.append_assoc]
  cases queue with
  | nil =>
      rw [show (submission ([] : List (MessageHolder κ))).map _ = ([] : List WriteTrace) from rfl,
        List.append_nil]
      exact hran
  | cons m ms => exact timely_snoc hran (by simp)

/-- **The front is finished**: its closure runs if it has waited for this, and the next message is
submitted. -/
theorem Inv.finished {s : Transport σ κ} {done total : ℕ} {top : MessageHolder κ}
    {queue : List (MessageHolder κ)} (h : s.Inv done) (hq : s.writeQueue = top :: queue)
    (hof : ackedOf done s.trace = top.message.take total) (p : σ) :
    Inv { s with
      protocol := p
      writeQueue := queue
      outstanding := submission queue
      trace := s.trace ++ finishing top (top.message.drop total) queue done } (done + 1) := by
  obtain ⟨_, htop, d, hd⟩ := h.queue 0 top (by rw [hq]; rfl)
  rw [Nat.add_zero] at htop hd
  have hlen := h.length
  rw [hq, List.length_cons] at hlen
  obtain ⟨hpacks, hresults, hruns, hsubmits, hacked, hackedOf⟩ :=
    finishing_spec top (top.message.drop total) queue done
  have hres : results (s.trace ++ finishing top (top.message.drop total) queue done) =
      results s.trace := by
    rw [results_append, hresults, List.append_nil]
  have hlater : ∀ j, done < j →
      ackedOf j (s.trace ++ finishing top (top.message.drop total) queue done) = [] := by
    intro j hj
    rw [ackedOf_append, hackedOf, if_neg (by omega), List.append_nil]
    exact h.later j hj
  refine ⟨h.closed, ?_, ?_, ?_, ?_, ?_, ?_, ?_, ?_, ?_, ?_, ?_⟩
  · rw [hres]
    simp only
    omega
  · rw [hres]
    exact h.tail hq
  · rw [hres]
    exact h.strand
  · rw [packs_append, hpacks, List.append_nil]
    exact h.packs
  · rw [Submitted]
    simp only [hlater (done + 1) (Nat.lt_succ_self done)]
    cases hqueue : queue with
    | nil => exact ⟨rfl, trivial⟩
    | cons m ms =>
        have hindex := (h.tail hq 0 m (by rw [hqueue]; rfl)).1
        refine ⟨0, Nat.zero_le _, ?_, rfl⟩
        rw [submission, List.head?_cons]
        simp [hindex]
  · rw [ackedBytes_append, hacked, hlater (done + 1) (Nat.lt_succ_self done), hres, List.append_nil,
      take_succ_flatten htop, h.acked, hof, List.append_assoc, List.take_append_drop]
  · exact fun j hj => hlater j (by omega)
  · intro j hj
    rw [submits_append, hsubmits] at hj
    rcases List.mem_append.mp hj with hj | hj
    · have := (h.submits j hj).1
      exact ⟨by omega, fun _ => by omega⟩
    · obtain ⟨q, hmem, rfl⟩ := List.mem_map.mp hj
      refine ⟨le_of_eq (h.submission_index hq q hmem), fun hnil => ?_⟩
      simp only at hnil
      rw [hnil] at hmem
      cases hmem
  · refine count_finished h hd rfl (by rw [hq]; rfl) hres ?_
    rw [runs_append, hruns]
  · intro i hi
    rw [runs_append, hruns] at hi
    rcases List.mem_append.mp hi with hi | hi
    · exact h.known i hi
    · split_ifs at hi
      · rw [List.mem_singleton.mp hi]
        exact (List.getElem?_eq_some_iff.mp hd).1
      · cases hi
  · exact h.timely_finishing hq (by rw [hof, List.take_append_drop])

theorem Inv.step {s s' : Transport σ κ} {done : ℕ} {e : TransportEvent κ} (h : s.Inv done)
    (he : e.Plain) (hs : s.step pack act e = some s') : ∃ done', s'.Inv done' := by
  cases e with
  | write r =>
      obtain rfl := Option.some.inj hs
      exact ⟨done, h.write r⟩
  | writeImpl => exact ⟨done, h.writeImpl hs⟩
  | written k n =>
      obtain ⟨top, queue, total, hq, _, _, hof, ⟨hle, rfl⟩ | ⟨p, rfl⟩⟩ := written_eq_some h hs
      · exact ⟨done, h.continued hq hle hof⟩
      · refine ⟨done + 1, ?_⟩
        have := h.finished hq hof p
        rwa [finishing, ← List.append_assoc, ← List.append_assoc] at this
  | writeError k => exact he.elim
  | close => exact he.elim

theorem inv_init (init : σ) : (transport pack act init).init.Inv 0 := by
  refine ⟨rfl, rfl, ?_, ?_, rfl, ⟨rfl, rfl⟩, rfl, fun _ _ => rfl, ?_, ?_, ?_, ?_⟩
  all_goals simp [transport, WriteTrace.submits, WriteTrace.runs]

end

end Transport

end Vtrc
