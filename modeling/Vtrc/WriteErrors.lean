import Vtrc.Transport

/-! # The write queue under errors and closing

`write_handler` with an error runs the closure that waits for the sending and reports the error,
but leaves the message in the queue; `async_write` submits nothing on a closed transport.  So
after an error or after closing the queue may hold messages with no submission under way, and
`write_impl` submits only when it finds the queue empty.

`Safe` is the invariant of every run, and `write_queue_safe` what it gives: one submission at a
time, the acknowledged bytes a beginning of the packed messages, every closure at most once, and
a closure that has waited for the sending has seen all of its message sent or an error.
`write_queue_silent` says that nothing is submitted any more after the first error or after
closing. -/

namespace Vtrc

open WriteTrace

namespace Transport

variable {σ κ : Type}

/-- The closure of the message `i` has had its moment, or the message has failed. -/
def hasRun (s : Transport σ κ) (r : WriteRequest κ) (i : ℕ) : Bool :=
  r.closure.isSome && (s.due r i || (r.onSend && decide (.failed i ∈ s.trace)))

section
variable (pack : σ → Bytes → σ × Bytes) (act : κ → σ → σ)

/-- What the write queue guarantees whatever happens, on a transport that started with the protocol
`init`. -/
structure WriteSafe (init : σ) (s : Transport σ κ) : Prop where
  outstanding : s.outstanding.length ≤ 1
  acked : ackedBytes s.trace <+: (results s.trace).flatten
  packed_once : packs s.trace ++ s.strand.map (fun h => (h.index, h.message)) =
    s.requests.zipIdx.map (fun r => (r.2, r.1.data))
  ran_once : ∀ i, (runs s.trace).count i ≤ 1
  reported : ∀ i r, s.requests[i]? = some r → r.onSend = true → i ∈ runs s.trace →
    (results s.trace)[i]? = some (ackedOf i s.trace) ∨ .failed i ∈ s.trace
  packed_result : ∀ l i message result rest, s.trace = l ++ .packed i message result :: rest →
    result = (pack (replay pack act s.requests init l) message).2
  protocol : s.protocol = replay pack act s.requests init s.trace
  handed : ∀ q ∈ s.outstanding, .submitted q.index (q.data.take q.length) ∈ s.trace

end

/-- The submission of the front that is under way, or none, and what of the front has been
acknowledged. -/
def Front (s : Transport σ κ) (done : ℕ) : Prop :=
  match s.writeQueue with
  | [] => s.outstanding = [] ∧ ackedOf done s.trace = []
  | top :: _ => ∃ total, total ≤ top.message.length ∧
      ackedOf done s.trace = top.message.take total ∧
      (s.outstanding = [] ∨
        s.outstanding = [⟨done, top.message.drop total, top.message.length - total, total⟩])

/-- The first `done` messages have been written whole, the next ones are in the queue, the
others are on the strand; a message that has failed is the front, with nothing under way. -/
structure Safe (s : Transport σ κ) (done : ℕ) : Prop where
  length : done + s.writeQueue.length = (results s.trace).length
  queue : ∀ k h, s.writeQueue[k]? = some h → h.index = done + k ∧
    (results s.trace)[done + k]? = some h.message ∧
    ∃ d, s.requests[done + k]? = some ⟨d, h.closure, h.onSend⟩
  strand : ∀ k h, s.strand[k]? = some h → h.index = (results s.trace).length + k ∧
    s.requests[(results s.trace).length + k]? = some ⟨h.message, h.closure, h.onSend⟩
  packs : packs s.trace ++ s.strand.map (fun h => (h.index, h.message)) =
    s.requests.zipIdx.map (fun r => (r.2, r.1.data))
  front : s.Front done
  acked : ackedBytes s.trace = ((results s.trace).take done).flatten ++ ackedOf done s.trace
  whole : ∀ i < done, (results s.trace)[i]? = some (ackedOf i s.trace)
  later : ∀ j, done < j → ackedOf j s.trace = []
  runs : ∀ i r, s.requests[i]? = some r →
    (runs s.trace).count i = if s.hasRun r i then 1 else 0
  known : ∀ i ∈ WriteTrace.runs s.trace, i < s.requests.length
  failed : ∀ i, .failed i ∈ s.trace → i = done ∧ s.outstanding = [] ∧ s.writeQueue ≠ []

theorem Safe.requests_length {s : Transport σ κ} {done : ℕ} (h : s.Safe done) :
    (results s.trace).length + s.strand.length = s.requests.length := by
  have hlen := congrArg List.length h.packs
  simpa [packs_length] using hlen

theorem Safe.acked_prefix {s : Transport σ κ} {done : ℕ} (h : s.Safe done) :
    ackedBytes s.trace <+: (results s.trace).flatten := by
  have hfront := h.front
  rw [h.acked]
  rw [Front] at hfront
  split at hfront
  · rw [hfront.2, List.append_nil]
    exact (List.take_prefix _ _).flatten
  · rename_i top queue hq
    obtain ⟨total, _, hacked, _⟩ := hfront
    have hget := (h.queue 0 top (by rw [hq]; rfl)).2.1
    rw [hacked, flatten_of_getElem? hget, List.append_assoc]
    exact (List.prefix_append_right_inj _).mpr
      ((List.take_prefix total top.message).trans (List.prefix_append _ _))

theorem Safe.correct {pack : σ → Bytes → σ × Bytes} {act : κ → σ → σ} {init : σ}
    {s : Transport σ κ} {done : ℕ} (h : s.Safe done) (hlog : s.Logged pack act init) :
    s.WriteSafe pack act init := by
  have hfront := h.front
  have hlen := h.length
  refine ⟨?_, h.acked_prefix, h.packs, ?_, ?_, hlog.packed_result, hlog.protocol, hlog.handed⟩
  · rw [Front] at hfront
    split at hfront
    · rw [hfront.1]
      exact Nat.zero_le 1
    · obtain ⟨_, _, _, hnone | hone⟩ := hfront
      · rw [hnone]
        exact Nat.zero_le 1
      · rw [hone]
        exact le_rfl
  · intro i
    rcases Nat.lt_or_ge i s.requests.length with hi | hi
    · rw [h.runs i _ (List.getElem?_eq_getElem hi)]
      split_ifs <;> omega
    · rw [List.count_eq_zero.mpr (fun hmem => absurd (h.known i hmem) (by omega))]
      exact Nat.zero_le 1
  · intro i r hr hsend hmem
    have hcount := h.runs i r hr
    have hpos := List.count_pos_iff.mpr hmem
    have hran : s.hasRun r i = true := by
      by_contra hne
      rw [if_neg hne] at hcount
      omega
    simp only [hasRun, due, hsend, if_true, Bool.true_and, Bool.and_eq_true, Bool.or_eq_true,
      decide_eq_true_eq] at hran
    rcases hran.2 with hdone | hfailed
    · exact Or.inl (h.whole i (by omega))
    · exact Or.inr hfailed

/-! ### Steps -/

/-- The protocol after a closure, if there is one. -/
def afterClosure (act : κ → σ → σ) : Option κ → σ → σ
  | none, p => p
  | some k, p => act k p

section
variable {pack : σ → Bytes → σ × Bytes} {act : κ → σ → σ}

/-- The protocol `p` comes from `q` by at most one closure. -/
def AfterClosure (act : κ → σ → σ) (q p : σ) : Prop := ∃ c, p = afterClosure act c q

theorem Safe.runs_step {s s' : Transport σ κ} {done j : ℕ} {c : Bool} (h : s.Safe done)
    (hreq : s'.requests = s.requests)
    (hruns : WriteTrace.runs s'.trace = WriteTrace.runs s.trace ++ if c then [j] else [])
    (hother : ∀ i r, i ≠ j → s'.hasRun r i = s.hasRun r i)
    (hj : ∀ r, s.requests[j]? = some r →
      (s.hasRun r j = false ∧ s'.hasRun r j = c) ∨ (c = false ∧ s'.hasRun r j = s.hasRun r j)) :
    ∀ i r, s'.requests[i]? = some r →
      (WriteTrace.runs s'.trace).count i = if s'.hasRun r i then 1 else 0 := by
  intro i r hr
  rw [hreq] at hr
  rw [hruns, List.count_append, h.runs i r hr]
  rcases eq_or_ne i j with rfl | hne
  · rcases hj r hr with ⟨hold, hnew⟩ | ⟨hc, hsame⟩
    · rw [hold, hnew]
      cases c <;> simp
    · rw [hc, hsame]
      simp
  · have hnone : (if c then [j] else []).count i = 0 := by
      split_ifs
      · rw [List.count_eq_zero, List.mem_singleton]
        exact hne
      · rfl
    rw [hnone, hother i r hne, Nat.add_zero]

theorem Safe.known_step {s s' : Transport σ κ} {done j : ℕ} {c : Bool} (h : s.Safe done)
    (hreq : s'.requests = s.requests)
    (hruns : WriteTrace.runs s'.trace = WriteTrace.runs s.trace ++ if c then [j] else [])
    (hj : j < s.requests.length) :
    ∀ i ∈ WriteTrace.runs s'.trace, i < s'.requests.length := by
  intro i hi
  rw [hreq]
  rw [hruns] at hi
  rcases List.mem_append.mp hi with hi | hi
  · exact h.known i hi
  · split_ifs at hi
    · rw [List.mem_singleton.mp hi]
      exact hj
    · cases hi

/-- **A write** is posted. -/
theorem Safe.write {s : Transport σ κ} {done : ℕ} (h : s.Safe done) (r : WriteRequest κ) :
    (s.write r).Safe done := by
  have hlen := h.requests_length
  refine ⟨h.length, ?_, ?_, ?_, h.front, h.acked, h.whole, h.later, ?_, ?_, h.failed⟩
  · intro k m hm
    obtain ⟨hi, hres, d, hd⟩ := h.queue k m hm
    exact ⟨hi, hres, d, getElem?_of_append hd⟩
  · intro k m hm
    change (s.strand ++ [_])[k]? = some m at hm
    rcases Nat.lt_or_ge k s.strand.length with hk | hk
    · rw [List.getElem?_append_left hk] at hm
      obtain ⟨hi, hd⟩ := h.strand k m hm
      exact ⟨hi, getElem?_of_append hd⟩
    · rw [List.getElem?_append_right hk] at hm
      obtain ⟨hzero, hget⟩ := List.getElem?_eq_some_iff.mp hm
      rw [List.length_singleton] at hzero
      obtain rfl : _ = m := (List.getElem_singleton _).symm.trans hget
      have hk : (results s.trace).length + k = s.requests.length := by omega
      refine ⟨hk.symm, ?_⟩
      change (s.requests ++ [r])[(results s.trace).length + k]? = _
      rw [hk]
      simp
  · change WriteTrace.packs s.trace ++ (s.strand ++ [_]).map _ = (s.requests ++ [r]).zipIdx.map _
    rw [List.map_append, ← List.append_assoc, h.packs, List.zipIdx_append, List.map_append]
    simp
  · intro i r' hr'
    change (s.requests ++ [r])[i]? = some r' at hr'
    rcases Nat.lt_or_ge i s.requests.length with hi | hi
    · rw [List.getElem?_append_left hi] at hr'
      exact h.runs i r' hr'
    · have hcount : (WriteTrace.runs s.trace).count i = 0 :=
        List.count_eq_zero.mpr (fun hmem => absurd (h.known i hmem) (by omega))
      have hdue : s.due r' i = false := by
        rw [due]
        split_ifs <;> simp <;> omega
      have hfailed : .failed i ∉ s.trace := by
        intro hmem
        obtain ⟨hi, -, hq⟩ := h.failed i hmem
        have := h.length
        have := List.length_pos_iff.mpr hq
        omega
      have hrun : (s.write r).hasRun r' i = false := by
        change (r'.closure.isSome && (s.due r' i || (r'.onSend && decide (.failed i ∈ s.trace)))) =
          false
        simp [hdue, hfailed]
      rw [hrun]
      exact hcount
  · intro i hi
    have := h.known i hi
    change i < (s.requests ++ [r]).length
    rw [List.length_append]
    omega

/-- **Closing**. -/
theorem Safe.close {s : Transport σ κ} {done : ℕ} (h : s.Safe done) :
    Safe { s with closed := true } done :=
  ⟨h.length, h.queue, h.strand, h.packs, h.front, h.acked, h.whole, h.later, h.runs, h.known,
    h.failed⟩

/-- What `write_impl` does: it submits the message when the queue was empty and the transport is
open. -/
theorem writeImpl_cases {s s' : Transport σ κ} (hs : s.writeImpl pack act = some s') :
    ∃ h strand p b, s.strand = h :: strand ∧ b = (pack s.protocol h.message).2 ∧
      AfterClosure act (pack s.protocol h.message).1 p ∧ s' = { s with
        strand := strand
        protocol := p
        writeQueue := s.writeQueue ++ [{ h with message := b }]
        outstanding := s.outstanding ++
          if s.writeQueue.isEmpty && !s.closed then [⟨h.index, b, b.length, 0⟩] else []
        trace := s.trace ++ packing h b (s.writeQueue.isEmpty && !s.closed) } := by
  rw [writeImpl] at hs
  split at hs
  · cases hs
  rename_i h strand hstrand
  refine ⟨h, strand, _, (pack s.protocol h.message).2, hstrand, rfl,
    ⟨if h.onSend then none else h.closure, rfl⟩, ?_⟩
  obtain rfl := Option.some.inj hs
  cases hq : s.writeQueue <;> cases hc : h.closure <;> cases ho : h.onSend <;>
    cases s.closed <;>
    simp [packing, runClosure, afterClosure, asyncWriteFront, asyncWrite, hc, ho]

theorem failed_packing (m : MessageHolder κ) (b : Bytes) (alone : Bool) (i : ℕ) :
    .failed i ∉ packing m b alone := by
  unfold packing
  split_ifs <;> simp

/-- **`write_impl`** packs the next message. -/
theorem Safe.writeImpl {s s' : Transport σ κ} {done : ℕ} (h : s.Safe done)
    (hs : s.writeImpl pack act = some s') : s'.Safe done := by
  obtain ⟨m, strand, p, b, hstrand, _, _, rfl⟩ := writeImpl_cases hs
  set alone := s.writeQueue.isEmpty && !s.closed with halone
  obtain ⟨hindex, hreq⟩ := h.strand 0 m (by rw [hstrand]; rfl)
  rw [Nat.add_zero] at hindex hreq
  have hlen := h.length
  have hfront := h.front
  obtain ⟨hpacks, hresults, hruns, _, hacked, hof⟩ := packing_spec m b alone
  have hres : results (s.trace ++ packing m b alone) = results s.trace ++ [b] := by
    rw [results_append, hresults]
  have hof : ∀ j, ackedOf j (s.trace ++ packing m b alone) = ackedOf j s.trace := by
    intro j
    rw [ackedOf_append, hof, List.append_nil]
  have hfailed (i : ℕ) : .failed i ∈ s.trace ++ packing m b alone ↔ .failed i ∈ s.trace := by
    rw [List.mem_append, or_iff_left (failed_packing m b alone i)]
  have hran : WriteTrace.runs (s.trace ++ packing m b alone) = WriteTrace.runs s.trace ++
      if !m.onSend && m.closure.isSome then [(results s.trace).length] else [] := by
    rw [runs_append, hruns, hindex]
  refine ⟨?_, ?_, ?_, ?_, ?_, ?_, ?_, ?_, ?_, ?_, ?_⟩
  · rw [hres, List.length_append, List.length_append, List.length_singleton,
      List.length_singleton]
    omega
  · intro k x hx
    rw [hres]
    rcases Nat.lt_or_ge k s.writeQueue.length with hk | hk
    · rw [List.getElem?_append_left hk] at hx
      obtain ⟨hi, hx, hd⟩ := h.queue k x hx
      exact ⟨hi, getElem?_of_append hx, hd⟩
    · rw [List.getElem?_append_right hk] at hx
      obtain ⟨hzero, hget⟩ := List.getElem?_eq_some_iff.mp hx
      rw [List.length_singleton] at hzero
      obtain rfl : _ = x := (List.getElem_singleton _).symm.trans hget
      have hk : done + k = (results s.trace).length := by omega
      rw [hk]
      exact ⟨hindex, by simp, m.message, hreq⟩
  · intro k x hx
    obtain ⟨hi, hd⟩ := h.strand (k + 1) x (by rw [hstrand]; exact hx)
    rw [hres, List.length_append, List.length_singleton, Nat.add_assoc, Nat.add_comm 1 k]
    exact ⟨hi, hd⟩
  · have := h.packs
    rw [hstrand, List.map_cons] at this
    rw [packs_append, hpacks, List.append_assoc]
    exact this
  · rw [Front] at hfront ⊢
    cases hq : s.writeQueue with
    | nil =>
        rw [hq] at hfront hlen
        have hdone : m.index = done := by
          rw [hindex, ← hlen]
          rfl
        refine ⟨0, Nat.zero_le _, ?_, ?_⟩
        · rw [hof, hfront.2]
          rfl
        · rw [hfront.1, hdone]
          cases alone
          · exact Or.inl rfl
          · exact Or.inr rfl
    | cons top queue =>
        rw [hq] at hfront
        have hfalse : alone = false := by rw [halone, hq]; rfl
        obtain ⟨total, htotal, htop, hout⟩ := hfront
        refine ⟨total, htotal, ?_, ?_⟩
        · rw [hof, htop]
        · simpa [hfalse] using hout
  · rw [ackedBytes_append, hacked, List.append_nil, hof, hres,
      List.take_append_of_le_length (by omega)]
    exact h.acked
  · intro i hi
    rw [hof, hres]
    exact getElem?_of_append (h.whole i hi)
  · intro j hj
    rw [hof]
    exact h.later j hj
  · refine h.runs_step (j := (results s.trace).length) rfl hran (fun i r hi => ?_) (fun r hr => ?_)
    · simp only [hasRun, due, hres, hfailed, List.length_append, List.length_singleton]
      congr 2
      split_ifs <;> exact decide_eq_decide.mpr (by omega)
    · obtain rfl := Option.some.inj (hreq.symm.trans hr)
      have hnot : .failed (results s.trace).length ∉ s.trace := by
        intro hmem
        obtain ⟨hi, -, hq⟩ := h.failed _ hmem
        have := List.length_pos_iff.mpr hq
        omega
      left
      simp only [hasRun, due, hres, hfailed, List.length_append, List.length_singleton]
      cases ho : m.onSend <;> cases hc : m.closure <;> simp [hnot]
  · exact h.known_step (j := (results s.trace).length) rfl hran
      (List.getElem?_eq_some_iff.mp hreq).1
  · intro i hi
    obtain ⟨hi, hout, hq⟩ := h.failed i ((hfailed i).mp hi)
    have hfalse : alone = false := by
      rw [halone, Bool.and_eq_false_iff]
      left
      rw [List.isEmpty_eq_false_iff]
      exact hq
    refine ⟨hi, ?_, by simp⟩
    rw [hfalse, hout]
    rfl

theorem Safe.underWay {s : Transport σ κ} {done k : ℕ} (h : s.Safe done) {p : HandlerParams}
    (hp : s.outstanding[k]? = some p) :
    ∃ top queue total, s.writeQueue = top :: queue ∧ top.index = done ∧
      total ≤ top.message.length ∧ ackedOf done s.trace = top.message.take total ∧
      p = ⟨done, top.message.drop total, top.message.length - total, total⟩ ∧
      s.outstanding = [p] ∧ s.outstanding.eraseIdx k = [] ∧ ∀ i, .failed i ∉ s.trace := by
  have hfront := h.front
  have hfailed (i : ℕ) : .failed i ∉ s.trace := by
    intro hmem
    rw [(h.failed i hmem).2.1] at hp
    cases hp
  rw [Front] at hfront
  cases hq : s.writeQueue with
  | nil =>
      rw [hq] at hfront
      rw [hfront.1] at hp
      cases hp
  | cons top queue =>
      rw [hq] at hfront
      obtain ⟨total, htotal, hof, hnone | hone⟩ := hfront
      · rw [hnone] at hp
        cases hp
      · rw [hone] at hp ⊢
        obtain ⟨hk, hget⟩ := List.getElem?_eq_some_iff.mp hp
        obtain rfl : k = 0 := Nat.lt_one_iff.mp hk
        exact ⟨top, queue, total, rfl, (h.queue 0 top (by rw [hq]; rfl)).1, htotal, hof, hget.symm,
          congrArg (fun p => [p]) hget, rfl, hfailed⟩

/-- What a completion does: the rest of the front is submitted, or the front is finished and the
next message is submitted; nothing is submitted on a closed transport. -/
theorem written_cases {s s' : Transport σ κ} {done k n : ℕ} (h : s.Safe done)
    (hs : s.step pack act (.written k n) = some s') :
    ∃ top queue total, s.writeQueue = top :: queue ∧ top.index = done ∧
      ackedOf done s.trace = top.message.take total ∧ (∀ i, .failed i ∉ s.trace) ∧
      s.outstanding =
        [⟨done, top.message.drop total, top.message.length - total, total⟩] ∧
      ((total + n < top.message.length ∧ s' = { s with
          outstanding := if s.closed then [] else
            [⟨done, top.message.drop (total + n), top.message.length - (total + n), total + n⟩]
          trace := s.trace ++ [acked done ((top.message.drop total).take n)] ++
            if s.closed then [] else
              [submitted done ((top.message.drop (total + n)).take
                (top.message.length - (total + n)))] }) ∨
        ∃ p, top.message.length ≤ total + n ∧ AfterClosure act s.protocol p ∧ s' = { s with
          protocol := p
          writeQueue := queue
          outstanding := if s.closed then [] else submission queue
          trace := s.trace ++ [acked done (top.message.drop total)] ++
            (if top.onSend && top.closure.isSome then [ran done] else []) ++
            if s.closed then [] else
              (submission queue).map (fun q => .submitted q.index q.data) }) := by
  simp only [step] at hs
  split at hs
  · cases hs
  rename_i p hp
  obtain ⟨top, queue, total, hq, htop, htotal, hof, rfl, hone, herase, hfailed⟩ := h.underWay hp
  refine ⟨top, queue, total, hq, htop, hof, hfailed, hone, ?_⟩
  rw [herase] at hs
  split_ifs at hs with hle
  have hn : n ≤ top.message.length - total := hle
  simp only [writeHandler, hq] at hs
  by_cases hlt : n < top.message.length - total
  · left
    rw [if_pos hlt] at hs
    obtain rfl := Option.some.inj hs
    refine ⟨by omega, ?_⟩
    cases s.closed <;> simp [asyncWrite, hq, htop]
  · right
    rw [if_neg hlt] at hs
    refine ⟨_, by omega, ⟨if top.onSend then top.closure else none, rfl⟩, ?_⟩
    obtain rfl := Option.some.inj hs
    have htake : (top.message.drop total).take n = top.message.drop total :=
      List.take_of_length_le (by rw [List.length_drop]; omega)
    cases hq' : queue <;> cases hc : top.closure <;> cases ho : top.onSend <;>
      cases s.closed <;>
      simp [runClosure, afterClosure, asyncWriteFront, asyncWrite, submission, htop, htake]

theorem writeError_cases {s s' : Transport σ κ} {done k : ℕ} (h : s.Safe done)
    (hs : s.step pack act (.writeError k) = some s') :
    ∃ top queue p, s.writeQueue = top :: queue ∧ (∀ i, .failed i ∉ s.trace) ∧
      AfterClosure act s.protocol p ∧ s' = { s with
        protocol := p
        outstanding := []
        trace := s.trace ++ (if top.onSend && top.closure.isSome then [ran done] else []) ++
          [WriteTrace.failed done] } := by
  simp only [step] at hs
  split at hs
  · cases hs
  rename_i p hp
  obtain ⟨top, queue, total, hq, htop, htotal, hof, rfl, _, herase, hfailed⟩ := h.underWay hp
  refine ⟨top, queue, _, hq, hfailed, ⟨if top.onSend then top.closure else none, rfl⟩, ?_⟩
  rw [herase] at hs
  simp only [writeHandlerError, hq] at hs
  obtain rfl := Option.some.inj hs
  cases hc : top.closure <;> cases ho : top.onSend <;> simp [runClosure, afterClosure, hq, htop]

/-- **More of the front** is acknowledged. -/
theorem Safe.continued {s : Transport σ κ} {done total n : ℕ} {top : MessageHolder κ}
    {queue : List (MessageHolder κ)} (h : s.Safe done) (hq : s.writeQueue = top :: queue)
    (hle : total + n ≤ top.message.length) (hof : ackedOf done s.trace = top.message.take total)
    (hfailed : ∀ i, .failed i ∉ s.trace) (closed : Bool) :
    Safe { s with
      outstanding := if closed then [] else
        [⟨done, top.message.drop (total + n), top.message.length - (total + n), total + n⟩]
      trace := s.trace ++ [WriteTrace.acked done ((top.message.drop total).take n)] ++
        if closed then [] else [submitted done ((top.message.drop (total + n)).take
          (top.message.length - (total + n)))] } done := by
  set t := [WriteTrace.acked done ((top.message.drop total).take n)] ++
    if closed then [] else [submitted done ((top.message.drop (total + n)).take
      (top.message.length - (total + n)))] with ht
  have hadd : WriteTrace.packs t = [] ∧ results t = [] ∧ WriteTrace.runs t = [] ∧
      ackedBytes t = (top.message.drop total).take n ∧
      (∀ j, ackedOf j t = if done = j then (top.message.drop total).take n else []) ∧
      ∀ i, .failed i ∉ t := by
    rw [ht]
    cases closed <;>
      simp [WriteTrace.packs, results, WriteTrace.runs, ackedBytes, ackedOf]
  obtain ⟨hpacks, hresults, hruns, hacked, hofs, hnot⟩ := hadd
  rw [List.append_assoc, ← ht]
  have hres : results (s.trace ++ t) = results s.trace := by
    rw [results_append, hresults, List.append_nil]
  have hran : WriteTrace.runs (s.trace ++ t) = WriteTrace.runs s.trace := by
    rw [runs_append, hruns, List.append_nil]
  have hnone (i : ℕ) : .failed i ∉ s.trace ++ t := by
    rw [List.mem_append, not_or]
    exact ⟨hfailed i, hnot i⟩
  have hother (j : ℕ) (hj : done ≠ j) : ackedOf j (s.trace ++ t) = ackedOf j s.trace := by
    rw [ackedOf_append, hofs, if_neg hj, List.append_nil]
  refine ⟨?_, ?_, ?_, ?_, ?_, ?_, ?_, ?_, ?_, ?_, ?_⟩
  · rw [hres]
    exact h.length
  · rw [hres]
    exact h.queue
  · rw [hres]
    exact h.strand
  · rw [packs_append, hpacks, List.append_nil]
    exact h.packs
  · rw [Front]
    simp only [hq]
    refine ⟨total + n, hle, ?_, ?_⟩
    · rw [ackedOf_append, hofs, if_pos rfl, hof, List.take_add]
    · cases closed
      · exact Or.inr rfl
      · exact Or.inl rfl
  · rw [ackedBytes_append, hacked, ackedOf_append, hofs, if_pos rfl, hres, ← List.append_assoc,
      ← h.acked]
  · intro i hi
    rw [hother i hi.ne', hres]
    exact h.whole i hi
  · intro j hj
    rw [hother j hj.ne]
    exact h.later j hj
  · intro i r hr
    simp only [hasRun, due, hran, hres]
    have hold := h.runs i r hr
    simpa only [hasRun, due, hfailed i, hnone i] using hold
  · rw [hran]
    exact h.known
  · exact fun i hi => absurd hi (hnone i)

/-- **The front is finished.** -/
theorem Safe.finished {s : Transport σ κ} {done total : ℕ} {top : MessageHolder κ}
    {queue : List (MessageHolder κ)} (h : s.Safe done) (hq : s.writeQueue = top :: queue)
    (hof : ackedOf done s.trace = top.message.take total) (hfailed : ∀ i, .failed i ∉ s.trace)
    (p : σ) (closed : Bool) :
    Safe { s with
      protocol := p
      writeQueue := queue
      outstanding := if closed then [] else submission queue
      trace := s.trace ++ [WriteTrace.acked done (top.message.drop total)] ++
        (if top.onSend && top.closure.isSome then [ran done] else []) ++
        if closed then [] else
          (submission queue).map (fun q => WriteTrace.submitted q.index q.data) } (done + 1) := by
  set t := [WriteTrace.acked done (top.message.drop total)] ++
    (if top.onSend && top.closure.isSome then [ran done] else []) ++
    if closed then [] else
      (submission queue).map (fun q => WriteTrace.submitted q.index q.data) with ht
  obtain ⟨_, htop, d, hd⟩ := h.queue 0 top (by rw [hq]; rfl)
  rw [Nat.add_zero] at htop hd
  have hlen := h.length
  rw [hq, List.length_cons] at hlen
  have htail : ∀ k m, queue[k]? = some m → m.index = done + 1 + k ∧
      (results s.trace)[done + 1 + k]? = some m.message ∧
      ∃ d, s.requests[done + 1 + k]? = some ⟨d, m.closure, m.onSend⟩ := by
    intro k m hm
    have hnext := h.queue (k + 1) m (by rw [hq]; exact hm)
    rwa [show done + (k + 1) = done + 1 + k by omega] at hnext
  have hadd : WriteTrace.packs t = [] ∧ results t = [] ∧
      WriteTrace.runs t = (if top.onSend && top.closure.isSome then [done] else []) ∧
      ackedBytes t = top.message.drop total ∧
      (∀ j, ackedOf j t = if done = j then top.message.drop total else []) ∧
      ∀ i, .failed i ∉ t := by
    rw [ht]
    cases closed <;> cases queue <;> split_ifs <;>
      simp [submission, WriteTrace.packs, results, WriteTrace.runs, ackedBytes, ackedOf]
  obtain ⟨hpacks, hresults, hruns, hacked, hofs, hnot⟩ := hadd
  rw [List.append_assoc, List.append_assoc, ← List.append_assoc [WriteTrace.acked _ _], ← ht]
  have hres : results (s.trace ++ t) = results s.trace := by
    rw [results_append, hresults, List.append_nil]
  have hran : WriteTrace.runs (s.trace ++ t) = WriteTrace.runs s.trace ++
      if top.onSend && top.closure.isSome then [done] else [] := by
    rw [runs_append, hruns]
  have hnone (i : ℕ) : .failed i ∉ s.trace ++ t := by
    rw [List.mem_append, not_or]
    exact ⟨hfailed i, hnot i⟩
  have hother (j : ℕ) (hj : done ≠ j) : ackedOf j (s.trace ++ t) = ackedOf j s.trace := by
    rw [ackedOf_append, hofs, if_neg hj, List.append_nil]
  have hlater : ∀ j, done < j → ackedOf j (s.trace ++ t) = [] := by
    intro j hj
    rw [hother j hj.ne]
    exact h.later j hj
  have hwhole : ackedOf done (s.trace ++ t) = top.message := by
    rw [ackedOf_append, hofs, if_pos rfl, hof, List.take_append_drop]
  refine ⟨?_, ?_, ?_, ?_, ?_, ?_, ?_, ?_, ?_, ?_, ?_⟩
  · rw [hres]
    simp only
    omega
  · rw [hres]
    exact htail
  · rw [hres]
    exact h.strand
  · rw [packs_append, hpacks, List.append_nil]
    exact h.packs
  · rw [Front]
    simp only [hlater (done + 1) (Nat.lt_succ_self done)]
    cases hqueue : queue with
    | nil =>
        refine ⟨?_, trivial⟩
        cases closed <;> rfl
    | cons m ms =>
        have hindex := (htail 0 m (by rw [hqueue]; rfl)).1
        refine ⟨0, Nat.zero_le _, rfl, ?_⟩
        cases closed
        · right
          rw [submission, List.head?_cons]
          simp [hindex]
        · exact Or.inl rfl
  · rw [ackedBytes_append, hacked, hlater (done + 1) (Nat.lt_succ_self done), hres, List.append_nil,
      take_succ_flatten htop, h.acked, hof, List.append_assoc, List.take_append_drop]
  · intro i hi
    rcases Nat.lt_succ_iff_lt_or_eq.mp hi with hlt | rfl
    · rw [hother i hlt.ne', hres]
      exact h.whole i hlt
    · rw [hwhole, hres]
      exact htop
  · exact fun j hj => hlater j (by omega)
  · refine h.runs_step (j := done) rfl hran (fun i r hi => ?_) (fun r hr => ?_)
    · simp only [hasRun, due, hres, hfailed i, hnone i, hq, List.length_cons]
      congr 2
      split_ifs
      · exact decide_eq_decide.mpr (by omega)
      · rfl
    · obtain rfl := Option.some.inj (hd.symm.trans hr)
      simp only [hasRun, due, hres, hfailed done, hnone done, hq, List.length_cons]
      have hlt : done + queue.length < (results s.trace).length := by omega
      have hpacked : done < (results s.trace).length := by omega
      have hqueued : ¬ done + (queue.length + 1) < (results s.trace).length := by omega
      cases ho : top.onSend <;> cases hc : top.closure <;> simp [hlt, hqueued, hpacked]
  · exact h.known_step (j := done) rfl hran (List.getElem?_eq_some_iff.mp hd).1
  · exact fun i hi => absurd hi (hnone i)

/-- **The front fails.** -/
theorem Safe.writeError {s : Transport σ κ} {done : ℕ} {top : MessageHolder κ}
    {queue : List (MessageHolder κ)} (h : s.Safe done) (hq : s.writeQueue = top :: queue)
    (hfailed : ∀ i, .failed i ∉ s.trace) (p : σ) :
    Safe { s with
      protocol := p
      outstanding := []
      trace := s.trace ++ (if top.onSend && top.closure.isSome then [ran done] else []) ++
        [WriteTrace.failed done] } done := by
  set t := (if top.onSend && top.closure.isSome then [ran done] else []) ++
    [WriteTrace.failed done] with ht
  obtain ⟨_, htop, d, hd⟩ := h.queue 0 top (by rw [hq]; rfl)
  rw [Nat.add_zero] at htop hd
  have hlen := h.length
  rw [hq, List.length_cons] at hlen
  have hadd : WriteTrace.packs t = [] ∧ results t = [] ∧
      WriteTrace.runs t = (if top.onSend && top.closure.isSome then [done] else []) ∧
      ackedBytes t = [] ∧ (∀ j, ackedOf j t = []) ∧ ∀ i, .failed i ∈ t ↔ i = done := by
    rw [ht]
    split_ifs <;> simp [WriteTrace.packs, results, WriteTrace.runs, ackedBytes, ackedOf]
  obtain ⟨hpacks, hresults, hruns, hacked, hofs, hiff⟩ := hadd
  rw [List.append_assoc, ← ht]
  have hres : results (s.trace ++ t) = results s.trace := by
    rw [results_append, hresults, List.append_nil]
  have hran : WriteTrace.runs (s.trace ++ t) = WriteTrace.runs s.trace ++
      if top.onSend && top.closure.isSome then [done] else [] := by
    rw [runs_append, hruns]
  have hof (j : ℕ) : ackedOf j (s.trace ++ t) = ackedOf j s.trace := by
    rw [ackedOf_append, hofs, List.append_nil]
  have hmem (i : ℕ) : .failed i ∈ s.trace ++ t ↔ i = done := by
    rw [List.mem_append, or_iff_right (hfailed i), hiff]
  have hfront := h.front
  refine ⟨?_, ?_, ?_, ?_, ?_, ?_, ?_, ?_, ?_, ?_, ?_⟩
  · rw [hres]
    exact h.length
  · rw [hres]
    exact h.queue
  · rw [hres]
    exact h.strand
  · rw [packs_append, hpacks, List.append_nil]
    exact h.packs
  · rw [Front] at hfront ⊢
    simp only [hq] at hfront ⊢
    obtain ⟨total, htotal, hacks, _⟩ := hfront
    exact ⟨total, htotal, by rw [hof, hacks], Or.inl trivial⟩
  · rw [ackedBytes_append, hacked, List.append_nil, hof, hres]
    exact h.acked
  · intro i hi
    rw [hof, hres]
    exact h.whole i hi
  · intro j hj
    rw [hof]
    exact h.later j hj
  · refine h.runs_step (j := done) rfl hran (fun i r hi => ?_) (fun r hr => ?_)
    · simp only [hasRun, due, hres, hfailed i, hmem i, hi]
    · obtain rfl := Option.some.inj (hd.symm.trans hr)
      simp only [hasRun, due, hres, hfailed done, hmem done, hq, List.length_cons]
      have hpacked : done < (results s.trace).length := by omega
      have hqueued : ¬ done + (queue.length + 1) < (results s.trace).length := by omega
      cases ho : top.onSend <;> cases hc : top.closure <;> simp [hqueued, hpacked]
  · exact h.known_step (j := done) rfl hran (List.getElem?_eq_some_iff.mp hd).1
  · intro i hi
    exact ⟨(hmem i).mp hi, rfl, by simp [hq]⟩

theorem Safe.step {s s' : Transport σ κ} {done : ℕ} {e : TransportEvent κ} (h : s.Safe done)
    (hs : s.step pack act e = some s') : ∃ done', s'.Safe done' := by
  cases e with
  | write r =>
      obtain rfl := Option.some.inj hs
      exact ⟨done, h.write r⟩
  | writeImpl => exact ⟨done, h.writeImpl hs⟩
  | written k n =>
      obtain ⟨top, queue, total, hq, _, hof, hfailed, _, ⟨hle, rfl⟩ | ⟨p, _, _, rfl⟩⟩ :=
        written_cases h hs
      · exact ⟨done, h.continued hq hle.le hof hfailed s.closed⟩
      · exact ⟨done + 1, h.finished hq hof hfailed p s.closed⟩
  | writeError k =>
      obtain ⟨top, queue, p, hq, hfailed, _, rfl⟩ := writeError_cases h hs
      exact ⟨done, h.writeError hq hfailed p⟩
  | close =>
      obtain rfl := Option.some.inj hs
      exact ⟨done, h.close⟩

theorem Safe.requests_step {s s' : Transport σ κ} {done : ℕ} {e : TransportEvent κ}
    (h : s.Safe done) (hs : s.step pack act e = some s') : ∃ rs, s'.requests = s.requests ++ rs := by
  cases e with
  | write r =>
      obtain rfl := Option.some.inj hs
      exact ⟨[r], rfl⟩
  | writeImpl =>
      obtain ⟨m, strand, p, b, _, _, _, rfl⟩ := writeImpl_cases hs
      exact ⟨[], (List.append_nil _).symm⟩
  | written k n =>
      obtain ⟨top, queue, total, _, _, _, _, _, ⟨_, rfl⟩ | ⟨p, _, _, rfl⟩⟩ := written_cases h hs
      · exact ⟨[], (List.append_nil _).symm⟩
      · exact ⟨[], (List.append_nil _).symm⟩
  | writeError k =>
      obtain ⟨top, queue, p, _, _, _, rfl⟩ := writeError_cases h hs
      exact ⟨[], (List.append_nil _).symm⟩
  | close =>
      obtain rfl := Option.some.inj hs
      exact ⟨[], (List.append_nil _).symm⟩

theorem safe_init (init : σ) : (transport pack act init).init.Safe 0 := by
  refine ⟨rfl, ?_, ?_, rfl, ⟨rfl, rfl⟩, rfl, ?_, fun _ _ => rfl, ?_, ?_, ?_⟩
  all_goals simp [transport, WriteTrace.runs]

/-! ### After the end -/

/-- Something has failed, or the transport is closed. -/
def Stopped (s : Transport σ κ) : Prop := s.closed = true ∨ ∃ i, .failed i ∈ s.trace

theorem Safe.step_stopped {s s' : Transport σ κ} {done : ℕ} {e : TransportEvent κ} (h : s.Safe done)
    (hstop : s.Stopped) (hs : s.step pack act e = some s') :
    s'.Stopped ∧ submits s'.trace = submits s.trace := by
  have hmore (t : List WriteTrace) : (∃ i, WriteTrace.failed i ∈ s.trace) →
      ∃ i, WriteTrace.failed i ∈ s.trace ++ t :=
    fun ⟨i, hi⟩ => ⟨i, List.mem_append_left t hi⟩
  cases e with
  | write r =>
      obtain rfl := Option.some.inj hs
      exact ⟨hstop, rfl⟩
  | writeImpl =>
      obtain ⟨m, strand, p, b, _, _, _, rfl⟩ := writeImpl_cases hs
      have halone : (s.writeQueue.isEmpty && !s.closed) = false := by
        rw [Bool.and_eq_false_iff]
        rcases hstop with hclosed | ⟨i, hi⟩
        · right
          rw [hclosed]
          rfl
        · left
          rw [List.isEmpty_eq_false_iff]
          exact (h.failed i hi).2.2
      refine ⟨hstop.imp id (hmore _), ?_⟩
      rw [submits_append, halone, (packing_spec m b false).2.2.2.1]
      exact List.append_nil _
  | written k n =>
      obtain ⟨top, queue, total, _, _, _, hfailed, _, hcases⟩ := written_cases h hs
      have hclosed : s.closed = true := hstop.resolve_right (fun ⟨i, hi⟩ => hfailed i hi)
      rw [hclosed] at hcases
      rcases hcases with ⟨_, rfl⟩ | ⟨p, _, _, rfl⟩
      · exact ⟨Or.inl rfl, by simp [submits]⟩
      · refine ⟨Or.inl rfl, ?_⟩
        simp only [if_true, List.append_nil]
        split_ifs <;> simp [submits]
  | writeError k =>
      obtain ⟨top, queue, p, _, _, _, rfl⟩ := writeError_cases h hs
      refine ⟨Or.inr ⟨done, by simp⟩, ?_⟩
      simp only
      split_ifs <;> simp [submits]
  | close =>
      obtain rfl := Option.some.inj hs
      exact ⟨Or.inl rfl, rfl⟩

/-- A transport that is not stopped has only seen plain events. -/
theorem Safe.plain_of_not_stopped {s s' : Transport σ κ} {done : ℕ} {e : TransportEvent κ}
    (h : s.Safe done) (hs : s.step pack act e = some s') (hopen : ¬ s'.Stopped) :
    e.Plain ∧ ¬ s.Stopped := by
  refine ⟨?_, fun hstop => hopen (h.step_stopped hstop hs).1⟩
  cases e with
  | write | writeImpl | written => exact trivial
  | writeError k =>
      obtain ⟨top, queue, p, _, _, _, rfl⟩ := writeError_cases h hs
      exact hopen (Or.inr ⟨done, by simp⟩)
  | close =>
      obtain rfl := Option.some.inj hs
      exact hopen (Or.inl rfl)

end

theorem safe_of_run {pack : σ → Bytes → σ × Bytes} {act : κ → σ → σ} {init : σ}
    {es : List (TransportEvent κ)} {s : Transport σ κ}
    (hrun : (transport pack act init).run es = some s) : ∃ done, s.Safe done :=
  Machine.Reachable.inv (I := fun s => ∃ done, Safe s done) ⟨0, safe_init init⟩
    (fun _ _ _ ⟨_, h⟩ hs => h.step hs) ⟨es, hrun⟩

end Transport

/-- **The write queue, whatever happens.**  In every run, with errors and closing at any moment:
at most one submission is under way, the acknowledged bytes are a beginning of the packed
messages, every message is packed once and in order by the protocol as the packs and closures
before left it, no closure runs twice, and a closure that waits for the sending runs when all of
its message has been taken or has failed. -/
theorem write_queue_safe {σ κ : Type} (pack : σ → Bytes → σ × Bytes) (act : κ → σ → σ) (init : σ)
    (es : List (TransportEvent κ)) (s : Transport σ κ)
    (hrun : (transport pack act init).run es = some s) : s.WriteSafe pack act init := by
  obtain ⟨done, h⟩ := Transport.safe_of_run hrun
  exact h.correct (Transport.logged_of_run hrun)

/-- Two messages; the first one fails after two of its three bytes. -/
theorem write_queue_failing :
    let pack : ℕ → Bytes → ℕ × Bytes := fun n b => (n + 1, UInt8.ofNat n :: b)
    let act : ℕ → ℕ → ℕ := fun k n => n + k
    let es : List (TransportEvent ℕ) := [.write ⟨[0x61, 0x62], some 10, true⟩,
      .write ⟨[0x63], some 20, false⟩, .writeImpl, .writeImpl, .written 0 2, .writeError 0, .close]
    ∃ s, (transport pack act 0).run es = some s ∧ ackedBytes s.trace = [0x00, 0x61] ∧
      runs s.trace = [1, 0] ∧ s.protocol = 32 ∧ s.WriteSafe pack act 0 := by
  intro pack act es
  obtain ⟨s, hs, hacked, hruns, hprotocol⟩ : ∃ s, (transport pack act 0).run es = some s ∧
      ackedBytes s.trace = [0x00, 0x61] ∧ runs s.trace = [1, 0] ∧ s.protocol = 32 :=
    ⟨_, rfl, by decide, by decide, rfl⟩
  exact ⟨s, hs, hacked, hruns, hprotocol, write_queue_safe pack act 0 es s hs⟩

/-- **Nothing more is sent.**  From a state where a message has failed or the transport has been
closed, no run submits anything. -/
theorem write_queue_silent {σ κ : Type} (pack : σ → Bytes → σ × Bytes) (act : κ → σ → σ) (init : σ)
    (es fs : List (TransportEvent κ)) (s s' : Transport σ κ)
    (hrun : (transport pack act init).run es = some s) (hstop : s.Stopped)
    (hrest : (transport pack act init).runFrom s fs = some s') :
    submits s'.trace = submits s.trace := by
  have hkept : (∃ done, s'.Safe done) ∧ s'.Stopped ∧ submits s'.trace = submits s.trace := by
    refine (transport pack act init).runFrom_inv
      (I := fun x => (∃ done, x.Safe done) ∧ x.Stopped ∧ submits x.trace = submits s.trace)
      ?_ ⟨Transport.safe_of_run hrun, hstop, rfl⟩ hrest
    rintro x e x' ⟨⟨done, h⟩, hx, hsub⟩ hs
    obtain ⟨hx', hsame⟩ := h.step_stopped hx hs
    exact ⟨h.step hs, hx', hsame.trans hsub⟩
  exact hkept.2.2

/-- A message that is written after an error is packed and waits. -/
theorem write_queue_silent_one :
    let pack : ℕ → Bytes → ℕ × Bytes := fun n b => (n + 1, UInt8.ofNat b.length :: b)
    let es : List (TransportEvent Unit) := [.write ⟨[0x61], none, false⟩, .writeImpl, .writeError 0]
    let fs : List (TransportEvent Unit) := [.write ⟨[0x62], none, false⟩, .writeImpl]
    ∃ s s', (transport pack (fun _ n => n) 0).run es = some s ∧
      (transport pack (fun _ n => n) 0).runFrom s fs = some s' ∧
      (packs s'.trace).length = 2 ∧ submits s'.trace = submits s.trace := by
  intro pack es fs
  obtain ⟨s, s', hs, hs', hstop, hpacks⟩ : ∃ s s', (transport pack (fun _ n => n) 0).run es =
      some s ∧ (transport pack (fun _ n => n) 0).runFrom s fs = some s' ∧ .failed 0 ∈ s.trace ∧
      (packs s'.trace).length = 2 :=
    ⟨_, _, rfl, rfl, by decide, by decide⟩
  exact ⟨s, s', hs, hs', hpacks,
    write_queue_silent pack _ 0 es fs s s' hs (Or.inr ⟨0, hstop⟩) hs'⟩

end Vtrc
