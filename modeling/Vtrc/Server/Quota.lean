import Vtrc.Server.Accounting

/-! # The quota of calls of a client (`protocol-layer-s.cpp`)

`process_call` is not one step: the reading thread increments `current_calls_` and compares, and
when the call is refused it writes the busy unit and then decrements, while on other threads the
accepted calls go on and run `call_done`.  `Quota` is the connection of `Accounting` with the
reading thread made explicit; `refusal_eq_processCall` is the connection to `process_call` taken
as one step.

The quota is `max_active_calls`.  The comparison is made after the increment, on 32 bits, so it
says that a call is within the quota as long as the increment does not wrap: `quota_iff` is the
exact statement, and `counts_of_limit` says that only `max_active_calls = 2 ^ 32 - 1` lets the
increment wrap. -/

namespace Vtrc.Server

open CallEffect

/-- Where the reading thread stands in `process_call`: outside, before `send_busy`, or before the
decrement that follows it. -/
inductive Refusal where
  | idle
  | busy (llu : LowlevelUnit)
  | back

/-- What the reading thread itself has in `current_calls_`. -/
def Refusal.counted : Refusal → ℕ
  | .idle => 0
  | .busy _ | .back => 1

/-- A connection, its reading thread, and the units that were turned away. -/
structure Quota where
  conn : ServerCalls
  reader : Refusal
  refused : List LowlevelUnit

inductive QuotaEvent where
  | receive (llu : LowlevelUnit)
  | sendBusy
  | takeBack
  | call (k : ℕ) (e : CallEvent)

namespace Quota

/-- `++current_calls_ <= max_calls( )` and the acceptance of the call. -/
def receive (opts : SessionOptions) (s : Quota) (llu : LowlevelUnit) : Quota :=
  let c := { s.conn with current := s.conn.current + 1 }
  if c.current ≤ opts.maxActiveCalls then
    { s with conn := { c with calls := c.calls ++ [⟨.post llu, []⟩] } }
  else { s with conn := c, reader := .busy llu }

def step (opts : SessionOptions) (s : Quota) : QuotaEvent → Option Quota
  | .receive llu =>
      match s.reader with
      | .idle => some (s.receive opts llu)
      | _ => none
  | .sendBusy =>
      match s.reader with
      | .busy llu => some { s with
          conn := s.conn.sendBusy llu, reader := .back, refused := s.refused ++ [llu] }
      | _ => none
  | .takeBack =>
      match s.reader with
      | .back => some { s with
          conn := { s.conn with current := s.conn.current - 1 }, reader := .idle }
      | _ => none
  | .call k e => (s.conn.step opts (.call k e)).map (fun c => { s with conn := c })

/-- The bound on the calls of a client.  `call_done` is run at most once for an accepted call; the
counter is a natural number, the accepted calls whose `call_done` is still to come and the call
being refused; the former are within the quota; and what was written are the units of the accepted
calls and one busy unit for each refused call that waits. -/
structure Bounded (opts : SessionOptions) (s : Quota) : Prop where
  done_once : ∀ t ∈ s.conn.calls, dones t.log ≤ 1
  counted : s.conn.current.toNat = s.conn.pending + s.reader.counted
  limit : s.conn.pending ≤ opts.maxActiveCalls.toNat
  replies : s.conn.sent.Perm
    (s.conn.calls.flatMap (fun t => CallEffect.sent t.log) ++ s.refused.flatMap busyReplies)

/-- A call within the quota is accepted, any other is turned away and not executed; the calls turned
away are the ones in `refused`. -/
def Decides (opts : SessionOptions) (s : Quota) (e : QuotaEvent) : Prop :=
  ∀ s', s.step opts e = some s' →
    match e with
    | .receive llu =>
        s'.refused = s.refused ∧
          if s.conn.pending < opts.maxActiveCalls.toNat then
            s'.conn.calls = s.conn.calls ++ [⟨.post llu, []⟩] ∧ s'.reader = .idle
          else s'.conn.calls = s.conn.calls ∧ s'.reader = .busy llu
    | .sendBusy => ∃ llu, s.reader = .busy llu ∧ s'.refused = s.refused ++ [llu]
    | _ => s'.refused = s.refused

/-- The increment of `current_calls_` does not wrap. -/
def Counts (s : Quota) : QuotaEvent → Prop
  | .receive _ => s.conn.current.toNat + 1 < 2 ^ 32
  | _ => True

end Quota

/-- The calls of one connection, with its reading thread. -/
def quota (opts : SessionOptions) : Machine Quota QuotaEvent where
  init := ⟨⟨0, [], []⟩, .idle, []⟩
  step := Quota.step opts

namespace Quota

/-! ### One step -/

/-- A refusal with nothing in between is `process_call`. -/
theorem refusal_eq_processCall {opts : SessionOptions} {s : Quota} (hr : s.reader = .idle)
    (llu : LowlevelUnit) :
    if s.conn.current + 1 ≤ opts.maxActiveCalls then
      (quota opts).runFrom s [.receive llu] = some { s with conn := s.conn.processCall opts llu }
    else
      (quota opts).runFrom s [.receive llu, .sendBusy, .takeBack] = some { s with
        conn := s.conn.processCall opts llu, refused := s.refused ++ [llu] } := by
  obtain ⟨conn, reader, refused⟩ := s
  obtain rfl : reader = .idle := hr
  split_ifs with hmax
  · simp [Machine.runFrom, quota, step, receive, hmax, ServerCalls.processCall]
  · simp [Machine.runFrom, quota, step, receive, hmax, ServerCalls.processCall]

/-- The call is accepted; it is turned away; the reading thread writes the busy unit, or gives its
increment back; or an accepted call makes a step. -/
theorem step_cases {opts : SessionOptions} {s s' : Quota} {e : QuotaEvent}
    (h : s.step opts e = some s') :
    (∃ llu, e = .receive llu ∧ s.reader = .idle ∧ s.conn.current + 1 ≤ opts.maxActiveCalls ∧
      s' = { s with conn := { s.conn with
        current := s.conn.current + 1, calls := s.conn.calls ++ [⟨.post llu, []⟩] } }) ∨
    (∃ llu, e = .receive llu ∧ s.reader = .idle ∧ ¬ s.conn.current + 1 ≤ opts.maxActiveCalls ∧
      s' = { s with
        conn := { s.conn with current := s.conn.current + 1 }, reader := .busy llu }) ∨
    (∃ llu, e = .sendBusy ∧ s.reader = .busy llu ∧
      s' = { s with
        conn := { s.conn with sent := s.conn.sent ++ busyReplies llu }
        reader := .back
        refused := s.refused ++ [llu] }) ∨
    (e = .takeBack ∧ s.reader = .back ∧
      s' = { s with conn := { s.conn with current := s.conn.current - 1 }, reader := .idle }) ∨
    (∃ k e' c, e = .call k e' ∧ s.conn.step opts (.call k e') = some c ∧
      s' = { s with conn := c }) := by
  cases e with
  | receive llu =>
      simp only [step] at h
      split at h
      · rename_i hr
        obtain rfl := Option.some.inj h
        by_cases hmax : s.conn.current + 1 ≤ opts.maxActiveCalls
        · exact .inl ⟨llu, rfl, hr, hmax, by simp only [receive]; rw [if_pos hmax]⟩
        · exact .inr (.inl ⟨llu, rfl, hr, hmax, by simp only [receive]; rw [if_neg hmax]⟩)
      · cases h
  | sendBusy =>
      simp only [step] at h
      split at h
      · rename_i llu hr
        obtain rfl := Option.some.inj h
        exact .inr (.inr (.inl ⟨llu, rfl, hr, rfl⟩))
      · cases h
  | takeBack =>
      simp only [step] at h
      split at h
      · rename_i hr
        obtain rfl := Option.some.inj h
        exact .inr (.inr (.inr (.inl ⟨rfl, hr, rfl⟩)))
      · cases h
  | call k e =>
      obtain ⟨c, hc, rfl⟩ := Option.map_eq_some_iff.mp h
      exact .inr (.inr (.inr (.inr ⟨k, e, c, rfl, hc, rfl⟩)))

/-! ### The counter and the replies -/

/-- The invariant: `Bounded` and the bookkeeping of the accepted calls that it rests on. -/
structure Kept (opts : SessionOptions) (s : Quota) : Prop where
  calls : ∀ t ∈ s.conn.calls, t.Inv
  counted : s.conn.current.toNat = s.conn.pending + s.reader.counted
  limit : s.conn.pending ≤ opts.maxActiveCalls.toNat
  replies : s.conn.sent.Perm
    (s.conn.calls.flatMap (fun t => CallEffect.sent t.log) ++ s.refused.flatMap busyReplies)

theorem Kept.bounded {opts : SessionOptions} {s : Quota} (h : s.Kept opts) : s.Bounded opts :=
  ⟨fun t ht => (h.calls t ht).dones_le_one, h.counted, h.limit, h.replies⟩

theorem kept_init (opts : SessionOptions) : (quota opts).init.Kept opts :=
  ⟨by simp [quota], rfl, Nat.zero_le _, List.Perm.refl _⟩

theorem succ_le_iff {c m : UInt32} (h : c.toNat + 1 < 2 ^ 32) :
    c + 1 ≤ m ↔ c.toNat < m.toNat := by
  rw [UInt32.le_iff_toNat_le, UInt32.toNat_add]
  simp only [UInt32.toNat_one]
  rw [Nat.mod_eq_of_lt h]
  omega

theorem toNat_succ {c : UInt32} (h : c.toNat + 1 < 2 ^ 32) : (c + 1).toNat = c.toNat + 1 := by
  rw [UInt32.toNat_add]
  exact Nat.mod_eq_of_lt h

theorem sent_set_perm {calls : List TrackedCall} {k : ℕ} {t : TrackedCall}
    (hk : calls[k]? = some t) (c : LocalCall) (effs : List CallEffect) :
    ((calls.set k ⟨c, t.log ++ effs⟩).flatMap (fun t => CallEffect.sent t.log)).Perm
      (calls.flatMap (fun t => CallEffect.sent t.log) ++ CallEffect.sent effs) := by
  induction calls generalizing k with
  | nil => cases hk
  | cons t' calls ih =>
      cases k with
      | zero =>
          obtain rfl := Option.some.inj hk
          simp only [List.set_cons_zero, List.flatMap_cons, sent_append, List.append_assoc]
          exact List.perm_append_comm.append_left _
      | succ k =>
          simp only [List.set_cons_succ, List.flatMap_cons, List.append_assoc]
          exact (ih hk).append_left _

/-- A call makes a step: it takes back what it was counted for, and its log grows by the units it
writes. -/
theorem Kept.call {opts : SessionOptions} {s : Quota} {k : ℕ} {e : CallEvent} {c : ServerCalls}
    (h : s.Kept opts) (hs : s.conn.step opts (.call k e) = some c) :
    Kept opts { s with conn := c } := by
  obtain ⟨t, r, hk, _, rfl, hstep⟩ := ServerCalls.step_call hs
  have hinv := (h.calls t (List.mem_of_getElem? hk)).step hstep
  obtain ⟨hle, hcount⟩ := ServerCalls.pending_set hk (c := r.1) hinv.dones_le_one
  refine ⟨?_, ?_, ?_, ?_⟩
  · rw [ServerCalls.apply_calls]
    intro t' ht'
    rcases List.mem_or_eq_of_mem_set ht' with ht' | rfl
    · exact h.calls t' ht'
    · exact hinv
  · have hcur := h.counted
    have hlt := s.conn.current.toNat_lt
    rw [ServerCalls.apply_current, ServerCalls.pending, ServerCalls.apply_calls, hcount,
      UInt32.toNat_sub_of_le]
    · rw [UInt32.toNat_ofNat_of_lt']
      · simp only at hcur ⊢
        omega
      · show _ < 2 ^ 32
        omega
    · rw [UInt32.le_iff_toNat_le, UInt32.toNat_ofNat_of_lt']
      · simp only
        omega
      · show _ < 2 ^ 32
        omega
  · rw [ServerCalls.pending, ServerCalls.apply_calls, hcount]
    have := h.limit
    omega
  · rw [ServerCalls.apply_sent, ServerCalls.apply_calls]
    have hset := sent_set_perm hk r.1 r.2
    refine (h.replies.append_right _).trans (List.Perm.trans ?_ (hset.symm.append_right _))
    rw [List.append_assoc, List.append_assoc]
    exact List.perm_append_comm.append_left _

theorem Kept.step {opts : SessionOptions} {s s' : Quota} {e : QuotaEvent} (h : s.Kept opts)
    (hc : s.Counts e) (hs : s.step opts e = some s') : s'.Kept opts := by
  have hcur := h.counted
  obtain ⟨llu, rfl, hr, hmax, rfl⟩ | ⟨llu, rfl, hr, hmax, rfl⟩ | ⟨llu, rfl, hr, rfl⟩ |
    ⟨rfl, hr, rfl⟩ | ⟨k, e, c, rfl, hstep, rfl⟩ := step_cases hs
  · have hlt := (succ_le_iff hc).mp hmax
    have hpending : ServerCalls.pending { s.conn with
        current := s.conn.current + 1, calls := s.conn.calls ++ [⟨.post llu, []⟩] } =
          s.conn.pending + 1 := by
      rw [ServerCalls.pending, List.countP_append]
      rfl
    refine ⟨?_, ?_, ?_, ?_⟩
    · intro t ht
      rcases List.mem_append.mp ht with ht | ht
      · exact h.calls t ht
      · obtain rfl := List.mem_singleton.mp ht
        exact TrackedCall.inv_post llu
    · rw [hpending, toNat_succ hc, hcur]
      exact Nat.add_right_comm _ _ _
    · rw [hpending]
      rw [hr, Refusal.counted] at hcur
      omega
    · simpa using h.replies
  · refine ⟨h.calls, ?_, h.limit, h.replies⟩
    rw [hr, Refusal.counted] at hcur
    simp only [toNat_succ hc, hcur, Refusal.counted]
    rfl
  · refine ⟨h.calls, ?_, h.limit, ?_⟩
    · rw [hr] at hcur
      exact hcur
    · simp only [List.flatMap_append, List.flatMap_cons, List.flatMap_nil, List.append_nil]
      rw [← List.append_assoc]
      exact h.replies.append_right _
  · refine ⟨h.calls, ?_, h.limit, h.replies⟩
    rw [hr, Refusal.counted] at hcur
    have hle : 1 ≤ s.conn.current := by
      rw [UInt32.le_iff_toNat_le, UInt32.toNat_one]
      omega
    simp only [UInt32.toNat_sub_of_le _ _ hle, UInt32.toNat_one, hcur, Refusal.counted]
    rfl
  · exact h.call hstep

theorem Kept.decides {opts : SessionOptions} {s : Quota} {e : QuotaEvent} (h : s.Kept opts)
    (hc : s.Counts e) : s.Decides opts e := by
  intro s' hs
  have hcur := h.counted
  obtain ⟨llu, rfl, hr, hmax, rfl⟩ | ⟨llu, rfl, hr, hmax, rfl⟩ | ⟨llu, rfl, hr, rfl⟩ |
    ⟨rfl, _, rfl⟩ | ⟨k, e, c, rfl, _, rfl⟩ := step_cases hs
  · have hlt := (succ_le_iff hc).mp hmax
    rw [hr, Refusal.counted] at hcur
    refine ⟨rfl, ?_⟩
    rw [if_pos (by omega)]
    exact ⟨rfl, hr⟩
  · have hlt := mt (succ_le_iff hc).mpr hmax
    rw [hr, Refusal.counted] at hcur
    refine ⟨rfl, ?_⟩
    rw [if_neg (by omega)]
    exact ⟨rfl, rfl⟩
  · exact ⟨llu, hr, rfl⟩
  · exact rfl
  · exact rfl

theorem Kept.counts {opts : SessionOptions} {s s' : Quota} {e : QuotaEvent} (h : s.Kept opts)
    (hmax : opts.maxActiveCalls.toNat + 1 < 2 ^ 32) (hs : s.step opts e = some s') :
    s.Counts e := by
  have hcur := h.counted
  have hlim := h.limit
  cases e with
  | receive llu =>
      have hr : s.reader = .idle := by
        simp only [Quota.step] at hs
        split at hs
        · assumption
        · cases hs
      rw [hr, Refusal.counted] at hcur
      show s.conn.current.toNat + 1 < 2 ^ 32
      omega
  | sendBusy => trivial
  | takeBack => trivial
  | call k e => trivial

/-- The quota machine meets `Counts` in every run, for every quota but the largest. -/
theorem counts_of_limit {opts : SessionOptions} (hmax : opts.maxActiveCalls.toNat + 1 < 2 ^ 32)
    {es : List QuotaEvent} {s : Quota} (hrun : (quota opts).run es = some s) :
    (quota opts).Meets Counts (quota opts).init es := by
  refine (quota opts).meets_of_forall_step hrun (fun p e q s₁ s₂ _ hp hstep _ => ?_)
  have hkept : s₁.Kept opts := (quota opts).runFrom_inv
    (fun _ _ _ hi hs => hi.step (hi.counts hmax hs) hs) (kept_init opts) hp
  exact hkept.counts hmax hstep

/-- An increment that wraps is an acceptance, and after it the counter is zero. -/
theorem not_bounded_of_wraps {opts : SessionOptions} {s s' : Quota} {e : QuotaEvent}
    (h : s.Bounded opts) (hc : ¬ s.Counts e) (hs : s.step opts e = some s') :
    ¬ s'.Bounded opts := by
  intro h'
  have hcur := h.counted
  have hlt := s.conn.current.toNat_lt
  obtain ⟨llu, rfl, hr, hmax, rfl⟩ | ⟨llu, rfl, hr, hmax, rfl⟩ | ⟨llu, rfl, _⟩ | ⟨rfl, _⟩ |
    ⟨k, e, c, rfl, _⟩ := step_cases hs
  · have hc' : ¬ s.conn.current.toNat + 1 < 2 ^ 32 := hc
    have hcounted := h'.counted
    simp only [ServerCalls.pending, List.countP_append, UInt32.toNat_add, hr, Refusal.counted]
      at hcounted
    rw [hr, Refusal.counted, ServerCalls.pending] at hcur
    simp only [UInt32.toNat_one, List.countP_cons, List.countP_nil] at hcounted
    simp at hcounted
    omega
  · have hc' : ¬ s.conn.current.toNat + 1 < 2 ^ 32 := hc
    -- the wrapped counter is zero, which is within every quota
    refine hmax ?_
    rw [UInt32.le_iff_toNat_le, UInt32.toNat_add, UInt32.toNat_one]
    have : s.conn.current.toNat + 1 = 2 ^ 32 := by omega
    rw [this, Nat.mod_self]
    exact Nat.zero_le _
  · exact hc trivial
  · exact hc trivial
  · exact hc trivial

end Quota

open Quota in
/-- **Bounded concurrency per client.**  In every state a run reaches the calls are bounded, and
every call the run receives is decided by the quota, if and only if no call arrives while the
counter is at its largest value. -/
theorem quota_iff (opts : SessionOptions) (es : List QuotaEvent) (s : Quota)
    (hrun : (quota opts).run es = some s) :
    ((∀ p q s', es = p ++ q → (quota opts).run p = some s' → s'.Bounded opts) ∧
        (quota opts).Meets (Decides opts) (quota opts).init es) ↔
      (quota opts).Meets Counts (quota opts).init es := by
  constructor
  · rintro ⟨hall, _⟩
    refine (quota opts).meets_of_forall_step hrun (fun p e q s₁ s₂ hes hp hstep _ => ?_)
    by_contra hc
    have hnext : (quota opts).run (p ++ [e]) = some s₂ :=
      (quota opts).runFrom_snoc_eq_some.mpr ⟨s₁, hp, hstep⟩
    exact not_bounded_of_wraps (hall p (e :: q) s₁ hes hp) hc hstep
      (hall (p ++ [e]) q s₂ (by rw [hes]; simp) hnext)
  · intro hmeets
    have hkept : ∀ p q s', es = p ++ q → (quota opts).run p = some s' → s'.Kept opts := by
      intro p q s' hes hp
      rw [hes] at hmeets
      exact (quota opts).inv_of_meets (fun _ _ _ hi hc hs => hi.step hc hs) (kept_init opts)
        hmeets.of_append hp
    refine ⟨fun p q s' hes hp => (hkept p q s' hes hp).bounded, ?_⟩
    refine (quota opts).meets_of_forall_step hrun (fun p e q s₁ s₂ hes hp _ _ => ?_)
    exact (hkept p (e :: q) s₁ hes hp).decides ((hes ▸ hmeets).at_step hp)

/-- A client that may have one call: the second call is turned away while the first one goes on,
and the first one takes its count back between the busy unit and the decrement. -/
theorem quota_one_busy :
    let opts := { SessionOptions.defaults with maxActiveCalls := 1 }
    let llu : LowlevelUnit := { id := 103, serviceId := "s", methodId := "m", opt := { wait := true } }
    let es : List QuotaEvent := [.receive llu,
      .call 0 (.start 1 (fun _ => .ok (some (fun _ => true)))), .receive { llu with id := 105 },
      .sendBusy, .call 0 (.runDone false true), .call 0 (.leave none), .takeBack]
    ∃ s, (quota opts).run es = some s ∧ s.conn.current = 0 ∧
      s.conn.sent.map (fun u => (u.id, u.error.code)) = [(105, ErrorNumber.busy.code), (103, 0)] ∧
      s.Bounded opts := by
  intro opts llu es
  obtain ⟨s, hs, hcur, hsent⟩ : ∃ s, (quota opts).run es = some s ∧ s.conn.current = 0 ∧
      s.conn.sent.map (fun u => (u.id, u.error.code)) =
        [(105, ErrorNumber.busy.code), (103, 0)] := ⟨_, rfl, by decide, by decide⟩
  have hmax : opts.maxActiveCalls.toNat + 1 < 2 ^ 32 := by decide
  have hmeets := Quota.counts_of_limit hmax hs
  exact ⟨s, hs, hcur, hsent, ((quota_iff opts es s hs).mpr hmeets).1 es [] s (by simp) hs⟩

theorem run_receives (llu : LowlevelUnit) {opts : SessionOptions}
    (hmax : opts.maxActiveCalls.toNat + 1 = 2 ^ 32) (n : ℕ) :
    (quota opts).run (List.replicate n (.receive llu)) =
      some ⟨⟨UInt32.ofNat n, List.replicate n ⟨.post llu, []⟩, []⟩, .idle, []⟩ := by
  induction n with
  | zero => rfl
  | succ n ih =>
      rw [List.replicate_succ', Machine.run, Machine.runFrom_snoc_eq_some]
      refine ⟨_, ih, ?_⟩
      have hle : UInt32.ofNat n + 1 ≤ opts.maxActiveCalls := by
        rw [UInt32.le_iff_toNat_le]
        have := (UInt32.ofNat n + 1).toNat_lt
        omega
      simp only [quota, Quota.step, Quota.receive]
      rw [if_pos hle, List.replicate_succ', UInt32.ofNat_add]
      rfl

/-- With the largest quota, `2 ^ 32` calls in a row are all accepted, and the counter is zero. -/
theorem quota_wraps :
    let opts := { SessionOptions.defaults with maxActiveCalls := 4294967295 }
    let llu : LowlevelUnit := { id := 103, serviceId := "s", methodId := "m", opt := { wait := true } }
    ∃ s, (quota opts).run (List.replicate (2 ^ 32) (.receive llu)) = some s ∧
      s.conn.current = 0 ∧ s.conn.pending = 2 ^ 32 ∧ ¬ s.Bounded opts := by
  intro opts llu
  refine ⟨_, run_receives llu (by decide) (2 ^ 32), by decide, ?_, ?_⟩
  · rw [ServerCalls.pending, List.countP_replicate]
    rfl
  · intro h
    have hlim := h.limit
    rw [ServerCalls.pending, List.countP_replicate] at hlim
    exact absurd hlim (by decide)

end Vtrc.Server
