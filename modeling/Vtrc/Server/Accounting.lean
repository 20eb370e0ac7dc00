import Vtrc.RpcEnd

/-! # Call accounting of a server connection (`protocol-layer-s.cpp`)

`process_call` counts a call in `current_calls_`, refuses it with `ERR_BUSY` when the count is
above `max_active_calls`, and otherwise hands it to the application's pool with `call_done` as
its `done` closure; `call_done` takes the count back.  The calls of a connection run in any
order and on any threads, the reader of the connection is one thread, so that a refusal and its
decrement are one step here.  The connection is ready, so that `send_busy` raises nothing: it is the
server's end of `RpcEnd` with only its counted calls in view (`ofEnd_processCall`).

`Accounted` is the invariant: the counter is the number of accepted calls whose `call_done` has
not been run.  `no_leak_iff` says in which runs that number goes back to zero. -/

namespace Vtrc.Server

open CallEffect

/-- The calls of a connection: `current_calls_`, the accepted calls in the order of their
acceptance, and the units written by them. -/
structure ServerCalls where
  current : UInt32
  calls : List TrackedCall
  sent : List LowlevelUnit

/-- A call unit arrives, or something happens to the accepted call number `k`. -/
inductive AccountEvent where
  | receive (llu : LowlevelUnit)
  | call (k : ℕ) (e : CallEvent)

namespace ServerCalls

/-- `call_done`. -/
def callDone (s : ServerCalls) : ServerCalls := { s with current := s.current - 1 }

/-- `send_busy`. -/
def sendBusy (s : ServerCalls) (llu : LowlevelUnit) : ServerCalls :=
  { s with sent := s.sent ++ busyReplies llu }

/-- `process_call`. -/
def processCall (opts : SessionOptions) (s : ServerCalls) (llu : LowlevelUnit) : ServerCalls :=
  let s := { s with current := s.current + 1 }
  if s.current ≤ opts.maxActiveCalls then { s with calls := s.calls ++ [⟨.post llu, []⟩] }
  else
    let s := s.sendBusy llu
    { s with current := s.current - 1 }

/-- The effects of a call on its connection. -/
def apply : ServerCalls → List CallEffect → ServerCalls
  | s, [] => s
  | s, .send llu :: es => apply { s with sent := s.sent ++ [llu] } es
  | s, .done _ :: es => apply s.callDone es

def step (opts : SessionOptions) (s : ServerCalls) : AccountEvent → Option ServerCalls
  | .receive llu => some (s.processCall opts llu)
  | .call k e =>
      match s.calls[k]? with
      | none => none
      | some t => (t.call.step opts e).map (fun r =>
          { s with calls := s.calls.set k ⟨r.1, t.log ++ r.2⟩ }.apply r.2)

/-- The unit was accepted: a call has been added and nothing was sent. -/
def Accepts (opts : SessionOptions) (s : ServerCalls) (llu : LowlevelUnit) : Prop :=
  (s.processCall opts llu).calls = s.calls ++ [⟨.post llu, []⟩] ∧
    (s.processCall opts llu).sent = s.sent

/-- The accepted calls whose `call_done` has not been run. -/
def pending (s : ServerCalls) : ℕ := s.calls.countP (fun t => dones t.log == 0)

@[simp] theorem apply_calls (s : ServerCalls) (es : List CallEffect) :
    (s.apply es).calls = s.calls := by
  induction es generalizing s with
  | nil => rfl
  | cons e es ih =>
      cases e with
      | send llu => exact ih _
      | done err => exact ih _

theorem apply_sent (s : ServerCalls) (es : List CallEffect) :
    (s.apply es).sent = s.sent ++ CallEffect.sent es := by
  induction es generalizing s with
  | nil => simp [apply]
  | cons e es ih =>
      cases e with
      | send llu =>
          rw [apply, ih, sent_cons_send]
          exact List.append_assoc _ _ _
      | done err => exact ih _

theorem apply_current (s : ServerCalls) (es : List CallEffect) :
    (s.apply es).current = s.current - UInt32.ofNat (dones es) := by
  induction es generalizing s with
  | nil => simp [apply]
  | cons e es ih =>
      cases e with
      | send llu => exact ih _
      | done err =>
          rw [apply, ih, dones_cons_done, callDone, UInt32.ofNat_add]
          grind

end ServerCalls

/-- The accounting of one connection. -/
def accounting (opts : SessionOptions) : Machine ServerCalls AccountEvent where
  init := ⟨0, [], []⟩
  step := ServerCalls.step opts

/-! ### The counter -/

namespace ServerCalls

/-- The bookkeeping of every accepted call, and the counter that they share. -/
structure Accounted (s : ServerCalls) : Prop where
  calls : ∀ t ∈ s.calls, t.Inv
  current : s.current = UInt32.ofNat s.pending

theorem accounted_init (opts : SessionOptions) : (accounting opts).init.Accounted :=
  ⟨by simp [accounting], rfl⟩

theorem step_call {opts : SessionOptions} {s s' : ServerCalls} {k : ℕ} {e : CallEvent}
    (h : s.step opts (.call k e) = some s') :
    ∃ t r, s.calls[k]? = some t ∧ t.call.step opts e = some r ∧
      s' = { s with calls := s.calls.set k ⟨r.1, t.log ++ r.2⟩ }.apply r.2 ∧
      t.step opts e = some ⟨r.1, t.log ++ r.2⟩ := by
  simp only [step] at h
  split at h
  · cases h
  · rename_i t ht
    obtain ⟨r, hr, rfl⟩ := Option.map_eq_some_iff.mp h
    exact ⟨t, r, ht, hr, rfl, by rw [TrackedCall.step, hr]; rfl⟩

theorem processCall_accepted {opts : SessionOptions} {s : ServerCalls}
    (h : s.current + 1 ≤ opts.maxActiveCalls) (llu : LowlevelUnit) :
    s.processCall opts llu =
      { s with current := s.current + 1, calls := s.calls ++ [⟨.post llu, []⟩] } := by
  simp only [processCall]
  rw [if_pos h]

theorem processCall_refused {opts : SessionOptions} {s : ServerCalls}
    (h : ¬ s.current + 1 ≤ opts.maxActiveCalls) (llu : LowlevelUnit) :
    (s.processCall opts llu).calls = s.calls ∧
      (s.processCall opts llu).current = s.current := by
  simp only [processCall]
  rw [if_neg h, sendBusy]
  simp

/-- The counted calls of a server's end. -/
def ofEnd (s : RpcEnd) : ServerCalls :=
  ⟨s.current, (s.incoming.filter (·.counted)).map (·.tracked), s.sent⟩

/-- On a server that is ready `process_call` is that of its end. -/
theorem ofEnd_processCall (opts : SessionOptions) {s : RpcEnd} (hside : s.side = .server)
    (hready : s.ready = true) (llu : LowlevelUnit) :
    ofEnd (s.processCall opts llu) = (ofEnd s).processCall opts llu := by
  by_cases hmax : s.current + 1 ≤ opts.maxActiveCalls
  · rw [processCall_accepted (s := ofEnd s) hmax]
    simp [RpcEnd.processCall, hside, hmax, RpcEnd.post, ofEnd]
  · simp only [RpcEnd.processCall, hside, hready, if_neg hmax, ServerCalls.processCall, ofEnd,
      sendBusy]
    simp [hmax]

theorem Accounted.processCall {opts : SessionOptions} {s : ServerCalls} (h : s.Accounted)
    (llu : LowlevelUnit) : (s.processCall opts llu).Accounted := by
  by_cases hmax : s.current + 1 ≤ opts.maxActiveCalls
  · rw [processCall_accepted hmax]
    refine ⟨?_, ?_⟩
    · intro t ht
      rcases List.mem_append.mp ht with ht | ht
      · exact h.calls t ht
      · obtain rfl := List.mem_singleton.mp ht
        exact TrackedCall.inv_post llu
    · simp only [pending, List.countP_append, h.current]
      simp [UInt32.ofNat_add]
  · obtain ⟨hcalls, hcurrent⟩ := processCall_refused hmax llu
    refine ⟨by rw [hcalls]; exact h.calls, ?_⟩
    rw [hcurrent, h.current, pending, pending, hcalls]

theorem pending_set {s : ServerCalls} {k : ℕ} {t : TrackedCall} (hk : s.calls[k]? = some t)
    {c : LocalCall} {effs : List CallEffect} (h : dones (t.log ++ effs) ≤ 1) :
    dones effs ≤ s.pending ∧
      (s.calls.set k ⟨c, t.log ++ effs⟩).countP (fun t => dones t.log == 0) =
        s.pending - dones effs := by
  obtain ⟨hlt, hget⟩ := List.getElem?_eq_some_iff.mp hk
  rw [dones_append] at h
  rw [List.countP_set hlt, hget, pending]
  simp only [dones_append]
  have hpos : dones t.log = 0 → 0 < s.calls.countP (fun t => dones t.log == 0) := fun h₀ =>
    List.countP_pos_iff.mpr ⟨t, List.mem_of_getElem? hk, by simp [h₀]⟩
  generalize s.calls.countP (fun t => dones t.log == 0) = n at hpos ⊢
  rcases Nat.eq_zero_or_pos (dones t.log) with h₀ | h₁
  · have hn := hpos h₀
    rcases Nat.eq_zero_or_pos (dones effs) with h₂ | h₂
    · simp only [h₀, h₂, beq_self_eq_true, if_true]
      omega
    · have h₃ : dones effs = 1 := by omega
      simp only [h₀, h₃, beq_self_eq_true, if_true]
      simp only [Nat.zero_add, Nat.reduceBEq, Bool.false_eq_true, if_false]
      omega
  · have h₂ : dones effs = 0 := by omega
    have h₃ : dones t.log = 1 := by omega
    simp [h₂, h₃]

theorem Accounted.call {opts : SessionOptions} {s s' : ServerCalls} {k : ℕ} {e : CallEvent}
    (h : s.Accounted) (hs : s.step opts (.call k e) = some s') : s'.Accounted := by
  obtain ⟨t, r, hk, _, rfl, hstep⟩ := step_call hs
  have hinv := (h.calls t (List.mem_of_getElem? hk)).step hstep
  obtain ⟨hle, hcount⟩ := pending_set hk (c := r.1) hinv.dones_le_one
  refine ⟨?_, ?_⟩
  · rw [apply_calls]
    intro t' ht'
    rcases List.mem_or_eq_of_mem_set ht' with ht' | rfl
    · exact h.calls t' ht'
    · exact hinv
  · rw [apply_current, pending, apply_calls, hcount, h.current, UInt32.ofNat_sub hle]

theorem Accounted.step {opts : SessionOptions} {s s' : ServerCalls} {e : AccountEvent}
    (h : s.Accounted) (hs : s.step opts e = some s') : s'.Accounted := by
  cases e with
  | receive llu =>
      obtain rfl := Option.some.inj hs
      exact h.processCall llu
  | call k e => exact h.call hs

/-! ### Leaks -/

/-- The accounting of a connection does not leak: a call that is over has run `call_done`, and
when no accepted call is still being handled the counter is zero and the next call is not
refused. -/
structure NoLeak (opts : SessionOptions) (s : ServerCalls) : Prop where
  released : ∀ t ∈ s.calls, t.Released
  idle : (∀ t ∈ s.calls, t.call.Over) →
    s.current = 0 ∧ (0 < opts.maxActiveCalls → ∀ llu, s.Accepts opts llu)

/-- The step does not fail a call that nobody waits for before its closure was run. -/
def Releases (opts : SessionOptions) (s : ServerCalls) : AccountEvent → Prop
  | .receive _ => True
  | .call k e => ∀ t, s.calls[k]? = some t → e.Releases opts t.call

/-- With every finished call released, the counter counts the calls that are not finished. -/
theorem Accounted.noLeak {opts : SessionOptions} {s : ServerCalls} (h : s.Accounted)
    (hrel : ∀ t ∈ s.calls, t.Released) : s.NoLeak opts := by
  refine ⟨hrel, fun hover => ?_⟩
  have hpending : s.pending = 0 := by
    rw [pending, List.countP_eq_zero]
    intro t ht
    have := hrel t ht (hover t ht)
    simp only [beq_iff_eq]
    omega
  have hcurrent : s.current = 0 := by rw [h.current, hpending]; rfl
  refine ⟨hcurrent, fun hmax llu => ?_⟩
  have haccept : s.current + 1 ≤ opts.maxActiveCalls := by
    rw [hcurrent, UInt32.le_iff_toNat_le]
    exact UInt32.lt_iff_toNat_lt.mp hmax
  rw [Accepts, processCall_accepted haccept]
  exact ⟨rfl, rfl⟩

theorem released_step_iff {opts : SessionOptions} {s s' : ServerCalls} {e : AccountEvent}
    (h : s.Accounted) (hrel : ∀ t ∈ s.calls, t.Released) (hs : s.step opts e = some s') :
    (∀ t ∈ s'.calls, t.Released) ↔ s.Releases opts e := by
  cases e with
  | receive llu =>
      obtain rfl := Option.some.inj hs
      refine iff_of_true ?_ trivial
      by_cases hmax : s.current + 1 ≤ opts.maxActiveCalls
      · rw [processCall_accepted hmax]
        intro t ht
        rcases List.mem_append.mp ht with ht | ht
        · exact hrel t ht
        · obtain rfl := List.mem_singleton.mp ht
          rintro (hf | ⟨hr, _⟩)
          · cases hf
          · cases hr
      · rw [(processCall_refused hmax llu).1]
        exact hrel
  | call k e =>
      obtain ⟨t, r, hk, _, rfl, hstep⟩ := step_call hs
      obtain ⟨hlt, _⟩ := List.getElem?_eq_some_iff.mp hk
      have hmem := List.mem_of_getElem? hk
      have hiff := TrackedCall.Released.step_iff (h.calls t hmem) (hrel t hmem) hstep
      rw [apply_calls]
      constructor
      · intro hall t' ht'
        obtain rfl := Option.some.inj (hk.symm.trans ht')
        exact hiff.mp (hall _ (List.mem_set hlt _))
      · intro hcond t' ht'
        rcases List.mem_or_eq_of_mem_set ht' with ht' | rfl
        · exact hrel t' ht'
        · exact hiff.mpr (hcond t hk)

end ServerCalls

open ServerCalls in
/-- **Call accounting.**  A run of a server connection is without leaks in every state it
reaches if and only if none of its steps fails a call that nobody waits for before the closure
of that call was run. -/
theorem no_leak_iff (opts : SessionOptions) (es : List AccountEvent) (s : ServerCalls)
    (hrun : (accounting opts).run es = some s) :
    (∀ p q s', es = p ++ q → (accounting opts).run p = some s' → s'.NoLeak opts) ↔
      (accounting opts).Meets (Releases opts) (accounting opts).init es := by
  have hinit : ((accounting opts).init).Accounted := accounted_init opts
  have hnone : ∀ t ∈ (accounting opts).init.calls, t.Released := by simp [accounting]
  apply (accounting opts).forall_prefix_iff_meets (I := Accounted) hinit
    (hinit.noLeak hnone) _ _ hrun
  · intro s e s' h _ _ hs
    exact h.step hs
  · intro s e s' h hn hs
    rw [← released_step_iff h hn.released hs]
    exact ⟨fun h' => h'.released, (h.step hs).noLeak⟩

/-- A call that nobody waits for, served by a handler that keeps its closure and runs it after it
has returned: the counter is back at zero. -/
theorem no_leak_late_done :
    let es : List AccountEvent := [.receive { id := 103, serviceId := "s", methodId := "m" },
      .call 0 (.start 1 (fun _ => .ok (some (fun _ => true)))), .call 0 (.leave none),
      .call 0 (.runDone false false)]
    ∃ s, (accounting .defaults).run es = some s ∧ (∀ t ∈ s.calls, t.call.Over) ∧ s.current = 0 := by
  intro es
  obtain ⟨s, hs, hover⟩ : ∃ s, (accounting .defaults).run es = some s ∧
      ∀ t ∈ s.calls, t.call.Over := ⟨_, rfl, by decide⟩
  have hmeets : (accounting .defaults).Meets (ServerCalls.Releases .defaults)
      (accounting .defaults).init es := by
    refine ⟨trivial, fun s₁ h₁ => ⟨fun t ht => ?_, fun s₂ _ => ⟨fun _ _ => trivial,
      fun s₃ _ => ⟨fun _ _ => trivial, fun _ _ => trivial⟩⟩⟩⟩
    obtain rfl := Option.some.inj h₁
    obtain rfl := Option.some.inj ht
    exact .inr rfl
  have hall := (no_leak_iff .defaults es s hs).mpr hmeets
  exact ⟨s, hs, hover, ((hall es [] s (by simp) hs).idle hover).1⟩

/-- A call that nobody waits for to a service that does not exist, on a connection that allows
one call at a time: it has failed, has not run `call_done`, and the quota is used up. -/
theorem leak_unknown_service :
    let opts := { SessionOptions.defaults with maxActiveCalls := 1 }
    let es : List AccountEvent := [.receive { id := 103, serviceId := "s", methodId := "m" },
      .call 0 (.start 1 (fun _ => .ok none))]
    let next : LowlevelUnit := { id := 105, serviceId := "s", methodId := "m", opt := { wait := true } }
    ∃ s, (accounting opts).run es = some s ∧ (∀ t ∈ s.calls, t.call.Over) ∧
      (∀ t ∈ s.calls, dones t.log = 0) ∧ s.current = 1 ∧
      (s.processCall opts next).sent.map (·.error.code) = [ErrorNumber.busy.code] ∧
      ¬ s.NoLeak opts := by
  refine ⟨_, rfl, by decide, by decide, by decide, by decide, fun h => ?_⟩
  exact absurd (h.idle (by decide)).1 (by decide)

end Vtrc.Server
