import Vtrc.Insertion

/-! # Requests that ask for no answer

A request without `opt.wait` is refused silently on every path (`send_busy` and `process_insertion`
test the flag, and so does the failed branch of `make_local_call`), but `closure_done` sends its answer
whatever the flag says.

* `Mute c` is a unit with the id `c` that asks for no answer; `Muted c` says this of every unit that an
  end still has to do with.
* `Muted.writes` is what a step writes, and `fire_and_forget_iff` what a run does: a unit with the id is
  written exactly when a handler of the request runs its closure. -/

namespace Vtrc

open CallEffect LowlevelUnit

/-- If the unit has the id `c`, nobody waits for its answer. -/
def LowlevelUnit.Mute (c : UInt64) (u : LowlevelUnit) : Prop := u.id = c → u.opt.wait = false

theorem LowlevelUnit.Mute.congr {c : UInt64} {u v : LowlevelUnit} (h : u.Mute c)
    (hsame : LocalCall.SameUnit v u) : v.Mute c := by
  unfold Mute at h ⊢
  rw [hsame.id, hsame.opt]
  exact h

theorem LowlevelUnit.Mute.ne_of_wait {c : UInt64} {u : LowlevelUnit} (h : u.Mute c)
    (hwait : u.opt.wait = true) : u.id ≠ c := by
  intro hid
  rw [h hid] at hwait
  cases hwait

/-! ### Local calls -/

namespace LocalCall

/-- A step of a call that nobody waits for writes an answer only when the closure is run. -/
theorem sent_step {opts : SessionOptions} {c c' : LocalCall} {e : CallEvent}
    {effs : List CallEffect} (hwait : c.llu.opt.wait = false)
    (h : c.step opts e = some (c', effs)) :
    (sent effs).map LowlevelUnit.id = if e.answers then [c.llu.id] else [] := by
  rcases step_cases h with ⟨depth, services, ex, rfl, hp, hres, rfl, rfl⟩ |
    ⟨depth, services, rfl, hp, hres, rfl, rfl⟩ |
    ⟨he, rfl, hproto, hph, hllu, hconn, hproto', hint⟩ |
    ⟨uncaught, context, rfl, hproto, rfl, rfl⟩ | ⟨thrown, rfl, hrun, rfl, rfl⟩
  · obtain ⟨_, _, _, _, _, _, _, hsent⟩ := c.finish_some_spec ex
    rw [hsent, hwait]
    rfl
  · rfl
  · rcases he with ⟨_, rfl⟩ | ⟨_, rfl⟩ | rfl <;> rfl
  · obtain ⟨_, _, _, _, _, _, _, hsent⟩ := c.closureRunner_spec uncaught context
    have hlast : sent (if c.onStack then [] else (c.closureRunner uncaught context).1.callInternal)
        = [] := by
      split_ifs <;> simp
    rw [sent_append, hlast, List.append_nil, hsent]
    rfl
  · cases thrown with
    | none => simp [finish, CallEvent.answers]
    | some ex =>
        obtain ⟨_, _, _, _, _, _, _, hsent⟩ := c.finish_some_spec ex
        rw [hsent, hwait]
        rfl

end LocalCall

namespace RpcEnd

variable {opts : SessionOptions} {s s' : RpcEnd} {c : UInt64}

/-- A step that runs the closure of a local call with the id `c` where it answers. -/
def AnswersFor (c : UInt64) (s : RpcEnd) : RpcEvent → Prop
  | .served j e => e.answers = true ∧ ∃ l ∈ s.incoming[j]?, (s.refresh l).call.llu.id = c
  | _ => False

instance (c : UInt64) (s : RpcEnd) : (e : RpcEvent) → Decidable (AnswersFor c s e)
  | .served _ _ => inferInstanceAs (Decidable (_ ∧ _))
  | .start _ _ _ | .out _ _ | .unsent _ _ | .receive _ | .proceed | .systemError _ _ | .badMessage
  | .cancelAll => inferInstanceAs (Decidable False)

/-- No unit that is queued, held, shared or executed has the id `c` and asks for an answer. -/
structure Muted (c : UInt64) (s : RpcEnd) : Prop where
  queued : ∀ i u, .own u ∈ s.slots.dataAt i → u.Mute c
  held : ∀ hd, s.reader = some hd → hd.unit.Mute c
  refuse : ∀ u, s.reader = some (.refuse u) → u.opt.wait = true
  shared : ∀ u ∈ s.broadcasts, u.Mute c
  executed : ∀ l ∈ s.incoming, l.tracked.call.llu.Mute c

theorem muted_initial (c : UInt64) (side : Side) : Muted c (initial side) := by
  constructor <;> simp [initial, CondQueues.dataAt, CondQueues.empty]

theorem Muted.refresh (h : s.Muted c) {l : Incoming} (hl : l ∈ s.incoming) :
    (s.refresh l).call.llu.Mute c := by
  unfold RpcEnd.refresh
  cases hb : l.shared.bind (s.broadcasts[·]?) with
  | none => exact h.executed l hl
  | some u =>
      obtain ⟨b, _, hb⟩ := Option.bind_eq_some_iff.mp hb
      exact h.shared u (List.mem_of_getElem? hb)

theorem Muted.slots (h : s.Muted c) {q : CondQueues UInt64 Entry}
    (hq : ∀ i u, .own u ∈ q.dataAt i → u.Mute c) : Muted c { s with slots := q } :=
  { h with queued := hq }

theorem Muted.post (h : s.Muted c) {u : LowlevelUnit} (hu : u.Mute c) (shared : Option ℕ)
    (counted : Bool) : Muted c (s.post u shared counted) := by
  refine { h with executed := ?_ }
  exact List.forall_mem_append.mpr ⟨h.executed, List.forall_mem_singleton.mpr hu⟩

theorem Muted.pushAll (h : s.Muted c) {u : LowlevelUnit} (hu : u.Mute c) :
    Muted c (s.pushAll u) := by
  refine { h with queued := ?_, shared := ?_ }
  · intro i v hv
    rw [RpcEnd.pushAll, CondQueues.dataAt_writeAll, List.mem_append] at hv
    rcases hv with hv | hv
    · exact h.queued i v hv
    · split_ifs at hv
      · cases List.mem_singleton.mp hv
      · cases hv
  · exact List.forall_mem_append.mpr ⟨h.shared, List.forall_mem_singleton.mpr hu⟩

theorem Muted.readSlotFor (h : s.Muted c) {i : ℕ} {timedOut : Bool} {v : HoldValue UInt64 Entry}
    {r : ReadResult Entry} (hi : s.slots.values[i]? = some v)
    (hr : CondQueues.readResult v timedOut = some r) : (s.readSlotFor r).Mute c := by
  cases r with
  | canceled => exact fun _ => rfl
  | timeout => exact fun _ => rfl
  | success e =>
      obtain ⟨es, hv⟩ := CondQueues.readResult_success hr
      cases e with
      | own u =>
          apply h.queued i u
          rw [CondQueues.dataAt, hi, Option.elim_some, hv]
          exact List.mem_cons_self
      | shared b =>
          simp only [RpcEnd.readSlotFor, unit, List.getD_eq_getElem?_getD]
          cases hb : s.broadcasts[b]? with
          | none => exact fun _ => rfl
          | some u => exact h.shared u (List.mem_of_getElem? hb)

theorem Muted.outDoes (h : s.Muted c) {k : ℕ} {cl : Outgoing} {e : OutEvent}
    (hd : s.OutDoes k cl e s') : s'.Muted c := by
  cases hd with
  | moved st hslot hreading hresult => exact { h with }
  | wrote st hslot hreading hresult => exact { h with }
  | added hstage =>
      refine { h with queued := fun i u hu => h.queued i u ?_ }
      rwa [RpcEnd.setStage, CondQueues.dataAt_addQueue] at hu
  | began i hstage hi =>
      refine { h with queued := fun i u hu => h.queued i u ?_ }
      rwa [RpcEnd.setStage, CondQueues.dataAt_readBegin] at hu
  | woken i timedOut cbThrows v r hstage hi hr =>
      have hread : Muted c { s with slots := s.slots.readEnd i r } :=
        h.slots (fun n u hu => h.queued n u (CondQueues.mem_of_mem_dataAt_readEnd hu))
      have htop : ({ s with slots := s.slots.readEnd i r } : RpcEnd).readSlotFor r =
          s.readSlotFor r := by
        cases r <;> rfl
      rcases consume_cases { s with slots := s.slots.readEnd i r } k cl r cbThrows with
        ⟨_, heq⟩ | ⟨_, _, heq⟩ | ⟨_, _, heq⟩
      · rw [heq]
        exact { hread with }
      · rw [heq, htop]
        have hmoved : Muted c ({ s with slots := s.slots.readEnd i r }.setStage k cl
            (.serving s.incoming.length)) := { hread with }
        exact hmoved.post (h.readSlotFor hi hr) _ false
      · rw [heq]
        exact { hread with }
  | erased slot r hstage =>
      refine { h with queued := fun i u hu => h.queued i u ?_ }
      rwa [RpcEnd.setStage, CondQueues.dataAt_eraseQueue] at hu

/-- A local call has had effects, and its unit is the one it had. -/
theorem Muted.settle (h : s.Muted c) {l l' : Incoming} (hl : l ∈ s.incoming)
    (hsame : LocalCall.SameUnit l'.tracked.call.llu (s.refresh l).call.llu) (j : ℕ)
    (effs : List CallEffect) : Muted c (s.settle j l' effs) := by
  have hunit : l'.tracked.call.llu.Mute c := (h.refresh hl).congr hsame
  refine { h with shared := ?_, executed := ?_ }
  · intro u hu
    unfold RpcEnd.settle at hu
    cases hb : l'.shared with
    | none =>
        rw [hb] at hu
        exact h.shared u hu
    | some b =>
        rw [hb] at hu
        rcases List.mem_or_eq_of_mem_set hu with hu | rfl
        · exact h.shared u hu
        · exact hunit
  · intro l₁ hl₁
    rcases List.mem_or_eq_of_mem_set hl₁ with hl₁ | rfl
    · exact h.executed l₁ hl₁
    · exact hunit

theorem Muted.hold (h : s.Muted c) (hd : Held) (hu : hd.unit.Mute c)
    (hrefuse : ∀ u, hd = .refuse u → u.opt.wait = true) : Muted c { s with reader := some hd } := by
  refine { h with held := ?_, refuse := ?_ }
  · intro hd' heq
    obtain rfl := Option.some.inj heq
    exact hu
  · intro u heq
    exact hrefuse u (Option.some.inj heq)

theorem Muted.receiveDoes (h : s.Muted c) {u : LowlevelUnit} (hu : u.Mute c)
    (hs : s.ReceiveDoes opts u s') : s'.Muted c := by
  cases hs with
  | called htype hcall =>
      cases hcall with
      | posted hside hid => exact h.post hu none false
      | event hside hid => exact h.pushAll hu
      | admitted hside hmax =>
          exact Muted.post (s := { s with current := s.current + 1 }) { h with } hu none true
      | busy hside hmax hready => exact { h with }
      | mute hside hmax hwait hready => exact { h with }
  | inserted i htype hi => exact h.hold (.push i u) hu (fun _ heq => (by cases heq))
  | answered i htype hi => exact h.hold (.push i u) hu (fun _ heq => (by cases heq))
  | noContext htype hwait =>
      refine h.hold (.refuse u) hu ?_
      intro v heq
      cases heq
      exact hwait
  | dropped htype hwait => exact { h with }
  | ignored htype => exact h

theorem Muted.proceed (h : s.Muted c) {hd : Held} (hr : s.reader = some hd) :
    Muted c (s.proceed hd) := by
  have htaken : Muted c { s with reader := none } :=
    { h with held := (fun _ heq => (by cases heq)), refuse := (fun _ heq => (by cases heq)) }
  cases hd with
  | push i u =>
      refine htaken.slots (fun n v hv => ?_)
      rcases CondQueues.mem_dataAt_pushValueData hv with hv | ⟨_, heq⟩
      · exact h.queued n v hv
      · cases heq
        exact h.held _ hr
  | refuse u => exact { htaken with }

theorem Muted.step (h : s.Muted c) {e : RpcEvent} (hu : ∀ u ∈ received e, u.Mute c)
    (hs : s.step opts e = some s') : s'.Muted c := by
  cases does_of_step hs with
  | started ch cc m hdirect hcallback => exact { h with }
  | out hk hdoes => exact h.outDoes hdoes
  | served hj hstep =>
      exact h.settle (List.mem_of_getElem? hj) (LocalCall.sameUnit_step hstep).1 _ _
  | unsent ex hj hstack hwait heq =>
      subst heq
      exact h.settle (List.mem_of_getElem? hj) ⟨rfl, rfl, rfl⟩ _ _
  | received u hreader hdoes =>
      have ha : Muted c { s with arrived := s.arrived ++ [u] } := { h with }
      exact ha.receiveDoes (hu u (List.mem_singleton_self u)) hdoes
  | proceeded hd hreader => exact h.proceed hreader
  | failed code add => exact Muted.pushAll (s := { s with ready := false }) { h with } (fun _ => rfl)
  | bad hside => exact h.pushAll (fun _ => rfl)
  | canceled =>
      refine h.slots (fun i u hu => h.queued i u ?_)
      rwa [CondQueues.dataAt_cancelAll] at hu

/-! ### What a step writes -/

/-- A step adds units to `sent`; one of them has the id `c` exactly when a closure of such a call has
answered. -/
def WritesFor (c : UInt64) (s : RpcEnd) (e : RpcEvent) (s' : RpcEnd) : Prop :=
  ∃ us, s'.sent = s.sent ++ us ∧ ((∀ u ∈ us, u.id ≠ c) ↔ ¬ AnswersFor c s e)

/-- A step that is no step of a handler, and writes nothing with the id `c`. -/
theorem WritesFor.other {e : RpcEvent} {us : List LowlevelUnit} (hsent : s'.sent = s.sent ++ us)
    (hus : ∀ u ∈ us, u.id ≠ c) (he : ¬ AnswersFor c s e) : WritesFor c s e s' :=
  ⟨us, hsent, iff_of_true hus he⟩

theorem WritesFor.none {e : RpcEvent} (hsent : s'.sent = s.sent) (he : ¬ AnswersFor c s e) :
    WritesFor c s e s' :=
  .other (by rw [hsent, List.append_nil]) (by simp) he

theorem Muted.writes_served (h : s.Muted c) {j : ℕ} {l : Incoming} {e : CallEvent} {c' : LocalCall}
    {effs : List CallEffect} (hj : s.incoming[j]? = some l)
    (hstep : (s.refresh l).call.step opts e = some (c', effs)) :
    WritesFor c s (.served j e)
      (s.settle j { l with tracked := ⟨c', (s.refresh l).log ++ effs⟩ } effs) := by
  refine ⟨CallEffect.sent effs, rfl, ?_⟩
  have hmute := h.refresh (List.mem_of_getElem? hj)
  have hanswers : AnswersFor c s (.served j e) ↔
      e.answers = true ∧ (s.refresh l).call.llu.id = c := by
    simp [AnswersFor, hj]
  rw [hanswers]
  by_cases hid : (s.refresh l).call.llu.id = c
  · have hids := LocalCall.sent_step (hmute hid) hstep
    rw [hid] at hids
    rw [show (∀ u ∈ CallEffect.sent effs, u.id ≠ c) ↔
      c ∉ (CallEffect.sent effs).map LowlevelUnit.id by simp, hids]
    cases e.answers <;> simp [hid]
  · have hsame := (LocalCall.sameUnit_step hstep).2
    refine iff_of_true (fun u hu => ?_) (fun ha => hid ha.2)
    rw [(hsame u hu).id]
    exact hid

theorem writes_outDoes {k : ℕ} {cl : Outgoing} {e : OutEvent} (hcl : cl ∈ s.calls)
    (hown : ∀ k ∈ s.calls, k.llu.id ≠ c) (h : s.OutDoes k cl e s') :
    WritesFor c s (.out k e) s' := by
  cases h with
  | wrote st hslot hreading hresult => exact .other rfl (by simpa using hown cl hcl) id
  | woken i timedOut cbThrows v r hstage hi hr =>
      exact .none (consume_frame { s with slots := s.slots.readEnd i r } k cl r cbThrows).2.1 id
  | _ => exact .none rfl id

/-- `process_call` writes nothing to a sender that does not wait. -/
theorem writes_received {u : LowlevelUnit} (hu : u.Mute c) (h : s.ReceiveDoes opts u s') :
    ∃ us, s'.sent = s.sent ++ us ∧ ∀ v ∈ us, v.id ≠ c := by
  have hnone : ∃ us, s.sent = s.sent ++ us ∧ ∀ v ∈ us, v.id ≠ c :=
    ⟨[], (List.append_nil _).symm, by simp⟩
  cases h with
  | called htype hcall =>
      cases hcall with
      | busy hside hmax hready =>
          refine ⟨_, rfl, ?_⟩
          unfold busyReplies
          split_ifs with hwait
          · simpa [busyReply] using hu.ne_of_wait hwait
          · simp
      | _ => exact hnone
  | _ => exact hnone

theorem Muted.writes (h : s.Muted c) (hown : ∀ k ∈ s.calls, k.llu.id ≠ c) {e : RpcEvent}
    (hu : ∀ u ∈ received e, u.Mute c) (hs : s.step opts e = some s') : WritesFor c s e s' := by
  cases does_of_step hs with
  | out hk hdoes => exact writes_outDoes (List.mem_of_getElem? hk) hown hdoes
  | served hj hstep => exact h.writes_served hj hstep
  | unsent ex hj hstack hwait heq => exact .other rfl (by simp) id
  | received u hreader hdoes =>
      obtain ⟨us, hsent, hus⟩ := writes_received (hu u (List.mem_singleton_self u)) hdoes
      exact .other hsent hus id
  | proceeded hd hreader =>
      cases hd with
      | push i u => exact .none rfl id
      | refuse u =>
          have hne := (h.held _ hreader).ne_of_wait (h.refuse u hreader)
          refine .other rfl ?_ id
          split_ifs
          · simpa [contextError, Held.unit] using hne
          · simp
  | _ => exact .none rfl id

/-! ### Runs -/

/-- The units of the calls that an end has made. -/
def requests (s : RpcEnd) : List LowlevelUnit := s.calls.map Outgoing.llu

theorem requests_setStage {k : ℕ} {cl : Outgoing} (hk : s.calls[k]? = some cl) (st : CallStage) :
    (s.setStage k cl st).requests = s.requests := by
  unfold requests setStage
  apply List.ext_getElem?
  intro j
  rw [List.getElem?_map, List.getElem?_map, List.getElem?_set]
  split_ifs with hjk hlt
  · rw [← hjk, hk]
    rfl
  · exact absurd (List.getElem?_eq_some_iff.mp hk).1 hlt
  · rfl

theorem requests_outDoes {k : ℕ} {cl : Outgoing} {e : OutEvent} (hk : s.calls[k]? = some cl)
    (h : s.OutDoes k cl e s') : s'.requests = s.requests := by
  cases h with
  | woken i timedOut cbThrows v r hstage hi hr =>
      obtain ⟨_, _, _, st, hcalls⟩ :=
        consume_frame { s with slots := s.slots.readEnd i r } k cl r cbThrows
      exact (congrArg (List.map Outgoing.llu) hcalls).trans (requests_setStage hk st)
  | _ => exact requests_setStage hk _

theorem requests_received {u : LowlevelUnit} (h : s.ReceiveDoes opts u s') :
    s'.requests = s.requests := by
  cases h with
  | called htype hcall => cases hcall <;> rfl
  | _ => rfl

theorem requests_step {e : RpcEvent} (hs : s.step opts e = some s') :
    s.requests <+: s'.requests := by
  cases does_of_step hs with
  | started ch cc m hdirect hcallback =>
      unfold requests startCall
      dsimp only
      rw [List.map_append]
      exact List.prefix_append _ _
  | out hk hdoes => rw [requests_outDoes hk hdoes]
  | received u hreader hdoes =>
      rw [requests_received hdoes]
      exact List.prefix_rfl
  | proceeded hd hreader => cases hd <;> exact List.prefix_rfl
  | _ => exact List.prefix_rfl

/-- The run lemma: the units that are written for `c` are the answers of closures. -/
theorem muted_run {side : Side} {es : List RpcEvent}
    (hrun : (rpcMachine opts side).run es = some s) :
    (∀ w ∈ s.arrived, w.Mute c) → (∀ u ∈ s.requests, u.id ≠ c) →
      s.Muted c ∧ ((∀ u ∈ s.sent, u.id ≠ c) ↔
        (rpcMachine opts side).Meets (fun s e => ¬ AnswersFor c s e)
          (rpcMachine opts side).init es) := by
  induction es using List.reverseRecOn generalizing s with
  | nil =>
      obtain rfl := Option.some.inj hrun
      intro _ _
      refine ⟨muted_initial c side, iff_of_true ?_ trivial⟩
      intro u hu
      cases hu
  | append_singleton es e ih =>
      obtain ⟨s₁, hrun, hs⟩ := (rpcMachine opts side).runFrom_snoc_eq_some.mp hrun
      intro harrived hrequests
      have hgrows := (grows_step hs).arrived
      obtain ⟨hmuted, hiff⟩ := ih hrun
        (fun w hw => harrived w (by rw [hgrows]; exact List.mem_append_left _ hw))
        (fun u hu => hrequests u ((requests_step hs).subset hu))
      have hu : ∀ u ∈ received e, u.Mute c := by
        intro u hu
        apply harrived u
        rw [hgrows]
        exact List.mem_append_right _ hu
      have hown : ∀ k ∈ s₁.calls, k.llu.id ≠ c := by
        intro k hk
        exact hrequests k.llu ((requests_step hs).subset (List.mem_map_of_mem hk))
      obtain ⟨us, hsent, hwrites⟩ := hmuted.writes hown hu hs
      refine ⟨hmuted.step hu hs, ?_⟩
      rw [(rpcMachine opts side).meets_snoc_iff hrun, ← hiff, ← hwrites, hsent]
      simp only [List.mem_append, or_imp, forall_and]

end RpcEnd

open RpcEnd

/-- **Requests that ask for no answer.**  At one end of a connection, in every run, let no request
with the id `c` ask for an answer, and let no call of this end have that id.  Then no unit with this
id is written exactly when no closure of such a request is run where it answers: none of the
refusals and failures answers, and `closure_done` always does. -/
theorem fire_and_forget_iff (opts : SessionOptions) (side : Side) (es : List RpcEvent) (s : RpcEnd)
    (hrun : (rpcMachine opts side).run es = some s) (c : UInt64)
    (hmute : ∀ w ∈ s.arrived, w.id = c → w.opt.wait = false)
    (hown : ∀ u ∈ s.requests, u.id ≠ c) :
    (∀ u ∈ s.sent, u.id ≠ c) ↔
      (rpcMachine opts side).Meets (fun s e => ¬ AnswersFor c s e) (rpcMachine opts side).init es :=
  (muted_run hrun hmute hown).2

/-- A request that waits for nothing is refused by its handler with an exception: nothing is
written. -/
theorem fire_and_forget_failed :
    let request : LowlevelUnit := { id := 103, messageType := .clientCall, serviceId := "s" }
    let es : List RpcEvent := [.receive request,
      .served 0 (.start 1 (fun _ => .ok (some (fun _ => true)))), .served 0 (.leave (some .other))]
    ∃ s, (rpcMachine .defaults .server).run es = some s ∧ s.arrived = [request] ∧
      ∀ u ∈ s.sent, u.id ≠ 103 := by
  intro request es
  refine ⟨_, rfl, rfl, ?_⟩
  exact (fire_and_forget_iff .defaults .server es _ rfl 103 (by decide) (by decide)).mpr
    (by decide +kernel)

/-- The handler of a request that waits for nothing runs its closure, and the answer is written. -/
theorem fire_and_forget_answered :
    let request : LowlevelUnit := { id := 103, messageType := .clientCall, serviceId := "s" }
    let es : List RpcEvent := [.receive request,
      .served 0 (.start 1 (fun _ => .ok (some (fun _ => true)))), .served 0 (.runDone false true)]
    ∃ s, (rpcMachine .defaults .server).run es = some s ∧ s.arrived = [request] ∧
      request.opt.wait = false ∧ ¬ ∀ u ∈ s.sent, u.id ≠ 103 := by
  intro request es
  exact ⟨_, rfl, rfl, rfl, by decide⟩

end Vtrc
