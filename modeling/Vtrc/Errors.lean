import Vtrc.Insertion
import Vtrc.Replies

/-! # Failures on their way to the caller

A call fails on the other end of the connection (`make_local_call` catches an exception and sends
the unit back with an error) or with the connection (`on_system_error` pushes a unit to all slots).
Either way `call_and_wait` knows a failure only by a code that is not zero.

* `Unfinished` is the unit of a call before `make_local_call` is left: the request itself, or the
  answer of the closure; its category is still that of the request.
* `Awaits.deliver` is the way of a reply to a call that waits for it.
* `error_reaches_caller_iff` says which exceptions reach the caller as they were thrown: the
  category is nowhere set, and the code zero is no error.
* `undecodable_fails_waiting_iff` is about the unit that `read_handler` has pushed when
  `process_data` throws. -/

namespace Vtrc

open CallEffect LowlevelUnit

/-- The category of an exception; what is not a `common::exception` counts as internal. -/
def Thrown.category : Thrown → UInt32
  | common _ category _ => category
  | std _ => categoryInternal
  | other => categoryInternal

/-! ### The callee -/

theorem RpcChannel.configureMessage_error {ch : RpcChannel} {cc : Option LowlevelUnit}
    {id : UInt64} {messType : MessageType} {req : Option Bytes} {llu u : LowlevelUnit}
    (h : ch.configureMessage cc id messType req llu = some u) : u.error = llu.error := by
  unfold configureMessage at h
  dsimp only at h
  cases cc with
  | none => split_ifs at h <;> cases h <;> rfl
  | some c =>
      dsimp only at h
      split_ifs at h <;> cases h <;> rfl

theorem RpcChannel.configure_error {ch : RpcChannel} {cc : Option LowlevelUnit} {id : UInt64}
    {m : MethodCall} {u : LowlevelUnit} (h : ch.configure cc id m = some u) : u.error = {} :=
  configureMessage_error h

namespace LocalCall

/-- The unit that a failed call sends. -/
def failure (c : LocalCall) (ex : Thrown) : LowlevelUnit :=
  { c.llu with
    error := { c.llu.error with code := ex.code, additional := ex.additional }
    response := [] }

theorem sent_finish_some {c : LocalCall} (hwait : c.llu.opt.wait = true) (ex : Thrown) :
    sent (c.finish (some ex)).2 = [c.failure ex] := by
  unfold finish
  dsimp only
  rw [if_pos hwait, sent_append, sent_release]
  rfl

theorem leave_eq_some {opts : SessionOptions} {c : LocalCall} {thrown : Option Thrown}
    {r : LocalCall × List CallEffect} (h : c.step opts (.leave thrown) = some r) :
    c.phase = .running ∧ c.finish thrown = r := by
  simp only [step] at h
  split_ifs at h with hrunning
  exact ⟨hrunning, Option.some.inj h⟩

theorem closureDone_category (hold : ClosureHolder) (llu : LowlevelUnit) :
    (closureDone hold llu).error.category = llu.error.category := by
  simp only [closureDone]
  split_ifs <;> rfl

end LocalCall

namespace TrackedCall

/-- A call whose frame is there: the closure has sent its answer, which is now the unit of the
call, or nothing was sent. -/
structure Unfinished (llu : LowlevelUnit) (t : TrackedCall) : Prop where
  same : LocalCall.SameUnit t.call.llu llu
  category : t.call.llu.error.category = llu.error.category
  sent : sent t.log = [] ∨ t.call.DoneRun ∧ sent t.log = [t.call.llu]

theorem Unfinished.closureRunner {llu : LowlevelUnit} {t : TrackedCall} (h : t.Unfinished llu)
    (hinv : t.Inv) (hproto : t.call.hold.protoClosure = true)
    (uncaught context : Bool) {effs : List CallEffect} (heffs : CallEffect.sent effs = []) :
    Unfinished llu ⟨(t.call.closureRunner uncaught context).1,
      t.log ++ ((t.call.closureRunner uncaught context).2 ++ effs)⟩ := by
  obtain ⟨_, hconn, _, hgone, _⟩ := t.call.closureRunner_spec uncaught context
  have hnone : CallEffect.sent t.log = [] := by
    refine h.sent.resolve_right ?_
    rintro ⟨hd, _⟩
    rw [hd.2] at hproto
    cases hproto
  have hdone : (t.call.closureRunner uncaught context).1.DoneRun :=
    ⟨hconn.trans (hinv.closure hproto), hgone⟩
  refine ⟨(LocalCall.sameUnit_closureRunner t.call uncaught context).1.trans h.same, ?_, ?_⟩
  · rw [← h.category]
    cases uncaught <;> cases context <;>
      simp [LocalCall.closureRunner, LocalCall.answer, LocalCall.closureDone_category]
  · rw [sent_append, sent_append, heffs, hnone, List.append_nil, List.nil_append]
    cases uncaught <;> cases context
    · exact .inr ⟨hdone, rfl⟩
    · exact .inr ⟨hdone, rfl⟩
    · exact .inr ⟨hdone, rfl⟩
    · exact .inl rfl

theorem Unfinished.step {opts : SessionOptions} {llu : LowlevelUnit} {t t' : TrackedCall}
    {e : CallEvent} (hinv : t.Inv) (h : t.call.onStack = true → t.Unfinished llu)
    (hs : t.step opts e = some t') (hstack : t'.call.onStack = true) : t'.Unfinished llu := by
  obtain ⟨⟨c', effs⟩, hstep, rfl⟩ := Option.map_eq_some_iff.mp hs
  rcases LocalCall.step_cases hstep with ⟨depth, services, ex, rfl, hp, hres, rfl, rfl⟩ |
    ⟨depth, services, rfl, hp, hres, rfl, rfl⟩ |
    ⟨he, rfl, hproto, hph, hllu, hconn, hproto', hint⟩ |
    ⟨uncaught, context, rfl, hproto, rfl, rfl⟩ | ⟨thrown, rfl, hrun, rfl, rfl⟩
  · simp only [LocalCall.onStack, (t.call.finish_some_spec ex).1] at hstack
    cases hstack
  · obtain ⟨hsame, hcat, hsent⟩ := h (by rw [LocalCall.onStack, hp])
    refine ⟨hsame, hcat, .inl ?_⟩
    rw [List.append_nil]
    refine hsent.resolve_right ?_
    rintro ⟨hd, _⟩
    have := hd.1
    rw [(hinv.fresh hp).1] at this
    cases this
  · obtain ⟨hsame, hcat, hsent⟩ := h (by
      rw [LocalCall.onStack] at hstack ⊢
      rwa [hph] at hstack)
    refine ⟨hllu ▸ hsame, hllu ▸ hcat, .inl ?_⟩
    rw [List.append_nil]
    refine hsent.resolve_right ?_
    rintro ⟨hd, _⟩
    rw [hd.2] at hproto
    cases hproto
  · refine (h ?_).closureRunner hinv hproto uncaught context (by split_ifs <;> simp)
    rw [LocalCall.onStack, (t.call.closureRunner_spec uncaught context).1] at hstack
    exact hstack
  · exfalso
    cases thrown with
    | none => cases hstack
    | some ex =>
        simp only [LocalCall.onStack, (t.call.finish_some_spec ex).1] at hstack
        cases hstack

theorem unfinished_run {opts : SessionOptions} {llu : LowlevelUnit} {es : List CallEvent}
    {t : TrackedCall} (h : (callMachine opts llu).run es = some t)
    (hstack : t.call.onStack = true) : t.Unfinished llu := by
  have hall := (callMachine opts llu).runFrom_inv
    (I := fun t => t.Inv ∧ (t.call.onStack = true → t.Unfinished llu)) ?_ ?_ h
  · exact hall.2 hstack
  · rintro t e t' ⟨hinv, hunf⟩ hs
    exact ⟨hinv.step hs, fun hstack => Unfinished.step hinv hunf hs hstack⟩
  · exact ⟨inv_post llu, fun _ => ⟨⟨rfl, rfl, rfl⟩, rfl, .inl rfl⟩⟩

end TrackedCall

/-! ### The caller -/

namespace RpcEnd

variable {opts : SessionOptions} {s : RpcEnd} {k i : ℕ} {llu u : LowlevelUnit}

/-- The call number `k` waits for the answer to `llu`: it reads its slot, which is empty, and the
reading thread is at rest. -/
structure Awaits (s : RpcEnd) (k i : ℕ) (llu : LowlevelUnit) : Prop where
  call : s.calls[k]? = some ⟨llu, .reading i⟩
  slot : s.slots.valueByKey llu.id = some i
  empty : ∃ h, s.slots.values[i]? = some h ∧ h.data = [] ∧ h.canceled = false
  reader : s.reader = none

/-- Where the loop of `call_and_wait` goes with the unit `top`, while `n` local calls were made. -/
def afterRead (llu top : LowlevelUnit) (n : ℕ) : CallStage :=
  if top.error.code ≠ 0 then .leaving true (.failed top.error)
  else if top.messageType ≠ llu.messageType then .serving n
  else .leaving true (.returned top)

variable (opts) in
theorem step_wake {hv : HoldValue UInt64 Entry} {r : ReadResult Entry}
    (hcall : s.calls[k]? = some ⟨llu, .reading i⟩) (hslot : s.slots.values[i]? = some hv)
    (hread : CondQueues.readResult hv false = some r) :
    ∃ s', s.step opts (.out k (.wake false false)) = some s' ∧
      s'.calls[k]? = some ⟨llu, afterRead llu (s.readSlotFor r) s.incoming.length⟩ := by
  have hlt := (List.getElem?_eq_some_iff.mp hcall).1
  refine ⟨{ s with slots := s.slots.readEnd i r }.consume k ⟨llu, .reading i⟩ r false, ?_, ?_⟩
  · simp only [step, hcall, Option.bind_some, outStep, hslot, hread, Option.map_some]
  · have hset : ∀ st, (s.calls.set k { llu := llu, stage := st })[k]? = some ⟨llu, st⟩ :=
      fun st => List.getElem?_set_self hlt
    have htop : ({ s with slots := s.slots.readEnd i r } : RpcEnd).readSlotFor r =
        s.readSlotFor r := by
      cases r <;> rfl
    have hcases := consume_cases { s with slots := s.slots.readEnd i r } k ⟨llu, .reading i⟩ r false
    rw [htop] at hcases
    unfold afterRead
    rcases hcases with
      ⟨hcode, heq⟩ | ⟨hcode, htype, heq⟩ | ⟨hcode, htype, heq⟩
    · rw [heq, if_pos hcode]
      exact hset _
    · rw [heq, if_neg (not_not.mpr hcode), if_pos htype]
      exact hset _
    · rw [heq, if_neg (not_not.mpr hcode), if_neg (not_not.mpr htype)]
      exact hset _

theorem Awaits.pushed (h : s.Awaits k i llu) (hside : llu.OfSide s.side)
    (hsame : LocalCall.SameUnit u llu) :
    (rpcMachine opts s.side).runFrom s [.receive u, .proceed] = some { s with
      arrived := s.arrived ++ [u], slots := s.slots.pushValueData i (.own u) } := by
  have hu : u.OfSide s.side := hside.congr hsame.messageType
  have hnot := hu.not_other
  unfold OfSide at hu hnot
  rw [not_or] at hnot
  have hreceive : s.receive opts u =
      { s with arrived := s.arrived ++ [u], reader := some (.push i u) } := by
    unfold receive
    dsimp only
    rw [if_neg hnot.1, if_neg hnot.2, if_pos hu]
    unfold processAnswer
    dsimp only
    rw [hsame.id, h.slot]
  rw [Machine.runFrom_cons]
  simp only [rpcMachine, step, h.reader, if_true, Option.bind_some, Machine.runFrom_cons,
    hreceive, Option.map_some, proceed, Machine.runFrom_nil]

variable (opts) in
/-- A reply comes to a call that waits for it: the call fails with the error of the reply, or returns
true when the code of the error is zero. -/
theorem Awaits.deliver (h : s.Awaits k i llu) (hside : llu.OfSide s.side)
    (hsame : LocalCall.SameUnit u llu) :
    ∃ s', (rpcMachine opts s.side).runFrom s
        [.receive u, .proceed, .out k (.wake false false)] = some s' ∧
      s'.calls[k]? = some ⟨llu, afterRead llu u s.incoming.length⟩ := by
  obtain ⟨hv, hslot, hdata, hcanceled⟩ := h.empty
  have hpushed : (s.slots.pushValueData i (.own u)).values[i]? =
      some { hv with data := [.own u] } := by
    simp only [CondQueues.pushValueData, CondQueues.updateAt_getElem?, hslot, Option.map_some,
      if_true, hdata, List.nil_append]
  have hread : CondQueues.readResult { hv with data := [Entry.own u] } false =
      some (.success (Entry.own u)) := by
    unfold CondQueues.readResult
    rw [hcanceled]
    rfl
  obtain ⟨s', hwake, hcall⟩ := step_wake opts (s := { s with
    arrived := s.arrived ++ [u], slots := s.slots.pushValueData i (.own u) }) h.call hpushed hread
  refine ⟨s', ?_, hcall⟩
  rw [show [RpcEvent.receive u, .proceed, .out k (.wake false false)] =
    [.receive u, .proceed] ++ [.out k (.wake false false)] from rfl,
    Machine.runFrom_append_eq_some]
  refine ⟨_, h.pushed hside hsame, ?_⟩
  rw [Machine.runFrom_cons_eq_some]
  exact ⟨s', hwake, rfl⟩

/-- The caller gets the exception `ex` from the unit that was sent first: it takes the unit, its call
fails, and the error callback is given what was thrown. -/
def ErrorReaches (opts : SessionOptions) (s : RpcEnd) (k : ℕ) (reply : Option LowlevelUnit)
    (ex : Thrown) : Prop :=
  ∃ u, reply = some u ∧ ∃ s' c err,
    (rpcMachine opts s.side).runFrom s [.receive u, .proceed, .out k (.wake false false)] = some s' ∧
      s'.calls[k]? = some c ∧ c.stage = .leaving true (.failed err) ∧ err.code = ex.code ∧
      err.category = ex.category ∧ err.additional = ex.additional

theorem Awaits.errorReaches_iff (h : s.Awaits k i llu) (hside : llu.OfSide s.side)
    (hsame : LocalCall.SameUnit u llu) (ex : Thrown) :
    s.ErrorReaches opts k (some u) ex ↔
      u.error.code ≠ 0 ∧ u.error.code = ex.code ∧ u.error.category = ex.category ∧
        u.error.additional = ex.additional := by
  obtain ⟨s', hrun, hcall⟩ := h.deliver opts hside hsame
  unfold afterRead at hcall
  rw [if_neg (not_not.mpr hsame.messageType)] at hcall
  constructor
  · rintro ⟨_, hu, s₁, c, err, hrun', hcall', hstage, hcode, hcat, hadd⟩
    obtain rfl := Option.some.inj hu
    obtain rfl := Option.some.inj (hrun.symm.trans hrun')
    obtain rfl := Option.some.inj (hcall.symm.trans hcall')
    by_cases hzero : u.error.code ≠ 0
    · rw [if_pos hzero] at hstage
      cases hstage
      exact ⟨hzero, hcode, hcat, hadd⟩
    · rw [if_neg hzero] at hstage
      cases hstage
  · rintro ⟨hzero, hcode, hcat, hadd⟩
    rw [if_pos hzero] at hcall
    exact ⟨u, rfl, s', _, u.error, hrun, hcall, rfl, hcode, hcat, hadd⟩

end RpcEnd

/-- **Exceptions and the caller.**  A handler throws `ex` while it serves the waiting call `llu`, and
the caller takes the unit that was sent first.  The caller's call fails with the code, the category
and the text of `ex` exactly when the code is not zero, the category is the internal one (no other
is ever set), and an answer that the closure has sent before has this code and this text. -/
theorem error_reaches_caller_iff (opts opts' : SessionOptions) (ch : RpcChannel)
    (cc : Option LowlevelUnit) (id : UInt64) (m : MethodCall) (llu : LowlevelUnit)
    (hconf : ch.configure cc id m = some llu) (hwait : llu.opt.wait = true)
    (s : RpcEnd) (k i : ℕ) (hside : llu.OfSide s.side) (hawaits : s.Awaits k i llu)
    (es : List CallEvent) (t t' : TrackedCall) (hrun : (callMachine opts' llu).run es = some t)
    (ex : Thrown) (hleave : t.step opts' (.leave (some ex)) = some t') :
    s.ErrorReaches opts k (sent t'.log).head? ex ↔
      ex.code ≠ 0 ∧ ex.category = categoryInternal ∧
        ∀ a ∈ sent t.log, a.error.code = ex.code ∧ a.error.additional = ex.additional := by
  have hinternal : llu.error.category = categoryInternal := by
    rw [RpcChannel.configure_error hconf]
    rfl
  obtain ⟨r, hstep, rfl⟩ := Option.map_eq_some_iff.mp hleave
  obtain ⟨hrunning, rfl⟩ := LocalCall.leave_eq_some hstep
  obtain ⟨hsame, hcat, hsent⟩ :=
    TrackedCall.unfinished_run hrun (by rw [LocalCall.onStack, hrunning])
  have hfailure : sent (t.log ++ (t.call.finish (some ex)).2) =
      sent t.log ++ [t.call.failure ex] := by
    rw [sent_append, LocalCall.sent_finish_some]
    rw [hsame.opt, hwait]
  rw [hfailure]
  rcases hsent with hnone | ⟨_, hone⟩
  · rw [hnone]
    have hsame' : LocalCall.SameUnit (t.call.failure ex) llu :=
      ⟨hsame.id, hsame.messageType, hsame.opt⟩
    refine (hawaits.errorReaches_iff hside hsame' ex).trans ?_
    rw [show (t.call.failure ex).error.category = categoryInternal from hcat.trans hinternal]
    constructor
    · rintro ⟨hzero, _, hcategory, _⟩
      exact ⟨hzero, hcategory.symm, by simp⟩
    · rintro ⟨hzero, hcategory, _⟩
      exact ⟨hzero, rfl, hcategory.symm, rfl⟩
  · rw [hone]
    refine (hawaits.errorReaches_iff hside hsame ex).trans ?_
    rw [hcat.trans hinternal]
    constructor
    · rintro ⟨hzero, hcode, hcategory, hadd⟩
      exact ⟨hcode ▸ hzero, hcategory.symm, by simpa using ⟨hcode, hadd⟩⟩
    · rintro ⟨hzero, hcategory, hanswer⟩
      obtain ⟨hcode, hadd⟩ := hanswer t.call.llu (List.mem_singleton_self _)
      exact ⟨hcode.symm ▸ hzero, hcode, hcategory.symm, hadd⟩

/-- A client whose call 103 waits for its answer. -/
theorem awaiting_client :
    let ch : RpcChannel := .create .client {} none
    let m : MethodCall := ⟨"s", "m", none, true, true, true⟩
    let llu : LowlevelUnit := { ch.createLowlevel m with id := 103, messageType := .clientCall }
    ch.configure none 103 m = some llu ∧
      ∃ s, (rpcMachine .defaults .client).run [.start ch none m, .out 0 (.enter true), .out 0 .test,
        .out 0 .add, .out 0 (.write true), .out 0 .read] = some s ∧ s.side = .client ∧
        s.Awaits 0 0 llu :=
  ⟨rfl, _, rfl, rfl, rfl, rfl, ⟨_, rfl, rfl, rfl⟩, rfl⟩

/-- An exception of the internal category reaches the caller. -/
theorem internal_error_reaches :
    let ch : RpcChannel := .create .client {} none
    let m : MethodCall := ⟨"s", "m", none, true, true, true⟩
    let llu : LowlevelUnit := { ch.createLowlevel m with id := 103, messageType := .clientCall }
    let services : Services := fun _ => .ok (some (fun _ => true))
    let ex : Thrown := .common 13 categoryInternal "x"
    ∃ (s : RpcEnd) (t t' : TrackedCall), s.Awaits 0 0 llu ∧
      (callMachine .defaults llu).run [.start 1 services] = some t ∧
      t.step .defaults (.leave (some ex)) = some t' ∧
      s.ErrorReaches .defaults 0 (sent t'.log).head? ex := by
  intro ch m llu services ex
  obtain ⟨hconf, s, _, hside, hawaits⟩ := awaiting_client
  have hof : llu.OfSide s.side := by
    rw [hside]
    exact .inl rfl
  refine ⟨s, _, _, hawaits, rfl, rfl, ?_⟩
  exact (error_reaches_caller_iff .defaults .defaults ch none 103 m llu hconf rfl s 0 0 hof hawaits
    [.start 1 services] _ _ rfl ex rfl).mpr ⟨by decide, rfl, by simp [callMachine]⟩

/-- A system error comes to the caller as an internal one, and an exception with the code zero as a
success. -/
theorem thrown_errors_altered :
    let ch : RpcChannel := .create .client {} none
    let m : MethodCall := ⟨"s", "m", none, true, true, true⟩
    let llu : LowlevelUnit := { ch.createLowlevel m with id := 103, messageType := .clientCall }
    let services : Services := fun _ => .ok (some (fun _ => true))
    ∃ (s : RpcEnd) (t : TrackedCall), s.Awaits 0 0 llu ∧
      (callMachine .defaults llu).run [.start 1 services] = some t ∧
      (∃ t', t.step .defaults (.leave (some (.common 5 categorySystem "x"))) = some t' ∧
        ¬ s.ErrorReaches .defaults 0 (sent t'.log).head? (.common 5 categorySystem "x")) ∧
      ∃ t' u s', t.step .defaults (.leave (some (.common 0 categoryInternal "x"))) = some t' ∧
        sent t'.log = [u] ∧
        (rpcMachine .defaults .client).runFrom s
          [.receive u, .proceed, .out 0 (.wake false false)] = some s' ∧
        s'.calls[0]? = some ⟨llu, .leaving true (.returned u)⟩ := by
  intro ch m llu services
  obtain ⟨_, s, _, hside, hawaits⟩ := awaiting_client
  have hof : llu.OfSide s.side := by
    rw [hside]
    exact .inl rfl
  refine ⟨s, _, hawaits, rfl, ⟨_, rfl, ?_⟩, ?_⟩
  · intro h
    have hcat := ((hawaits.errorReaches_iff hof
      (u := LocalCall.failure ⟨llu, .running, {}⟩ (.common 5 categorySystem "x"))
      ⟨rfl, rfl, rfl⟩ _).mp h).2.2.1
    revert hcat
    decide
  · obtain ⟨s', hrun, hcall⟩ := hawaits.deliver .defaults hof
      (u := (LocalCall.failure ⟨llu, .running, {}⟩ (.common 0 categoryInternal "x")))
      ⟨rfl, rfl, rfl⟩
    rw [hside] at hrun
    exact ⟨_, _, s', rfl, rfl, hrun, hcall⟩

/-! ### Undecodable input -/

/-- What `read_handler` of a server connection does to the calls: `on_read_error` with the error of
the read, which is none when `process_data` has thrown, and `close_drop`. -/
def Server.readHandler (error : UInt32) (thrown : Bool) : List RpcEvent :=
  if error = 0 then
    if thrown then [.systemError error "Transport read error.", .cancelAll] else []
  else [.systemError error "Transport read error.", .cancelAll]

namespace RpcEnd

variable {opts : SessionOptions} {s : RpcEnd} {k i : ℕ} {llu : LowlevelUnit}

/-- The call number `k` waits in `call_and_wait`: its slot is open, empty and not cancelled. -/
def Waits (s : RpcEnd) (k : ℕ) : Prop :=
  ∃ llu i hv, s.calls[k]? = some ⟨llu, .reading i⟩ ∧ s.slots.values[i]? = some hv ∧
    hv.stored = true ∧ hv.data = [] ∧ hv.canceled = false

/-- The call number `k`, woken up, leaves its loop with a failure. -/
def LeavesFailed (opts : SessionOptions) (s : RpcEnd) (k : ℕ) : Prop :=
  ∃ s' c err, s.step opts (.out k (.wake false false)) = some s' ∧ s'.calls[k]? = some c ∧
    c.stage = .leaving true (.failed err) ∧ err.code ≠ 0

/-- A waiting call takes the unit of `on_system_error` for a failure exactly when it has a code. -/
theorem Waits.leavesFailed_iff (h : s.Waits k) (code : UInt32) (add : String) :
    (s.onSystemError code add).LeavesFailed opts k ↔ code ≠ 0 := by
  obtain ⟨llu, i, hv, hcall, hslot, hstored, hdata, hcanceled⟩ := h
  have hslot' : (s.onSystemError code add).slots.values[i]? =
      some { hv with data := [Entry.shared s.broadcasts.length] } := by
    unfold onSystemError pushAll CondQueues.writeAll
    rw [CondQueues.update_values]
    exact ⟨hv, hslot, by rw [if_pos hstored, hdata, List.nil_append]⟩
  have hread : CondQueues.readResult { hv with data := [Entry.shared s.broadcasts.length] } false =
      some (.success (Entry.shared s.broadcasts.length)) := by
    unfold CondQueues.readResult
    rw [hcanceled]
    rfl
  have htop : (s.onSystemError code add).readSlotFor (.success (Entry.shared s.broadcasts.length)) =
      { error :=
        { code := code, category := categorySystem, fatal := true, additional := add } } := by
    simp [onSystemError, pushAll, readSlotFor, unit]
  obtain ⟨s', hwake, hcall'⟩ := step_wake opts (s := s.onSystemError code add) hcall hslot' hread
  rw [htop] at hcall'
  unfold afterRead at hcall'
  dsimp only at hcall'
  constructor
  · rintro ⟨s₁, c, err, hstep, hc, hstage, hcode⟩
    obtain rfl := Option.some.inj (hwake.symm.trans hstep)
    obtain rfl := Option.some.inj (hcall'.symm.trans hc)
    intro hzero
    rw [if_neg (not_not.mpr hzero)] at hstage
    split_ifs at hstage
    cases hstage
  · intro hcode
    rw [if_pos hcode] at hcall'
    exact ⟨s', _, _, hwake, hcall', rfl, hcode⟩

/-- What the first step of `read_handler` pushes to the open slots is a failure for every call that
waits. -/
def FailsWaiting (opts : SessionOptions) (s : RpcEnd) (error : UInt32) (thrown : Bool) : Prop :=
  ∃ e es s', Server.readHandler error thrown = e :: es ∧ s.step opts e = some s' ∧
    ∀ k, s.Waits k → s'.LeavesFailed opts k

theorem Waits.not_failsWaiting (h : s.Waits k) : ¬ s.FailsWaiting opts 0 true := by
  rintro ⟨e, es, s', hhandler, hstep, hall⟩
  obtain ⟨rfl, _⟩ := List.cons.inj hhandler
  obtain rfl := Option.some.inj hstep
  exact (h.leavesFailed_iff 0 _).mp (hall k h) rfl

end RpcEnd

/-- **Undecodable input and the calls that wait.**  When `process_data` throws on what was read, the
unit that is broadcast is a failure for the waiting calls only if there are none: `read_handler`
reports the error of the read, and the read was a success. -/
theorem undecodable_fails_waiting_iff (opts : SessionOptions) (s : RpcEnd) :
    s.FailsWaiting opts 0 true ↔ ∀ k, ¬ s.Waits k := by
  constructor
  · intro h k hk
    exact hk.not_failsWaiting h
  · intro hnone
    exact ⟨_, _, _, rfl, rfl, fun k hk => absurd hk (hnone k)⟩

theorem transport_fails_waiting (opts : SessionOptions) (s : RpcEnd) {error : UInt32}
    (herror : error ≠ 0) (thrown : Bool) : s.FailsWaiting opts error thrown := by
  refine ⟨_, _, _, if_neg herror, rfl, fun k hk => ?_⟩
  exact (hk.leavesFailed_iff error _).mpr herror

/-- A server whose call waits reads a chunk that cannot be decoded: the call takes the unit for a
local call. -/
theorem undecodable_served :
    let ch : RpcChannel := .create .server {} none
    let m : MethodCall := ⟨"s", "m", none, true, true, true⟩
    ∃ s s' c, (rpcMachine .defaults .server).run [.start ch none m, .out 0 (.enter true),
        .out 0 .test, .out 0 .add, .out 0 (.write true), .out 0 .read] = some s ∧ s.Waits 0 ∧
      (rpcMachine .defaults .server).runFrom s
        [.systemError 0 "Transport read error.", .out 0 (.wake false false)] = some s' ∧
      s'.calls[0]? = some c ∧ c.stage = .serving 0 ∧ ¬ s.FailsWaiting .defaults 0 true := by
  intro ch m
  refine ⟨_, _, _, rfl, ⟨_, _, _, rfl, rfl, rfl, rfl, rfl⟩, rfl, rfl, rfl, ?_⟩
  apply RpcEnd.Waits.not_failsWaiting (k := 0)
  exact ⟨_, _, _, rfl, rfl, rfl, rfl, rfl⟩

end Vtrc
