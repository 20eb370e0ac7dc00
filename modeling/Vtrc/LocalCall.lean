import Vtrc.Messages
import Vtrc.Lib.Machine

/-! # Local calls (`protocol-layer.cpp`: `make_local_call`, `closure_runner`)

A request unit is executed by `make_local_call`: a `closure_holder_type` is made, the service
and the method are looked up, the handler is called with a closure, and the handler leaves by
return or by an exception.  The closure may be run inside the handler, later from any thread,
or while an exception unwinds the stack (through a `closure_holder`).

A `LocalCall` is one such execution, a `CallEvent` what can happen to it next, a `CallEffect`
what it does to the connection: `send` writes a unit, `done` runs the closure that was given to
`make_local_call`.  The holder is owned by the frame of `make_local_call` and, until it has been
run, by the closure; it is destroyed (`release`) when neither is left.  The connection stays
alive throughout. -/

namespace Vtrc

/-- What leaves a handler or a lookup as an exception: `vtrc::common::exception`, another
`std::exception`, or anything else. -/
inductive Thrown where
  | common (code : UInt32) (category : UInt32) (additional : String)
  | std (what : String)
  | other
deriving DecidableEq, Repr

namespace Thrown

/-- The error code of the three `catch` branches of `make_local_call`. -/
def code : Thrown → UInt32
  | common code _ _ => code
  | std _ => ErrorNumber.internal.code
  | other => ErrorNumber.unknown.code

def additional : Thrown → String
  | common _ _ additional => additional
  | std what => what
  | other => "..."

/-- `common::exception( code, additional )`, of the internal category. -/
def raise (e : ErrorNumber) (additional : String) : Thrown :=
  .common e.code categoryInternal additional

end Thrown

/-- What a lookup by name gives: an exception of the application's factory, no service, or the
methods of the service. -/
abbrev Services := String → Except Thrown (Option (String → Bool))

/-- The checks of `make_local_call_impl`, in its order; `depth` is the depth of the new call
context on this thread. -/
def resolve (opts : SessionOptions) (depth : ℕ) (services : Services) (llu : LowlevelUnit) :
    Except Thrown Unit :=
  if depth > opts.maxStackSize.toNat then .error (.raise .overflow "")
  else
    match services llu.serviceId with
    | .error ex => .error ex
    | .ok none => .error (.raise .badFile "Service not found")
    | .ok (some getMethod) =>
        if getMethod llu.methodId then .ok () else .error (.raise .noFunc "Method not found")

/-- The unit that `send_busy` makes of a call. -/
def busyReply (llu : LowlevelUnit) : LowlevelUnit :=
  { llu with
    serviceId := "", methodId := "", request := [], response := []
    error := { llu.error with code := ErrorNumber.busy.code } }

/-- What `send_busy` writes. -/
def busyReplies (llu : LowlevelUnit) : List LowlevelUnit :=
  if llu.opt.wait then [busyReply llu] else []

/-- `closure_holder_type`.  `connection` says that the weak pointer has been set,
`internalClosure` and `protoClosure` that the pointers are not null; the controller and the
response are the handler's. -/
structure ClosureHolder where
  connection : Bool := false
  internalClosure : Bool := true
  protoClosure : Bool := false
  canceled : Bool := false
  failed : Bool := false
  errorText : String := ""
  res : Bytes := []
deriving DecidableEq, Repr

/-- Where `make_local_call` stands. -/
inductive CallPhase where
  | posted
  | running
  | returned (failed : Bool)
deriving DecidableEq, Repr

structure LocalCall where
  llu : LowlevelUnit
  phase : CallPhase
  hold : ClosureHolder
deriving DecidableEq, Repr

inductive CallEffect where
  | send (llu : LowlevelUnit)
  | done (err : ErrorContainer)
deriving DecidableEq, Repr

/-- `make_local_call` begins, the handler fills its response or its controller, the closure is
run (`uncaught` is `std::uncaught_exception`, `context` that the thread has a call context), the
handler leaves. -/
inductive CallEvent where
  | start (depth : ℕ) (services : Services)
  | respond (res : Bytes)
  | setFailed (reason : String)
  | startCancel
  | runDone (uncaught context : Bool)
  | leave (thrown : Option Thrown)

namespace LocalCall

/-- A call before `make_local_call`. -/
def post (llu : LowlevelUnit) : LocalCall := ⟨llu, .posted, {}⟩

/-- The unit that `closure_done` sends. -/
def closureDone (hold : ClosureHolder) (llu : LowlevelUnit) : LowlevelUnit :=
  let fail (e : ErrorNumber) (llu : LowlevelUnit) : LowlevelUnit :=
    { llu with
      error := { llu.error with
        code := e.code
        additional := if hold.errorText = "" then llu.error.additional else hold.errorText }
      response := [] }
  let llu := { llu with request := [], serviceId := "", methodId := "", channelData := [] }
  if hold.canceled then fail .canceled llu
  else if hold.failed then fail .callFailed llu
  else if llu.opt.acceptResponse then { llu with response := hold.res }
  else llu

/-- `call_internal`. -/
def callInternal (c : LocalCall) : List CallEffect :=
  if c.hold.internalClosure && c.hold.connection then [.done c.llu.error] else []

/-- The frame of `make_local_call` gives up the holder; without a closure that is its end. -/
def release (c : LocalCall) : List CallEffect :=
  if c.hold.protoClosure then [] else c.callInternal

/-- The closure sends the answer. -/
def answer (c : LocalCall) : LocalCall × List CallEffect :=
  let llu := closureDone c.hold c.llu
  ({ c with llu := llu }, [.send llu])

/-- `closure_runner`, on a closure that has not been run. -/
def closureRunner (c : LocalCall) (uncaught context : Bool) : LocalCall × List CallEffect :=
  let c := { c with hold := { c.hold with protoClosure := false } }
  if !uncaught then c.answer
  else if !context then
    { c with hold := { c.hold with
        failed := true, errorText := "Uncaught exception while running closure" } }.answer
  else (c, [])

/-- The part of `make_local_call` after the handler. -/
def finish (c : LocalCall) : Option Thrown → LocalCall × List CallEffect
  | none =>
      let c := { c with phase := .returned false }
      (c, c.release)
  | some ex =>
      let llu := { c.llu with
        error := { c.llu.error with code := ex.code, additional := ex.additional }
        response := [] }
      let c := { c with llu := llu, phase := .returned true }
      if llu.opt.wait then
        let c := { c with hold := { c.hold with internalClosure := false } }
        (c, [.send llu, .done llu.error] ++ c.release)
      else (c, c.release)

/-- The frame of `make_local_call` still exists. -/
def onStack (c : LocalCall) : Bool :=
  match c.phase with
  | .returned _ => false
  | _ => true

def step (opts : SessionOptions) (c : LocalCall) : CallEvent → Option (LocalCall × List CallEffect)
  | .start depth services =>
      if c.phase = .posted then
        match resolve opts depth services c.llu with
        | .error ex => some (c.finish (some ex))
        | .ok () => some ({ c with
            phase := .running
            hold := { c.hold with connection := true, protoClosure := true } }, [])
      else none
  | .respond res =>
      if c.hold.protoClosure then some ({ c with hold := { c.hold with res := res } }, []) else none
  | .setFailed reason =>
      if c.hold.protoClosure then
        some ({ c with hold := { c.hold with failed := true, errorText := reason } }, [])
      else none
  | .startCancel =>
      if c.hold.protoClosure then some ({ c with hold := { c.hold with canceled := true } }, [])
      else none
  | .runDone uncaught context =>
      if c.hold.protoClosure then
        let r := c.closureRunner uncaught context
        -- the last owner of the holder is the frame of `make_local_call`, if it is still there
        some (r.1, r.2 ++ if c.onStack then [] else r.1.callInternal)
      else none
  | .leave thrown => if c.phase = .running then some (c.finish thrown) else none

/-- `make_local_call` has failed, before or inside the handler. -/
def Failed (c : LocalCall) : Prop := c.phase = .returned true

/-- The closure was made and has been run. -/
def DoneRun (c : LocalCall) : Prop := c.hold.connection = true ∧ c.hold.protoClosure = false

/-- The handling of the call is over. -/
def Over (c : LocalCall) : Prop :=
  c.Failed ∨ (c.phase = .returned false ∧ c.DoneRun)

instance (c : LocalCall) : Decidable c.Failed := inferInstanceAs (Decidable (_ = _))
instance (c : LocalCall) : Decidable c.DoneRun := inferInstanceAs (Decidable (_ ∧ _))
instance (c : LocalCall) : Decidable c.Over := inferInstanceAs (Decidable (_ ∨ _))

end LocalCall

/-! ### What one step can do -/

namespace CallEffect

/-- The units written by a list of effects. -/
def sent (es : List CallEffect) : List LowlevelUnit :=
  es.filterMap (fun | .send llu => some llu | .done _ => none)

/-- How often a list of effects runs the closure given to `make_local_call`. -/
def dones (es : List CallEffect) : ℕ :=
  es.countP (fun | .send _ => false | .done _ => true)

@[simp] theorem sent_nil : sent [] = [] := rfl
@[simp] theorem sent_append (es fs : List CallEffect) : sent (es ++ fs) = sent es ++ sent fs :=
  List.filterMap_append
@[simp] theorem sent_cons_send (llu : LowlevelUnit) (es : List CallEffect) :
    sent (.send llu :: es) = llu :: sent es := rfl
@[simp] theorem sent_cons_done (err : ErrorContainer) (es : List CallEffect) :
    sent (.done err :: es) = sent es := rfl

@[simp] theorem dones_nil : dones [] = 0 := rfl
@[simp] theorem dones_append (es fs : List CallEffect) : dones (es ++ fs) = dones es + dones fs :=
  List.countP_append
@[simp] theorem dones_cons_send (llu : LowlevelUnit) (es : List CallEffect) :
    dones (.send llu :: es) = dones es := rfl
@[simp] theorem dones_cons_done (err : ErrorContainer) (es : List CallEffect) :
    dones (.done err :: es) = dones es + 1 := by
  simp [dones]

end CallEffect

open CallEffect

namespace LocalCall

@[simp] theorem closureDone_id (hold : ClosureHolder) (llu : LowlevelUnit) :
    (closureDone hold llu).id = llu.id := by
  simp only [closureDone]
  split_ifs <;> rfl

@[simp] theorem closureDone_opt (hold : ClosureHolder) (llu : LowlevelUnit) :
    (closureDone hold llu).opt = llu.opt := by
  simp only [closureDone]
  split_ifs <;> rfl

@[simp] theorem sent_callInternal (c : LocalCall) : sent c.callInternal = [] := by
  simp only [callInternal]
  split_ifs <;> rfl

@[simp] theorem dones_callInternal (c : LocalCall) :
    dones c.callInternal = if c.hold.internalClosure && c.hold.connection then 1 else 0 := by
  simp only [callInternal]
  split_ifs <;> rfl

@[simp] theorem sent_release (c : LocalCall) : sent c.release = [] := by
  simp only [release]
  split_ifs
  · rfl
  · exact sent_callInternal c

/-- The unit is answered: the closure runs outside an unwinding, or without a call context. -/
def answers (uncaught context : Bool) : Bool := !uncaught || !context

/-- What `closure_runner` does: one unit or none, and the closure is gone. -/
theorem closureRunner_spec (c : LocalCall) (uncaught context : Bool) :
    (c.closureRunner uncaught context).1.phase = c.phase ∧
      (c.closureRunner uncaught context).1.hold.connection = c.hold.connection ∧
      (c.closureRunner uncaught context).1.hold.internalClosure = c.hold.internalClosure ∧
      (c.closureRunner uncaught context).1.hold.protoClosure = false ∧
      (c.closureRunner uncaught context).1.llu.id = c.llu.id ∧
      (c.closureRunner uncaught context).1.llu.opt = c.llu.opt ∧
      dones (c.closureRunner uncaught context).2 = 0 ∧
      (sent (c.closureRunner uncaught context).2).map LowlevelUnit.id =
        if answers uncaught context then [c.llu.id] else [] := by
  cases uncaught <;> cases context <;> simp [closureRunner, answer, answers]

/-- What the end of `make_local_call` does after an exception: the holder keeps its closure and
its connection, a waiting call is answered and its `done` is run here. -/
theorem finish_some_spec (c : LocalCall) (ex : Thrown) :
    (c.finish (some ex)).1.phase = .returned true ∧
      (c.finish (some ex)).1.hold.connection = c.hold.connection ∧
      (c.finish (some ex)).1.hold.protoClosure = c.hold.protoClosure ∧
      (c.finish (some ex)).1.hold.internalClosure = (c.hold.internalClosure && !c.llu.opt.wait) ∧
      (c.finish (some ex)).1.llu.id = c.llu.id ∧
      (c.finish (some ex)).1.llu.opt = c.llu.opt ∧
      dones (c.finish (some ex)).2 =
        (if c.llu.opt.wait then 1
          else if c.hold.protoClosure then 0
          else if c.hold.internalClosure && c.hold.connection then 1 else 0) ∧
      (sent (c.finish (some ex)).2).map LowlevelUnit.id =
        if c.llu.opt.wait then [c.llu.id] else [] := by
  cases hw : c.llu.opt.wait with
  | true =>
      simp [finish, hw, release, callInternal]
  | false =>
      simp only [finish, hw]
      refine ⟨rfl, rfl, rfl, by simp, rfl, rfl, ?_, by simp⟩
      simp only [release]
      cases c.hold.protoClosure <;> simp

/-- The call begins and fails, begins and reaches its handler, has its holder filled, has its
closure run, or is left by its handler. -/
theorem step_cases {opts : SessionOptions} {c c' : LocalCall} {e : CallEvent}
    {effs : List CallEffect} (h : c.step opts e = some (c', effs)) :
    (∃ depth services ex, e = .start depth services ∧ c.phase = .posted ∧
      resolve opts depth services c.llu = .error ex ∧ c' = (c.finish (some ex)).1 ∧
      effs = (c.finish (some ex)).2) ∨
    (∃ depth services, e = .start depth services ∧ c.phase = .posted ∧
      resolve opts depth services c.llu = .ok () ∧ effs = [] ∧
      c' = { c with
        phase := .running, hold := { c.hold with connection := true, protoClosure := true } }) ∨
    ((∃ res, e = .respond res) ∨ (∃ reason, e = .setFailed reason) ∨ e = .startCancel) ∧
      effs = [] ∧ c.hold.protoClosure = true ∧ c'.phase = c.phase ∧ c'.llu = c.llu ∧
      c'.hold.connection = c.hold.connection ∧ c'.hold.protoClosure = true ∧
      c'.hold.internalClosure = c.hold.internalClosure ∨
    (∃ uncaught context, e = .runDone uncaught context ∧ c.hold.protoClosure = true ∧
      c' = (c.closureRunner uncaught context).1 ∧
      effs = (c.closureRunner uncaught context).2 ++
        if c.onStack then [] else (c.closureRunner uncaught context).1.callInternal) ∨
    (∃ thrown, e = .leave thrown ∧ c.phase = .running ∧ c' = (c.finish thrown).1 ∧
      effs = (c.finish thrown).2) := by
  cases e with
  | start depth services =>
      simp only [step] at h
      split_ifs at h with hp
      split at h
      · rename_i ex hex
        have hfin := Option.some.inj h
        exact .inl ⟨depth, services, ex, rfl, hp, hex, congrArg Prod.fst hfin.symm,
          congrArg Prod.snd hfin.symm⟩
      · rename_i hok
        obtain ⟨rfl, rfl⟩ := Prod.mk.inj (Option.some.inj h)
        exact .inr (.inl ⟨depth, services, rfl, hp, hok, rfl, rfl⟩)
  | respond res =>
      simp only [step] at h
      split_ifs at h with hp
      obtain ⟨rfl, rfl⟩ := Prod.mk.inj (Option.some.inj h)
      exact .inr (.inr (.inl ⟨.inl ⟨res, rfl⟩, rfl, hp, rfl, rfl, rfl, hp, rfl⟩))
  | setFailed reason =>
      simp only [step] at h
      split_ifs at h with hp
      obtain ⟨rfl, rfl⟩ := Prod.mk.inj (Option.some.inj h)
      exact .inr (.inr (.inl ⟨.inr (.inl ⟨reason, rfl⟩), rfl, hp, rfl, rfl, rfl, hp, rfl⟩))
  | startCancel =>
      simp only [step] at h
      split_ifs at h with hp
      obtain ⟨rfl, rfl⟩ := Prod.mk.inj (Option.some.inj h)
      exact .inr (.inr (.inl ⟨.inr (.inr rfl), rfl, hp, rfl, rfl, rfl, hp, rfl⟩))
  | runDone uncaught context =>
      simp only [step] at h
      by_cases hp : c.hold.protoClosure = true
      swap
      · rw [if_neg hp] at h
        cases h
      rw [if_pos hp] at h
      obtain ⟨rfl, rfl⟩ := Prod.mk.inj (Option.some.inj h)
      exact .inr (.inr (.inr (.inl ⟨uncaught, context, rfl, hp, rfl, rfl⟩)))
  | leave thrown =>
      simp only [step] at h
      split_ifs at h with hp
      have hfin := Option.some.inj h
      exact .inr (.inr (.inr (.inr ⟨thrown, rfl, hp, congrArg Prod.fst hfin.symm,
        congrArg Prod.snd hfin.symm⟩)))

/-- The unit of a call keeps its id, its type and its options. -/
structure SameUnit (u llu : LowlevelUnit) : Prop where
  id : u.id = llu.id
  messageType : u.messageType = llu.messageType
  opt : u.opt = llu.opt

theorem SameUnit.trans {u v w : LowlevelUnit} (h : SameUnit u v) (h' : SameUnit v w) :
    SameUnit u w :=
  ⟨h.id.trans h'.id, h.messageType.trans h'.messageType, h.opt.trans h'.opt⟩

theorem sameUnit_closureDone (hold : ClosureHolder) (llu : LowlevelUnit) :
    SameUnit (closureDone hold llu) llu := by
  refine ⟨closureDone_id hold llu, ?_, closureDone_opt hold llu⟩
  simp only [closureDone]
  split_ifs <;> rfl

theorem sameUnit_closureRunner (c : LocalCall) (uncaught context : Bool) :
    SameUnit (c.closureRunner uncaught context).1.llu c.llu ∧
      ∀ u ∈ sent (c.closureRunner uncaught context).2, SameUnit u c.llu := by
  cases uncaught <;> cases context
  · exact ⟨sameUnit_closureDone _ _, by simp [closureRunner, answer, sameUnit_closureDone]⟩
  · exact ⟨sameUnit_closureDone _ _, by simp [closureRunner, answer, sameUnit_closureDone]⟩
  · exact ⟨sameUnit_closureDone _ _, by simp [closureRunner, answer, sameUnit_closureDone]⟩
  · exact ⟨⟨rfl, rfl, rfl⟩, by simp [closureRunner]⟩

theorem sameUnit_finish (c : LocalCall) (thrown : Option Thrown) :
    SameUnit (c.finish thrown).1.llu c.llu ∧
      ∀ u ∈ sent (c.finish thrown).2, SameUnit u c.llu := by
  cases thrown with
  | none => exact ⟨⟨rfl, rfl, rfl⟩, by simp [finish]⟩
  | some ex =>
      cases hw : c.llu.opt.wait with
      | false =>
          simp only [finish, hw, Bool.false_eq_true, if_false]
          exact ⟨⟨rfl, rfl, rfl⟩, by simp⟩
      | true =>
          simp only [finish, hw, if_true]
          refine ⟨⟨rfl, rfl, rfl⟩, ?_⟩
          intro u hu
          simp only [sent_append, sent_cons_send, sent_cons_done, sent_nil, sent_release,
            List.append_nil, List.mem_singleton] at hu
          subst hu
          exact ⟨rfl, rfl, rfl⟩

theorem sameUnit_step {opts : SessionOptions} {c c' : LocalCall} {e : CallEvent}
    {effs : List CallEffect} (h : c.step opts e = some (c', effs)) :
    SameUnit c'.llu c.llu ∧ ∀ u ∈ sent effs, SameUnit u c.llu := by
  rcases step_cases h with ⟨_, _, ex, _, _, _, rfl, rfl⟩ | ⟨_, _, _, _, _, rfl, rfl⟩ |
    ⟨_, rfl, _, _, hllu, _⟩ | ⟨uncaught, context, _, _, rfl, rfl⟩ | ⟨thrown, _, _, rfl, rfl⟩
  · exact sameUnit_finish c (some ex)
  · exact ⟨⟨rfl, rfl, rfl⟩, by simp⟩
  · exact ⟨by rw [hllu]; exact ⟨rfl, rfl, rfl⟩, by simp⟩
  · obtain ⟨h₁, h₂⟩ := sameUnit_closureRunner c uncaught context
    refine ⟨h₁, ?_⟩
    split_ifs
    · simpa using h₂
    · simpa using h₂
  · exact sameUnit_finish c thrown

end LocalCall

/-! ### One call as a machine -/

/-- A call with everything it has done to the connection. -/
structure TrackedCall where
  call : LocalCall
  log : List CallEffect

namespace TrackedCall

def step (opts : SessionOptions) (t : TrackedCall) (e : CallEvent) : Option TrackedCall :=
  (t.call.step opts e).map (fun r => ⟨r.1, t.log ++ r.2⟩)

/-- The bookkeeping of a call: who still owns the holder, whether its internal closure is still
set, and from these how often `done` has been run. -/
structure Inv (t : TrackedCall) : Prop where
  fresh : t.call.phase = .posted → t.call.hold.connection = false ∧ t.call.hold.protoClosure = false
  connected : t.call.phase = .running ∨ t.call.phase = .returned false →
    t.call.hold.connection = true
  closure : t.call.hold.protoClosure = true → t.call.hold.connection = true
  internal : t.call.hold.internalClosure = !(decide t.call.Failed && t.call.llu.opt.wait)
  dones : dones t.log =
    if t.call.onStack then 0
    else if (t.call.Failed ∧ t.call.llu.opt.wait = true) ∨ t.call.DoneRun then 1 else 0

theorem inv_post (llu : LowlevelUnit) : Inv ⟨.post llu, []⟩ where
  fresh _ := ⟨rfl, rfl⟩
  connected h := by rcases h with h | h <;> cases h
  closure h := by cases h
  internal := rfl
  dones := rfl

/-- A failing call: `done` is run here, at the end of the holder, or later by the closure. -/
theorem Inv.finish_some {t : TrackedCall} (h : t.Inv) (hstack : t.call.onStack = true)
    (ex : Thrown) : Inv ⟨(t.call.finish (some ex)).1, t.log ++ (t.call.finish (some ex)).2⟩ := by
  obtain ⟨hph, hconn, hproto, hint, _, hopt, hdones, _⟩ := t.call.finish_some_spec ex
  have hfailed : t.call.Failed ↔ False := by
    constructor
    · intro hf
      rw [LocalCall.onStack, show t.call.phase = _ from hf] at hstack
      cases hstack
    · exact False.elim
  have hinternal := h.internal
  simp only [hfailed, decide_false, Bool.false_and, Bool.not_false] at hinternal
  have hlog := h.dones
  rw [if_pos hstack] at hlog
  refine ⟨?_, ?_, ?_, ?_, ?_⟩
  · intro hp
    rw [hph] at hp
    cases hp
  · intro hp
    rw [hph] at hp
    rcases hp with hp | hp <;> cases hp
  · intro hp
    rw [hproto] at hp
    rw [hconn]
    exact h.closure hp
  · simp [LocalCall.Failed, hph, hint, hopt, hinternal]
  · rw [dones_append, hlog, hdones, hinternal]
    simp only [LocalCall.onStack, LocalCall.Failed, LocalCall.DoneRun, hph, hconn, hproto, hopt]
    cases t.call.llu.opt.wait <;> cases t.call.hold.protoClosure <;>
      cases t.call.hold.connection <;> rfl

/-- A returning call: `done` is run at the end of the holder, here or with the closure. -/
theorem Inv.finish_none {t : TrackedCall} (h : t.Inv) (hrun : t.call.phase = .running) :
    Inv ⟨(t.call.finish none).1, t.log ++ (t.call.finish none).2⟩ := by
  have hconn := h.connected (.inl hrun)
  have hinternal := h.internal
  have hlog := h.dones
  rw [LocalCall.onStack, hrun] at hlog
  simp only [LocalCall.Failed, hrun] at hinternal
  refine ⟨?_, fun _ => hconn, h.closure, ?_, ?_⟩
  · intro hp
    cases hp
  · simpa [LocalCall.finish, LocalCall.Failed] using hinternal
  · rw [dones_append, hlog]
    simp only [LocalCall.finish, LocalCall.release, LocalCall.onStack, LocalCall.Failed,
      LocalCall.DoneRun, hconn]
    cases hp : t.call.hold.protoClosure
    · simpa [hconn] using hinternal
    · simp

/-- The closure is run: when the frame of `make_local_call` is gone, this ends the holder. -/
theorem Inv.closureRunner {t : TrackedCall} (h : t.Inv) (hproto : t.call.hold.protoClosure = true)
    (uncaught context : Bool) :
    Inv ⟨(t.call.closureRunner uncaught context).1, t.log ++
      ((t.call.closureRunner uncaught context).2 ++
        if t.call.onStack then [] else (t.call.closureRunner uncaught context).1.callInternal)⟩ := by
  obtain ⟨hph, hconn, hint, hgone, _, hopt, hdones, _⟩ :=
    t.call.closureRunner_spec uncaught context
  have hc := h.closure hproto
  have hinternal := h.internal
  have hlog := h.dones
  refine ⟨?_, ?_, ?_, ?_, ?_⟩
  · intro hp
    rw [hph] at hp
    exact absurd hproto (by simp [(h.fresh hp).2])
  · intro _
    rw [hconn, hc]
  · intro hp
    rw [hgone] at hp
    cases hp
  · simp only [LocalCall.Failed, hph, hint, hopt] at hinternal ⊢
    exact hinternal
  · have hstack : (t.call.closureRunner uncaught context).1.onStack = t.call.onStack := by
      rw [LocalCall.onStack, hph, LocalCall.onStack]
    have hrun : (t.call.closureRunner uncaught context).1.DoneRun := ⟨hconn.trans hc, hgone⟩
    have hnot : ¬ t.call.DoneRun := fun hd => by simp [hd.2] at hproto
    rw [dones_append, dones_append, hlog, hdones]
    simp only [hstack, hrun, hnot, or_false, or_true, if_true]
    cases hs : t.call.onStack with
    | true => simp
    | false =>
        simp only [Bool.false_eq_true, if_false, LocalCall.dones_callInternal, hint, hconn, hc,
          hinternal, Bool.and_true, Bool.not_eq_true', Bool.and_eq_false_iff, decide_eq_false_iff_not]
        cases t.call.llu.opt.wait <;> by_cases hf : t.call.Failed <;> simp [hf]

theorem Inv.step {opts : SessionOptions} {t t' : TrackedCall} {e : CallEvent} (h : t.Inv)
    (hs : t.step opts e = some t') : t'.Inv := by
  obtain ⟨⟨c', effs⟩, hstep, rfl⟩ := Option.map_eq_some_iff.mp hs
  rcases LocalCall.step_cases hstep with ⟨depth, services, ex, rfl, hp, _, rfl, rfl⟩ |
    ⟨depth, services, rfl, hp, _, rfl, rfl⟩ |
    ⟨_, rfl, hproto, hph, hllu, hconn, hproto', hint⟩ |
    ⟨uncaught, context, rfl, hproto, rfl, rfl⟩ | ⟨thrown, rfl, hrun, rfl, rfl⟩
  · exact h.finish_some (by rw [LocalCall.onStack, hp]) ex
  · have hinternal := h.internal
    have hlog := h.dones
    simp only [LocalCall.onStack, LocalCall.Failed, hp] at hlog hinternal
    refine ⟨?_, fun _ => rfl, fun _ => rfl, ?_, ?_⟩
    · intro hp'
      cases hp'
    · simpa [LocalCall.Failed] using hinternal
    · simpa [LocalCall.onStack] using hlog
  · have hlog := h.dones
    refine ⟨?_, ?_, ?_, ?_, ?_⟩
    · intro hp
      rw [hph] at hp
      exact absurd hproto (by simp [(h.fresh hp).2])
    · intro hp
      rw [hph] at hp
      rw [hconn]
      exact h.connected hp
    · intro _
      rw [hconn]
      exact h.closure hproto
    · have hfailed : c'.Failed ↔ t.call.Failed := by rw [LocalCall.Failed, hph, LocalCall.Failed]
      simp only [hint, h.internal, hfailed, hllu]
    · simpa [LocalCall.onStack, LocalCall.Failed, LocalCall.DoneRun, hph, hllu, hconn, hproto,
        hproto'] using hlog
  · exact h.closureRunner hproto uncaught context
  · cases thrown with
    | none => exact h.finish_none hrun
    | some ex => exact h.finish_some (by rw [LocalCall.onStack, hrun]) ex

theorem Inv.dones_le_one {t : TrackedCall} (h : t.Inv) : CallEffect.dones t.log ≤ 1 := by
  rw [h.dones]
  split_ifs <;> omega

/-- A call that is over has run `done` exactly when it waits or its closure was run. -/
theorem Inv.dones_pos_iff {t : TrackedCall} (h : t.Inv) (hover : t.call.Over) :
    0 < CallEffect.dones t.log ↔ t.call.llu.opt.wait = true ∨ t.call.DoneRun := by
  have hlog := h.dones
  rcases hover with hf | ⟨hr, hd⟩
  · have hstack : t.call.onStack = false := by
      rw [LocalCall.onStack, show t.call.phase = _ from hf]
    rw [hlog, hstack]
    by_cases hor : t.call.llu.opt.wait = true ∨ t.call.DoneRun <;> simp [hf, hor]
  · have hstack : t.call.onStack = false := by rw [LocalCall.onStack, hr]
    rw [hlog, hstack]
    simp [hd]

end TrackedCall

namespace CallEvent

/-- The event does not fail a call that nobody waits for and whose closure has not been run. -/
def Releases (opts : SessionOptions) (c : LocalCall) : CallEvent → Prop
  | .start depth services =>
      c.llu.opt.wait = true ∨ resolve opts depth services c.llu = .ok ()
  | .leave (some _) => c.llu.opt.wait = true ∨ c.DoneRun
  | _ => True

end CallEvent

namespace TrackedCall

/-- The call has run `done` by the time it is over. -/
def Released (t : TrackedCall) : Prop := t.call.Over → 0 < dones t.log

theorem released_finish_some {t : TrackedCall} (h : t.Inv) (hstack : t.call.onStack = true)
    (ex : Thrown) :
    Released ⟨(t.call.finish (some ex)).1, t.log ++ (t.call.finish (some ex)).2⟩ ↔
      t.call.llu.opt.wait = true ∨ t.call.DoneRun := by
  obtain ⟨hph, hconn, hproto, _, _, hopt, _, _⟩ := t.call.finish_some_spec ex
  have hinv := h.finish_some hstack ex
  have hover : (t.call.finish (some ex)).1.Over := .inl hph
  have hiff := hinv.dones_pos_iff hover
  simp only [LocalCall.DoneRun, hopt, hconn, hproto] at hiff
  rw [Released, LocalCall.DoneRun, ← hiff]
  exact ⟨fun hr => hr hover, fun hd _ => hd⟩

theorem Released.step_iff {opts : SessionOptions} {t t' : TrackedCall} {e : CallEvent} (h : t.Inv)
    (hrel : t.Released) (hs : t.step opts e = some t') : t'.Released ↔ e.Releases opts t.call := by
  have hinv := h.step hs
  obtain ⟨⟨c', effs⟩, hstep, rfl⟩ := Option.map_eq_some_iff.mp hs
  rcases LocalCall.step_cases hstep with ⟨depth, services, ex, rfl, hp, hres, rfl, rfl⟩ |
    ⟨depth, services, rfl, hp, hres, rfl, rfl⟩ |
    ⟨he, rfl, hproto, hph, hllu, hconn, hproto', hint⟩ |
    ⟨uncaught, context, rfl, hproto, rfl, rfl⟩ | ⟨thrown, rfl, hrun, rfl, rfl⟩
  · rw [released_finish_some h (by rw [LocalCall.onStack, hp]) ex]
    simp [CallEvent.Releases, hres, LocalCall.DoneRun, (h.fresh hp).1]
  · refine iff_of_true ?_ (.inr hres)
    rintro (hf | ⟨hr, _⟩)
    · cases hf
    · cases hr
  · refine iff_of_true ?_ (by rcases he with ⟨_, rfl⟩ | ⟨_, rfl⟩ | rfl <;> trivial)
    rintro (hf | ⟨_, hd⟩)
    · have := hrel (.inl (hph.symm.trans hf))
      simpa using this
    · exact absurd hd.2 (by simp [hproto'])
  · obtain ⟨_, hconn, _, hgone, _, _, _, _⟩ := t.call.closureRunner_spec uncaught context
    refine iff_of_true ?_ trivial
    intro hover
    exact (hinv.dones_pos_iff hover).mpr (.inr ⟨hconn.trans (h.closure hproto), hgone⟩)
  · cases thrown with
    | some ex =>
        rw [released_finish_some h (by rw [LocalCall.onStack, hrun]) ex]
        rfl
    | none =>
        refine iff_of_true ?_ trivial
        rintro (hf | ⟨hr, hd⟩)
        · cases hf
        · exact (hinv.dones_pos_iff (.inr ⟨hr, hd⟩)).mpr (.inr hd)

end TrackedCall

/-- `make_local_call` on the unit `llu`. -/
def callMachine (opts : SessionOptions) (llu : LowlevelUnit) : Machine TrackedCall CallEvent where
  init := ⟨.post llu, []⟩
  step := TrackedCall.step opts

/-! ### Replies -/

namespace CallEvent

/-- With this event `make_local_call` fails: the call is not resolved, or its handler throws. -/
def fails (opts : SessionOptions) (llu : LowlevelUnit) : CallEvent → Bool
  | .start depth services =>
      match resolve opts depth services llu with
      | .error _ => true
      | .ok _ => false
  | .leave (some _) => true
  | _ => false

/-- The closure is run while no exception is in flight, or outside of every call context. -/
def answers : CallEvent → Bool
  | .runDone uncaught context => LocalCall.answers uncaught context
  | _ => false

end CallEvent

namespace TrackedCall

/-- The call after the events `es`: which of them have failed or answered it, and the ids of
the units they have written. -/
structure Replied (opts : SessionOptions) (llu : LowlevelUnit) (es : List CallEvent)
    (t : TrackedCall) : Prop where
  inv : t.Inv
  posted : t.call.phase = .posted → t.call.llu = llu
  opt : t.call.llu.opt = llu.opt
  id : t.call.llu.id = llu.id
  failed : es.any (CallEvent.fails opts llu) = true ↔ t.call.Failed
  answered : es.any CallEvent.answers = true → t.call.DoneRun
  sent : (sent t.log).map LowlevelUnit.id =
    List.replicate ((es.any (CallEvent.fails opts llu) && llu.opt.wait).toNat +
      (es.any CallEvent.answers).toNat) llu.id

/-- An event that fails the call: the handler was not answered for yet. -/
theorem Replied.finish_some {opts : SessionOptions} {llu : LowlevelUnit} {es : List CallEvent}
    {t : TrackedCall} (h : Replied opts llu es t) (hstack : t.call.onStack = true) (ex : Thrown)
    {e : CallEvent} (hf : e.fails opts llu = true) (ha : e.answers = false) :
    Replied opts llu (es ++ [e])
      ⟨(t.call.finish (some ex)).1, t.log ++ (t.call.finish (some ex)).2⟩ := by
  obtain ⟨hph, hconn, hproto, _, hid, hopt, _, hsent⟩ := t.call.finish_some_spec ex
  have hnot : es.any (CallEvent.fails opts llu) = false := by
    rw [Bool.eq_false_iff, ne_eq, h.failed]
    intro hfail
    rw [LocalCall.onStack, show t.call.phase = _ from hfail] at hstack
    cases hstack
  have hold := h.sent
  rw [hnot] at hold
  refine ⟨h.inv.finish_some hstack ex, ?_, hopt.trans h.opt, hid.trans h.id, ?_, ?_, ?_⟩
  · intro hp
    rw [hph] at hp
    cases hp
  · simp [hf, LocalCall.Failed, hph]
  · intro hans
    rw [List.any_append] at hans
    obtain ⟨hc, hp⟩ := h.answered (by simpa [ha] using hans)
    exact ⟨hconn.trans hc, hproto.trans hp⟩
  · rw [sent_append, List.map_append, hold, hsent, h.opt, h.id, List.any_append, List.any_append]
    cases hw : llu.opt.wait <;> cases hans : es.any CallEvent.answers <;> simp [hf, ha]

theorem Replied.quiet {opts : SessionOptions} {llu : LowlevelUnit} {es : List CallEvent}
    {t t' : TrackedCall} (h : Replied opts llu es t) {e : CallEvent}
    (hf : e.fails opts llu = false) (ha : e.answers = false) (hinv : t'.Inv)
    (hph : t'.call.phase ≠ .posted) (hllu : t'.call.llu = t.call.llu)
    (hfailed : t'.call.Failed ↔ t.call.Failed) (hdone : t.call.DoneRun → t'.call.DoneRun)
    (hsent : CallEffect.sent t'.log = CallEffect.sent t.log) : Replied opts llu (es ++ [e]) t' := by
  have h₁ : (es ++ [e]).any (CallEvent.fails opts llu) = es.any (CallEvent.fails opts llu) := by
    rw [List.any_append]
    simp [hf]
  have h₂ : (es ++ [e]).any CallEvent.answers = es.any CallEvent.answers := by
    rw [List.any_append]
    simp [ha]
  refine ⟨hinv, fun hp => absurd hp hph, by rw [hllu, h.opt], by rw [hllu, h.id], ?_, ?_, ?_⟩
  · rw [h₁, h.failed, hfailed]
  · rw [h₂]
    exact fun hans => hdone (h.answered hans)
  · rw [h₁, h₂, hsent, h.sent]

theorem Replied.runDone {opts : SessionOptions} {llu : LowlevelUnit} {es : List CallEvent}
    {t : TrackedCall} (h : Replied opts llu es t) (hproto : t.call.hold.protoClosure = true)
    (uncaught context : Bool) :
    Replied opts llu (es ++ [.runDone uncaught context])
      ⟨(t.call.closureRunner uncaught context).1, t.log ++
        ((t.call.closureRunner uncaught context).2 ++
          if t.call.onStack then [] else (t.call.closureRunner uncaught context).1.callInternal)⟩ := by
  obtain ⟨hph, hconn, _, hgone, hid, hopt, _, hsent⟩ :=
    t.call.closureRunner_spec uncaught context
  have hnot : es.any CallEvent.answers = false := by
    rw [Bool.eq_false_iff]
    intro hans
    have := (h.answered hans).2
    rw [hproto] at this
    cases this
  have hold := h.sent
  rw [hnot] at hold
  have hlast : CallEffect.sent (if t.call.onStack then []
      else (t.call.closureRunner uncaught context).1.callInternal) = [] := by
    split_ifs <;> simp
  have hfails : (es ++ [CallEvent.runDone uncaught context]).any (CallEvent.fails opts llu) =
      es.any (CallEvent.fails opts llu) := by
    rw [List.any_append]
    exact Bool.or_false _
  have hanswers : (es ++ [CallEvent.runDone uncaught context]).any CallEvent.answers =
      LocalCall.answers uncaught context := by
    rw [List.any_append, hnot]
    exact Bool.or_false _
  refine ⟨h.inv.closureRunner hproto uncaught context, ?_, hopt.trans h.opt, hid.trans h.id, ?_,
    fun _ => ⟨hconn.trans (h.inv.closure hproto), hgone⟩, ?_⟩
  · intro hp
    rw [hph] at hp
    exact absurd hproto (by simp [(h.inv.fresh hp).2])
  · rw [hfails, LocalCall.Failed, hph]
    exact h.failed
  · rw [sent_append, sent_append, hlast, List.append_nil, List.map_append, hold, hsent, h.id,
      hfails, hanswers]
    cases LocalCall.answers uncaught context <;> simp [List.replicate_succ']

theorem Replied.step {opts : SessionOptions} {llu : LowlevelUnit} {es : List CallEvent}
    {t t' : TrackedCall} {e : CallEvent} (h : Replied opts llu es t)
    (hs : t.step opts e = some t') : Replied opts llu (es ++ [e]) t' := by
  have hinv := h.inv.step hs
  obtain ⟨⟨c', effs⟩, hstep, rfl⟩ := Option.map_eq_some_iff.mp hs
  rcases LocalCall.step_cases hstep with ⟨depth, services, ex, rfl, hp, hres, rfl, rfl⟩ |
    ⟨depth, services, rfl, hp, hres, rfl, rfl⟩ |
    ⟨he, rfl, hproto, hph, hllu, hconn, hproto', hint⟩ |
    ⟨uncaught, context, rfl, hproto, rfl, rfl⟩ | ⟨thrown, rfl, hrun, rfl, rfl⟩
  · rw [h.posted hp] at hres
    exact h.finish_some (by rw [LocalCall.onStack, hp]) ex (by simp [CallEvent.fails, hres]) rfl
  · rw [h.posted hp] at hres
    refine h.quiet (by simp [CallEvent.fails, hres]) rfl hinv (by simp) rfl ?_ ?_ (by simp)
    · simp [LocalCall.Failed, hp]
    · intro hd
      exact absurd hd.1 (by simp [(h.inv.fresh hp).1])
  · refine h.quiet ?_ ?_ hinv ?_ hllu ?_ ?_ (by simp)
    · rcases he with ⟨_, rfl⟩ | ⟨_, rfl⟩ | rfl <;> rfl
    · rcases he with ⟨_, rfl⟩ | ⟨_, rfl⟩ | rfl <;> rfl
    · rw [hph]
      intro hp
      exact absurd hproto (by simp [(h.inv.fresh hp).2])
    · rw [LocalCall.Failed, hph, LocalCall.Failed]
    · intro hd
      exact absurd hd.2 (by simp [hproto])
  · exact h.runDone hproto uncaught context
  · cases thrown with
    | some ex => exact h.finish_some (by rw [LocalCall.onStack, hrun]) ex rfl rfl
    | none =>
        refine h.quiet rfl rfl hinv ?_ rfl ?_ (fun hd => hd) ?_
        · simp [LocalCall.finish]
        · simp [LocalCall.finish, LocalCall.Failed, hrun]
        · simp [LocalCall.finish]

theorem replied_run {opts : SessionOptions} {llu : LowlevelUnit} {es : List CallEvent}
    {t : TrackedCall} (h : (callMachine opts llu).run es = some t) : Replied opts llu es t := by
  refine (callMachine opts llu).run_induction (P := Replied opts llu) ?_ ?_ h
  · exact ⟨inv_post llu, fun _ => rfl, rfl, rfl, by simp [callMachine, LocalCall.Failed,
      LocalCall.post], by simp, rfl⟩
  · intro es t e t' hr hs
    exact hr.step hs

end TrackedCall

/-- **Replies to a waiting call.**  At every moment, and so when its handling is over, exactly
one unit with its id has been written if and only if exactly one of two things has happened:
`make_local_call` has failed (the call was not resolved or its handler threw), or the closure was
run where it answers (no exception in flight, or no call context). -/
theorem one_reply_iff (opts : SessionOptions) (llu : LowlevelUnit) (hwait : llu.opt.wait = true)
    (es : List CallEvent) (t : TrackedCall) (hrun : (callMachine opts llu).run es = some t) :
    ((CallEffect.sent t.log).filter (fun u => u.id = llu.id)).length = 1 ↔
      es.any (CallEvent.fails opts llu) ≠ es.any CallEvent.answers := by
  have h := TrackedCall.replied_run hrun
  have hids : ∀ u ∈ CallEffect.sent t.log, u.id = llu.id := by
    intro u hu
    have hmem : u.id ∈ (CallEffect.sent t.log).map LowlevelUnit.id := List.mem_map_of_mem hu
    rw [h.sent] at hmem
    exact List.eq_of_mem_replicate hmem
  have hlen : (CallEffect.sent t.log).length =
      (es.any (CallEvent.fails opts llu)).toNat + (es.any CallEvent.answers).toNat := by
    have := congrArg List.length h.sent
    simpa [hwait] using this
  rw [List.filter_eq_self.mpr (by simpa using hids), hlen]
  cases es.any (CallEvent.fails opts llu) <;> cases es.any CallEvent.answers <;> simp

/-- A handler that runs its closure and returns: one reply. -/
theorem one_reply_run_and_return :
    let llu : LowlevelUnit := { id := 103, serviceId := "s", methodId := "m", opt := { wait := true } }
    ∃ t, (callMachine .defaults llu).run
        [.start 1 (fun _ => .ok (some (fun _ => true))), .runDone false true, .leave none] = some t ∧
      t.call.Over ∧ ((CallEffect.sent t.log).filter (fun u => u.id = llu.id)).length = 1 := by
  intro llu
  obtain ⟨t, ht, hover⟩ : ∃ t, (callMachine .defaults llu).run
      [.start 1 (fun _ => .ok (some (fun _ => true))), .runDone false true, .leave none] = some t ∧
      t.call.Over := ⟨_, rfl, by decide⟩
  exact ⟨t, ht, hover, (one_reply_iff .defaults llu rfl _ t ht).mpr (by decide)⟩

/-- A handler that runs its closure and then throws: the closure has answered, and the `catch`
branch answers again. -/
theorem two_replies_run_and_throw :
    let llu : LowlevelUnit := { id := 103, serviceId := "s", methodId := "m", opt := { wait := true } }
    ∃ t, (callMachine .defaults llu).run
        [.start 1 (fun _ => .ok (some (fun _ => true))), .runDone false true,
          .leave (some (.std "after done"))] = some t ∧
      t.call.Over ∧ ((CallEffect.sent t.log).filter (fun u => u.id = llu.id)).length = 2 ∧
      ¬ ((CallEffect.sent t.log).filter (fun u => u.id = llu.id)).length = 1 := by
  refine ⟨_, rfl, by decide, by decide, by decide⟩

end Vtrc
