import Mathlib.Logic.Function.Basic
import Vtrc.Lib.Chain
import Vtrc.LocalCall

/-! # The call stack of a thread (`protocol-layer.cpp`, `call-context.cpp`)

A thread keeps the contexts of the calls it is in: `s_call_context` is null or points to a
deque whose front is the innermost call.  A `context_holder` makes a context and pushes it; its
destructor pops the front, whatever that is.  The channels hold one around a call that waits for its
answer, `make_local_call_impl` around the lookup and the handler of a call that was received.
`copy_call_stack` gives a `call_keeper` a copy of the stack.

The contexts live at addresses, and `cells` says what is there; a new context may get any address
that is free.  A `CallThread` is one thread with the holders that are open in its frames, each with
what the stack was when it was opened (`saved`, which the code does not have), and with a log of how
the local calls fared.

* `call_context_discipline`: the stack is the list of the open holders, linked and numbered; a
  handler runs only when the depth allows it; a holder that is closed leaves the stack as it was.
* `copy_self_contained_iff`: a copy of the stack stands on its own only when there is nothing to
  link in it. -/

namespace Vtrc

/-- `call_context::impl`; pointers are addresses. -/
structure CallContext where
  llu : ℕ
  parent : Option ℕ := none
  opts : Option ℕ := none
  done : Option ℕ := none
  depth : ℕ := 1
deriving DecidableEq, Repr

/-- What is at each address. -/
abbrev Contexts := ℕ → Option CallContext

namespace Contexts

/-- `call_context::next`. -/
def next (m : Contexts) (a : ℕ) : Option ℕ := (m a).bind CallContext.parent

/-- `call_context::set_next`. -/
def setNext (m : Contexts) (a : ℕ) (parent : Option ℕ) : Contexts :=
  Function.update m a ((m a).map (fun c =>
    { c with
      parent := parent
      depth := match parent.bind m with
        | some p => p.depth + 1
        | none => 1 }))

/-- `last->set_next( b )` in the loop of `clone_stack`; `last` is an element of the source, not its
copy. -/
def linkLast (m : Contexts) (last : Option ℕ) (b : ℕ) : Contexts :=
  match last with
  | some l => m.setNext l (some b)
  | none => m

/-- The loop of `clone_stack` over the rest `src` of the source.  `new` are the addresses of the
copies still to be made, and `last` is the previous element of the source. -/
def cloneStack (m : Contexts) (last : Option ℕ) : List ℕ → List ℕ → Contexts × List ℕ
  | b :: src, a :: new =>
      let m := linkLast (Function.update m a (m b)) last b
      let r := cloneStack m (some b) src new
      (r.1, a :: r.2)
  | _, _ => (m, [])

end Contexts

/-- What a `context_holder` is around: a call that waits for its answer, a local call before its
lookup, a local call whose handler runs. -/
inductive HolderKind where
  | call
  | entered
  | running
deriving DecidableEq, Repr

/-- A `context_holder`, with its `ctx_` and the stack before it. -/
structure ContextHolder where
  ctx : ℕ
  kind : HolderKind
  saved : Option (List (ℕ × Option CallContext))

/-- How a local call fared: its handler was run, or an exception came before that. -/
inductive Outcome where
  | ran (depth : ℕ)
  | refused (depth : ℕ) (ex : Thrown)
deriving DecidableEq, Repr

/-- The depth that `make_local_call_impl` has read. -/
def Outcome.depth : Outcome → ℕ
  | ran depth => depth
  | refused depth _ => depth

structure CallThread where
  cells : Contexts
  stack : Option (List ℕ)
  holders : List ContextHolder
  log : List Outcome

inductive ThreadEvent where
  /-- A channel opens a holder around a call that waits; the context of the unit `llu` is at `a`. -/
  | callAndWait (a llu : ℕ)
  /-- `make_local_call_impl` opens its holder. -/
  | makeLocalCall (a llu : ℕ)
  /-- The checks of `make_local_call_impl` for the unit of the call. -/
  | lookup (services : Services) (llu : LowlevelUnit)
  /-- `set_call_options` of the innermost holder. -/
  | setCallOptions (opts : ℕ)
  /-- `set_done_closure` of the innermost holder. -/
  | setDoneClosure (done : ℕ)
  /-- The innermost frame is left, by return or by an exception. -/
  | leave
  /-- `copy_call_stack`, with the addresses of the copies. -/
  | copyCallStack (new : List ℕ)

namespace CallThread

/-- A thread outside of all calls. -/
def initial : CallThread := ⟨fun _ => none, none, [], []⟩

/-- The contexts from front to back. -/
def contexts (t : CallThread) : List ℕ := t.stack.getD []

/-- The stack with what is in it. -/
def view (t : CallThread) : Option (List (ℕ × Option CallContext)) :=
  t.stack.map (fun as => as.map (fun a => (a, t.cells a)))

/-- `check_create_stack`. -/
def checkCreateStack (t : CallThread) : CallThread := { t with stack := some (t.stack.getD []) }

/-- `top_call_context`. -/
def topCallContext (t : CallThread) : Option ℕ := t.stack.bind List.head?

/-- `push_call_context`. -/
def pushCallContext (t : CallThread) (a : ℕ) : CallThread :=
  let t := t.checkCreateStack
  let top := t.topCallContext
  { t with cells := t.cells.setNext a top, stack := t.stack.map (a :: ·) }

/-- `pop_call_context`; the stack held the only pointer to its front. -/
def popCallContext (t : CallThread) : CallThread :=
  let t := match t.stack with
    | some (a :: as) => { t with cells := Function.update t.cells a none, stack := some as }
    | _ => t
  if t.stack = some [] then { t with stack := none } else t

/-- `copy_call_stack`. -/
def copyCallStack (t : CallThread) (new : List ℕ) : CallThread × List ℕ :=
  match t.stack with
  | none => (t, [])
  | some src =>
      let r := t.cells.cloneStack none src new
      ({ t with cells := r.1 }, r.2)

/-- The constructor of `context_holder`. -/
def openHolder (t : CallThread) (a llu : ℕ) (kind : HolderKind) : CallThread :=
  let h : ContextHolder := ⟨a, kind, t.view⟩
  let t := { t with cells := Function.update t.cells a (some { llu := llu }) }.pushCallContext a
  { t with holders := h :: t.holders }

/-- The end of the innermost frame: the destructor of its holder. -/
def closeHolder (t : CallThread) : CallThread :=
  { t.popCallContext with holders := t.holders.tail }

/-- A call on the context of a holder. -/
def onContext (t : CallThread) (h : ContextHolder) (f : CallContext → CallContext) : CallThread :=
  { t with cells := Function.update t.cells h.ctx ((t.cells h.ctx).map f) }

/-- `depth` of the context of a holder. -/
def depthOf (t : CallThread) (h : ContextHolder) : ℕ := ((t.cells h.ctx).map CallContext.depth).getD 0

/-- The addresses are free, different from each other, and as many as there are contexts. -/
def Fresh (t : CallThread) (new : List ℕ) : Prop :=
  new.length = t.contexts.length ∧ new.Nodup ∧ ∀ a ∈ new, t.cells a = none

instance (t : CallThread) (new : List ℕ) : Decidable (t.Fresh new) :=
  inferInstanceAs (Decidable (_ ∧ _ ∧ _))

def step (opts : SessionOptions) (t : CallThread) : ThreadEvent → Option CallThread
  | .callAndWait a llu => if t.cells a = none then some (t.openHolder a llu .call) else none
  | .makeLocalCall a llu => if t.cells a = none then some (t.openHolder a llu .entered) else none
  | .lookup services llu =>
      match t.holders with
      | h :: hs =>
          if h.kind = .entered then
            match resolve opts (t.depthOf h) services llu with
            | .ok () => some { t with
                holders := { h with kind := .running } :: hs
                log := t.log ++ [.ran (t.depthOf h)] }
            | .error ex => some { t.closeHolder with log := t.log ++ [.refused (t.depthOf h) ex] }
          else none
      | [] => none
  | .setCallOptions o =>
      match t.holders with
      | h :: _ => some (t.onContext h (fun c => { c with opts := some o }))
      | [] => none
  | .setDoneClosure d =>
      match t.holders with
      | h :: _ => some (t.onContext h (fun c => { c with done := some d }))
      | [] => none
  | .leave =>
      match t.holders with
      | h :: _ => if h.kind = .entered then none else some t.closeHolder
      | [] => none
  | .copyCallStack new => if t.Fresh new then some (t.copyCallStack new).1 else none

end CallThread

/-- A thread that makes and serves calls. -/
def threadMachine (opts : SessionOptions) : Machine CallThread ThreadEvent where
  init := .initial
  step := CallThread.step opts

/-! ### Linked contexts -/

namespace Contexts

/-- The contexts are different, alive, linked from each to the following one, and numbered from the
last one up. -/
def Chained (m : Contexts) : List ℕ → Prop
  | [] => True
  | a :: as => a ∉ as ∧
      (∃ c, m a = some c ∧ c.parent = as.head? ∧ c.depth = as.length + 1) ∧ Chained m as

variable {m m' : Contexts} {a : ℕ} {as : List ℕ}

theorem Chained.alive (h : Chained m as) : ∀ a ∈ as, ∃ c, m a = some c := by
  induction as with
  | nil => simp
  | cons a as ih =>
      obtain ⟨_, ⟨c, hc, _, _⟩, has⟩ := h
      exact List.forall_mem_cons.mpr ⟨⟨c, hc⟩, ih has⟩

/-- Only what the addresses of the list hold matters. -/
theorem Chained.congr (h : Chained m as) (hsame : ∀ a ∈ as, m' a = m a) : Chained m' as := by
  induction as with
  | nil => trivial
  | cons a as ih =>
      obtain ⟨hnot, hc, has⟩ := h
      refine ⟨hnot, ?_, ih has (fun b hb => hsame b (List.mem_cons_of_mem a hb))⟩
      rw [hsame a List.mem_cons_self]
      exact hc

theorem Chained.linked (h : Chained m as) : Chain.Linked (next m) as := by
  induction as with
  | nil => trivial
  | cons a as ih =>
      obtain ⟨_, ⟨c, hc, hparent, _⟩, has⟩ := h
      refine ⟨?_, ih has⟩
      rw [next, hc]
      exact hparent

/-- The depths count from the last context up. -/
theorem Chained.depth (h : Chained m as) :
    ∀ (i : ℕ) (a : ℕ), as[i]? = some a → (m a).map CallContext.depth = some (as.length - i) := by
  induction as with
  | nil => simp
  | cons b as ih =>
      obtain ⟨_, ⟨c, hc, _, hdepth⟩, has⟩ := h
      intro i a ha
      cases i with
      | zero =>
          obtain rfl := Option.some.inj ha
          rw [hc, Option.map_some, hdepth, List.length_cons, Nat.sub_zero]
      | succ i =>
          rw [ih has i a ha, List.length_cons, Nat.add_sub_add_right]

theorem Chained.push (h : Chained m as) (hnot : a ∉ as) {c : CallContext} (hc : m a = some c) :
    Chained (setNext m a as.head?) (a :: as) := by
  have hframe : Chained (setNext m a as.head?) as := by
    refine h.congr (fun b hb => Function.update_of_ne ?_ _ _)
    rintro rfl
    exact hnot hb
  refine ⟨hnot, ?_, hframe⟩
  unfold setNext
  rw [Function.update_self, hc]
  refine ⟨_, rfl, rfl, ?_⟩
  cases as with
  | nil => rfl
  | cons b bs =>
      obtain ⟨_, ⟨d, hd, _, hdepth⟩, _⟩ := h
      simp [hd, hdepth]

theorem setNext_self {l b : ℕ} (h : Chained m (l :: b :: as)) : setNext m l (some b) = m := by
  obtain ⟨_, ⟨c, hc, hparent, hdepth⟩, _, ⟨d, hd, _, hd'⟩, _⟩ := h
  unfold setNext
  rw [hc]
  rw [Function.update_eq_self_iff, hc]
  simp only [Option.map_some, Option.bind_some, hd, hd']
  rw [← show c.depth = as.length + 1 + 1 from hdepth, ← show c.parent = some b from hparent]

/-- The loop of `clone_stack`: what is in the source goes to the new addresses as it is, and nothing
else changes. -/
theorem cloneStack_spec {src new : List ℕ} {last : Option ℕ} (h : Chained m (last.toList ++ src))
    (hlen : new.length = src.length) (hnodup : new.Nodup) (hfree : ∀ a ∈ new, m a = none) :
    (cloneStack m last src new).2 = new ∧
      (∀ a, a ∉ new → (cloneStack m last src new).1 a = m a) ∧
      ∀ p ∈ new.zip src, (cloneStack m last src new).1 p.1 = m p.2 := by
  induction src generalizing m last new with
  | nil =>
      obtain rfl := List.eq_nil_of_length_eq_zero hlen
      exact ⟨rfl, fun _ _ => rfl, by simp⟩
  | cons b src ih =>
      cases new with
      | nil => cases hlen
      | cons a new =>
          obtain ⟨hnot, hnodup⟩ := List.nodup_cons.mp hnodup
          obtain ⟨ha, hfree⟩ := List.forall_mem_cons.mp hfree
          -- what is alive in the source is not at the new address
          have hother : ∀ c ∈ last.toList ++ b :: src, Function.update m a (m b) c = m c := by
            intro c hc
            refine Function.update_of_ne ?_ _ _
            rintro rfl
            obtain ⟨d, hd⟩ := h.alive c hc
            rw [ha] at hd
            cases hd
          have hm₁ : Chained (Function.update m a (m b)) (last.toList ++ b :: src) := h.congr hother
          have hlink : linkLast (Function.update m a (m b)) last b = Function.update m a (m b) := by
            cases last with
            | none => rfl
            | some l => exact setNext_self hm₁
          have htail : Chained (Function.update m a (m b)) ((some b).toList ++ src) := by
            cases last with
            | none => exact hm₁
            | some l => exact hm₁.2.2
          have hfree₁ : ∀ c ∈ new, Function.update m a (m b) c = none := by
            intro c hc
            rw [Function.update_of_ne (by rintro rfl; exact hnot hc)]
            exact hfree c hc
          obtain ⟨h₁, h₂, h₃⟩ := ih htail (by simpa using hlen) hnodup hfree₁
          unfold cloneStack
          rw [hlink]
          dsimp only
          refine ⟨by rw [h₁], ?_, ?_⟩
          · intro c hc
            rw [List.mem_cons, not_or] at hc
            rw [h₂ c hc.2, Function.update_of_ne hc.1]
          · rw [List.zip_cons_cons, List.forall_mem_cons]
            refine ⟨by rw [h₂ a hnot, Function.update_self], ?_⟩
            rintro ⟨c, d⟩ hp
            rw [h₃ ⟨c, d⟩ hp]
            exact hother d (List.mem_append_right _ (List.mem_cons_of_mem b (List.of_mem_zip hp).2))

end Contexts

/-! ### The holders and the stack -/

/-- `s_call_context` for the contexts `as`: null when there are none. -/
def stackOf : List ℕ → Option (List ℕ)
  | [] => none
  | a :: as => some (a :: as)

theorem stackOf_getD (as : List ℕ) : (stackOf as).getD [] = as := by
  cases as <;> rfl

/-- The stack with what is in it. -/
def viewOf (m : Contexts) (as : List ℕ) : Option (List (ℕ × Option CallContext)) :=
  (stackOf as).map (fun as => as.map (fun a => (a, m a)))

theorem viewOf_congr {m m' : Contexts} {as : List ℕ} (hsame : ∀ a ∈ as, m' a = m a) :
    viewOf m' as = viewOf m as := by
  cases as with
  | nil => rfl
  | cons a as =>
      refine congrArg some (List.map_congr_left (fun b hb => ?_))
      rw [hsame b hb]

/-- Each holder has saved what is still around it. -/
def Nested (m : Contexts) : List ContextHolder → Prop
  | [] => True
  | h :: hs => h.saved = viewOf m (hs.map ContextHolder.ctx) ∧ Nested m hs

theorem Nested.congr {m m' : Contexts} {hs : List ContextHolder} (h : Nested m hs)
    (hsame : ∀ a ∈ hs.map ContextHolder.ctx, m' a = m a) : Nested m' hs := by
  induction hs with
  | nil => trivial
  | cons c hs ih =>
      rw [List.map_cons, List.forall_mem_cons] at hsame
      exact ⟨h.1.trans (viewOf_congr hsame.2).symm, ih h.2 hsame.2⟩

namespace CallThread

variable {opts : SessionOptions} {t t' : CallThread}

/-- The stack is the list of the open holders. -/
structure Inv (t : CallThread) : Prop where
  stack : t.stack = stackOf (t.holders.map ContextHolder.ctx)
  chained : t.cells.Chained (t.holders.map ContextHolder.ctx)
  nested : Nested t.cells t.holders

theorem Inv.contexts (h : t.Inv) : t.contexts = t.holders.map ContextHolder.ctx := by
  unfold CallThread.contexts
  rw [h.stack, stackOf_getD]

theorem Inv.view (h : t.Inv) : t.view = viewOf t.cells (t.holders.map ContextHolder.ctx) := by
  unfold CallThread.view
  rw [h.stack]
  rfl

theorem Inv.frame (h : t.Inv) (hstack : t'.stack = t.stack) (hholders : t'.holders = t.holders)
    (hsame : ∀ a ∈ t.holders.map ContextHolder.ctx, t'.cells a = t.cells a) : t'.Inv := by
  refine ⟨?_, ?_, ?_⟩
  · rw [hstack, hholders, h.stack]
  · rw [hholders]
    exact h.chained.congr hsame
  · rw [hholders]
    exact h.nested.congr hsame

theorem openHolder_cells (t : CallThread) (a llu : ℕ) (kind : HolderKind) :
    (t.openHolder a llu kind).cells =
      Contexts.setNext (Function.update t.cells a (some { llu := llu })) a t.contexts.head? := rfl

theorem openHolder_stack (t : CallThread) (a llu : ℕ) (kind : HolderKind) :
    (t.openHolder a llu kind).stack = some (a :: t.contexts) := rfl

theorem openHolder_holders (t : CallThread) (a llu : ℕ) (kind : HolderKind) :
    (t.openHolder a llu kind).holders = ⟨a, kind, t.view⟩ :: t.holders := rfl

theorem Inv.openHolder (h : t.Inv) {a : ℕ} (hfree : t.cells a = none) (llu : ℕ)
    (kind : HolderKind) : (t.openHolder a llu kind).Inv := by
  have hnot : a ∉ t.holders.map ContextHolder.ctx := by
    intro ha
    obtain ⟨c, hc⟩ := h.chained.alive a ha
    rw [hfree] at hc
    cases hc
  have hnew : ∀ b ∈ t.holders.map ContextHolder.ctx,
      Function.update t.cells a (some { llu := llu }) b = t.cells b := by
    intro b hb
    refine Function.update_of_ne ?_ _ _
    rintro rfl
    exact hnot hb
  have hpush := (h.chained.congr hnew).push hnot (Function.update_self _ _ _)
  have hcells : ∀ b ∈ t.holders.map ContextHolder.ctx,
      (t.openHolder a llu kind).cells b = t.cells b := by
    intro b hb
    rw [openHolder_cells, ← hnew b hb]
    refine Function.update_of_ne ?_ _ _
    rintro rfl
    exact hnot hb
  refine ⟨?_, ?_, ?_⟩
  · rw [openHolder_stack, openHolder_holders, h.contexts]
    rfl
  · rw [openHolder_cells, openHolder_holders, h.contexts]
    exact hpush
  · rw [openHolder_holders]
    exact ⟨h.view.trans (viewOf_congr hcells).symm, h.nested.congr hcells⟩

theorem Inv.popCallContext (h : t.Inv) {c : ContextHolder} {hs : List ContextHolder}
    (hopen : t.holders = c :: hs) :
    t.popCallContext.stack = stackOf (hs.map ContextHolder.ctx) ∧
      t.popCallContext.cells = Function.update t.cells c.ctx none := by
  have hstack : t.stack = some (c.ctx :: hs.map ContextHolder.ctx) := by
    rw [h.stack, hopen]
    rfl
  unfold CallThread.popCallContext
  rw [hstack]
  dsimp only
  cases hs with
  | nil => exact ⟨rfl, rfl⟩
  | cons d hs => exact ⟨rfl, rfl⟩

theorem closeHolder_holders {c : ContextHolder} {hs : List ContextHolder}
    (hopen : t.holders = c :: hs) : t.closeHolder.holders = hs := by
  unfold CallThread.closeHolder
  rw [hopen]
  rfl

theorem closeHolder_log (t : CallThread) : t.closeHolder.log = t.log := by
  unfold CallThread.closeHolder CallThread.popCallContext
  dsimp only
  split_ifs
  · split <;> rfl
  · split <;> rfl

/-- The end of the innermost holder: the rest is as the holder found it. -/
theorem Inv.closeHolder (h : t.Inv) {c : ContextHolder} {hs : List ContextHolder}
    (hopen : t.holders = c :: hs) : t.closeHolder.Inv ∧ t.closeHolder.view = c.saved := by
  obtain ⟨hstack, hcells⟩ := h.popCallContext hopen
  have hchained := h.chained
  have hnested := h.nested
  rw [hopen] at hchained hnested
  have hrest : ∀ a ∈ hs.map ContextHolder.ctx, t.closeHolder.cells a = t.cells a := by
    intro a ha
    rw [show t.closeHolder.cells = _ from hcells]
    refine Function.update_of_ne ?_ _ _
    rintro rfl
    exact hchained.1 ha
  have hinv : t.closeHolder.Inv := by
    refine ⟨?_, ?_, ?_⟩
    · rw [closeHolder_holders hopen]
      exact hstack
    · rw [closeHolder_holders hopen]
      exact hchained.2.2.congr hrest
    · rw [closeHolder_holders hopen]
      exact hnested.2.congr hrest
  refine ⟨hinv, ?_⟩
  rw [hinv.view, closeHolder_holders hopen, viewOf_congr hrest]
  exact hnested.1.symm

/-- A setter of the innermost context that leaves its link and its number alone. -/
theorem Inv.onContext (h : t.Inv) {c : ContextHolder} {hs : List ContextHolder}
    (hopen : t.holders = c :: hs) {f : CallContext → CallContext}
    (hf : ∀ x, (f x).parent = x.parent ∧ (f x).depth = x.depth) : (t.onContext c f).Inv := by
  have hchained := h.chained
  have hnested := h.nested
  rw [hopen] at hchained hnested
  obtain ⟨hnot, ⟨x, hx, hparent, hdepth⟩, hrest⟩ := hchained
  have hsame : ∀ a ∈ hs.map ContextHolder.ctx, (t.onContext c f).cells a = t.cells a := by
    intro a ha
    refine Function.update_of_ne ?_ _ _
    rintro rfl
    exact hnot ha
  have hfront : (t.onContext c f).cells c.ctx = some (f x) := by
    unfold CallThread.onContext
    dsimp only
    rw [Function.update_self, hx, Option.map_some]
  refine ⟨h.stack, ?_, ?_⟩
  · rw [show (t.onContext c f).holders = c :: hs from hopen]
    exact ⟨hnot, ⟨f x, hfront, (hf x).1.trans hparent, (hf x).2.trans hdepth⟩, hrest.congr hsame⟩
  · rw [show (t.onContext c f).holders = c :: hs from hopen]
    exact ⟨hnested.1.trans (viewOf_congr hsame).symm, hnested.2.congr hsame⟩

theorem copyCallStack_stack (t : CallThread) (new : List ℕ) :
    (t.copyCallStack new).1.stack = t.stack ∧ (t.copyCallStack new).1.holders = t.holders ∧
      (t.copyCallStack new).1.log = t.log := by
  unfold CallThread.copyCallStack
  cases h : t.stack with
  | none => exact ⟨h, rfl, rfl⟩
  | some src => exact ⟨rfl, rfl, rfl⟩

theorem Inv.copyCallStack (h : t.Inv) {new : List ℕ} (hnew : t.Fresh new) :
    (t.copyCallStack new).2 = new ∧
      (∀ a, a ∉ new → (t.copyCallStack new).1.cells a = t.cells a) ∧
      ∀ p ∈ new.zip t.contexts, (t.copyCallStack new).1.cells p.1 = t.cells p.2 := by
  obtain ⟨hlen, hnodup, hfree⟩ := hnew
  unfold CallThread.copyCallStack
  cases hstack : t.stack with
  | none =>
      have hcontexts : t.contexts = [] := by
        unfold CallThread.contexts
        rw [hstack]
        rfl
      rw [hcontexts] at hlen ⊢
      obtain rfl := List.eq_nil_of_length_eq_zero hlen
      exact ⟨rfl, fun _ _ => rfl, by simp⟩
  | some src =>
      have hcontexts : t.contexts = src := by
        unfold CallThread.contexts
        rw [hstack]
        rfl
      have hchained : t.cells.Chained src := by
        rw [← hcontexts, h.contexts]
        exact h.chained
      rw [hcontexts] at hlen ⊢
      exact Contexts.cloneStack_spec hchained hlen hnodup hfree

/-- What a step can do: open a holder, let the handler of the innermost local call run, refuse that
call, set something in the innermost context, leave the innermost frame, copy the stack. -/
inductive Does (opts : SessionOptions) (t : CallThread) : ThreadEvent → CallThread → Prop
  | opened {e : ThreadEvent} (a llu : ℕ) (kind : HolderKind) (hkind : kind ≠ .running)
      (hfree : t.cells a = none) : Does opts t e (t.openHolder a llu kind)
  | ran {c : ContextHolder} {hs : List ContextHolder} (services : Services) (llu : LowlevelUnit)
      (hopen : t.holders = c :: hs) (hok : resolve opts (t.depthOf c) services llu = .ok ()) :
      Does opts t (.lookup services llu)
        { t with holders := { c with kind := .running } :: hs, log := t.log ++ [.ran (t.depthOf c)] }
  | refused {c : ContextHolder} {hs : List ContextHolder} (services : Services)
      (llu : LowlevelUnit) (ex : Thrown) (hopen : t.holders = c :: hs)
      (herr : resolve opts (t.depthOf c) services llu = .error ex) :
      Does opts t (.lookup services llu)
        { t.closeHolder with log := t.log ++ [.refused (t.depthOf c) ex] }
  | set {e : ThreadEvent} {c : ContextHolder} {hs : List ContextHolder}
      (f : CallContext → CallContext) (hopen : t.holders = c :: hs)
      (hf : ∀ x, (f x).parent = x.parent ∧ (f x).depth = x.depth) : Does opts t e (t.onContext c f)
  | left {c : ContextHolder} {hs : List ContextHolder} (hopen : t.holders = c :: hs) :
      Does opts t .leave t.closeHolder
  | copied (new : List ℕ) (hnew : t.Fresh new) :
      Does opts t (.copyCallStack new) (t.copyCallStack new).1

theorem does_of_step {e : ThreadEvent} (h : t.step opts e = some t') : t.Does opts e t' := by
  cases e with
  | callAndWait a llu =>
      simp only [step] at h
      split_ifs at h with hfree
      obtain rfl := Option.some.inj h
      exact .opened a llu _ (by simp) hfree
  | makeLocalCall a llu =>
      simp only [step] at h
      split_ifs at h with hfree
      obtain rfl := Option.some.inj h
      exact .opened a llu _ (by simp) hfree
  | lookup services llu =>
      cases hopen : t.holders with
      | nil =>
          simp only [step, hopen] at h
          cases h
      | cons c hs =>
          simp only [step, hopen] at h
          split_ifs at h
          cases hres : resolve opts (t.depthOf c) services llu with
          | ok u =>
              rw [hres] at h
              obtain rfl := Option.some.inj h
              exact .ran services llu hopen hres
          | error ex =>
              rw [hres] at h
              obtain rfl := Option.some.inj h
              exact .refused services llu ex hopen hres
  | setCallOptions o =>
      cases hopen : t.holders with
      | nil =>
          simp only [step, hopen] at h
          cases h
      | cons c hs =>
          simp only [step, hopen] at h
          obtain rfl := Option.some.inj h
          exact .set _ hopen (fun _ => ⟨rfl, rfl⟩)
  | setDoneClosure d =>
      cases hopen : t.holders with
      | nil =>
          simp only [step, hopen] at h
          cases h
      | cons c hs =>
          simp only [step, hopen] at h
          obtain rfl := Option.some.inj h
          exact .set _ hopen (fun _ => ⟨rfl, rfl⟩)
  | leave =>
      cases hopen : t.holders with
      | nil =>
          simp only [step, hopen] at h
          cases h
      | cons c hs =>
          simp only [step, hopen] at h
          split_ifs at h
          obtain rfl := Option.some.inj h
          exact .left hopen
  | copyCallStack new =>
      simp only [step] at h
      split_ifs at h with hnew
      obtain rfl := Option.some.inj h
      exact .copied new hnew

theorem Inv.step {e : ThreadEvent} (h : t.Inv) (hs : t.step opts e = some t') : t'.Inv := by
  cases does_of_step hs with
  | opened a llu kind hkind hfree => exact h.openHolder hfree llu kind
  | ran services llu hopen hok =>
      refine ⟨?_, ?_, ?_⟩
      · have hstack := h.stack
        rw [hopen] at hstack
        exact hstack
      · have hchained := h.chained
        rw [hopen] at hchained
        exact hchained
      · have hnested := h.nested
        rw [hopen] at hnested
        exact hnested
  | refused services llu ex hopen herr =>
      obtain ⟨hstack, hchained, hnested⟩ := (h.closeHolder hopen).1
      exact ⟨hstack, hchained, hnested⟩
  | set f hopen hf => exact h.onContext hopen hf
  | left hopen => exact (h.closeHolder hopen).1
  | copied new hnew =>
      obtain ⟨hstack, hholders, _⟩ := t.copyCallStack_stack new
      refine h.frame hstack hholders (fun a ha => ?_)
      apply (h.copyCallStack hnew).2.1
      intro hmem
      obtain ⟨c, hc⟩ := h.chained.alive a ha
      rw [hnew.2.2 a hmem] at hc
      cases hc

theorem inv_initial : initial.Inv := ⟨rfl, trivial, trivial⟩

theorem inv_reachable (h : (threadMachine opts).Reachable t) : t.Inv :=
  h.inv inv_initial (fun _ _ _ hi hs => hi.step hs)

theorem Inv.depthOf (h : t.Inv) {c : ContextHolder} {hs : List ContextHolder}
    (hopen : t.holders = c :: hs) : t.depthOf c = t.contexts.length := by
  have hchained := h.chained
  rw [hopen] at hchained
  obtain ⟨_, ⟨x, hx, _, hdepth⟩, _⟩ := hchained
  unfold CallThread.depthOf
  rw [hx, h.contexts, hopen]
  exact hdepth

/-! ### Handlers and the depth -/

theorem resolve_deep {opts : SessionOptions} {depth : ℕ} (hdeep : opts.maxStackSize.toNat < depth)
    (services : Services) (llu : LowlevelUnit) :
    resolve opts depth services llu = .error (.raise .overflow "") := by
  unfold resolve
  exact if_pos hdeep

/-- A handler was run within the depth, and what is deeper has overflowed. -/
def Within (opts : SessionOptions) : Outcome → Prop
  | .ran depth => depth ≤ opts.maxStackSize.toNat
  | .refused depth ex => opts.maxStackSize.toNat < depth → ex = .raise .overflow ""

/-- Each running handler is within the depth. -/
def Running (opts : SessionOptions) : List ContextHolder → Prop
  | [] => True
  | c :: hs => (c.kind = .running → hs.length + 1 ≤ opts.maxStackSize.toNat) ∧ Running opts hs

theorem Running.depth {hs : List ContextHolder} (h : Running opts hs) :
    ∀ (i : ℕ) (c : ContextHolder), hs[i]? = some c → c.kind = .running →
      hs.length - i ≤ opts.maxStackSize.toNat := by
  induction hs with
  | nil => simp
  | cons d hs ih =>
      intro i c hc hrun
      cases i with
      | zero =>
          obtain rfl := Option.some.inj hc
          exact h.1 hrun
      | succ i =>
          have := ih h.2 i c hc hrun
          rw [List.length_cons]
          omega

/-- How the local calls of a thread have fared. -/
structure Served (opts : SessionOptions) (t : CallThread) : Prop where
  inv : t.Inv
  running : Running opts t.holders
  log : ∀ o ∈ t.log, Within opts o

theorem Served.logged (h : t.Served opts) {o : Outcome} (ho : Within opts o) :
    ∀ o' ∈ t.log ++ [o], Within opts o' := by
  intro o' ho'
  rcases List.mem_append.mp ho' with ho' | ho'
  · exact h.log o' ho'
  · rw [List.mem_singleton.mp ho']
    exact ho

theorem Served.step {e : ThreadEvent} (h : t.Served opts) (hstep : t.step opts e = some t') :
    t'.Served opts := by
  have hinv := h.inv.step hstep
  have hrunning := h.running
  cases does_of_step hstep with
  | opened a llu kind hkind hfree =>
      refine ⟨hinv, ?_, h.log⟩
      rw [openHolder_holders]
      exact ⟨fun hrun => absurd hrun hkind, hrunning⟩
  | @ran c hs services llu hopen hok =>
      have hdepth : t.depthOf c ≤ opts.maxStackSize.toNat := by
        by_contra hdeep
        rw [resolve_deep (by omega)] at hok
        cases hok
      rw [hopen] at hrunning
      refine ⟨hinv, ⟨fun _ => ?_, hrunning.2⟩, h.logged hdepth⟩
      rw [h.inv.depthOf hopen, h.inv.contexts, hopen] at hdepth
      simpa using hdepth
  | @refused c hs services llu ex hopen herr =>
      rw [hopen] at hrunning
      refine ⟨hinv, ?_, h.logged ?_⟩
      · rw [show ({ t.closeHolder with log := _ } : CallThread).holders = hs from
          closeHolder_holders hopen]
        exact hrunning.2
      · intro hdeep
        rw [resolve_deep hdeep] at herr
        injection herr with herr
        exact herr.symm
  | set f hopen hf => exact ⟨hinv, hrunning, h.log⟩
  | @left c hs hopen =>
      rw [hopen] at hrunning
      refine ⟨hinv, ?_, ?_⟩
      · rw [closeHolder_holders hopen]
        exact hrunning.2
      · rw [closeHolder_log]
        exact h.log
  | copied new hnew =>
      obtain ⟨_, hholders, hlog⟩ := t.copyCallStack_stack new
      refine ⟨hinv, ?_, ?_⟩
      · rw [hholders]
        exact hrunning
      · rw [hlog]
        exact h.log

theorem served_reachable (h : (threadMachine opts).Reachable t) : t.Served opts :=
  h.inv ⟨inv_initial, trivial, by simp [threadMachine, initial]⟩
    (fun _ _ _ hi hstep => hi.step hstep)

/-- The lookup of a local call logs one outcome, at the depth of the whole stack. -/
theorem lookup_logs (h : t.Inv) {services : Services} {llu : LowlevelUnit}
    (hstep : t.step opts (.lookup services llu) = some t') :
    ∃ o, t'.log = t.log ++ [o] ∧ o.depth = t.contexts.length := by
  cases hopen : t.holders with
  | nil =>
      simp only [CallThread.step, hopen] at hstep
      cases hstep
  | cons c hs =>
      simp only [CallThread.step, hopen] at hstep
      split_ifs at hstep
      cases hres : resolve opts (t.depthOf c) services llu with
      | ok u =>
          rw [hres] at hstep
          obtain rfl := Option.some.inj hstep
          exact ⟨_, rfl, h.depthOf hopen⟩
      | error ex =>
          rw [hres] at hstep
          obtain rfl := Option.some.inj hstep
          exact ⟨_, rfl, h.depthOf hopen⟩

/-! ### A holder from its opening to its end -/

/-- The holders above `rest` end with one that has saved `v`. -/
def Inside (rest : List ContextHolder) (v : Option (List (ℕ × Option CallContext)))
    (t : CallThread) : Prop :=
  ∃ above c, t.holders = above ++ c :: rest ∧ c.saved = v

/-- The innermost holder is closed: one above, or the one that has saved `v`. -/
theorem Inside.closeHolder {rest hs : List ContextHolder} {d : ContextHolder}
    {v : Option (List (ℕ × Option CallContext))} (h : Inside rest v t) (hinv : t.Inv)
    (hopen : t.holders = d :: hs) :
    Inside rest v t.closeHolder ∨ (t.closeHolder.holders = rest ∧ t.closeHolder.view = v) := by
  obtain ⟨above, c, hholders, hsaved⟩ := h
  have hclosed := closeHolder_holders hopen
  cases above with
  | nil =>
      obtain ⟨rfl, rfl⟩ := List.cons.inj (hopen.symm.trans hholders)
      refine .inr ⟨hclosed, ?_⟩
      rw [(hinv.closeHolder hopen).2, hsaved]
  | cons b above =>
      obtain ⟨rfl, rfl⟩ := List.cons.inj (hopen.symm.trans hholders)
      exact .inl ⟨above, c, hclosed, hsaved⟩

theorem Inside.step {rest : List ContextHolder} {v : Option (List (ℕ × Option CallContext))}
    {e : ThreadEvent} (h : Inside rest v t) (hinv : t.Inv) (hstep : t.step opts e = some t') :
    Inside rest v t' ∨ (t'.holders = rest ∧ t'.view = v) := by
  obtain ⟨above, c, hholders, hsaved⟩ := id h
  cases does_of_step hstep with
  | opened a llu kind hkind hfree =>
      refine .inl ⟨⟨a, kind, t.view⟩ :: above, c, ?_, hsaved⟩
      rw [openHolder_holders, hholders]
      rfl
  | @ran d hs services llu hopen hok =>
      cases above with
      | nil =>
          obtain ⟨rfl, rfl⟩ := List.cons.inj (hopen.symm.trans hholders)
          exact .inl ⟨[], { d with kind := .running }, rfl, hsaved⟩
      | cons b above =>
          obtain ⟨rfl, rfl⟩ := List.cons.inj (hopen.symm.trans hholders)
          exact .inl ⟨{ d with kind := .running } :: above, c, rfl, hsaved⟩
  | refused services llu ex hopen herr => exact h.closeHolder hinv hopen
  | set f hopen hf => exact .inl ⟨above, c, hholders, hsaved⟩
  | left hopen => exact h.closeHolder hinv hopen
  | copied new hnew =>
      refine .inl ⟨above, c, ?_, hsaved⟩
      rw [(t.copyCallStack_stack new).2.1, hholders]

/-- The run lemma of a holder: while there are more holders than `rest` it stays open, and the event
that brings their number back has closed it. -/
theorem Inside.run {rest : List ContextHolder} {v : Option (List (ℕ × Option CallContext))}
    {es : List ThreadEvent} {e : ThreadEvent} (h : Inside rest v t) (hinv : t.Inv)
    (hopen : (threadMachine opts).Meets (fun s _ => rest.length < s.holders.length) t (es ++ [e]))
    (hrun : (threadMachine opts).runFrom t (es ++ [e]) = some t')
    (hend : t'.holders.length = rest.length) : t'.holders = rest ∧ t'.view = v := by
  induction es generalizing t with
  | nil =>
      obtain ⟨t₁, hstep, hrun⟩ := (threadMachine opts).runFrom_cons_eq_some.mp hrun
      obtain rfl := Option.some.inj hrun
      refine (h.step hinv hstep).resolve_left ?_
      rintro ⟨above, c, hholders, _⟩
      rw [hholders, List.length_append, List.length_cons] at hend
      omega
  | cons e₀ es ih =>
      obtain ⟨t₁, hstep, hrun⟩ := (threadMachine opts).runFrom_cons_eq_some.mp hrun
      have hopen₁ := hopen.2 t₁ hstep
      refine ih ((h.step hinv hstep).resolve_right ?_) (hinv.step hstep) hopen₁ hrun
      rintro ⟨hholders, _⟩
      have hmore : rest.length < t₁.holders.length := by
        cases es with
        | nil => exact hopen₁.1
        | cons e₁ es => exact hopen₁.1
      rw [hholders] at hmore
      exact lt_irrefl _ hmore

theorem inside_of_opened {e : ThreadEvent} (hstep : t.step opts e = some t')
    (hopen : t'.holders.length = t.holders.length + 1) : Inside t.holders t.view t' := by
  cases does_of_step hstep with
  | opened a llu kind hkind hfree => exact ⟨[], _, rfl, rfl⟩
  | ran services llu hholders hok =>
      rw [hholders] at hopen
      simp at hopen
  | refused services llu ex hholders herr =>
      rw [show ({ t.closeHolder with log := _ } : CallThread).holders = _ from
        closeHolder_holders hholders, hholders, List.length_cons] at hopen
      omega
  | set f hholders hf =>
      rw [show (t.onContext _ f).holders = t.holders from rfl] at hopen
      omega
  | left hholders =>
      rw [closeHolder_holders hholders, hholders, List.length_cons] at hopen
      omega
  | copied new hnew =>
      rw [(t.copyCallStack_stack new).2.1] at hopen
      omega

end CallThread

open CallThread

/-- **The discipline of the call contexts.**  In every state of a thread the contexts of its stack are
those of the open holders, each linked to the following one and numbered from the end; the running
handlers are within the depth that the session allows, a local call reads the depth of the whole
stack, and one that is too deep overflows before its handler.  From the event `e` that opens a
holder to the event `e'` that brings the number of holders back, the stack is restored. -/
theorem call_context_discipline (opts : SessionOptions) (t : CallThread)
    (h : (threadMachine opts).Reachable t) :
    t.contexts = t.holders.map ContextHolder.ctx ∧
      (∀ (i a : ℕ), t.contexts[i]? = some a → t.cells.next a = t.contexts[i + 1]? ∧
        (t.cells a).map CallContext.depth = some (t.contexts.length - i)) ∧
      (∀ (i : ℕ) (c : ContextHolder), t.holders[i]? = some c → c.kind = .running →
        t.contexts.length - i ≤ opts.maxStackSize.toNat) ∧
      (∀ o ∈ t.log, Within opts o) ∧
      (∀ services llu t', t.step opts (.lookup services llu) = some t' →
        ∃ o, t'.log = t.log ++ [o] ∧ o.depth = t.contexts.length) ∧
      ∀ e es e' t₁ t', t.step opts e = some t₁ → t₁.holders.length = t.holders.length + 1 →
        (threadMachine opts).Meets (fun s _ => t.holders.length < s.holders.length) t₁ (es ++ [e']) →
        (threadMachine opts).runFrom t₁ (es ++ [e']) = some t' →
        t'.holders.length = t.holders.length → t'.view = t.view := by
  have hserved := served_reachable h
  have hinv := hserved.inv
  have hchained : t.cells.Chained t.contexts := by
    rw [hinv.contexts]
    exact hinv.chained
  refine ⟨hinv.contexts, ?_, ?_, hserved.log, ?_, ?_⟩
  · intro i a ha
    exact ⟨Chain.linked_iff.mp hchained.linked i a ha, hchained.depth i a ha⟩
  · intro i c hc hrun
    rw [hinv.contexts, List.length_map]
    exact hserved.running.depth i c hc hrun
  · intro services llu t' hstep
    exact lookup_logs hinv hstep
  · intro e es e' t₁ t' hstep hopen hmeets hrun hend
    exact ((inside_of_opened hstep hopen).run (hinv.step hstep) hmeets hrun hend).2

/-- A call that waits for its answer serves a callback at the only depth that the session allows: the
callback overflows, and when both frames are left the thread has no stack. -/
theorem call_context_discipline_overflow :
    let opts : SessionOptions := { maxStackSize := 1 }
    ∃ t t₁ t', (threadMachine opts).run [.callAndWait 0 7] = some t ∧
      t.step opts (.makeLocalCall 1 8) = some t₁ ∧
      (threadMachine opts).runFrom t₁ [.lookup (fun _ => .ok none) {}] = some t' ∧
      t'.log = [.refused 2 (.raise .overflow "")] ∧ t₁.contexts = t₁.holders.map ContextHolder.ctx ∧
      t'.view = t.view := by
  intro opts
  refine ⟨_, _, _, rfl, rfl, rfl, rfl, ?_, ?_⟩
  · exact (call_context_discipline opts _ ⟨[.callAndWait 0 7, .makeLocalCall 1 8], rfl⟩).1
  · exact (call_context_discipline opts _ ⟨[.callAndWait 0 7], rfl⟩).2.2.2.2.2
      (.makeLocalCall 1 8) [] (.lookup (fun _ => .ok none) {}) _ _ rfl rfl (by decide) rfl rfl

/-! ### Copies of the stack -/

/-- The copy, in the state `t'` after the original in `t` was copied: as long, with the same units,
options, closures and depths, linked from each copy to the following one, and such that a walk from
its front goes along it as long as the copies themselves are there; the original is as it was. -/
structure SelfContained (t t' : CallThread) (copy : List ℕ) : Prop where
  length : copy.length = t.contexts.length
  same : ∀ p ∈ copy.zip t.contexts, ∃ c c', t.cells p.2 = some c ∧ t'.cells p.1 = some c' ∧
    c'.llu = c.llu ∧ c'.opts = c.opts ∧ c'.done = c.done ∧ c'.depth = c.depth
  linked : ∀ (i a : ℕ), copy[i]? = some a → t'.cells.next a = copy[i + 1]?
  inside : ∀ m : Contexts, (∀ a ∈ copy, m a = t'.cells a) →
    ∀ n, Chain.walk m.next n copy.head? = copy.take n
  original : t'.stack = t.stack ∧ ∀ a ∈ t.contexts, t'.cells a = t.cells a

/-- **Copies of the call stack.**  A copy of a thread's stack stands on its own exactly when the stack
has at most one context: `clone_stack` links the contexts of the original, and each copy keeps the
link of the context it was made from. -/
theorem copy_self_contained_iff (opts : SessionOptions) (t : CallThread)
    (h : (threadMachine opts).Reachable t) (new : List ℕ) (hnew : t.Fresh new) :
    SelfContained t (t.copyCallStack new).1 (t.copyCallStack new).2 ↔ t.contexts.length ≤ 1 := by
  have hinv := inv_reachable h
  obtain ⟨hcopy, hframe, hsame⟩ := hinv.copyCallStack hnew
  obtain ⟨hlen, hnodup, hfree⟩ := hnew
  have hchained : t.cells.Chained t.contexts := by
    rw [hinv.contexts]
    exact hinv.chained
  have hother : ∀ a ∈ t.contexts, a ∉ new := by
    intro a ha hmem
    obtain ⟨c, hc⟩ := hchained.alive a ha
    rw [hfree a hmem] at hc
    cases hc
  rw [hcopy]
  constructor
  · intro hself
    by_contra hmore
    obtain ⟨a, b, as, hcontexts⟩ : ∃ a b as, t.contexts = a :: b :: as := by
      match hc : t.contexts with
      | [] => simp [hc] at hmore
      | [a] => simp [hc] at hmore
      | a :: b :: as => exact ⟨a, b, as, rfl⟩
    obtain ⟨x, y, xs, rfl⟩ : ∃ x y xs, new = x :: y :: xs := by
      match new with
      | [] => simp [hcontexts] at hlen
      | [x] => simp [hcontexts] at hlen
      | x :: y :: xs => exact ⟨x, y, xs, rfl⟩
    -- the first copy still leads to the second context of the original
    have hx : (t.copyCallStack (x :: y :: xs)).1.cells x = t.cells a := by
      apply hsame (x, a)
      rw [hcontexts]
      exact List.mem_cons_self
    have ha : t.cells.next a = some b := by
      rw [hcontexts] at hchained
      exact hchained.linked.1
    have hy := hself.linked 0 x rfl
    rw [Contexts.next, hx, ← Contexts.next, ha] at hy
    obtain rfl := Option.some.inj hy
    exact hother b (by simp [hcontexts]) (by simp)
  · intro hone
    have hlinked : Chain.Linked (t.copyCallStack new).1.cells.next new := by
      match hc : t.contexts, new with
      | [], [] => trivial
      | [a], [x] =>
          have hx : (t.copyCallStack [x]).1.cells x = t.cells a := by
            apply hsame (x, a)
            rw [hc]
            exact List.mem_cons_self
          have ha : t.cells.next a = none := by
            rw [hc] at hchained
            exact hchained.linked.1
          refine ⟨?_, trivial⟩
          rw [Contexts.next, hx]
          exact ha
      | [], _ :: _ => simp [hc] at hlen
      | [_], [] => simp [hc] at hlen
      | [_], _ :: _ :: _ => simp [hc] at hlen
      | _ :: _ :: _, _ => simp [hc] at hone
    refine ⟨hlen, ?_, Chain.linked_iff.mp hlinked, ?_, (t.copyCallStack_stack new).1, ?_⟩
    · intro p hp
      obtain ⟨c, hc⟩ := hchained.alive p.2 (List.of_mem_zip hp).2
      exact ⟨c, c, hc, (hsame p hp).trans hc, rfl, rfl, rfl, rfl⟩
    · intro m hm n
      refine (hlinked.congr (fun a ha => ?_)).walk_eq_take n
      rw [Contexts.next, hm a ha, ← Contexts.next]
    · intro a ha
      exact hframe a (hother a ha)

/-- A handler that is in no other call copies its stack. -/
theorem copy_self_contained_handler :
    ∃ t, (threadMachine .defaults).run [.makeLocalCall 0 7] = some t ∧
      SelfContained t (t.copyCallStack [1]).1 (t.copyCallStack [1]).2 := by
  refine ⟨_, rfl, ?_⟩
  exact (copy_self_contained_iff .defaults _ ⟨[.makeLocalCall 0 7], rfl⟩ [1] (by decide)).mpr
    (by decide)

/-- A handler of a callback, in a call that waits, copies its stack: `next` of the first copy is the
context of the call, not its copy. -/
theorem copy_not_self_contained_callback :
    ∃ t, (threadMachine .defaults).run [.callAndWait 0 7, .makeLocalCall 1 8] = some t ∧
      t.Fresh [2, 3] ∧ (t.copyCallStack [2, 3]).2 = [2, 3] ∧
      (t.copyCallStack [2, 3]).1.cells.next 2 = some 0 ∧
      ¬ SelfContained t (t.copyCallStack [2, 3]).1 (t.copyCallStack [2, 3]).2 := by
  refine ⟨_, rfl, by decide, rfl, rfl, ?_⟩
  intro h
  have := h.linked 0 2 rfl
  revert this
  decide

end Vtrc
