import Vtrc.Observer.Emits
import Mathlib.Logic.Equiv.Basic

/-! # Subscriptions and their owners (`observer/subscription.h`, `observer/scoped-subscription.h`)

`subscribe` returns a `subscription`, which shares an `unsubscriber`: a key and the observer that it
is a key of.  A `subscription` may be copied, and forgets its key without running it; a
`scoped_subscription` takes a key over from a `subscription` or from another one, and runs it when
it is reset, assigned to, or destroyed.

The handles of a program are objects with names.  `effect` is what an operation does to them: the
handles after it, the key whose unsubscriber it runs, and the key that a `subscription` forgets.
The move assignment of `subscription` copies, as the code does, and so shares the key.

`handles_own_slots` is about every run of an observer and its handles in which the slots neither
emit nor clear: a slot is run only while a handle has its key or after a `subscription` has forgotten
it.  Where no key is ever shared, each has at most one handle, and its slot is live as long as that
handle has it. -/

namespace Vtrc

namespace Observer

/-- A `subscription` or a `scoped_subscription`, with the subscription whose key it has. -/
structure Handle where
  isScoped : Bool
  key : Option ℕ
deriving DecidableEq, Repr

/-- The constructors, operators and methods of the two classes; `a` is the object, `b` the other
one. -/
inductive HandleOp where
  /-- `subscription( )` -/
  | new (a : ℕ)
  /-- `subscription( const subscription & )` -/
  | copy (a b : ℕ)
  /-- `subscription( subscription && )` -/
  | moved (a b : ℕ)
  /-- Both `operator =` of `subscription`. -/
  | assign (a b : ℕ)
  /-- `scoped_subscription( )` -/
  | scopedNew (a : ℕ)
  /-- `scoped_subscription( const subscription & )` -/
  | scopedCopy (a b : ℕ)
  /-- `scoped_subscription( subscription && )` -/
  | scopedTake (a b : ℕ)
  /-- `scoped_subscription( scoped_subscription && )` -/
  | scopedMoved (a b : ℕ)
  /-- `operator = ( scoped_subscription && )` and `operator = ( scoped_subscription & )` -/
  | scopedAssign (a b : ℕ)
  /-- `operator = ( subscription && )` -/
  | assignTake (a b : ℕ)
  /-- `operator = ( const subscription & )` -/
  | assignCopy (a b : ℕ)
  /-- `release`, into the new object `b` -/
  | release (a b : ℕ)
  | reset (a : ℕ)
  | unsubscribe (a : ℕ)
  | swap (a b : ℕ)
  | destroy (a : ℕ)
deriving DecidableEq, Repr

/-- The objects of a program. -/
abbrev Handles := ℕ → Option Handle

/-- What an operation leads to: the objects, the key that it runs, and the key that it forgets. -/
structure Effect where
  handles : Handles
  ran : Option ℕ := none
  forgot : Option ℕ := none

namespace HandleOp

/-- The object `a` is made, with the key; the object `b` keeps `rest`. -/
def make (h : Handles) (a b : ℕ) (x : Handle) (y : Handle) : Effect :=
  { handles := Function.update (Function.update h b (some y)) a (some x) }

def effect (h : Handles) : HandleOp → Option Effect
  | .new a =>
      match h a with
      | none => some { handles := Function.update h a (some ⟨false, none⟩) }
      | some _ => none
  | .copy a b =>
      match h a, h b with
      | none, some ⟨false, k⟩ => some (make h a b ⟨false, k⟩ ⟨false, k⟩)
      | _, _ => none
  | .moved a b =>
      match h a, h b with
      | none, some ⟨false, k⟩ => some (make h a b ⟨false, k⟩ ⟨false, none⟩)
      | _, _ => none
  | .assign a b =>
      match h a, h b with
      | some ⟨false, old⟩, some ⟨false, k⟩ =>
          if a = b then some { handles := h }
          else some { handles := Function.update h a (some ⟨false, k⟩), forgot := old }
      | _, _ => none
  | .scopedNew a =>
      match h a with
      | none => some { handles := Function.update h a (some ⟨true, none⟩) }
      | some _ => none
  | .scopedCopy a b =>
      match h a, h b with
      | none, some ⟨false, k⟩ => some (make h a b ⟨true, k⟩ ⟨false, k⟩)
      | _, _ => none
  | .scopedTake a b =>
      match h a, h b with
      | none, some ⟨false, k⟩ => some (make h a b ⟨true, k⟩ ⟨false, none⟩)
      | _, _ => none
  | .scopedMoved a b =>
      match h a, h b with
      | none, some ⟨true, k⟩ => some (make h a b ⟨true, k⟩ ⟨true, none⟩)
      | _, _ => none
  | .scopedAssign a b =>
      match h a, h b with
      | some ⟨true, old⟩, some ⟨true, k⟩ =>
          -- the other object takes the old key over and is reset
          if a = b then some { handles := h }
          else some { make h a b ⟨true, k⟩ ⟨true, none⟩ with ran := old }
      | _, _ => none
  | .assignTake a b =>
      match h a, h b with
      | some ⟨true, old⟩, some ⟨false, k⟩ =>
          some { make h a b ⟨true, k⟩ ⟨false, old⟩ with ran := old }
      | _, _ => none
  | .assignCopy a b =>
      match h a, h b with
      | some ⟨true, old⟩, some ⟨false, k⟩ =>
          some { handles := Function.update h a (some ⟨true, k⟩), ran := old }
      | _, _ => none
  | .release a b =>
      match h a, h b with
      | some ⟨true, k⟩, none => some (make h b a ⟨false, k⟩ ⟨true, none⟩)
      | _, _ => none
  | .reset a =>
      match h a with
      | some ⟨true, k⟩ => some { handles := Function.update h a (some ⟨true, none⟩), ran := k }
      | _ => none
  | .unsubscribe a =>
      match h a with
      | some ⟨_, k⟩ => some { handles := h, ran := k }
      | none => none
  | .swap a b =>
      match h a, h b with
      | some x, some y =>
          if x.isScoped = y.isScoped then
            some { handles := Function.update (Function.update h a (some y)) b (some x) }
          else none
      | _, _ => none
  | .destroy a =>
      match h a with
      | some ⟨true, k⟩ => some { handles := Function.update h a none, ran := k }
      | some ⟨false, k⟩ => some { handles := Function.update h a none, forgot := k }
      | none => none

/-- No key is shared, none is run by hand, and no `scoped_subscription` that has one is assigned to
from a `subscription`, which would keep the key that is run. -/
def Exclusive (h : Handles) : HandleOp → Prop
  | .copy _ _ | .assign _ _ | .scopedCopy _ _ | .assignCopy _ _ | .unsubscribe _ => False
  | .assignTake a _ => (h a).bind Handle.key = none
  | _ => True

instance decidableExclusive (h : Handles) : (o : HandleOp) → Decidable (o.Exclusive h)
  | .copy _ _ | .assign _ _ | .scopedCopy _ _ | .assignCopy _ _ | .unsubscribe _ =>
      inferInstanceAs (Decidable False)
  | .assignTake _ _ => inferInstanceAs (Decidable (_ = _))
  | .new _ | .moved _ _ | .scopedNew _ | .scopedTake _ _ | .scopedMoved _ _ | .scopedAssign _ _
  | .release _ _ | .reset _ | .swap _ _ | .destroy _ => inferInstanceAs (Decidable True)

end HandleOp

/-- The handle `a` has the key of the subscription `n`. -/
def Has (h : Handles) (a n : ℕ) : Prop := (h a).bind Handle.key = some n

instance (h : Handles) (a n : ℕ) : Decidable (Has h a n) := inferInstanceAs (Decidable (_ = _))

theorem has_update (h : Handles) (a : ℕ) (x : Option Handle) (c n : ℕ) :
    Has (Function.update h a x) c n ↔ if c = a then x.bind Handle.key = some n else Has h c n := by
  unfold Has
  rw [Function.update_apply]
  split_ifs <;> rfl

theorem HandleOp.has_make (h : Handles) (a b : ℕ) (x y : Handle) (c n : ℕ) :
    Has (make h a b x y).handles c n ↔
      if c = a then x.key = some n else if c = b then y.key = some n else Has h c n := by
  unfold make
  rw [has_update, has_update]
  rfl

/-- What an operation does to the keys: the handle `c` has its key from `f c`. -/
structure Passes (h : Handles) (o : HandleOp) (r : Effect) (f : ℕ → ℕ) : Prop where
  source : ∀ c n, Has r.handles c n → Has h (f c) n
  kept : ∀ c n, Has h c n → (∃ b, Has r.handles b n) ∨ r.ran = some n ∨ r.forgot = some n
  owned : ∀ n, r.ran = some n ∨ r.forgot = some n → ∃ d, Has h d n
  single : r.ran = none ∨ r.forgot = none
  injective : o.Exclusive h → f.Injective
  dropped : o.Exclusive h → ∀ n, r.ran = some n ∨ r.forgot = some n →
    ∃ d, Has h d n ∧ ∀ b, f b = d → ¬ Has r.handles b n

namespace Passes

variable {h : Handles} {a b : ℕ}

theorem copied {o : HandleOp} (hx : ¬ o.Exclusive h) (ha : h a = none) {x y : Handle}
    (hb : h b = some y) (hxy : x.key = y.key) :
    Passes h o (HandleOp.make h a b x y) (fun c => if c = a then b else c) where
  source c n hc := by
    rw [HandleOp.has_make] at hc
    grind [Has]
  kept c n hc := by
    refine .inl ⟨c, ?_⟩
    rw [HandleOp.has_make]
    grind [Has]
  owned n hn := by grind [HandleOp.make]
  single := .inl rfl
  injective he := absurd he hx
  dropped he := absurd he hx

theorem exchanged {o : HandleOp} {x y : Handle} (hb : (h b).bind Handle.key = x.key)
    {ran : Option ℕ}
    (ha : (h a).bind Handle.key = y.key ∧
        (ran = none ∨ ran = (h a).bind Handle.key ∧ ¬ o.Exclusive h) ∨
      a ≠ b ∧ y.key = none ∧ ran = (h a).bind Handle.key) :
    Passes h o { HandleOp.make h a b x y with ran := ran } (Equiv.swap a b) where
  source c n hc := by
    simp only [HandleOp.has_make] at hc
    rw [Equiv.swap_apply_def]
    grind [Has]
  kept c n hc := by
    by_cases hrun : ran = some n
    · exact .inr (.inl hrun)
    · refine .inl ⟨Equiv.swap a b c, ?_⟩
      simp only [HandleOp.has_make, Equiv.swap_apply_def]
      grind [Has]
  owned n hn := ⟨a, by grind [Has, HandleOp.make]⟩
  single := .inr rfl
  injective _ := (Equiv.swap a b).injective
  dropped he n hn := by
    rcases ha with ⟨_, hnone | ⟨_, hx⟩⟩ | ⟨hne, hy, hran⟩
    · grind [HandleOp.make]
    · exact absurd he hx
    · refine ⟨a, by grind [Has, HandleOp.make], fun c hca => ?_⟩
      simp only [HandleOp.has_make]
      rw [Equiv.swap_apply_def] at hca
      grind

theorem assigned {o : HandleOp} (hx : ¬ o.Exclusive h) {x y z : Handle} (ha : h a = some x)
    (hb : h b = some y) (hzy : z.key = y.key) {ran forgot : Option ℕ}
    (hkey : ran = x.key ∧ forgot = none ∨ ran = none ∧ forgot = x.key) :
    Passes h o { handles := Function.update h a (some z), ran := ran, forgot := forgot }
      (fun c => if c = a then b else c) where
  source c n hc := by
    rw [has_update] at hc
    grind [Has]
  kept c n hc := by
    by_cases hca : c = a
    · grind [Has]
    · refine .inl ⟨c, ?_⟩
      rw [has_update]
      grind [Has]
  owned n hn := ⟨a, by grind [Has]⟩
  single := hkey.elim (fun h => .inr h.2) (fun h => .inl h.1)
  injective he := absurd he hx
  dropped he := absurd he hx

theorem let_go {o : HandleOp} {z : Option Handle} (hz : z.bind Handle.key = none)
    {ran forgot : Option ℕ}
    (hkey : ran = (h a).bind Handle.key ∧ forgot = none ∨
      ran = none ∧ forgot = (h a).bind Handle.key) :
    Passes h o { handles := Function.update h a z, ran := ran, forgot := forgot } (fun c => c) where
  source c n hc := by
    rw [has_update] at hc
    grind [Has]
  kept c n hc := by
    by_cases hca : c = a
    · grind [Has]
    · refine .inl ⟨c, ?_⟩
      rw [has_update]
      grind [Has]
  owned n hn := ⟨a, by grind [Has]⟩
  single := hkey.elim (fun h => .inr h.2) (fun h => .inl h.1)
  injective _ _ _ hcd := hcd
  dropped _ n hn := by
    refine ⟨a, by grind [Has], ?_⟩
    rintro b rfl
    rw [has_update]
    grind

theorem unchanged {o : HandleOp} {ran : Option ℕ}
    (hx : ran = none ∨ ran = (h a).bind Handle.key ∧ ¬ o.Exclusive h) :
    Passes h o { handles := h, ran := ran } (fun c => c) where
  source _ _ hc := hc
  kept c _ hc := .inl ⟨c, hc⟩
  owned n hn := ⟨a, by grind [Has]⟩
  single := .inr rfl
  injective _ _ _ hcd := hcd
  dropped he n hn := by grind

end Passes

/-- **Every operation** passes the keys on. -/
theorem HandleOp.exists_passes {h : Handles} {o : HandleOp} {r : Effect}
    (hr : o.effect h = some r) : ∃ f, Passes h o r f := by
  cases o with
  | copy a b | scopedCopy a b =>
      simp only [effect] at hr
      split at hr
      · rename_i ha hb
        obtain rfl := Option.some.inj hr
        exact ⟨_, .copied (by exact False.elim) ha hb rfl⟩
      · cases hr
  | moved a b | scopedTake a b | scopedMoved a b =>
      simp only [effect] at hr
      split at hr
      · rename_i ha hb
        obtain rfl := Option.some.inj hr
        exact ⟨_, .exchanged (by rw [hb]; rfl) (.inl ⟨by rw [ha]; rfl, .inl rfl⟩)⟩
      · cases hr
  | assign a b =>
      simp only [effect] at hr
      split at hr
      · rename_i ha hb
        split_ifs at hr
        · obtain rfl := Option.some.inj hr
          exact ⟨_, .unchanged (a := a) (.inl rfl)⟩
        · obtain rfl := Option.some.inj hr
          exact ⟨_, .assigned (by exact False.elim) ha hb rfl (.inr ⟨rfl, rfl⟩)⟩
      · cases hr
  | new a | scopedNew a =>
      simp only [effect] at hr
      split at hr
      · rename_i ha
        obtain rfl := Option.some.inj hr
        exact ⟨_, .let_go rfl (.inl ⟨by rw [ha]; rfl, rfl⟩)⟩
      · cases hr
  | scopedAssign a b =>
      simp only [effect] at hr
      split at hr
      · rename_i ha hb
        split_ifs at hr with hab
        · obtain rfl := Option.some.inj hr
          exact ⟨_, .unchanged (a := a) (.inl rfl)⟩
        · obtain rfl := Option.some.inj hr
          exact ⟨_, .exchanged (by rw [hb]; rfl) (.inr ⟨hab, rfl, by rw [ha]; rfl⟩)⟩
      · cases hr
  | assignTake a b =>
      simp only [effect] at hr
      split at hr
      · rename_i old k ha hb
        obtain rfl := Option.some.inj hr
        refine ⟨_, .exchanged (by rw [hb]; rfl) (.inl ⟨by rw [ha]; rfl, ?_⟩)⟩
        rw [ha]
        rcases old with _ | n
        · exact .inl rfl
        · exact .inr ⟨rfl, by simp [Exclusive, ha]⟩
      · cases hr
  | assignCopy a b =>
      simp only [effect] at hr
      split at hr
      · rename_i old k ha hb
        obtain rfl := Option.some.inj hr
        exact ⟨_, .assigned (by exact False.elim) ha hb (z := ⟨true, k⟩) rfl (.inl ⟨rfl, rfl⟩)⟩
      · cases hr
  | release a b =>
      simp only [effect] at hr
      split at hr
      · rename_i ha hb
        obtain rfl := Option.some.inj hr
        exact ⟨_, .exchanged (by rw [ha]; rfl) (.inl ⟨by rw [hb]; rfl, .inl rfl⟩)⟩
      · cases hr
  | reset a =>
      simp only [effect] at hr
      split at hr
      · rename_i ha
        obtain rfl := Option.some.inj hr
        exact ⟨_, .let_go rfl (.inl ⟨by rw [ha]; rfl, rfl⟩)⟩
      · cases hr
  | unsubscribe a =>
      simp only [effect] at hr
      split at hr
      · rename_i ha
        obtain rfl := Option.some.inj hr
        exact ⟨_, .unchanged (a := a) (.inr ⟨by rw [ha]; rfl, False.elim⟩)⟩
      · cases hr
  | swap a b =>
      simp only [effect] at hr
      split at hr
      · rename_i x y ha hb
        split_ifs at hr
        obtain rfl := Option.some.inj hr
        exact ⟨_, .exchanged (a := b) (b := a) (by rw [ha]; rfl)
          (.inl ⟨by rw [hb]; rfl, .inl rfl⟩)⟩
      · cases hr
  | destroy a =>
      simp only [effect] at hr
      split at hr
      · rename_i ha
        obtain rfl := Option.some.inj hr
        exact ⟨_, .let_go rfl (.inl ⟨by rw [ha]; rfl, rfl⟩)⟩
      · rename_i ha
        obtain rfl := Option.some.inj hr
        exact ⟨_, .let_go rfl (.inr ⟨rfl, by rw [ha]; rfl⟩)⟩
      · cases hr

end Observer

open Observer

/-- An observer, the objects that have its keys, and the keys that were forgotten. -/
structure Owners (α : Type*) where
  observer : Observer α
  handles : Handles
  forgotten : List ℕ

/-- A step of the observer that no handle makes, `subscribe` with the object that its result
becomes, and an operation on the objects. -/
inductive OwnersEvent (α : Type*) where
  | signal (e : Event α)
  | subscribe (a : ℕ) (slot : α)
  | op (o : HandleOp)

namespace Owners

variable {α : Type*}

/-- The steps of an observer that handles make. -/
def ofHandle : Event α → Bool
  | .subscribe _ | .unsubscribe _ => true
  | _ => false

/-- `run` of the unsubscriber with the key. -/
def runKey (w : ℕ) (s : Observer α) : Option ℕ → Option (Observer α)
  | none => some s
  | some n => s.step w (.unsubscribe n)

def step (w : ℕ) (s : Owners α) : OwnersEvent α → Option (Owners α)
  | .signal e =>
      if ofHandle e then none else (s.observer.step w e).map (fun x => { s with observer := x })
  | .subscribe a slot =>
      match s.handles a with
      | none => (s.observer.step w (.subscribe slot)).map (fun x =>
          { s with
            observer := x
            handles := Function.update s.handles a
              (some ⟨false, some s.observer.subscriptions.length⟩) })
      | some _ => none
  | .op o => (o.effect s.handles).bind (fun r => (runKey w s.observer r.ran).map (fun x =>
      ⟨x, r.handles, s.forgotten ++ r.forgot.toList⟩))

/-- The subscription whose slot a step runs. -/
def ran (s : Owners α) : OwnersEvent α → Option (ℕ × α)
  | .signal e => s.observer.ran e
  | _ => none

/-- The slots neither emit nor clear. -/
def Quiet (s : Owners α) : OwnersEvent α → Prop
  | .signal e => s.observer.Quiet e
  | _ => True

/-- No key is shared, and none is run but by a handle that loses it. -/
def Exclusive (s : Owners α) : OwnersEvent α → Prop
  | .op o => o.Exclusive s.handles
  | _ => True

instance decidableQuiet (s : Owners α) : (e : OwnersEvent α) → Decidable (s.Quiet e)
  | .signal e => Observer.decidableQuiet s.observer e
  | .subscribe _ _ | .op _ => inferInstanceAs (Decidable True)

instance decidableExclusive (s : Owners α) : (e : OwnersEvent α) → Decidable (s.Exclusive e)
  | .op o => o.decidableExclusive s.handles
  | .signal _ | .subscribe _ _ => inferInstanceAs (Decidable True)

/-- A handle has the key, or a `subscription` has forgotten it. -/
def Kept (s : Owners α) (n : ℕ) : Prop := (∃ a, Has s.handles a n) ∨ n ∈ s.forgotten

/-- The subscription was made, and nothing keeps it. -/
def Gone (s : Owners α) (n : ℕ) : Prop := n < s.observer.subscriptions.length ∧ ¬ s.Kept n

end Owners

def owners (α : Type*) (w : ℕ) : Machine (Owners α) (OwnersEvent α) where
  init := ⟨(observer α w).init, fun _ => none, []⟩
  step := Owners.step w

namespace Owners

variable {α : Type*} {w : ℕ} {s s' : Owners α}

/-- What holds of an observer and its handles: a subscription that nothing keeps is lost. -/
structure Sound (w : ℕ) (s : Owners α) : Prop where
  keyed : s.observer.Keyed w
  plain : s.observer.Plain
  made : ∀ n, s.Kept n → n < s.observer.subscriptions.length
  lost : ∀ n, s.Gone n → s.observer.signal.Lost n

theorem sound_init (α : Type*) (w : ℕ) : (owners α w).init.Sound w where
  keyed := keyed_init α w
  plain := plain_init α w
  made n hn := by
    rcases hn with ⟨a, ha⟩ | hn
    · cases ha
    · cases hn
  lost n hn := absurd hn.1 (Nat.not_lt_zero n)

end Owners

theorem Observer.Signal.Step.live_unsubscribe {α : Type*} {n : ℕ} {σ σ' : Signal α} {o : Option (ℕ × α)}
    (h : Signal.Step σ (.unsubscribe n) o σ') : σ'.live = without n σ.live := by
  cases h
  rfl

theorem Observer.Signal.Step.live_subscribe {α : Type*} {slot : α} {σ σ' : Signal α}
    {o : Option (ℕ × α)} (h : Signal.Step σ (.subscribe slot) o σ') :
    σ'.live = σ.live ++ [(σ.made, slot)] := by
  cases h
  rfl

namespace Owners

variable {α : Type*} {w : ℕ} {s s' : Owners α}

theorem runKey_spec {x : Observer α} {key : Option ℕ} (h : s.Sound w)
    (hx : runKey w s.observer key = some x) (hlt : x.subscriptions.length < 2 ^ w) :
    x.Keyed w ∧ x.Plain ∧
      (∀ n, s.observer.signal.Lost n ∨ key = some n → x.signal.Lost n) ∧
      ∀ n, n ∈ x.live.map Prod.fst ↔ n ∈ s.observer.live.map Prod.fst ∧ key ≠ some n := by
  cases key with
  | none =>
      obtain rfl := Option.some.inj hx
      exact ⟨h.keyed, h.plain, fun n hn => hn.resolve_right nofun, fun n => by simp⟩
  | some m =>
      have hx : s.observer.step w (.unsubscribe m) = some x := hx
      obtain ⟨hstep, hplain⟩ := signal_step h.keyed h.plain (e := .unsubscribe m) trivial hx hlt
      refine ⟨h.keyed.step hx, hplain, fun n hn => ?_, fun n => ?_⟩
      · rcases hn with hn | hn
        · exact (hn.step hstep).1
        · obtain rfl := Option.some.inj hn
          exact hstep.lost
      · have hlive : x.live = without m s.observer.live := hstep.live_unsubscribe
        rw [hlive]
        unfold without
        simp only [List.mem_map, List.mem_filter]
        grind

theorem length_runKey {x : Observer α} {key : Option ℕ}
    (hx : runKey w s.observer key = some x) :
    x.subscriptions.length = s.observer.subscriptions.length := by
  cases key with
  | none =>
      obtain rfl := Option.some.inj hx
      rfl
  | some m => exact length_step (w := w) (e := .unsubscribe m) hx

/-! ### The steps -/

theorem step_cases {e : OwnersEvent α} (hst : s.step w e = some s') :
    (∃ e' x, e = .signal e' ∧ ofHandle e' = false ∧ s.observer.step w e' = some x ∧
      s' = { s with observer := x }) ∨
    (∃ a slot x, e = .subscribe a slot ∧ s.handles a = none ∧
      s.observer.step w (.subscribe slot) = some x ∧
      s' = { s with
        observer := x
        handles := Function.update s.handles a
          (some ⟨false, some s.observer.subscriptions.length⟩) }) ∨
    (∃ o r x, e = .op o ∧ o.effect s.handles = some r ∧ runKey w s.observer r.ran = some x ∧
      s' = ⟨x, r.handles, s.forgotten ++ r.forgot.toList⟩) := by
  cases e with
  | signal e' =>
      simp only [step] at hst
      split_ifs at hst with hof
      obtain ⟨x, hx, rfl⟩ := Option.map_eq_some_iff.mp hst
      exact .inl ⟨e', x, rfl, by simpa using hof, hx, rfl⟩
  | subscribe a slot =>
      simp only [step] at hst
      split at hst
      · rename_i ha
        obtain ⟨x, hx, rfl⟩ := Option.map_eq_some_iff.mp hst
        exact .inr (.inl ⟨a, slot, x, rfl, ha, hx, rfl⟩)
      · cases hst
  | op o =>
      obtain ⟨r, hr, hst⟩ := Option.bind_eq_some_iff.mp hst
      obtain ⟨x, hx, rfl⟩ := Option.map_eq_some_iff.mp hst
      exact .inr (.inr ⟨o, r, x, rfl, hr, hx, rfl⟩)

theorem length_le_step {e : OwnersEvent α} (hst : s.step w e = some s') :
    s.observer.subscriptions.length ≤ s'.observer.subscriptions.length := by
  obtain ⟨e', x, rfl, _, hx, rfl⟩ | ⟨a, slot, x, rfl, _, hx, rfl⟩ | ⟨o, r, x, rfl, _, hx, rfl⟩ :=
    step_cases hst
  · exact (length_step hx).symm ▸ Nat.le_add_right _ _
  · exact (length_step hx).symm ▸ Nat.le_add_right _ _
  · exact (length_runKey hx).ge

theorem kept_subscribe {a m n : ℕ} {x : Observer α} (ha : s.handles a = none) :
    Kept { s with
      observer := x
      handles := Function.update s.handles a (some ⟨false, some m⟩) } n ↔ s.Kept n ∨ n = m := by
  unfold Kept
  simp only [has_update]
  constructor
  · rintro (⟨b, hb⟩ | hn)
    · split_ifs at hb
      · exact .inr (Option.some.inj hb).symm
      · exact .inl (.inl ⟨b, hb⟩)
    · exact .inl (.inr hn)
  · rintro ((⟨b, hb⟩ | hn) | rfl)
    · have hne : b ≠ a := by
        rintro rfl
        unfold Has at hb
        rw [ha] at hb
        cases hb
      exact .inl ⟨b, by rwa [if_neg hne]⟩
    · exact .inr hn
    · exact .inl ⟨a, by rw [if_pos rfl]; rfl⟩

theorem kept_of_passes {o : HandleOp} {r : Effect} {f : ℕ → ℕ} {n : ℕ} {x : Observer α}
    (hp : Passes s.handles o r f)
    (hn : Kept ⟨x, r.handles, s.forgotten ++ r.forgot.toList⟩ n) : s.Kept n := by
  rcases hn with ⟨c, hc⟩ | hn
  · exact .inl ⟨f c, hp.source c n hc⟩
  · rcases List.mem_append.mp hn with hn | hn
    · exact .inr hn
    · exact .inl (hp.owned n (.inr (Option.mem_toList.mp hn)))

theorem kept_passes {o : HandleOp} {r : Effect} {f : ℕ → ℕ} {n : ℕ} (x : Observer α)
    (hp : Passes s.handles o r f) (hn : s.Kept n) (hran : r.ran ≠ some n) :
    Kept ⟨x, r.handles, s.forgotten ++ r.forgot.toList⟩ n := by
  rcases hn with ⟨c, hc⟩ | hn
  · rcases hp.kept c n hc with hb | hrun | hforgot
    · exact .inl hb
    · exact absurd hrun hran
    · exact .inr (List.mem_append_right _ (by rw [hforgot]; exact List.mem_singleton_self n))
  · exact .inr (List.mem_append_left _ hn)

/-- **A step keeps what holds of the owners.** -/
theorem Sound.step (h : s.Sound w) {e : OwnersEvent α} (hq : s.Quiet e)
    (hst : s.step w e = some s') (hlt : s'.observer.subscriptions.length < 2 ^ w) :
    s'.Sound w := by
  obtain ⟨e', x, rfl, hof, hx, rfl⟩ | ⟨a, slot, x, rfl, ha, hx, rfl⟩ |
    ⟨o, r, x, rfl, hr, hx, rfl⟩ := step_cases hst
  · obtain ⟨hstep, hplain⟩ := signal_step h.keyed h.plain hq hx hlt
    have hlength : x.subscriptions.length = s.observer.subscriptions.length := by
      cases e' with
      | subscribe | unsubscribe => cases hof
      | unsubscribeAll | emit | turn | slotReturns | emitEnds => exact length_step hx
    refine ⟨h.keyed.step hx, hplain, fun n hn => hlength ▸ h.made n hn, fun n hn => ?_⟩
    exact ((h.lost n ⟨hlength ▸ hn.1, hn.2⟩).step hstep).1
  · obtain ⟨hstep, hplain⟩ := signal_step h.keyed h.plain (e := .subscribe slot) trivial hx hlt
    have hlength : x.subscriptions.length = s.observer.subscriptions.length + 1 := length_step hx
    refine ⟨h.keyed.step hx, hplain, fun n hn => ?_, fun n hn => ?_⟩
    · rcases (kept_subscribe ha).mp hn with hn | rfl
      · have := h.made n hn
        simp only
        omega
      · simp only
        omega
    · obtain ⟨hmade, hnot⟩ := hn
      rw [kept_subscribe ha, not_or] at hnot
      simp only at hmade
      exact ((h.lost n ⟨by omega, hnot.1⟩).step hstep).1
  · obtain ⟨f, hp⟩ := o.exists_passes hr
    obtain ⟨hk, hplain, hlost, _⟩ := runKey_spec h hx hlt
    have hlength := length_runKey hx
    refine ⟨hk, hplain, fun n hn => hlength ▸ h.made n (kept_of_passes hp hn), fun n hn => ?_⟩
    apply hlost
    by_cases hrun : r.ran = some n
    · exact .inr hrun
    · exact .inl (h.lost n ⟨hlength ▸ hn.1, fun hkept => hn.2 (kept_passes x hp hkept hrun)⟩)

theorem Gone.step {n : ℕ} (hn : s.Gone n) (h : s.Sound w) {e : OwnersEvent α} (hq : s.Quiet e)
    (hst : s.step w e = some s') (hlt : s'.observer.subscriptions.length < 2 ^ w) :
    s'.Gone n ∧ ∀ x ∈ s.ran e, x.1 ≠ n := by
  have hmade : n < s'.observer.subscriptions.length :=
    lt_of_lt_of_le hn.1 (length_le_step hst)
  obtain ⟨e', x, rfl, _, hx, rfl⟩ | ⟨a, slot, x, rfl, ha, _, rfl⟩ |
    ⟨o, r, x, rfl, hr, _, rfl⟩ := step_cases hst
  · obtain ⟨hstep, _⟩ := signal_step h.keyed h.plain hq hx hlt
    exact ⟨⟨hmade, hn.2⟩, ((h.lost n hn).step hstep).2⟩
  · refine ⟨⟨hmade, ?_⟩, nofun⟩
    rw [kept_subscribe ha, not_or]
    exact ⟨hn.2, Nat.ne_of_lt hn.1⟩
  · obtain ⟨f, hp⟩ := o.exists_passes hr
    exact ⟨⟨hmade, fun hkept => hn.2 (kept_of_passes hp hkept)⟩, nofun⟩

/-! ### Keys that are not shared -/

/-- What holds while no key is shared. -/
structure Sole (s : Owners α) : Prop where
  unique : ∀ a b n, Has s.handles a n → Has s.handles b n → a = b
  held : ∀ a n, Has s.handles a n → n ∉ s.forgotten
  live : ∀ n, n ∈ s.observer.live.map Prod.fst ↔ s.Kept n

theorem sole_init (α : Type*) (w : ℕ) : (owners α w).init.Sole where
  unique a b n ha := by cases ha
  held a n ha := by cases ha
  live n := by
    refine iff_of_false List.not_mem_nil ?_
    rintro (⟨a, ha⟩ | hn)
    · cases ha
    · cases hn

theorem live_of_signal {σ σ' : Signal α} {e : Event α} {o : Option (ℕ × α)}
    (hof : ofHandle e = false) (h : Signal.Step σ e o σ') : σ'.live = σ.live := by
  cases h with
  | subscribe | unsubscribe => cases hof
  | emit | run | pass | slotReturns | emitEnds => rfl

/-- A key that an operation runs or forgets has no handle after it. -/
theorem Sole.not_has {o : HandleOp} {r : Effect} {f : ℕ → ℕ} (h : s.Sole)
    (hp : Passes s.handles o r f) (he : o.Exclusive s.handles) {n : ℕ}
    (hn : r.ran = some n ∨ r.forgot = some n) (c : ℕ) : ¬ Has r.handles c n := by
  intro hc
  obtain ⟨d, hd, hdrop⟩ := hp.dropped he n hn
  exact hdrop c (h.unique _ _ n (hp.source c n hc) hd) hc

/-- **A step keeps keys from being shared.** -/
theorem Sole.step (hs : s.Sole) (h : s.Sound w) {e : OwnersEvent α} (hq : s.Quiet e)
    (he : s.Exclusive e) (hst : s.step w e = some s')
    (hlt : s'.observer.subscriptions.length < 2 ^ w) : s'.Sole := by
  obtain ⟨e', x, rfl, hof, hx, rfl⟩ | ⟨a, slot, x, rfl, ha, hx, rfl⟩ |
    ⟨o, r, x, rfl, hr, hx, rfl⟩ := step_cases hst
  · obtain ⟨hstep, _⟩ := signal_step h.keyed h.plain hq hx hlt
    have hlive : x.live = s.observer.live := live_of_signal hof hstep
    exact ⟨hs.unique, hs.held, fun n => hlive ▸ hs.live n⟩
  · obtain ⟨hstep, _⟩ := signal_step h.keyed h.plain (e := .subscribe slot) trivial hx hlt
    have hlive : x.live = s.observer.live ++ [(s.observer.subscriptions.length, slot)] :=
      hstep.live_subscribe
    have hnew : ∀ c, ¬ Has s.handles c s.observer.subscriptions.length := fun c hc =>
      Nat.lt_irrefl _ (h.made _ (.inl ⟨c, hc⟩))
    refine ⟨fun b c n hb hc => ?_, fun b n hb hn => ?_, fun n => ?_⟩
    · rw [has_update] at hb hc
      split_ifs at hb hc with hba hca hca
      · rw [hba, hca]
      · obtain rfl := Option.some.inj hb
        exact absurd hc (hnew c)
      · obtain rfl := Option.some.inj hc
        exact absurd hb (hnew b)
      · exact hs.unique b c n hb hc
    · rw [has_update] at hb
      split_ifs at hb
      · obtain rfl := Option.some.inj hb
        exact Nat.lt_irrefl _ (h.made _ (.inr hn))
      · exact hs.held b n hb hn
    · rw [kept_subscribe ha, hlive, List.map_append, List.mem_append, hs.live]
      simp
  · obtain ⟨f, hp⟩ := o.exists_passes hr
    obtain ⟨_, _, _, hlive⟩ := runKey_spec h hx hlt
    refine ⟨fun b c n hb hc => ?_, fun b n hb hn => ?_, fun n => ?_⟩
    · exact hp.injective he (hs.unique _ _ n (hp.source b n hb) (hp.source c n hc))
    · rcases List.mem_append.mp hn with hn | hn
      · exact hs.held _ n (hp.source b n hb) hn
      · exact hs.not_has hp he (.inr (Option.mem_toList.mp hn)) b hb
    · rw [hlive, hs.live]
      constructor
      · rintro ⟨hn, hran⟩
        exact kept_passes x hp hn hran
      · intro hn
        refine ⟨kept_of_passes hp hn, fun hran => ?_⟩
        -- the key that is run has a handle before the operation and none after it
        rcases hn with ⟨c, hc⟩ | hn
        · exact hs.not_has hp he (.inl hran) c hc
        · obtain ⟨d, hd⟩ := hp.owned n (.inl hran)
          rcases List.mem_append.mp hn with hn | hn
          · exact hs.held d n hd hn
          · rw [hp.single.resolve_left (by rw [hran]; exact nofun)] at hn
            cases hn

/-! ### Runs -/

/-- Fewer than `2 ^ w` subscriptions were made. -/
def Fits (w : ℕ) (s : Owners α) : Prop := s.observer.subscriptions.length < 2 ^ w

theorem Fits.back (s : Owners α) (e : OwnersEvent α) (s' : Owners α)
    (hst : (owners α w).step s e = some s') (h : s'.Fits w) : s.Fits w :=
  lt_of_le_of_lt (length_le_step hst) h

theorem sound_run {es : List (OwnersEvent α)}
    (hq : (owners α w).Meets Quiet (owners α w).init es) (h : (owners α w).run es = some s)
    (hlt : s.Fits w) : s.Sound w :=
  (owners α w).inv_of_meets (C := Quiet) (I := fun s => s.Fits w → s.Sound w)
    (fun s e s' hs hq hst hlt => (hs (Fits.back s e s' hst hlt)).step hq hst hlt)
    (fun _ => sound_init α w) hq h hlt

theorem sole_run {es : List (OwnersEvent α)}
    (hq : (owners α w).Meets (fun s e => s.Quiet e ∧ s.Exclusive e) (owners α w).init es)
    (h : (owners α w).run es = some s) (hlt : s.Fits w) : s.Sound w ∧ s.Sole :=
  (owners α w).inv_of_meets (C := fun s e => s.Quiet e ∧ s.Exclusive e)
    (I := fun s => s.Fits w → s.Sound w ∧ s.Sole)
    (fun s e s' hs hq hst hlt => by
      obtain ⟨hsound, hsole⟩ := hs (Fits.back s e s' hst hlt)
      exact ⟨hsound.step hq.1 hst hlt, hsole.step hsound hq.1 hq.2 hst hlt⟩)
    (fun _ => ⟨sound_init α w, sole_init α w⟩) hq h hlt

end Owners

open Owners in
/-- **Handles.**  In a run in which the slots neither emit nor clear and fewer than `2 ^ w`
subscriptions are made, the slot of a subscription that nothing keeps any more is not run again;
and while no key is shared, each key has one handle at most, and the live subscriptions are those
that a handle has or that a `subscription` has forgotten. -/
theorem handles_own_slots {α : Type*} {w : ℕ} {es : List (OwnersEvent α)} {s : Owners α}
    (hrun : (owners α w).run es = some s) (hquiet : (owners α w).Meets Quiet (owners α w).init es)
    (hcount : s.observer.subscriptions.length < 2 ^ w) :
    (∀ pre post t, es = pre ++ post → (owners α w).run pre = some t →
      ∀ n, t.Gone n → ∀ x ∈ (owners α w).outputsFrom Owners.ran t post, x.1 ≠ n) ∧
    ((owners α w).Meets Exclusive (owners α w).init es →
      (∀ a b n, Has s.handles a n → Has s.handles b n → a = b) ∧
      (∀ a n, Has s.handles a n → n ∉ s.forgotten) ∧
      ∀ n, n ∈ s.observer.live.map Prod.fst ↔ s.Kept n) := by
  refine ⟨fun pre post t hsplit ht n hn => ?_, fun hex => ?_⟩
  · subst hsplit
    obtain ⟨t', ht', hpost⟩ := (owners α w).runFrom_append_eq_some.mp hrun
    obtain rfl := Option.some.inj (ht.symm.trans ht')
    have hfits : t.Fits w := (owners α w).of_runFrom Fits.back hpost hcount
    refine (owners α w).forall_outputsFrom Owners.ran (C := Quiet) (F := Fits w)
      (I := fun s => s.Sound w ∧ s.Gone n) Fits.back ?_ ⟨sound_run hquiet.of_append ht hfits, hn⟩
      (hquiet.of_append_right ht) hpost hcount
    rintro s e s' ⟨hsound, hgone⟩ hq hlt hst
    obtain ⟨hgone', hran⟩ := hgone.step hsound hq hst hlt
    exact ⟨⟨hsound.step hq hst hlt, hgone'⟩, hran⟩
  · obtain ⟨_, hsole⟩ := sole_run (hquiet.and hex) hrun hcount
    exact ⟨hsole.unique, hsole.held, hsole.live⟩

/-- A slot resets the `scoped_subscription` that has its key, and the key of another slot is taken
over before its owner is destroyed. -/
theorem handles_own_slots_two :
    let es : List (OwnersEvent ℕ) := [.subscribe 0 10, .op (.scopedTake 1 0), .op (.destroy 0),
      .subscribe 0 20, .op (.scopedTake 2 0), .signal .emit, .signal .turn, .op (.reset 1),
      .signal .slotReturns, .signal .turn, .op (.scopedMoved 3 2), .op (.destroy 2),
      .signal .slotReturns, .signal .emitEnds, .signal .emit, .signal .turn, .signal .slotReturns,
      .signal .emitEnds]
    ∃ s, (owners ℕ 64).run es = some s ∧ 1 ∈ s.observer.live.map Prod.fst ∧
      0 ∉ s.observer.live.map Prod.fst ∧
      (owners ℕ 64).outputsFrom Owners.ran (owners ℕ 64).init es =
        [(0, 10), (1, 20), (1, 20)] := by
  intro es
  obtain ⟨s, hs, hcount, h3, h0⟩ : ∃ s, (owners ℕ 64).run es = some s ∧
      s.observer.subscriptions.length < 2 ^ 64 ∧ Observer.Has s.handles 3 1 ∧
      0 ∉ s.observer.live.map Prod.fst :=
    (owners ℕ 64).exists_run es _ (by decide +kernel)
  obtain ⟨_, hsole⟩ := handles_own_slots hs (by decide +kernel) hcount
  obtain ⟨_, _, hlive⟩ := hsole (by decide +kernel)
  exact ⟨s, hs, (hlive 1).mpr (.inl ⟨3, h3⟩), h0, by decide +kernel⟩

end Vtrc
