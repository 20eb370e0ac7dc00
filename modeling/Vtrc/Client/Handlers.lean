import Vtrc.Lib.Machine
import Mathlib.Data.List.AList

/-! # The handlers of a client (`client/base.cpp`)

A client finds the handler of a call by the name of its service.  The handlers live in three maps:
the wrappers that the client holds, the wrappers that it refers to weakly (the held ones are among
them), and the native services that it refers to weakly and wraps when they are looked up.  What
none of them has is made by the service factory of the application.

A shared pointer lives as long as it has an owner: the application, or the map of the held
wrappers.  Objects are numbered in the order in which they are made, so a weak pointer whose object
is gone never locks again (`alive_of_step`).

`erase_all_rpc_handlers` clears two of the three maps.  `erased_handlers_gone_iff` says in which
runs an erased name is found no more. -/

namespace Vtrc

namespace Client

namespace Handlers

/-- A `google::protobuf::Service` of the application. -/
structure Service where
  object : ℕ
  fullName : String
deriving DecidableEq, Repr

/-- An `rpc_service_wrapper`, which holds its service. -/
structure ServiceWrapper where
  object : ℕ
  service : Service
deriving DecidableEq, Repr

end Handlers

open Handlers

/-- The maps of the client, its factory, and what the application owns: services and wrappers by
shared pointers.  `made` counts the objects. -/
structure Handlers (φ : Type*) where
  holdServices : AList (fun _ : String => ServiceWrapper) := ∅
  weakServices : AList (fun _ : String => ServiceWrapper) := ∅
  weakNativeServices : AList (fun _ : String => Service) := ∅
  factory : Option φ := none
  services : List Service := []
  wrappers : List ServiceWrapper := []
  made : ℕ := 0

namespace Handlers

variable {φ : Type*}

/-! ### Owners -/

/-- Some wrapper of `hold_services_` satisfies `p`. -/
def holds (s : Handlers φ) (p : ServiceWrapper → Bool) : Bool :=
  s.holdServices.entries.any (fun e => p e.2)

/-- The application keeps the service alive, by itself or in a wrapper. -/
def owned (s : Handlers φ) (v : Service) : Bool :=
  decide (v ∈ s.services) || s.wrappers.any (fun w => decide (w.service = v))

/-- A weak pointer to the service can be locked. -/
def serviceAlive (s : Handlers φ) (v : Service) : Bool :=
  s.owned v || s.holds (fun w => decide (w.service = v))

/-- A weak pointer to the wrapper can be locked. -/
def wrapperAlive (s : Handlers φ) (w : ServiceWrapper) : Bool :=
  decide (w ∈ s.wrappers) || s.holds (fun w' => decide (w' = w))

/-! ### The operations -/

/-- `wrap_service`. -/
def wrapService (s : Handlers φ) (v : Service) : ServiceWrapper × Handlers φ :=
  (⟨s.made, v⟩, { s with made := s.made + 1 })

def assignHandlerWrap (s : Handlers φ) (w : ServiceWrapper) : Handlers φ :=
  { s with
    holdServices := s.holdServices.insert w.service.fullName w
    weakServices := s.weakServices.insert w.service.fullName w }

def assignHandler (s : Handlers φ) (v : Service) : Handlers φ :=
  (s.wrapService v).2.assignHandlerWrap (s.wrapService v).1

def assignWeakHandler (s : Handlers φ) (v : Service) : Handlers φ :=
  if s.serviceAlive v then
    { s with weakNativeServices := s.weakNativeServices.insert v.fullName v }
  else s

def assignWeakHandlerWrap (s : Handlers φ) (w : ServiceWrapper) : Handlers φ :=
  if s.wrapperAlive w then
    { s with weakServices := s.weakServices.insert w.service.fullName w }
  else s

def assignServiceFactory (s : Handlers φ) (f : Option φ) : Handlers φ := { s with factory := f }

/-- The first part of `get_handler`: the map of the weak wrappers. -/
def getWeak (s : Handlers φ) (name : String) : Option ServiceWrapper × Handlers φ :=
  match s.weakServices.lookup name with
  | none => (none, s)
  | some w =>
      if s.wrapperAlive w then (some w, s)
      else (none, { s with weakServices := s.weakServices.erase name })

/-- The second part: the map of the native services. -/
def getNative (s : Handlers φ) (name : String) : Option ServiceWrapper × Handlers φ :=
  match s.weakNativeServices.lookup name with
  | none => (none, s)
  | some v =>
      if s.serviceAlive v then (some (s.wrapService v).1, (s.wrapService v).2)
      else (none, { s with weakNativeServices := s.weakNativeServices.erase name })

/-- The last part: what the factory returns, when there is one. -/
def getFactory (s : Handlers φ) (call : φ → String → Option ServiceWrapper) (name : String) :
    Option ServiceWrapper :=
  s.factory.bind (fun f => call f name)

/-- `get_handler`; `call` is what the factories return this time. -/
def getHandler (s : Handlers φ) (call : φ → String → Option ServiceWrapper) (name : String) :
    Option ServiceWrapper × Handlers φ :=
  match s.getWeak name with
  | (some w, s₁) => (some w, s₁)
  | (none, s₁) =>
      match s₁.getNative name with
      | (some w, s₂) => (some w, s₂)
      | (none, s₂) => (s₂.getFactory call name, s₂)

def eraseRpcHandler (s : Handlers φ) (name : String) : Handlers φ :=
  { s with
    holdServices := s.holdServices.erase name
    weakServices := s.weakServices.erase name
    weakNativeServices := s.weakNativeServices.erase name }

/-- `erase_all_rpc_handlers`; the map of the native services is not cleared. -/
def eraseAllRpcHandlers (s : Handlers φ) : Handlers φ :=
  { s with holdServices := ∅, weakServices := ∅ }

/-! ### Histories -/

/-- What the application does with a client. -/
inductive Event (φ : Type*) where
  | newService (fullName : String)
  /-- The application wraps a service that it owns. -/
  | newWrapper (v : Service)
  | dropService (v : Service)
  | dropWrapper (w : ServiceWrapper)
  | assignHandler (v : Service)
  | assignHandlerWrap (w : ServiceWrapper)
  | assignWeakHandler (v : Service)
  | assignWeakHandlerWrap (w : ServiceWrapper)
  | assignServiceFactory (f : Option φ)
  | getHandler (call : φ → String → Option ServiceWrapper) (name : String)
  | eraseRpcHandler (name : String)
  /-- The overload that takes a service and erases its `full_name`. -/
  | eraseRpcHandlerOf (v : Service)
  | eraseAllRpcHandlers

/-- A step: a shared pointer that is passed has an owner, and what `get_handler` returns is owned
by the caller.  A factory returns a wrapper that it has made or kept. -/
def step (s : Handlers φ) : Event φ → Option (Handlers φ)
  | .newService n => some { s with services := ⟨s.made, n⟩ :: s.services, made := s.made + 1 }
  | .newWrapper v =>
      if v ∈ s.services then
        some { (s.wrapService v).2 with wrappers := (s.wrapService v).1 :: s.wrappers }
      else none
  | .dropService v => some { s with services := s.services.filter (fun x => x ≠ v) }
  | .dropWrapper w => some { s with wrappers := s.wrappers.filter (fun x => x ≠ w) }
  | .assignHandler v => if v ∈ s.services then some (s.assignHandler v) else none
  | .assignHandlerWrap w => if w ∈ s.wrappers then some (s.assignHandlerWrap w) else none
  | .assignWeakHandler v => some (s.assignWeakHandler v)
  | .assignWeakHandlerWrap w => some (s.assignWeakHandlerWrap w)
  | .assignServiceFactory f => some (s.assignServiceFactory f)
  | .getHandler call name =>
      if (s.getFactory call name).all (fun w => decide (w ∈ s.wrappers)) then
        let r := s.getHandler call name
        some { r.2 with wrappers := r.1.toList ++ r.2.wrappers }
      else none
  | .eraseRpcHandler name => some (s.eraseRpcHandler name)
  | .eraseRpcHandlerOf v => if v ∈ s.services then some (s.eraseRpcHandler v.fullName) else none
  | .eraseAllRpcHandlers => some s.eraseAllRpcHandlers

/-- The event assigns a handler to the name; an expired weak pointer has no name. -/
def assigns (s : Handlers φ) (name : String) : Event φ → Bool
  | .assignHandler v => decide (v.fullName = name)
  | .assignHandlerWrap w => decide (w.service.fullName = name)
  | .assignWeakHandler v => s.serviceAlive v && decide (v.fullName = name)
  | .assignWeakHandlerWrap w => s.wrapperAlive w && decide (w.service.fullName = name)
  | _ => false

/-- The event erases the handlers of the name. -/
def Event.erases (name : String) : Event φ → Bool
  | .eraseRpcHandler n => decide (n = name)
  | .eraseRpcHandlerOf v => decide (v.fullName = name)
  | .eraseAllRpcHandlers => true
  | _ => false

/-! ### Who is alive after a step -/

variable {s s' : Handlers φ}

theorem holds_iff {p : ServiceWrapper → Bool} :
    s.holds p = true ↔ ∃ e ∈ s.holdServices.entries, p e.2 = true := by
  unfold holds
  rw [List.any_eq_true]

theorem owned_iff {v : Service} :
    s.owned v = true ↔ v ∈ s.services ∨ ∃ w ∈ s.wrappers, w.service = v := by
  unfold owned
  simp

theorem serviceAlive_iff {v : Service} :
    s.serviceAlive v = true ↔
      s.owned v = true ∨ ∃ e ∈ s.holdServices.entries, e.2.service = v := by
  unfold serviceAlive
  rw [Bool.or_eq_true, holds_iff]
  simp

theorem serviceAlive_of_wrapperAlive {w : ServiceWrapper} (h : s.wrapperAlive w = true) :
    s.serviceAlive w.service = true := by
  unfold wrapperAlive at h
  rw [Bool.or_eq_true, decide_eq_true_eq, holds_iff] at h
  rw [serviceAlive_iff]
  cases h with
  | inl hmem => exact .inl (owned_iff.mpr (.inr ⟨w, hmem, rfl⟩))
  | inr hheld =>
      obtain ⟨e, he, hw⟩ := hheld
      rw [decide_eq_true_eq] at hw
      exact .inr ⟨e, he, by rw [hw]⟩

theorem mem_insert {β : String → Type*} {m : AList β} {n : String} {x : β n} {e : Sigma β}
    (h : e ∈ (m.insert n x).entries) : e = ⟨n, x⟩ ∨ e ∈ m.entries := by
  rw [AList.entries_insert] at h
  cases List.mem_cons.mp h with
  | inl heq => exact .inl heq
  | inr hmem => exact .inr ((List.kerase_sublist n m.entries).subset hmem)

theorem mem_erase {β : String → Type*} {m : AList β} {n : String} {e : Sigma β}
    (h : e ∈ (m.erase n).entries) : e ∈ m.entries :=
  (List.kerase_sublist n m.entries).subset h

theorem mem_of_lookup_erase {β : String → Type*} {m : AList β} {n name : String} {x : β name}
    (h : x ∈ (m.erase n).lookup name) : x ∈ m.lookup name := by
  rw [AList.mem_lookup_iff] at h ⊢
  exact mem_erase h

theorem lookup_erase_none {β : String → Type*} {m : AList β} {n name : String}
    (h : m.lookup name = none) : (m.erase n).lookup name = none := by
  rw [Option.eq_none_iff_forall_not_mem] at h ⊢
  intro x hx
  exact h x (mem_of_lookup_erase hx)

theorem serviceAlive_assignHandlerWrap {w : ServiceWrapper} {v : Service}
    (h : (s.assignHandlerWrap w).serviceAlive v = true) :
    v = w.service ∨ s.serviceAlive v = true := by
  rw [serviceAlive_iff] at h ⊢
  cases h with
  | inl howned => exact .inr (.inl howned)
  | inr hheld =>
      obtain ⟨e, he, rfl⟩ := hheld
      cases mem_insert he with
      | inl heq =>
          left
          rw [heq]
      | inr hmem => exact .inr (.inr ⟨e, hmem, rfl⟩)

theorem getWeak_spec (s : Handlers φ) (name : String) :
    ∃ weak, (weak = s.weakServices ∨ weak = s.weakServices.erase name) ∧
      (s.getWeak name).2 = { s with weakServices := weak } ∧
      ∀ w ∈ (s.getWeak name).1, s.serviceAlive w.service = true := by
  unfold getWeak
  cases s.weakServices.lookup name with
  | none =>
      refine ⟨s.weakServices, .inl rfl, rfl, fun w hw => ?_⟩
      cases hw
  | some w =>
      simp only
      split_ifs with halive
      · refine ⟨s.weakServices, .inl rfl, rfl, fun w' hw' => ?_⟩
        cases hw'
        exact serviceAlive_of_wrapperAlive halive
      · refine ⟨s.weakServices.erase name, .inr rfl, rfl, fun w' hw' => ?_⟩
        cases hw'

theorem getNative_spec (s : Handlers φ) (name : String) :
    ∃ native made,
      (native = s.weakNativeServices ∨ native = s.weakNativeServices.erase name) ∧
      s.made ≤ made ∧
      (s.getNative name).2 = { s with weakNativeServices := native, made := made } ∧
      ∀ w ∈ (s.getNative name).1, s.serviceAlive w.service = true := by
  unfold getNative
  cases s.weakNativeServices.lookup name with
  | none =>
      refine ⟨s.weakNativeServices, s.made, .inl rfl, le_refl _, rfl, fun w hw => ?_⟩
      cases hw
  | some v =>
      simp only
      split_ifs with halive
      · refine ⟨s.weakNativeServices, s.made + 1, .inl rfl, by omega, rfl, fun w hw => ?_⟩
        cases hw
        exact halive
      · refine ⟨s.weakNativeServices.erase name, s.made, .inr rfl, le_refl _, rfl, ?_⟩
        intro w hw
        cases hw

/-- What `get_handler` does: it forgets at most the expired entries of the name, it makes at most
one wrapper, and what it returns is of a service that is alive or comes from the factory. -/
theorem getHandler_spec (s : Handlers φ) (call : φ → String → Option ServiceWrapper)
    (name : String) :
    ∃ weak native made, (weak = s.weakServices ∨ weak = s.weakServices.erase name) ∧
      (native = s.weakNativeServices ∨ native = s.weakNativeServices.erase name) ∧
      s.made ≤ made ∧
      (s.getHandler call name).2 =
        { s with weakServices := weak, weakNativeServices := native, made := made } ∧
      ∀ w ∈ (s.getHandler call name).1,
        s.serviceAlive w.service = true ∨ s.getFactory call name = some w := by
  obtain ⟨weak, hweak, heq, hres⟩ := getWeak_spec s name
  unfold getHandler
  generalize s.getWeak name = r at heq hres
  obtain ⟨res, s₁⟩ := r
  cases heq
  cases res with
  | some w =>
      refine ⟨weak, s.weakNativeServices, s.made, hweak, .inl rfl, le_refl _, rfl, ?_⟩
      intro w' hw'
      exact .inl (hres w' hw')
  | none =>
      obtain ⟨native, made, hnative, hmade, heq, hres⟩ :=
        getNative_spec { s with weakServices := weak } name
      simp only
      generalize getNative { s with weakServices := weak } name = r at heq hres
      obtain ⟨res, s₂⟩ := r
      cases heq
      refine ⟨weak, native, made, hweak, hnative, hmade, ?_, ?_⟩
      · cases res <;> rfl
      · intro w hw
        cases res with
        | some w' => exact .inl (hres w hw)
        | none => exact .inr hw

theorem serviceAlive_mono {v : Service} (h : s'.serviceAlive v = true)
    (hserv : ∀ v ∈ s'.services, v ∈ s.services)
    (hwrap : ∀ w ∈ s'.wrappers, s.serviceAlive w.service = true)
    (hheld : ∀ e ∈ s'.holdServices.entries, s.serviceAlive e.2.service = true) :
    s.serviceAlive v = true := by
  rw [serviceAlive_iff, owned_iff] at h
  obtain (hmem | ⟨w, hw, rfl⟩) | ⟨e, he, rfl⟩ := h
  · exact serviceAlive_iff.mpr (.inl (owned_iff.mpr (.inl (hserv v hmem))))
  · exact hwrap w hw
  · exact hheld e he

theorem serviceAlive_of_mem {v : Service} (h : v ∈ s.services) : s.serviceAlive v = true :=
  serviceAlive_iff.mpr (.inl (owned_iff.mpr (.inl h)))

theorem serviceAlive_of_wrapper {w : ServiceWrapper} (h : w ∈ s.wrappers) :
    s.serviceAlive w.service = true :=
  serviceAlive_iff.mpr (.inl (owned_iff.mpr (.inr ⟨w, h, rfl⟩)))

theorem serviceAlive_of_held {e : Sigma (fun _ : String => ServiceWrapper)}
    (h : e ∈ s.holdServices.entries) : s.serviceAlive e.2.service = true :=
  serviceAlive_iff.mpr (.inr ⟨e, h, rfl⟩)

theorem serviceAlive_of_eraseRpcHandler {name : String} {v : Service}
    (h : (s.eraseRpcHandler name).serviceAlive v = true) : s.serviceAlive v = true := by
  apply serviceAlive_mono (s := s) h (fun _ hmem => hmem)
    (fun _ hw => serviceAlive_of_wrapper hw)
  intro e he
  exact serviceAlive_of_held (mem_erase he)

/-- **What a step can revive**: nothing but the service that it makes. -/
theorem alive_of_step {e : Event φ} (h : s.step e = some s') {v : Service}
    (hv : s'.serviceAlive v = true) :
    s.serviceAlive v = true ∨ (v.object = s.made ∧ s'.made = s.made + 1) := by
  cases e with
  | newService n =>
      cases h
      rw [serviceAlive_iff, owned_iff] at hv
      obtain (hmem | ⟨w, hw, rfl⟩) | ⟨e, he, rfl⟩ := hv
      · cases List.mem_cons.mp hmem with
        | inl heq => exact .inr ⟨by rw [heq], rfl⟩
        | inr hmem => exact .inl (serviceAlive_of_mem hmem)
      · exact .inl (serviceAlive_of_wrapper hw)
      · exact .inl (serviceAlive_of_held he)
  | newWrapper u =>
      simp only [step, Option.ite_none_right_eq_some, Option.some.injEq] at h
      obtain ⟨hu, rfl⟩ := h
      left
      apply serviceAlive_mono (s := s) hv (fun _ hmem => hmem) _
        (fun _ he => serviceAlive_of_held he)
      intro w hw
      cases List.mem_cons.mp hw with
      | inl heq =>
          rw [heq]
          exact serviceAlive_of_mem hu
      | inr hw => exact serviceAlive_of_wrapper hw
  | dropService u =>
      cases h
      left
      apply serviceAlive_mono (s := s) hv _ (fun _ hw => serviceAlive_of_wrapper hw)
        (fun _ he => serviceAlive_of_held he)
      intro v hv
      exact List.mem_of_mem_filter hv
  | dropWrapper u =>
      cases h
      left
      apply serviceAlive_mono (s := s) hv (fun _ hmem => hmem) _
        (fun _ he => serviceAlive_of_held he)
      intro w hw
      exact serviceAlive_of_wrapper (List.mem_of_mem_filter hw)
  | assignHandler u =>
      simp only [step, Option.ite_none_right_eq_some, Option.some.injEq] at h
      obtain ⟨hu, rfl⟩ := h
      left
      cases serviceAlive_assignHandlerWrap hv with
      | inl heq =>
          rw [heq]
          exact serviceAlive_of_mem hu
      | inr halive => exact halive
  | assignHandlerWrap w =>
      simp only [step, Option.ite_none_right_eq_some, Option.some.injEq] at h
      obtain ⟨hw, rfl⟩ := h
      left
      cases serviceAlive_assignHandlerWrap hv with
      | inl heq =>
          rw [heq]
          exact serviceAlive_of_wrapper hw
      | inr halive => exact halive
  | assignWeakHandler u =>
      cases h
      left
      unfold assignWeakHandler at hv
      split_ifs at hv <;> exact hv
  | assignWeakHandlerWrap w =>
      cases h
      left
      unfold assignWeakHandlerWrap at hv
      split_ifs at hv <;> exact hv
  | assignServiceFactory f =>
      cases h
      exact .inl hv
  | getHandler call name =>
      simp only [step, Option.ite_none_right_eq_some, Option.some.injEq] at h
      obtain ⟨hcall, rfl⟩ := h
      obtain ⟨weak, native, made, _, _, _, heq, hres⟩ := s.getHandler_spec call name
      rw [heq] at hv
      left
      apply serviceAlive_mono (s := s) hv (fun _ hmem => hmem) _
        (fun _ he => serviceAlive_of_held he)
      intro w hw
      cases List.mem_append.mp hw with
      | inl hw =>
          cases hres w (Option.mem_toList.mp hw) with
          | inl halive => exact halive
          | inr hfactory =>
              rw [hfactory] at hcall
              exact serviceAlive_of_wrapper (by simpa using hcall)
      | inr hw => exact serviceAlive_of_wrapper hw
  | eraseRpcHandler name =>
      cases h
      exact .inl (serviceAlive_of_eraseRpcHandler hv)
  | eraseRpcHandlerOf u =>
      simp only [step, Option.ite_none_right_eq_some, Option.some.injEq] at h
      obtain ⟨_, rfl⟩ := h
      exact .inl (serviceAlive_of_eraseRpcHandler hv)
  | eraseAllRpcHandlers =>
      cases h
      left
      apply serviceAlive_mono (s := s) hv (fun _ hmem => hmem)
        (fun _ hw => serviceAlive_of_wrapper hw)
      intro e he
      cases he

/-- What a step may do to the weak maps: the count of the objects grows, a native entry is an old
one or of a service that is alive, and for a name that the step does not assign there is nothing
new. -/
structure Maps (s : Handlers φ) (e : Event φ) (s' : Handlers φ) : Prop where
  made : s.made ≤ s'.made
  native : ∀ x ∈ s'.weakNativeServices.entries,
    x ∈ s.weakNativeServices.entries ∨ s.serviceAlive x.2 = true
  lookup : ∀ name, s.assigns name e = false →
    (s.weakServices.lookup name = none → s'.weakServices.lookup name = none) ∧
      ∀ v ∈ s'.weakNativeServices.lookup name, v ∈ s.weakNativeServices.lookup name

namespace Maps

variable {e : Event φ}

theorem of_insert {w : ServiceWrapper} (hmade : s.made ≤ s'.made)
    (hweak : s'.weakServices = s.weakServices.insert w.service.fullName w)
    (hnative : s'.weakNativeServices = s.weakNativeServices)
    (hassigns : ∀ name, s.assigns name e = false → w.service.fullName ≠ name) :
    Maps s e s' where
  made := hmade
  native x hx := .inl (hnative ▸ hx)
  lookup name hname := by
    rw [hweak, hnative, AList.lookup_insert_ne (hassigns name hname).symm]
    exact ⟨id, fun _ hv => hv⟩

theorem of_le (hmade : s.made ≤ s'.made)
    (hweak : ∀ name, s.weakServices.lookup name = none → s'.weakServices.lookup name = none)
    (hnative : ∀ x ∈ s'.weakNativeServices.entries, x ∈ s.weakNativeServices.entries) :
    Maps s e s' where
  made := hmade
  native x hx := .inl (hnative x hx)
  lookup name _ := by
    refine ⟨hweak name, fun v hv => ?_⟩
    rw [AList.mem_lookup_iff] at hv ⊢
    exact hnative _ hv

theorem of_eq (hmade : s.made ≤ s'.made) (hweak : s'.weakServices = s.weakServices)
    (hnative : s'.weakNativeServices = s.weakNativeServices) : Maps s e s' :=
  of_le hmade (fun _ hnone => hweak ▸ hnone) (fun _ hx => hnative ▸ hx)

theorem erase (s : Handlers φ) (e : Event φ) (name : String) :
    Maps s e (s.eraseRpcHandler name) :=
  of_le (le_refl _) (fun _ => lookup_erase_none) (fun _ => mem_erase)

end Maps

/-- **What a step does to the weak maps.** -/
theorem maps_of_step {e : Event φ} (h : s.step e = some s') : Maps s e s' := by
  cases e with
  | newService n =>
      cases h
      exact .of_eq (Nat.le_succ _) rfl rfl
  | newWrapper u =>
      simp only [step, Option.ite_none_right_eq_some, Option.some.injEq] at h
      obtain ⟨_, rfl⟩ := h
      exact .of_eq (Nat.le_succ _) rfl rfl
  | dropService u =>
      cases h
      exact .of_eq (le_refl _) rfl rfl
  | dropWrapper u =>
      cases h
      exact .of_eq (le_refl _) rfl rfl
  | assignHandler u =>
      simp only [step, Option.ite_none_right_eq_some, Option.some.injEq] at h
      obtain ⟨_, rfl⟩ := h
      exact .of_insert (Nat.le_succ _) rfl rfl (fun _ hname => of_decide_eq_false hname)
  | assignHandlerWrap w =>
      simp only [step, Option.ite_none_right_eq_some, Option.some.injEq] at h
      obtain ⟨_, rfl⟩ := h
      exact .of_insert (le_refl _) rfl rfl (fun _ hname => of_decide_eq_false hname)
  | assignWeakHandler u =>
      cases h
      unfold assignWeakHandler
      split_ifs with halive
      · refine ⟨le_refl _, fun x hx => ?_, fun name hname => ⟨id, fun v hv => ?_⟩⟩
        · cases mem_insert hx with
          | inl heq =>
              right
              rw [heq]
              exact halive
          | inr hmem => exact .inl hmem
        · have hne : name ≠ u.fullName := by
            simp only [assigns, halive, Bool.true_and, decide_eq_false_iff_not] at hname
            exact Ne.symm hname
          exact (AList.lookup_insert_ne hne).symm.trans hv
      · exact .of_eq (le_refl _) rfl rfl
  | assignWeakHandlerWrap w =>
      cases h
      unfold assignWeakHandlerWrap
      split_ifs with halive
      · refine .of_insert (le_refl _) rfl rfl (fun name hname => ?_)
        simpa only [assigns, halive, Bool.true_and, decide_eq_false_iff_not] using hname
      · exact .of_eq (le_refl _) rfl rfl
  | assignServiceFactory f =>
      cases h
      exact .of_eq (le_refl _) rfl rfl
  | getHandler call n =>
      simp only [step, Option.ite_none_right_eq_some, Option.some.injEq] at h
      obtain ⟨_, rfl⟩ := h
      obtain ⟨weak, native, made, hweak, hnative, hmade, heq, _⟩ := s.getHandler_spec call n
      rw [heq]
      apply Maps.of_le hmade
      · intro name hnone
        cases hweak with
        | inl hsame => exact hsame ▸ hnone
        | inr herase => exact herase ▸ lookup_erase_none hnone
      · intro x hx
        cases hnative with
        | inl hsame => exact hsame ▸ hx
        | inr herase => exact mem_erase (herase ▸ hx)
  | eraseRpcHandler n =>
      cases h
      exact .erase s _ n
  | eraseRpcHandlerOf u =>
      simp only [step, Option.ite_none_right_eq_some, Option.some.injEq] at h
      obtain ⟨_, rfl⟩ := h
      exact .erase s _ u.fullName
  | eraseAllRpcHandlers =>
      cases h
      exact .of_le (le_refl _) (fun _ _ => rfl) (fun _ hx => hx)

end Handlers

/-- A client, and the names that were erased and not assigned since. -/
structure History (φ : Type*) where
  handlers : Handlers φ := {}
  erased : String → Bool := fun _ => false

namespace History

variable {φ : Type*}

def step (h : History φ) (e : Event φ) : Option (History φ) :=
  (h.handlers.step e).map (fun s =>
    { handlers := s
      erased := fun name =>
        e.erases name || (h.erased name && !h.handlers.assigns name e) })

/-- Whatever the factories return, a name that was erased and not assigned since is found only by
the factory. -/
def ErasedGone (h : History φ) : Prop :=
  ∀ name, h.erased name = true → ∀ call,
    (h.handlers.getHandler call name).1 = h.handlers.getFactory call name

/-- When all handlers are erased, the application owns no service that is assigned weakly. -/
def NothingForgotten (h : History φ) : Event φ → Prop
  | .eraseAllRpcHandlers =>
      ∀ e ∈ h.handlers.weakNativeServices.entries, h.handlers.owned e.2 = false
  | _ => True

instance decidableNothingForgotten (h : History φ) :
    (e : Event φ) → Decidable (h.NothingForgotten e)
  | .eraseAllRpcHandlers => inferInstanceAs
      (Decidable (∀ e ∈ h.handlers.weakNativeServices.entries, h.handlers.owned e.2 = false))
  | .newService _ | .newWrapper _ | .dropService _ | .dropWrapper _ | .assignHandler _
  | .assignHandlerWrap _ | .assignWeakHandler _ | .assignWeakHandlerWrap _
  | .assignServiceFactory _ | .getHandler _ _ | .eraseRpcHandler _ | .eraseRpcHandlerOf _ =>
      inferInstanceAs (Decidable True)

/-- Every service that is alive or assigned weakly was made before. -/
def Numbered (h : History φ) : Prop :=
  (∀ v, h.handlers.serviceAlive v = true → v.object < h.handlers.made) ∧
    ∀ e ∈ h.handlers.weakNativeServices.entries, e.2.object < h.handlers.made

/-- An erased name has no weak wrapper, and its native service, if there is one, is gone. -/
def Gone (h : History φ) : Prop :=
  ∀ name, h.erased name = true →
    h.handlers.weakServices.lookup name = none ∧
      ∀ v ∈ h.handlers.weakNativeServices.lookup name, h.handlers.serviceAlive v = false

theorem ErasedGone.of_gone {h : History φ} (hg : h.Gone) : h.ErasedGone := by
  intro name hname call
  obtain ⟨hweak, hnative⟩ := hg name hname
  unfold Handlers.getHandler Handlers.getWeak
  rw [hweak]
  simp only
  unfold Handlers.getNative
  cases hv : h.handlers.weakNativeServices.lookup name with
  | none => rfl
  | some v =>
      simp only [hnative v hv]
      rfl

theorem Numbered.step {h h' : History φ} {e : Event φ} (hn : h.Numbered)
    (hst : h.step e = some h') : h'.Numbered := by
  obtain ⟨s, hs, rfl⟩ := Option.map_eq_some_iff.mp hst
  obtain ⟨hmade, hnative, _⟩ := maps_of_step hs
  constructor
  · intro v hv
    simp only at hv ⊢
    cases alive_of_step hs hv with
    | inl halive =>
        have := hn.1 v halive
        omega
    | inr hnew => omega
  · intro e he
    simp only at he ⊢
    cases hnative e he with
    | inl hmem =>
        have := hn.2 e hmem
        omega
    | inr halive =>
        have := hn.1 e.2 halive
        omega

theorem dead_of_step {s s' : Handlers φ} {e : Event φ} (hst : s.step e = some s') {v : Service}
    (hlt : v.object < s.made) (hv : s.serviceAlive v = false) : s'.serviceAlive v = false := by
  cases halive : s'.serviceAlive v with
  | false => rfl
  | true =>
      cases alive_of_step hst halive with
      | inl hold =>
          rw [hv] at hold
          cases hold
      | inr hnew => omega

theorem gone_of_erases {s s' : Handlers φ} {e : Event φ} (hst : s.step e = some s')
    {name : String} (he : e.erases name = true)
    (hall : e = .eraseAllRpcHandlers →
      ∀ x ∈ s.weakNativeServices.entries, s.owned x.2 = false) :
    s'.weakServices.lookup name = none ∧
      ∀ v ∈ s'.weakNativeServices.lookup name, s'.serviceAlive v = false := by
  cases e with
  | eraseRpcHandler n =>
      obtain rfl : n = name := of_decide_eq_true he
      cases hst
      refine ⟨AList.lookup_erase _ _, fun v hv => ?_⟩
      rw [show (s.eraseRpcHandler n).weakNativeServices.lookup n = none from
        AList.lookup_erase _ _] at hv
      cases hv
  | eraseRpcHandlerOf u =>
      obtain rfl : u.fullName = name := of_decide_eq_true he
      simp only [Handlers.step, Option.ite_none_right_eq_some, Option.some.injEq] at hst
      obtain ⟨_, rfl⟩ := hst
      refine ⟨AList.lookup_erase _ _, fun v hv => ?_⟩
      rw [show (s.eraseRpcHandler u.fullName).weakNativeServices.lookup u.fullName = none from
        AList.lookup_erase _ _] at hv
      cases hv
  | eraseAllRpcHandlers =>
      cases hst
      refine ⟨rfl, fun v hv => ?_⟩
      have howned : s.owned v = false := hall rfl ⟨name, v⟩ (AList.mem_lookup_iff.mp hv)
      unfold serviceAlive holds
      exact Bool.or_eq_false_iff.mpr ⟨howned, rfl⟩
  | newService | newWrapper | dropService | dropWrapper | assignHandler | assignHandlerWrap
  | assignWeakHandler | assignWeakHandlerWrap | assignServiceFactory | getHandler => cases he

theorem Gone.step {h h' : History φ} {e : Event φ} (hn : h.Numbered) (hg : h.Gone)
    (he : h.NothingForgotten e) (hst : h.step e = some h') : h'.Gone := by
  obtain ⟨s, hs, rfl⟩ := Option.map_eq_some_iff.mp hst
  intro name hname
  simp only [Bool.or_eq_true, Bool.and_eq_true, Bool.not_eq_true'] at hname
  cases hname with
  | inl herases =>
      apply gone_of_erases hs herases
      rintro rfl
      exact he
  | inr hkept =>
      obtain ⟨herased, hassigns⟩ := hkept
      obtain ⟨hweak, hnative⟩ := hg name herased
      obtain ⟨hweak', hnative'⟩ := (maps_of_step hs).lookup name hassigns
      refine ⟨hweak' hweak, fun v hv => ?_⟩
      have hold := hnative' v hv
      exact dead_of_step hs (hn.2 ⟨name, v⟩ (AList.mem_lookup_iff.mp hold)) (hnative v hold)

/-- All handlers are erased while the application owns a service that is assigned weakly: it is
found right after. -/
theorem nothingForgotten_of_erasedGone {h h' : History φ} {e : Event φ}
    (hst : h.step e = some h') (hgone : h'.ErasedGone) : h.NothingForgotten e := by
  cases e with
  | eraseAllRpcHandlers =>
      cases hst
      intro x hx
      cases howned : h.handlers.owned x.2 with
      | false => rfl
      | true =>
          have hfound := hgone x.1 rfl (fun _ _ => none)
          have hlookup : h.handlers.weakNativeServices.lookup x.1 = some x.2 :=
            AList.mem_lookup_iff.mpr hx
          have halive : h.handlers.eraseAllRpcHandlers.serviceAlive x.2 = true :=
            serviceAlive_iff.mpr (.inl howned)
          unfold Handlers.getHandler Handlers.getWeak Handlers.getNative Handlers.getFactory
            at hfound
          simp only [eraseAllRpcHandlers, AList.lookup_empty, hlookup] at hfound halive
          simp only [halive, if_true] at hfound
          cases hf : h.handlers.factory <;> rw [hf] at hfound <;> cases hfound
  | newService | newWrapper | dropService | dropWrapper | assignHandler | assignHandlerWrap
  | assignWeakHandler | assignWeakHandlerWrap | assignServiceFactory | getHandler
  | eraseRpcHandler | eraseRpcHandlerOf => trivial

end History

/-- A client from its start on. -/
def historyMachine (φ : Type*) : Machine (History φ) (Event φ) where
  init := {}
  step := History.step

namespace History

variable {φ : Type*}

theorem numbered_init : (historyMachine φ).init.Numbered := by
  constructor
  · intro v hv
    cases hv
  · intro e he
    cases he

theorem gone_init : (historyMachine φ).init.Gone := by
  intro name hname
  cases hname

end History

/-- **Erased handlers are gone, in every state of a run, if and only if all handlers are erased
only while the application owns no service that is assigned weakly.** -/
theorem erased_handlers_gone_iff {φ : Type*} {es : List (Event φ)} {h : History φ}
    (hrun : (historyMachine φ).run es = some h) :
    (∀ p q t, es = p ++ q → (historyMachine φ).run p = some t → t.ErasedGone) ↔
      (historyMachine φ).Meets History.NothingForgotten (historyMachine φ).init es := by
  apply (historyMachine φ).forall_prefix_iff_meets
    (I := fun h => h.Numbered ∧ h.Gone) ⟨History.numbered_init, History.gone_init⟩
    (History.ErasedGone.of_gone History.gone_init) _ _ hrun
  · intro h e h' hinv _ hforgotten hst
    exact ⟨hinv.1.step hst, hinv.2.step hinv.1 hforgotten hst⟩
  · intro h e h' hinv _ hst
    refine ⟨History.nothingForgotten_of_erasedGone hst, fun hforgotten => ?_⟩
    exact .of_gone (hinv.2.step hinv.1 hforgotten hst)

/-- A weak service is erased by its name; then a held one and the factory's are there when all
handlers are erased. -/
theorem erased_handlers_gone_two :
    let es : List (Event Unit) := [.newService "s", .assignWeakHandler ⟨0, "s"⟩,
      .eraseRpcHandler "s", .newService "t", .assignHandler ⟨1, "t"⟩,
      .assignServiceFactory (some ()), .eraseAllRpcHandlers]
    ∃ h, (historyMachine Unit).run es = some h ∧ h.erased "t" = true ∧
      ∀ p q t, es = p ++ q → (historyMachine Unit).run p = some t → t.ErasedGone := by
  intro es
  obtain ⟨h, hrun, herased⟩ : ∃ h, (historyMachine Unit).run es = some h ∧
      h.erased "t" = true :=
    (historyMachine Unit).exists_run es _ (by decide +kernel)
  exact ⟨h, hrun, herased, (erased_handlers_gone_iff hrun).mpr (by decide +kernel)⟩

/-- A service that the application owns is assigned weakly, and all handlers are erased: without a
factory, it is still found. -/
theorem erase_all_forgets :
    ∃ h, (historyMachine Unit).run
        [.newService "s", .assignWeakHandler ⟨0, "s"⟩, .eraseAllRpcHandlers] = some h ∧
      h.erased "s" = true ∧ h.handlers.factory = none ∧
      (h.handlers.getHandler (fun _ _ => none) "s").1 = some ⟨1, ⟨0, "s"⟩⟩ ∧
      ¬ h.ErasedGone := by
  obtain ⟨h, hrun, herased, hfactory, hfound⟩ : ∃ h, (historyMachine Unit).run
      [.newService "s", .assignWeakHandler ⟨0, "s"⟩, .eraseAllRpcHandlers] = some h ∧
      h.erased "s" = true ∧ h.handlers.factory = none ∧
      (h.handlers.getHandler (fun _ _ => none) "s").1 = some ⟨1, ⟨0, "s"⟩⟩ :=
    (historyMachine Unit).exists_run _ _ (by decide +kernel)
  refine ⟨h, hrun, herased, hfactory, hfound, ?_⟩
  intro hgone
  have hnone := hgone "s" herased (fun _ _ => none)
  unfold Handlers.getFactory at hnone
  rw [hfound, hfactory] at hnone
  cases hnone

end Client

end Vtrc
