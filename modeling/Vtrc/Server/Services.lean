import Vtrc.LocalCall
import Mathlib.Data.List.AList

/-! # The services of a server (`server/protocol-layer-s.cpp`, `server/application.cpp`)

A connection keeps the wrappers of the services that it has looked up in `services_`; what is not
there is made by the factory of the application, once for each name, and stays until it is dropped.
The factory may be changed at any time, return another service or none, or raise.  A lookup holds
`services_lock_` of its connection throughout, so it is one step; an application that overrides
`get_service_by_name` is not modelled.

A wrapper is a new object whenever the application makes one, so its number tells it from all
others.  `services_kept` is about two lookups, on any connections and at any distance in a run: when
they find the same wrapper, that the application is not asked for what is kept, and that a lookup
that finds nothing leaves nothing behind. -/

namespace Vtrc

namespace Server

/-- An `rpc_service_wrapper` around a service of the application. -/
structure ServiceWrapper (σ : Type*) where
  object : ℕ
  service : σ
deriving DecidableEq, Repr

/-- The factory of the application (`none` is `default_factory`) and the `services_` of its
connections, which are numbered.  `made` counts the wrappers, `asked` has the calls of
`get_service_by_name`. -/
structure ServiceMaps (φ σ : Type*) where
  factory : Option φ := none
  services : ℕ → AList (fun _ : String => ServiceWrapper σ) := fun _ => ∅
  made : ℕ := 0
  asked : List (ℕ × String) := []

namespace ServiceMaps

variable {φ σ : Type*}

/-! ### The operations -/

/-- `assign_service_factory`; an empty function is replaced by `default_factory`. -/
def assignServiceFactory (s : ServiceMaps φ σ) (f : Option φ) : ServiceMaps φ σ :=
  { s with factory := f }

/-- What the factory does, when `call` is what the factories do this time. -/
def callFactory (s : ServiceMaps φ σ) (call : φ → ℕ → String → Except Thrown (Option σ)) (c : ℕ)
    (name : String) : Except Thrown (Option σ) :=
  match s.factory with
  | none => .ok none
  | some f => call f c name

/-- The application is asked for a service. -/
def ask (s : ServiceMaps φ σ) (c : ℕ) (name : String) : ServiceMaps φ σ :=
  { s with asked := s.asked ++ [(c, name)] }

/-- `application::get_service_by_name`. -/
def getServiceByName (s : ServiceMaps φ σ) (call : φ → ℕ → String → Except Thrown (Option σ)) (c : ℕ)
    (name : String) : Except Thrown (Option (ServiceWrapper σ)) × ServiceMaps φ σ :=
  let s := s.ask c name
  match s.callFactory call c name with
  | .error ex => (.error ex, s)
  | .ok none => (.ok none, s)
  | .ok (some svc) => (.ok (some ⟨s.made, svc⟩), { s with made := s.made + 1 })

/-- `services_` of a connection changes. -/
def setServices (s : ServiceMaps φ σ) (c : ℕ) (m : AList (fun _ : String => ServiceWrapper σ)) :
    ServiceMaps φ σ :=
  { s with services := Function.update s.services c m }

/-- `get_service` of a connection. -/
def getService (s : ServiceMaps φ σ) (call : φ → ℕ → String → Except Thrown (Option σ)) (c : ℕ)
    (name : String) : Except Thrown (Option (ServiceWrapper σ)) × ServiceMaps φ σ :=
  match (s.services c).lookup name with
  | some w => (.ok (some w), s)
  | none =>
      match s.getServiceByName call c name with
      | (.ok (some w), s₁) => (.ok (some w), s₁.setServices c ((s₁.services c).insert name w))
      | (res, s₁) => (res, s₁)

def dropService (s : ServiceMaps φ σ) (c : ℕ) (name : String) : ServiceMaps φ σ :=
  s.setServices c ((s.services c).erase name)

def dropAllServices (s : ServiceMaps φ σ) (c : ℕ) : ServiceMaps φ σ := s.setServices c ∅

/-! ### Histories -/

/-- What happens to the services of a server. -/
inductive Event (φ σ : Type*) where
  | assignServiceFactory (f : Option φ)
  | getService (call : φ → ℕ → String → Except Thrown (Option σ)) (c : ℕ) (name : String)
  | dropService (c : ℕ) (name : String)
  | dropAllServices (c : ℕ)

def step (s : ServiceMaps φ σ) : Event φ σ → ServiceMaps φ σ
  | .assignServiceFactory f => s.assignServiceFactory f
  | .getService call c name => (s.getService call c name).2
  | .dropService c name => s.dropService c name
  | .dropAllServices c => s.dropAllServices c

variable (φ σ) in
/-- A server, from its start. -/
def servicesMachine : Machine (ServiceMaps φ σ) (Event φ σ) := ⟨{}, fun s e => some (s.step e)⟩

/-- The event drops the name from `services_` of the connection. -/
def Event.drops (c : ℕ) (name : String) : Event φ σ → Bool
  | .dropService c' n => decide (c' = c) && decide (n = name)
  | .dropAllServices c' => decide (c' = c)
  | _ => false

/-! ### What a step does to the maps -/

variable {s s' : ServiceMaps φ σ}

/-- The wrapper of a name in `services_` of a connection. -/
def cached (s : ServiceMaps φ σ) (c : ℕ) (name : String) : Option (ServiceWrapper σ) :=
  (s.services c).lookup name

theorem cached_setServices (s : ServiceMaps φ σ) (c : ℕ)
    (m : AList (fun _ : String => ServiceWrapper σ)) (c' : ℕ) (name : String) :
    (s.setServices c m).cached c' name = if c' = c then m.lookup name else s.cached c' name := by
  unfold cached setServices
  simp only
  split_ifs with h
  · rw [h, Function.update_self]
  · rw [Function.update_of_ne h]

theorem cached_dropService (s : ServiceMaps φ σ) (c : ℕ) (name : String) (c' : ℕ) (n : String) :
    (s.dropService c name).cached c' n =
      if c' = c ∧ n = name then none else s.cached c' n := by
  unfold dropService
  rw [cached_setServices]
  by_cases hc : c' = c
  · subst hc
    by_cases hn : n = name
    · subst hn
      simp [AList.lookup_erase]
    · simp [hn, AList.lookup_erase_ne hn, cached]
  · simp [hc]

/-- A wrapper more in `services_` of a connection, from the application. -/
def keep (s : ServiceMaps φ σ) (c : ℕ) (name : String) (svc : σ) : ServiceMaps φ σ :=
  { s.ask c name with made := s.made + 1 }.setServices c ((s.services c).insert name ⟨s.made, svc⟩)

@[simp] theorem cached_ask (s : ServiceMaps φ σ) (c : ℕ) (name : String) (c' : ℕ) (n : String) :
    (s.ask c name).cached c' n = s.cached c' n := rfl

@[simp] theorem asked_keep (s : ServiceMaps φ σ) (c : ℕ) (name : String) (svc : σ) :
    (s.keep c name svc).asked = s.asked ++ [(c, name)] := rfl

theorem cached_keep (s : ServiceMaps φ σ) (c : ℕ) (name : String) (svc : σ) (c' : ℕ) (n : String) :
    (s.keep c name svc).cached c' n =
      if c' = c ∧ n = name then some ⟨s.made, svc⟩ else s.cached c' n := by
  unfold keep
  rw [cached_setServices]
  by_cases hc : c' = c
  · subst hc
    by_cases hn : n = name
    · subst hn
      simp [AList.lookup_insert]
    · simp [hn, AList.lookup_insert_ne hn, cached]
  · simp only [hc, if_false, false_and]
    rfl

/-- What a lookup finds and what it leaves. -/
inductive Finds (s : ServiceMaps φ σ) (c : ℕ) (name : String) :
    Except Thrown (Option (ServiceWrapper σ)) × ServiceMaps φ σ → Prop
  | hit (w : ServiceWrapper σ) (h : s.cached c name = some w) : Finds s c name (.ok (some w), s)
  | made (svc : σ) (h : s.cached c name = none) :
      Finds s c name (.ok (some ⟨s.made, svc⟩), s.keep c name svc)
  | missing (res : Except Thrown (Option (ServiceWrapper σ))) (h : s.cached c name = none)
      (hres : ∀ w, res ≠ .ok (some w)) : Finds s c name (res, s.ask c name)

theorem getService_finds (s : ServiceMaps φ σ) (call : φ → ℕ → String → Except Thrown (Option σ))
    (c : ℕ) (name : String) : Finds s c name (s.getService call c name) := by
  unfold getService
  cases hw : (s.services c).lookup name with
  | some w => exact .hit w hw
  | none =>
      simp only [getServiceByName]
      cases (s.ask c name).callFactory call c name with
      | error ex => exact .missing _ hw (fun w h => by cases h)
      | ok found =>
          cases found with
          | none => exact .missing _ hw (fun w h => by cases h)
          | some svc => exact .made svc hw

theorem Finds.cached {c : ℕ} {name : String} {w : ServiceWrapper σ}
    (h : Finds s c name (.ok (some w), s')) : s'.cached c name = some w := by
  cases h with
  | hit w hw => exact hw
  | made svc hw => rw [cached_keep, if_pos ⟨rfl, rfl⟩]
  | missing res hw hres => exact absurd rfl (hres w)

/-- **What a step does**: it makes at most one wrapper, with a number of its own, and every other
wrapper in the maps was there before. -/
theorem step_cached {e : Event φ σ} {c : ℕ} {name : String} {w : ServiceWrapper σ}
    (h : (s.step e).cached c name = some w) :
    (s.cached c name = some w ∧ e.drops c name = false) ∨
      ((∃ call, e = .getService call c name) ∧ w.object = s.made ∧
        (s.step e).made = s.made + 1) := by
  cases e with
  | assignServiceFactory f => exact .inl ⟨h, rfl⟩
  | getService call c' n =>
      simp only [step] at h ⊢
      have hfinds := s.getService_finds call c' n
      generalize s.getService call c' n = r at h hfinds ⊢
      cases hfinds with
      | hit w' hw => exact .inl ⟨h, rfl⟩
      | made svc hw =>
          rw [cached_keep] at h
          split_ifs at h with heq
          · obtain ⟨rfl, rfl⟩ := heq
            cases h
            exact .inr ⟨⟨call, rfl⟩, rfl, rfl⟩
          · exact .inl ⟨h, rfl⟩
      | missing res hw hres => exact .inl ⟨h, rfl⟩
  | dropService c' n =>
      rw [step, cached_dropService] at h
      split_ifs at h with heq
      refine .inl ⟨h, ?_⟩
      simp only [Event.drops, ← Bool.decide_and, decide_eq_false_iff_not]
      exact fun hc => heq ⟨hc.1.symm, hc.2.symm⟩
  | dropAllServices c' =>
      rw [step, dropAllServices, cached_setServices] at h
      split_ifs at h with heq
      · rw [AList.lookup_empty] at h
        cases h
      · exact .inl ⟨h, decide_eq_false (fun hc => heq hc.symm)⟩

theorem step_keeps {e : Event φ σ} {c : ℕ} {name : String} {w : ServiceWrapper σ}
    (h : s.cached c name = some w) (hdrops : e.drops c name = false) :
    (s.step e).cached c name = some w := by
  cases e with
  | assignServiceFactory f => exact h
  | getService call c' n =>
      simp only [step]
      have hfinds := s.getService_finds call c' n
      generalize s.getService call c' n = r at hfinds ⊢
      cases hfinds with
      | hit w' hw => exact h
      | made svc hw =>
          rw [cached_keep, if_neg ?_]
          · exact h
          · rintro ⟨rfl, rfl⟩
            rw [h] at hw
            cases hw
      | missing res hw hres => exact h
  | dropService c' n =>
      simp only [Event.drops, ← Bool.decide_and, decide_eq_false_iff_not] at hdrops
      rw [step, cached_dropService, if_neg (fun heq => hdrops ⟨heq.1.symm, heq.2.symm⟩)]
      exact h
  | dropAllServices c' =>
      simp only [Event.drops, decide_eq_false_iff_not] at hdrops
      rw [step, dropAllServices, cached_setServices, if_neg (fun heq => hdrops heq.symm)]
      exact h

/-- The application is asked only for what is not kept. -/
theorem step_asked {c : ℕ} {name : String} {w : ServiceWrapper σ} (h : s.cached c name = some w)
    (e : Event φ σ) : (s.step e).asked.count (c, name) = s.asked.count (c, name) := by
  have hother : ∀ {c' n}, s.cached c' n = none →
      (s.asked ++ [(c', n)]).count (c, name) = s.asked.count (c, name) := by
    intro c' n hnone
    have hne : (c, name) ∉ [(c', n)] := by
      rw [List.mem_singleton, Prod.mk.injEq]
      rintro ⟨rfl, rfl⟩
      rw [h] at hnone
      cases hnone
    rw [List.count_append, List.count_eq_zero.mpr hne, Nat.add_zero]
  cases e with
  | getService call c' n =>
      simp only [step]
      have hfinds := s.getService_finds call c' n
      generalize s.getService call c' n = r at hfinds ⊢
      cases hfinds with
      | hit w' hw => rfl
      | made svc hw => exact hother hw
      | missing res hw hres => exact hother hw
  | _ => rfl

theorem made_le (s : ServiceMaps φ σ) (e : Event φ σ) : s.made ≤ (s.step e).made := by
  cases e with
  | getService call c name =>
      simp only [step]
      have hfinds := s.getService_finds call c name
      generalize s.getService call c name = r at hfinds ⊢
      cases hfinds with
      | made svc hw => exact Nat.le_succ _
      | hit w hw => exact le_refl _
      | missing res hw hres => exact le_refl _
  | _ => exact le_refl _

/-! ### Runs -/

/-- The wrappers in the maps were made before, and each is in one place. -/
structure Numbered (s : ServiceMaps φ σ) : Prop where
  lt : ∀ {c name w}, s.cached c name = some w → w.object < s.made
  place : ∀ {c name w c' name' w'}, s.cached c name = some w → s.cached c' name' = some w' →
    w'.object = w.object → c' = c ∧ name' = name

theorem Numbered.step (h : Numbered s) (e : Event φ σ) : Numbered (s.step e) where
  lt hw := by
    have hle := s.made_le e
    cases step_cached hw with
    | inl hold => exact (h.lt hold.1).trans_le hle
    | inr hnew => omega
  place hw hw' heq := by
    obtain ⟨hold, _⟩ | ⟨⟨call, hget⟩, hobj, _⟩ := step_cached hw <;>
      obtain ⟨hold', _⟩ | ⟨⟨call', hget'⟩, hobj', _⟩ := step_cached hw'
    · exact h.place hold hold' heq
    · have := h.lt hold
      omega
    · have := h.lt hold'
      omega
    · cases hget.symm.trans hget'
      exact ⟨rfl, rfl⟩

theorem numbered_init : Numbered (servicesMachine φ σ).init where
  lt hw := by cases hw
  place hw := by cases hw

theorem Numbered.run {es : List (Event φ σ)} (h : Numbered s)
    (hrun : (servicesMachine φ σ).runFrom s es = some s') : Numbered s' := by
  refine Machine.runFrom_inv _ ?_ h hrun
  intro s e s' hs hstep
  cases hstep
  exact hs.step e

/-- The wrapper was made before, and no map has it. -/
structure Gone (object : ℕ) (s : ServiceMaps φ σ) : Prop where
  lt : object < s.made
  absent : ∀ {c name w}, s.cached c name = some w → w.object ≠ object

theorem Gone.step {object : ℕ} (h : Gone object s) (e : Event φ σ) : Gone object (s.step e) where
  lt := h.lt.trans_le (s.made_le e)
  absent hw := by
    have hlt := h.lt
    cases step_cached hw with
    | inl hold => exact h.absent hold.1
    | inr hnew => omega

theorem Gone.run {object : ℕ} {es : List (Event φ σ)} (h : Gone object s)
    (hrun : (servicesMachine φ σ).runFrom s es = some s') : Gone object s' := by
  refine Machine.runFrom_inv _ ?_ h hrun
  intro s e s' hs hstep
  cases hstep
  exact hs.step e

theorem gone_of_drops (h : Numbered s) {c : ℕ} {name : String} {w : ServiceWrapper σ}
    (hw : s.cached c name = some w) {e : Event φ σ} (hdrops : e.drops c name = true) :
    Gone w.object (s.step e) where
  lt := (h.lt hw).trans_le (s.made_le e)
  absent hw' heq := by
    have hlt := h.lt hw
    obtain ⟨hold, hkept⟩ | ⟨_, hobj, _⟩ := step_cached hw'
    · obtain ⟨rfl, rfl⟩ := h.place hw hold heq
      rw [hdrops] at hkept
      cases hkept
    · omega

/-- **What becomes of a wrapper** in a run: it stays until it is dropped, and then it is gone. -/
theorem kept_or_gone {es : List (Event φ σ)} {c : ℕ} {name : String} {w : ServiceWrapper σ}
    (h : Numbered s) (hw : s.cached c name = some w)
    (hrun : (servicesMachine φ σ).runFrom s es = some s') :
    ((∀ e ∈ es, e.drops c name = false) ∧ s'.cached c name = some w) ∨
      ((∃ e ∈ es, e.drops c name = true) ∧ Gone w.object s') := by
  induction es generalizing s with
  | nil =>
      cases hrun
      exact .inl ⟨by simp, hw⟩
  | cons e es ih =>
      obtain ⟨s₁, hstep, hrest⟩ := Machine.runFrom_cons_eq_some _ |>.mp hrun
      cases hstep
      cases hdrops : e.drops c name with
      | true =>
          exact .inr ⟨⟨e, List.mem_cons_self, hdrops⟩, (gone_of_drops h hw hdrops).run hrest⟩
      | false =>
          obtain ⟨hkept, hw'⟩ | ⟨⟨e', he', hdrops'⟩, hgone⟩ :=
            ih (h.step e) (step_keeps hw hdrops) hrest
          · exact .inl ⟨List.forall_mem_cons.mpr ⟨hdrops, hkept⟩, hw'⟩
          · exact .inr ⟨⟨e', List.mem_cons_of_mem e he', hdrops'⟩, hgone⟩

theorem Finds.object_of_cached {c c' : ℕ} {name name' : String} {w w' : ServiceWrapper σ}
    {r : Except Thrown (Option (ServiceWrapper σ)) × ServiceMaps φ σ} (h : Numbered s)
    (hw : s.cached c name = some w) (hfinds : Finds s c' name' r) (hr : r.1 = .ok (some w')) :
    w'.object = w.object ↔ c' = c ∧ name' = name := by
  cases hfinds with
  | hit w₁ hw₁ =>
      cases hr
      constructor
      · exact h.place hw hw₁
      · rintro ⟨rfl, rfl⟩
        rw [Option.some.inj (hw.symm.trans hw₁)]
  | made svc hnone =>
      cases hr
      constructor
      · intro heq
        exact absurd heq (h.lt hw).ne'
      · rintro ⟨rfl, rfl⟩
        rw [hw] at hnone
        cases hnone
  | missing res hnone hres => exact absurd hr (hres w')

theorem Finds.object_of_gone {c : ℕ} {name : String} {object : ℕ} {w : ServiceWrapper σ}
    {r : Except Thrown (Option (ServiceWrapper σ)) × ServiceMaps φ σ} (h : Gone object s)
    (hfinds : Finds s c name r) (hr : r.1 = .ok (some w)) : w.object ≠ object := by
  cases hfinds with
  | hit w₁ hw₁ =>
      cases hr
      exact h.absent hw₁
  | made svc hnone =>
      cases hr
      exact h.lt.ne'
  | missing res hnone hres => exact absurd hr (hres w)

/-- Until it is dropped, a wrapper is found again, and the application is not asked for it. -/
theorem kept_asked {es : List (Event φ σ)} {c : ℕ} {name : String} {w : ServiceWrapper σ}
    (hw : s.cached c name = some w) (hkept : ∀ e ∈ es, e.drops c name = false)
    (hrun : (servicesMachine φ σ).runFrom s es = some s') :
    s'.cached c name = some w ∧ s'.asked.count (c, name) = s.asked.count (c, name) := by
  induction es generalizing s with
  | nil =>
      cases hrun
      exact ⟨hw, rfl⟩
  | cons e es ih =>
      obtain ⟨s₁, hstep, hrest⟩ := Machine.runFrom_cons_eq_some _ |>.mp hrun
      cases hstep
      obtain ⟨hdrops, hkept⟩ := List.forall_mem_cons.mp hkept
      obtain ⟨hw', hasked⟩ := ih (step_keeps hw hdrops) hkept hrest
      exact ⟨hw', hasked.trans (step_asked hw e)⟩

theorem getService_of_cached {c : ℕ} {name : String} {w : ServiceWrapper σ}
    (h : s.cached c name = some w) (call : φ → ℕ → String → Except Thrown (Option σ)) :
    s.getService call c name = (.ok (some w), s) := by
  unfold getService
  rw [show (s.services c).lookup name = some w from h]

/-- Two lookups find the same wrapper exactly when they are lookups of one connection for one
name, and the connection has not dropped the name between them. -/
theorem same_wrapper_iff {s₁ s₂ : ServiceMaps φ σ} {c c' : ℕ} {name name' : String}
    {call' : φ → ℕ → String → Except Thrown (Option σ)} {w w' : ServiceWrapper σ}
    {between : List (Event φ σ)} (hnum : Numbered s₁) (hw : s₁.cached c name = some w)
    (hbetween : (servicesMachine φ σ).runFrom s₁ between = some s₂)
    (hsecond : (s₂.getService call' c' name').1 = .ok (some w')) :
    w'.object = w.object ↔ c' = c ∧ name' = name ∧ ∀ e ∈ between, e.drops c name = false := by
  have hfinds := s₂.getService_finds call' c' name'
  obtain ⟨hkept, hw₂⟩ | ⟨⟨e, he, hdrops⟩, hgone⟩ := kept_or_gone hnum hw hbetween
  · rw [hfinds.object_of_cached (hnum.run hbetween) hw₂ hsecond]
    exact ⟨fun h => ⟨h.1, h.2, hkept⟩, fun h => ⟨h.1, h.2.1⟩⟩
  · refine ⟨fun heq => absurd heq (hfinds.object_of_gone hgone hsecond), fun h => ?_⟩
    rw [h.2.2 e he] at hdrops
    cases hdrops

/-- **The services of a connection.**  Of two lookups at any distance in a run: if both find a
wrapper, it is the same one exactly when they are lookups of one connection for one name, which the
connection has not dropped between them; if the first one finds a wrapper and it is not dropped,
the application is not asked for the name again, and a second lookup finds that wrapper and changes
nothing; and if the first one finds none, or raises, all that it leaves is that the application has
been asked. -/
theorem services_kept {s s₁ s₂ s₃ : ServiceMaps φ σ} {c c' : ℕ} {name name' : String}
    {call call' : φ → ℕ → String → Except Thrown (Option σ)}
    {r r' : Except Thrown (Option (ServiceWrapper σ))} {before between : List (Event φ σ)}
    (hbefore : (servicesMachine φ σ).run before = some s)
    (hfirst : s.getService call c name = (r, s₁))
    (hbetween : (servicesMachine φ σ).runFrom s₁ between = some s₂)
    (hsecond : s₂.getService call' c' name' = (r', s₃)) :
    (∀ w w', r = .ok (some w) → r' = .ok (some w') →
      (w'.object = w.object ↔
        c' = c ∧ name' = name ∧ ∀ e ∈ between, e.drops c name = false)) ∧
    (∀ w, r = .ok (some w) → (∀ e ∈ between, e.drops c name = false) →
      s₂.asked.count (c, name) = s₁.asked.count (c, name) ∧
        (c' = c → name' = name → r' = .ok (some w) ∧ s₃ = s₂)) ∧
    ((∀ w, r ≠ .ok (some w)) → s₁ = { s with asked := s.asked ++ [(c, name)] }) := by
  have hfinds : Finds s c name (r, s₁) := hfirst ▸ s.getService_finds call c name
  refine ⟨?_, ?_, ?_⟩
  · rintro w w' rfl rfl
    have hnum : Numbered s₁ := by
      have := (numbered_init.run hbefore).step (.getService call c name)
      rwa [ServiceMaps.step, hfirst] at this
    exact same_wrapper_iff hnum hfinds.cached hbetween (congrArg Prod.fst hsecond)
  · rintro w rfl hkept
    obtain ⟨hw, hasked⟩ := kept_asked hfinds.cached hkept hbetween
    refine ⟨hasked, ?_⟩
    rintro rfl rfl
    rw [getService_of_cached hw] at hsecond
    obtain ⟨hr, hs⟩ := Prod.mk.inj hsecond
    exact ⟨hr.symm, hs.symm⟩
  · intro hnone
    cases hfinds with
    | hit w hw => exact absurd rfl (hnone w)
    | made svc hw => exact absurd rfl (hnone _)
    | missing res hw hres => rfl

/-- Two connections look up one name, and the second one drops its services: the first one finds
its wrapper again, without the application, the second one a new one; a name that the factory does
not know is asked for each time. -/
theorem services_kept_two :
    let call : Unit → ℕ → String → Except Thrown (Option String) := fun _ _ name =>
      if name = "s" then .ok (some name) else .ok none
    let s := ({} : ServiceMaps Unit String).assignServiceFactory (some ())
    let s₁ := (s.getService call 0 "s").2
    let s₂ := (s₁.getService call 1 "s").2.dropAllServices 1
    (s.getService call 0 "s").1 = .ok (some ⟨0, "s"⟩) ∧
      s₂.getService call 0 "s" = (.ok (some ⟨0, "s"⟩), s₂) ∧
      (∃ w, (s₂.getService call 1 "s").1 = .ok (some w) ∧ w.object ≠ 0) ∧
      (s.getService call 0 "t").2 = { s with asked := [(0, "t")] } := by
  intro call s s₁ s₂
  have hbefore : (servicesMachine Unit String).run [.assignServiceFactory (some ())] = some s := rfl
  have hfirst : s.getService call 0 "s" = (.ok (some ⟨0, "s"⟩), s₁) := rfl
  have hbetween : (servicesMachine Unit String).runFrom s₁
      [.getService call 1 "s", .dropAllServices 1] = some s₂ := rfl
  have hnew : s₂.getService call 1 "s" = (.ok (some ⟨2, "s"⟩), (s₂.getService call 1 "s").2) := rfl
  have hmissing : s.getService call 0 "t" = (.ok none, s.ask 0 "t") := rfl
  have hagain : (s.ask 0 "t").getService call 0 "t" = (.ok none, (s.ask 0 "t").ask 0 "t") := rfl
  have hnone : (servicesMachine Unit String).runFrom (s.ask 0 "t") [] = some (s.ask 0 "t") := rfl
  refine ⟨rfl, ?_, ⟨_, rfl, fun heq => ?_⟩, ?_⟩
  · have hkept : s₂.getService call 0 "s" = ((s₂.getService call 0 "s").1, _) := rfl
    obtain ⟨hr, hs⟩ := ((services_kept hbefore hfirst hbetween hkept).2.1 _ rfl
      (by simp [Event.drops])).2 rfl rfl
    exact Prod.ext hr hs
  · have hiff := (services_kept hbefore hfirst hbetween hnew).1 _ _ rfl rfl
    exact absurd (hiff.mp heq).1 Nat.one_ne_zero
  · exact (services_kept hbefore hmissing hnone hagain).2.2 (fun w h => by cases h)

end ServiceMaps

end Server

end Vtrc
