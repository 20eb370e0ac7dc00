import Mathlib.Data.List.Induction
import Mathlib.Order.RelClasses

/-! # Machines driven by events

A `Machine σ ε` is an initial state together with a partial step function: `step s e` is
the state after event `e`, and `none` when `e` is not enabled in `s`.  A run is a list of
events; nondeterminism (the scheduler, the peer, the application) is the choice of the
events, so a statement about every run is a statement about every list of events.

* `runFrom_append` splits a run, and `exists_runFrom` evaluates one.
* `run_induction` is induction along a run, for properties that mention its events.
* `Reachable.inv` is the invariant rule: what holds initially and is kept by every enabled
  step holds in every reachable state.
* `Meets C s es` says that every step of the run satisfies `C` (a condition on the state
  before the step and on the event); `inv_of_meets` is the invariant rule for such runs,
  and `meets_of_forall_step` its converse: if every step that is taken satisfies `C`
  then the run meets `C`.
* `forall_prefix_iff_meets` turns an equivalence about one step, between a condition on it and
  a property of the state after it, into one about whole runs (`forall_prefix_iff_meets_of_meets`
  for the runs that meet a condition of their own); `iff_meets` does so for a property of the last
  state that no step brings back.
* `exists_run_of_simulates` is the simulation rule: where every step of a machine is matched by
  events of another one, so is every run.
* `exists_runFrom_of_decreasing` is the progress rule: where every state short of the goal can go
  on to a smaller one, the goal can be reached.
* `outputsFrom` collects what the steps of a run put out, and `forall_outputsFrom` bounds it. -/

namespace Vtrc

/-- An initial state and a partial step function. -/
structure Machine (σ ε : Type*) where
  init : σ
  step : σ → ε → Option σ

namespace Machine

variable {σ ε : Type*} (M : Machine σ ε)

/-- The state after the events `es`, started in `s`. -/
def runFrom (s : σ) : List ε → Option σ
  | [] => some s
  | e :: es => (M.step s e).bind (fun s' => runFrom s' es)

/-- The state after the events `es`, started in the initial state. -/
def run (es : List ε) : Option σ := M.runFrom M.init es

/-- Some run ends in `s`. -/
def Reachable (s : σ) : Prop := ∃ es, M.run es = some s

@[simp] theorem runFrom_nil (s : σ) : M.runFrom s [] = some s := rfl

theorem runFrom_cons (s : σ) (e : ε) (es : List ε) :
    M.runFrom s (e :: es) = (M.step s e).bind (fun s' => M.runFrom s' es) := rfl

theorem runFrom_append (s : σ) (es fs : List ε) :
    M.runFrom s (es ++ fs) = (M.runFrom s es).bind (fun s' => M.runFrom s' fs) := by
  induction es generalizing s with
  | nil => rfl
  | cons e es ih =>
      rw [List.cons_append, runFrom_cons, runFrom_cons, Option.bind_assoc]
      congr 1
      funext s'
      exact ih s'

theorem runFrom_cons_eq_some {s s' : σ} {e : ε} {es : List ε} :
    M.runFrom s (e :: es) = some s' ↔ ∃ s₁, M.step s e = some s₁ ∧ M.runFrom s₁ es = some s' := by
  rw [runFrom_cons, Option.bind_eq_some_iff]

theorem runFrom_append_eq_some {s s' : σ} {es fs : List ε} :
    M.runFrom s (es ++ fs) = some s' ↔
      ∃ s₁, M.runFrom s es = some s₁ ∧ M.runFrom s₁ fs = some s' := by
  rw [runFrom_append, Option.bind_eq_some_iff]

theorem runFrom_snoc_eq_some {s s' : σ} {e : ε} {es : List ε} :
    M.runFrom s (es ++ [e]) = some s' ↔
      ∃ s₁, M.runFrom s es = some s₁ ∧ M.step s₁ e = some s' := by
  rw [runFrom_append_eq_some]
  simp [runFrom_cons_eq_some]

/-- A run on given events can be evaluated. -/
theorem exists_runFrom (s : σ) (es : List ε) (p : σ → Prop) [DecidablePred p]
    (h : (M.runFrom s es).any (fun s => decide (p s)) = true) :
    ∃ s', M.runFrom s es = some s' ∧ p s' := by
  cases hs : M.runFrom s es with
  | none =>
      rw [hs] at h
      cases h
  | some s' =>
      rw [hs] at h
      exact ⟨s', rfl, of_decide_eq_true h⟩

theorem exists_run (es : List ε) (p : σ → Prop) [DecidablePred p]
    (h : (M.run es).any (fun s => decide (p s)) = true) : ∃ s, M.run es = some s ∧ p s :=
  M.exists_runFrom M.init es p h

/-! ### Invariants -/

/-- What every enabled step keeps holds along a whole run. -/
theorem runFrom_inv {I : σ → Prop}
    (hstep : ∀ s e s', I s → M.step s e = some s' → I s') :
    ∀ {es : List ε} {s s' : σ}, I s → M.runFrom s es = some s' → I s' := by
  intro es
  induction es with
  | nil =>
      intro s s' hs h
      cases h
      exact hs
  | cons e es ih =>
      intro s s' hs h
      obtain ⟨s₁, h₁, h₂⟩ := M.runFrom_cons_eq_some.mp h
      exact ih (hstep s e s₁ hs h₁) h₂

/-- What earlier states inherit goes back along a whole run. -/
theorem of_runFrom {F : σ → Prop} (hback : ∀ s e s', M.step s e = some s' → F s' → F s) :
    ∀ {es : List ε} {s s' : σ}, M.runFrom s es = some s' → F s' → F s := by
  intro es
  induction es with
  | nil =>
      intro s s' h hF
      cases h
      exact hF
  | cons e es ih =>
      intro s s' h hF
      obtain ⟨s₁, h₁, h₂⟩ := M.runFrom_cons_eq_some.mp h
      exact hback s e s₁ h₁ (ih h₂ hF)

/-- Induction along a run: a property of the events so far and of the state they lead to. -/
theorem run_induction {P : List ε → σ → Prop} (hinit : P [] M.init)
    (hstep : ∀ es s e s', P es s → M.step s e = some s' → P (es ++ [e]) s') :
    ∀ {es : List ε} {s : σ}, M.run es = some s → P es s := by
  intro es
  induction es using List.reverseRecOn with
  | nil =>
      intro s h
      cases h
      exact hinit
  | append_singleton es e ih =>
      intro s h
      obtain ⟨s₁, h₁, h₂⟩ := M.runFrom_snoc_eq_some.mp h
      exact hstep es s₁ e s (ih h₁) h₂

/-- **The invariant rule** for reachable states. -/
theorem Reachable.inv {M : Machine σ ε} {I : σ → Prop} (hinit : I M.init)
    (hstep : ∀ s e s', I s → M.step s e = some s' → I s') {s : σ} (h : M.Reachable s) : I s := by
  obtain ⟨es, hes⟩ := h
  exact M.runFrom_inv hstep hinit hes

/-! ### Runs whose steps meet a condition -/

/-- Every step of the run `es` from `s` satisfies `C` (state before, event). -/
def Meets (C : σ → ε → Prop) : σ → List ε → Prop
  | _, [] => True
  | s, e :: es => C s e ∧ ∀ s', M.step s e = some s' → Meets C s' es

/-- Whether a run meets a condition can be checked step by step. -/
instance decidableMeets {C : σ → ε → Prop} [∀ s e, Decidable (C s e)] :
    (s : σ) → (es : List ε) → Decidable (M.Meets C s es)
  | _, [] => inferInstanceAs (Decidable True)
  | s, e :: es =>
      match h : M.step s e with
      | none => decidable_of_iff (C s e) (by simp [Meets, h])
      | some s' =>
          have : Decidable (M.Meets C s' es) := decidableMeets s' es
          decidable_of_iff (C s e ∧ M.Meets C s' es) (by simp [Meets, h])

/-- The invariant rule for runs all of whose steps meet `C`. -/
theorem inv_of_meets {C : σ → ε → Prop} {I : σ → Prop}
    (hstep : ∀ s e s', I s → C s e → M.step s e = some s' → I s') :
    ∀ {es : List ε} {s s' : σ}, I s → M.Meets C s es → M.runFrom s es = some s' → I s' := by
  intro es
  induction es with
  | nil =>
      intro s s' hs _ h
      cases h
      exact hs
  | cons e es ih =>
      intro s s' hs hm h
      obtain ⟨s₁, h₁, h₂⟩ := M.runFrom_cons_eq_some.mp h
      exact ih (hstep s e s₁ hs hm.1 h₁) (hm.2 s₁ h₁) h₂

theorem meets_of_forall_mem {C : ε → Prop} {es : List ε} (h : ∀ e ∈ es, C e) {s : σ} :
    M.Meets (fun _ e => C e) s es := by
  induction es generalizing s with
  | nil => exact trivial
  | cons e es ih =>
      obtain ⟨he, hes⟩ := List.forall_mem_cons.mp h
      exact ⟨he, fun s' _ => ih hes⟩

theorem Meets.of_append {M : Machine σ ε} {C : σ → ε → Prop} {es fs : List ε} :
    ∀ {s : σ}, M.Meets C s (es ++ fs) → M.Meets C s es := by
  induction es with
  | nil =>
      intro s _
      exact trivial
  | cons e es ih =>
      intro s h
      exact ⟨h.1, fun s' hs' => ih (h.2 s' hs')⟩

theorem Meets.of_append_right {M : Machine σ ε} {C : σ → ε → Prop} {es fs : List ε} :
    ∀ {s s₁ : σ}, M.Meets C s (es ++ fs) → M.runFrom s es = some s₁ → M.Meets C s₁ fs := by
  induction es with
  | nil =>
      intro s s₁ h hes
      cases hes
      exact h
  | cons e es ih =>
      intro s s₁ h hes
      obtain ⟨s₂, h₂, hes⟩ := M.runFrom_cons_eq_some.mp hes
      exact ih (h.2 s₂ h₂) hes

theorem Meets.and {M : Machine σ ε} {C D : σ → ε → Prop} {es : List ε} :
    ∀ {s : σ}, M.Meets C s es → M.Meets D s es → M.Meets (fun s e => C s e ∧ D s e) s es := by
  induction es with
  | nil =>
      intro s _ _
      exact trivial
  | cons e es ih =>
      intro s hC hD
      exact ⟨⟨hC.1, hD.1⟩, fun s' hs' => ih (hC.2 s' hs') (hD.2 s' hs')⟩

theorem Meets.append {M : Machine σ ε} {C : σ → ε → Prop} {es fs : List ε} :
    ∀ {s s₁ : σ}, M.Meets C s es → M.runFrom s es = some s₁ → M.Meets C s₁ fs →
      M.Meets C s (es ++ fs) := by
  induction es with
  | nil =>
      intro s s₁ _ hes h
      cases hes
      exact h
  | cons e es ih =>
      intro s s₁ hm hes h
      obtain ⟨s₂, h₂, hes⟩ := M.runFrom_cons_eq_some.mp hes
      refine ⟨hm.1, fun s₃ h₃ => ?_⟩
      cases h₂.symm.trans h₃
      exact ih (hm.2 s₂ h₂) hes h

theorem Meets.at_step {M : Machine σ ε} {C : σ → ε → Prop} {p q : List ε} {e : ε} :
    ∀ {s s₁ : σ}, M.Meets C s (p ++ e :: q) → M.runFrom s p = some s₁ → C s₁ e := by
  induction p with
  | nil =>
      intro s s₁ h hp
      obtain rfl := Option.some.inj hp
      exact h.1
  | cons e' p ih =>
      intro s s₁ h hp
      obtain ⟨s₂, h₂, hp⟩ := M.runFrom_cons_eq_some.mp hp
      exact ih (h.2 s₂ h₂) hp

/-- A run meets a condition when all but its last step do, and the last step does. -/
theorem meets_snoc_iff {C : σ → ε → Prop} {es : List ε} {e : ε} :
    ∀ {s s₁ : σ}, M.runFrom s es = some s₁ →
      (M.Meets C s (es ++ [e]) ↔ M.Meets C s es ∧ C s₁ e) := by
  induction es with
  | nil =>
      intro s s₁ h
      obtain rfl := Option.some.inj h
      exact ⟨fun hm => ⟨trivial, hm.1⟩, fun hm => ⟨hm.2, fun _ _ => trivial⟩⟩
  | cons e' es ih =>
      intro s s₁ h
      obtain ⟨s₂, h₂, h⟩ := M.runFrom_cons_eq_some.mp h
      constructor
      · rintro ⟨he, hm⟩
        obtain ⟨hes, hlast⟩ := (ih h).mp (hm s₂ h₂)
        refine ⟨⟨he, fun s₃ h₃ => ?_⟩, hlast⟩
        obtain rfl := Option.some.inj (h₂.symm.trans h₃)
        exact hes
      · rintro ⟨⟨he, hes⟩, hlast⟩
        refine ⟨he, fun s₃ h₃ => ?_⟩
        obtain rfl := Option.some.inj (h₂.symm.trans h₃)
        exact (ih h).mpr ⟨hes s₂ h₂, hlast⟩

/-- If `C` holds at every step taken by a completed run, the run meets `C`. -/
theorem meets_of_forall_step {C : σ → ε → Prop} {s s' : σ} {es : List ε}
    (hrun : M.runFrom s es = some s')
    (h : ∀ p e q s₁ s₂, es = p ++ e :: q → M.runFrom s p = some s₁ → M.step s₁ e = some s₂ →
      M.runFrom s₂ q = some s' → C s₁ e) : M.Meets C s es := by
  induction es generalizing s with
  | nil => exact trivial
  | cons e es ih =>
      obtain ⟨s₁, h₁, h₂⟩ := M.runFrom_cons_eq_some.mp hrun
      refine ⟨h [] e es s s₁ rfl rfl h₁ h₂, fun s₂ hs₂ => ?_⟩
      cases h₁.symm.trans hs₂
      apply ih h₂
      intro p e' q s₃ s₄ hes hp he' hq
      exact h (e :: p) e' q s₃ s₄ (by rw [hes, List.cons_append])
        (M.runFrom_cons_eq_some.mpr ⟨s₁, h₁, hp⟩) he' hq

/-- **The equivalence rule.**  In states with `I` and `P`, a step with `D` satisfies `C` exactly when
`P` holds after it; then `P` holds all along a run that meets `D` exactly when the run meets `C`. -/
theorem forall_prefix_iff_meets_of_meets {C D : σ → ε → Prop} {I P : σ → Prop}
    (hkeep : ∀ s e s', I s → P s → D s e → C s e → M.step s e = some s' → I s')
    (hiff : ∀ s e s', I s → P s → D s e → M.step s e = some s' → (P s' ↔ C s e)) {es : List ε} :
    ∀ {s s' : σ}, I s → P s → M.Meets D s es → M.runFrom s es = some s' →
      ((∀ p q t, es = p ++ q → M.runFrom s p = some t → P t) ↔ M.Meets C s es) := by
  induction es with
  | nil =>
      intro s s' _ hP _ _
      refine ⟨fun _ => trivial, fun _ p q t hsplit hp => ?_⟩
      obtain ⟨rfl, _⟩ := List.append_eq_nil_iff.mp hsplit.symm
      cases hp
      exact hP
  | cons e es ih =>
      intro s s' hI hP hD h
      obtain ⟨s₁, h₁, h₂⟩ := M.runFrom_cons_eq_some.mp h
      constructor
      · intro hall
        have hP₁ : P s₁ := hall [e] es s₁ rfl (by rw [runFrom_cons, h₁]; rfl)
        have hC : C s e := (hiff s e s₁ hI hP hD.1 h₁).mp hP₁
        refine ⟨hC, fun s₂ hs₂ => ?_⟩
        cases h₁.symm.trans hs₂
        apply (ih (hkeep s e s₁ hI hP hD.1 hC h₁) hP₁ (hD.2 s₁ h₁) h₂).mp
        intro p q t hsplit hp
        apply hall (e :: p) q t (by rw [hsplit, List.cons_append])
        exact M.runFrom_cons_eq_some.mpr ⟨s₁, h₁, hp⟩
      · rintro ⟨hC, hm⟩ p q t hsplit hp
        have hP₁ : P s₁ := (hiff s e s₁ hI hP hD.1 h₁).mpr hC
        cases p with
        | nil =>
            cases hp
            exact hP
        | cons e' p =>
            obtain ⟨rfl, hrest⟩ := List.cons.inj hsplit
            obtain ⟨s₂, hs₂, hp⟩ := M.runFrom_cons_eq_some.mp hp
            cases h₁.symm.trans hs₂
            exact (ih (hkeep s e s₁ hI hP hD.1 hC h₁) hP₁ (hD.2 s₁ h₁) h₂).mpr (hm s₁ h₁) p q t
              hrest hp

theorem forall_prefix_iff_meets {C : σ → ε → Prop} {I P : σ → Prop} (hI : I M.init)
    (hP : P M.init)
    (hkeep : ∀ s e s', I s → P s → C s e → M.step s e = some s' → I s')
    (hiff : ∀ s e s', I s → P s → M.step s e = some s' → (P s' ↔ C s e)) {es : List ε} {s : σ}
    (h : M.run es = some s) :
    (∀ p q t, es = p ++ q → M.run p = some t → P t) ↔ M.Meets C M.init es :=
  M.forall_prefix_iff_meets_of_meets (D := fun _ _ => True)
    (fun s e s' hI hP _ => hkeep s e s' hI hP) (fun s e s' hI hP _ => hiff s e s' hI hP) hI hP
    (M.meets_of_forall_mem (C := fun _ => True) (fun _ _ => trivial)) h

/-- The equivalence rule for a property that a state keeps once it is lost: it holds after a step
exactly when it holds before it and the step satisfies `C`. -/
theorem iff_meets {C : σ → ε → Prop} {I P : σ → Prop} (hI : I M.init) (hP : P M.init)
    (hkeep : ∀ s e s', I s → M.step s e = some s' → I s')
    (hiff : ∀ s e s', I s → M.step s e = some s' → (P s' ↔ P s ∧ C s e)) {es : List ε} :
    ∀ {s : σ}, M.run es = some s → (P s ↔ M.Meets C M.init es) := by
  induction es using List.reverseRecOn with
  | nil =>
      intro s h
      cases h
      exact iff_of_true hP trivial
  | append_singleton es e ih =>
      intro s h
      obtain ⟨s₁, h₁, hstep⟩ := M.runFrom_snoc_eq_some.mp h
      rw [hiff s₁ e s (M.runFrom_inv hkeep hI h₁) hstep, ih h₁, M.meets_snoc_iff h₁]

/-! ### Simulation -/

/-- **The simulation rule.**  If every step from related states is matched by events of `N`, every
run is, up to a condition `F` on its last state that earlier states inherit; and where the steps
with `C` are matched by events with `D`, the runs that meet `C` are matched by runs that meet `D`. -/
theorem exists_run_of_simulates {τ δ : Type*} {N : Machine τ δ} {R : σ → τ → Prop}
    {F : σ → Prop} {C : σ → ε → Prop} {D : τ → δ → Prop} (hinit : R M.init N.init)
    (hback : ∀ s e s', M.step s e = some s' → F s' → F s)
    (hstep : ∀ s e s' t, R s t → F s' → M.step s e = some s' →
      ∃ ds t', N.runFrom t ds = some t' ∧ R s' t' ∧ (C s e → N.Meets D t ds)) {es : List ε} :
    ∀ {s : σ}, M.run es = some s → F s →
      ∃ ds t, N.run ds = some t ∧ R s t ∧ (M.Meets C M.init es → N.Meets D N.init ds) := by
  induction es using List.reverseRecOn with
  | nil =>
      intro s h _
      cases h
      exact ⟨[], N.init, rfl, hinit, fun _ => trivial⟩
  | append_singleton es e ih =>
      intro s' h hF
      obtain ⟨s, hs, hstep'⟩ := M.runFrom_snoc_eq_some.mp h
      obtain ⟨ds, t, ht, hR, hmeets⟩ := ih hs (hback s e s' hstep' hF)
      obtain ⟨ds', t', ht', hR', hmeets'⟩ := hstep s e s' t hR hF hstep'
      refine ⟨ds ++ ds', t', N.runFrom_append_eq_some.mpr ⟨t, ht, ht'⟩, hR', fun hm => ?_⟩
      obtain ⟨hm, hC⟩ := (M.meets_snoc_iff hs).mp hm
      exact (hmeets hm).append ht (hmeets' hC)

/-! ### Progress -/

/-- **The progress rule.**  If from every state with `I` that has not reached the goal `G` some
events with `C` lead to a smaller state with `I`, then some events with `C` lead to the goal. -/
theorem exists_runFrom_of_decreasing {α : Type*} [LT α] [WellFoundedLT α] {C : ε → Prop}
    {I G : σ → Prop} (μ : σ → α)
    (hstep : ∀ s, I s → ¬ G s → ∃ es s', (∀ e ∈ es, C e) ∧ M.runFrom s es = some s' ∧ I s' ∧
      μ s' < μ s) (s : σ) (hs : I s) :
    ∃ es s', (∀ e ∈ es, C e) ∧ M.runFrom s es = some s' ∧ I s' ∧ G s' := by
  induction hμ : μ s using WellFoundedLT.induction generalizing s with
  | ind a ih =>
      by_cases hG : G s
      · exact ⟨[], s, fun e he => absurd he List.not_mem_nil, rfl, hs, hG⟩
      · obtain ⟨es, s₁, hes, h₁, hs₁, hlt⟩ := hstep s hs hG
        obtain ⟨fs, s', hfs, h₂, hs', hG'⟩ := ih (μ s₁) (hμ ▸ hlt) s₁ hs₁ rfl
        refine ⟨es ++ fs, s', ?_, M.runFrom_append_eq_some.mpr ⟨s₁, h₁, h₂⟩, hs', hG'⟩
        intro e he
        rcases List.mem_append.mp he with he | he
        · exact hes e he
        · exact hfs e he

/-! ### Outputs -/

section outputs

variable {ω : Type*} (out : σ → ε → Option ω)

/-- What the steps of a run put out. -/
def outputsFrom (s : σ) : List ε → List ω
  | [] => []
  | e :: es =>
      match M.step s e with
      | none => []
      | some s' => (out s e).toList ++ outputsFrom s' es

theorem outputsFrom_cons {s s' : σ} {e : ε} (h : M.step s e = some s') (es : List ε) :
    M.outputsFrom out s (e :: es) = (out s e).toList ++ M.outputsFrom out s' es := by
  rw [outputsFrom, h]

theorem outputsFrom_append {es : List ε} :
    ∀ {s s' : σ}, M.runFrom s es = some s' → ∀ fs,
      M.outputsFrom out s (es ++ fs) = M.outputsFrom out s es ++ M.outputsFrom out s' fs := by
  induction es with
  | nil =>
      intro s s' h fs
      cases h
      rfl
  | cons e es ih =>
      intro s s' h fs
      obtain ⟨s₁, h₁, h₂⟩ := M.runFrom_cons_eq_some.mp h
      rw [List.cons_append, M.outputsFrom_cons out h₁, M.outputsFrom_cons out h₁, ih h₂,
        List.append_assoc]

/-- **The output rule.**  In a run that meets `C` and ends in a state with `F`, which earlier states
inherit, the steps put out what they may put out from states with `I`. -/
theorem forall_outputsFrom {C : σ → ε → Prop} {I F : σ → Prop} {P : ω → Prop}
    (hback : ∀ s e s', M.step s e = some s' → F s' → F s)
    (hstep : ∀ s e s', I s → C s e → F s' → M.step s e = some s' →
      I s' ∧ ∀ x ∈ out s e, P x) {es : List ε} :
    ∀ {s s' : σ}, I s → M.Meets C s es → M.runFrom s es = some s' → F s' →
      ∀ x ∈ M.outputsFrom out s es, P x := by
  induction es with
  | nil =>
      intro s s' _ _ _ _ x hx
      cases hx
  | cons e es ih =>
      intro s s' hI hm h hF x hx
      obtain ⟨s₁, h₁, h₂⟩ := M.runFrom_cons_eq_some.mp h
      obtain ⟨hI₁, hout⟩ := hstep s e s₁ hI hm.1 (M.of_runFrom hback h₂ hF) h₁
      rw [M.outputsFrom_cons out h₁] at hx
      rcases List.mem_append.mp hx with hx | hx
      · exact hout x (Option.mem_toList.mp hx)
      · exact ih hI₁ (hm.2 s₁ h₁) h₂ hF x hx

end outputs

end Machine

end Vtrc
