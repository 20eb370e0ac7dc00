import Vtrc.Observer.Base

/-! # What an emit runs

`Signal` says what a signal is for: it has live subscriptions, and an emit gives each of those that
are there when it starts a turn, in order, unless it is unsubscribed before its turn comes.  While
the slots neither emit nor clear, an observer refines it (`signal_step`): the live subscriptions are
the nodes of both lists whose ids are not removed, and the turns to come are those of them that the
iterator has before it.

`emits_exact` puts this in terms of the history alone, for histories in which `id_` does not come
round. -/

namespace Vtrc

namespace Observer

variable {α : Type*}

/-! ### Signals without lists -/

/-- The live subscriptions (the number and the slot of each), the turns to come of the emit that
goes on, and the number of subscriptions so far. -/
structure Signal (α : Type*) where
  live : List (ℕ × α)
  turns : Option (List (ℕ × α))
  made : ℕ

/-- The subscriptions of a list without the one with the number. -/
def without (n : ℕ) (xs : List (ℕ × α)) : List (ℕ × α) := xs.filter (fun x => x.1 ≠ n)

/-- A step of a signal, with the subscription whose slot it runs. -/
inductive Signal.Step : Signal α → Event α → Option (ℕ × α) → Signal α → Prop
  | subscribe (σ : Signal α) (slot : α) :
      Step σ (.subscribe slot) none
        { σ with live := σ.live ++ [(σ.made, slot)], made := σ.made + 1 }
  | unsubscribe (σ : Signal α) {n : ℕ} (h : n < σ.made) :
      Step σ (.unsubscribe n) none
        { σ with live := without n σ.live, turns := σ.turns.map (without n) }
  | emit (σ : Signal α) (h : σ.turns = none) :
      Step σ .emit none { σ with turns := some σ.live }
  | run (σ : Signal α) {x : ℕ × α} {xs : List (ℕ × α)} (h : σ.turns = some (x :: xs)) :
      Step σ .turn (some x) { σ with turns := some xs }
  | pass (σ : Signal α) : Step σ .turn none σ
  | slotReturns (σ : Signal α) : Step σ .slotReturns none σ
  | emitEnds (σ : Signal α) (h : σ.turns = some []) : Step σ .emitEnds none { σ with turns := none }

/-! ### The signal of an observer -/

def Node.subscription (x : Node α) : ℕ × α := (x.serial, x.slot)

/-- Whether the turn of a node is still to come in the loop. -/
def Loop.ahead : Loop → ℕ → Bool
  | .looking none, _ => false
  | .looking (some n), m => decide (n ≤ m)
  | .running n, m => decide (n < m)

def live (s : Observer α) : List (ℕ × α) :=
  ((s.list ++ s.added).filter (fun x => !s.removed.contains x.id)).map Node.subscription

def turns (s : Observer α) : Option (List (ℕ × α)) :=
  s.loops.head?.map (fun l =>
    (s.list.filter (fun x => l.ahead x.serial && !s.removed.contains x.id)).map Node.subscription)

def signal (s : Observer α) : Signal α := ⟨s.live, s.turns, s.subscriptions.length⟩

/-- The subscription whose slot a step runs. -/
def ran (s : Observer α) : Event α → Option (ℕ × α)
  | .turn =>
      match s.loops with
      | .looking (some n) :: _ => (nodeAt s.list n).bind (fun b =>
          if s.removed.contains b.id then none else some b.subscription)
      | _ => none
  | _ => none

/-- The slots neither emit nor clear. -/
def Quiet (s : Observer α) : Event α → Prop
  | .unsubscribeAll => False
  | .emit => s.loops = []
  | _ => True

/-- No node of `added_` is removed, and there is at most one loop. -/
def Plain (s : Observer α) : Prop :=
  (∀ x ∈ s.added, s.removed.contains x.id = false) ∧ s.loops.tail = []

variable {w : ℕ} {s s' : Observer α}

/-! ### The iterator and the turns to come -/

theorem ahead_next {lst : List (Node α)} (h : InOrder lst) {n : ℕ} {b x : Node α}
    (hb : nodeAt lst n = some b) (hx : x ∈ lst) :
    (Loop.looking (next lst n)).ahead x.serial = (Loop.running n).ahead x.serial := by
  rw [next_eq h hb]
  have hlater : n < x.serial ↔ x ∈ lst.filter (fun y => n < y.serial) := by simp [hx]
  have hsorted := List.Pairwise.filter (fun y => decide (n < y.serial)) h
  cases hrest : lst.filter (fun y => n < y.serial) with
  | nil =>
      rw [hrest] at hlater
      symm
      exact decide_eq_false (by simpa using hlater)
  | cons c cs =>
      rw [hrest] at hlater hsorted
      have hc : n < c.serial := by
        have hmem : c ∈ lst.filter (fun y => n < y.serial) := by
          rw [hrest]
          exact List.mem_cons_self
        simpa using (List.mem_filter.mp hmem).2
      unfold Loop.ahead
      simp only [List.head?_cons, Option.map_some, decide_eq_decide]
      rw [hlater]
      constructor
      · intro hle
        rw [← hlater]
        omega
      · intro hmem
        cases List.mem_cons.mp hmem with
        | inl heq => rw [heq]
        | inr hmem => exact le_of_lt ((List.pairwise_cons.mp hsorted).1 x hmem)

theorem ahead_head {lst : List (Node α)} (h : InOrder lst) {x : Node α} (hx : x ∈ lst) :
    (Loop.looking (lst.head?.map (·.serial))).ahead x.serial = true := by
  cases lst with
  | nil => cases hx
  | cons b bs =>
      unfold Loop.ahead
      simp only [List.head?_cons, Option.map_some, decide_eq_true_eq]
      cases List.mem_cons.mp hx with
      | inl heq => rw [heq]
      | inr hx => exact le_of_lt ((List.pairwise_cons.mp h).1 x hx)

theorem filter_ahead {lst : List (Node α)} (h : InOrder lst) {n : ℕ} {b : Node α}
    (hb : nodeAt lst n = some b) {p : Node α → Bool} (hp : p b = true) :
    lst.filter (fun x => (Loop.looking (some n)).ahead x.serial && p x) =
      b :: lst.filter (fun x => (Loop.running n).ahead x.serial && p x) := by
  induction lst with
  | nil => cases hb
  | cons x xs ih =>
      obtain ⟨hx, hxs⟩ := List.pairwise_cons.mp h
      unfold nodeAt at hb
      by_cases heq : x.serial = n
      · rw [List.find?_cons_of_pos (by simpa using heq)] at hb
        cases hb
        rw [List.filter_cons_of_pos (by simp [Loop.ahead, heq, hp]),
          List.filter_cons_of_neg (by simp [Loop.ahead, heq])]
        congr 1
        apply List.filter_congr
        intro y hy
        have := hx y hy
        have hle : n ≤ y.serial := by omega
        have hlt : n < y.serial := by omega
        simp [Loop.ahead, hle, hlt]
      · rw [List.find?_cons_of_neg (by simpa using heq)] at hb
        have hlt : x.serial < n := by
          obtain ⟨hmem, hserial⟩ := mem_of_nodeAt hb
          have := hx b hmem
          omega
        rw [List.filter_cons_of_neg (by simp [Loop.ahead, Nat.not_le.mpr hlt]), ih hxs hb,
          List.filter_cons_of_neg (by simp [Loop.ahead]; omega)]

/-! ### The steps -/

theorem Keyed.key (h : s.Keyed w) (hlt : s.subscriptions.length < 2 ^ w) {n key : ℕ}
    (hkey : s.subscriptions[n]? = some key) : n < s.subscriptions.length ∧ key = n + 1 := by
  obtain ⟨hn, _⟩ := List.getElem?_eq_some_iff.mp hkey
  refine ⟨hn, ?_⟩
  rw [h.keys n key hkey, Nat.mod_eq_of_lt (by omega)]

theorem Keyed.contains_new (h : s.Keyed w) (hlt : s.subscriptions.length + 1 < 2 ^ w) :
    s.removed.contains s.id = false := by
  cases hc : s.removed.contains s.id with
  | false => rfl
  | true =>
      obtain ⟨i, hi, heq⟩ := h.removed _ hc
      rw [h.id, Nat.mod_eq_of_lt hlt, Nat.mod_eq_of_lt (by omega)] at heq
      omega

theorem without_map (n : ℕ) (lst : List (Node α)) :
    without n (lst.map Node.subscription) =
      (lst.filter (fun x => x.serial ≠ n)).map Node.subscription := by
  unfold without
  rw [List.filter_map]
  rfl

theorem signal_subscribe (h : s.Keyed w) (hp : s.Plain) (slot : α)
    (hlt : s.subscriptions.length + 1 < 2 ^ w) :
    Signal.Step s.signal (.subscribe slot) none (s.connect w slot).signal ∧
      (s.connect w slot).Plain := by
  have hnew := h.contains_new hlt
  have hsignal : (s.connect w slot).signal =
      { s.signal with
        live := s.signal.live ++ [(s.signal.made, slot)], made := s.signal.made + 1 } := by
    unfold signal live connect
    simp [hnew, Node.subscription, turns]
  refine ⟨hsignal ▸ .subscribe s.signal slot, ?_, hp.2⟩
  intro x hx
  unfold connect at hx ⊢
  cases List.mem_append.mp hx with
  | inl hx => exact hp.1 x hx
  | inr hx =>
      rw [List.mem_singleton.mp hx]
      exact hnew

theorem signal_unsubscribe (h : s.Keyed w) (hp : s.Plain) (hlt : s.subscriptions.length < 2 ^ w)
    {n key : ℕ} (hkey : s.subscriptions[n]? = some key) :
    Signal.Step s.signal (.unsubscribe n) none (s.unsubscribe key).signal ∧
      (s.unsubscribe key).Plain := by
  obtain ⟨hn, rfl⟩ := h.key hlt hkey
  have hid : ∀ x ∈ s.list ++ s.added, x.id = n + 1 ↔ x.serial = n := by
    intro x hx
    rw [h.node_id hlt hx]
    omega
  have hinc : Increasing s.added :=
    (h.increasing hlt).sublist (List.sublist_append_right _ _)
  have hlive : (s.unsubscribe (n + 1)).live = without n s.live := by
    unfold live unsubscribe
    simp only
    rw [removeByIndex_eq hinc, without_map, List.filter_filter, List.filter_append,
      List.filter_append, List.filter_filter]
    congr 2
    · apply List.filter_congr
      intro x hx
      have := hid x (List.mem_append_left _ hx)
      rw [Bool.eq_iff_iff]
      simp
      tauto
    · apply List.filter_congr
      intro x hx
      have := hid x (List.mem_append_right _ hx)
      rw [Bool.eq_iff_iff]
      simp
      tauto
  have hturns : (s.unsubscribe (n + 1)).turns = s.turns.map (without n) := by
    unfold turns unsubscribe
    simp only [Option.map_map]
    congr 1
    funext l
    simp only [Function.comp_apply]
    rw [without_map, List.filter_filter]
    congr 1
    apply List.filter_congr
    intro x hx
    have := hid x (List.mem_append_left _ hx)
    rw [Bool.eq_iff_iff]
    simp
    tauto
  have hsignal : (s.unsubscribe (n + 1)).signal =
      { s.signal with
        live := without n s.signal.live, turns := s.signal.turns.map (without n) } := by
    unfold signal
    rw [hlive, hturns]
    rfl
  refine ⟨hsignal ▸ .unsubscribe s.signal hn, ?_, hp.2⟩
  intro x hx
  unfold unsubscribe at hx ⊢
  simp only at hx ⊢
  rw [removeByIndex_eq hinc, List.mem_filter] at hx
  rw [IdSet.contains_insert, hp.1 x hx.1, Bool.or_false]
  simpa using hx.2

theorem signal_emit (h : s.Keyed w) (hloops : s.loops = []) :
    Signal.Step s.signal .emit none s.startEmit.signal ∧ s.startEmit.Plain := by
  have hsignal : s.startEmit.signal = { s.signal with turns := some s.signal.live } := by
    unfold signal live turns startEmit
    simp only [List.append_nil, List.head?_cons, Option.map_some]
    congr 3
    apply List.filter_congr
    intro x hx
    rw [ahead_head h.order hx, Bool.true_and]
  have hnone : s.signal.turns = none := by
    unfold signal turns
    rw [hloops]
    rfl
  refine ⟨hsignal ▸ .emit s.signal hnone, ?_, hloops⟩
  intro x hx
  cases hx

theorem signal_turn (h : s.Keyed w) (hp : s.Plain) (hlt : s.subscriptions.length < 2 ^ w)
    (hst : s.step w .turn = some s') :
    Signal.Step s.signal .turn (s.ran .turn) s'.signal ∧ s'.Plain := by
  obtain ⟨n, outer, b, hloops, hb, hcase⟩ := step_turn hst
  have horder : InOrder s.list := h.order.sublist (List.sublist_append_left _ _)
  have htail : outer = [] := by
    have := hp.2
    rwa [hloops] at this
  obtain ⟨hmem, hserial⟩ := mem_of_nodeAt hb
  obtain ⟨hc, rfl⟩ | ⟨hc, rfl⟩ := hcase
  · -- the node is unlinked: its turn was lost when it was unsubscribed
    have hran : s.ran .turn = none := by
      unfold ran
      simp [hloops, hb, hc]
    have hid : ∀ x ∈ s.list ++ s.added, x.id = b.id ↔ x.serial = n := by
      intro x hx
      rw [h.node_id hlt hx, h.node_id hlt (List.mem_append_left _ hmem)]
      omega
    have hlist : ∀ x ∈ s.list, x.serial ≠ n →
        (s.removed.erase b.id).contains x.id = s.removed.contains x.id := by
      intro x hx hne
      rw [IdSet.contains_erase, decide_eq_true, Bool.and_true]
      exact mt (hid x (List.mem_append_left _ hx)).mp hne
    have hself : ∀ x ∈ s.list, x.serial = n → s.removed.contains x.id = true := by
      intro x hx heq
      rwa [(hid x (List.mem_append_left _ hx)).mpr heq]
    have hlive : live { s with
        removed := s.removed.erase b.id
        list := unlink s.list n
        loops := .looking (next s.list n) :: outer } = s.live := by
      unfold live
      simp only
      rw [unlink_eq horder, List.filter_append, List.filter_append, List.filter_filter]
      congr 2
      · apply List.filter_congr
        intro x hx
        by_cases hx' : x.serial = n
        · simp [hself x hx hx', hx']
        · simp [hlist x hx hx', hx']
      · apply List.filter_congr
        intro x hx
        rw [IdSet.contains_erase, hp.1 x hx, Bool.false_and]
    have hturns : turns { s with
        removed := s.removed.erase b.id
        list := unlink s.list n
        loops := .looking (next s.list n) :: outer } = s.turns := by
      unfold turns
      rw [hloops, unlink_eq horder]
      simp only [List.head?_cons, Option.map_some]
      rw [List.filter_filter]
      congr 2
      apply List.filter_congr
      intro x hx
      rw [ahead_next horder hb hx]
      unfold Loop.ahead
      by_cases hx' : x.serial = n
      · simp [hself x hx hx', hx']
      · have hle : n ≤ x.serial ↔ n < x.serial := by omega
        simp [hlist x hx hx', hx', hle]
    have hsignal : signal { s with
        removed := s.removed.erase b.id
        list := unlink s.list n
        loops := .looking (next s.list n) :: outer } = s.signal := by
      unfold signal
      rw [hlive, hturns]
    refine ⟨?_, ?_, by rw [htail]; rfl⟩
    · rw [hran, hsignal]
      exact .pass s.signal
    · intro x hx
      rw [IdSet.contains_erase, hp.1 x hx]
      rfl
  · have hran : s.ran .turn = some b.subscription := by
      unfold ran
      simp [hloops, hb, hc]
    have hturns : s.signal.turns = some (b.subscription ::
        (s.list.filter (fun x => (Loop.running n).ahead x.serial &&
          !s.removed.contains x.id)).map Node.subscription) := by
      unfold signal turns
      rw [hloops]
      simp only [List.head?_cons, Option.map_some]
      rw [filter_ahead horder hb (by simp [hc]), List.map_cons]
    refine ⟨?_, hp.1, by rw [htail]; rfl⟩
    rw [hran]
    exact .run s.signal hturns

theorem signal_slotReturns (h : s.Keyed w) (hp : s.Plain)
    (hst : s.step w .slotReturns = some s') :
    Signal.Step s.signal .slotReturns none s'.signal ∧ s'.Plain := by
  obtain ⟨n, outer, b, hloops, hb, rfl⟩ := step_slotReturns hst
  have horder : InOrder s.list := h.order.sublist (List.sublist_append_left _ _)
  have hsignal : signal { s with loops := .looking (next s.list n) :: outer } = s.signal := by
    unfold signal live turns
    rw [hloops]
    simp only [List.head?_cons, Option.map_some]
    congr 3
    apply List.filter_congr
    intro x hx
    rw [ahead_next horder hb hx]
  refine ⟨hsignal.symm ▸ .slotReturns s.signal, hp.1, ?_⟩
  have htail := hp.2
  rw [hloops] at htail
  exact htail

theorem signal_emitEnds (h : s.Keyed w) (hp : s.Plain) (hlt : s.subscriptions.length < 2 ^ w)
    (hst : s.step w .emitEnds = some s') :
    Signal.Step s.signal .emitEnds none s'.signal ∧ s'.Plain := by
  obtain ⟨outer, hloops, rfl⟩ := step_emitEnds hst
  have htail : outer = [] := by
    have := hp.2
    rwa [hloops] at this
  have hinc : Increasing s.list := (h.increasing hlt).sublist (List.sublist_append_left _ _)
  have hturns : s.signal.turns = some [] := by
    unfold signal turns
    rw [hloops]
    simp [Loop.ahead]
  have hsignal : signal { s with
      removed := .empty
      list := clearRemoved s.removed.ids s.list
      loops := outer } = { s.signal with turns := none } := by
    unfold signal live turns
    simp only [htail, List.head?_nil, Option.map_none]
    congr 2
    rw [clearRemoved_eq s.removed.sorted hinc, List.filter_append, List.filter_append,
      List.filter_filter]
    congr 1
    · apply List.filter_congr
      intro x hx
      rw [IdSet.contains_empty]
      simp [IdSet.contains]
    · apply List.filter_congr
      intro x hx
      rw [hp.1 x hx]
      rfl
  refine ⟨hsignal ▸ .emitEnds s.signal hturns, fun x _ => rfl, ?_⟩
  simp only [htail, List.tail_nil]

/-- **An observer refines its signal**, step by step. -/
theorem signal_step (h : s.Keyed w) (hp : s.Plain) {e : Event α} (hq : s.Quiet e)
    (hst : s.step w e = some s') (hlt : s'.subscriptions.length < 2 ^ w) :
    Signal.Step s.signal e (s.ran e) s'.signal ∧ s'.Plain := by
  have hlength := length_step hst
  cases e with
  | subscribe slot =>
      cases hst
      exact signal_subscribe h hp slot (hlength ▸ hlt)
  | unsubscribe n =>
      obtain ⟨key, hkey, rfl⟩ := step_unsubscribe hst
      exact signal_unsubscribe h hp hlt hkey
  | unsubscribeAll => exact hq.elim
  | emit =>
      obtain ⟨_, rfl⟩ := step_emit hst
      exact signal_emit h hq
  | turn => exact signal_turn h hp (by omega) hst
  | slotReturns => exact signal_slotReturns h hp hst
  | emitEnds => exact signal_emitEnds h hp (by omega) hst

/-! ### Runs of a signal -/

/-- A run of a signal: its events, and the subscriptions whose slots it runs. -/
inductive Signal.Run : Signal α → List (Event α) → List (ℕ × α) → Signal α → Prop
  | nil (σ : Signal α) : Run σ [] [] σ
  | cons {σ σ₁ σ' : Signal α} {e : Event α} {es : List (Event α)} {o : Option (ℕ × α)}
      {xs : List (ℕ × α)} (h : Step σ e o σ₁) (hr : Run σ₁ es xs σ') :
      Run σ (e :: es) (o.toList ++ xs) σ'

def Event.unsubscribes (n : ℕ) : Event α → Bool
  | .unsubscribe m => decide (m = n)
  | _ => false

/-- The subscriptions of some events, the first one having the number `n`, without those that are
unsubscribed. -/
def subscribedFrom (n : ℕ) (es : List (Event α)) : List (ℕ × α) :=
  (((slots es).zipIdx n).map Prod.swap).filter (fun x => !es.any (Event.unsubscribes x.1))

/-- The subscriptions that a history leaves. -/
def subscribed (es : List (Event α)) : List (ℕ × α) := subscribedFrom 0 es

theorem subscribedFrom_subscribe (n : ℕ) (slot : α) (es : List (Event α)) :
    subscribedFrom n (.subscribe slot :: es) =
      [(n, slot)].filter (fun x => !es.any (Event.unsubscribes x.1)) ++
        subscribedFrom (n + 1) es := by
  have hslots : ((slots (.subscribe slot :: es)).zipIdx n).map Prod.swap =
      [(n, slot)] ++ ((slots es).zipIdx (n + 1)).map Prod.swap := rfl
  unfold subscribedFrom
  rw [hslots, List.filter_append]
  rfl

theorem subscribedFrom_unsubscribe {m n : ℕ} (h : m < n) (es : List (Event α)) :
    subscribedFrom n (.unsubscribe m :: es) = subscribedFrom n es := by
  unfold subscribedFrom
  apply List.filter_congr
  intro x hx
  obtain ⟨y, hy, rfl⟩ := List.mem_map.mp hx
  have hle := List.le_snd_of_mem_zipIdx hy
  rw [List.any_cons]
  unfold Event.unsubscribes
  simp only [Prod.fst_swap]
  rw [decide_eq_false (by omega), Bool.false_or]

namespace Signal

/-- The subscription is neither live nor does it wait for its turn. -/
def Lost (n : ℕ) (σ : Signal α) : Prop :=
  n < σ.made ∧ (∀ x ∈ σ.live, x.1 ≠ n) ∧ ∀ xs ∈ σ.turns, ∀ x ∈ xs, x.1 ≠ n

theorem Lost.step {n : ℕ} {σ σ' : Signal α} {e : Event α} {o : Option (ℕ × α)} (h : σ.Lost n)
    (hst : Step σ e o σ') : σ'.Lost n ∧ ∀ x ∈ o, x.1 ≠ n := by
  obtain ⟨hmade, hlive, hturns⟩ := h
  cases hst with
  | subscribe slot =>
      refine ⟨⟨?_, ?_, hturns⟩, fun x hx => (by cases hx)⟩
      · simp only
        omega
      · intro x hx
        cases List.mem_append.mp hx with
        | inl hx => exact hlive x hx
        | inr hx =>
            rw [List.mem_singleton.mp hx]
            simp only
            omega
  | unsubscribe hn =>
      refine ⟨⟨hmade, fun x hx => hlive x ((List.mem_filter.mp hx).1), ?_⟩,
        fun x hx => (by cases hx)⟩
      intro xs hxs x hx
      obtain ⟨ys, hys, rfl⟩ := Option.map_eq_some_iff.mp hxs
      exact hturns ys hys x ((List.mem_filter.mp hx).1)
  | emit hnone =>
      refine ⟨⟨hmade, hlive, ?_⟩, fun x hx => (by cases hx)⟩
      intro xs hxs
      cases hxs
      exact hlive
  | run hsome =>
      have hall := hturns _ hsome
      refine ⟨⟨hmade, hlive, ?_⟩, ?_⟩
      · intro xs hxs x hx
        cases hxs
        exact hall x (List.mem_cons_of_mem _ hx)
      · intro x hx
        cases hx
        exact hall _ List.mem_cons_self
  | pass => exact ⟨⟨hmade, hlive, hturns⟩, fun x hx => (by cases hx)⟩
  | slotReturns => exact ⟨⟨hmade, hlive, hturns⟩, fun x hx => (by cases hx)⟩
  | emitEnds hsome =>
      refine ⟨⟨hmade, hlive, ?_⟩, fun x hx => (by cases hx)⟩
      intro xs hxs
      cases hxs

theorem Lost.run {n : ℕ} {σ σ' : Signal α} {es : List (Event α)} {xs : List (ℕ × α)}
    (hr : Run σ es xs σ') (h : σ.Lost n) : ∀ x ∈ xs, x.1 ≠ n := by
  induction hr with
  | nil σ =>
      intro x hx
      cases hx
  | cons hst _ ih =>
      obtain ⟨hlost, hout⟩ := h.step hst
      intro x hx
      cases List.mem_append.mp hx with
      | inl hx => exact hout x (Option.mem_toList.mp hx)
      | inr hx => exact ih hlost x hx

/-- An emit that goes on: what it has run and what it has before it are turns it had before it, in
their order, and a turn that is neither was lost by an `unsubscribe`. -/
theorem Run.turns {σ σ' : Signal α} {es : List (Event α)} {xs : List (ℕ × α)}
    (hr : Run σ es xs σ') (hends : ∀ e ∈ es, e ≠ .emitEnds) {ts : List (ℕ × α)}
    (hts : σ.turns = some ts) :
    ∃ ts', σ'.turns = some ts' ∧ (xs ++ ts').Sublist ts ∧
      ∀ x ∈ ts, x ∈ xs ∨ x ∈ ts' ∨ .unsubscribe x.1 ∈ es := by
  induction hr generalizing ts with
  | nil σ => exact ⟨ts, hts, List.Sublist.refl _, fun x hx => .inr (.inl hx)⟩
  | cons hst hr ih =>
      obtain ⟨hhead, htail⟩ := List.forall_mem_cons.mp hends
      cases hst with
      | subscribe slot =>
          obtain ⟨ts', hts', hsub, hall⟩ := ih htail hts
          refine ⟨ts', hts', hsub, fun x hx => ?_⟩
          have := hall x hx
          tauto
      | unsubscribe hn =>
          rename_i n
          obtain ⟨ts', hts', hsub, hall⟩ := ih htail (Option.map_eq_some_iff.mpr ⟨ts, hts, rfl⟩)
          refine ⟨ts', hts', hsub.trans List.filter_sublist, fun x hx => ?_⟩
          by_cases hx' : x.1 = n
          · right
            right
            rw [hx']
            exact List.mem_cons_self
          · have := hall x (List.mem_filter.mpr ⟨hx, by simpa using hx'⟩)
            rw [List.mem_cons]
            tauto
      | emit hnone =>
          rw [hnone] at hts
          cases hts
      | run hsome =>
          cases hts.symm.trans hsome
          obtain ⟨ts', hts', hsub, hall⟩ := ih htail rfl
          refine ⟨ts', hts', hsub.cons_cons _, fun x hx => ?_⟩
          rw [Option.toList_some, List.singleton_append, List.mem_cons, List.mem_cons]
          cases List.mem_cons.mp hx with
          | inl heq => exact .inl (.inl heq)
          | inr hx =>
              have := hall x hx
              tauto
      | pass =>
          obtain ⟨ts', hts', hsub, hall⟩ := ih htail hts
          refine ⟨ts', hts', hsub, fun x hx => ?_⟩
          have := hall x hx
          tauto
      | slotReturns =>
          obtain ⟨ts', hts', hsub, hall⟩ := ih htail hts
          refine ⟨ts', hts', hsub, fun x hx => ?_⟩
          have := hall x hx
          tauto
      | emitEnds hsome => exact absurd rfl hhead

theorem Run.live {σ σ' : Signal α} {es : List (Event α)} {xs : List (ℕ × α)}
    (hr : Run σ es xs σ') :
    σ'.live = (σ.live.filter (fun x => !es.any (Event.unsubscribes x.1))) ++
      subscribedFrom σ.made es := by
  induction hr with
  | nil σ =>
      symm
      unfold subscribedFrom slots
      rw [List.zipIdx_nil, List.map_nil, List.filter_nil, List.append_nil, List.filter_eq_self]
      simp
  | cons hst hr ih =>
      rw [ih]
      cases hst with
      | subscribe slot =>
          rw [subscribedFrom_subscribe, List.filter_append, List.append_assoc]
          rfl
      | unsubscribe hn =>
          rw [subscribedFrom_unsubscribe hn]
          congr 1
          unfold without
          rw [List.filter_filter]
          apply List.filter_congr
          intro x hx
          rw [List.any_cons, Bool.not_or, Bool.and_comm]
          unfold Event.unsubscribes
          simp [eq_comm]
      | emit | run | pass | slotReturns | emitEnds => rfl

end Signal

/-! ### Runs of an observer -/

/-- The subscriptions whose slots a run of an observer runs, in order. -/
def ranFrom (w : ℕ) (s : Observer α) (es : List (Event α)) : List (ℕ × α) :=
  (observer α w).outputsFrom ran s es

/-- **An observer refines its signal**, run by run. -/
theorem signal_run {es : List (Event α)} :
    ∀ {s s' : Observer α}, s.Keyed w → s.Plain → (observer α w).Meets Quiet s es →
      (observer α w).runFrom s es = some s' → s'.subscriptions.length < 2 ^ w →
      Signal.Run s.signal es (ranFrom w s es) s'.signal ∧ s'.Keyed w ∧ s'.Plain := by
  induction es with
  | nil =>
      intro s s' hk hp _ h _
      cases h
      exact ⟨.nil _, hk, hp⟩
  | cons e es ih =>
      intro s s' hk hp hq h hlt
      obtain ⟨s₁, h₁, h₂⟩ := (observer α w).runFrom_cons_eq_some.mp h
      have hlength := length_run h₂
      obtain ⟨hstep, hp₁⟩ := signal_step hk hp hq.1 h₁ (by omega)
      obtain ⟨hr, hkeyed, hplain⟩ := ih (hk.step h₁) hp₁ (hq.2 s₁ h₁) h₂ hlt
      refine ⟨?_, hkeyed, hplain⟩
      unfold ranFrom
      rw [(observer α w).outputsFrom_cons ran h₁]
      exact .cons hstep hr

theorem plain_init (α : Type*) (w : ℕ) : (observer α w).init.Plain := by
  refine ⟨?_, rfl⟩
  intro x hx
  cases hx

instance decidableQuiet (s : Observer α) : (e : Event α) → Decidable (s.Quiet e)
  | .unsubscribeAll => inferInstanceAs (Decidable False)
  | .emit => inferInstanceAs (Decidable (s.loops = []))
  | .subscribe _ | .unsubscribe _ | .turn | .slotReturns | .emitEnds =>
      inferInstanceAs (Decidable True)

theorem reached {es : List (Event α)} (hq : (observer α w).Meets Quiet (observer α w).init es)
    (h : (observer α w).run es = some s) (hlt : s.subscriptions.length < 2 ^ w) :
    s.Keyed w ∧ s.Plain ∧ s.live = subscribed es := by
  obtain ⟨hr, hkeyed, hplain⟩ := signal_run (keyed_init α w) (plain_init α w) hq h hlt
  refine ⟨hkeyed, hplain, ?_⟩
  exact hr.live

theorem live_ordered (h : s.Keyed w) : s.live.Pairwise (fun x y => x.1 < y.1) := by
  unfold live
  rw [List.pairwise_map]
  exact h.order.filter _

theorem Signal.Step.lost {n : ℕ} {σ σ' : Signal α} {o : Option (ℕ × α)}
    (h : Step σ (.unsubscribe n) o σ') : σ'.Lost n := by
  cases h with
  | unsubscribe hn =>
      refine ⟨hn, ?_, ?_⟩
      · intro x hx
        simpa using (List.mem_filter.mp hx).2
      · intro xs hxs x hx
        obtain ⟨ys, _, rfl⟩ := Option.map_eq_some_iff.mp hxs
        simpa using (List.mem_filter.mp hx).2

theorem ran_after_unsubscribe {n : ℕ} {post : List (Event α)} {t t' : Observer α}
    (hk : s.Keyed w) (hp : s.Plain) (hq : (observer α w).Meets Quiet s (.unsubscribe n :: post))
    (hstep : s.step w (.unsubscribe n) = some t)
    (hpost : (observer α w).runFrom t post = some t') (hlt : t'.subscriptions.length < 2 ^ w) :
    ∀ x ∈ ranFrom w t post, x.1 ≠ n := by
  have hlength := length_run hpost
  obtain ⟨hsignal, hplain⟩ := signal_step hk hp hq.1 hstep (by omega)
  obtain ⟨hr, _, _⟩ := signal_run (hk.step hstep) hplain (hq.2 t hstep) hpost hlt
  exact Signal.Lost.run hr hsignal.lost

theorem ran_before_unsubscribe {m₁ m₂ : List (Event α)} {t t₁ t₂ : Observer α} {x : ℕ × α}
    (hk : t.Keyed w) (hp : t.Plain)
    (hq : (observer α w).Meets Quiet t (.emit :: (m₁ ++ .unsubscribe x.1 :: m₂)))
    (h₁ : t.step w .emit = some t₁)
    (h₂ : (observer α w).runFrom t₁ (m₁ ++ .unsubscribe x.1 :: m₂) = some t₂)
    (hlt : t₂.subscriptions.length < 2 ^ w)
    (hx : x ∈ ranFrom w t (.emit :: (m₁ ++ .unsubscribe x.1 :: m₂))) :
    x ∈ ranFrom w t (.emit :: m₁) := by
  obtain ⟨t₃, hm₁, hm₂⟩ := (observer α w).runFrom_append_eq_some.mp h₂
  obtain ⟨t₄, h₄, hm₂⟩ := (observer α w).runFrom_cons_eq_some.mp hm₂
  have hstep : t₃.step w (.unsubscribe x.1) = some t₄ := h₄
  have hemit : (observer α w).runFrom t (.emit :: m₁) = some t₃ :=
    (observer α w).runFrom_cons_eq_some.mpr ⟨t₁, h₁, hm₁⟩
  have := length_run hm₂
  have := length_step hstep
  rw [← List.cons_append] at hq hx
  unfold ranFrom at hx
  rw [(observer α w).outputsFrom_append ran hemit, (observer α w).outputsFrom_cons ran h₄] at hx
  cases List.mem_append.mp hx with
  | inl hx => exact hx
  | inr hlate =>
      obtain ⟨_, hk₃, hp₃⟩ := signal_run hk hp hq.of_append hemit (by omega)
      have hne := ran_after_unsubscribe hk₃ hp₃ (hq.of_append_right hemit) hstep hm₂ hlt
      exact absurd rfl (hne x hlate)

theorem ran_emit {mid : List (Event α)} {t t₁ t₂ t₃ : Observer α} (hk : t.Keyed w) (hp : t.Plain)
    (hq : (observer α w).Meets Quiet t (.emit :: mid)) (h₁ : t.step w .emit = some t₁)
    (h₂ : (observer α w).runFrom t₁ mid = some t₂) (h₃ : t₂.step w .emitEnds = some t₃)
    (hends : ∀ e ∈ mid, e ≠ .emitEnds) (hlt : t₂.subscriptions.length < 2 ^ w) :
    (ranFrom w t (.emit :: mid)).Sublist t.live ∧
      ∀ x ∈ t.live, x ∈ ranFrom w t (.emit :: mid) ∨ .unsubscribe x.1 ∈ mid := by
  have hlength := length_run h₂
  have hran : ranFrom w t (.emit :: mid) = ranFrom w t₁ mid :=
    (observer α w).outputsFrom_cons ran (show (observer α w).step t .emit = some t₁ from h₁) mid
  obtain ⟨hemit, hplain⟩ := signal_step hk hp hq.1 h₁ (by omega)
  obtain ⟨hr, hk₂, hp₂⟩ := signal_run (hk.step h₁) hplain (hq.2 t₁ h₁) h₂ hlt
  have hturns : t₁.signal.turns = some t.live := by
    have hsignal : ∀ o σ, Signal.Step t.signal .emit o σ → σ.turns = some t.live := by
      intro o σ h
      cases h
      rfl
    exact hsignal _ _ hemit
  obtain ⟨ts, hts, hsub, hall⟩ := hr.turns hends hturns
  have hdone : t₂.signal.turns = some [] := by
    have hsignal : ∀ o σ, Signal.Step t₂.signal .emitEnds o σ → t₂.signal.turns = some [] := by
      intro o σ h
      cases h
      assumption
    have hlength := length_step h₃
    have hq₃ : t₂.Quiet .emitEnds := trivial
    exact hsignal _ _ (signal_step hk₂ hp₂ hq₃ h₃ (hlength ▸ hlt)).1
  cases hts.symm.trans hdone
  rw [List.append_nil] at hsub
  rw [hran]
  refine ⟨hsub, fun x hx => ?_⟩
  have := hall x hx
  simpa using this

end Observer

open Observer in
/-- **Signals.**  In a history in which the slots neither emit nor clear and fewer than `2 ^ w`
subscriptions are made, the ids of `list_` followed by `added_` increase; the slots that an emit
runs are, in the order of the subscriptions, those that are subscribed when it starts, without
those that are unsubscribed before they have run; and after its `unsubscribe` no slot is run. -/
theorem emits_exact {α : Type*} {w : ℕ} {es : List (Observer.Event α)} {s : Observer α}
    (hrun : (observer α w).run es = some s)
    (hquiet : (observer α w).Meets Quiet (observer α w).init es)
    (hcount : (slots es).length < 2 ^ w) :
    Increasing (s.list ++ s.added) ∧
    (∀ pre mid post t, es = pre ++ .emit :: (mid ++ .emitEnds :: post) →
      (∀ e ∈ mid, e ≠ .emitEnds) → (observer α w).run pre = some t →
        (ranFrom w t (.emit :: mid)).Sublist (subscribed pre) ∧
        (ranFrom w t (.emit :: mid)).Pairwise (fun x y => x.1 < y.1) ∧
        ∀ x ∈ subscribed pre, x ∈ ranFrom w t (.emit :: mid) ↔
          ∀ m₁ m₂, mid = m₁ ++ .unsubscribe x.1 :: m₂ → x ∈ ranFrom w t (.emit :: m₁)) ∧
    (∀ pre n post t, es = pre ++ .unsubscribe n :: post →
      (observer α w).run (pre ++ [.unsubscribe n]) = some t →
        ∀ x ∈ ranFrom w t post, x.1 ≠ n) := by
  have hlength : s.subscriptions.length = (slots es).length := by
    have := length_run hrun
    rwa [show (observer α w).init.subscriptions.length = 0 from rfl, Nat.zero_add] at this
  obtain ⟨hkeyed, _, _⟩ := reached hquiet hrun (by omega)
  have hafter : ∀ pre n post t, es = pre ++ .unsubscribe n :: post →
      (observer α w).run (pre ++ [.unsubscribe n]) = some t →
        ∀ x ∈ ranFrom w t post, x.1 ≠ n := by
    intro pre n post t hsplit ht
    obtain ⟨t₀, ht₀, hstep⟩ := (observer α w).runFrom_snoc_eq_some.mp ht
    subst hsplit
    obtain ⟨t₁, ht₁, hpost⟩ := (observer α w).runFrom_append_eq_some.mp hrun
    cases ht₀.symm.trans ht₁
    obtain ⟨t₂, ht₂, hpost⟩ := (observer α w).runFrom_cons_eq_some.mp hpost
    cases hstep.symm.trans ht₂
    have hstep : t₀.step w (.unsubscribe n) = some t := hstep
    have := length_run hpost
    have := length_step hstep
    obtain ⟨hk, hp, _⟩ := reached hquiet.of_append ht₀ (by omega)
    exact ran_after_unsubscribe hk hp (hquiet.of_append_right ht₀) hstep hpost (by omega)
  refine ⟨hkeyed.increasing (by omega), ?_, hafter⟩
  intro pre mid post t hsplit hends ht
  subst hsplit
  obtain ⟨t₀, ht₀, hrest⟩ := (observer α w).runFrom_append_eq_some.mp hrun
  cases ht.symm.trans ht₀
  obtain ⟨t₁, ht₁, hrest⟩ := (observer α w).runFrom_cons_eq_some.mp hrest
  obtain ⟨t₂, ht₂, hrest⟩ := (observer α w).runFrom_append_eq_some.mp hrest
  obtain ⟨t₃, ht₃, hpost⟩ := (observer α w).runFrom_cons_eq_some.mp hrest
  have hemit : t.step w .emit = some t₁ := ht₁
  have hreturn : t₂.step w .emitEnds = some t₃ := ht₃
  have := length_run hpost
  have := length_step hreturn
  have := length_run ht₂
  have := length_step hemit
  obtain ⟨hk, hp, hlive⟩ := reached hquiet.of_append ht (by omega)
  have hq : (observer α w).Meets Quiet t (.emit :: mid) := by
    have := hquiet.of_append_right ht
    rw [← List.cons_append] at this
    exact this.of_append
  obtain ⟨hsub, hall⟩ := ran_emit hk hp hq hemit ht₂ hreturn hends (by omega)
  rw [← hlive]
  refine ⟨hsub, (live_ordered hk).sublist hsub, fun x hx => ⟨?_, fun hbefore => ?_⟩⟩
  · rintro hran m₁ m₂ rfl
    exact ran_before_unsubscribe hk hp hq hemit ht₂ (by omega) hran
  · cases hall x hx with
    | inl hran => exact hran
    | inr hmem =>
        obtain ⟨m₁, m₂, rfl⟩ := List.append_of_mem hmem
        obtain ⟨t₄, ht₄, _⟩ := (observer α w).runFrom_append_eq_some.mp ht₂
        have hm₁ : (observer α w).runFrom t (.emit :: m₁) = some t₄ :=
          (observer α w).runFrom_cons_eq_some.mpr ⟨t₁, ht₁, ht₄⟩
        unfold ranFrom
        rw [← List.cons_append, (observer α w).outputsFrom_append ran hm₁]
        exact List.mem_append_left _ (hbefore m₁ m₂ rfl)

/-- The first slot unsubscribes itself and the second one, and subscribes another. -/
theorem emits_exact_two :
    let es : List (Observer.Event ℕ) := [.subscribe 10, .subscribe 20, .subscribe 30, .emit, .turn,
      .unsubscribe 0, .unsubscribe 1, .subscribe 40, .slotReturns, .turn, .turn, .slotReturns,
      .emitEnds, .emit, .turn, .slotReturns, .turn, .slotReturns, .emitEnds]
    ∃ s, (observer ℕ 64).run es = some s ∧ Observer.Increasing (s.list ++ s.added) ∧
      Observer.ranFrom 64 (observer ℕ 64).init es = [(0, 10), (2, 30), (2, 30), (3, 40)] := by
  intro es
  obtain ⟨s, hs, _⟩ : ∃ s, (observer ℕ 64).run es = some s ∧ s.loops = [] :=
    (observer ℕ 64).exists_run es _ (by decide +kernel)
  exact ⟨s, hs, (emits_exact hs (by decide +kernel) (by decide +kernel)).1, by decide +kernel⟩

namespace Observer

/-! ### When the ids come round -/

/-- A slot is subscribed and unsubscribed, and an emit clears the set of the removed ids. -/
def rounds (n : ℕ) : List (Event Unit) :=
  (List.range n).flatMap (fun i => [.subscribe (), .unsubscribe i, .emit, .emitEnds])

/-- The observer after some rounds. -/
def afterRounds (w n : ℕ) : Observer Unit where
  id := (n + 1) % 2 ^ w
  subscriptions := (List.range n).map (fun i => (i + 1) % 2 ^ w)

/-- The observer in a round, after `unsubscribe`. -/
def inRound (w n : ℕ) : Observer Unit :=
  { afterRounds w (n + 1) with removed := IdSet.empty.insert ((n + 1) % 2 ^ w) }

theorem round_unsubscribe (w n : ℕ) :
    ((afterRounds w n).connect w ()).step w (.unsubscribe n) = some (inRound w n) := by
  have hkey : ((afterRounds w n).connect w ()).subscriptions[n]? = some ((n + 1) % 2 ^ w) := by
    unfold connect afterRounds
    rw [List.getElem?_append_right (by simp)]
    simp
  have hone : Increasing ((afterRounds w n).connect w ()).added := List.pairwise_singleton _ _
  have hadded : removeByIndex ((afterRounds w n).connect w ()).added ((n + 1) % 2 ^ w) = [] := by
    rw [removeByIndex_eq hone]
    simp [connect, afterRounds]
  simp only [step, hkey, Option.map_some, Option.some.injEq]
  unfold unsubscribe inRound
  rw [hadded]
  unfold connect afterRounds
  simp only [Nat.mod_add_mod, List.range_succ, List.map_append, List.map_singleton]

theorem round_step (w n : ℕ) :
    (observer Unit w).runFrom (afterRounds w n)
        [.subscribe (), .unsubscribe n, .emit, .emitEnds] = some (afterRounds w (n + 1)) ∧
      (observer Unit w).Meets Quiet (afterRounds w n)
        [.subscribe (), .unsubscribe n, .emit, .emitEnds] := by
  have hsubscribe : (observer Unit w).step (afterRounds w n) (.subscribe ()) =
      some ((afterRounds w n).connect w ()) := rfl
  have hunsubscribe : (observer Unit w).step ((afterRounds w n).connect w ()) (.unsubscribe n) =
      some (inRound w n) := round_unsubscribe w n
  have hemit : (observer Unit w).step (inRound w n) .emit = some (inRound w n).startEmit := rfl
  have hends : (observer Unit w).step (inRound w n).startEmit .emitEnds =
      some (afterRounds w (n + 1)) := rfl
  constructor
  · rw [Machine.runFrom_cons, hsubscribe, Option.bind_some, Machine.runFrom_cons, hunsubscribe,
      Option.bind_some, Machine.runFrom_cons, hemit, Option.bind_some, Machine.runFrom_cons, hends]
    rfl
  · refine ⟨trivial, fun t₁ h₁ => ⟨trivial, fun t₂ h₂ => ⟨?_, fun t₃ _ => ⟨trivial, ?_⟩⟩⟩⟩
    · cases hsubscribe.symm.trans h₁
      cases hunsubscribe.symm.trans h₂
      rfl
    · intro t₄ _
      trivial

theorem run_rounds (w n : ℕ) :
    (observer Unit w).run (rounds n) = some (afterRounds w n) ∧
      (observer Unit w).Meets Quiet (observer Unit w).init (rounds n) := by
  induction n with
  | zero => exact ⟨by unfold rounds; simp; rfl, trivial⟩
  | succ n ih =>
      obtain ⟨hrun, hquiet⟩ := ih
      obtain ⟨hround, hmeets⟩ := round_step w n
      have hsplit : rounds (n + 1) =
          rounds n ++ [.subscribe (), .unsubscribe n, .emit, .emitEnds] := by
        unfold rounds
        rw [List.range_succ, List.flatMap_append, List.flatMap_singleton]
      rw [hsplit]
      exact ⟨(observer Unit w).runFrom_append_eq_some.mpr ⟨_, hrun, hround⟩,
        hquiet.append hrun hmeets⟩

/-- When the next id is the last one, two subscriptions more stand in the wrong order. -/
theorem rounds_then_two (w n : ℕ) (hid : (n + 1) % 2 ^ w + 1 = 2 ^ w) :
    ∃ s, (observer Unit w).run (rounds n ++ [.subscribe (), .subscribe ()]) = some s ∧
      (observer Unit w).Meets Quiet (observer Unit w).init
        (rounds n ++ [.subscribe (), .subscribe ()]) ∧ ¬ Increasing (s.list ++ s.added) := by
  obtain ⟨hrun, hquiet⟩ := run_rounds w n
  refine ⟨((afterRounds w n).connect w ()).connect w (),
    (observer Unit w).runFrom_append_eq_some.mpr ⟨_, hrun, rfl⟩, hquiet.append hrun ?_, ?_⟩
  · exact ⟨trivial, fun _ _ => ⟨trivial, fun _ _ => trivial⟩⟩
  · intro h
    unfold Increasing connect afterRounds at h
    simp only [hid, List.nil_append, List.singleton_append] at h
    have hlt := (List.pairwise_cons.mp h).1 _ List.mem_cons_self
    rw [Nat.mod_self] at hlt
    exact Nat.not_lt_zero _ hlt

end Observer

/-- `id_` comes round: after `2 ^ 64 - 2` subscriptions, each one unsubscribed, the next two have
the ids `2 ^ 64 - 1` and `0`, in this order. -/
theorem ids_come_round :
    ∃ s, (observer Unit 64).run
        (Observer.rounds (2 ^ 64 - 2) ++ [.subscribe (), .subscribe ()]) = some s ∧
      (observer Unit 64).Meets Observer.Quiet (observer Unit 64).init
        (Observer.rounds (2 ^ 64 - 2) ++ [.subscribe (), .subscribe ()]) ∧
      ¬ Observer.Increasing (s.list ++ s.added) :=
  Observer.rounds_then_two 64 (2 ^ 64 - 2) (by decide)

end Vtrc
