import Vtrc.Observer.Emits

/-! # Emits inside emits

With the recursive mutex of `VTRC_DECLARE_SIGNAL` a slot may emit the signal again, or clear it.
The loops below the innermost one then stand on nodes that they have not gone past, and three
things can unlink such a node: the innermost loop comes to it and finds it removed, the innermost
emit ends and `clear_removed` finds it, and `unsubscribe_all` clears the lists.

`nodes_stay_linked` says when this cannot happen: `Undisturbed` runs keep all nodes on which loops
stand linked, and in a run whose emits have all returned, nothing less does.  Slots that neither emit nor
clear disturb nothing, so their emits always go on (`quiet_goes_on`). -/

namespace Vtrc

namespace Observer

variable {α : Type*} {w : ℕ} {s s' : Observer α}

/-- The node that the loop stands on. -/
def Loop.node : Loop → Option ℕ
  | .looking n => n
  | .running n => some n

/-- Every loop stands on a node of `list_`, or at its end. -/
def Linked (s : Observer α) : Prop :=
  ∀ l ∈ s.loops, ∀ n ∈ l.node, ∃ b ∈ s.list, b.serial = n

/-- Nothing is called that takes away the node of a loop: `unsubscribe_all` while an emit goes on,
an emit by a slot that was unsubscribed since it was called, and `unsubscribe` of the current slot
of a loop that is not the innermost one. -/
def Undisturbed (s : Observer α) : Event α → Prop
  | .unsubscribeAll => s.loops = []
  | .emit => ∀ l ∈ s.loops.head?, ∀ b ∈ s.list, l.node = some b.serial →
      s.removed.contains b.id = false
  | .unsubscribe n => ∀ key ∈ s.subscriptions[n]?, ∀ l ∈ s.loops.tail, ∀ b ∈ s.list,
      l.node = some b.serial → b.id ≠ key
  | _ => True

instance decidableLinked (s : Observer α) : Decidable s.Linked :=
  inferInstanceAs (Decidable (∀ l ∈ s.loops, ∀ n ∈ l.node, ∃ b ∈ s.list, b.serial = n))

instance decidableUndisturbed (s : Observer α) : (e : Event α) → Decidable (s.Undisturbed e)
  | .unsubscribeAll => inferInstanceAs (Decidable (s.loops = []))
  | .emit => inferInstanceAs (Decidable (∀ l ∈ s.loops.head?, ∀ b ∈ s.list,
      l.node = some b.serial → s.removed.contains b.id = false))
  | .unsubscribe n => inferInstanceAs (Decidable (∀ key ∈ s.subscriptions[n]?,
      ∀ l ∈ s.loops.tail, ∀ b ∈ s.list, l.node = some b.serial → b.id ≠ key))
  | .subscribe _ | .turn | .slotReturns | .emitEnds => inferInstanceAs (Decidable True)

/-- The current nodes of the outer loops are not removed. -/
def Safe (s : Observer α) : Prop :=
  ∀ l ∈ s.loops.tail, ∀ b ∈ s.list, l.node = some b.serial → s.removed.contains b.id = false

/-- The current node of an outer loop is removed, and will be unlinked. -/
def Doomed (s : Observer α) : Prop :=
  ∃ l ∈ s.loops.tail, ∃ b ∈ s.list, l.node = some b.serial ∧ s.removed.contains b.id = true

/-! ### Nodes of the list -/

theorem node_unique {lst : List (Node α)} (h : InOrder lst) {a b : Node α} (ha : a ∈ lst)
    (hb : b ∈ lst) (heq : a.serial = b.serial) : a = b := by
  have hna := nodeAt_of_mem h ha
  rw [heq, nodeAt_of_mem h hb] at hna
  exact (Option.some.inj hna).symm

theorem mem_of_next {lst : List (Node α)} (h : InOrder lst) {n m : ℕ} {b : Node α}
    (hb : nodeAt lst n = some b) (hm : next lst n = some m) :
    ∃ x ∈ lst, x.serial = m ∧ m ≠ n := by
  rw [next_eq h hb] at hm
  obtain ⟨x, hx, rfl⟩ := Option.map_eq_some_iff.mp hm
  obtain ⟨hmem, hlt⟩ := List.mem_filter.mp (List.mem_of_head? hx)
  refine ⟨x, hmem, rfl, ?_⟩
  have : n < x.serial := by simpa using hlt
  omega

theorem Keyed.list_order (h : s.Keyed w) : InOrder s.list :=
  h.order.sublist (List.sublist_append_left _ _)

/-! ### What undisturbed steps keep -/

theorem Linked.outer (h : s.Linked) {inner : Loop} {outer : List Loop}
    (hloops : s.loops = inner :: outer) :
    ∀ l ∈ outer, ∀ n ∈ l.node, ∃ b ∈ s.list, b.serial = n := by
  intro l hl
  apply h l
  rw [hloops]
  exact List.mem_cons_of_mem _ hl

theorem Safe.outer (h : s.Safe) {inner : Loop} {outer : List Loop}
    (hloops : s.loops = inner :: outer) :
    ∀ l ∈ outer, ∀ b ∈ s.list, l.node = some b.serial → s.removed.contains b.id = false := by
  intro l hl
  apply h l
  rw [hloops]
  exact hl

/-- `splice_added` unlinks nothing, and the slot that emits becomes the current one of an outer
loop. -/
theorem linked_emit (hk : s.Keyed w) (hl : s.Linked) (hs : s.Safe) (hu : s.Undisturbed .emit) :
    s.startEmit.Linked ∧ s.startEmit.Safe := by
  constructor
  · intro l hmem n hn
    cases List.mem_cons.mp hmem with
    | inl heq =>
        rw [heq] at hn
        obtain ⟨b, hb, rfl⟩ := Option.map_eq_some_iff.mp hn
        exact ⟨b, List.mem_of_head? hb, rfl⟩
    | inr hmem =>
        obtain ⟨b, hb, hserial⟩ := hl l hmem n hn
        exact ⟨b, List.mem_append_left _ hb, hserial⟩
  · intro l hmem b hb hnode
    have hmem : l ∈ s.loops := hmem
    obtain ⟨b', hb', hserial⟩ := hl l hmem b.serial hnode
    obtain rfl : b' = b := node_unique hk.order (List.mem_append_left _ hb') hb hserial
    cases hloops : s.loops with
    | nil =>
        rw [hloops] at hmem
        cases hmem
    | cons inner outer =>
        rw [hloops] at hmem
        cases List.mem_cons.mp hmem with
        | inl heq => exact hu l (by rw [hloops, heq]; rfl) b' hb' hnode
        | inr hmem => exact hs.outer hloops l hmem b' hb' hnode

/-- A removed node that the innermost loop unlinks is not the current one of another loop. -/
theorem linked_turn (hk : s.Keyed w) (hl : s.Linked) (hs : s.Safe)
    (hst : s.step w .turn = some s') : s'.Linked ∧ s'.Safe := by
  obtain ⟨n, outer, b, hloops, hb, hcase⟩ := step_turn hst
  obtain ⟨hmem, hserial⟩ := mem_of_nodeAt hb
  obtain ⟨hc, rfl⟩ | ⟨hc, rfl⟩ := hcase
  · constructor
    · intro l hin m hm
      simp only
      rw [unlink_eq hk.list_order]
      cases List.mem_cons.mp hin with
      | inl heq =>
          rw [heq] at hm
          obtain ⟨x, hx, hxm, hne⟩ := mem_of_next hk.list_order hb hm
          exact ⟨x, List.mem_filter.mpr ⟨hx, by simpa [hxm] using hne⟩, hxm⟩
      | inr hout =>
          obtain ⟨x, hx, hxm⟩ := hl.outer hloops l hout m hm
          have hne : x.serial ≠ n := by
            intro heq
            obtain rfl := node_unique hk.list_order hx hmem (heq.trans hserial.symm)
            have := hs.outer hloops l hout x hx (hxm ▸ hm)
            rw [hc] at this
            cases this
          exact ⟨x, List.mem_filter.mpr ⟨hx, by simpa using hne⟩, hxm⟩
    · intro l hin x hx hnode
      simp only
      rw [IdSet.contains_erase, hs.outer hloops l hin x (List.eraseP_subset hx) hnode,
        Bool.false_and]
  · refine ⟨?_, fun l hin x hx hnode => hs.outer hloops l hin x hx hnode⟩
    intro l hin m hm
    cases List.mem_cons.mp hin with
    | inl heq =>
        rw [heq] at hm
        cases hm
        exact ⟨b, hmem, hserial⟩
    | inr hin => exact hl.outer hloops l hin m hm

theorem linked_slotReturns (hk : s.Keyed w) (hl : s.Linked) (hs : s.Safe)
    (hst : s.step w .slotReturns = some s') : s'.Linked ∧ s'.Safe := by
  obtain ⟨n, outer, b, hloops, hb, rfl⟩ := step_slotReturns hst
  refine ⟨?_, fun l hin x hx hnode => hs.outer hloops l hin x hx hnode⟩
  intro l hin m hm
  cases List.mem_cons.mp hin with
  | inl heq =>
      rw [heq] at hm
      obtain ⟨x, hx, hxm, _⟩ := mem_of_next hk.list_order hb hm
      exact ⟨x, hx, hxm⟩
  | inr hin => exact hl.outer hloops l hin m hm

/-- `clear_removed` leaves the nodes of the outer loops. -/
theorem linked_emitEnds (hl : s.Linked) (hs : s.Safe) (hst : s.step w .emitEnds = some s') :
    s'.Linked ∧ s'.Safe := by
  obtain ⟨outer, hloops, rfl⟩ := step_emitEnds hst
  refine ⟨?_, fun l hin x hx hnode => rfl⟩
  intro l hin m hm
  obtain ⟨x, hx, hxm⟩ := hl.outer hloops l hin m hm
  refine ⟨x, mem_clearRemoved hx ?_, hxm⟩
  have hkept := hs.outer hloops l hin x hx (hxm ▸ hm)
  unfold IdSet.contains at hkept
  exact of_decide_eq_false hkept

/-- **Undisturbed steps keep the nodes of all loops linked.** -/
theorem linked_step (hk : s.Keyed w) (hl : s.Linked) (hs : s.Safe) {e : Event α}
    (hu : s.Undisturbed e) (hst : s.step w e = some s') : s'.Linked ∧ s'.Safe := by
  cases e with
  | subscribe slot =>
      cases hst
      exact ⟨hl, hs⟩
  | unsubscribe n =>
      obtain ⟨key, hkey, rfl⟩ := step_unsubscribe hst
      refine ⟨hl, fun l hmem b hb hnode => ?_⟩
      unfold unsubscribe
      rw [IdSet.contains_insert, hs l hmem b hb hnode, Bool.or_false]
      exact decide_eq_false (hu key hkey l hmem b hb hnode)
  | unsubscribeAll =>
      obtain ⟨_, rfl⟩ := step_unsubscribeAll hst
      have hnone : s.clear.loops = [] := hu
      constructor
      · intro l hmem
        rw [hnone] at hmem
        cases hmem
      · intro l hmem
        rw [hnone] at hmem
        cases hmem
  | emit =>
      obtain ⟨_, rfl⟩ := step_emit hst
      exact linked_emit hk hl hs hu
  | turn => exact linked_turn hk hl hs hst
  | slotReturns => exact linked_slotReturns hk hl hs hst
  | emitEnds => exact linked_emitEnds hl hs hst

theorem Linked.goes_on (hk : s.Keyed w) (h : s.Linked) (hloops : s.loops ≠ []) :
    ∃ e ∈ [Event.turn, .slotReturns, .emitEnds], (s.step w e).isSome = true := by
  cases hcons : s.loops with
  | nil => exact absurd hcons hloops
  | cons inner outer =>
      have hnode : ∀ n ∈ inner.node, ∃ b, nodeAt s.list n = some b := by
        intro n hn
        obtain ⟨b, hb, rfl⟩ := h inner (by rw [hcons]; exact List.mem_cons_self) n hn
        exact ⟨b, nodeAt_of_mem hk.list_order hb⟩
      cases inner with
      | looking node =>
          cases node with
          | none => exact ⟨.emitEnds, by simp, by simp [step, hcons]⟩
          | some n =>
              obtain ⟨b, hb⟩ := hnode n rfl
              exact ⟨.turn, by simp, by simp [step, hcons, hb]⟩
      | running n =>
          obtain ⟨b, hb⟩ := hnode n rfl
          exact ⟨.slotReturns, by simp, by simp [step, hcons, hb]⟩

theorem quiet_step (hone : s.loops.tail = []) {e : Event α} (hq : s.Quiet e)
    (hst : s.step w e = some s') : s.Undisturbed e ∧ s'.loops.tail = [] := by
  cases e with
  | subscribe slot =>
      cases hst
      exact ⟨trivial, hone⟩
  | unsubscribe n =>
      obtain ⟨key, _, rfl⟩ := step_unsubscribe hst
      refine ⟨?_, hone⟩
      intro key' _ l hl
      rw [hone] at hl
      cases hl
  | unsubscribeAll => exact hq.elim
  | emit =>
      obtain ⟨_, rfl⟩ := step_emit hst
      have hnone : s.loops = [] := hq
      refine ⟨?_, hnone⟩
      intro l hl
      rw [hnone] at hl
      cases hl
  | turn =>
      obtain ⟨n, outer, b, hloops, _, hcase⟩ := step_turn hst
      rw [hloops] at hone
      obtain ⟨_, rfl⟩ | ⟨_, rfl⟩ := hcase <;> exact ⟨trivial, hone⟩
  | slotReturns =>
      obtain ⟨n, outer, b, hloops, _, rfl⟩ := step_slotReturns hst
      rw [hloops] at hone
      exact ⟨trivial, hone⟩
  | emitEnds =>
      obtain ⟨outer, hloops, rfl⟩ := step_emitEnds hst
      rw [hloops] at hone
      have hnone : outer = [] := hone
      refine ⟨trivial, ?_⟩
      simp only [hnone, List.tail_nil]

/-! ### What a disturbed step leads to -/

/-- `unsubscribe_all` while an emit goes on leaves the loop on no node. -/
theorem not_linked_clear (hlock : s.canLock = true) (hloops : s.loops ≠ []) :
    ¬ s.clear.Linked := by
  intro h
  cases hcons : s.loops with
  | nil => exact hloops hcons
  | cons inner outer =>
      unfold canLock at hlock
      rw [hcons] at hlock
      cases inner with
      | looking node => cases hlock
      | running n =>
          have hmem : Loop.running n ∈ s.clear.loops := by
            unfold clear
            rw [hcons]
            exact List.mem_cons_self
          obtain ⟨b, hb, _⟩ := h _ hmem n rfl
          cases hb

theorem doomed_of_disturbed {e : Event α} (hst : s.step w e = some s') (hl : s'.Linked)
    (hu : ¬ s.Undisturbed e) : s'.Doomed := by
  cases e with
  | subscribe | turn | slotReturns | emitEnds => exact absurd trivial hu
  | unsubscribeAll =>
      obtain ⟨hlock, rfl⟩ := step_unsubscribeAll hst
      exact absurd hl (not_linked_clear hlock hu)
  | emit =>
      obtain ⟨_, rfl⟩ := step_emit hst
      unfold Undisturbed at hu
      push Not at hu
      obtain ⟨l, hmem, b, hb, hnode, hc⟩ := hu
      have hc : s.removed.contains b.id = true := by simpa using hc
      exact ⟨l, List.mem_of_head? hmem, b, List.mem_append_left _ hb, hnode, hc⟩
  | unsubscribe n =>
      obtain ⟨key, hkey, rfl⟩ := step_unsubscribe hst
      unfold Undisturbed at hu
      push Not at hu
      obtain ⟨key', hkey', l, hmem, b, hb, hnode, heq⟩ := hu
      cases hkey.symm.trans hkey'
      refine ⟨l, hmem, b, hb, hnode, ?_⟩
      unfold unsubscribe
      simp [heq]

/-- While no loop stands on an unlinked node, the outer loop whose node is removed keeps it: only
the end of the innermost emit, or an inner loop that comes to the node, would take it away. -/
theorem Doomed.step (hk : s.Keyed w) (hlt : s.subscriptions.length < 2 ^ w) (hd : s.Doomed)
    {e : Event α} (hst : s.step w e = some s') (hl : s'.Linked) : s'.Doomed := by
  obtain ⟨l, hmem, b, hb, hnode, hc⟩ := hd
  cases e with
  | subscribe slot =>
      cases hst
      exact ⟨l, hmem, b, hb, hnode, hc⟩
  | unsubscribe n =>
      obtain ⟨key, _, rfl⟩ := step_unsubscribe hst
      refine ⟨l, hmem, b, hb, hnode, ?_⟩
      unfold unsubscribe
      rw [IdSet.contains_insert, hc, Bool.or_true]
  | unsubscribeAll =>
      obtain ⟨hlock, rfl⟩ := step_unsubscribeAll hst
      refine absurd hl (not_linked_clear hlock ?_)
      rintro hnone
      rw [hnone] at hmem
      cases hmem
  | emit =>
      obtain ⟨_, rfl⟩ := step_emit hst
      exact ⟨l, List.mem_of_mem_tail hmem, b, List.mem_append_left _ hb, hnode, hc⟩
  | turn =>
      obtain ⟨n, outer, a, hloops, ha, ⟨_, rfl⟩ | ⟨_, rfl⟩⟩ := step_turn hst
      · rw [hloops] at hmem
        obtain ⟨hmema, hseriala⟩ := mem_of_nodeAt ha
        obtain ⟨x, hx, hxb⟩ := hl l (List.mem_cons_of_mem _ hmem) b.serial hnode
        simp only at hx
        rw [unlink_eq hk.list_order, List.mem_filter] at hx
        obtain rfl := node_unique hk.list_order hx.1 hb hxb
        have hne : x.serial ≠ n := by simpa using hx.2
        refine ⟨l, hmem, x, ?_, hnode, ?_⟩
        · simp only
          rw [unlink_eq hk.list_order, List.mem_filter]
          exact hx
        · have hid : x.id ≠ a.id := by
            rw [hk.node_id hlt (List.mem_append_left _ hb),
              hk.node_id hlt (List.mem_append_left _ hmema)]
            omega
          rw [IdSet.contains_erase, hc, Bool.true_and]
          exact decide_eq_true hid
      · rw [hloops] at hmem
        exact ⟨l, hmem, b, hb, hnode, hc⟩
  | slotReturns =>
      obtain ⟨n, outer, a, hloops, _, rfl⟩ := step_slotReturns hst
      rw [hloops] at hmem
      exact ⟨l, hmem, b, hb, hnode, hc⟩
  | emitEnds =>
      obtain ⟨outer, hloops, rfl⟩ := step_emitEnds hst
      rw [hloops] at hmem
      obtain ⟨x, hx, hxb⟩ := hl l hmem b.serial hnode
      have hinc : Increasing s.list :=
        (hk.increasing hlt).sublist (List.sublist_append_left _ _)
      simp only at hx
      rw [clearRemoved_eq s.removed.sorted hinc, List.mem_filter] at hx
      obtain rfl := node_unique hk.list_order hx.1 hb hxb
      unfold IdSet.contains at hc
      exact absurd (of_decide_eq_true hc) (by simpa using hx.2)

/-- In a run that keeps all loops on linked nodes, a doomed loop does not come to its end. -/
theorem Doomed.run {es : List (Event α)} :
    ∀ {s s' : Observer α}, s.Keyed w → s'.subscriptions.length < 2 ^ w → s.Doomed →
      (observer α w).runFrom s es = some s' →
      (∀ p q t, es = p ++ q → (observer α w).runFrom s p = some t → t.Linked) → s'.Doomed := by
  induction es with
  | nil =>
      intro s s' _ _ hd h _
      cases h
      exact hd
  | cons e es ih =>
      intro s s' hk hlt hd h hall
      obtain ⟨s₁, h₁, h₂⟩ := (observer α w).runFrom_cons_eq_some.mp h
      have hstep : s.step w e = some s₁ := h₁
      have hlength : s.subscriptions.length < 2 ^ w := by
        have := length_run h
        omega
      have hl : s₁.Linked := hall [e] es s₁ rfl (by rw [Machine.runFrom_cons, h₁]; rfl)
      apply ih (hk.step hstep) hlt (hd.step hk hlength hstep hl) h₂
      intro p q t hsplit hp
      apply hall (e :: p) q t (by rw [hsplit, List.cons_append])
      exact (observer α w).runFrom_cons_eq_some.mpr ⟨s₁, h₁, hp⟩

theorem linked_init (α : Type*) (w : ℕ) :
    (observer α w).init.Linked ∧ (observer α w).init.Safe := by
  constructor
  · intro l hl
    cases hl
  · intro l hl
    cases hl

theorem keyed_run {es : List (Event α)} (h : (observer α w).run es = some s) : s.Keyed w :=
  Machine.Reachable.inv (keyed_init α w) (fun _ _ _ hk hst => hk.step hst) ⟨es, h⟩

/-- While slots neither emit nor clear, an emit that goes on has a next step. -/
theorem quiet_goes_on {es : List (Event α)} (h : (observer α w).run es = some s)
    (hq : (observer α w).Meets Quiet (observer α w).init es) (hloops : s.loops ≠ []) :
    ∃ e ∈ [Event.turn, .slotReturns, .emitEnds], (s.step w e).isSome = true := by
  have hinv : (s.Keyed w ∧ s.Linked ∧ s.Safe) ∧ s.loops.tail = [] := by
    apply (observer α w).inv_of_meets
      (I := fun s => (s.Keyed w ∧ s.Linked ∧ s.Safe) ∧ s.loops.tail = []) _
      ⟨⟨keyed_init α w, linked_init α w⟩, rfl⟩ hq h
    rintro s e s' ⟨⟨hk, hl, hs⟩, hone⟩ hq hst
    obtain ⟨hu, hone'⟩ := quiet_step hone hq hst
    exact ⟨⟨hk.step hst, linked_step hk hl hs hu hst⟩, hone'⟩
  exact hinv.1.2.1.goes_on hinv.1.1 hloops

end Observer

open Observer in
/-- **Loops stay on linked nodes.**  In a run whose steps are undisturbed, no loop ever stands on a
node that was unlinked; and a run that has this property, whose emits have all returned and in which
`id_` has not come round, has only undisturbed steps. -/
theorem nodes_stay_linked {α : Type*} {w : ℕ} {es : List (Observer.Event α)} {s : Observer α}
    (hrun : (observer α w).run es = some s) :
    ((observer α w).Meets Undisturbed (observer α w).init es →
      ∀ p q t, es = p ++ q → (observer α w).run p = some t → t.Linked) ∧
    (s.loops = [] → (slots es).length < 2 ^ w →
      (∀ p q t, es = p ++ q → (observer α w).run p = some t → t.Linked) →
        (observer α w).Meets Undisturbed (observer α w).init es) := by
  constructor
  · intro hu p q t hsplit hp
    subst hsplit
    have hinv : t.Keyed w ∧ t.Linked ∧ t.Safe := by
      apply (observer α w).inv_of_meets (I := fun s => s.Keyed w ∧ s.Linked ∧ s.Safe) _
        ⟨keyed_init α w, linked_init α w⟩ hu.of_append hp
      rintro s e s' ⟨hk, hl, hs⟩ hu hst
      exact ⟨hk.step hst, linked_step hk hl hs hu hst⟩
    exact hinv.2.1
  · intro hloops hcount hall
    have hlength : s.subscriptions.length = (slots es).length := by
      have := length_run hrun
      rwa [show (observer α w).init.subscriptions.length = 0 from rfl, Nat.zero_add] at this
    apply (observer α w).meets_of_forall_step hrun
    intro p e q t t₁ hsplit hp hstep hq
    by_contra hu
    subst hsplit
    have hsnoc : (observer α w).run (p ++ [e]) = some t₁ :=
      (observer α w).runFrom_snoc_eq_some.mpr ⟨t, hp, hstep⟩
    have hl : t₁.Linked := hall (p ++ [e]) q t₁ (by simp) hsnoc
    have hd : s.Doomed := by
      apply (doomed_of_disturbed hstep hl hu).run (keyed_run hsnoc) (by omega) hq
      intro p' q' t₂ hsplit hp'
      apply hall (p ++ [e] ++ p') q' t₂ (by simp [hsplit])
      exact (observer α w).runFrom_append_eq_some.mpr ⟨t₁, hsnoc, hp'⟩
    obtain ⟨l, hmem, _⟩ := hd
    rw [hloops] at hmem
    cases hmem

/-- A slot emits again, the second slot is unsubscribed meanwhile, and both emits return. -/
theorem nodes_stay_linked_nested :
    let es : List (Observer.Event ℕ) := [.subscribe 10, .subscribe 20, .emit, .turn, .emit, .turn,
      .slotReturns, .unsubscribe 1, .turn, .emitEnds, .slotReturns, .emitEnds]
    ∃ s, (observer ℕ 64).run es = some s ∧ s.loops = [] ∧
      ∀ p q t, es = p ++ q → (observer ℕ 64).run p = some t → t.Linked := by
  intro es
  obtain ⟨s, hs, hloops⟩ : ∃ s, (observer ℕ 64).run es = some s ∧ s.loops = [] :=
    (observer ℕ 64).exists_run es _ (by decide +kernel)
  exact ⟨s, hs, hloops, (nodes_stay_linked hs).1 (by decide +kernel)⟩

/-- A slot unsubscribes itself and emits again: the inner emit unlinks its node and returns; then
the slot returns to a loop whose node is gone. -/
theorem reentered_node_unlinked :
    ∃ s, (observer ℕ 64).run
        [.subscribe 10, .emit, .turn, .unsubscribe 0, .emit, .turn, .emitEnds] = some s ∧
      s.loops = [.running 0] ∧ s.list = [] ∧ (s.step 64 .slotReturns).isNone ∧ ¬ s.Linked :=
  (observer ℕ 64).exists_run _ _ (by decide +kernel)

/-- So does `unsubscribe_all` in a slot. -/
example : ((observer ℕ 64).run [.subscribe 10, .emit, .turn, .unsubscribeAll]).map
    (fun s => (s.loops, s.list)) = some ([.running 0], []) := by
  decide +kernel

end Vtrc
