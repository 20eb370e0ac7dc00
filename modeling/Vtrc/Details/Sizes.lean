import Vtrc.Details.Refinement

/-! # The counter of a list (`size_` in `details/list.h`)

Every operation but one keeps `size_` in step with the nodes; `clear` frees the nodes and leaves the
counter.  `Represents` counts what it is off by: `size_toNat` reads a counter off a state,
`sizesExact_step` says which step takes one out of step, and `sizes_exact_iff` in which runs all
of them are right in every state: in those that call `clear` on empty lists only. -/

namespace Vtrc

namespace Details

open Links

variable {ι : Type} {w : ℕ} {α : Type}

namespace Memory

/-- `size( )` of every list is the number of nodes met from `begin( )`. -/
def SizesExact (m : Memory ι w α) : Prop :=
  ∀ i l, m.lists i = some l → l.size.toNat = (m.forward i).length

/-- `clear` is called on a list without nodes. -/
def ClearsEmpty (m : Memory ι w α) : Op ι w α → Prop
  | .clear i => ∀ l, m.lists i = some l → l.front = none
  | _ => True

instance decidableClearsEmpty (m : Memory ι w α) : (e : Op ι w α) → Decidable (m.ClearsEmpty e)
  | .clear i => decidable_of_iff (∀ l ∈ m.lists i, l.front = none) Iff.rfl
  | .create _ | .construct _ _ | .destroy _ | .pushBack _ _ _ | .pushFront _ _ _ | .erase _ _
  | .rerase _ _ | .spliceBack _ _ | .swap _ _ => inferInstanceAs (Decidable True)

end Memory

namespace Represents

variable {m : Memory ι w α} {a : Sequences ι w α} {k : ι → ℕ}

theorem size_toNat (hm : Represents m a k) {i : ι} {l : NodeList w} (hl : m.lists i = some l) :
    l.size.toNat = ((m.forward i).length + k i) % 2 ^ w := by
  rw [(hm.of_lists hl).2.size, hm.forward_eq, BitVec.toNat_ofNat]

theorem sizesExact (hm : Represents m a (fun _ => 0)) : m.SizesExact := by
  intro i l hl
  have hlt := (hm.of_lists hl).2.holds.length_lt
  rw [hm.size_toNat hl, hm.forward_eq, Nat.add_zero, Nat.mod_eq_of_lt hlt]

theorem nodes_eq_nil (hm : Represents m a k) {i : ι} (h : ∀ l, m.lists i = some l → l.front = none) :
    a.nodes i = [] := by
  cases hl : m.lists i with
  | none => rw [Sequences.nodes, hm.of_lists_none hl]; rfl
  | some l =>
      have hfront := (hm.of_lists hl).2.holds.front
      rw [h l hl] at hfront
      exact first_eq_none.mp hfront.symm

variable [DecidableEq ι]

/-- Only `clear` of a list with nodes takes a counter out of step. -/
theorem lost_zero {e : Op ι w α} (he : ∀ i, e = .clear i → a.nodes i = []) :
    a.lost (fun _ => 0) e = fun _ => 0 := by
  have hupdate : ∀ i : ι, Function.update (fun _ => 0) i 0 = fun _ : ι => (0 : ℕ) :=
    fun i => Function.update_eq_self i _
  cases e with
  | clear i =>
      rw [Sequences.lost, he i rfl]
      exact hupdate i
  | spliceBack i other =>
      rw [Sequences.lost, Nat.add_zero, hupdate, hupdate, ite_self]
  | swap i other => rw [Sequences.lost, hupdate, hupdate]
  | create i => exact hupdate i
  | construct i range => exact hupdate i
  | destroy i => exact hupdate i
  | _ => rfl

/-- After a step the counters are right if and only if the step was no `clear` of a list with
nodes. -/
theorem sizesExact_step (hm : Represents m a (fun _ => 0)) {e : Op ι w α} (he : m.Permitted e)
    {m' : Memory ι w α} (hstep : (Details.lists ι w α).step m e = some m') :
    (m'.SizesExact ↔ m.ClearsEmpty e) ∧
      (m.ClearsEmpty e → ∃ a', Represents m' a' (fun _ => 0)) := by
  obtain ⟨m₁, hstep₁, _, hm'⟩ := hm.step he
  cases hstep.symm.trans hstep₁
  have hkeep : m.ClearsEmpty e → Represents m' (a.apply e) (fun _ => 0) := by
    intro hclear
    have hlost := lost_zero (a := a) (e := e) (by
      rintro i rfl
      exact hm.nodes_eq_nil hclear)
    rwa [hlost] at hm'
  refine ⟨⟨fun hexact => ?_, fun hclear => (hkeep hclear).sizesExact⟩,
    fun hclear => ⟨_, hkeep hclear⟩⟩
  cases e with
  | clear i =>
      intro l hl
      have hholds := (hm.of_lists hl).2.holds
      have hnil : (a.apply (.clear i)).nodes i = [] := by
        rw [Sequences.apply, nodes_update, if_pos rfl]
        rfl
      obtain ⟨l', hl'⟩ : ∃ l', m'.lists i = some l' := by
        apply Option.ne_none_iff_exists'.mp
        rw [ne_eq, hm'.shows.exists_iff, Sequences.apply, Function.update_self]
        exact Option.some_ne_none _
      -- the counter has kept the nodes that are gone
      have hsize := hm'.size_toNat hl'
      rw [hexact i l' hl', hm'.forward_eq, hnil, Sequences.lost, Function.update_self,
        List.length_nil, Nat.zero_add, Nat.zero_add, Nat.mod_eq_of_lt hholds.length_lt] at hsize
      rw [hholds.front, first_eq_none]
      exact List.length_eq_zero_iff.mp hsize.symm
  | _ => trivial

end Represents

variable [DecidableEq ι]

/-- **The counters.**  In a permitted run `size( )` of every list is the number of nodes reachable
from its `begin( )` in every state, if and only if `clear` is called on lists without nodes only. -/
theorem sizes_exact_iff {es : List (Op ι w α)}
    (h : (lists ι w α).Meets Memory.Permitted Memory.init es) :
    (∀ p q m, es = p ++ q → (lists ι w α).run p = some m → m.SizesExact) ↔
      (lists ι w α).Meets Memory.ClearsEmpty Memory.init es := by
  obtain ⟨m, _, _, hrun, _⟩ := represents_init.run h
  refine (lists ι w α).forall_prefix_iff_meets_of_meets
    (I := fun m => ∃ a, Represents m a (fun _ => 0)) ?_ ?_ ⟨_, represents_init⟩
    represents_init.sizesExact h hrun
  · rintro m e m' ⟨a, hm⟩ _ he hclear hstep
    exact (hm.sizesExact_step he hstep).2 hclear
  · rintro m e m' ⟨a, hm⟩ _ he hstep
    exact (hm.sizesExact_step he hstep).1

/-- A list is spliced onto another one, and cleared when it has no nodes any more. -/
theorem sizes_exact_spliced :
    let es : List (Op Bool 64 Char) := [.construct false [(⟨1, by decide⟩, 'a')],
      .construct true [(⟨2, by decide⟩, 'b')], .spliceBack false true, .clear true]
    ∃ m, (lists Bool 64 Char).run es = some m ∧ (m.forward false).map Prod.snd = ['a', 'b'] ∧
      ∀ p q t, es = p ++ q → (lists Bool 64 Char).run p = some t → t.SizesExact := by
  intro es
  obtain ⟨m, hrun, hnodes⟩ : ∃ m, (lists Bool 64 Char).run es = some m ∧
      (m.forward false).map Prod.snd = ['a', 'b'] :=
    (lists Bool 64 Char).exists_run es _ (by decide +kernel)
  exact ⟨m, hrun, hnodes, (sizes_exact_iff (by decide +kernel)).mpr (by decide +kernel)⟩

/-- One node is pushed and the list is cleared: `size( )` is one, and `begin( )` is null. -/
theorem clear_keeps_size :
    let es : List (Op Unit 64 Char) := [.create (), .pushBack () ⟨1, by decide⟩ 'a', .clear ()]
    (lists Unit 64 Char).Meets Memory.Permitted Memory.init es ∧
      ∃ m, (lists Unit 64 Char).run es = some m ∧ ¬ m.SizesExact := by
  intro es
  refine ⟨by decide +kernel, ?_⟩
  obtain ⟨m, hrun, hlist, hnodes⟩ : ∃ m, (lists Unit 64 Char).run es = some m ∧
      m.lists () = some ⟨none, none, 1⟩ ∧ m.forward () = [] :=
    (lists Unit 64 Char).exists_run es _ (by decide +kernel)
  refine ⟨m, hrun, fun hexact => ?_⟩
  have hsize := hexact () _ hlist
  rw [hnodes] at hsize
  exact absurd hsize (by decide)

end Details

end Vtrc
