import Vtrc.Lib.Machine
import Mathlib.Order.Interval.Finset.Nat
import Mathlib.Data.Finset.Card
import Mathlib.Data.List.Nodup

/-! # The client count of a listener (`server/listener`, `server/connection/impl.h`)

`new_connection` raises `client_count_` and runs the slots of the user, `stop_connection` lowers
it.  A connection comes to `stop_connection` through its close closure, once, since `close` of the
transport looks at `closed_` first; a connection of the custom listener comes to it through
`stop_client`, as often as that is called.

An accept can end by an exception at any point (`AcceptPoint`).  The handlers differ: `on_accept`
of the socket listeners drops the connection, the one of the pipe listener does nothing, and
`init_protocol` of the custom listener drops it when `init` has raised.  None of them takes the
count back.

The connections are objects at addresses that differ from each other, so the count never
overflows upwards.  `clients_count_iff` says in which runs the count is exact all the time. -/

namespace Vtrc

namespace Server

/-- The listeners: those of `listener_impl` (tcp, ssl, unix-local), the pipe listener, and the
custom one. -/
inductive ListenerKind where
  | socket
  | pipe
  | custom
deriving DecidableEq, Repr

/-- Where an exception ends an accept: before `new_connection`, in a slot of
`on_new_connection_`, or in `init`. -/
inductive AcceptPoint where
  | setup
  | slot
  | init
deriving DecidableEq, Repr

/-- Whether the handler of the exception drops the connection. -/
def ListenerKind.discards : ListenerKind → AcceptPoint → Bool
  | .socket, _ => true
  | .pipe, .setup => true
  | .pipe, _ => false
  | .custom, .init => true
  | .custom, _ => false

/-- A connection: whether its accept is still going on, whether `new_connection` has counted it,
whether it was closed (or stopped), and whether it was dropped after a failed accept. -/
structure Conn where
  accepting : Bool := true
  announced : Bool := false
  closed : Bool := false
  discarded : Bool := false
deriving DecidableEq, Repr

/-- Announced, and neither closed nor discarded. -/
def Conn.alive (c : Conn) : Bool := c.announced && !c.closed && !c.discarded

/-- The connection objects of a listener by their addresses. -/
structure Connections where
  entries : List (UInt64 × Conn)
  nodup : (entries.map Prod.fst).Nodup
  nonnull : (0 : UInt64) ∉ entries.map Prod.fst

namespace Connections

def empty : Connections := ⟨[], List.nodup_nil, List.not_mem_nil⟩

/-- The connection at an address. -/
def find (cs : Connections) (a : UInt64) : Option Conn :=
  (cs.entries.find? (fun p => p.1 = a)).map Prod.snd

theorem not_mem_of_find {cs : Connections} {a : UInt64} (h : cs.find a = none) :
    a ∉ cs.entries.map Prod.fst := by
  intro hmem
  obtain ⟨p, hp, rfl⟩ := List.mem_map.mp hmem
  have := List.find?_eq_none.mp (Option.map_eq_none_iff.mp h) p hp
  simp at this

/-- A new connection. -/
def add (cs : Connections) (a : UInt64) (ha : a ≠ 0) (hf : cs.find a = none) : Connections where
  entries := (a, {}) :: cs.entries
  nodup := List.nodup_cons.mpr ⟨not_mem_of_find hf, cs.nodup⟩
  nonnull := by
    simp only [List.map_cons, List.mem_cons, not_or]
    exact ⟨ha.symm, cs.nonnull⟩

theorem map_fst_set (es : List (UInt64 × Conn)) (a : UInt64) (c : Conn) :
    (es.map (fun p => if p.1 = a then (a, c) else p)).map Prod.fst = es.map Prod.fst := by
  rw [List.map_map]
  apply List.map_congr_left
  intro p _
  simp only [Function.comp_apply]
  split_ifs with h
  · exact h.symm
  · rfl

/-- The connection at `a` changes. -/
def set (cs : Connections) (a : UInt64) (c : Conn) : Connections where
  entries := cs.entries.map (fun p => if p.1 = a then (a, c) else p)
  nodup := (map_fst_set cs.entries a c).symm ▸ cs.nodup
  nonnull := (map_fst_set cs.entries a c).symm ▸ cs.nonnull

/-- The object at `a` is destroyed. -/
def remove (cs : Connections) (a : UInt64) : Connections where
  entries := cs.entries.filter (fun p => p.1 ≠ a)
  nodup := cs.nodup.sublist (List.filter_sublist.map Prod.fst)
  nonnull := fun h => cs.nonnull ((List.filter_sublist.map Prod.fst).subset h)

theorem find_eq_some {cs : Connections} {a : UInt64} {c : Conn} :
    cs.find a = some c ↔ (a, c) ∈ cs.entries := by
  unfold find
  constructor
  · intro h
    obtain ⟨p, hp, rfl⟩ := Option.map_eq_some_iff.mp h
    have hkey : p.1 = a := by simpa using List.find?_some hp
    rw [← hkey]
    exact List.mem_of_find?_eq_some hp
  · intro h
    obtain ⟨p, hp⟩ : ∃ p, cs.entries.find? (fun p => p.1 = a) = some p := by
      rw [← Option.isSome_iff_exists, List.find?_isSome]
      exact ⟨(a, c), h, by simp⟩
    have hkey : p.1 = a := by simpa using List.find?_some hp
    have hsame : p = (a, c) :=
      List.inj_on_of_nodup_map cs.nodup (List.mem_of_find?_eq_some hp) h hkey
    rw [hp, hsame]
    rfl

theorem find_add (cs : Connections) (a : UInt64) (ha : a ≠ 0) (hf : cs.find a = none)
    {b : UInt64} {c : Conn} (h : (cs.add a ha hf).find b = some c) :
    c = {} ∨ cs.find b = some c := by
  rw [find_eq_some] at h
  rcases List.mem_cons.mp h with heq | hmem
  · exact .inl (Prod.mk.inj heq).2
  · exact .inr (find_eq_some.mpr hmem)

theorem find_set {cs : Connections} {a b : UInt64} {c d : Conn}
    (h : (cs.set a c).find b = some d) : d = c ∨ cs.find b = some d := by
  rw [find_eq_some] at h
  obtain ⟨p, hp, hd⟩ := List.mem_map.mp h
  split_ifs at hd with hkey
  · exact .inl (Prod.mk.inj hd).2.symm
  · right
    rw [find_eq_some, ← hd]
    exact hp

theorem find_remove {cs : Connections} {a b : UInt64} {c : Conn}
    (h : (cs.remove a).find b = some c) : cs.find b = some c := by
  rw [find_eq_some] at h ⊢
  exact List.mem_of_mem_filter h

/-- The number of connections that are alive. -/
def alive (cs : Connections) : ℕ := cs.entries.countP (fun p => p.2.alive)

theorem alive_lt (cs : Connections) : cs.alive < 2 ^ 64 := by
  have hnodup : (cs.entries.map (fun p => p.1.toNat)).Nodup := by
    have := cs.nodup.map (f := UInt64.toNat) (fun _ _ h => UInt64.toNat_inj.mp h)
    rwa [List.map_map] at this
  have hsub : (cs.entries.map (fun p => p.1.toNat)).toFinset ⊆ Finset.Ico 1 (2 ^ 64) := by
    intro n hn
    obtain ⟨p, hp, rfl⟩ := List.mem_map.mp (List.mem_toFinset.mp hn)
    rw [Finset.mem_Ico]
    refine ⟨?_, p.1.toNat_lt⟩
    rw [Nat.one_le_iff_ne_zero]
    intro h0
    have hzero : p.1 = 0 := UInt64.toNat_inj.mp h0
    exact cs.nonnull (hzero ▸ List.mem_map_of_mem hp)
  have hcard := Finset.card_le_card hsub
  rw [List.toFinset_card_of_nodup hnodup, List.length_map, Nat.card_Ico] at hcard
  have hcount : cs.alive ≤ cs.entries.length := List.countP_le_length
  omega

/-- `1` for a connection that is alive. -/
def weight (c : Conn) : ℕ := if c.alive then 1 else 0

theorem alive_add (cs : Connections) (a : UInt64) (ha : a ≠ 0) (hf : cs.find a = none) :
    (cs.add a ha hf).alive = cs.alive := by
  unfold alive add
  rw [List.countP_cons]
  rfl

theorem filter_ne_of_not_mem {es : List (UInt64 × Conn)} {a : UInt64}
    (h : a ∉ es.map Prod.fst) : es.filter (fun p => p.1 ≠ a) = es := by
  apply List.filter_eq_self.mpr
  intro p hp
  simp only [decide_eq_true_eq]
  rintro rfl
  exact h (List.mem_map_of_mem hp)

theorem map_set_of_not_mem {es : List (UInt64 × Conn)} {a : UInt64} (h : a ∉ es.map Prod.fst)
    (c : Conn) : es.map (fun p => if p.1 = a then (a, c) else p) = es := by
  conv_rhs => rw [← List.map_id es]
  apply List.map_congr_left
  intro p hp
  rw [if_neg]
  · rfl
  · rintro rfl
    exact h (List.mem_map_of_mem hp)

theorem countP_cons_weight (p : UInt64 × Conn) (es : List (UInt64 × Conn)) :
    (p :: es).countP (fun p => p.2.alive) = es.countP (fun p => p.2.alive) + weight p.2 :=
  List.countP_cons

/-- The connection at `a`, and what is left of the list when it is taken out or changed. -/
theorem countP_at {es : List (UInt64 × Conn)} (hn : (es.map Prod.fst).Nodup) {a : UInt64}
    {c : Conn} (h : (es.find? (fun p => p.1 = a)).map Prod.snd = some c) (c' : Conn) :
    (es.filter (fun p => p.1 ≠ a)).countP (fun p => p.2.alive) + weight c =
        es.countP (fun p => p.2.alive) ∧
      (es.map (fun p => if p.1 = a then (a, c') else p)).countP (fun p => p.2.alive) + weight c =
        es.countP (fun p => p.2.alive) + weight c' := by
  induction es with
  | nil => cases h
  | cons p es ih =>
      rw [List.map_cons, List.nodup_cons] at hn
      by_cases hp : p.1 = a
      · have hc : p.2 = c := by simpa [List.find?_cons, hp] using h
        have hnot : a ∉ es.map Prod.fst := hp ▸ hn.1
        rw [List.filter_cons, if_neg (by simp [hp]), filter_ne_of_not_mem hnot, List.map_cons,
          if_pos hp, map_set_of_not_mem hnot, countP_cons_weight, countP_cons_weight, hc]
        refine ⟨rfl, ?_⟩
        simp only
        omega
      · have hrest : (es.find? (fun p => p.1 = a)).map Prod.snd = some c := by
          simpa [List.find?_cons, hp] using h
        obtain ⟨hremove, hset⟩ := ih hn.2 hrest
        rw [List.filter_cons, if_pos (by simp [hp]), List.map_cons, if_neg hp, countP_cons_weight,
          countP_cons_weight, countP_cons_weight]
        omega

theorem alive_remove {cs : Connections} {a : UInt64} {c : Conn} (h : cs.find a = some c) :
    (cs.remove a).alive + weight c = cs.alive :=
  (countP_at cs.nodup h c).1

theorem alive_set {cs : Connections} {a : UInt64} {c : Conn} (h : cs.find a = some c)
    (c' : Conn) : (cs.set a c').alive + weight c = cs.alive + weight c' :=
  (countP_at cs.nodup h c').2

end Connections

/-- What happens to the connections of a listener. -/
inductive ClientsEvent where
  /-- The connection of an accept is made. -/
  | create (a : UInt64)
  /-- `new_connection`, before the slots. -/
  | announce (a : UInt64)
  | accepted (a : UInt64)
  | acceptFails (a : UInt64) (point : AcceptPoint)
  /-- `close` of a transport: by a user, after a read error, after a write error. -/
  | close (a : UInt64)
  /-- `stop_client` of the custom listener. -/
  | stopClient (a : UInt64)
  | destroy (a : UInt64)

/-- `client_count_` and the connections. -/
structure Clients where
  count : UInt64
  conns : Connections

namespace Clients

/-- `listener::new_connection`. -/
def newConnection (s : Clients) (a : UInt64) (c : Conn) : Clients :=
  { count := s.count + 1, conns := s.conns.set a { c with announced := true } }

/-- `listener::stop_connection`, for a connection that is closed from now on. -/
def stopConnection (s : Clients) (a : UInt64) (c : Conn) : Clients :=
  { count := s.count - 1, conns := s.conns.set a { c with closed := true } }

def step (kind : ListenerKind) (s : Clients) : ClientsEvent → Option Clients
  | .create a =>
      if ha : a ≠ 0 then
        if hf : s.conns.find a = none then some { s with conns := s.conns.add a ha hf } else none
      else none
  | .announce a => (s.conns.find a).bind (fun c =>
      if c.accepting && !c.announced then some (s.newConnection a c) else none)
  | .accepted a => (s.conns.find a).bind (fun c =>
      if c.accepting && c.announced then
        some { s with conns := s.conns.set a { c with accepting := false } }
      else none)
  | .acceptFails a point => (s.conns.find a).bind (fun c =>
      if c.accepting && (c.announced == decide (point ≠ .setup)) then
        some { s with
          conns := s.conns.set a
            { c with accepting := false, discarded := kind.discards point } }
      else none)
  | .close a => (s.conns.find a).bind (fun c =>
      if kind ≠ .custom then
        -- `closed_` is looked at under `close_lock_`
        if c.closed then some s else some (s.stopConnection a c)
      else none)
  | .stopClient a => (s.conns.find a).bind (fun c =>
      if kind = .custom then some (s.stopConnection a c) else none)
  | .destroy a => (s.conns.find a).bind (fun c =>
      if !c.accepting && !c.alive then some { s with conns := s.conns.remove a } else none)

end Clients

/-- A listener from its start on. -/
def clientsMachine (kind : ListenerKind) : Machine Clients ClientsEvent where
  init := ⟨0, .empty⟩
  step := Clients.step kind

namespace Clients

open Connections

/-- `clients_count` is the number of connections that are alive. -/
def Exact (s : Clients) : Prop := s.count.toNat = s.conns.alive

/-- The step keeps the balance: no connection that was counted and is still open is dropped after
a failed accept, no connection is closed before it was counted or after it was dropped, and a
connection is stopped once, while it is alive. -/
def Balanced (kind : ListenerKind) (s : Clients) : ClientsEvent → Prop
  | .acceptFails a point => ∀ c ∈ s.conns.find a, c.alive = true → kind.discards point = false
  | .close a => ∀ c ∈ s.conns.find a, c.closed = false → c.alive = true
  | .stopClient a => ∀ c ∈ s.conns.find a, c.alive = true
  | _ => True

instance decidableBalanced (kind : ListenerKind) (s : Clients) :
    (e : ClientsEvent) → Decidable (s.Balanced kind e)
  | .acceptFails a point => inferInstanceAs
      (Decidable (∀ c ∈ s.conns.find a, c.alive = true → kind.discards point = false))
  | .close a => inferInstanceAs
      (Decidable (∀ c ∈ s.conns.find a, c.closed = false → c.alive = true))
  | .stopClient a => inferInstanceAs (Decidable (∀ c ∈ s.conns.find a, c.alive = true))
  | .create _ | .announce _ | .accepted _ | .destroy _ => inferInstanceAs (Decidable True)

theorem weight_alive {c : Conn} (h : c.alive = true) : weight c = 1 := by
  unfold weight
  rw [if_pos h]

theorem weight_not_alive {c : Conn} (h : c.alive = false) : weight c = 0 := by
  unfold weight
  rw [h]
  rfl

theorem exact_set_iff {s : Clients} (hs : s.Exact) {a : UInt64} {c : Conn}
    (hf : s.conns.find a = some c) (c' : Conn) :
    ({ s with conns := s.conns.set a c' } : Clients).Exact ↔ weight c' = weight c := by
  have hset := alive_set hf c'
  unfold Exact at hs ⊢
  simp only
  omega

theorem exact_newConnection {s : Clients} (hs : s.Exact) {a : UInt64} {c : Conn}
    (hf : s.conns.find a = some c) (ha : c.announced = false) (hc : c.closed = false)
    (hd : c.discarded = false) : (s.newConnection a c).Exact := by
  have hold : weight c = 0 := weight_not_alive (by unfold Conn.alive; rw [ha]; rfl)
  have hnew : weight { c with announced := true } = 1 :=
    weight_alive (by unfold Conn.alive; simp [hc, hd])
  have hset := alive_set hf { c with announced := true }
  have hlt := (s.conns.set a { c with announced := true }).alive_lt
  unfold Exact at hs ⊢
  unfold newConnection
  simp only [UInt64.toNat_add, UInt64.toNat_one]
  omega

/-- The count is lowered: that is right exactly for a connection that was alive. -/
theorem exact_stopConnection_iff {s : Clients} (hs : s.Exact) {a : UInt64} {c : Conn}
    (hf : s.conns.find a = some c) : (s.stopConnection a c).Exact ↔ c.alive = true := by
  have hnew : weight { c with closed := true } = 0 :=
    weight_not_alive (by unfold Conn.alive; simp)
  have hset := alive_set hf { c with closed := true }
  have hlt := s.conns.alive_lt
  unfold Exact at hs ⊢
  unfold stopConnection
  simp only [UInt64.toNat_sub, UInt64.toNat_one]
  cases hc : c.alive with
  | true =>
      rw [weight_alive hc] at hset
      simp only [iff_true]
      omega
  | false =>
      rw [weight_not_alive hc] at hset
      simp only [Bool.false_eq_true, iff_false]
      omega

/-- A connection whose accept goes on was not dropped, and one that was not counted was not
closed. -/
def Fresh (s : Clients) : Prop :=
  ∀ a c, s.conns.find a = some c →
    (c.accepting = true → c.discarded = false) ∧ (c.announced = false → c.closed = false)

theorem Fresh.set {s : Clients} (h : s.Fresh) (n : UInt64) (a : UInt64) {c : Conn}
    (hc : (c.accepting = true → c.discarded = false) ∧ (c.announced = false → c.closed = false)) :
    Fresh ⟨n, s.conns.set a c⟩ := by
  intro b d hd
  rcases find_set hd with rfl | hd
  · exact hc
  · exact h b d hd

theorem Fresh.step {kind : ListenerKind} {s s' : Clients} {e : ClientsEvent} (h : s.Fresh)
    (he : s.Balanced kind e) (hst : s.step kind e = some s') : s'.Fresh := by
  cases e with
  | create a =>
      simp only [Clients.step] at hst
      split_ifs at hst with ha hf
      cases hst
      intro b c hc
      rcases find_add s.conns a ha hf hc with rfl | hc
      · exact ⟨fun _ => rfl, fun _ => rfl⟩
      · exact h b c hc
  | announce a =>
      obtain ⟨c, hc, hst⟩ := Option.bind_eq_some_iff.mp hst
      simp only [Option.ite_none_right_eq_some] at hst
      obtain ⟨_, hst⟩ := hst
      cases hst
      exact h.set _ a ⟨(h a c hc).1, fun hn => (by cases hn)⟩
  | accepted a =>
      obtain ⟨c, hc, hst⟩ := Option.bind_eq_some_iff.mp hst
      simp only [Option.ite_none_right_eq_some] at hst
      obtain ⟨_, hst⟩ := hst
      cases hst
      exact h.set _ a ⟨fun hn => (by cases hn), (h a c hc).2⟩
  | acceptFails a point =>
      obtain ⟨c, hc, hst⟩ := Option.bind_eq_some_iff.mp hst
      simp only [Option.ite_none_right_eq_some] at hst
      obtain ⟨_, hst⟩ := hst
      cases hst
      exact h.set _ a ⟨fun hn => (by cases hn), (h a c hc).2⟩
  | close a =>
      obtain ⟨c, hc, hst⟩ := Option.bind_eq_some_iff.mp hst
      simp only [Option.ite_none_right_eq_some] at hst
      obtain ⟨_, hst⟩ := hst
      split_ifs at hst with hclosed
      · cases hst
        exact h
      · cases hst
        have halive := he c hc (by simpa using hclosed)
        unfold Conn.alive at halive
        simp only [Bool.and_eq_true] at halive
        exact h.set _ a ⟨(h a c hc).1, fun hn => absurd hn (by simp [halive.1.1])⟩
  | stopClient a =>
      obtain ⟨c, hc, hst⟩ := Option.bind_eq_some_iff.mp hst
      simp only [Option.ite_none_right_eq_some] at hst
      obtain ⟨_, hst⟩ := hst
      cases hst
      have halive := he c hc
      unfold Conn.alive at halive
      simp only [Bool.and_eq_true] at halive
      exact h.set _ a ⟨(h a c hc).1, fun hn => absurd hn (by simp [halive.1.1])⟩
  | destroy a =>
      obtain ⟨c, hc, hst⟩ := Option.bind_eq_some_iff.mp hst
      simp only [Option.ite_none_right_eq_some] at hst
      obtain ⟨_, hst⟩ := hst
      cases hst
      intro b d hd
      exact h b d (find_remove hd)

theorem exact_step_iff {kind : ListenerKind} {s s' : Clients} {e : ClientsEvent} (h : s.Fresh)
    (hs : s.Exact) (hst : s.step kind e = some s') : s'.Exact ↔ s.Balanced kind e := by
  cases e with
  | create a =>
      simp only [Clients.step] at hst
      split_ifs at hst with ha hf
      cases hst
      refine iff_of_true ?_ trivial
      unfold Exact at hs ⊢
      rw [alive_add]
      exact hs
  | announce a =>
      obtain ⟨c, hc, hst⟩ := Option.bind_eq_some_iff.mp hst
      simp only [Option.ite_none_right_eq_some, Bool.and_eq_true, Bool.not_eq_true'] at hst
      obtain ⟨⟨hacc, hann⟩, hst⟩ := hst
      cases hst
      exact iff_of_true
        (exact_newConnection hs hc hann ((h a c hc).2 hann) ((h a c hc).1 hacc)) trivial
  | accepted a =>
      obtain ⟨c, hc, hst⟩ := Option.bind_eq_some_iff.mp hst
      simp only [Option.ite_none_right_eq_some] at hst
      obtain ⟨_, hst⟩ := hst
      cases hst
      exact iff_of_true ((exact_set_iff hs hc _).mpr rfl) trivial
  | acceptFails a point =>
      obtain ⟨c, hc, hst⟩ := Option.bind_eq_some_iff.mp hst
      simp only [Option.ite_none_right_eq_some, Bool.and_eq_true] at hst
      obtain ⟨⟨hacc, _⟩, hst⟩ := hst
      cases hst
      have hopen : c.discarded = false := (h a c hc).1 hacc
      rw [exact_set_iff hs hc]
      unfold Balanced
      simp only [hc, Option.mem_def, Option.some.injEq, forall_eq']
      unfold weight Conn.alive
      cases hd : kind.discards point <;> cases ha : c.announced <;> cases hcl : c.closed <;>
        simp [hopen]
  | close a =>
      obtain ⟨c, hc, hst⟩ := Option.bind_eq_some_iff.mp hst
      simp only [Option.ite_none_right_eq_some] at hst
      obtain ⟨_, hst⟩ := hst
      unfold Balanced
      simp only [hc, Option.mem_def, Option.some.injEq, forall_eq']
      split_ifs at hst with hclosed
      · cases hst
        exact iff_of_true hs (fun hn => absurd hn (by simp [hclosed]))
      · cases hst
        rw [exact_stopConnection_iff hs hc]
        exact ⟨fun ha _ => ha, fun ha => ha (by simpa using hclosed)⟩
  | stopClient a =>
      obtain ⟨c, hc, hst⟩ := Option.bind_eq_some_iff.mp hst
      simp only [Option.ite_none_right_eq_some] at hst
      obtain ⟨_, hst⟩ := hst
      cases hst
      unfold Balanced
      simp only [hc, Option.mem_def, Option.some.injEq, forall_eq']
      exact exact_stopConnection_iff hs hc
  | destroy a =>
      obtain ⟨c, hc, hst⟩ := Option.bind_eq_some_iff.mp hst
      simp only [Option.ite_none_right_eq_some, Bool.and_eq_true, Bool.not_eq_true'] at hst
      obtain ⟨⟨_, halive⟩, hst⟩ := hst
      cases hst
      refine iff_of_true ?_ trivial
      have hremove := alive_remove hc
      rw [weight_not_alive halive] at hremove
      unfold Exact at hs ⊢
      simp only
      omega

end Clients

/-- **The client count is exact in every state of a run if and only if every step of the run keeps
the balance** (`Balanced`).  In particular it never goes below zero in such a run, and is zero when
no counted connection is alive. -/
theorem clients_count_iff (kind : ListenerKind) {es : List ClientsEvent} {s : Clients}
    (h : (clientsMachine kind).run es = some s) :
    (∀ p q s', es = p ++ q → (clientsMachine kind).run p = some s' → s'.Exact) ↔
      (clientsMachine kind).Meets (Clients.Balanced kind) (clientsMachine kind).init es := by
  apply (clientsMachine kind).forall_prefix_iff_meets (I := Clients.Fresh) (P := Clients.Exact)
    ?_ rfl ?_ ?_ h
  · intro a c hc
    cases hc
  · intro s e s' hfresh _ hb hst
    exact hfresh.step hb hst
  · intro s e s' hfresh hs hst
    exact Clients.exact_step_iff hfresh hs hst

/-- Two connections of a socket listener; the first one is closed by its user and again after a
write error. -/
theorem clients_count_two :
    let es : List ClientsEvent := [.create 1, .announce 1, .accepted 1, .create 2,
      .acceptFails 2 .setup, .create 3, .announce 3, .accepted 3, .close 1, .close 1, .destroy 1]
    ∃ s, (clientsMachine .socket).run es = some s ∧ s.count = 1 ∧
      ∀ p q s', es = p ++ q → (clientsMachine .socket).run p = some s' → s'.Exact := by
  intro es
  obtain ⟨s, hs, hcount⟩ : ∃ s, (clientsMachine .socket).run es = some s ∧ s.count = 1 :=
    (clientsMachine .socket).exists_run es _ (by decide +kernel)
  exact ⟨s, hs, hcount, (clients_count_iff .socket hs).mpr (by decide +kernel)⟩

/-- A slot of `on_new_connection_` raises: `on_accept` drops the connection, which is destroyed
without ever being closed, and the listener still counts it. -/
theorem failed_accept_counted :
    ∃ s, (clientsMachine .socket).run
        [.create 1, .announce 1, .acceptFails 1 .slot, .destroy 1] = some s ∧
      s.count = 1 ∧ s.conns.alive = 0 ∧ s.conns.entries.length = 0 ∧ ¬ s.Exact := by
  obtain ⟨s, hs, hcount, halive, hlen⟩ : ∃ s, (clientsMachine .socket).run
      [.create 1, .announce 1, .acceptFails 1 .slot, .destroy 1] = some s ∧
      s.count = 1 ∧ s.conns.alive = 0 ∧ s.conns.entries.length = 0 :=
    (clientsMachine .socket).exists_run _ _ (by decide +kernel)
  refine ⟨s, hs, hcount, halive, hlen, ?_⟩
  intro h
  unfold Clients.Exact at h
  rw [hcount, halive] at h
  cases h

/-- A client of the custom listener that is stopped twice: the count wraps. -/
example : ((clientsMachine .custom).run
    [.create 1, .announce 1, .accepted 1, .stopClient 1, .stopClient 1]).map (·.count) =
      some 18446744073709551615 := by
  decide +kernel

end Server

end Vtrc
