import Vtrc.Replies
import Vtrc.Stack

/-! # A connection over its two streams

The two ends of a connection with the streams between them.  What an end writes is serialized and
posted to its own stream (`send_message`, which passes no closure); what it reads are the messages
that its protocol pops from the stream of the other end (`pop_proto_message` in the loops
`on_rpc_process` and `on_rcp_call_ready`).  The protocol of an end appears twice, with the half that
packs in its own stream and the half that parses in the other one.

`Replies` puts a list of units between the ends, of which an end may receive the next one at any
moment.  `peers_refine` justifies this: whatever happens to the bytes, every run of a
connection is a run of the two ends with that list between them, and no end ever finds a message
that is not a unit.  `peers_deliver` says that a unit is not lost either: while its stream has
not stopped, the other end can always go on until it has received all that was written. -/

namespace Vtrc

/-- What the handshake has settled for the stream of each side. -/
structure Agreement where
  hash : Side → HashKind
  kind : Side → TransformerKind
  key : Side → Key
  opts : Side → SessionOptions

namespace Agreement

/-- The length limit of the end that reads the stream of `side`. -/
def limit (A : Agreement) (side : Side) : ℕ := (A.opts side.other).maxMessageLength.toNat

/-- The protocol that packs for the stream of `side`. -/
def packer (A : Agreement) (side : Side) : DefaultProtocol :=
  .sessionStart (A.hash side) (A.kind side) (A.key side) (A.opts side)

/-- The protocol that parses the stream of `side`. -/
def parser (A : Agreement) (side : Side) : DefaultProtocol :=
  .sessionStart (A.hash side) (A.kind side) (A.key side) (A.opts side.other)

theorem limit_lt (A : Agreement) (side : Side) : A.limit side < 2 ^ 32 :=
  (A.opts side.other).maxMessageLength.toNat_lt

end Agreement

/-- The ends, and the stream that each of them writes to. -/
structure Peers where
  ends : Side → RpcEnd
  streams : Side → Stack Empty

/-- A step of an end, of the stream of a side, and a turn of the loop in which an end takes a
message from its protocol. -/
inductive PeersEvent where
  | rpc (side : Side) (e : RpcEvent)
  | stream (side : Side) (e : StackEvent Empty)
  | read (side : Side)

/-- The steps of an end that are turns of that loop. -/
def RpcEvent.isRead : RpcEvent → Bool
  | .receive _ | .badMessage => true
  | _ => false

/-- The steps of a stream that an end makes. -/
def StackEvent.isOfEnd {κ : Type} : StackEvent κ → Bool
  | .write _ | .pop => true
  | _ => false

namespace Peers

/-- The closures of messages after the handshake: there are none. -/
def noClosure : Empty → DefaultProtocol → DefaultProtocol := nofun

theorem keeps_noClosure : Stack.Keeps noClosure := nofun

section
variable (sha256 : Bytes → Digest) (unit : Codec LowlevelUnit)

/-- `serialize_lowlevel`, and `write` without a closure. -/
def request (llu : LowlevelUnit) : WriteRequest Empty := { data := unit.serialize llu }

/-- `send_message`. -/
def sendMessage (t : Stack Empty) (llu : LowlevelUnit) : Stack Empty :=
  { t with sender := t.sender.write (request unit llu) }

def setStream (s : Peers) (side : Side) (t : Stack Empty) : Peers :=
  { s with streams := Function.update s.streams side t }

@[simp] theorem setStream_self (s : Peers) (side : Side) :
    s.setStream side (s.streams side) = s := by
  rw [setStream, Function.update_eq_self]

/-- The end has moved on to `r`; what it has written goes to its stream. -/
def setEnd (s : Peers) (side : Side) (r : RpcEnd) : Peers where
  ends := Function.update s.ends side r
  streams := Function.update s.streams side
    ((r.sent.drop (s.ends side).sent.length).foldl (sendMessage unit) (s.streams side))

/-- `connection_->close( )`, for the stream of the side. -/
def close (s : Peers) (side : Side) : Peers :=
  let t := s.streams side
  s.setStream side { t with sender := { t.sender with closed := true } }

/-- `pop_proto_message`. -/
def pop (t : Stack Empty) : Option (Stack Empty × Option LowlevelUnit) :=
  (t.receiver.protocol.popProtoMessage sha256 unit).bind (fun r =>
    (t.step sha256 noClosure .pop).map (fun t' => (t', r.2)))

variable (opts : Side → SessionOptions)

/-- A popped message is dispatched; one that is not a unit closes the connection, on a client after
an error for all calls. -/
def dispatch (s : Peers) (side : Side) : Option LowlevelUnit → Option Peers
  | some llu => ((s.ends side).step (opts side) (.receive llu)).map (s.setEnd unit side)
  | none =>
      match side with
      | .client => ((s.ends .client).step (opts .client) .badMessage).map
          (fun r => (s.setEnd unit .client r).close .client)
      | .server => some (s.close .server)

def step (s : Peers) : PeersEvent → Option Peers
  | .rpc side e =>
      if e.isRead then none
      else ((s.ends side).step (opts side) e).map (s.setEnd unit side)
  | .stream side e =>
      if e.isOfEnd then none
      else ((s.streams side).step sha256 noClosure e).map (s.setStream side)
  | .read side =>
      if (s.ends side).reader = none then
        (pop sha256 unit (s.streams side.other)).bind (fun r =>
          (s.setStream side.other r.1).dispatch unit opts side r.2)
      else none

end

/-- Every unit that `side` has written fits the limit of the end that reads it. -/
def FitsAt (unit : Codec LowlevelUnit) (A : Agreement) (s : Peers) (side : Side) : Prop :=
  ∀ u ∈ (s.ends side).sent, (unit.serialize u).length + (A.hash side).size ≤ A.limit side

def Fits (unit : Codec LowlevelUnit) (A : Agreement) (s : Peers) : Prop :=
  ∀ side, s.FitsAt unit A side

/-- See `RpcEnd.Addressed`. -/
def Addressed (s : Peers) : PeersEvent → Prop
  | .rpc side e => (s.ends side).Addressed e
  | _ => True

end Peers

/-- A connection whose two ends have just become ready. -/
def peers (sha256 : Bytes → Digest) (unit : Codec LowlevelUnit) (A : Agreement) :
    Machine Peers PeersEvent where
  init :=
    { ends := RpcEnd.initial
      streams := fun side => (stack sha256 Peers.noClosure (A.packer side) (A.parser side)).init }
  step := Peers.step sha256 unit A.opts

namespace Peers

open DefaultProtocol

/-! ### One stream -/

/-- The invariant of the stream of `side`; while it has not stopped, its submission is under way. -/
structure Runs (sha256 : Bytes → Digest) (A : Agreement) (side : Side) (t : Stack Empty) :
    Prop where
  holds : t.Holds sha256 (A.hash side) (.create (A.kind side) (A.key side)) (A.limit side)
  inv : ¬ t.sender.Stopped → ∃ done, t.sender.Inv done

/-- The stream of `side` carries what that end writes to the other one: its requests are the units
written, and the messages popped are the units that the other end has received. -/
structure Carries (sha256 : Bytes → Digest) (unit : Codec LowlevelUnit) (A : Agreement)
    (s : Peers) (side : Side) : Prop where
  runs : Runs sha256 A side (s.streams side)
  requests : (s.streams side).sender.requests = (s.ends side).sent.map (request unit)
  results : (s.streams side).receiver.results =
    (s.ends side.other).arrived.map (fun u => some (unit.serialize u))

variable {sha256 : Bytes → Digest} {unit : Codec LowlevelUnit} {A : Agreement} {s s' : Peers}
  {side : Side}

theorem Runs.step {t t' : Stack Empty} {e : StackEvent Empty} (h : Runs sha256 A side t)
    (hfit : t.Fits (A.hash side) (A.limit side)) (ht : t.step sha256 noClosure e = some t') :
    Runs sha256 A side t' :=
  ⟨h.holds.step keeps_noClosure (A.limit_lt side) hfit ht,
    Stack.inv_of_step h.holds.safe h.inv ht⟩

theorem Runs.write {t : Stack Empty} (h : Runs sha256 A side t) (r : WriteRequest Empty) :
    Runs sha256 A side { t with sender := t.sender.write r } := by
  have ht : t.step sha256 noClosure (.write r) = some { t with sender := t.sender.write r } := rfl
  exact ⟨h.holds.write r, Stack.inv_of_step h.holds.safe h.inv ht⟩

theorem carries_initial (side : Side) :
    Carries sha256 unit A (peers sha256 unit A).init side where
  runs :=
    { holds := Stack.holds_start sha256 noClosure _ _ _ _ _
      inv := fun _ => ⟨0, @Transport.inv_init _ _ (packMessage sha256) noClosure _⟩ }
  requests := rfl
  results := rfl

theorem Carries.fits (h : s.Carries sha256 unit A side) (hfit : s.FitsAt unit A side) :
    (s.streams side).Fits (A.hash side) (A.limit side) := by
  intro r hr
  rw [h.requests] at hr
  obtain ⟨u, hu, rfl⟩ := List.mem_map.mp hr
  exact hfit u hu

theorem other_of_ne {side x : Side} (h : side ≠ x) : side.other = x := by
  cases side <;> cases x <;> first | rfl | exact absurd rfl h

theorem serialize_injective (hunit : unit.Lawful) : Function.Injective unit.serialize := by
  intro a b hab
  have ha := hunit a
  rw [hab, hunit b] at ha
  exact (Prod.mk.inj ha).2.symm

theorem Carries.payloads_prefix (h : s.Carries sha256 unit A side) :
    (s.streams side).payloads <+: (s.ends side).sent.map unit.serialize := by
  obtain ⟨done, hsafe⟩ := h.runs.holds.safe
  have hall := Stack.payloads_eq hsafe
  rw [h.requests, List.map_map] at hall
  exact ⟨_, hall⟩

theorem Carries.arrived (h : s.Carries sha256 unit A side) (hunit : unit.Lawful) :
    (s.ends side.other).arrived <+: (s.ends side).sent := by
  obtain ⟨popped, todo, hf⟩ := h.runs.holds.following
  have hpopped : popped = (s.ends side.other).arrived.map unit.serialize := by
    refine List.map_injective_iff.mpr (Option.some_injective _) ?_
    rw [List.map_map]
    exact hf.results.symm.trans h.results
  have hpre := (List.prefix_append popped todo).trans (hf.split ▸ h.payloads_prefix)
  rw [hpopped] at hpre
  exact (List.prefix_map_iff_of_injective (serialize_injective hunit)).mp hpre

variable (unit) in
theorem runs_sends (us : List LowlevelUnit) : ∀ {t : Stack Empty}, Runs sha256 A side t →
    Runs sha256 A side (us.foldl (sendMessage unit) t) ∧
      (us.foldl (sendMessage unit) t).sender.requests = t.sender.requests ++ us.map (request unit) ∧
      (us.foldl (sendMessage unit) t).receiver = t.receiver := by
  induction us with
  | nil =>
      intro t ht
      exact ⟨ht, (List.append_nil _).symm, rfl⟩
  | cons u us ih =>
      intro t ht
      obtain ⟨hruns, hreq, hrec⟩ := ih (t := sendMessage unit t u) (ht.write (request unit u))
      refine ⟨hruns, ?_, hrec⟩
      rw [List.foldl_cons, hreq, List.map_cons]
      exact List.append_assoc _ _ _

/-- **An end moves on**, and its stream carries what it has written. -/
theorem Carries.setEnd (h : s.Carries sha256 unit A side) {e : RpcEvent} {r : RpcEnd}
    {o : SessionOptions} (hr : (s.ends side).step o e = some r) :
    (s.setEnd unit side r).Carries sha256 unit A side := by
  have hgrows := RpcEnd.grows_step hr
  have hself : (s.setEnd unit side r).ends side = r := Function.update_self _ _ _
  have hother : (s.setEnd unit side r).ends side.other = s.ends side.other := by
    refine Function.update_of_ne ?_ _ _
    cases side <;> decide
  have hstream : (s.setEnd unit side r).streams side =
      (r.sent.drop (s.ends side).sent.length).foldl (sendMessage unit) (s.streams side) :=
    Function.update_self _ _ _
  obtain ⟨hruns, hreq, hrec⟩ :=
    runs_sends unit (r.sent.drop (s.ends side).sent.length) h.runs
  refine ⟨?_, ?_, ?_⟩
  · rw [hstream]
    exact hruns
  · rw [hstream, hself, hreq, h.requests, ← List.map_append, ← List.prefix_append_drop hgrows.sent]
  · rw [hstream, hother, hrec]
    exact h.results

theorem Carries.setEnd_other (h : s.Carries sha256 unit A side) {x : Side} (hx : side ≠ x)
    {e : RpcEvent} {r : RpcEnd} {o : SessionOptions} (hr : (s.ends x).step o e = some r)
    {t : Stack Empty} (hruns : Runs sha256 A side t)
    (hreq : t.sender.requests = (s.streams side).sender.requests)
    (hres : t.receiver.results = (s.streams side).receiver.results ++
      (RpcEnd.received e).map (fun u => some (unit.serialize u))) :
    ((s.setStream side t).setEnd unit x r).Carries sha256 unit A side := by
  have hgrows := RpcEnd.grows_step hr
  have hself : ((s.setStream side t).setEnd unit x r).ends side = s.ends side :=
    Function.update_of_ne hx _ _
  have hother : ((s.setStream side t).setEnd unit x r).ends side.other = r := by
    rw [other_of_ne hx]
    exact Function.update_self _ _ _
  have hstream : ((s.setStream side t).setEnd unit x r).streams side = t :=
    (Function.update_of_ne hx _ _).trans (Function.update_self _ _ _)
  refine ⟨?_, ?_, ?_⟩
  · rw [hstream]
    exact hruns
  · rw [hstream, hself, hreq]
    exact h.requests
  · rw [hstream, hother, hres, h.results, other_of_ne hx, hgrows.arrived, List.map_append]

/-- **The stream moves on** by itself. -/
theorem Carries.setStream (h : s.Carries sha256 unit A side) (hfit : s.FitsAt unit A side)
    {e : StackEvent Empty} (he : e.isOfEnd = false) {t : Stack Empty}
    (ht : (s.streams side).step sha256 noClosure e = some t) :
    (s.setStream side t).Carries sha256 unit A side := by
  have hstream : (s.setStream side t).streams side = t := Function.update_self _ _ _
  refine ⟨?_, ?_, ?_⟩
  · rw [hstream]
    exact h.runs.step (h.fits hfit) ht
  · rw [hstream, Stack.requests_of_step h.runs.holds.safe ht]
    cases e with
    | write => cases he
    | _ => exact (List.append_nil _).trans h.requests
  · rw [hstream, Stack.results_of_step _ ht]
    · exact h.results
    · rintro rfl
      cases he

theorem Carries.setStream_other (h : s.Carries sha256 unit A side) {x : Side} (hx : side ≠ x)
    (t : Stack Empty) : (s.setStream x t).Carries sha256 unit A side := by
  have hstream : (s.setStream x t).streams side = s.streams side := Function.update_of_ne hx _ _
  exact ⟨hstream ▸ h.runs, hstream ▸ h.requests, hstream ▸ h.results⟩

/-- **A message is popped**: it is the next unit written. -/
theorem Carries.pop (h : s.Carries sha256 unit A side) (hunit : unit.Lawful)
    (hfit : s.FitsAt unit A side) {t : Stack Empty} {r : Option LowlevelUnit}
    (hpop : pop sha256 unit (s.streams side) = some (t, r)) :
    ∃ u, r = some u ∧ (s.ends side).sent[(s.ends side.other).arrived.length]? = some u ∧
      Runs sha256 A side t ∧ t.sender.requests = (s.streams side).sender.requests ∧
      t.receiver.results = (s.streams side).receiver.results ++ [some (unit.serialize u)] := by
  obtain ⟨q, hq, hstep⟩ := Option.bind_eq_some_iff.mp hpop
  obtain ⟨t', ht, heq⟩ := Option.map_eq_some_iff.mp hstep
  obtain ⟨rfl, rfl⟩ := Prod.mk.inj heq
  obtain ⟨⟨p, res⟩, hraw, rfl⟩ := Option.map_eq_some_iff.mp hq
  obtain ⟨popped, todo, hf⟩ := h.runs.holds.following
  obtain ⟨d, todo', rfl, rfl, _⟩ := hf.synced.pop hraw
  have hlen : popped.length = (s.ends side.other).arrived.length := by
    have heq := congrArg List.length (hf.results.symm.trans h.results)
    rwa [List.length_map, List.length_map] at heq
  obtain ⟨u, hu, rfl⟩ : ∃ u, (s.ends side).sent[popped.length]? = some u ∧ unit.serialize u = d := by
    obtain ⟨rest, hrest⟩ := h.payloads_prefix
    have hget : ((s.ends side).sent.map unit.serialize)[popped.length]? = some d := by
      rw [← hrest, hf.split, List.append_assoc, List.getElem?_append_right le_rfl, Nat.sub_self]
      rfl
    rw [List.getElem?_map] at hget
    exact Option.map_eq_some_iff.mp hget
  rw [hlen] at hu
  refine ⟨u, ?_, hu, h.runs.step (h.fits hfit) ht, ?_, ?_⟩
  · simp only [Option.bind_some, hunit u, if_true]
  · exact (Stack.requests_of_step h.runs.holds.safe ht).trans (List.append_nil _)
  · obtain ⟨x, hx, rfl⟩ := Option.map_eq_some_iff.mp ht
    obtain ⟨⟨p', res'⟩, hraw', rfl⟩ := Option.map_eq_some_iff.mp hx
    rw [hraw] at hraw'
    cases hraw'
    rfl

/-! ### A connection is a link -/

theorem ends_of_step {e : PeersEvent} (h : s.step sha256 unit A.opts e = some s') :
    s'.ends = s.ends ∨ ∃ side re r, (s.ends side).step (A.opts side) re = some r ∧
      s'.ends = Function.update s.ends side r := by
  cases e with
  | rpc side re =>
      simp only [step] at h
      split_ifs at h
      obtain ⟨r, hr, rfl⟩ := Option.map_eq_some_iff.mp h
      exact .inr ⟨side, re, r, hr, rfl⟩
  | stream side e =>
      simp only [step] at h
      split_ifs at h
      obtain ⟨t, _, rfl⟩ := Option.map_eq_some_iff.mp h
      exact .inl rfl
  | read side =>
      simp only [step] at h
      split_ifs at h
      obtain ⟨⟨t, o⟩, _, h⟩ := Option.bind_eq_some_iff.mp h
      cases o with
      | some llu =>
          obtain ⟨r, hr, rfl⟩ := Option.map_eq_some_iff.mp h
          exact .inr ⟨side, _, r, hr, rfl⟩
      | none =>
          cases side with
          | client =>
              obtain ⟨r, hr, rfl⟩ := Option.map_eq_some_iff.mp h
              exact .inr ⟨.client, _, r, hr, rfl⟩
          | server =>
              obtain rfl := Option.some.inj h
              exact .inl rfl

theorem Fits.of_step {e : PeersEvent} (h : s.step sha256 unit A.opts e = some s')
    (hfit : s'.Fits unit A) : s.Fits unit A := by
  rcases ends_of_step h with heq | ⟨side, re, r, hr, heq⟩
  · intro x u hu
    exact hfit x u (by rwa [heq])
  · intro x u hu
    refine hfit x u ?_
    rw [heq]
    by_cases hx : x = side
    · subst hx
      rw [Function.update_self]
      exact (RpcEnd.grows_step hr).sent.subset hu
    · rwa [Function.update_of_ne hx]

theorem link_step {e : RpcEvent} {r : RpcEnd} (hr : (s.ends side).step (A.opts side) e = some r)
    (hd : Link.Delivers ⟨s.ends⟩ side e) :
    (linkMachine A.opts).runFrom ⟨s.ends⟩ [(side, e)] = some ⟨Function.update s.ends side r⟩ := by
  refine (Machine.runFrom_cons_eq_some _).mpr ⟨_, ?_, rfl⟩
  simp only [linkMachine, Link.step]
  rw [if_pos hd, hr]
  rfl

/-- The two streams carry what the ends write, and the ends are those of the link. -/
def Shows (sha256 : Bytes → Digest) (unit : Codec LowlevelUnit) (A : Agreement) (s : Peers)
    (l : Link) : Prop :=
  l = ⟨s.ends⟩ ∧ ∀ x, s.Carries sha256 unit A x

/-- **Every step** is one of the link, or none. -/
theorem Shows.step {l : Link} (h : s.Shows sha256 unit A l) (hunit : unit.Lawful) {e : PeersEvent}
    (hfit : s'.Fits unit A) (hstep : s.step sha256 unit A.opts e = some s') :
    ∃ fs l', (linkMachine A.opts).runFrom l fs = some l' ∧ s'.Shows sha256 unit A l' ∧
      (s.Addressed e → (linkMachine A.opts).Meets Link.Addressed l fs) := by
  obtain ⟨rfl, h⟩ := h
  have hfit := hfit.of_step hstep
  cases e with
  | rpc side e =>
      simp only [Peers.step] at hstep
      split_ifs at hstep with he
      obtain ⟨r, hr, rfl⟩ := Option.map_eq_some_iff.mp hstep
      have hd : Link.Delivers ⟨s.ends⟩ side e := by
        cases e with
        | receive u => exact absurd rfl he
        | _ => trivial
      have hnil : RpcEnd.received e = [] := by
        cases e with
        | receive u => exact absurd rfl he
        | _ => rfl
      refine ⟨[(side, e)], _, link_step hr hd, ⟨rfl, fun x => ?_⟩,
        fun hc => ⟨hc, fun _ _ => trivial⟩⟩
      by_cases hx : x = side
      · subst hx
        exact (h x).setEnd hr
      · have hmove := (h x).setEnd_other hx hr (h x).runs rfl (by rw [hnil]; simp)
        rwa [setStream_self] at hmove
  | stream side e =>
      simp only [Peers.step] at hstep
      split_ifs at hstep with he
      obtain ⟨t, ht, rfl⟩ := Option.map_eq_some_iff.mp hstep
      refine ⟨[], _, rfl, ⟨rfl, fun x => ?_⟩, fun _ => trivial⟩
      by_cases hx : x = side
      · subst hx
        exact (h x).setStream (hfit x) (by simpa using he) ht
      · exact (h x).setStream_other hx t
  | read side =>
      simp only [Peers.step] at hstep
      split_ifs at hstep with hreader
      obtain ⟨⟨t, o⟩, hpop, hstep⟩ := Option.bind_eq_some_iff.mp hstep
      obtain ⟨u, rfl, hu, hruns, hreq, hres⟩ := (h side.other).pop hunit (hfit side.other) hpop
      rw [Side.other_other] at hu
      obtain ⟨r, hr, rfl⟩ := Option.map_eq_some_iff.mp hstep
      refine ⟨[(side, .receive u)], _, link_step hr hu, ⟨rfl, fun x => ?_⟩,
        fun _ => ⟨trivial, fun _ _ => trivial⟩⟩
      by_cases hx : x = side
      · subst hx
        have hne : x ≠ x.other := by cases x <;> decide
        exact ((h x).setStream_other hne t).setEnd hr
      · obtain rfl : side.other = x := other_of_ne (Ne.symm hx)
        exact (h side.other).setEnd_other hx hr hruns hreq hres

/-- **Every run** of a connection shows a run of the link. -/
theorem exists_shows (hunit : unit.Lawful) {es : List PeersEvent}
    (hrun : (peers sha256 unit A).run es = some s) (hfit : s.Fits unit A) :
    ∃ fs l, (linkMachine A.opts).run fs = some l ∧ s.Shows sha256 unit A l ∧
      ((peers sha256 unit A).Meets Addressed (peers sha256 unit A).init es →
        (linkMachine A.opts).Meets Link.Addressed (linkMachine A.opts).init fs) :=
  (peers sha256 unit A).exists_run_of_simulates ⟨rfl, carries_initial⟩
    (fun _ _ _ hstep hfit => Fits.of_step hstep hfit)
    (fun _ _ _ _ h hfit hstep => h.step hunit hfit hstep) hrun hfit

end Peers

/-- **A connection refines a link.**  In every run of two ends over their streams, with the bytes
cut anywhere and with errors and closing at any moment, every message that an end pops is the next
unit that the other has written, and the ends have made a run of the link: what holds of all those
runs holds of connections. -/
theorem peers_refine (sha256 : Bytes → Digest) (unit : Codec LowlevelUnit) (hunit : unit.Lawful)
    (A : Agreement) (es : List PeersEvent) (s : Peers)
    (hrun : (peers sha256 unit A).run es = some s) (hfit : s.Fits unit A) :
    (∀ side, (s.streams side).receiver.errors = [] ∧
      (s.streams side).receiver.results =
        (s.ends side.other).arrived.map (fun u => some (unit.serialize u)) ∧
      (s.ends side.other).arrived <+: (s.ends side).sent) ∧
    ∃ fs, (linkMachine A.opts).run fs = some ⟨s.ends⟩ ∧
      ((peers sha256 unit A).Meets Peers.Addressed (peers sha256 unit A).init es →
        (linkMachine A.opts).Meets Link.Addressed (linkMachine A.opts).init fs) := by
  obtain ⟨fs, l, hl, ⟨rfl, hcarries⟩, hmeets⟩ := Peers.exists_shows hunit hrun hfit
  refine ⟨fun side => ?_, fs, hl, hmeets⟩
  obtain ⟨popped, todo, hf⟩ := (hcarries side).runs.holds.following
  exact ⟨hf.errors, (hcarries side).results, (hcarries side).arrived hunit⟩

/-- A call that does not wait. -/
def postedCall : LowlevelUnit where
  id := 103
  messageType := .clientCall
  serviceId := "s"
  methodId := "m"

/-- A lawful codec with the wire bytes of the call. -/
noncomputable def postedCodec : Codec LowlevelUnit := .withBytes postedCall
  [0x08, 0x67, 0x1a, 0x02, 0x08, 0x01, 0x22, 0x06, 0x0a, 0x01, 0x73, 0x12, 0x01, 0x6d, 0x32, 0x04,
   0x10, 0x00, 0x28, 0x00]

theorem postedCodec_lawful : postedCodec.Lawful := Codec.withBytes_lawful _ (by decide)

/-- No hash and no cipher. -/
def plainAgreement : Agreement where
  hash _ := .none
  kind _ := .none
  key _ := ⟨[0x6b], by decide⟩
  opts _ := .defaults

/-- The client makes the call and writes it. -/
def postCall : List PeersEvent :=
  [.rpc .client (.start (.create .client { disableWait := true } none) none
      ⟨"s", "m", none, false, true, true⟩), .rpc .client (.out 0 (.fire true))]

theorem fits_postedCall {s : Peers} (hclient : (s.ends .client).sent = [postedCall])
    (hserver : (s.ends .server).sent = []) : s.Fits postedCodec plainAgreement := by
  intro side u hu
  cases side with
  | client =>
      rw [hclient, List.mem_singleton] at hu
      rw [hu]
      decide +kernel
  | server =>
      rw [hserver] at hu
      cases hu

/-- The call on its way to the server, in two pieces. -/
theorem peers_refine_call :
    let hash : Bytes → Digest := fun _ => ⟨List.replicate 32 0, rfl⟩
    let es : List PeersEvent := postCall ++ [.stream .client .writeImpl, .stream .client (.take 21),
      .stream .client (.deliver 2), .stream .client (.deliver 19), .read .server]
    ∃ s fs, (peers hash postedCodec plainAgreement).run es = some s ∧
      (s.ends .server).arrived = [postedCall] ∧
      (linkMachine plainAgreement.opts).run fs = some ⟨s.ends⟩ := by
  intro hash es
  have hrun : ((peers hash postedCodec plainAgreement).run es).map
      (fun s => ((s.ends .client).sent, (s.ends .server).sent, (s.ends .server).arrived)) =
        some ([postedCall], [], [postedCall]) := by
    decide +kernel
  obtain ⟨s, hs, heq⟩ := Option.map_eq_some_iff.mp hrun
  simp only [Prod.mk.injEq] at heq
  obtain ⟨_, fs, hfs, _⟩ := peers_refine hash postedCodec postedCodec_lawful plainAgreement es s hs
    (fits_postedCall heq.1 heq.2.1)
  exact ⟨s, fs, hs, heq.2.2, hfs⟩

/-! ### Every unit arrives -/

namespace RpcEnd

variable {opts : SessionOptions} {s : RpcEnd}

theorem ReceiveDoes.ready {llu : LowlevelUnit} {s' : RpcEnd} (h : s.ReceiveDoes opts llu s') :
    s'.ready = s.ready := by
  cases h with
  | called htype h => cases h <;> rfl
  | _ => rfl

@[simp] theorem receive_ready (llu : LowlevelUnit) : (s.receive opts llu).ready = s.ready :=
  (receiveDoes_receive opts s llu).ready

@[simp] theorem proceed_ready (hd : Held) : (s.proceed hd).ready = s.ready := by cases hd <;> rfl

end RpcEnd

/-- What brings the units of `side` to the other end: its stream, by itself, and the other end's
reading thread. -/
def PeersEvent.Brings (side : Side) : PeersEvent → Prop
  | .stream x e => x = side ∧ e.Forward
  | .read x => x = side.other
  | .rpc x .proceed => x = side.other
  | .rpc _ _ => False

namespace Peers

open DefaultProtocol

variable {sha256 : Bytes → Digest} {unit : Codec LowlevelUnit} {A : Agreement} {s : Peers}
  {side : Side}

theorem ne_other (side : Side) : side ≠ side.other := by cases side <;> decide

/-- The end is ready and has not closed its connection, so that it goes on reading. -/
def Reads (s : Peers) (side : Side) : Prop :=
  (s.ends side).ready = true ∧ (s.streams side).sender.closed = false

theorem closed_sends (us : List LowlevelUnit) (t : Stack Empty) :
    (us.foldl (sendMessage unit) t).sender.closed = t.sender.closed := by
  induction us generalizing t with
  | nil => rfl
  | cons u us ih => exact ih (sendMessage unit t u)

theorem Reads.setEnd (h : s.Reads side) {r : RpcEnd} (hr : r.ready = (s.ends side).ready) :
    (s.setEnd unit side r).Reads side := by
  simp only [Reads, Peers.setEnd, Function.update_self, hr, closed_sends]
  exact h

theorem Reads.setStream (h : s.Reads side) {x : Side} (hx : side ≠ x) (t : Stack Empty) :
    (s.setStream x t).Reads side := by
  simp only [Reads, Peers.setStream, Function.update_of_ne hx]
  exact h

variable (unit) in
theorem setEnd_frame (s : Peers) (side : Side) (r : RpcEnd) :
    (s.setEnd unit side.other r).ends side = s.ends side ∧
      (s.setEnd unit side.other r).streams side = s.streams side ∧
      (s.setEnd unit side.other r).ends side.other = r :=
  ⟨Function.update_of_ne (ne_other side) _ _, Function.update_of_ne (ne_other side) _ _,
    Function.update_self _ _ _⟩

/-- Events that bring units of `side` lead from `s` to `s'`, where its stream is `t`; the writer has
done nothing, and the other end reads on. -/
structure Goes (sha256 : Bytes → Digest) (unit : Codec LowlevelUnit) (A : Agreement) (side : Side)
    (s s' : Peers) (t : Stack Empty) : Prop where
  events : ∃ es, (∀ e ∈ es, PeersEvent.Brings side e) ∧
    (peers sha256 unit A).runFrom s es = some s'
  carries : s'.Carries sha256 unit A side
  reads : s'.Reads side.other
  ends : s'.ends side = s.ends side
  stream : s'.streams side = t

theorem Goes.refl (h : s.Carries sha256 unit A side) (hreads : s.Reads side.other) :
    s.Goes sha256 unit A side s (s.streams side) :=
  ⟨⟨[], fun _ he => absurd he List.not_mem_nil, rfl⟩, h, hreads, rfl, rfl⟩

theorem Goes.trans {s₁ s₂ s₃ : Peers} {t u : Stack Empty} (h : s₁.Goes sha256 unit A side s₂ t)
    (h' : s₂.Goes sha256 unit A side s₃ u) : s₁.Goes sha256 unit A side s₃ u := by
  obtain ⟨es, hes, hrun⟩ := h.events
  obtain ⟨es', hes', hrun'⟩ := h'.events
  refine ⟨⟨es ++ es', ?_, (Machine.runFrom_append_eq_some _).mpr ⟨s₂, hrun, hrun'⟩⟩, h'.carries,
    h'.reads, h'.ends.trans h.ends, h'.stream⟩
  intro e he
  rcases List.mem_append.mp he with he | he
  · exact hes e he
  · exact hes' e he

theorem Goes.one {e : PeersEvent} {s' : Peers} {t : Stack Empty}
    (hstep : s.step sha256 unit A.opts e = some s') (he : e.Brings side)
    (h : s'.Carries sha256 unit A side) (hreads : s'.Reads side.other)
    (hends : s'.ends side = s.ends side) (hstream : s'.streams side = t) :
    s.Goes sha256 unit A side s' t :=
  ⟨⟨[e], List.forall_mem_singleton.mpr he,
    (Machine.runFrom_cons_eq_some _).mpr ⟨s', hstep, rfl⟩⟩, h, hreads, hends, hstream⟩

theorem Carries.exists_idle (h : s.Carries sha256 unit A side) (hreads : s.Reads side.other) :
    ∃ s', s.Goes sha256 unit A side s' (s.streams side) ∧ (s'.ends side.other).reader = none := by
  cases hreader : (s.ends side.other).reader with
  | none => exact ⟨s, .refl h hreads, hreader⟩
  | some hd =>
      have hr : (s.ends side.other).step (A.opts side.other) .proceed =
          some ((s.ends side.other).proceed hd) := by
        rw [RpcEnd.step, hreader]
        rfl
      have hkeep := h.setEnd_other (ne_other side) hr h.runs rfl (by simp [RpcEnd.received])
      rw [setStream_self] at hkeep
      obtain ⟨hends, hstream, hother⟩ :=
        setEnd_frame unit s side ((s.ends side.other).proceed hd)
      have hstep : s.step sha256 unit A.opts (.rpc side.other .proceed) =
          some (s.setEnd unit side.other ((s.ends side.other).proceed hd)) := by
        rw [Peers.step, if_neg (by decide), hr]
        rfl
      refine ⟨_, .one hstep rfl hkeep (hreads.setEnd (RpcEnd.proceed_ready hd)) hends hstream, ?_⟩
      rw [hother]
      cases hd <;> rfl

theorem Carries.exists_read (h : s.Carries sha256 unit A side) (hreads : s.Reads side.other)
    (hunit : unit.Lawful) (hfit : s.FitsAt unit A side) {t : Stack Empty}
    (ht : (s.streams side).step sha256 noClosure .pop = some t) :
    ∃ s', s.Goes sha256 unit A side s' t := by
  obtain ⟨s₁, hgoes, hreader⟩ := h.exists_idle hreads
  rw [← hgoes.stream] at ht
  have hfit₁ : s₁.FitsAt unit A side := by rwa [FitsAt, hgoes.ends]
  obtain ⟨r, hpop⟩ : ∃ r, Peers.pop sha256 unit (s₁.streams side) = some (t, r) := by
    obtain ⟨x, hx, rfl⟩ := Option.map_eq_some_iff.mp ht
    obtain ⟨⟨p, res⟩, hraw, rfl⟩ := Option.map_eq_some_iff.mp hx
    refine ⟨res.bind (fun d => if (unit.parse d).1 then some (unit.parse d).2 else none), ?_⟩
    rw [Peers.pop, popProtoMessage, hraw]
    exact congrArg (Option.map (fun t' => (t', _))) ht
  obtain ⟨u, rfl, _, hruns, hreq, hres⟩ := hgoes.carries.pop hunit hfit₁ hpop
  have hr : (s₁.ends side.other).step (A.opts side.other) (.receive u) =
      some ((s₁.ends side.other).receive (A.opts side.other) u) := by
    rw [RpcEnd.step, if_pos hreader]
  have hkeep := hgoes.carries.setEnd_other (ne_other side) hr hruns hreq hres
  obtain ⟨hends', hstream', _⟩ := setEnd_frame unit (s₁.setStream side t) side
    ((s₁.ends side.other).receive (A.opts side.other) u)
  have hstep : s₁.step sha256 unit A.opts (.read side.other) =
      some ((s₁.setStream side t).setEnd unit side.other
        ((s₁.ends side.other).receive (A.opts side.other) u)) := by
    rw [Peers.step, if_pos hreader, Side.other_other, hpop, Option.bind_some, dispatch]
    exact congrArg (Option.map _) hr
  exact ⟨_, hgoes.trans (.one hstep rfl hkeep
    ((hgoes.reads.setStream (ne_other side).symm t).setEnd (RpcEnd.receive_ready u)) hends'
    (hstream'.trans (Function.update_self _ _ _)))⟩

/-- What a stream can do by itself, the connection can do. -/
theorem Carries.exists_goes (hunit : unit.Lawful) {p q : DefaultProtocol}
    {fs : List (StackEvent Empty)} :
    ∀ {s : Peers} {t : Stack Empty}, s.Carries sha256 unit A side → s.Reads side.other →
      s.FitsAt unit A side → (∀ e ∈ fs, StackEvent.Forward e) →
      (stack sha256 noClosure p q).runFrom (s.streams side) fs = some t →
      ∃ s', s.Goes sha256 unit A side s' t := by
  induction fs with
  | nil =>
      intro s t h hreads _ _ hrun
      obtain rfl := Option.some.inj hrun
      exact ⟨s, .refl h hreads⟩
  | cons e fs ih =>
      intro s t h hreads hfit hfs hrun
      obtain ⟨t₁, ht₁, hrun⟩ := (Machine.runFrom_cons_eq_some _).mp hrun
      obtain ⟨he, hfs⟩ := List.forall_mem_cons.mp hfs
      obtain ⟨s₁, hgoes⟩ : ∃ s₁, s.Goes sha256 unit A side s₁ t₁ := by
        by_cases hend : e.isOfEnd = true
        · cases e with
          | write => exact he.elim
          | pop => exact h.exists_read hreads hunit hfit ht₁
          | _ => cases hend
        · have hend : e.isOfEnd = false := by simpa using hend
          have hstep : s.step sha256 unit A.opts (.stream side e) = some (s.setStream side t₁) := by
            rw [Peers.step, if_neg (by simp [hend])]
            exact congrArg (Option.map _) ht₁
          exact ⟨_, .one hstep ⟨rfl, he⟩ (h.setStream hfit hend ht₁)
            (hreads.setStream (ne_other side).symm t₁) rfl (Function.update_self _ _ _)⟩
      have hfit₁ : s₁.FitsAt unit A side := by rwa [FitsAt, hgoes.ends]
      rw [← hgoes.stream] at hrun
      obtain ⟨s', hrest⟩ := ih hgoes.carries hgoes.reads hfit₁ hfs hrun
      exact ⟨s', hgoes.trans hrest⟩

end Peers

/-- **Every unit arrives.**  While the stream of an end has neither failed nor been closed and the
other end reads, the connection can go on, with nothing but that stream and the other end's reading
thread, until the other end has received exactly what the end has written, in order. -/
theorem peers_deliver (sha256 : Bytes → Digest) (unit : Codec LowlevelUnit) (hunit : unit.Lawful)
    (A : Agreement) (es : List PeersEvent) (s : Peers)
    (hrun : (peers sha256 unit A).run es = some s) (hfit : s.Fits unit A) (side : Side)
    (hopen : ¬ (s.streams side).sender.Stopped) (hreads : s.Reads side.other) :
    ∃ fs s', (∀ e ∈ fs, PeersEvent.Brings side e) ∧
      (peers sha256 unit A).runFrom s fs = some s' ∧ s'.ends side = s.ends side ∧
      s'.Reads side.other ∧
      (s'.ends side.other).arrived = (s.ends side).sent := by
  obtain ⟨_, _, _, ⟨_, hall⟩, _⟩ := Peers.exists_shows hunit hrun hfit
  have hcarries := hall side
  have hlive : Stack.Live sha256 (A.hash side) (.create (A.kind side) (A.key side)) (A.limit side)
      ((s.ends side).sent.map (Peers.request unit)) (s.streams side) :=
    ⟨hcarries.runs.holds, hcarries.fits (hfit side), hcarries.runs.inv hopen, hcarries.requests⟩
  obtain ⟨fs, t, hfs, hrest, hlive', hd⟩ := hlive.delivers Peers.keeps_noClosure (A.limit_lt side)
    (A.packer side) (A.parser side)
  obtain ⟨s', ⟨es', hes', hrun'⟩, hcarries', hreads', hends, rfl⟩ :=
    hcarries.exists_goes hunit hreads (hfit side) hfs hrest
  refine ⟨es', s', hes', hrun', hends, hreads', ?_⟩
  have hres := (hlive'.drained hd).2
  rw [hcarries'.results, List.map_map] at hres
  exact List.map_injective_iff.mpr
    ((Option.some_injective _).comp (Peers.serialize_injective hunit)) hres

/-- A call that has only been written. -/
theorem peers_deliver_call :
    let hash : Bytes → Digest := fun _ => ⟨List.replicate 32 0, rfl⟩
    ∃ s fs s', (peers hash postedCodec plainAgreement).run postCall = some s ∧
      (s.ends .server).arrived = [] ∧
      (peers hash postedCodec plainAgreement).runFrom s fs = some s' ∧
      (s'.ends .server).arrived = [postedCall] := by
  intro hash
  have hrun : ((peers hash postedCodec plainAgreement).run postCall).map
      (fun s => ((s.ends .client).sent, (s.ends .server).sent, (s.ends .server).arrived,
        [(s.streams .client).sender.closed, (s.streams .client).sender.trace.isEmpty,
          (s.ends .server).ready, (s.streams .server).sender.closed])) =
        some ([postedCall], [], [], [false, true, true, false]) := by
    decide +kernel
  obtain ⟨s, hs, heq⟩ := Option.map_eq_some_iff.mp hrun
  simp only [Prod.mk.injEq] at heq
  obtain ⟨hclient, hserver, harrived, hflags⟩ := heq
  simp only [List.cons.injEq, List.isEmpty_iff, and_true] at hflags
  obtain ⟨hclosed, htrace, hreads⟩ := hflags
  have hopen : ¬ (s.streams .client).sender.Stopped := by
    rintro (h | ⟨i, hi⟩)
    · rw [hclosed] at h
      cases h
    · rw [htrace] at hi
      cases hi
  obtain ⟨fs, s', _, hfs, _, _, hall⟩ := peers_deliver hash postedCodec postedCodec_lawful
    plainAgreement postCall s hs (fits_postedCall hclient hserver) .client hopen hreads
  exact ⟨s, fs, s', hs, harrived, hfs, hall.trans hclient⟩

end Vtrc
