import Vtrc.Server.Channels

/-! # A broadcast that meets a disconnect (`broadcast_channel::send_message`)

`Channels.sendBroadcast` leaves open how many clients a broadcast comes to.  Here the loop is
written out: `foreach_while` goes through the list under its lock, `send_to_client` tests `active`
and then calls `configure_message` and `call_rpc_method`, which tests `ready_` once more and
raises.  Between the two tests a connection may have lost its readiness (`Readiness`).

* `loop_spec` is what the loop does: it comes to the first connection whose send raises
  (`reached`), and every connection on the way gets the unit that it would have got alone.
* `sendMessage_ready`: where the connections stay ready, this is `Channels.sendBroadcast`.
* `broadcast_reaches_all_iff`: a broadcast reaches everybody if and only if no active connection
  comes after one whose send raises.  The exception leaves `foreach_while`, and the connections
  behind it are not visited (`broadcast_stopped`). -/

namespace Vtrc

namespace Server

/-- `clients_` of a `connection_list`, in the order of its keys. -/
abbrev ConnectionList := { cs : List ℕ // cs.Nodup }

/-- What a broadcast raises. -/
inductive BroadcastError where
  | connectionLost
  | invalidContext
  | comm
deriving DecidableEq, Repr

/-- What `active` returns for a connection when it is visited, and `ready_` when the unit is sent
to it. -/
structure Readiness where
  active : ℕ → Bool
  ready : ℕ → Bool

/-- `connection_list::impl::foreach_while`: the count of the calls that returned `true`, or what
the call has raised. -/
def foreachWhile {σ ε : Type} (func : σ → ℕ → σ × Except ε Bool) : σ → List ℕ → σ × Except ε ℕ
  | s, [] => (s, .ok 0)
  | s, c :: cs =>
      let r := func s c
      match r.2 with
      | .error e => (r.1, .error e)
      | .ok false => (r.1, .ok 0)
      | .ok true =>
          let rs := foreachWhile func r.1 cs
          (rs.1, rs.2.map (· + 1))

/-- A broadcast on its way: the server, the unit that all connections share, and the connections
for which `call_rpc_method` was called. -/
structure Broadcast where
  server : Channels
  llu : LowlevelUnit
  attempts : List ℕ

namespace Broadcast

/-- The channel: whatever has been set on it, `get_flags` and the types are its own. -/
def channel (callback : Bool) (ch : RpcChannel) : RpcChannel :=
  { ch with
    directType := .serverCall
    callbackType := .serverCallback
    flags := Channels.broadcastFlags callback }

section
variable (cc : Option LowlevelUnit) (ch : RpcChannel) (req : Option Bytes) (r : Readiness)

/-- `call_rpc_method` of a connection that is ready, or is not any more. -/
def callRpcMethod (b : Broadcast) (next : ℕ) : Broadcast × Except BroadcastError Bool :=
  let b := { b with attempts := b.attempts ++ [next] }
  if r.ready next then ({ b with server := b.server.write next b.llu }, .ok true)
  else (b, .error .comm)

/-- `send_to_client2`. -/
def sendToClient2 (b : Broadcast) (next : ℕ) : Broadcast × Except BroadcastError Bool :=
  if r.active next then
    let id := nextIndex (b.server.index next)
    let b := { b with server := b.server.useIndex next }
    match ch.configureMessage cc id ch.messageType req b.llu with
    | some llu => callRpcMethod r { b with llu := llu } next
    | none => (b, .error .invalidContext)
  else (b, .ok true)

/-- `send_to_client`. -/
def sendToClient (sender : ℕ) (b : Broadcast) (next : ℕ) :
    Broadcast × Except BroadcastError Bool :=
  if sender ≠ next then sendToClient2 cc ch req r b next else (b, .ok true)

/-- The loop of `send_message`, with or without a sender. -/
def loop (sender : Option ℕ) (b : Broadcast) (cs : List ℕ) : Broadcast × Except BroadcastError ℕ :=
  match sender with
  | some clk => foreachWhile (sendToClient cc ch req r clk) b cs
  | none => foreachWhile (sendToClient2 cc ch req r) b cs

end

/-- The unit before the loop: it does not wait, since the channel has `DISABLE_WAIT`. -/
def unit (ch : RpcChannel) (m : MethodCall) : LowlevelUnit :=
  { ch.createLowlevel m with messageType := ch.messageType }

/-- `send_message` on the thread `t`; `clients` and `sender` are what the weak pointers give. -/
def sendMessage (s : Channels) (t : ℕ) (callback : Bool) (ch : RpcChannel)
    (clients : Option ConnectionList) (sender : Option ℕ) (m : MethodCall) (r : Readiness) :
    Broadcast × Except BroadcastError ℕ :=
  let ch := channel callback ch
  let b : Broadcast := ⟨s, unit ch m, []⟩
  match clients with
  | none => (b, if ch.chanErrorReturns then .ok 0 else .error .connectionLost)
  | some cs => loop ((s.top t).map (·.unit)) ch m.request r sender b cs.1

/-! ### The shared unit -/

section
variable (cc : Option LowlevelUnit) (callback : Bool) (ch : RpcChannel) (req : Option Bytes)

/-- What `configure_message` makes of the unit for the id of a connection. -/
def configured (llu : LowlevelUnit) (id : UInt64) : LowlevelUnit :=
  ((channel callback ch).configureMessage cc id (channel callback ch).messageType req llu).getD llu

theorem configureMessage_eq (llu : LowlevelUnit) (id : UInt64) :
    (channel callback ch).configureMessage cc id (channel callback ch).messageType req llu =
      some (configured cc callback ch req llu id) := by
  have hstatic : (channel callback ch).flags.useStaticContext = false := rfl
  unfold configured RpcChannel.configureMessage
  simp only [hstatic, Bool.false_eq_true, if_false]
  split_ifs
  · split
    · split_ifs <;> rfl
    · rfl
  · split
    · split_ifs <;> rfl
    · rfl
  · rfl

theorem configured_id (llu : LowlevelUnit) (id : UInt64) :
    (configured cc callback ch req llu id).id = id :=
  (RpcChannel.configureMessage_cases (configureMessage_eq cc callback ch req llu id)).1

/-- What an earlier connection left in the unit is written over. -/
theorem configured_configured (llu : LowlevelUnit) (id id' : UInt64) :
    configured cc callback ch req (configured cc callback ch req llu id) id' =
      configured cc callback ch req llu id' := by
  have hreq : ∀ d : Bytes, req.getD (req.getD d) = req.getD d := by
    intro d
    cases req <;> rfl
  cases callback with
  | false =>
      simp only [configured, RpcChannel.configureMessage, RpcChannel.messageType, channel,
        Channels.broadcastFlags, Bool.false_eq_true, if_false, reduceCtorEq, Option.getD_some, hreq]
  | true =>
      cases cc with
      | none =>
          simp only [configured, RpcChannel.configureMessage, RpcChannel.messageType, channel,
            Channels.broadcastFlags, Bool.false_eq_true, if_false, if_true, Option.getD_some, hreq]
      | some c =>
          cases hc : canAcceptCallbacks c <;>
            simp only [configured, RpcChannel.configureMessage, RpcChannel.messageType, channel,
              Channels.broadcastFlags, Bool.false_eq_true, if_false, if_true, hc, Option.getD_some,
              hreq]

end

/-! ### How far the loop comes -/

/-- The connections to which a broadcast is to go. -/
def visits (sender : Option ℕ) (r : Readiness) (c : ℕ) : Bool :=
  decide (sender ≠ some c) && r.active c

/-- The connections up to the first one whose send raises. -/
def reached (sender : Option ℕ) (r : Readiness) : List ℕ → List ℕ
  | [] => []
  | c :: cs => if visits sender r c && !r.ready c then [c] else c :: reached sender r cs

theorem reached_subset {sender : Option ℕ} {r : Readiness} (cs : List ℕ) :
    reached sender r cs ⊆ cs := by
  induction cs with
  | nil => exact List.Subset.refl _
  | cons c cs ih =>
      unfold reached
      split_ifs
      · simp
      · exact List.cons_subset_cons c ih

/-- The server after the connections `cs` were visited: those that are visited use an index, and
those that are ready then get the unit. -/
structure Visited (cc : Option LowlevelUnit) (callback : Bool) (ch : RpcChannel)
    (req : Option Bytes) (sender : Option ℕ) (r : Readiness) (cs : List ℕ) (b b' : Broadcast) :
    Prop where
  attempts : b'.attempts = b.attempts ++ cs.filter (visits sender r)
  written : b'.server.written = b.server.written ++
    (cs.filter (fun c => visits sender r c && r.ready c)).map
      (fun c => (c, configured cc callback ch req b.llu (nextIndex (b.server.index c))))
  index : ∀ c, b'.server.index c =
    if c ∈ cs.filter (visits sender r) then nextIndex (b.server.index c) else b.server.index c

variable {cc : Option LowlevelUnit} {callback : Bool} {ch : RpcChannel} {req : Option Bytes}
  {sender : Option ℕ} {r : Readiness}

/-- One call of `send_to_client` or `send_to_client2`. -/
def sendNext (cc : Option LowlevelUnit) (ch : RpcChannel) (req : Option Bytes)
    (sender : Option ℕ) (r : Readiness) (b : Broadcast) (next : ℕ) :
    Broadcast × Except BroadcastError Bool :=
  if visits sender r next then sendToClient2 cc ch req r b next else (b, .ok true)

theorem sendToClient2_inactive (b : Broadcast) {next : ℕ} (h : r.active next = false) :
    sendToClient2 cc ch req r b next = (b, .ok true) := by
  unfold sendToClient2
  rw [h]
  rfl

theorem loop_eq (b : Broadcast) (cs : List ℕ) :
    loop cc ch req r sender b cs = foreachWhile (sendNext cc ch req sender r) b cs := by
  unfold loop
  cases sender with
  | none =>
      have hfunc : sendToClient2 cc ch req r = sendNext cc ch req none r := by
        funext b next
        unfold sendNext visits
        cases ha : r.active next <;> simp [sendToClient2_inactive, ha]
      rw [← hfunc]
  | some clk =>
      have hfunc : sendToClient cc ch req r clk = sendNext cc ch req (some clk) r := by
        funext b next
        unfold sendToClient sendNext visits
        by_cases h : clk = next
        · simp [h]
        · cases ha : r.active next <;> simp [sendToClient2_inactive, ha, h]
      rw [← hfunc]

theorem sendNext_skipped (b : Broadcast) {c : ℕ} (hc : visits sender r c = false) :
    sendNext cc ch req sender r b c = (b, .ok true) := by
  unfold sendNext
  rw [hc]
  rfl

/-- A connection that is visited: it uses an index, and its send succeeds or raises. -/
theorem sendNext_visited (b : Broadcast) {c : ℕ} (hc : visits sender r c = true) :
    sendNext cc (channel callback ch) req sender r b c =
      callRpcMethod r
        { b with
          server := b.server.useIndex c
          llu := configured cc callback ch req b.llu (nextIndex (b.server.index c)) } c := by
  have hactive : r.active c = true := by
    unfold visits at hc
    simp at hc
    exact hc.2
  unfold sendNext sendToClient2
  rw [if_pos hc, if_pos hactive]
  simp only [configureMessage_eq]

theorem Visited.cons {b b₁ b₂ : Broadcast} {c : ℕ} {cs : List ℕ} (hc : c ∉ cs)
    (h : Visited cc callback ch req sender r [c] b b₁)
    (hllu : b₁.llu = b.llu ∨ ∃ id, b₁.llu = configured cc callback ch req b.llu id)
    (hs : Visited cc callback ch req sender r cs b₁ b₂) :
    Visited cc callback ch req sender r (c :: cs) b b₂ := by
  have hindex : ∀ d ∈ cs, b₁.server.index d = b.server.index d := by
    intro d hd
    rw [h.index d, if_neg]
    intro hmem
    have := List.mem_singleton.mp (List.mem_of_mem_filter hmem)
    exact hc (this ▸ hd)
  have hunit : ∀ id, configured cc callback ch req b₁.llu id = configured cc callback ch req b.llu id := by
    intro id
    rcases hllu with hsame | ⟨id', hid'⟩
    · rw [hsame]
    · rw [hid', configured_configured]
  have hsplit : ∀ p : ℕ → Bool, (c :: cs).filter p = [c].filter p ++ cs.filter p := by
    intro p
    exact List.filter_append (p := p) [c] cs
  refine ⟨?_, ?_, ?_⟩
  · rw [hs.attempts, h.attempts, List.append_assoc, ← hsplit]
  · rw [hs.written, h.written, List.append_assoc, hsplit, List.map_append]
    congr 2
    apply List.map_congr_left
    intro d hd
    rw [hunit, hindex d (List.mem_of_mem_filter hd)]
  · intro d
    rw [hs.index d, hsplit]
    by_cases hd : d ∈ cs.filter (visits sender r)
    · rw [if_pos hd, if_pos (List.mem_append_right _ hd), hindex d (List.mem_of_mem_filter hd)]
    · rw [if_neg hd, h.index d]
      simp only [List.mem_append, hd, or_false]

theorem useIndex_index (s : Channels) (c d : ℕ) :
    (s.useIndex c).index d = if d = c then nextIndex (s.index d) else s.index d := by
  unfold Channels.useIndex
  by_cases h : d = c
  · rw [if_pos h, h]
    exact Function.update_self _ _ _
  · rw [if_neg h]
    exact Function.update_of_ne h _ _

/-- **The loop** comes to the first connection whose send raises. -/
theorem loop_spec (cs : List ℕ) (hn : cs.Nodup) (b : Broadcast) :
    Visited cc callback ch req sender r (reached sender r cs) b
      (foreachWhile (sendNext cc (channel callback ch) req sender r) b cs).1 := by
  induction cs generalizing b with
  | nil =>
      refine ⟨?_, ?_, fun c => ?_⟩ <;> simp [reached, foreachWhile]
  | cons c cs ih =>
      obtain ⟨hc, hcs⟩ := List.nodup_cons.mp hn
      have hc' : c ∉ reached sender r cs := fun h => hc (reached_subset _ h)
      unfold foreachWhile reached
      cases hv : visits sender r c with
      | false =>
          simp only [sendNext_skipped b hv, Bool.false_and, Bool.false_eq_true, if_false]
          refine Visited.cons hc' ?_ (.inl rfl) (ih hcs b)
          refine ⟨?_, ?_, fun d => ?_⟩ <;> simp [hv]
      | true =>
          rw [sendNext_visited b hv]
          cases hr : r.ready c with
          | false =>
              simp only [callRpcMethod, hr, Bool.false_eq_true, if_false, Bool.not_false,
                Bool.and_self, if_true]
              refine ⟨by simp [hv], by simp [hr, Channels.useIndex], fun d => ?_⟩
              simp [hv, useIndex_index]
          | true =>
              simp only [callRpcMethod, hr, if_true, Bool.not_true, Bool.and_false,
                Bool.false_eq_true, if_false]
              refine Visited.cons hc' ?_ (.inr ⟨_, rfl⟩) (ih hcs _)
              refine ⟨by simp [hv], by simp [hv, hr, Channels.useIndex, Channels.write], fun d => ?_⟩
              simp [hv, Channels.write, useIndex_index]

/-! ### Reaching everybody -/

/-- No connection that is to get the broadcast comes after one whose send raises. -/
def FailsLast (sender : Option ℕ) (r : Readiness) (cs : List ℕ) : Prop :=
  ∀ before c after, cs = before ++ c :: after → visits sender r c = true → r.ready c = false →
    ∀ c' ∈ after, visits sender r c' = false

theorem mem_reached_of_failsLast {cs : List ℕ} (h : FailsLast sender r cs) :
    ∀ c ∈ cs, visits sender r c = true → c ∈ reached sender r cs := by
  induction cs with
  | nil =>
      intro c hc
      cases hc
  | cons c₀ cs ih =>
      intro c hc hv
      unfold reached
      rcases List.mem_cons.mp hc with rfl | hc
      · split_ifs <;> exact List.mem_cons_self
      · split_ifs with hfail
        · simp only [Bool.and_eq_true, Bool.not_eq_true'] at hfail
          have := h [] c₀ cs rfl hfail.1 hfail.2 c hc
          rw [hv] at this
          cases this
        · refine List.mem_cons_of_mem _ (ih ?_ c hc hv)
          intro before d after hsplit
          exact h (c₀ :: before) d after (by rw [hsplit, List.cons_append])

theorem reached_of_fails {before after : List ℕ} {c : ℕ} (hv : visits sender r c = true)
    (hr : r.ready c = false) : reached sender r (before ++ c :: after) ⊆ before ++ [c] := by
  induction before with
  | nil =>
      rw [List.nil_append, reached, hv, hr]
      exact List.Subset.refl _
  | cons d before ih =>
      rw [List.cons_append, reached]
      split_ifs
      · simp
      · exact List.cons_subset_cons d ih

theorem failsLast_of_mem_reached {cs : List ℕ} (hn : cs.Nodup)
    (h : ∀ c ∈ cs, visits sender r c = true → c ∈ reached sender r cs) :
    FailsLast sender r cs := by
  intro before c after hsplit hv hr c' hc'
  subst hsplit
  by_contra hv'
  rw [Bool.not_eq_false] at hv'
  have hmem := reached_of_fails hv hr
    (h c' (List.mem_append_right _ (List.mem_cons_of_mem _ hc')) hv')
  have hafter : (before ++ [c] ++ after).Nodup := by
    rwa [List.append_assoc, List.singleton_append]
  exact List.disjoint_of_nodup_append hafter hmem hc'

/-- What a broadcast is for: an attempt for every connection other than the sender that
is active when it is visited, and exactly one unit for every one of them that stays ready, with a
new id of its own connection, as if it were the only one. -/
structure ReachesAll (s : Channels) (t : ℕ) (callback : Bool) (ch : RpcChannel)
    (cs : ConnectionList) (sender : Option ℕ) (m : MethodCall) (r : Readiness) (b : Broadcast) :
    Prop where
  attempts : ∀ c ∈ cs.1, sender ≠ some c → r.active c = true → c ∈ b.attempts
  units : ∀ c ∈ cs.1, sender ≠ some c → r.active c = true → r.ready c = true →
    ∃ u, (b.server.written.drop s.written.length).filter (fun p => p.1 = c) = [(c, u)] ∧
      u.id = nextIndex (s.index c) ∧ b.server.index c = nextIndex (s.index c) ∧
      u = configured ((s.top t).map (·.unit)) callback ch m.request
        (unit (channel callback ch) m) (nextIndex (s.index c))

theorem visits_iff {c : ℕ} :
    visits sender r c = true ↔ sender ≠ some c ∧ r.active c = true := by
  unfold visits
  simp

theorem filter_map_units {cs : List ℕ} (hn : cs.Nodup) {c : ℕ} (hc : c ∈ cs)
    (f : ℕ → LowlevelUnit) :
    (cs.map (fun d => (d, f d))).filter (fun p => p.1 = c) = [(c, f c)] := by
  induction cs with
  | nil => cases hc
  | cons d cs ih =>
      obtain ⟨hd, hcs⟩ := List.nodup_cons.mp hn
      rcases List.mem_cons.mp hc with rfl | hc
      · have hnone : (cs.map (fun d => (d, f d))).filter (fun p => p.1 = c) = [] := by
          apply List.filter_eq_nil_iff.mpr
          intro p hp
          obtain ⟨e, he, rfl⟩ := List.mem_map.mp hp
          simp only [decide_eq_true_eq]
          rintro rfl
          exact hd he
        rw [List.map_cons, List.filter_cons, if_pos (by simp), hnone]
      · rw [List.map_cons, List.filter_cons, if_neg, ih hcs hc]
        simp only [decide_eq_true_eq]
        rintro rfl
        exact hd hc

theorem nodup_reached {cs : List ℕ} (hn : cs.Nodup) : (reached sender r cs).Nodup := by
  induction cs with
  | nil => exact List.nodup_nil
  | cons c cs ih =>
      obtain ⟨hc, hcs⟩ := List.nodup_cons.mp hn
      unfold reached
      split_ifs
      · exact List.nodup_singleton c
      · exact List.nodup_cons.mpr ⟨fun h => hc (reached_subset cs h), ih hcs⟩

theorem foreachWhile_ready (cs : List ℕ) (b : Broadcast)
    (h : ∀ c ∈ cs, visits sender r c = true → r.ready c = true) :
    let b' := (foreachWhile (sendNext cc (channel callback ch) req sender r) b cs).1
    (b'.server, b'.llu) = (cs.filter (visits sender r)).foldl
      (Channels.sendToClient cc (channel callback ch) req) (b.server, b.llu) := by
  induction cs generalizing b with
  | nil => rfl
  | cons c cs ih =>
      obtain ⟨hc, hcs⟩ := List.forall_mem_cons.mp h
      unfold foreachWhile
      cases hv : visits sender r c with
      | false =>
          rw [sendNext_skipped b hv, List.filter_cons_of_neg (by simp [hv])]
          exact ih b hcs
      | true =>
          have hstep : Channels.sendToClient cc (channel callback ch) req (b.server, b.llu) c =
              ((b.server.useIndex c).write c
                (configured cc callback ch req b.llu (nextIndex (b.server.index c))),
                configured cc callback ch req b.llu (nextIndex (b.server.index c))) := by
            unfold Channels.sendToClient
            simp only [configureMessage_eq]
          rw [sendNext_visited b hv, List.filter_cons_of_pos hv, List.foldl_cons, hstep]
          unfold callRpcMethod
          simp only [hc hv, if_true]
          exact ih _ hcs

/-- Where every connection stays ready, this is `Channels.sendBroadcast` to the whole list. -/
theorem sendMessage_ready (s : Channels) (t : ℕ) (cs : ConnectionList) (m : MethodCall)
    (hclients : s.clients = cs.1)
    (h : ∀ c ∈ cs.1, visits sender r c = true → r.ready c = true) :
    (sendMessage s t callback ch (some cs) sender m r).1.server =
      s.sendBroadcast t (channel callback ch) sender m r.active cs.1.length := by
  have hrecipients : s.recipients sender r.active cs.1.length = cs.1.filter (visits sender r) := by
    unfold Channels.recipients
    rw [hclients, List.take_length]
    apply List.filter_congr
    intro c _
    unfold visits
    simp
  unfold sendMessage Channels.sendBroadcast
  simp only [loop_eq, hrecipients]
  exact congrArg Prod.fst (foreachWhile_ready cs.1 ⟨s, unit (channel callback ch) m, []⟩ h)

/-- **A failing client stops a broadcast** exactly when an active connection comes after it in the
list: the broadcast reaches everybody if and only if no connection other than the sender that is
active when it would be visited comes after one that is visited and has lost its readiness when the
unit is sent to it. -/
theorem broadcast_reaches_all_iff (s : Channels) (t : ℕ) (callback : Bool) (ch : RpcChannel)
    (cs : ConnectionList) (sender : Option ℕ) (m : MethodCall) (r : Readiness) :
    ReachesAll s t callback ch cs sender m r
        (sendMessage s t callback ch (some cs) sender m r).1 ↔
      FailsLast sender r cs.1 := by
  have hspec : Visited ((s.top t).map (·.unit)) callback ch m.request sender r
      (reached sender r cs.1) ⟨s, unit (channel callback ch) m, []⟩
      (foreachWhile (sendNext ((s.top t).map (·.unit)) (channel callback ch) m.request sender r)
        ⟨s, unit (channel callback ch) m, []⟩ cs.1).1 :=
    loop_spec cs.1 cs.2 _
  have hb : (sendMessage s t callback ch (some cs) sender m r).1 =
      (foreachWhile (sendNext ((s.top t).map (·.unit)) (channel callback ch) m.request sender r)
        ⟨s, unit (channel callback ch) m, []⟩ cs.1).1 := by
    unfold sendMessage
    simp only [loop_eq]
  rw [hb]
  generalize (foreachWhile (sendNext ((s.top t).map (·.unit)) (channel callback ch) m.request
    sender r) ⟨s, unit (channel callback ch) m, []⟩ cs.1).1 = b at hspec ⊢
  constructor
  · intro h
    apply failsLast_of_mem_reached cs.2
    intro c hc hv
    obtain ⟨hne, hactive⟩ := visits_iff.mp hv
    have hattempt := h.attempts c hc hne hactive
    rw [hspec.attempts, List.nil_append] at hattempt
    exact List.mem_of_mem_filter hattempt
  · intro h
    have hreached := mem_reached_of_failsLast h
    constructor
    · intro c hc hne hactive
      have hv := visits_iff.mpr ⟨hne, hactive⟩
      rw [hspec.attempts, List.nil_append]
      exact List.mem_filter.mpr ⟨hreached c hc hv, hv⟩
    · intro c hc hne hactive hready
      have hv := visits_iff.mpr ⟨hne, hactive⟩
      refine ⟨_, ?_, configured_id _ callback ch _ _ _, ?_, rfl⟩
      · rw [hspec.written, List.drop_left]
        refine filter_map_units ((nodup_reached cs.2).filter _) ?_ _
        exact List.mem_filter.mpr ⟨hreached c hc hv, by rw [hv, hready]; rfl⟩
      · rw [hspec.index c, if_pos (List.mem_filter.mpr ⟨hreached c hc hv, hv⟩)]

/-- Three clients, and the first one disconnects after it was seen to be active: the other two are
active all the time and get nothing. -/
theorem broadcast_stopped :
    let m : MethodCall := ⟨"s", "m", none, true, true, true⟩
    let ch : RpcChannel := { directType := .serverCall, callbackType := .serverCallback }
    let cs : ConnectionList := ⟨[0, 1, 2], by decide⟩
    let r : Readiness := ⟨fun _ => true, fun c => c ≠ 0⟩
    (sendMessage .initial 0 false ch (some cs) none m r).2 = .error .comm ∧
      (sendMessage .initial 0 false ch (some cs) none m r).1.server.written = [] ∧
      ¬ ReachesAll .initial 0 false ch cs none m r
        (sendMessage .initial 0 false ch (some cs) none m r).1 := by
  intro m ch cs r
  refine ⟨rfl, rfl, ?_⟩
  intro h
  have := h.attempts 1 (by decide) (by decide) rfl
  revert this
  decide

end Broadcast

end Server

end Vtrc
