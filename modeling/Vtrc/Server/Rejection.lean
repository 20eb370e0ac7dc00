import Vtrc.Server.Access

/-! # Rejected handshakes

Four branches of the server's handshake reject a message with `accessor()->close()`: a bad hash,
a capsule that does not parse in either stage, and an unknown hash index.  Since that call closes
nothing, the handshake goes on with the next message.

`completes` says of a chunk that the message it completes makes the handler set `ready_`;
`rejected_not_ready` says that a rejected connection does not become ready as long as no such
chunk comes after the rejection. -/

namespace Vtrc.Server

open Endpoint

section
variable (A : AuthCodecs) (app : Application)

/-- The message takes the handshake to its end: in the first stage a selection of a known hash
and of no transformer, for an id that needs no key, in the second one any `ready` capsule. -/
def completesWith (stage : Stage) (data : Bytes) : Bool :=
  let capsule := A.capsule.parse data
  capsule.1 && capsule.2.ready &&
    match stage with
    | .clientSelection =>
        let cs := (A.selection.parse capsule.2.body).2
        (HashKind.createByIndex cs.hash).isSome && cs.transform == transformNone &&
          !app.sessionKeyRequired cs.id
    | .clientTransformer => true
    | _ => false

/-- The chunk brings such a message, in the handshake and with a good hash. -/
def completes (sha256 : Bytes → Digest) (e : Endpoint) (chunk : Bytes) : Bool :=
  match e.protocol.processData chunk with
  | (p, .stage) => !e.serving &&
      match p.popRawMessage sha256 with
      | some (_, some data) => completesWith A app e.stage data
      | _ => false
  | _ => false

/-- After a rejection, no chunk completes the handshake. -/
def NotAfterReject (sha256 : Bytes → Digest) (e : Endpoint) : Event → Prop
  | .recv chunk _ => e.closed = true → completes A app sha256 e chunk = false
  | _ => True

instance (sha256 : Bytes → Digest) (e : Endpoint) :
    (ev : Event) → Decidable (NotAfterReject A app sha256 e ev)
  | .recv .. => inferInstanceAs (Decidable (_ → _))
  | .act | .pack | .written | .send _ | .initTimeout => inferInstanceAs (Decidable True)

end

section
variable {sha256 : Bytes → Digest} {A : AuthCodecs} {unit : Codec LowlevelUnit}
  {app : Application} {opts : SessionOptions}

/-! ### What the handlers contain -/

theorem setReady_mem_setupTransformer {clientId : Bytes} {salts : Bytes × Bytes} {id : UInt32}
    (h : .setReady ∈ setupTransformer A sha256 app opts clientId salts id) :
    id = transformNone ∧ app.sessionKeyRequired clientId = false := by
  rw [setupTransformer] at h
  split_ifs at h with hid hkey hid'
  · exact ⟨hid, by simpa using hkey⟩
  · simp [sendAndClose] at h
  · simp [sendProtoMessage] at h
  · simp [sendAndClose] at h

theorem accessorClose_notMem_setClientReady (capsule : InitCapsule) :
    .accessorClose ∉ setClientReady A app opts capsule := by
  simp [setClientReady, sendProtoMessage]

theorem accessorClose_notMem_setupTransformer (clientId : Bytes) (salts : Bytes × Bytes)
    (id : UInt32) : .accessorClose ∉ setupTransformer A sha256 app opts clientId salts id := by
  rw [setupTransformer]
  split_ifs
  · exact accessorClose_notMem_setClientReady _
  · simp [sendAndClose]
  · simp [sendProtoMessage]
  · simp [sendAndClose]

variable (sha256 A app opts) in
/-- A handler sets `ready_` on a completing message only, and never after it has rejected one. -/
theorem stageCall_cases (e : Endpoint) (salts : Bytes × Bytes) (data : Bytes) :
    (.setReady ∈ (role A sha256 app opts).stageCall e salts data →
      completesWith A app e.stage data = true) ∧
    (.accessorClose ∈ (role A sha256 app opts).stageCall e salts data →
      .setReady ∉ (role A sha256 app opts).stageCall e salts data) := by
  simp only [role, completesWith]
  cases e.stage with
  | clientSelection =>
      simp only [onClientSelection]
      split_ifs with hparse hready
      · simp [close]
      · simp
      · split
        · simp [close]
        · rename_i h hhash
          refine ⟨fun hmem => ?_, fun hmem => ?_⟩
          · obtain ⟨hid, hkey⟩ := setReady_mem_setupTransformer (by simpa using hmem)
            simp_all
          · exact absurd hmem (by simp [accessorClose_notMem_setupTransformer])
  | clientTransformer =>
      simp only [onClientTransformer]
      split_ifs with hparse hready
      · simp [close]
      · simp
      · refine ⟨fun _ => by simp_all, fun hmem => ?_⟩
        exact absurd hmem (by simp [accessorClose_notMem_setClientReady])
  | _ => simp

/-! ### Steps and runs -/

/-- A rejected handshake, or one that is about to be, is not ready and not about to be. -/
structure Rejected (e : Endpoint) : Prop where
  switching : Switching e
  closed : e.closed = true ∨ .accessorClose ∈ e.todo → e.ready = false ∧ .setReady ∉ e.todo

theorem Rejected.congr {e e' : Endpoint} (h : Rejected e) (hs : Switching e')
    (htodo : e'.todo = e.todo) (hclosed : e'.closed = e.closed)
    (hready : e'.ready = true → e.ready = true) : Rejected e' := by
  refine ⟨hs, ?_⟩
  rw [htodo, hclosed]
  intro hc
  obtain ⟨hr, hmem⟩ := h.closed hc
  refine ⟨?_, hmem⟩
  rw [Bool.eq_false_iff]
  intro hr'
  rw [hready hr'] at hr
  cases hr

theorem Rejected.exec {e : Endpoint} {a : Act} {as : List Act} (h : Rejected e)
    (htodo : e.todo = a :: as) : Rejected ({ e with todo := as }.exec a) := by
  have hc := h.closed
  rw [htodo] at hc
  have hrest : e.closed = true ∨ .accessorClose ∈ as → e.ready = false ∧ .setReady ∉ as := by
    intro hor
    obtain ⟨hr, hmem⟩ := hc (hor.imp id (List.mem_cons_of_mem _))
    exact ⟨hr, fun hm => hmem (List.mem_cons_of_mem _ hm)⟩
  refine ⟨h.switching.exec htodo, ?_⟩
  rw [exec_todo]
  cases a with
  | setReady =>
      intro hor
      exact absurd List.mem_cons_self (hc (hor.imp id (List.mem_cons_of_mem _))).2
  | accessorClose =>
      intro _
      obtain ⟨hr, hmem⟩ := hc (.inr List.mem_cons_self)
      exact ⟨hr, fun hm => hmem (List.mem_cons_of_mem _ hm)⟩
  | switchToReady =>
      simp only [Endpoint.exec]
      split_ifs <;> exact hrest
  | accessorReady =>
      simp only [Endpoint.exec]
      split_ifs <;> exact hrest
  | _ => exact hrest

theorem runClosure_keeps (e : Endpoint) (c : Closure) : (e.runClosure c).todo = e.todo ∧
    (e.runClosure c).closed = e.closed ∧ ((e.runClosure c).ready = true → e.ready = true) := by
  cases c with
  | closeClient => exact ⟨rfl, rfl, fun h => by cases h⟩
  | _ => exact ⟨rfl, rfl, id⟩

theorem Rejected.recv {e e' : Endpoint} {chunk : Bytes} {salts : Bytes × Bytes} (h : Rejected e)
    (hc : NotAfterReject A app sha256 e (.recv chunk salts))
    (hs : e.recv sha256 unit (role A sha256 app opts) chunk salts = some e')
    (hsw : Switching e') : Rejected e' := by
  obtain ⟨_, _, htodo, hcases⟩ := recv_cases hs
  rcases hcases with ⟨p, err, _, rfl⟩ | ⟨p, _, rfl⟩ | ⟨p, hp, _, rfl⟩ | ⟨p, hp, hserv, rfl⟩
  · exact h.congr hsw rfl rfl id
  · exact h.congr hsw rfl rfl id
  · have hinv := serve_inv sha256 unit
      (I := fun e' => e'.todo = e.todo ∧ e'.closed = e.closed ∧ e'.ready = e.ready) ?_ ?_ ?_
      p.queueSize (e.setProtocol p) ⟨rfl, rfl, rfl⟩
    · exact h.congr hsw hinv.1 hinv.2.1 (by rw [hinv.2.2]; exact id)
    · intro e₁ e₂ res hi hp
      obtain ⟨_, _, rfl⟩ := popRaw_eq_some hp
      exact hi
    · exact fun _ hi => hi
    · exact fun _ _ hi => hi
  · have hready : e.ready = false := by
      have := h.switching.ready
      rw [htodo, hserv] at this
      cases hr : e.ready with
      | false => rfl
      | true => simp [hr] at this
    rcases doHandshake_cases sha256 (role A sha256 app opts) (e.setProtocol p) salts with
      ⟨_, heq⟩ | ⟨e₁, hpop, heq⟩ | ⟨e₁, data, hpop, heq⟩
    · rw [heq] at hsw ⊢
      exact h.congr hsw rfl rfl id
    · obtain ⟨q, _, rfl⟩ := popRaw_eq_some hpop
      rw [heq] at hsw ⊢
      exact ⟨hsw, fun _ => ⟨hready, by simp [role, close]⟩⟩
    · obtain ⟨q, hq, rfl⟩ := popRaw_eq_some hpop
      rw [heq] at hsw ⊢
      obtain ⟨hcompl, hexcl⟩ := stageCall_cases sha256 A app opts { e.setProtocol p with
          protocol := q
          pops := e.pops ++ [⟨p.hashChecker, p.revertor, some data⟩] } salts data
      refine ⟨hsw, fun hor => ⟨hready, fun hmem => ?_⟩⟩
      have hmem' := (List.mem_append.mp hmem).resolve_right (by simp)
      rcases hor with hclosed | hclose
      · -- the message completes the handshake, which the condition excludes
        have hno := hc hclosed
        rw [completes, hp] at hno
        simp only [hserv, Bool.not_false, Bool.true_and] at hno
        rw [show p.popRawMessage sha256 = some (q, some data) from hq] at hno
        exact absurd (hcompl hmem') (by simpa [setProtocol] using hno)
      · exact hexcl ((List.mem_append.mp hclose).resolve_right (by simp)) hmem'

theorem Rejected.step {e e' : Endpoint} {ev : Event} (h : Rejected e)
    (hc : NotAfterReject A app sha256 e ev)
    (hs : step sha256 A unit app opts e ev = some e') : Rejected e' := by
  have hsw := h.switching.step hs
  cases ev with
  | act =>
      obtain ⟨a, as, htodo, rfl⟩ := act_eq_some hs
      exact h.exec htodo
  | pack =>
      obtain ⟨⟨e₁, bytes⟩, hp, rfl⟩ := Option.map_eq_some_iff.mp hs
      obtain ⟨m, outbox, _, _, _, e₂, rfl, rfl⟩ := pack_eq_some hp
      split_ifs at hsw ⊢
      · exact h.congr hsw rfl rfl id
      · obtain ⟨h₁, h₂, h₃⟩ := runClosure_keeps { e with
          protocol := (e.protocol.packMessage sha256 m.data).1
          outbox := outbox
          packs := e.packs ++ [⟨e.protocol.hashMaker, e.protocol.transformer, m.data⟩] } m.closure
        exact h.congr hsw h₁ h₂ h₃
  | written =>
      obtain ⟨c, writing, _, rfl⟩ := written_eq_some hs
      obtain ⟨h₁, h₂, h₃⟩ := runClosure_keeps { e with writing := writing } c
      exact h.congr hsw h₁ h₂ h₃
  | recv chunk salts => exact h.recv hc hs hsw
  | send data =>
      obtain ⟨_, rfl⟩ := send_eq_some hs
      exact h.congr hsw rfl rfl id
  | initTimeout =>
      obtain rfl := Option.some.inj hs
      rw [onInitTimeout] at hsw ⊢
      split_ifs at hsw ⊢
      · exact h.congr hsw rfl rfl id
      · exact h

theorem rejected_start : Rejected (start A opts) :=
  ⟨switching_start, fun _ => ⟨rfl, by simp [start]⟩⟩

end

/-- **A rejected handshake stays rejected** in every run in which no chunk completes the
handshake after a rejection: no state of such a run is both rejected and ready. -/
theorem rejected_not_ready (sha256 : Bytes → Digest) (A : AuthCodecs) (unit : Codec LowlevelUnit)
    (app : Application) (opts : SessionOptions) (es : List Event) (e : Endpoint)
    (hmeets : (serverMachine sha256 A unit app opts).Meets (NotAfterReject A app sha256)
      (serverMachine sha256 A unit app opts).init es)
    (hrun : (serverMachine sha256 A unit app opts).run es = some e) :
    ¬ (e.closed = true ∧ e.ready = true) := by
  have hinv : Rejected e := (serverMachine sha256 A unit app opts).inv_of_meets (I := Rejected)
    (fun _ _ _ hi hc hs => hi.step hc hs) rejected_start hmeets hrun
  rintro ⟨hclosed, hready⟩
  have := (hinv.closed (.inl hclosed)).1
  rw [hready] at this
  cases this

/-- A capsule that does not parse, and after it a selection without a transformer on a server that
requires a key: the server answers it and is not ready. -/
theorem rejected_not_ready_key_required :
    let sha256 : Bytes → Digest := fun _ => ⟨List.replicate 32 0, rfl⟩
    ∃ e, (serverMachine sha256 .sample ⟨fun _ => [], fun _ => (false, {})⟩
        ⟨fun _ => true, fun _ => [], id⟩ .defaults).run
        [.pack, .written, .recv [0x01, 0xff] ([], []), .act, .act, .act,
          .recv [0x02, 0x10, 0x01] ([], []), .act, .act, .act, .act, .act, .act] = some e ∧
      e.closed = true ∧ e.pops.length = 2 ∧ e.outbox.length = 1 ∧
      ¬ (e.closed = true ∧ e.ready = true) := by
  intro sha256
  have hrun : ((serverMachine sha256 .sample ⟨fun _ => [], fun _ => (false, {})⟩
      ⟨fun _ => true, fun _ => [], id⟩ .defaults).run
      [.pack, .written, .recv [0x01, 0xff] ([], []), .act, .act, .act,
        .recv [0x02, 0x10, 0x01] ([], []), .act, .act, .act, .act, .act, .act]).map
      (fun e => (e.closed, e.pops.length, e.outbox.length)) = some (true, 2, 1) := by
    decide +kernel
  obtain ⟨e, he, heq⟩ := Option.map_eq_some_iff.mp hrun
  simp only [Prod.mk.injEq] at heq
  obtain ⟨hclosed, hpops, hout⟩ := heq
  refine ⟨e, he, hclosed, hpops, hout, rejected_not_ready _ _ _ _ _ _ e ?_ he⟩
  decide +kernel

/-- The same capsule, followed by a valid selection: the server answers it and is ready. -/
theorem ready_after_reject :
    let sha256 : Bytes → Digest := fun _ => ⟨List.replicate 32 0, rfl⟩
    ∃ e, (serverMachine sha256 .sample ⟨fun _ => [], fun _ => (false, {})⟩
        ⟨fun _ => false, fun _ => [], id⟩ .defaults).run
        [.pack, .written, .recv [0x01, 0xff] ([], []), .act, .act, .act,
          .recv [0x02, 0x10, 0x01] ([], []), .act, .act, .act, .act, .act, .act, .act, .act] = some e ∧
      e.connClosed = false ∧ e.serving = true ∧ e.closed = true ∧ e.ready = true := by
  intro sha256
  have hrun : ((serverMachine sha256 .sample ⟨fun _ => [], fun _ => (false, {})⟩
      ⟨fun _ => false, fun _ => [], id⟩ .defaults).run
      [.pack, .written, .recv [0x01, 0xff] ([], []), .act, .act, .act,
        .recv [0x02, 0x10, 0x01] ([], []), .act, .act, .act, .act, .act, .act, .act, .act]).map
      (fun e => (e.connClosed, e.serving, e.closed, e.ready)) = some (false, true, true, true) := by
    decide +kernel
  obtain ⟨e, he, heq⟩ := Option.map_eq_some_iff.mp hrun
  simp only [Prod.mk.injEq] at heq
  exact ⟨e, he, heq⟩

end Vtrc.Server
