import Vtrc.Endpoint

/-! # Handlers as if they ran at once

A handler of the handshake is executed action by action, and the strand, the completions of the
writes and the RPC layer may come in between.  `settle e` is the end that `e` becomes when its
handler goes on to its end undisturbed.  For an `Orderly` end nothing is lost by looking at
`settle e` only: the actions of the handler do not change it (`settle_act`), and whatever comes in
between can be put after the handler (`settle_pack`, `settle_written`, `settle_send`).

The reason is the order in which handlers work: hash and transformer are installed before the
message that needs them is posted, a handler starts with nothing left to be packed, and the last
thing it does is to report the layer ready. -/

namespace Vtrc

/-- The actions that change how messages are packed. -/
def Act.configures : Act → Bool
  | setHashMaker _ | setTransformer _ => true
  | _ => false

namespace Endpoint

/-- Nothing that changes the packing follows a write, nothing at all follows the report. -/
def Shaped : List Act → Prop
  | [] => True
  | .write _ _ :: as => (∀ a ∈ as, a.configures = false) ∧ Shaped as
  | .accessorReady :: as => as = []
  | _ :: as => Shaped as

/-- The handler may be finished at once. -/
structure Orderly (e : Endpoint) : Prop where
  todo : Shaped e.todo
  outbox : e.outbox ≠ [] → ∀ a ∈ e.todo, a.configures = false
  writing : ∀ c ∈ e.writing, c.onSend = true
  ready : e.layerReady = true → e.todo = []

theorem settle_of_todo {e : Endpoint} (h : e.todo = []) : e.settle = e := by
  rw [settle, h]
  obtain ⟨⟩ := e
  cases h
  rfl

theorem exec_switchToReady (e : Endpoint) :
    e.exec .switchToReady = { e with serving := e.ready || e.serving } := by
  obtain ⟨⟩ := e
  simp only [exec]
  split_ifs with h <;> simp [h]

theorem exec_accessorReady (e : Endpoint) :
    e.exec .accessorReady = { e with layerReady := e.ready || e.layerReady } := by
  obtain ⟨⟩ := e
  simp only [exec]
  split_ifs with h <;> simp [h]

theorem exec_setTodo (e : Endpoint) (a : Act) (as : List Act) :
    { e with todo := as }.exec a = { e.exec a with todo := as } := by
  cases a <;> simp only [exec, setProtocol] <;> split_ifs <;> rfl

theorem foldl_exec_setTodo (e : Endpoint) (l as : List Act) :
    l.foldl exec { e with todo := as } = { l.foldl exec e with todo := as } := by
  induction l generalizing e with
  | nil => rfl
  | cons a l ih => rw [List.foldl_cons, exec_setTodo, ih, List.foldl_cons]

theorem foldl_exec_setWriting (e : Endpoint) (l : List Act) (cs : List Closure) :
    l.foldl exec { e with writing := cs } = { l.foldl exec e with writing := cs } := by
  induction l generalizing e with
  | nil => rfl
  | cons a l ih =>
      have ha : { e with writing := cs }.exec a = { e.exec a with writing := cs } := by
        cases a <;> simp only [exec, setProtocol] <;> split_ifs <;> rfl
      rw [List.foldl_cons, ha, ih, List.foldl_cons]

theorem settle_eq (e : Endpoint) : e.settle = { e.todo.foldl exec e with todo := [] } :=
  foldl_exec_setTodo e e.todo []

theorem settle_act {e e' : Endpoint} (h : e.act = some e') : e'.settle = e.settle := by
  obtain ⟨a, as, htodo, rfl⟩ := act_eq_some h
  rw [settle_eq, settle_eq, htodo, exec_setTodo, foldl_exec_setTodo]
  rfl

theorem Orderly.act {e e' : Endpoint} (h : Orderly e) (hact : e.act = some e') : Orderly e' := by
  obtain ⟨a, as, htodo, rfl⟩ := act_eq_some hact
  have hshaped := h.todo
  have hout := h.outbox
  have hready : e.layerReady = false := by
    rw [Bool.eq_false_iff]
    intro hr
    have := h.ready hr
    rw [htodo] at this
    cases this
  rw [htodo] at hshaped hout
  have hout' : e.outbox ≠ [] → ∀ b ∈ as, b.configures = false :=
    fun hne b hb => hout hne b (List.mem_cons_of_mem a hb)
  rw [exec_setTodo]
  cases a with
  | write d c => exact ⟨hshaped.2, fun _ => hshaped.1, h.writing, fun hr => by
      rw [show (e.exec (.write d c)).layerReady = e.layerReady from rfl, hready] at hr
      cases hr⟩
  | accessorReady =>
      obtain rfl : as = [] := hshaped
      refine ⟨trivial, fun _ => by simp, ?_, fun _ => rfl⟩
      simp only [exec]
      split_ifs <;> exact h.writing
  | switchToReady =>
      simp only [exec]
      split_ifs <;> exact ⟨hshaped, hout', h.writing, fun hr => absurd (hready.symm.trans hr) (by simp)⟩
  | _ => exact ⟨hshaped, hout', h.writing, fun hr => absurd (hready.symm.trans hr) (by simp)⟩

section
variable {sha256 : Bytes → Digest}

theorem pack_of_outbox (e : Endpoint) (m : Posted) (outbox : List Posted)
    (hout : e.outbox = m :: outbox) (hlen : m.data.length < 2 ^ 63) :
    e.pack sha256 =
      let e₁ : Endpoint := { e with
        protocol := (e.protocol.packMessage sha256 m.data).1
        outbox := outbox
        packs := e.packs ++ [⟨e.protocol.hashMaker, e.protocol.transformer, m.data⟩] }
      some (if m.closure.onSend then { e₁ with writing := e₁.writing ++ [m.closure] }
        else e₁.setProtocol (e₁.protocol.setHashMaker .crc32),
        (e.protocol.packMessage sha256 m.data).2) := by
  rw [pack, hout]
  simp only [hlen, if_true]
  cases hc : m.closure <;> rfl

theorem pack_cases {e e' : Endpoint} {bytes : Bytes} (h : e.pack sha256 = some (e', bytes)) :
    ∃ m outbox, e.outbox = m :: outbox ∧ m.data.length < 2 ^ 63 := by
  obtain ⟨m, outbox, hout, hlen, _⟩ := pack_eq_some h
  exact ⟨m, outbox, hout, hlen⟩

/-- What the packing of the write `m` leaves of an end. -/
structure Packing (m : Posted) (e e' : Endpoint) : Prop where
  short : m.data.length < 2 ^ 63
  outbox : e.outbox = m :: e'.outbox
  packs : e'.packs = e.packs ++ [⟨e.protocol.hashMaker, e.protocol.transformer, m.data⟩]
  writing : e'.writing = if m.closure.onSend then e.writing ++ [m.closure] else e.writing
  queue : e'.protocol.queue = e.protocol.queue
  serving : e'.serving = e.serving
  stage : e'.stage = e.stage
  layerReady : e'.layerReady = e.layerReady
  sessionOpts : e'.sessionOpts = e.sessionOpts
  connClosed : e'.connClosed = e.connClosed
  reading : e'.reading = e.reading
  todo : e'.todo = e.todo
  pops : e'.pops = e.pops
  dispatched : e'.dispatched = e.dispatched

theorem packing_of_pack {e e' : Endpoint} {bytes : Bytes} (h : e.pack sha256 = some (e', bytes)) :
    ∃ m, Packing m e e' := by
  obtain ⟨m, outbox, hout, hlen⟩ := pack_cases h
  rw [pack_of_outbox e m outbox hout hlen] at h
  obtain ⟨rfl, _⟩ := Prod.mk.inj (Option.some.inj h)
  refine ⟨m, ?_⟩
  split_ifs with hsend
  · exact ⟨hlen, hout, rfl, by rw [if_pos hsend], rfl, rfl, rfl, rfl, rfl, rfl, rfl, rfl, rfl,
      rfl⟩
  · exact ⟨hlen, hout, rfl, by rw [if_neg hsend]; rfl, rfl, rfl, rfl, rfl, rfl, rfl, rfl, rfl, rfl,
      rfl⟩

theorem pack_exec {e e' : Endpoint} {bytes : Bytes} (h : e.pack sha256 = some (e', bytes))
    {a : Act} (ha : a.configures = false) :
    (e.exec a).pack sha256 = some (e'.exec a, bytes) := by
  obtain ⟨m, outbox, hout, hlen⟩ := pack_cases h
  rw [pack_of_outbox e m outbox hout hlen] at h
  obtain ⟨rfl, rfl⟩ := Prod.mk.inj (Option.some.inj h)
  cases a with
  | setHashMaker h => cases ha
  | setTransformer t => cases ha
  | write d c =>
      refine (pack_of_outbox _ m (outbox ++ [⟨d, c⟩]) (by rw [exec, hout]; rfl) hlen).trans ?_
      split_ifs <;> rfl
  | switchToReady =>
      rw [exec_switchToReady, exec_switchToReady]
      refine (pack_of_outbox _ m outbox ?_ hlen).trans ?_
      · exact hout
      · split_ifs <;> rfl
  | accessorReady =>
      rw [exec_accessorReady, exec_accessorReady]
      refine (pack_of_outbox _ m outbox ?_ hlen).trans ?_
      · exact hout
      · split_ifs <;> rfl
  | _ =>
      refine (pack_of_outbox _ m outbox ?_ hlen).trans ?_
      · exact hout
      · split_ifs <;> rfl

theorem pack_foldl_exec {e e' : Endpoint} {bytes : Bytes} (h : e.pack sha256 = some (e', bytes))
    {as : List Act} (has : ∀ a ∈ as, a.configures = false) :
    (as.foldl exec e).pack sha256 = some (as.foldl exec e', bytes) := by
  induction as generalizing e e' with
  | nil => exact h
  | cons a as ih =>
      exact ih (pack_exec h (has a List.mem_cons_self)) (fun b hb => has b (List.mem_cons_of_mem a hb))

theorem pack_setTodo {e e' : Endpoint} {bytes : Bytes} (h : e.pack sha256 = some (e', bytes))
    (as : List Act) :
    { e with todo := as }.pack sha256 = some ({ e' with todo := as }, bytes) ∧ e'.todo = e.todo := by
  obtain ⟨m, outbox, hout, hlen⟩ := pack_cases h
  rw [pack_of_outbox e m outbox hout hlen] at h
  obtain ⟨rfl, rfl⟩ := Prod.mk.inj (Option.some.inj h)
  refine ⟨(pack_of_outbox _ m outbox ?_ hlen).trans ?_, ?_⟩
  · exact hout
  · split_ifs <;> rfl
  · split_ifs <;> rfl

/-- **Packing** may be put after the handler. -/
theorem settle_pack {e e' : Endpoint} {bytes : Bytes} (ho : Orderly e)
    (h : e.pack sha256 = some (e', bytes)) :
    e.settle.pack sha256 = some (e'.settle, bytes) := by
  obtain ⟨m, outbox, hout, _⟩ := pack_cases h
  obtain ⟨hnil, htodo⟩ := pack_setTodo h []
  rw [settle, settle, htodo]
  exact pack_foldl_exec hnil (ho.outbox (by rw [hout]; simp))

theorem Orderly.pack {e e' : Endpoint} {bytes : Bytes} (ho : Orderly e)
    (h : e.pack sha256 = some (e', bytes)) : Orderly e' := by
  obtain ⟨m, outbox, hout, hlen⟩ := pack_cases h
  have hcfg := ho.outbox (by rw [hout]; simp)
  rw [pack_of_outbox e m outbox hout hlen] at h
  obtain ⟨rfl, rfl⟩ := Prod.mk.inj (Option.some.inj h)
  split_ifs with hsend
  · refine ⟨ho.todo, fun _ => hcfg, ?_, ho.ready⟩
    intro c hc
    rcases List.mem_append.mp hc with hc | hc
    · exact ho.writing c hc
    · rw [List.mem_singleton.mp hc]
      exact hsend
  · exact ⟨ho.todo, fun _ => hcfg, ho.writing, ho.ready⟩

end

/-! ### Completions and the RPC layer -/

/-- `close_client` resets `ready_`, so it may be put after a handler only when that is not
set. -/
theorem runClosure_exec {e : Endpoint} {c : Closure} (hc : c.onSend = true) {a : Act}
    (hclose : c = .closeClient → (e.exec a).ready = false) :
    (e.exec a).runClosure c = (e.runClosure c).exec a := by
  cases c with
  | default => rfl
  | setOptions => cases hc
  | startReading =>
      cases a with
      | switchToReady => rw [exec_switchToReady, exec_switchToReady]; rfl
      | accessorReady => rw [exec_accessorReady, exec_accessorReady]; rfl
      | _ => rfl
  | closeClient =>
      have hr := hclose rfl
      cases a with
      | setReady => cases hr
      | switchToReady =>
          rw [exec_switchToReady] at hr ⊢
          have hr : e.ready = false := hr
          rw [exec_switchToReady, hr]
          rfl
      | accessorReady =>
          rw [exec_accessorReady] at hr ⊢
          have hr : e.ready = false := hr
          rw [exec_accessorReady, hr]
          rfl
      | _ => rfl

theorem ready_of_exec {e : Endpoint} {a : Act} (h : (e.exec a).ready = false) : e.ready = false := by
  cases a with
  | setReady => cases h
  | switchToReady => rwa [exec_switchToReady] at h
  | accessorReady => rwa [exec_accessorReady] at h
  | _ => exact h

theorem ready_of_foldl {e : Endpoint} {as : List Act} (h : (as.foldl exec e).ready = false) :
    e.ready = false := by
  induction as generalizing e with
  | nil => exact h
  | cons a as ih => exact ready_of_exec (ih h)

theorem runClosure_foldl_exec {e : Endpoint} {c : Closure} (hc : c.onSend = true) {as : List Act}
    (hclose : c = .closeClient → (as.foldl exec e).ready = false) :
    (as.foldl exec e).runClosure c = as.foldl exec (e.runClosure c) := by
  induction as generalizing e with
  | nil => rfl
  | cons a as ih =>
      rw [List.foldl_cons] at hclose ⊢
      rw [ih hclose, runClosure_exec hc (fun h => ready_of_foldl (hclose h)), List.foldl_cons]

theorem foldl_exec_writing (e : Endpoint) (as : List Act) :
    (as.foldl exec e).writing = e.writing ∧ (as.foldl exec e).packs = e.packs ∧
      (as.foldl exec e).pops = e.pops := by
  induction as generalizing e with
  | nil => exact ⟨rfl, rfl, rfl⟩
  | cons a as ih =>
      obtain ⟨hw, hpacks, hpops⟩ := ih (e.exec a)
      rw [List.foldl_cons, hw, hpacks, hpops]
      cases a with
      | switchToReady => rw [exec_switchToReady]; exact ⟨rfl, rfl, rfl⟩
      | accessorReady => rw [exec_accessorReady]; exact ⟨rfl, rfl, rfl⟩
      | _ => exact ⟨rfl, rfl, rfl⟩

@[simp] theorem settle_writing (e : Endpoint) : e.settle.writing = e.writing :=
  (foldl_exec_writing _ _).1
@[simp] theorem settle_packs (e : Endpoint) : e.settle.packs = e.packs :=
  (foldl_exec_writing _ _).2.1
@[simp] theorem settle_pops (e : Endpoint) : e.settle.pops = e.pops :=
  (foldl_exec_writing _ _).2.2

theorem written_of_writing (e : Endpoint) (c : Closure) (writing : List Closure)
    (h : e.writing = c :: writing) :
    e.written = some ({ e with writing := writing }.runClosure c) := by
  rw [written, h]

/-- **A completion** may be put after the handler. -/
theorem settle_written {e e' : Endpoint} (ho : Orderly e)
    (hclose : .closeClient ∈ e.writing → e.settle.ready = false) (h : e.written = some e') :
    e.settle.written = some e'.settle := by
  obtain ⟨c, writing, hw, rfl⟩ := written_eq_some h
  rw [written_of_writing _ c writing (by rw [settle_writing, hw])]
  have hsend := ho.writing c (by rw [hw]; exact List.mem_cons_self)
  have hset : { e.settle with writing := writing } =
      e.todo.foldl exec { e with writing := writing, todo := [] } :=
    (foldl_exec_setWriting _ _ _).symm
  have hswap : (e.todo.foldl exec { e with writing := writing, todo := [] }).runClosure c =
      e.todo.foldl exec ({ e with writing := writing, todo := [] }.runClosure c) :=
    runClosure_foldl_exec hsend (fun hc => by
      rw [← hset]
      exact hclose (by rw [hw, hc]; exact List.mem_cons_self))
  rw [hset, hswap]
  cases c <;> rfl

theorem Orderly.written {e e' : Endpoint} (ho : Orderly e) (h : e.written = some e') :
    Orderly e' := by
  obtain ⟨c, writing, hw, rfl⟩ := written_eq_some h
  have hsend : ∀ c' ∈ writing, c'.onSend = true :=
    fun c' hc' => ho.writing c' (by rw [hw]; exact List.mem_cons_of_mem c hc')
  cases c <;> exact ⟨ho.todo, ho.outbox, hsend, ho.ready⟩

/-- **A unit of the RPC layer**: there is no handler any more. -/
theorem settle_send {e e' : Endpoint} {data : Bytes} (ho : Orderly e) (h : e.send data = some e') :
    e.settle.send data = some e'.settle ∧ Orderly e' := by
  obtain ⟨hr, rfl⟩ := send_eq_some h
  have htodo := ho.ready hr
  rw [settle_of_todo htodo, h]
  refine ⟨congrArg some (settle_of_todo ?_).symm, ⟨ho.todo, ?_, ho.writing, ho.ready⟩⟩
  · exact htodo
  · rw [htodo]
    simp

end Endpoint

end Vtrc
