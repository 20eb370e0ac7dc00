import Vtrc.Server.Handshake
import Vtrc.Wire

/-! # Who gets through the server's handshake

`ready_` of the handshake is set by two handlers only: by a selection without a transformer, for
an id that needs no key, and by the answer of a client that has selected a transformer.  Between
the two messages of the latter the id, the stage and the revertor have to stay together, while
the strand packs, writes complete, the timer fires and rejected messages come in between.

`Access` is what holds of the state and of the actions that the running handler has still to
execute; `Later` is what the other threads may do in the meantime.  `ready_access` is the
result for every reachable state. -/

namespace Vtrc.Server

open Endpoint

/-! ### A handler that sets `ready_` switches the stage -/

/-- Every `setReady` of the list is followed by a `switchToReady`. -/
def Switches : List Act → Prop
  | [] => True
  | .setReady :: as => .switchToReady ∈ as ∧ Switches as
  | _ :: as => Switches as

/-- A ready handshake is in the ready stage or about to switch to it. -/
structure Switching (e : Endpoint) : Prop where
  todo : Switches e.todo
  ready : e.ready = true → e.serving = true ∨ .switchToReady ∈ e.todo

theorem switches_of_notMem {as : List Act} (h : .setReady ∉ as) : Switches as := by
  induction as with
  | nil => trivial
  | cons a as ih =>
      rw [List.mem_cons, not_or] at h
      cases a <;> first | exact ih h.2 | exact absurd rfl h.1

/-- Whatever a handler does, `do_handshake` ends with the switch. -/
theorem switches_append (as : List Act) : Switches (as ++ [.switchToReady, .accessorReady]) := by
  induction as with
  | nil => exact trivial
  | cons a as ih =>
      cases a with
      | setReady => exact ⟨by simp, ih⟩
      | _ => exact ih

theorem Switching.exec {e : Endpoint} {a : Act} {as : List Act} (h : Switching e)
    (htodo : e.todo = a :: as) : Switching ({ e with todo := as }.exec a) := by
  obtain ⟨hs, hr⟩ := h
  rw [htodo] at hs hr
  have hmem : a ≠ .switchToReady → e.ready = true → e.serving = true ∨ .switchToReady ∈ as := by
    intro hne hready
    rcases hr hready with h | h
    · exact .inl h
    · exact .inr ((List.mem_cons.mp h).resolve_left (fun heq => hne heq.symm))
  cases a with
  | setReady => exact ⟨by simpa using hs.2, fun _ => .inr (by simpa using hs.1)⟩
  | switchToReady =>
      refine ⟨by rw [exec_todo]; exact hs, ?_⟩
      simp only [Endpoint.exec]
      split_ifs with h
      · exact fun _ => .inl rfl
      · exact fun h' => absurd h' h
  | accessorReady =>
      refine ⟨by rw [exec_todo]; exact hs, ?_⟩
      simp only [Endpoint.exec]
      split_ifs <;> exact hmem (by simp)
  | _ => exact ⟨by rw [exec_todo]; exact hs, hmem (by simp)⟩

theorem switching_runClosure {e : Endpoint} (h : Switching e) (c : Closure) :
    Switching (e.runClosure c) := by
  cases c with
  | closeClient => exact ⟨h.todo, fun hr => by cases hr⟩
  | _ => exact ⟨h.todo, h.ready⟩

section
variable {sha256 : Bytes → Digest} {A : AuthCodecs} {unit : Codec LowlevelUnit}
  {app : Application} {opts : SessionOptions}

theorem Switching.congr {e e' : Endpoint} (h : Switching e) (htodo : e'.todo = e.todo)
    (hready : e'.ready = e.ready) (hserving : e'.serving = e.serving) : Switching e' :=
  ⟨by rw [htodo]; exact h.todo, by rw [htodo, hready, hserving]; exact h.ready⟩

theorem Switching.popRaw {e e' : Endpoint} {res : Option Bytes} (h : Switching e)
    (hp : e.popRaw sha256 = some (e', res)) : Switching e' := by
  obtain ⟨p, _, rfl⟩ := popRaw_eq_some hp
  exact h.congr rfl rfl rfl

theorem Switching.step {e e' : Endpoint} {ev : Event} (h : Switching e)
    (hs : step sha256 A unit app opts e ev = some e') : Switching e' := by
  cases ev with
  | act =>
      obtain ⟨a, as, htodo, rfl⟩ := act_eq_some hs
      exact h.exec htodo
  | pack =>
      obtain ⟨⟨e₁, bytes⟩, hp, rfl⟩ := Option.map_eq_some_iff.mp hs
      obtain ⟨m, outbox, _, _, _, e₂, rfl, rfl⟩ := pack_eq_some hp
      split_ifs
      · exact h.congr rfl rfl rfl
      · refine switching_runClosure ?_ _
        exact h.congr rfl rfl rfl
  | written =>
      obtain ⟨c, writing, _, rfl⟩ := written_eq_some hs
      refine switching_runClosure ?_ _
      exact h.congr rfl rfl rfl
  | recv chunk salts =>
      obtain ⟨_, _, htodo, hcases⟩ := recv_cases hs
      rcases hcases with ⟨p, err, _, rfl⟩ | ⟨p, _, rfl⟩ | ⟨p, _, _, rfl⟩ | ⟨p, _, hserv, rfl⟩
      · exact h.congr rfl rfl rfl
      · exact h.congr rfl rfl rfl
      · refine serve_inv sha256 unit (I := Switching) ?_ ?_ ?_ _ _ (h.congr rfl rfl rfl)
        · exact fun _ _ _ hi hp => hi.popRaw hp
        · exact fun _ hi => hi.congr rfl rfl rfl
        · exact fun _ _ hi => hi.congr rfl rfl rfl
      · -- nothing is to be done, so the handshake is not ready
        have hready : e.ready = false := by
          rw [Bool.eq_false_iff]
          intro hr
          rcases h.ready hr with hs | hs
          · rw [hserv] at hs
            cases hs
          · rw [htodo] at hs
            cases hs
        rcases doHandshake_cases sha256 (role A sha256 app opts) (e.setProtocol p) salts
          with ⟨_, heq⟩ | ⟨e₁, hp, heq⟩ | ⟨e₁, data, hp, heq⟩
        · rw [heq]
          exact h.congr rfl rfl rfl
        · rw [heq]
          obtain ⟨q, _, rfl⟩ := popRaw_eq_some hp
          exact ⟨switches_of_notMem (by simp [role, close]), fun hr => by
            exact absurd hr (by simpa [setProtocol] using hready)⟩
        · rw [heq]
          exact ⟨switches_append _, fun _ => .inr (by simp)⟩
  | send data =>
      obtain ⟨_, rfl⟩ := send_eq_some hs
      exact h.congr rfl rfl rfl
  | initTimeout =>
      obtain rfl := Option.some.inj hs
      rw [onInitTimeout]
      split_ifs <;> exact h.congr rfl rfl rfl

theorem switching_start : Switching (start A opts) := ⟨trivial, fun h => by cases h⟩

end

/-! ### The keys in force -/

/-- The payloads written by an end, with those that `as` will still write. -/
def posted (e : Endpoint) (as : List Act) : List Bytes :=
  e.packs.map Packed.data ++
    (e.outbox.map Posted.data ++ as.filterMap (fun | .write data _ => some data | _ => none))

/-- The payloads an end has received. -/
def received (e : Endpoint) : List Bytes := e.pops.filterMap Popped.result

theorem posted_exec (e : Endpoint) (a : Act) (as : List Act) :
    posted (e.exec a) as = posted e (a :: as) := by
  cases a <;> simp only [exec] <;> (try split_ifs) <;> simp [posted, setProtocol]

theorem posted_nil_subset (e : Endpoint) (as : List Act) : posted e [] ⊆ posted e as := by
  intro d hd
  simp only [posted, List.filterMap_nil, List.append_nil, List.mem_append] at hd ⊢
  tauto

section
variable (sha256 : Bytes → Digest) (A : AuthCodecs) (app : Application)

/-- The revertor is derived from the key of the client and from salts that the server writes;
since then it has gone through the messages `ms`. -/
def RevertorKeyed (e : Endpoint) (as : List Act) : Prop :=
  ∃ salts : TransformerSetup, ∃ ms,
    e.protocol.revertor = Transformer.cipher.advance
      (defaultCypher sha256 (app.getSessionKey e.clientId) salts.salt1 salts.salt2) ms ∧
    A.capsule.serialize { ready := true, body := A.setup.serialize salts } ∈ posted e as

/-- The transformer is derived from the key of the client and from salts that it has sent. -/
def TransformerKeyed (e : Endpoint) : Prop :=
  ∃ data ∈ received e, ∃ ms,
    e.protocol.transformer = Transformer.cipher.advance
      (defaultCypher sha256 (app.getSessionKey e.clientId)
        (A.setup.parse (A.capsule.parse data).2.body).2.salt1
        (A.setup.parse (A.capsule.parse data).2.body).2.salt2) ms

/-- A ready handshake has an id that needs no key, or both ciphers; in the second stage the
revertor is already the client's. -/
structure Access (e : Endpoint) (as : List Act) : Prop where
  ready : e.ready = true → app.sessionKeyRequired e.clientId = false ∨
    RevertorKeyed sha256 A app e [] ∧ TransformerKeyed sha256 A app e
  stage : e.stage = .clientTransformer → RevertorKeyed sha256 A app e as

end

/-! ### What the other threads may do -/

/-- What the strand, the completions of the writes, the timer and the RPC layer do to an end. -/
structure Later (e e' : Endpoint) : Prop where
  clientId : e'.clientId = e.clientId
  stage : e'.stage = e.stage
  revertor : e'.protocol.revertor = e.protocol.revertor
  transformer : ∃ ms, e'.protocol.transformer =
    Transformer.cipher.advance e.protocol.transformer ms
  pops : e'.pops = e.pops
  ready : e'.ready = true → e.ready = true
  posted : posted e [] ⊆ posted e' []

theorem Later.of_eq {e e' : Endpoint} (hid : e'.clientId = e.clientId) (hst : e'.stage = e.stage)
    (hproto : e'.protocol = e.protocol) (hpops : e'.pops = e.pops) (hready : e'.ready = e.ready)
    (hpacks : e'.packs = e.packs) (hout : e'.outbox = e.outbox) : Later e e' :=
  ⟨hid, hst, by rw [hproto], ⟨[], by rw [hproto]; rfl⟩, hpops, by rw [hready]; exact id,
    by rw [Server.posted, Server.posted, hpacks, hout]; exact fun _ h => h⟩

theorem Later.trans {e e' e'' : Endpoint} (h : Later e e') (h' : Later e' e'') : Later e e'' := by
  obtain ⟨ms, hms⟩ := h.transformer
  obtain ⟨ns, hns⟩ := h'.transformer
  exact ⟨h'.clientId.trans h.clientId, h'.stage.trans h.stage, h'.revertor.trans h.revertor,
    ⟨ms ++ ns, by rw [hns, hms, StreamCipher.advance_append]⟩, h'.pops.trans h.pops,
    fun hr => h.ready (h'.ready hr), fun _ hd => h'.posted (h.posted hd)⟩

theorem Later.posted_subset {e e' : Endpoint} (h : Later e e') (as : List Act) :
    Server.posted e as ⊆ Server.posted e' as := by
  intro d hd
  have hd' : d ∈ Server.posted e [] ∨
      d ∈ as.filterMap (fun | .write data _ => some data | _ => none) := by
    simp only [Server.posted, List.filterMap_nil, List.append_nil, List.mem_append] at hd ⊢
    tauto
  rcases hd' with hd' | hd'
  · exact posted_nil_subset e' as (h.posted hd')
  · simp only [Server.posted, List.mem_append]
    exact .inr (.inr hd')

/-- The actions of the running handler do not see the difference. -/
theorem Later.exec {e e' : Endpoint} (h : Later e e') (a : Act) : Later (e.exec a) (e'.exec a) := by
  have hposted : Server.posted (e.exec a) [] ⊆ Server.posted (e'.exec a) [] := by
    rw [posted_exec, posted_exec]
    exact h.posted_subset [a]
  obtain ⟨hid, hst, hrev, htr, hpops, hready, _⟩ := h
  cases a with
  | setTransformer t => exact ⟨hid, hst, hrev, ⟨[], rfl⟩, hpops, hready, hposted⟩
  | setRevertor t => exact ⟨hid, hst, rfl, htr, hpops, hready, hposted⟩
  | changeStage st => exact ⟨hid, rfl, hrev, htr, hpops, hready, hposted⟩
  | setClientId id => exact ⟨rfl, hst, hrev, htr, hpops, hready, hposted⟩
  | setReady => exact ⟨hid, hst, hrev, htr, hpops, fun _ => rfl, hposted⟩
  | switchToReady =>
      simp only [Endpoint.exec] at hposted ⊢
      split_ifs at hposted ⊢ <;> exact ⟨hid, hst, hrev, htr, hpops, hready, hposted⟩
  | accessorReady =>
      simp only [Endpoint.exec] at hposted ⊢
      split_ifs at hposted ⊢ <;> exact ⟨hid, hst, hrev, htr, hpops, hready, hposted⟩
  | _ => exact ⟨hid, hst, hrev, htr, hpops, hready, hposted⟩

section
variable {sha256 : Bytes → Digest} {A : AuthCodecs} {unit : Codec LowlevelUnit}
  {app : Application} {opts : SessionOptions}

theorem RevertorKeyed.later {e e' : Endpoint} {as : List Act} (h : RevertorKeyed sha256 A app e as)
    (hl : Later e e') : RevertorKeyed sha256 A app e' as := by
  obtain ⟨salts, ms, hrev, hmem⟩ := h
  refine ⟨salts, ms, ?_, hl.posted_subset as hmem⟩
  rw [hl.revertor, hl.clientId, hrev]

theorem TransformerKeyed.later {e e' : Endpoint} (h : TransformerKeyed sha256 A app e)
    (hl : Later e e') : TransformerKeyed sha256 A app e' := by
  obtain ⟨data, hmem, ms, htr⟩ := h
  obtain ⟨ns, hns⟩ := hl.transformer
  refine ⟨data, by rw [received, hl.pops]; exact hmem, ms ++ ns, ?_⟩
  rw [hns, htr, hl.clientId, StreamCipher.advance_append]

theorem Access.later {e e' : Endpoint} {as : List Act} (h : Access sha256 A app e as)
    (hl : Later e e') : Access sha256 A app e' as := by
  refine ⟨fun hr => ?_, fun hst => ?_⟩
  · rw [hl.clientId]
    rcases h.ready (hl.ready hr) with hnone | ⟨hrev, htr⟩
    · exact .inl hnone
    · exact .inr ⟨hrev.later hl, htr.later hl⟩
  · exact (h.stage (hl.stage.symm.trans hst)).later hl

theorem guarded_later {e e' : Endpoint} {as : List Act} (hl : Later e e')
    (h : Guarded (Access sha256 A app) e as) : Guarded (Access sha256 A app) e' as :=
  h.mono (R := Later) (fun _ _ a hl => hl.exec a) (fun _ _ _ hl hG => hG.later hl) hl

theorem later_runClosure (e : Endpoint) (c : Closure) : Later e (e.runClosure c) := by
  cases c with
  | closeClient => exact ⟨rfl, rfl, rfl, ⟨[], rfl⟩, rfl, (fun h => by cases h), fun _ h => h⟩
  | _ => exact ⟨rfl, rfl, rfl, ⟨[], rfl⟩, rfl, id, fun _ h => h⟩

theorem later_pack {e e' : Endpoint} {bytes : Bytes} (h : e.pack sha256 = some (e', bytes)) :
    Later e e' := by
  obtain ⟨m, outbox, hout, _, _, e₁, rfl, rfl⟩ := pack_eq_some h
  have hl : Later e { e with
      protocol := (e.protocol.packMessage sha256 m.data).1
      outbox := outbox
      packs := e.packs ++ [⟨e.protocol.hashMaker, e.protocol.transformer, m.data⟩] } := by
    refine ⟨rfl, rfl, rfl, ⟨[DefaultProtocol.sealed sha256 e.protocol.hashMaker m.data], rfl⟩, rfl,
      id, ?_⟩
    intro d hd
    simpa [posted, hout, or_assoc] using hd
  split_ifs
  · exact hl.trans (Later.of_eq rfl rfl rfl rfl rfl rfl rfl)
  · exact hl.trans (later_runClosure _ m.closure)

theorem later_processData {e : Endpoint} {p : DefaultProtocol} {chunk : Bytes}
    {res : ProcessResult} (h : e.protocol.processData chunk = (p, res)) :
    Later e (e.setProtocol p) := by
  obtain rfl : p = (e.protocol.processData chunk).1 := by rw [h]
  have hfst := e.protocol.processData_fst chunk
  refine ⟨rfl, rfl, ?_, ⟨[], ?_⟩, rfl, id, fun _ h => h⟩
  · rw [setProtocol, hfst]
  · rw [setProtocol, hfst]
    rfl

/-! ### The handlers -/

/-- The actions that touch neither the ciphers nor the id, the stage or `ready_`. -/
def quiet : Act → Bool
  | .setTransformer _ | .setRevertor _ | .changeStage _ | .setClientId _ | .setReady => false
  | _ => true

theorem later_quiet (e : Endpoint) {a : Act} (h : quiet a = true) : Later e (e.exec a) := by
  have hposted : posted e [] ⊆ posted (e.exec a) [] := by
    rw [posted_exec]
    exact posted_nil_subset e [a]
  cases a with
  | setTransformer _ => cases h
  | setRevertor _ => cases h
  | changeStage _ => cases h
  | setClientId _ => cases h
  | setReady => cases h
  | switchToReady =>
      simp only [Endpoint.exec] at hposted ⊢
      split_ifs at hposted ⊢ <;> exact ⟨rfl, rfl, rfl, ⟨[], rfl⟩, rfl, id, hposted⟩
  | accessorReady =>
      simp only [Endpoint.exec] at hposted ⊢
      split_ifs at hposted ⊢ <;> exact ⟨rfl, rfl, rfl, ⟨[], rfl⟩, rfl, id, hposted⟩
  | _ => exact ⟨rfl, rfl, rfl, ⟨[], rfl⟩, rfl, id, hposted⟩

theorem Access.weaken {e : Endpoint} (h : Access sha256 A app e []) (as : List Act) :
    Access sha256 A app e as := by
  refine ⟨h.ready, fun hst => ?_⟩
  obtain ⟨salts, ms, hrev, hmem⟩ := h.stage hst
  exact ⟨salts, ms, hrev, posted_nil_subset e as hmem⟩

theorem access_undecided {e : Endpoint} (hready : e.ready = false)
    (hstage : e.stage = .clientSelection) (as : List Act) : Access sha256 A app e as :=
  ⟨fun hr => absurd hr (by simp [hready]), fun hst => absurd hst (by simp [hstage])⟩

theorem Access.exec_quiet {e : Endpoint} {a : Act} {as : List Act} (hq : quiet a = true)
    (h : Access sha256 A app e (a :: as)) : Access sha256 A app (e.exec a) as := by
  have hl := later_quiet e hq
  refine ⟨(h.later hl).ready, fun hst => ?_⟩
  obtain ⟨salts, ms, hrev, hmem⟩ := h.stage (hl.stage.symm.trans hst)
  refine ⟨salts, ms, by rw [hl.revertor, hl.clientId, hrev], ?_⟩
  rw [posted_exec]
  exact hmem

theorem guarded_quiet {as : List Act} (hq : ∀ a ∈ as, quiet a = true) :
    ∀ {e : Endpoint}, Access sha256 A app e as → Guarded (Access sha256 A app) e as := by
  induction as with
  | nil => exact fun h => h
  | cons a as ih =>
      intro e h
      exact ⟨h, ih (fun b hb => hq b (List.mem_cons_of_mem _ hb))
        (h.exec_quiet (hq a List.mem_cons_self))⟩

theorem guarded_setClientReady {e : Endpoint} (capsule : InitCapsule) {rest : List Act}
    (hrest : ∀ a ∈ rest, quiet a = true) (h : Access sha256 A app e [])
    (hin : app.sessionKeyRequired e.clientId = false ∨
      RevertorKeyed sha256 A app e [] ∧ TransformerKeyed sha256 A app e) :
    Guarded (Access sha256 A app) e (setClientReady A app opts capsule ++ rest) := by
  have hquiet : ∀ a ∈ sendProtoMessage A { capsule with
      ready := true, text := "Kiva nahda sinut!"
      body := A.session.serialize (app.configureSession opts) } ++ rest, quiet a = true := by
    intro a ha
    rcases List.mem_append.mp ha with ha | ha
    · obtain rfl := List.mem_singleton.mp ha
      rfl
    · exact hrest a ha
  refine ⟨h.weaken _, (h.weaken (_ :: _)).exec_quiet rfl, guarded_quiet hquiet ?_⟩
  refine Access.weaken ?_ _
  exact ⟨fun _ => hin, fun hst => h.stage hst⟩

theorem guarded_onClientTransformer {e : Endpoint} {data : Bytes} {rest : List Act}
    (hrest : ∀ a ∈ rest, quiet a = true) (h : Access sha256 A app e []) (hready : e.ready = false)
    (hstage : e.stage = .clientTransformer) (hdata : data ∈ received e) :
    Guarded (Access sha256 A app) e (onClientTransformer A sha256 app opts e.clientId data ++ rest) := by
  rw [onClientTransformer]
  simp only
  split_ifs
  · exact guarded_quiet (by simpa [close, quiet] using hrest) (h.weaken _)
  · exact guarded_quiet (by simpa [quiet] using hrest) (h.weaken _)
  · refine ⟨h.weaken _, guarded_setClientReady _ hrest ?_ (.inr ⟨?_, ?_⟩)⟩
    · exact ⟨fun hr => absurd hr (by simp [exec, setProtocol, hready]), fun hst => h.stage hst⟩
    · exact h.stage hstage
    · exact ⟨data, hdata, [], rfl⟩

theorem guarded_setupTransformer {e : Endpoint} {id : UInt32} {salts : Bytes × Bytes}
    {rest : List Act} (hrest : ∀ a ∈ rest, quiet a = true) (hready : e.ready = false)
    (hstage : e.stage = .clientSelection) :
    Guarded (Access sha256 A app) e
      (setupTransformer A sha256 app opts e.clientId salts id ++ rest) := by
  have hund : ∀ as, Access sha256 A app e as := fun as => access_undecided hready hstage as
  rw [setupTransformer]
  split_ifs with hid hkey hid'
  · exact guarded_setClientReady _ hrest (hund []) (.inl (by simpa using hkey))
  · exact guarded_quiet (by simpa [sendAndClose, quiet] using hrest) (hund _)
  · refine ⟨hund _, access_undecided (by exact hready) (by exact hstage) _,
      guarded_quiet (by simpa [sendProtoMessage, quiet] using hrest)
        ⟨fun hr => absurd hr (by simp [exec, setProtocol, hready]), fun _ => ?_⟩⟩
    exact ⟨⟨salts.1, salts.2⟩, [], rfl, by simp [posted, sendProtoMessage]⟩
  · exact guarded_quiet (by simpa [sendAndClose, quiet] using hrest) (hund _)

theorem guarded_onClientSelection {e : Endpoint} {salts : Bytes × Bytes} {data : Bytes}
    {rest : List Act} (hrest : ∀ a ∈ rest, quiet a = true) (hready : e.ready = false)
    (hstage : e.stage = .clientSelection) :
    Guarded (Access sha256 A app) e (onClientSelection A sha256 app opts salts data ++ rest) := by
  have hund : ∀ as, Access sha256 A app e as := fun as => access_undecided hready hstage as
  rw [onClientSelection]
  simp only
  split_ifs
  · exact guarded_quiet (by simpa [close, quiet] using hrest) (hund _)
  · exact guarded_quiet hrest (hund _)
  · split
    · exact guarded_quiet (by simpa [close, quiet] using hrest) (hund _)
    · rename_i h hhash
      refine ⟨hund _, access_undecided (by exact hready) (by exact hstage) _,
        access_undecided (by exact hready) (by exact hstage) _, ?_⟩
      exact guarded_setupTransformer hrest hready hstage

/-! ### Steps and runs -/

/-- What every reachable state of the server satisfies. -/
structure Guard (sha256 : Bytes → Digest) (A : AuthCodecs) (app : Application) (e : Endpoint) :
    Prop where
  switching : Switching e
  access : Guarded (Access sha256 A app) e e.todo

theorem Access.popRaw {e e' : Endpoint} {res : Option Bytes} (h : Access sha256 A app e [])
    (hp : e.popRaw sha256 = some (e', res)) :
    Access sha256 A app e' [] ∧ e'.ready = e.ready ∧ e'.stage = e.stage ∧
      e'.clientId = e.clientId ∧ e'.pops = e.pops ++
        [⟨e.protocol.hashChecker, e.protocol.revertor, res⟩] := by
  obtain ⟨p, hpop, rfl⟩ := popRaw_eq_some hp
  obtain ⟨m, hrev, htr⟩ : ∃ m, p.revertor = (e.protocol.revertor.transform m).1 ∧
      p.transformer = e.protocol.transformer := by
    rw [DefaultProtocol.popRawMessage] at hpop
    split at hpop
    · cases hpop
    · rename_i m ms hm
      simp only at hpop
      split_ifs at hpop <;> obtain ⟨rfl, _⟩ := Prod.mk.inj (Option.some.inj hpop) <;>
        exact ⟨m, rfl, rfl⟩
  have hkeyed : RevertorKeyed sha256 A app e [] → RevertorKeyed sha256 A app { e with
      protocol := p
      pops := e.pops ++ [⟨e.protocol.hashChecker, e.protocol.revertor, res⟩] } [] := by
    rintro ⟨salts, ms, hr, hmem⟩
    refine ⟨salts, ms ++ [m], ?_, hmem⟩
    rw [StreamCipher.advance_append, ← hr]
    exact hrev
  refine ⟨⟨fun hr => ?_, fun hst => hkeyed (h.stage hst)⟩, rfl, rfl, rfl, rfl⟩
  rcases h.ready hr with hnone | ⟨hrk, data, hdata, ms, hms⟩
  · exact .inl hnone
  · refine .inr ⟨hkeyed hrk, data, ?_, ms, htr.trans hms⟩
    rw [received, List.filterMap_append]
    exact List.mem_append_left _ hdata

theorem Guard.later {e e' : Endpoint} (h : Guard sha256 A app e) (hs : Switching e')
    (hl : Later e e') (htodo : e'.todo = e.todo) : Guard sha256 A app e' :=
  ⟨hs, by rw [htodo]; exact guarded_later hl h.access⟩

/-- A handshake message arrives: its handler is guarded from its first action on. -/
theorem guarded_doHandshake {e : Endpoint} {salts : Bytes × Bytes} (h : Access sha256 A app e [])
    (hready : e.ready = false) (htodo : e.todo = []) :
    Guarded (Access sha256 A app) (doHandshake sha256 (role A sha256 app opts) e salts)
      (doHandshake sha256 (role A sha256 app opts) e salts).todo := by
  have hlast : ∀ a ∈ [Act.switchToReady, .accessorReady], quiet a = true := by simp [quiet]
  rcases doHandshake_cases sha256 (role A sha256 app opts) e salts with
    ⟨_, heq⟩ | ⟨e₁, hp, heq⟩ | ⟨e₁, data, hp, heq⟩
  · rw [heq, htodo]
    exact h
  · obtain ⟨h₁, _⟩ := h.popRaw hp
    rw [heq]
    refine guarded_quiet (by simp [role, close, quiet]) ?_
    exact (h₁.weaken _).later (Later.of_eq rfl rfl rfl rfl rfl rfl rfl)
  · obtain ⟨h₁, hr₁, hst₁, _, hpops⟩ := h.popRaw hp
    have hdata : data ∈ received e₁ := by
      rw [received, hpops, List.filterMap_append]
      exact List.mem_append_right _ (by simp)
    rw [heq]
    refine guarded_later (e := e₁) (Later.of_eq rfl rfl rfl rfl rfl rfl rfl) ?_
    simp only [role]
    cases hst : e₁.stage with
    | clientSelection => exact guarded_onClientSelection hlast (hr₁.trans hready) hst
    | clientTransformer =>
        exact guarded_onClientTransformer hlast h₁ (hr₁.trans hready) hst hdata
    | _ => exact guarded_quiet hlast (h₁.weaken _)

theorem Guard.step {e e' : Endpoint} {ev : Event} (h : Guard sha256 A app e)
    (hs : step sha256 A unit app opts e ev = some e') : Guard sha256 A app e' := by
  have hsw := h.switching.step hs
  cases ev with
  | act =>
      obtain ⟨a, as, htodo, rfl⟩ := act_eq_some hs
      refine ⟨hsw, ?_⟩
      have hG := h.access
      rw [htodo] at hG
      rw [exec_todo]
      have hl : Later e { e with todo := as } := Later.of_eq rfl rfl rfl rfl rfl rfl rfl
      exact guarded_later (hl.exec a) hG.2
  | pack =>
      obtain ⟨⟨e₁, bytes⟩, hp, rfl⟩ := Option.map_eq_some_iff.mp hs
      refine h.later hsw (later_pack hp) ?_
      obtain ⟨m, outbox, _, _, _, e₂, rfl, rfl⟩ := pack_eq_some hp
      split_ifs
      · rfl
      · cases m.closure <;> rfl
  | written =>
      obtain ⟨c, writing, _, rfl⟩ := written_eq_some hs
      have hl : Later e { e with writing := writing } := Later.of_eq rfl rfl rfl rfl rfl rfl rfl
      refine h.later hsw (hl.trans (later_runClosure _ c)) ?_
      cases c <;> rfl
  | recv chunk salts =>
      obtain ⟨_, _, htodo, hcases⟩ := recv_cases hs
      have hacc : Access sha256 A app e [] := by
        have := h.access
        rwa [htodo] at this
      rcases hcases with ⟨p, err, hp, rfl⟩ | ⟨p, hp, rfl⟩ | ⟨p, hp, _, rfl⟩ | ⟨p, hp, hserv, rfl⟩
      · exact h.later hsw ((later_processData hp).trans (Later.of_eq rfl rfl rfl rfl rfl rfl rfl)) rfl
      · exact h.later hsw (later_processData hp) rfl
      · refine ⟨hsw, ?_⟩
        have hinv := serve_inv sha256 unit
          (I := fun e => Access sha256 A app e [] ∧ e.todo = []) ?_ ?_ ?_ p.queueSize (e.setProtocol p)
          ⟨hacc.later (later_processData hp), htodo⟩
        · rw [hinv.2]
          exact hinv.1
        · intro e e' res hi hp
          refine ⟨(hi.1.popRaw hp).1, ?_⟩
          obtain ⟨_, _, rfl⟩ := popRaw_eq_some hp
          exact hi.2
        · exact fun e hi => ⟨hi.1.later (Later.of_eq rfl rfl rfl rfl rfl rfl rfl), hi.2⟩
        · exact fun e llu hi => ⟨hi.1.later (Later.of_eq rfl rfl rfl rfl rfl rfl rfl), hi.2⟩
      · refine ⟨hsw, guarded_doHandshake (hacc.later (later_processData hp)) ?_ htodo⟩
        have := h.switching.ready
        rw [htodo, hserv] at this
        cases hr : e.ready with
        | false => exact hr
        | true => simp [hr] at this
  | send data =>
      obtain ⟨_, rfl⟩ := send_eq_some hs
      refine h.later hsw ⟨rfl, rfl, rfl, ⟨[], rfl⟩, rfl, id, ?_⟩ rfl
      intro d hd
      simp only [posted, List.map_append, List.mem_append] at hd ⊢
      tauto
  | initTimeout =>
      obtain rfl := Option.some.inj hs
      rw [onInitTimeout] at hsw ⊢
      split_ifs at hsw ⊢
      · refine h.later hsw ⟨rfl, rfl, rfl, ⟨[], rfl⟩, rfl, id, ?_⟩ rfl
        intro d hd
        simp only [posted, List.map_append, List.mem_append] at hd ⊢
        tauto
      · exact h

theorem guard_start : Guard sha256 A app (start A opts) := by
  refine ⟨switching_start, ?_⟩
  exact access_undecided rfl rfl []

end

/-- **Access through the handshake.**  In every reachable state in which `ready_` is set, either
the application requires no key for the id of the client, or revertor and transformer are the
ciphers of its key, derived from salts that the server has written and from salts that the
client has sent, and neither of them is the plain one. -/
theorem ready_access (sha256 : Bytes → Digest) (A : AuthCodecs) (unit : Codec LowlevelUnit)
    (app : Application) (opts : SessionOptions) (e : Endpoint)
    (hreach : (serverMachine sha256 A unit app opts).Reachable e) (hready : e.ready = true) :
    app.sessionKeyRequired e.clientId = false ∨
      RevertorKeyed sha256 A app e [] ∧ TransformerKeyed sha256 A app e ∧
        e.protocol.revertor ≠ .none ∧ e.protocol.transformer ≠ .none := by
  have hguard : Guard sha256 A app e :=
    hreach.inv guard_start (fun _ _ _ hi hs => hi.step hs)
  rcases hguard.access.now.ready hready with hnone | ⟨hrev, htr⟩
  · exact .inl hnone
  · refine .inr ⟨hrev, htr, ?_, ?_⟩
    · obtain ⟨salts, ms, hms, _⟩ := hrev
      rw [hms]
      exact Transformer.advance_chacha_ne_none _ _
    · obtain ⟨data, _, ms, hms⟩ := htr
      rw [hms]
      exact Transformer.advance_chacha_ne_none _ _

/-- The chunk that brings `data` with CRC-32, enciphered with `t`. -/
def packed (sha256 : Bytes → Digest) (t : Transformer) (data : Bytes) : Bytes :=
  (((DefaultProtocol.create.setHashMaker .crc32).setTransformer t).packMessage sha256 data).2

/-- A client on a server that requires a key: it selects the transformer, and enciphers its setup
with the salts that the server has drawn. -/
theorem ready_access_key :
    let app : Application := ⟨fun _ => true, fun _ => [0x01], id⟩
    let sha256 : Bytes → Digest := fun _ => ⟨List.replicate 32 0, rfl⟩
    let salts : TransformerSetup := ⟨List.replicate 256 0x02, List.replicate 256 0x03⟩
    let setup := keyCodecs.capsule.serialize { ready := true, body := keyCodecs.setup.serialize salts }
    ∃ e, (serverMachine sha256 keyCodecs ⟨fun _ => [], fun _ => (false, {})⟩ app .defaults).run
        ([.pack, .written, .recv (0x16 :: keyCodecs.capsule.serialize
            { text := "Miten menee?", ready := true, body := [0x08, 0x02, 0x10, 0x01] })
          (salts.salt1, salts.salt2)] ++ List.replicate 8 .act ++
        [.recv (packed sha256 (defaultCypher sha256 [0x01] salts.salt1 salts.salt2) setup) ([], [])] ++
        List.replicate 4 .act) = some e ∧
      e.ready = true ∧ app.sessionKeyRequired e.clientId = true ∧
      (app.sessionKeyRequired e.clientId = false ∨
        RevertorKeyed sha256 keyCodecs app e [] ∧ TransformerKeyed sha256 keyCodecs app e ∧
          e.protocol.revertor ≠ .none ∧ e.protocol.transformer ≠ .none) := by
  intro app sha256 salts setup
  obtain ⟨e, he, hready⟩ := (serverMachine sha256 keyCodecs ⟨fun _ => [], fun _ => (false, {})⟩ app
    .defaults).exists_run
      ([.pack, .written, .recv (0x16 :: keyCodecs.capsule.serialize
          { text := "Miten menee?", ready := true, body := [0x08, 0x02, 0x10, 0x01] })
        (salts.salt1, salts.salt2)] ++ List.replicate 8 .act ++
      [.recv (packed sha256 (defaultCypher sha256 [0x01] salts.salt1 salts.salt2) setup) ([], [])] ++
      List.replicate 4 .act) (fun e => e.ready = true) (by decide +kernel)
  exact ⟨e, he, hready, rfl, ready_access _ _ _ _ _ e ⟨_, he⟩ hready⟩

end Vtrc.Server
