import Vtrc.Conversation

/-! # Units arrive in the order in which they were sent

The messages of a connection have no numbers and no types: what a message is depends on how many
have come before it.  An end reads the messages of the handshake with its handlers until one of
them switches it to the ready stage, and every later message is a unit; its peer sends units as
soon as its own layer is ready, which is before or after that.  `units_in_order` says that the two
always agree: the units that an end dispatches are those that the other layer has sent, in that
order, none twice and none left out.

`Tallied` counts for one end what it has posted and popped.  Each handler of the handshake but the
last answers one message with one message, so that an end in the handshake knows how many messages
it has posted from how many it has popped (`client_runs`, `server_runs`). -/

namespace Vtrc.Session

open Endpoint DefaultProtocol

/-- The unit in a payload. -/
def unitOf (unit : Codec LowlevelUnit) (data : Bytes) : Option LowlevelUnit :=
  let u := unit.parse data
  if u.1 then some u.2 else none

/-- The unit in a message that was popped. -/
def unitIn (unit : Codec LowlevelUnit) (p : Popped) : Option LowlevelUnit := p.result.bind (unitOf unit)

/-- The payload that the layer of the end sends. -/
def Event.payload (side : Side) : Event → Option Bytes
  | .send sender data => if sender = side then some data else none
  | _ => none

/-- What the layer of the end sends in the events. -/
def sent (side : Side) (es : List Event) : List Bytes := es.filterMap (Event.payload side)

theorem sent_snoc (side : Side) (es : List Event) (ev : Event) :
    sent side (es ++ [ev]) = sent side es ++ (ev.payload side).toList := by
  rw [sent, List.filterMap_append, sent]
  cases h : ev.payload side <;> simp [h]

theorem sent_silent {side : Side} {es : List Event} {ev : Event} (h : ev.payload side = none) :
    sent side (es ++ [ev]) = sent side es := by
  rw [sent_snoc, h]
  exact List.append_nil _

/-- The tally of an end that posts `spoken` messages in the handshake and pops `heard`, and that is
`lead` messages ahead of its peer; `units` are the payloads its layer has sent. -/
structure Tallied (unit : Codec LowlevelUnit) (lead spoken heard : ℕ) (units : List Bytes)
    (e : Endpoint) : Prop where
  answers : e.serving = false → e.stage ≠ .error → (posted e).length = e.pops.length + lead
  silent : e.serving = false → units = [] ∧ e.dispatched = []
  posted : e.serving = true → spoken ≤ (posted e).length ∧ (posted e).drop spoken = units
  hears : e.serving = true → heard ≤ e.pops.length
  handed : e.serving = true →
    e.dispatched.map some <+: (e.pops.drop heard).map (unitIn unit)
  /-- A message that is not a unit closes the connection. -/
  all : e.serving = true → e.connClosed = false →
    e.dispatched.map some = (e.pops.drop heard).map (unitIn unit)

/-- A step in which the end pops and posts nothing. -/
structure Passes (e e' : Endpoint) : Prop where
  serving : e'.serving = e.serving
  stage : e'.stage = e.stage
  posted : posted e' = posted e
  pops : e'.pops = e.pops
  dispatched : e'.dispatched = e.dispatched
  isOpen : e'.connClosed = false → e.connClosed = false

section
variable {sha256 : Bytes → Digest} {unit : Codec LowlevelUnit} {lead spoken heard : ℕ}
  {units : List Bytes}

theorem passes_pack {e e' : Endpoint} {bytes : Bytes} (h : e.pack sha256 = some (e', bytes)) :
    Passes e e' := by
  obtain ⟨m, hm⟩ := packing_of_pack h
  exact ⟨hm.serving, hm.stage, posted_packing hm, hm.pops, hm.dispatched,
    fun hopen => hm.connClosed ▸ hopen⟩

theorem passes_written {e e' : Endpoint} (h : e.written = some e') : Passes e e' := by
  obtain ⟨c, writing, _, rfl⟩ := written_eq_some h
  cases c with
  | closeClient => exact ⟨rfl, rfl, rfl, rfl, rfl, fun hopen => (by cases hopen)⟩
  | _ => exact ⟨rfl, rfl, rfl, rfl, rfl, id⟩

theorem Tallied.passes {e e' : Endpoint} (h : Tallied unit lead spoken heard units e)
    (hp : Passes e e') : Tallied unit lead spoken heard units e' where
  answers hserv hst := by
    rw [hp.posted, hp.pops]
    exact h.answers (hp.serving ▸ hserv) (hp.stage ▸ hst)
  silent hserv := by
    rw [hp.dispatched]
    exact h.silent (hp.serving ▸ hserv)
  posted hserv := by
    rw [hp.posted]
    exact h.posted (hp.serving ▸ hserv)
  hears hserv := by
    rw [hp.pops]
    exact h.hears (hp.serving ▸ hserv)
  handed hserv := by
    rw [hp.pops, hp.dispatched]
    exact h.handed (hp.serving ▸ hserv)
  all hserv hopen := by
    rw [hp.pops, hp.dispatched]
    exact h.all (hp.serving ▸ hserv) (hp.isOpen hopen)

theorem Tallied.send {e e' : Endpoint} {data : Bytes} (h : Tallied unit lead spoken heard units e)
    (hserv : e.layerReady = true → e.serving = true) (hs : e.send data = some e') :
    Tallied unit lead spoken heard (units ++ [data]) e' := by
  obtain ⟨hlayer, rfl⟩ := send_eq_some hs
  have hserv := hserv hlayer
  have hposted : Session.posted { e with outbox := e.outbox ++ [⟨data, .default⟩] } =
      Session.posted e ++ [data] := posted_post ⟨data, .default⟩ rfl rfl
  obtain ⟨hle, hdrop⟩ := h.posted hserv
  refine ⟨fun hnot => ?_, fun hnot => ?_, fun _ => ⟨?_, ?_⟩, h.hears, h.handed, h.all⟩
  · rw [show e.serving = false from hnot] at hserv
    cases hserv
  · rw [show e.serving = false from hnot] at hserv
    cases hserv
  · rw [hposted, List.length_append]
    exact hle.trans (Nat.le_add_right _ _)
  · rw [hposted, List.drop_append_of_le_length hle, hdrop]

variable (sha256) in
/-- **The loop of the ready stage** dispatches what it pops. -/
theorem Tallied.serve (n : ℕ) : ∀ {e : Endpoint}, Tallied unit lead spoken heard units e →
    e.serving = true → e.connClosed = false →
      Tallied unit lead spoken heard units (Endpoint.serve sha256 unit n e) := by
  induction n with
  | zero => exact fun h _ _ => h
  | succ n ih =>
      intro e h hserv hopen
      rw [Endpoint.serve]
      split
      · exact h
      · rename_i e' res hp
        obtain ⟨p, _, rfl⟩ := popRaw_eq_some hp
        generalize hx : (⟨e.protocol.hashChecker, e.protocol.revertor, res⟩ : Popped) = x
        have hdrop : ((e.pops ++ [x]).drop heard).map (unitIn unit) =
            e.dispatched.map some ++ [unitIn unit x] := by
          rw [List.drop_append_of_le_length (h.hears hserv), List.map_append, ← h.all hserv hopen]
          rfl
        have hheard : heard ≤ (e.pops ++ [x]).length := by
          rw [List.length_append]
          exact (h.hears hserv).trans (Nat.le_add_right _ _)
        have hunit : unitIn unit x =
            res.bind (fun d => let u := unit.parse d; if u.1 then some u.2 else none) := by
          rw [← hx]
          rfl
        have hnot : ∀ {q : Prop}, e.serving = false → q := fun hf => by
          rw [hserv] at hf
          cases hf
        split
        · refine ⟨hnot, hnot, h.posted, fun _ => hheard, fun _ => ?_, fun _ hc => (by cases hc)⟩
          rw [hdrop]
          exact List.prefix_append _ _
        · rename_i llu hres
          have hall : (e.dispatched ++ [llu]).map some =
              ((e.pops ++ [x]).drop heard).map (unitIn unit) := by
            rw [hdrop, hunit, hres, List.map_append]
            rfl
          exact ih ⟨hnot, hnot, h.posted, fun _ => hheard, fun _ => hall ▸ List.prefix_rfl,
            fun _ _ => hall⟩ hserv hopen

theorem Tallied.answered {e e' : Endpoint} (h : Tallied unit lead spoken heard units e)
    (hserv : e.serving = false) (hst : e.stage ≠ .error) (hserv' : e'.serving = false)
    (hposted : (Session.posted e').length = (Session.posted e).length + 1)
    (hpops : e'.pops.length = e.pops.length + 1) (hdisp : e'.dispatched = e.dispatched) :
    Tallied unit lead spoken heard units e' := by
  have hnot : ∀ {q : Prop}, e'.serving = true → q := fun hf => by
    rw [hserv'] at hf
    cases hf
  refine ⟨fun _ _ => ?_, fun _ => ?_, hnot, hnot, hnot, hnot⟩
  · rw [hposted, hpops, h.answers hserv hst, Nat.add_right_comm]
  · rw [hdisp]
    exact h.silent hserv

theorem Tallied.ready {e e' : Endpoint} (h : Tallied unit lead spoken heard units e)
    (hserv : e.serving = false) (hserv' : e'.serving = true)
    (hposted : (Session.posted e').length = spoken) (hpops : e'.pops.length = heard)
    (hdisp : e'.dispatched = e.dispatched) : Tallied unit lead spoken heard units e' := by
  obtain ⟨rfl, hnone⟩ := h.silent hserv
  have hnot : ∀ {q : Prop}, e'.serving = false → q := fun hf => by
    rw [hserv'] at hf
    cases hf
  have hall : e'.dispatched.map some = (e'.pops.drop heard).map (unitIn unit) := by
    rw [hdisp, hnone, ← hpops, List.drop_length]
    rfl
  refine ⟨hnot, hnot, fun _ => ⟨hposted.ge, ?_⟩, fun _ => hpops.ge, fun _ => hall ▸ List.prefix_rfl,
    fun _ _ => hall⟩
  rw [← hposted, List.drop_length]

end

/-! ### The handlers -/

section
variable {sha256 : Bytes → Digest} {A : AuthCodecs} {unit : Codec LowlevelUnit}
  {app : Server.Application} {opts : SessionOptions} {base : Client.Base} {S C : Endpoint}
  {units : List Bytes}

theorem length_posted_post {e e' : Endpoint} (m : Posted) (hpacks : e'.packs = e.packs)
    (hout : e'.outbox = e.outbox ++ [m]) : (posted e').length = (posted e).length + 1 := by
  rw [posted_post m hpacks hout, List.length_append, List.length_singleton]

/-- With nothing pending, everything that was posted has been popped. -/
theorem length_posted_of_pending {s r : Endpoint} {link : Bytes} (hl : Linked sha256 s r link)
    (hp : pending s r = []) : (posted s).length = r.pops.length := by
  have hdrop := flight_of_pending hp
  rw [flight, List.drop_eq_nil_iff] at hdrop
  rw [posted, outbox_of_pending hp, List.map_nil, List.append_nil, List.length_map]
  exact Nat.le_antisymm hdrop hl.length_le

variable (sha256) in
theorem pops_finish (e : Endpoint) (k : Packed) (acts : List Act) :
    (finish (acts.foldl exec (afterPop sha256 e k))).pops.length = e.pops.length + 1 := by
  rw [show (finish (acts.foldl exec (afterPop sha256 e k))).pops = e.pops ++ [k.popped] from
    (foldl_exec_writing (afterPop sha256 e k) acts).2.2]
  simp

/-- **The client handles a message.** -/
theorem tallied_client {o : SessionOptions} (hA : A.Lawful) (hphase : Phase sha256 A base S C)
    (hlim : Limits A base opts o S C)
    (h : Tallied unit 0 (readyIndex base) (readyIndex base + 1) units C) {link : Bytes}
    (hl : Linked sha256 S C link) (hopen : C.connClosed = false) (htodo : C.todo = [])
    (hserv : C.serving = false) (hne : C.protocol.queue.messages ≠ []) {salts : Bytes × Bytes}
    {C' : Endpoint} (hC' : C' = doHandshake sha256 (Client.role A sha256 base) C salts) :
    Tallied unit 0 (readyIndex base) (readyIndex base + 1) units C'.settle := by
  obtain ⟨k, ks, acts, hruns, hacts⟩ :=
    client_runs hA hphase hlim hl hopen htodo hserv hne salts hC'
  rw [hruns.settle]
  have hpops := pops_finish sha256 C k acts
  cases hacts with
  | hello wC =>
      have hwait := waits_serving wC
      exact h.answered hserv (by rw [wC.stage]; simp) hwait
        (length_posted_post ⟨selectionMessage A base, .setOptions⟩ rfl rfl) hpops rfl
  | setup key hkey wC t =>
      have hwait := waits_serving wC
      exact h.answered hserv (by rw [wC.stage]; simp) hwait
        (length_posted_post ⟨setupMessage A salts, .default⟩ rfl rfl) hpops rfl
  | ready ks hS hC hst =>
      have hall := h.answers hserv (by rw [hst]; simp)
      rw [hlim.ready hserv hst] at hall hpops
      exact h.ready hserv rfl hall hpops rfl
  | refused ks wS wC pcs =>
      have hserv' := waits_serving wC
      refine ⟨fun _ hst => absurd rfl hst, fun _ => h.silent hserv, ?_, ?_, ?_, ?_⟩
      all_goals exact fun hf => absurd (hserv'.symm.trans hf) Bool.false_ne_true

/-- **The server handles a message.** -/
theorem tallied_server {o : SessionOptions} (hA : A.Lawful) (hphase : Phase sha256 A base S C)
    (hlim : Limits A base opts o S C)
    (h : Tallied unit 1 (readyIndex base + 1) (readyIndex base) units S) {link link' : Bytes}
    (hl' : Linked sha256 S C link') (hl : Linked sha256 C S link) (hopen : S.connClosed = false)
    (htodo : S.todo = []) (hserv : S.serving = false) (hne : S.protocol.queue.messages ≠ [])
    {salts : Bytes × Bytes} {S' : Endpoint}
    (hS' : S' = doHandshake sha256 (Server.role A sha256 app opts) S salts) :
    Tallied unit 1 (readyIndex base + 1) (readyIndex base) units S'.settle := by
  obtain ⟨k, acts, hruns, hacts⟩ :=
    server_runs hA app opts hphase hl hopen htodo hserv hne salts hS'
  rw [hruns.settle]
  have hpops := pops_finish sha256 S k acts
  have hlast : ∀ st, st ≠ .error → Waits st S → Waits .ready C → pending S C = [] →
      (posted S).length = readyIndex base ∧ S.pops.length + 1 = readyIndex base := by
    intro st hst wS wC psc
    have hall := length_posted_of_pending hl' psc
    rw [hlim.ready wC.serving wC.stage] at hall
    have hlead := h.answers hserv (by rw [wS.stage]; exact hst)
    exact ⟨hall, by rw [← hlead, hall]⟩
  cases hacts with
  | accept hkey hreq wS wC psc =>
      obtain ⟨hposted, hheard⟩ := hlast _ (by simp) wS wC psc
      refine h.ready hserv rfl ?_ (hpops.trans hheard) rfl
      exact Eq.trans (length_posted_post (e := S) ⟨readyMessage A (app.configureSession opts), .default⟩ rfl rfl)
        (congrArg (· + 1) hposted)
  | refuse hkey hreq wS wC psc =>
      have hwait := waits_serving wS
      exact h.answered hserv (by rw [wS.stage]; simp) hwait
        (length_posted_post ⟨refusal A, .closeClient⟩ rfl rfl) hpops rfl
  | setup key hkey wS wC psc =>
      have hwait := waits_serving wS
      exact h.answered hserv (by rw [wS.stage]; simp) hwait
        (length_posted_post ⟨setupMessage A salts, .default⟩ rfl rfl) hpops rfl
  | answer key hkey wS wC psc t =>
      obtain ⟨hposted, hheard⟩ := hlast _ (by simp) wS wC psc
      refine h.ready hserv rfl ?_ (hpops.trans hheard) rfl
      exact Eq.trans (length_posted_post (e := S) ⟨readyMessage A (app.configureSession opts), .default⟩ rfl rfl)
        (congrArg (· + 1) hposted)

end

/-! ### Sessions -/

section
variable {sha256 : Bytes → Digest} {unit : Codec LowlevelUnit} {lead spoken heard : ℕ}
  {units : List Bytes}

/-- **A chunk** for an end of a session, with what its handlers come to. -/
theorem Tallied.recv {role : Role} {n : ℕ} {s r r' : Endpoint} {link : Bytes}
    {salts : Bytes × Bytes} (h : Tallied unit lead spoken heard units r)
    (hl : Linked sha256 s r link)
    (hhandle : ∀ q, Linked sha256 s (requeue r q) (link.drop n) → q.messages ≠ [] →
      Kept r (requeue r q) → Tallied unit lead spoken heard units (requeue r q) →
      r.serving = false → r.connClosed = false → r.todo = [] →
      ∀ e, e = doHandshake sha256 role (requeue r q) salts →
        Tallied unit lead spoken heard units e.settle)
    (hr : r.recv sha256 unit role (link.take n) salts = some r') :
    Tallied unit lead spoken heard units r'.settle := by
  have hpasses : ∀ p, Passes r (r.setProtocol p) := fun p => ⟨rfl, rfl, rfl, rfl, rfl, id⟩
  refine recv_inv hl (fun p => h.passes (hpasses p)) (fun p => ?_) (fun p hserv hopen => ?_)
    (fun q hlq hne hkq => hhandle q hlq hne hkq (h.passes (hpasses _))) hr
  · exact h.passes ⟨rfl, rfl, rfl, rfl, rfl, fun hc => (by cases hc)⟩
  · exact (h.passes (hpasses p)).serve sha256 p.queueSize hserv hopen

theorem settle_dispatched (e : Endpoint) : e.settle.dispatched = e.dispatched := by
  have hfold : ∀ (as : List Act) (e : Endpoint), (as.foldl exec e).dispatched = e.dispatched := by
    intro as
    induction as with
    | nil => exact fun _ => rfl
    | cons a as ih =>
        intro e
        rw [List.foldl_cons, ih]
        cases a with
        | switchToReady => rw [exec_switchToReady]
        | accessorReady => rw [exec_accessorReady]
        | _ => rfl
  exact hfold e.todo { e with todo := [] }

/-- What an end has dispatched, against what its peer has posted after the handshake. -/
theorem Tallied.order {s r : Endpoint} {link : Bytes} {units' : List Bytes}
    (h : Tallied unit lead spoken heard units r) (hl : Linked sha256 s r link)
    (hserv : r.serving = true) (hs : (Session.posted s).drop heard = units') :
    r.dispatched.map some <+: units'.map (unitOf unit) := by
  have hpops : (r.pops.drop heard).map (unitIn unit) <+:
      ((s.packs.map Packed.data).drop heard).map (unitOf unit) := by
    have := (hl.aligned.drop heard).map (unitIn unit)
    rw [← List.map_drop, List.map_map] at this
    rw [← List.map_drop, List.map_map]
    exact this
  refine ((h.handed hserv).trans hpops).trans ?_
  rw [← hs]
  exact ((List.prefix_append _ _).drop heard).map _

end

/-- The invariant of a session, with what its layers have sent. -/
structure InOrder (sha256 : Bytes → Digest) (A : AuthCodecs) (unit : Codec LowlevelUnit)
    (app : Server.Application) (opts : SessionOptions) (base : Client.Base) (es : List Event)
    (s : Session) : Prop where
  inv : Inv sha256 A base s
  limits : Limits A base opts (app.configureSession opts) s.server.settle s.client.settle
  server : Tallied unit 1 (readyIndex base + 1) (readyIndex base) (sent .server es) s.server.settle
  client : Tallied unit 0 (readyIndex base) (readyIndex base + 1) (sent .client es) s.client.settle

section
variable {sha256 : Bytes → Digest} {A : AuthCodecs} {unit : Codec LowlevelUnit}
  {app : Server.Application} {opts : SessionOptions} {base : Client.Base} {es : List Event}
  {s s' : Session}

theorem inOrder_start : InOrder sha256 A unit app opts base []
    { server := Server.start A opts, client := Client.start } := by
  refine ⟨inv_start, limits_start, ⟨fun _ _ => rfl, fun _ => ⟨rfl, rfl⟩, ?_, ?_, ?_, ?_⟩,
    ⟨fun _ _ => rfl, fun _ => ⟨rfl, rfl⟩, ?_, ?_, ?_, ?_⟩⟩
  all_goals exact fun h => (by cases h)

/-- **Every step** keeps the invariant. -/
theorem InOrder.step (hA : A.Lawful)
    (happ : ∀ key, base.sessionKey = some key → app.getSessionKey base.sessionId = key)
    {ev : Event} (h : InOrder sha256 A unit app opts base es s)
    (hs : Session.step sha256 A unit app opts base s ev = some s') :
    InOrder sha256 A unit app opts base (es ++ [ev]) s' := by
  have hinv := h.inv.step hA happ hs
  have hlimits := Limits.step hA happ h.inv h.limits hs
  obtain ⟨⟨hphase, htc, hts, hos, hoc⟩, hlim, tS, tC⟩ := h
  cases ev with
  | act side =>
      refine ⟨hinv, hlimits, ?_, ?_⟩
      all_goals
        rw [sent_silent rfl]
        cases side
      · obtain ⟨e, he, rfl⟩ := Option.map_eq_some_iff.mp hs
        rw [settle_act he]
        exact tS
      · obtain ⟨e, he, rfl⟩ := Option.map_eq_some_iff.mp hs
        exact tS
      · obtain ⟨e, he, rfl⟩ := Option.map_eq_some_iff.mp hs
        exact tC
      · obtain ⟨e, he, rfl⟩ := Option.map_eq_some_iff.mp hs
        rw [settle_act he]
        exact tC
  | pack side =>
      cases side with
      | server =>
          obtain ⟨⟨e, bytes⟩, he, rfl⟩ := Option.map_eq_some_iff.mp hs
          refine ⟨hinv, hlimits, ?_, ?_⟩ <;> rw [sent_silent rfl]
          · exact tS.passes (passes_pack (settle_pack hos he))
          · exact tC
      | client =>
          obtain ⟨⟨e, bytes⟩, he, rfl⟩ := Option.map_eq_some_iff.mp hs
          refine ⟨hinv, hlimits, ?_, ?_⟩ <;> rw [sent_silent rfl]
          · exact tS
          · exact tC.passes (passes_pack (settle_pack hoc he))
  | written side =>
      cases side with
      | server =>
          obtain ⟨e, he, rfl⟩ := Option.map_eq_some_iff.mp hs
          have hw := settle_written hos (by rw [← settle_writing]; exact hphase.closeServer) he
          refine ⟨hinv, hlimits, ?_, ?_⟩ <;> rw [sent_silent rfl]
          · exact tS.passes (passes_written hw)
          · exact tC
      | client =>
          obtain ⟨e, he, rfl⟩ := Option.map_eq_some_iff.mp hs
          have hw := settle_written hoc
            (fun hc => (hphase.closeClient (by rw [settle_writing]; exact hc)).elim) he
          refine ⟨hinv, hlimits, ?_, ?_⟩ <;> rw [sent_silent rfl]
          · exact tS
          · exact tC.passes (passes_written hw)
  | send side data =>
      cases side with
      | server =>
          obtain ⟨e, he, rfl⟩ := Option.map_eq_some_iff.mp hs
          refine ⟨hinv, hlimits, ?_, ?_⟩
          · rw [sent_snoc]
            exact tS.send hphase.servingServer (settle_send hos he).1
          · rw [sent_silent rfl]
            exact tC
      | client =>
          obtain ⟨e, he, rfl⟩ := Option.map_eq_some_iff.mp hs
          refine ⟨hinv, hlimits, ?_, ?_⟩
          · rw [sent_silent rfl]
            exact tS
          · rw [sent_snoc]
            exact tC.send hphase.servingClient (settle_send hoc he).1
  | deliver side n salts =>
      cases side with
      | server =>
          obtain ⟨e, he, rfl⟩ := Option.map_eq_some_iff.mp hs
          refine ⟨hinv, hlimits, ?_, ?_⟩ <;> rw [sent_silent rfl]
          · rw [settle_of_todo (recv_cases he).2.2.1] at hphase htc hts hlim tS
            exact tS.recv hts (fun q hlq hne hkq tq hserv hopen htodo e' he' =>
              tallied_server hA (hphase.quiet (quiet_requeue s.server q) (quiet_refl _))
                (hlim.kept hkq (Kept.refl _)) tq (htc.sender rfl) hlq hopen htodo hserv hne he') he
          · exact tC
      | client =>
          obtain ⟨e, he, rfl⟩ := Option.map_eq_some_iff.mp hs
          refine ⟨hinv, hlimits, ?_, ?_⟩ <;> rw [sent_silent rfl]
          · exact tS
          · rw [settle_of_todo (recv_cases he).2.2.1] at hphase htc hlim tC
            exact tC.recv htc (fun q hlq hne hkq tq hserv hopen htodo e' he' =>
              tallied_client hA (hphase.quiet (quiet_refl _) (quiet_requeue s.client q))
                (hlim.kept (Kept.refl _) hkq) tq hlq hopen htodo hserv hne he') he

/-- What the server has posted after the handshake, once the client is through with it. -/
theorem InOrder.posted_server (h : InOrder sha256 A unit app opts base es s)
    (hserv : s.client.settle.serving = true) :
    (posted s.server.settle).drop (readyIndex base + 1) = sent .server es :=
  (h.server.posted (h.inv.phase.serving_of_client hserv)).2

theorem InOrder.posted_client (h : InOrder sha256 A unit app opts base es s)
    (hserv : s.server.settle.serving = true) :
    (posted s.client.settle).drop (readyIndex base) = sent .client es := by
  cases hC : s.client.settle.serving with
  | true => exact (h.client.posted hC).2
  | false =>
      have hst : s.client.settle.stage ≠ .error := by
        intro herr
        rw [h.limits.error herr] at hserv
        cases hserv
      have hready : s.client.settle.stage = .ready := by
        cases h.inv.phase with
        | steady _ _ _ wC => exact (wC.resolve_left (by rw [hC]; simp)).1.resolve_right hst
        | hello wS => exact not_serving wS hserv
        | selection wS => exact not_serving wS hserv
        | setup _ _ _ wS => exact not_serving wS hserv
        | answer _ _ _ wS => exact not_serving wS hserv
        | refused wS => exact not_serving wS hserv
      have hall := h.client.answers hC hst
      rw [h.limits.ready hC hready] at hall
      rw [(h.client.silent hC).1, List.drop_eq_nil_iff, hall]
      exact le_rfl

theorem InOrder.client_dispatched (h : InOrder sha256 A unit app opts base es s) :
    s.client.dispatched.map some <+: (sent .server es).map (unitOf unit) := by
  rw [← settle_dispatched]
  cases hserv : s.client.settle.serving with
  | false =>
      rw [(h.client.silent hserv).2]
      exact List.nil_prefix
  | true => exact h.client.order h.inv.toClient hserv (h.posted_server hserv)

theorem InOrder.server_dispatched (h : InOrder sha256 A unit app opts base es s) :
    s.server.dispatched.map some <+: (sent .client es).map (unitOf unit) := by
  rw [← settle_dispatched]
  cases hserv : s.server.settle.serving with
  | false =>
      rw [(h.server.silent hserv).2]
      exact List.nil_prefix
  | true => exact h.server.order h.inv.toServer hserv (h.posted_client hserv)

end

/-- **Units arrive in order.**  In every run of a session between ends that hold the same key, the
units that either end has dispatched are those in the first payloads that the layer of its peer has
sent, in the order in which they were sent, none twice and none left out, whatever is still in
flight when the one starts to send units and the other to dispatch them. -/
theorem units_in_order (sha256 : Bytes → Digest) (A : AuthCodecs) (unit : Codec LowlevelUnit)
    (app : Server.Application) (opts : SessionOptions) (base : Client.Base) (hA : A.Lawful)
    (happ : ∀ key, base.sessionKey = some key → app.getSessionKey base.sessionId = key)
    (es : List Event) (s : Session)
    (hs : (sessionMachine sha256 A unit app opts base).run es = some s) :
    s.client.dispatched.map some <+: (sent .server es).map (unitOf unit) ∧
      s.server.dispatched.map some <+: (sent .client es).map (unitOf unit) := by
  have h : InOrder sha256 A unit app opts base es s :=
    (sessionMachine sha256 A unit app opts base).run_induction
      (P := fun es s => InOrder sha256 A unit app opts base es s) inOrder_start
      (fun _ _ _ _ h hstep => h.step hA happ hstep) hs
  exact ⟨h.client_dispatched, h.server_dispatched⟩

/-- A session without a key: the server sends two units, of which the first one arrives. -/
theorem units_in_order_one :
    let sha256 : Bytes → Digest := fun _ => ⟨List.replicate 32 0, rfl⟩
    let unit : Codec LowlevelUnit := ⟨fun _ => [0x08], fun b => (b = [0x08], { id := 7 })⟩
    let app : Server.Application := ⟨fun _ => false, fun _ => [], id⟩
    let es := plainRun ++ [.send .server [0x08], .send .server [0x08], .pack .server,
      .deliver .client 6 ([], []), .pack .server]
    ∃ s, (sessionMachine sha256 (plainCodecs 5 4) unit app .defaults ⟨none, []⟩).run es = some s ∧
      s.client.dispatched = [{ id := 7 }] ∧
      s.client.dispatched.map some <+: (sent .server es).map (unitOf unit) ∧
        s.server.dispatched.map some <+: (sent .client es).map (unitOf unit) := by
  intro sha256 unit app es
  have hrun : ((sessionMachine sha256 (plainCodecs 5 4) unit app .defaults ⟨none, []⟩).run es).map
      (fun s => s.client.dispatched) = some [{ id := 7 }] := by
    decide +kernel
  obtain ⟨s, hs, hdisp⟩ := Option.map_eq_some_iff.mp hrun
  exact ⟨s, hs, hdisp, units_in_order sha256 (plainCodecs 5 4) unit app .defaults ⟨none, []⟩
    (plainCodecs_lawful 5 4) (fun key hkey => by cases hkey) es s hs⟩

end Vtrc.Session
