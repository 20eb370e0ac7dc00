import Vtrc.Completion
import Vtrc.Units

/-! # A session does not fail by itself

An end closes the connection when its parser meets a length above its limit, when a hash does not
fit or a message is not a unit, when a handler finds no sense in a message, and after a refusal.
None of this happens between this client and this server as long as their layers send units and
keep to the limits (`session_unbroken`): not while the handshake replaces the hash, the cipher and
the limit of one end before those of the other, and not when messages that were packed before such
a change are parsed after it or together with later ones.

Whether the parser raises depends on what is in flight.  `Lively` bounds the messages of the
handshake, `InOrder` says that behind them there are only units that the layers have sent. -/

namespace Vtrc.Session

open Endpoint DefaultProtocol Framing

/-- What the layers send are units, short enough for the limit that is announced, with the largest
hash; what the server sends may be parsed by a client that has not read the announcement. -/
def Event.Sound (unit : Codec LowlevelUnit) (o : SessionOptions) : Event → Prop
  | .send side data => (unit.parse data).1 = true ∧
      data.length + 32 ≤ o.maxMessageLength.toNat ∧
      (side = .server → data.length + 32 ≤ SessionOptions.defaults.maxMessageLength.toNat)
  | .deliver _ _ salts => Session.Drawn salts
  | _ => True

instance (salts : Bytes × Bytes) : Decidable (Session.Drawn salts) :=
  inferInstanceAs (Decidable (_ ∧ _))

instance (unit : Codec LowlevelUnit) (o : SessionOptions) : DecidablePred (Event.Sound unit o)
  | .send _ _ => inferInstanceAs (Decidable (_ ∧ _ ∧ (_ → _)))
  | .deliver _ _ salts => inferInstanceAs (Decidable (Session.Drawn salts))
  | .act _ | .pack _ | .written _ => inferInstanceAs (Decidable True)

theorem Event.Sound.drawn {unit : Codec LowlevelUnit} {o : SessionOptions} {ev : Event}
    (h : ev.Sound unit o) : ev.Drawn := by
  cases ev with
  | deliver side n salts => exact h
  | _ => exact trivial

theorem sound_of_sent {unit : Codec LowlevelUnit} {o : SessionOptions} {es : List Event}
    (hes : ∀ ev ∈ es, ev.Sound unit o) {side : Side} {data : Bytes} (h : data ∈ sent side es) :
    (unit.parse data).1 = true ∧ data.length + 32 ≤ o.maxMessageLength.toNat := by
  obtain ⟨ev, hev, hdata⟩ := List.mem_filterMap.mp h
  have hsound := hes ev hev
  cases ev with
  | send sender data' =>
      rw [Event.payload] at hdata
      split_ifs at hdata
      obtain rfl := Option.some.inj hdata
      exact ⟨hsound.1, hsound.2.1⟩
  | _ => cases hdata

section
variable {sha256 : Bytes → Digest} {unit : Codec LowlevelUnit}

/-- What is in flight to an end that has popped the handshake was posted after it. -/
theorem mem_posted_of_flight {s r : Endpoint} {heard : ℕ} (hle : heard ≤ r.pops.length) {k : Packed}
    (hk : k ∈ flight s r) : k.data ∈ (posted s).drop heard := by
  have hdrop : k ∈ s.packs.drop heard := List.drop_subset_drop_left s.packs hle hk
  refine ((List.prefix_append _ _).drop heard).subset ?_
  rw [← List.map_drop]
  exact List.mem_map_of_mem hdrop

variable (unit) in
theorem serve_open {s : Endpoint} {link : Bytes} (n : ℕ) : ∀ {r : Endpoint},
    Linked sha256 s r link → InStep sha256 s r → r.connClosed = false →
      (∀ k ∈ flight s r, (unit.parse k.data).1 = true) →
      (serve sha256 unit n r).connClosed = false := by
  induction n with
  | zero => exact fun _ _ hopen _ => hopen
  | succ n ih =>
      intro r hl h hopen hunits
      by_cases hne : r.protocol.queue.messages = []
      · have hnone : r.popRaw sha256 = none := by
          rw [Endpoint.popRaw, popRawMessage, hne]
          rfl
        rw [serve, hnone]
        exact hopen
      · obtain ⟨k, ks, hf⟩ := hl.flight_cons hopen hne
        obtain ⟨hhash, hrev⟩ := h.head hf
        obtain ⟨hpop, hl'⟩ := hl.popRaw hopen hf hhash hrev hne
        have h' := h.pop hf
        have hparse : (unit.parse k.data).1 = true := hunits k (by rw [hf]; exact List.mem_cons_self)
        rw [serve, hpop]
        simp only [Option.bind_some, hparse, if_true]
        refine ih ⟨hl'.aligned, hl'.short, hl'.stream⟩ ⟨h'.packed, h'.maker, h'.transformer⟩ hopen ?_
        intro k' hk'
        have htail : flight s { afterPop sha256 r k with
            dispatched := (afterPop sha256 r k).dispatched ++ [(unit.parse k.data).2] } = ks :=
          flight_tail hf rfl
        rw [htail] at hk'
        exact hunits k' (by rw [hf]; exact List.mem_cons_of_mem k hk')

theorem not_raised {s r : Endpoint} {link : Bytes} (hl : Linked sha256 s r link)
    (hopen : r.connClosed = false)
    (hshort : ∀ k ∈ flight s r, k.data.length + 32 ≤ r.protocol.queue.maxValidLength) (n : ℕ)
    {p : DefaultProtocol} {err : LengthError}
    (hp : r.protocol.processData (link.take n) = (p, .raised err)) : False := by
  obtain ⟨bs, hbs, hdata⟩ := hl.stream hopen
  have hmem : ∀ b ∈ bs, b ∈ (flight s r).map (Packed.body sha256) := fun b hb => by
    rw [hbs]
    exact List.mem_append_right _ hb
  have hfit : ∀ b ∈ bs, b.length ≤ r.protocol.queue.maxValidLength := by
    intro b hb
    obtain ⟨k, hk, rfl⟩ := List.mem_map.mp (hmem b hb)
    have hlen := hshort k hk
    have hsize := hashKind_size_le k.hash
    rw [Packed.body_length]
    omega
  rw [← List.take_append_drop n link] at hdata
  by_cases hne : link.take n = []
  · rw [hne] at hp
    cases (Prod.mk.inj hp).2
  · rw [processData_frames hne hdata (fun b hb => hl.body_le b (hmem b hb)) hfit] at hp
    have hres := (Prod.mk.inj hp).2
    split_ifs at hres

/-- **A chunk** leaves the connection open. -/
theorem open_recv {role : Role} {n : ℕ} {s r r' : Endpoint} {link : Bytes} {salts : Bytes × Bytes}
    (hl : Linked sha256 s r link)
    (hshort : ∀ k ∈ flight s r, k.data.length + 32 ≤ r.protocol.queue.maxValidLength)
    (hserves : r.serving = true →
      InStep sha256 s r ∧ ∀ k ∈ flight s r, (unit.parse k.data).1 = true)
    (hr : r.recv sha256 unit role (link.take n) salts = some r') : r'.connClosed = false := by
  obtain ⟨_, hopen, _, ⟨p, err, hp, rfl⟩ | ⟨p, hp, rfl⟩ | ⟨p, hp, hserv, rfl⟩ | ⟨p, hp, hserv, rfl⟩⟩ :=
    recv_cases hr
  · exact (not_raised hl hopen hshort n hp).elim
  · exact hopen
  · obtain ⟨_, herr⟩ | ⟨q, rfl, hlq, _⟩ := hl.processData hopen n hp
    · cases herr
    obtain ⟨hin, hunits⟩ := hserves hserv
    exact serve_open unit _ hlq (hin.quiet (quiet_refl s) (quiet_requeue r q)) hopen hunits
  · obtain ⟨_, heq⟩ | ⟨e, hpop, heq⟩ | ⟨e, data, hpop, heq⟩ :=
      doHandshake_cases sha256 role (r.setProtocol p) salts
    · rw [heq]
      exact hopen
    all_goals
      obtain ⟨p', _, rfl⟩ := popRaw_eq_some hpop
      rw [heq]
      exact hopen

end

/-- The invariant: a session that is open, with all that its server has posted within the limit of
a client in the handshake. -/
structure Unbroken (sha256 : Bytes → Digest) (A : AuthCodecs) (unit : Codec LowlevelUnit)
    (app : Server.Application) (opts : SessionOptions) (base : Client.Base) (es : List Event)
    (s : Session) : Prop where
  lively : Lively sha256 A app opts base s
  order : InOrder sha256 A unit app opts base es s
  server : s.server.connClosed = false
  client : s.client.connClosed = false
  short : ∀ d ∈ posted s.server.settle,
    d.length + 32 ≤ SessionOptions.defaults.maxMessageLength.toNat

section
variable {sha256 : Bytes → Digest} {A : AuthCodecs} {unit : Codec LowlevelUnit}
  {app : Server.Application} {opts : SessionOptions} {base : Client.Base} {es : List Event}
  {s s' : Session}

/-- What is in flight to the server fits its limit, and when it serves these are units. -/
theorem Unbroken.toServer (h : Unbroken sha256 A unit app opts base es s)
    (hes : ∀ ev ∈ es, ev.Sound unit (app.configureSession opts)) {k : Packed}
    (hk : k ∈ flight s.client.settle s.server.settle) :
    k.data.length + 32 ≤ s.server.settle.protocol.queue.maxValidLength ∧
      (s.server.settle.serving = true → (unit.parse k.data).1 = true) := by
  cases hserv : s.server.settle.serving with
  | false =>
      have hC : s.client.settle.serving = false := by
        rw [Bool.eq_false_iff]
        intro hC
        rw [h.lively.inv.phase.serving_of_client hC] at hserv
        cases hserv
      refine ⟨?_, fun hf => by cases hf⟩
      rw [(h.lively.server.greets hserv).limit]
      exact (h.lively.client.greets hC).short _ (mem_posted_of_flight (Nat.zero_le _) hk)
  | true =>
      have hmem := mem_posted_of_flight (h.order.server.hears hserv) hk
      rw [h.order.posted_client hserv] at hmem
      obtain ⟨hparse, hlen⟩ := sound_of_sent hes hmem
      rw [h.order.limits.parser hserv]
      exact ⟨hlen, fun _ => hparse⟩

theorem Unbroken.toClient (h : Unbroken sha256 A unit app opts base es s)
    (hes : ∀ ev ∈ es, ev.Sound unit (app.configureSession opts)) {k : Packed}
    (hk : k ∈ flight s.server.settle s.client.settle) :
    k.data.length + 32 ≤ s.client.settle.protocol.queue.maxValidLength ∧
      (s.client.settle.serving = true → (unit.parse k.data).1 = true) := by
  cases hserv : s.client.settle.serving with
  | false =>
      refine ⟨?_, fun hf => by cases hf⟩
      rw [(h.lively.client.greets hserv).limit]
      exact h.short _ (mem_posted_of_flight (Nat.zero_le _) hk)
  | true =>
      have hmem := mem_posted_of_flight (h.order.client.hears hserv) hk
      rw [h.order.posted_server hserv] at hmem
      obtain ⟨hparse, hlen⟩ := sound_of_sent hes hmem
      rw [(h.order.limits.client hserv).1.maxMessageLength]
      exact ⟨hlen, fun _ => hparse⟩

theorem short_server {S C S' : Endpoint} (hA : A.Lawful)
    (hkey : base.sessionKey = none → app.sessionKeyRequired [] = false)
    (hfit : MessagesFit A app opts base) (hphase : Phase sha256 A base S C) {link : Bytes}
    (hl : Linked sha256 C S link) (hopen : S.connClosed = false) (htodo : S.todo = [])
    (hserv : S.serving = false) (hne : S.protocol.queue.messages ≠ []) {salts : Bytes × Bytes}
    (hsalts : Drawn salts)
    (hshort : ∀ d ∈ posted S, d.length + 32 ≤ SessionOptions.defaults.maxMessageLength.toNat)
    (hS' : S' = doHandshake sha256 (Server.role A sha256 app opts) S salts) :
    ∀ d ∈ posted S'.settle, d.length + 32 ≤ SessionOptions.defaults.maxMessageLength.toNat := by
  obtain ⟨k, acts, hruns, hacts⟩ :=
    server_runs hA app opts hphase hl hopen htodo hserv hne salts hS'
  rw [hruns.settle]
  have hpost : ∀ (e' : Endpoint) (m : Posted),
      m.data.length + 32 ≤ SessionOptions.defaults.maxMessageLength.toNat → e'.packs = S.packs →
      e'.outbox = S.outbox ++ [m] →
      ∀ d ∈ posted e', d.length + 32 ≤ SessionOptions.defaults.maxMessageLength.toNat := by
    intro e' m hlen hpacks hout d hd
    rw [posted_post m hpacks hout] at hd
    rcases List.mem_append.mp hd with hd | hd
    · exact hshort d hd
    · rw [List.mem_singleton.mp hd]
      exact hlen
  cases hacts with
  | accept hnone hreq wS wC psc =>
      exact hpost _ ⟨readyMessage A (app.configureSession opts), .default⟩ hfit.ready rfl rfl
  | refuse hnone hreq wS wC psc =>
      rw [hkey hnone] at hreq
      cases hreq
  | setup key hsome wS wC psc =>
      exact hpost _ ⟨setupMessage A salts, .default⟩ (hfit.setup (by rw [hsome]; rfl) salts hsalts).1
        rfl rfl
  | answer key hsome wS wC psc t =>
      exact hpost _ ⟨readyMessage A (app.configureSession opts), .default⟩ hfit.ready rfl rfl

theorem unbroken_start (hfit : MessagesFit A app opts base) :
    Unbroken sha256 A unit app opts base []
      { server := Server.start A opts, client := Client.start } :=
  ⟨lively_start hfit, inOrder_start, rfl, rfl, fun d hd => by
    obtain rfl : d = Server.firstMessage A := List.mem_singleton.mp hd
    exact hfit.hello⟩

variable (sha256 unit) in
theorem posted_serve (n : ℕ) (e : Endpoint) : posted (serve sha256 unit n e) = posted e := by
  refine serve_inv sha256 unit (I := fun e₁ => posted e₁ = posted e) ?_ ?_ ?_ n e rfl
  · intro e₁ e₂ res h hp
    obtain ⟨p, _, rfl⟩ := popRaw_eq_some hp
    exact h
  · exact fun e₁ h => h
  · exact fun e₁ llu h => h

/-- **Every step** keeps the invariant. -/
theorem Unbroken.step (hA : A.Lawful)
    (happ : ∀ key, base.sessionKey = some key → app.getSessionKey base.sessionId = key)
    (hkey : base.sessionKey = none → app.sessionKeyRequired [] = false)
    (hfit : MessagesFit A app opts base) {ev : Event}
    (hes : ∀ ev ∈ es, ev.Sound unit (app.configureSession opts))
    (hev : ev.Sound unit (app.configureSession opts))
    (h : Unbroken sha256 A unit app opts base es s)
    (hs : Session.step sha256 A unit app opts base s ev = some s') :
    Unbroken sha256 A unit app opts base (es ++ [ev]) s' := by
  have hlively := h.lively.step hA happ hkey hfit hev.drawn hs
  have horder := h.order.step hA happ hs
  obtain ⟨hphase, htc, hts, hos, hoc⟩ := h.lively.inv
  obtain ⟨hcloseS, hcloseC⟩ := h.lively.not_closing h.client
  have hshort := h.short
  cases ev with
  | act side =>
      cases side with
      | server =>
          obtain ⟨e, he, rfl⟩ := Option.map_eq_some_iff.mp hs
          rw [← settle_act he] at hshort
          exact ⟨hlively, horder, open_act he h.lively.serverStays h.server, h.client, hshort⟩
      | client =>
          obtain ⟨e, he, rfl⟩ := Option.map_eq_some_iff.mp hs
          exact ⟨hlively, horder, h.server, open_act he h.lively.clientStays h.client, hshort⟩
  | pack side =>
      cases side with
      | server =>
          obtain ⟨⟨e, bytes⟩, he, rfl⟩ := Option.map_eq_some_iff.mp hs
          rw [← (passes_pack (settle_pack hos he)).posted] at hshort
          exact ⟨hlively, horder, open_pack he h.server, h.client, hshort⟩
      | client =>
          obtain ⟨⟨e, bytes⟩, he, rfl⟩ := Option.map_eq_some_iff.mp hs
          exact ⟨hlively, horder, h.server, open_pack he h.client, hshort⟩
  | written side =>
      cases side with
      | server =>
          obtain ⟨e, he, rfl⟩ := Option.map_eq_some_iff.mp hs
          have hw := settle_written hos (fun hc => absurd hc hcloseS) he
          rw [← (passes_written hw).posted] at hshort
          exact ⟨hlively, horder, open_written he hcloseS h.server, h.client, hshort⟩
      | client =>
          obtain ⟨e, he, rfl⟩ := Option.map_eq_some_iff.mp hs
          exact ⟨hlively, horder, h.server, open_written he hcloseC h.client, hshort⟩
  | send side data =>
      cases side with
      | server =>
          obtain ⟨e, he, rfl⟩ := Option.map_eq_some_iff.mp hs
          obtain ⟨_, heq⟩ := send_eq_some he
          obtain ⟨_, heq'⟩ := send_eq_some (settle_send hos he).1
          refine ⟨hlively, horder, by rw [heq]; exact h.server, h.client, fun d hd => ?_⟩
          have hposted : posted { s.server.settle with
              outbox := s.server.settle.outbox ++ [⟨data, .default⟩] } =
              posted s.server.settle ++ [data] := posted_post ⟨data, .default⟩ rfl rfl
          rw [heq', hposted] at hd
          rcases List.mem_append.mp hd with hd | hd
          · exact hshort d hd
          · rw [List.mem_singleton.mp hd]
            exact hev.2.2 rfl
      | client =>
          obtain ⟨e, he, rfl⟩ := Option.map_eq_some_iff.mp hs
          obtain ⟨_, heq⟩ := send_eq_some he
          exact ⟨hlively, horder, h.server, by rw [heq]; exact h.client, hshort⟩
  | deliver side n salts =>
      cases side with
      | server =>
          obtain ⟨e, he, rfl⟩ := Option.map_eq_some_iff.mp hs
          have hfits := fun k => h.toServer hes (k := k)
          rw [settle_of_todo (recv_cases he).2.2.1] at hphase hts hfits hshort
          refine ⟨hlively, horder, ?_, h.client, ?_⟩
          · exact open_recv hts (fun k hk => (hfits k hk).1)
              (fun hserv => ⟨(hphase.inStep hserv).2, fun k hk => (hfits k hk).2 hserv⟩) he
          · refine recv_inv (I := fun e => ∀ d ∈ posted e,
              d.length + 32 ≤ SessionOptions.defaults.maxMessageLength.toNat) hts
              (fun _ => hshort) (fun _ => hshort) (fun p _ _ => ?_) ?_ he
            · rw [posted_serve]
              exact hshort
            · intro q hlq hne _ hserv hopen htodo e' he'
              exact short_server hA hkey hfit
                (hphase.quiet (quiet_requeue s.server q) (quiet_refl _)) hlq hopen htodo hserv hne hev
                hshort he'
      | client =>
          obtain ⟨e, he, rfl⟩ := Option.map_eq_some_iff.mp hs
          have hfits := fun k => h.toClient hes (k := k)
          rw [settle_of_todo (recv_cases he).2.2.1] at hphase htc hfits
          refine ⟨hlively, horder, h.server, ?_, hshort⟩
          exact open_recv htc (fun k hk => (hfits k hk).1)
            (fun hserv => ⟨(hphase.inStep (hphase.serving_of_client hserv)).1,
              fun k hk => (hfits k hk).2 hserv⟩) he

end

/-- **A session does not fail by itself.**  Let server and client hold the same key, or the client
none and the server require none, and let the messages of the handshake be within the limits of the
parsers.  In every run in which the layers send units within the limit that the server announces,
and the server none that a client in the handshake could not take, neither end ever closes the
connection. -/
theorem session_unbroken (sha256 : Bytes → Digest) (A : AuthCodecs) (unit : Codec LowlevelUnit)
    (app : Server.Application) (opts : SessionOptions) (base : Client.Base) (hA : A.Lawful)
    (happ : ∀ key, base.sessionKey = some key → app.getSessionKey base.sessionId = key)
    (hkey : base.sessionKey = none → app.sessionKeyRequired [] = false)
    (hfit : MessagesFit A app opts base) (es : List Event)
    (hes : ∀ ev ∈ es, ev.Sound unit (app.configureSession opts)) (s : Session)
    (hs : (sessionMachine sha256 A unit app opts base).run es = some s) :
    s.server.connClosed = false ∧ s.client.connClosed = false := by
  have h : (∀ ev ∈ es, ev.Sound unit (app.configureSession opts)) →
      Unbroken sha256 A unit app opts base es s :=
    (sessionMachine sha256 A unit app opts base).run_induction
      (P := fun es s => (∀ ev ∈ es, ev.Sound unit (app.configureSession opts)) →
        Unbroken sha256 A unit app opts base es s) (fun _ => unbroken_start hfit)
      (fun es s ev s' ih hstep hes => by
        have hbefore : ∀ ev ∈ es, ev.Sound unit (app.configureSession opts) :=
          fun ev' hev' => hes ev' (List.mem_append_left _ hev')
        exact (ih hbefore).step hA happ hkey hfit hbefore (hes ev (by simp)) hstep) hs
  exact ⟨(h hes).server, (h hes).client⟩

/-! ### A session with units -/

theorem plainCodecs_fit (app : Server.Application) (happ : app.configureSession .defaults = .defaults) :
    MessagesFit (plainCodecs 5 4) app .defaults ⟨none, []⟩ where
  hello := by decide +kernel
  selection := by decide +kernel
  setup h := by cases h
  ready := by
    rw [happ]
    decide +kernel

/-- A session without a key, in which each end sends a unit as soon as it is ready. -/
theorem session_unbroken_units :
    let sha256 : Bytes → Digest := fun _ => ⟨List.replicate 32 0, rfl⟩
    let unit : Codec LowlevelUnit := ⟨fun _ => [0x08], fun b => (b = [0x08], { id := 7 })⟩
    let app : Server.Application := ⟨fun _ => false, fun _ => [], id⟩
    let salts : Bytes × Bytes := (List.replicate 256 0, List.replicate 256 0)
    let es := [Event.pack .server, .written .server, .deliver .client 28 salts] ++
      List.replicate 5 (Event.act .client) ++ [Event.pack .client, .deliver .server 23 salts] ++
      List.replicate 8 (Event.act .server) ++ [Event.pack .server, .send .server [0x08], .pack .server,
        .deliver .client 44 salts] ++ List.replicate 5 (Event.act .client) ++
      [Event.send .client [0x08], .pack .client, .deliver .server 3 salts, .deliver .client 6 salts,
        .deliver .server 3 salts]
    ∃ s, (sessionMachine sha256 (plainCodecs 5 4) unit app .defaults ⟨none, []⟩).run es = some s ∧
      (s.server.dispatched = [{ id := 7 }] ∧ s.client.dispatched = [{ id := 7 }]) ∧
      s.server.connClosed = false ∧ s.client.connClosed = false := by
  intro sha256 unit app salts es
  have hrun : ((sessionMachine sha256 (plainCodecs 5 4) unit app .defaults ⟨none, []⟩).run es).map
      (fun s => (s.server.dispatched, s.client.dispatched)) = some ([{ id := 7 }], [{ id := 7 }]) := by
    decide +kernel
  obtain ⟨s, hs, hdisp⟩ := Option.map_eq_some_iff.mp hrun
  refine ⟨s, hs, Prod.mk.inj hdisp, session_unbroken sha256 (plainCodecs 5 4) unit app .defaults
    ⟨none, []⟩ (plainCodecs_lawful 5 4) (fun key hkey => by cases hkey) (fun _ => rfl)
    (plainCodecs_fit app rfl) es ?_ s hs⟩
  decide +kernel

end Vtrc.Session
