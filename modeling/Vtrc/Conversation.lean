import Vtrc.Limits

/-! # What the handlers of a session do

In a session of this client with this server a handler never sees a message that it does not
expect.  `client_runs` and `server_runs` say which message it is that an end has popped, which
actions its handler consists of (`ClientActs`, `ServerActs`) and what the end has become when the
handler has finished (`Runs`).  The invariants of a session that concern the handshake are derived
from these two. -/

namespace Vtrc.Session

open Endpoint DefaultProtocol

section
variable (sha256 : Bytes → Digest)

/-- The end `r` has popped `k` and become `r'`, whose handler consists of `acts`. -/
structure Runs (s r r' : Endpoint) (k : Packed) (ks : List Packed) (acts : List Act) : Prop where
  flight : flight s r = k :: ks
  todo : r'.todo = acts ++ [.switchToReady, .accessorReady]
  settle : r'.settle = finish (acts.foldl exec (afterPop sha256 r k))

variable (A : AuthCodecs) (base : Client.Base)

/-- The handlers of the client; `ks` is in flight behind the message. -/
inductive ClientActs (o : SessionOptions) (salts : Bytes × Bytes) (S C : Endpoint) :
    List Packed → List Act → Prop
  /-- The hello is answered with the selection. -/
  | hello (wC : Waits .hello C) : ClientActs o salts S C []
      [.setHashChecker Client.defaultHash,
        .changeStage (if base.sessionKey.isSome then .setup else .ready),
        .write (selectionMessage A base) .setOptions]
  /-- The salts of the server are answered with salts of the client. -/
  | setup (key : Bytes) (hkey : base.sessionKey = some key) (wC : Waits .setup C) (t : Transformer) :
      ClientActs o salts S C []
        [.setTransformer t, .setRevertor (defaultCypher sha256 key salts.1 salts.2),
          .changeStage .ready, .write (setupMessage A salts) .default]
  /-- The announcement ends the handshake. -/
  | ready (ks : List Packed) (hS : S.serving = true) (hC : C.serving = false)
      (hst : C.stage = .ready) :
      ClientActs o salts S C ks [.configureSession o, .configure o, .setReady]
  /-- The refusal ends the connection. -/
  | refused (ks : List Packed) (wS : Waits .clientSelection S) (wC : Waits .ready C)
      (pcs : pending C S = []) : ClientActs o salts S C ks
        [.accessorError (Server.createError .access "Session key required") "Session key required",
          .changeStage .error, .accessorClose, .connectionClose]

/-- The handlers of the server; nothing is under way in either direction. -/
inductive ServerActs (app : Server.Application) (opts : SessionOptions) (salts : Bytes × Bytes)
    (S C : Endpoint) : List Act → Prop
  /-- A client without a key is accepted. -/
  | accept (hkey : base.sessionKey = none) (hreq : app.sessionKeyRequired [] = false)
      (wS : Waits .clientSelection S) (wC : Waits .ready C) (psc : pending S C = []) :
      ServerActs app opts salts S C
        [.setClientId [], .setHashChecker Client.defaultHash, .setHashMaker Client.defaultHash,
          .configure (app.configureSession opts), .setReady,
          .write (readyMessage A (app.configureSession opts)) .default]
  /-- A client without a key is refused. -/
  | refuse (hkey : base.sessionKey = none) (hreq : app.sessionKeyRequired [] = true)
      (wS : Waits .clientSelection S) (wC : Waits .ready C) (psc : pending S C = []) :
      ServerActs app opts salts S C
        [.setClientId [], .setHashChecker Client.defaultHash, .setHashMaker Client.defaultHash,
          .write (refusal A) .closeClient]
  /-- Salts are sent to a client with a key. -/
  | setup (key : Bytes) (hkey : base.sessionKey = some key) (wS : Waits .clientSelection S)
      (wC : Waits .setup C) (psc : pending S C = []) : ServerActs app opts salts S C
        [.setClientId base.sessionId, .setHashChecker Client.defaultHash,
          .setHashMaker Client.defaultHash,
          .setRevertor (defaultCypher sha256 (app.getSessionKey base.sessionId) salts.1 salts.2),
          .changeStage .clientTransformer, .write (setupMessage A salts) .default]
  /-- The salts of the client end the handshake. -/
  | answer (key : Bytes) (hkey : base.sessionKey = some key) (wS : Waits .clientTransformer S)
      (wC : Waits .ready C) (psc : pending S C = []) (t : Transformer) :
      ServerActs app opts salts S C
        [.setTransformer t, .configure (app.configureSession opts), .setReady,
          .write (readyMessage A (app.configureSession opts)) .default]

end

section
variable {sha256 : Bytes → Digest} {A : AuthCodecs} {app : Server.Application}
  {opts o : SessionOptions} {base : Client.Base} {S C : Endpoint}

theorem waits_serving {st : Stage} {e : Endpoint} (h : Waits st e) : (e.ready || e.serving) = false := by
  rw [h.ready, h.serving]
  rfl

/-- **The client's handlers.** -/
theorem client_runs (hA : A.Lawful) (hphase : Phase sha256 A base S C)
    (hlim : Limits A base opts o S C) {link : Bytes} (hl : Linked sha256 S C link)
    (hopen : C.connClosed = false) (htodo : C.todo = []) (hserv : C.serving = false)
    (hne : C.protocol.queue.messages ≠ []) (salts : Bytes × Bytes) {C' : Endpoint}
    (hC' : C' = doHandshake sha256 (Client.role A sha256 base) C salts) :
    ∃ k ks acts, Runs sha256 S C C' k ks acts ∧ ClientActs sha256 A base o salts S C ks acts := by
  obtain ⟨k, ks, hf⟩ := hl.flight_cons hopen hne
  have hruns : InStep sha256 S C → Runs sha256 S C C' k ks
      ((Client.role A sha256 base).stageCall (afterPop sha256 C k) salts k.data) := by
    intro sc
    obtain ⟨hhash, hrev⟩ := sc.head hf
    obtain ⟨_, hdo, hsettle⟩ := hl.handshake hopen htodo hf hhash hrev hne
      (Client.role A sha256 base) salts
    rw [hC']
    exact ⟨hf, by rw [hdo], hsettle⟩
  cases hphase with
  | hello wS wC tS tC sc cs psc pcs =>
      have h := hruns sc
      obtain ⟨hdata, rfl, _⟩ := pending_one psc hf
      rw [stageCall_hello wC.stage, hdata, onHelloCall_hello hA] at h
      exact ⟨k, [], _, h, .hello wC⟩
  | selection wS wC tS tC checker revertor psc pcs => exact flight_ne_nil hf (flight_of_pending psc)
  | setup key salts' hkey wS hid wC tS tC checker revertor maker checker' sc psc pcs =>
      have h := hruns sc
      obtain ⟨hdata, rfl, _⟩ := pending_one psc hf
      rw [stageCall_setup wC.stage, hdata, onTransSetup_setup hA, hkey, Option.getD_some] at h
      exact ⟨k, [], _, h, .setup key hkey wC _⟩
  | answer key salts' hkey wS hid wC tS tC maker checker revertor cs psc pcs =>
      exact flight_ne_nil hf (flight_of_pending psc)
  | steady tS tC wS wC sc cs =>
      have h := hruns sc
      obtain ⟨hst, _⟩ := wC.resolve_left (by rw [hserv]; simp)
      have hst : C.stage = .ready := by
        refine hst.resolve_right (fun herr => ?_)
        rw [hlim.error herr] at wS
        cases wS
      have hdata : k.data = readyMessage A o := by
        have hk := posted_of_flight hf
        rw [hlim.ready hserv hst, hlim.posted wS] at hk
        exact (Option.some.inj hk).symm
      rw [stageCall_ready hst, hdata, onServerReady_ready hA] at h
      exact ⟨k, ks, _, h, .ready ks wS hserv hst⟩
  | refused wS sends tC wC sc cs pcs closed =>
      have h := hruns sc
      obtain ⟨hst, hdata⟩ := closed.resolve_left (by rw [hopen]; simp)
      rw [stageCall_ready hst, hdata k.data (by rw [pending, hf]; simp), onServerReady_refusal hA] at h
      rw [hst] at wC
      exact ⟨k, ks, _, h, .refused ks wS wC pcs⟩

/-- **The server's handlers.** -/
theorem server_runs (hA : A.Lawful) (app : Server.Application) (opts : SessionOptions)
    (hphase : Phase sha256 A base S C) {link : Bytes}
    (hl : Linked sha256 C S link) (hopen : S.connClosed = false) (htodo : S.todo = [])
    (hserv : S.serving = false) (hne : S.protocol.queue.messages ≠ []) (salts : Bytes × Bytes)
    {S' : Endpoint} (hS' : S' = doHandshake sha256 (Server.role A sha256 app opts) S salts) :
    ∃ k acts, Runs sha256 C S S' k [] acts ∧
      ServerActs sha256 A base app opts salts S C acts := by
  obtain ⟨k, ks, hf⟩ := hl.flight_cons hopen hne
  have hruns : k.hash = S.protocol.hashChecker → k.transformer = S.protocol.revertor →
      Runs sha256 C S S' k ks
        ((Server.role A sha256 app opts).stageCall (afterPop sha256 S k) salts k.data) := by
    intro hhash hrev
    obtain ⟨_, hdo, hsettle⟩ := hl.handshake hopen htodo hf hhash hrev hne
      (Server.role A sha256 app opts) salts
    rw [hS']
    exact ⟨hf, by rw [hdo], hsettle⟩
  cases hphase with
  | hello wS wC tS tC sc cs psc pcs => exact flight_ne_nil hf (flight_of_pending pcs)
  | selection wS wC tS tC checker revertor psc pcs =>
      rcases pcs with ⟨_, hnil, _⟩ | ⟨k', hk', _, hf', _, _⟩
      · exact flight_ne_nil hf hnil
      obtain ⟨rfl, rfl⟩ : k = k' ∧ ks = [] := List.cons.inj (hf.symm.trans hf')
      have hdata : k.data = selectionMessage A base := by rw [hk']
      have h := hruns (by rw [hk']) (by rw [hk'])
      rw [stageCall_clientSelection wS.stage, hdata, onClientSelection_selection hA] at h
      cases hkey : base.sessionKey with
      | none =>
          have hsel : selection base = ⟨Client.defaultHash.index, transformNone, []⟩ := by
            rw [selection, hkey]
            rfl
          rw [hkey] at wC
          rw [hsel, Server.setupTransformer, if_pos rfl] at h
          cases hreq : app.sessionKeyRequired ([] : Bytes) with
          | false =>
              rw [hreq] at h
              exact ⟨k, _, h, .accept hkey hreq wS wC psc⟩
          | true =>
              rw [hreq] at h
              exact ⟨k, _, h, .refuse hkey hreq wS wC psc⟩
      | some key =>
          have hsel : selection base = ⟨Client.defaultHash.index, transformErseefor, base.sessionId⟩ := by
            rw [selection, hkey]
            rfl
          rw [hkey] at wC
          rw [hsel] at h
          exact ⟨k, _, h, .setup key hkey wS wC psc⟩
  | setup key salts' hkey wS hid wC tS tC checker revertor maker checker' sc psc pcs =>
      exact flight_ne_nil hf (flight_of_pending pcs)
  | answer key salts' hkey wS hid wC tS tC maker checker revertor cs psc pcs =>
      obtain ⟨hhash, hrev⟩ := cs.head hf
      have h := hruns hhash hrev
      obtain ⟨hdata, rfl, _⟩ := pending_one pcs hf
      rw [stageCall_clientTransformer wS.stage, hdata, onClientTransformer_answer hA] at h
      exact ⟨k, _, h, .answer key hkey wS wC psc _⟩
  | steady tS tC wS wC sc cs =>
      rw [hserv] at wS
      cases wS
  | refused wS sends tC wC sc cs pcs closed => exact flight_ne_nil hf (flight_of_pending pcs)

end

end Vtrc.Session
