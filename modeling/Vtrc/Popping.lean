import Vtrc.Lowlevel

/-! # Popping received bodies (`pop_raw_message`, `pop_proto_message`)

Both functions revert the front body of the queue, check its hash, write into an object of the
caller and drop the body.  `Lowlevel.lean` has what they return; here they have the caller's
object as well, so that a failed pop can be seen to leave it alone.

`reverted` is the body at a place of the queue as the revertor shows it after all the bodies in
front of it.  `pops_exact` is about any sequence of pops of either kind: every pop decides by
its own body only, and `reverted_of_sent` says that bodies damaged on the way do not shift the
cipher for the bodies behind them. -/

namespace Vtrc.DefaultProtocol

section
variable (sha256 : Bytes → Digest) (unit : Codec LowlevelUnit)

/-- `pop_raw_message( result )`: what it returns, and `result` afterwards. -/
def popRawMessageTo (p : DefaultProtocol) (result : Bytes) :
    Option (DefaultProtocol × Bool × Bytes) :=
  match p.queue.messages with
  | [] => none
  | data :: _ =>
      let r := p.revertor.transform data
      let checked := p.checkMessage sha256 r.2
      let result' := if checked then r.2.drop p.hashChecker.size else result
      some (p.popFront r.1, checked, result')

/-- `parse_raw_message`. -/
def parseRawMessage (p : DefaultProtocol) (mess : Bytes) : Bool × LowlevelUnit :=
  unit.parse (mess.drop p.hashChecker.size)

/-- `pop_proto_message( res )`: what it returns, and `res` afterwards. -/
def popProtoMessageTo (p : DefaultProtocol) (res : LowlevelUnit) :
    Option (DefaultProtocol × Bool × LowlevelUnit) :=
  match p.queue.messages with
  | [] => none
  | data :: _ =>
      let r := p.revertor.transform data
      let out := if p.checkMessage sha256 r.2 then p.parseRawMessage unit r.2 else (false, res)
      some (p.popFront r.1, out)

/-- Without the caller's object this is `pop_raw_message` of the receiver. -/
theorem popRawMessage_eq_to (p : DefaultProtocol) (result : Bytes) :
    p.popRawMessage sha256 =
      (p.popRawMessageTo sha256 result).map
        (fun r => (r.1, if r.2.1 then some r.2.2 else none)) := by
  unfold popRawMessage popRawMessageTo
  cases p.queue.messages with
  | nil => rfl
  | cons data rest =>
      simp only [Option.map_some]
      cases hc : p.checkMessage sha256 (p.revertor.transform data).2 <;> simp

theorem popProtoMessage_eq_to (p : DefaultProtocol) (res : LowlevelUnit) :
    p.popProtoMessage sha256 unit =
      (p.popProtoMessageTo sha256 unit res).map
        (fun r => (r.1, if r.2.1 then some r.2.2 else none)) := by
  unfold popProtoMessage popRawMessage popProtoMessageTo parseRawMessage
  cases p.queue.messages with
  | nil => rfl
  | cons data rest =>
      simp only [Option.map_some]
      cases hc : p.checkMessage sha256 (p.revertor.transform data).2 <;> simp

/-! ### One pop -/

theorem checkMessage_iff (p : DefaultProtocol) (mess : Bytes) :
    p.checkMessage sha256 mess = true ↔ ∃ d, mess = sealed sha256 p.hashChecker d := by
  constructor
  · intro h
    unfold checkMessage at h
    simp only at h
    split_ifs at h with hlen
    rw [HashKind.checkDataHash_iff sha256 _ _ _ hlen] at h
    refine ⟨mess.drop p.hashChecker.size, ?_⟩
    unfold sealed
    rw [← h, List.take_append_drop]
  · intro h
    obtain ⟨d, rfl⟩ := h
    exact checkMessage_sealed sha256 p d

theorem sealed_drop (h : HashKind) (d : Bytes) : (sealed sha256 h d).drop h.size = d :=
  List.drop_left' (HashKind.getDataHash_length sha256 h d)

/-- A pop, with the object the caller passes. -/
inductive Pop where
  | raw (result : Bytes)
  | proto (res : LowlevelUnit)

/-- What a pop returns, and the object afterwards. -/
inductive Popped where
  | raw (checked : Bool) (result : Bytes)
  | proto (checked : Bool) (res : LowlevelUnit)

def pop (p : DefaultProtocol) : Pop → Option (DefaultProtocol × Popped)
  | .raw result => (p.popRawMessageTo sha256 result).map (fun r => (r.1, .raw r.2.1 r.2.2))
  | .proto res => (p.popProtoMessageTo sha256 unit res).map (fun r => (r.1, .proto r.2.1 r.2.2))

/-- What a pop has to return for the reverted body `mess`. -/
def Exact (h : HashKind) (mess : Bytes) : Pop → Popped → Prop
  | .raw result, .raw checked result' =>
      (∀ d, (checked = true ∧ result' = d) ↔ mess = sealed sha256 h d) ∧
        (checked = false → result' = result)
  | .proto res, .proto checked res' =>
      (checked = true ↔ ∃ d, mess = sealed sha256 h d ∧ (unit.parse d).1 = true) ∧
        (∀ d, mess = sealed sha256 h d → res' = (unit.parse d).2) ∧
        ((∀ d, mess ≠ sealed sha256 h d) → res' = res)
  | _, _ => False

/-- The protocol without the first `n` bodies: the revertor has seen each of them once. -/
def dropped (p : DefaultProtocol) (n : ℕ) : DefaultProtocol :=
  { p with
    revertor := Transformer.cipher.advance p.revertor (p.queue.messages.take n)
    queue := { p.queue with messages := p.queue.messages.drop n } }

/-- The body at place `i` as it is seen when its turn comes. -/
def reverted (p : DefaultProtocol) (i : ℕ) : Bytes :=
  ((Transformer.cipher.advance p.revertor (p.queue.messages.take i)).transform
    (p.queue.messages.getD i [])).2

theorem popRawMessageTo_cons {p : DefaultProtocol} {data : Bytes} {rest : List Bytes}
    (hq : p.queue.messages = data :: rest) (result : Bytes) :
    p.popRawMessageTo sha256 result =
      some (p.dropped 1, p.checkMessage sha256 (p.reverted 0),
        if p.checkMessage sha256 (p.reverted 0) then (p.reverted 0).drop p.hashChecker.size
        else result) := by
  unfold popRawMessageTo popFront dropped reverted
  rw [hq]
  rfl

theorem popProtoMessageTo_cons {p : DefaultProtocol} {data : Bytes} {rest : List Bytes}
    (hq : p.queue.messages = data :: rest) (res : LowlevelUnit) :
    p.popProtoMessageTo sha256 unit res =
      some (p.dropped 1, if p.checkMessage sha256 (p.reverted 0) then
        p.parseRawMessage unit (p.reverted 0) else (false, res)) := by
  unfold popProtoMessageTo popFront dropped reverted
  rw [hq]
  rfl

theorem exact_raw (p : DefaultProtocol) (mess result : Bytes) :
    Exact sha256 unit p.hashChecker mess (.raw result)
      (.raw (p.checkMessage sha256 mess)
        (if p.checkMessage sha256 mess then mess.drop p.hashChecker.size else result)) := by
  constructor
  · intro d
    constructor
    · intro h
      obtain ⟨hc, hd⟩ := h
      obtain ⟨e, he⟩ := (checkMessage_iff sha256 p mess).mp hc
      rw [he, checkMessage_sealed, if_pos rfl, sealed_drop] at hd
      rw [he, hd]
    · intro h
      rw [h, checkMessage_sealed, if_pos rfl, sealed_drop]
      exact ⟨rfl, rfl⟩
  · intro h
    rw [h]
    rfl

theorem exact_proto (p : DefaultProtocol) (mess : Bytes) (res : LowlevelUnit)
    {out : Bool × LowlevelUnit} (hout : out =
      if p.checkMessage sha256 mess then p.parseRawMessage unit mess else (false, res)) :
    Exact sha256 unit p.hashChecker mess (.proto res) (.proto out.1 out.2) := by
  unfold parseRawMessage at hout
  cases hc : p.checkMessage sha256 mess with
  | true =>
      rw [hc, if_pos rfl] at hout
      obtain ⟨d, rfl⟩ := (checkMessage_iff sha256 p mess).mp hc
      rw [sealed_drop] at hout
      have same : ∀ e, sealed sha256 p.hashChecker d = sealed sha256 p.hashChecker e → d = e := by
        intro e he
        rw [← sealed_drop sha256 p.hashChecker d, he, sealed_drop]
      subst hout
      refine ⟨⟨fun h => ⟨d, rfl, h⟩, ?_⟩, ?_, fun h => absurd rfl (h d)⟩
      · intro h
        obtain ⟨e, he, hparse⟩ := h
        rwa [same e he]
      · intro e he
        rw [same e he]
  | false =>
      rw [hc, if_neg (by simp)] at hout
      have hno : ∀ d, mess ≠ sealed sha256 p.hashChecker d := by
        intro d hd
        rw [hd, checkMessage_sealed] at hc
        cases hc
      subst hout
      refine ⟨⟨fun h => absurd h (by simp), ?_⟩, fun d hd => absurd hd (hno d), fun _ => rfl⟩
      intro h
      obtain ⟨d, hd, _⟩ := h
      exact absurd hd (hno d)

theorem pop_cons {p : DefaultProtocol} (hq : 0 < p.queue.messages.length) (c : Pop) :
    ∃ out, p.pop sha256 unit c = some (p.dropped 1, out) ∧
      Exact sha256 unit p.hashChecker (p.reverted 0) c out := by
  obtain ⟨data, rest, hcons⟩ := List.exists_cons_of_length_pos hq
  cases c with
  | raw result =>
      refine ⟨_, ?_, exact_raw sha256 unit p _ result⟩
      rw [pop, popRawMessageTo_cons sha256 hcons]
      rfl
  | proto res =>
      refine ⟨_, ?_, exact_proto sha256 unit p _ res rfl⟩
      rw [pop, popProtoMessageTo_cons sha256 unit hcons]
      rfl

/-! ### Many pops -/

/-- Pops one after the other. -/
def pops (p : DefaultProtocol) : List Pop → Option (DefaultProtocol × List Popped)
  | [] => some (p, [])
  | c :: cs => (p.pop sha256 unit c).bind (fun r =>
      (pops r.1 cs).map (fun rs => (rs.1, r.2 :: rs.2)))

@[simp] theorem dropped_zero (p : DefaultProtocol) : p.dropped 0 = p := rfl

@[simp] theorem dropped_messages_length (p : DefaultProtocol) (n : ℕ) :
    (p.dropped n).queue.messages.length = p.queue.messages.length - n := by
  unfold dropped
  simp

theorem dropped_dropped (p : DefaultProtocol) (m n : ℕ) :
    (p.dropped m).dropped n = p.dropped (m + n) := by
  unfold dropped
  simp only [List.drop_drop, List.take_add, StreamCipher.advance_append]

theorem reverted_dropped (p : DefaultProtocol) (m i : ℕ) :
    (p.dropped m).reverted i = p.reverted (m + i) := by
  unfold reverted dropped
  simp only [List.take_add, StreamCipher.advance_append, List.getD_eq_getElem?_getD,
    List.getElem?_drop]

/-- What the pops `cs` have to return when `p` starts with their bodies. -/
def AllExact (p : DefaultProtocol) (cs : List Pop) (outs : List Popped) : Prop :=
  outs.length = cs.length ∧ ∀ i c out, cs[i]? = some c → outs[i]? = some out →
    Exact sha256 unit p.hashChecker (p.reverted i) c out

theorem pops_all_exact (cs : List Pop) (p : DefaultProtocol)
    (hlen : cs.length ≤ p.queue.messages.length) :
    ∃ outs, p.pops sha256 unit cs = some (p.dropped cs.length, outs) ∧
      p.AllExact sha256 unit cs outs := by
  induction cs generalizing p with
  | nil => exact ⟨[], rfl, rfl, fun i c out hc => by simp at hc⟩
  | cons c cs ih =>
      rw [List.length_cons] at hlen
      obtain ⟨out, hpop, hout⟩ := pop_cons sha256 unit (p := p) (by omega) c
      obtain ⟨outs, hpops, hlen', houts⟩ := ih (p.dropped 1) (by
        rw [dropped_messages_length]
        omega)
      refine ⟨out :: outs, ?_, by rw [List.length_cons, hlen', List.length_cons], ?_⟩
      · rw [pops, hpop, Option.bind_some, hpops, dropped_dropped, List.length_cons, Nat.add_comm]
        rfl
      · intro i c' out' hc' hout'
        cases i with
        | zero =>
            cases hc'
            cases hout'
            exact hout
        | succ i =>
            rw [List.getElem?_cons_succ] at hc' hout'
            have := houts i c' out' hc' hout'
            rwa [reverted_dropped, Nat.add_comm] at this

/-- Bodies of the same lengths leave a stream cipher in the same state. -/
theorem advance_congr {t : Transformer} {bs es : List Bytes}
    (h : List.Forall₂ (fun b e => b.length = e.length) bs es) :
    Transformer.cipher.advance t bs = Transformer.cipher.advance t es := by
  induction h generalizing t with
  | nil => rfl
  | cons hlen _ ih =>
      unfold StreamCipher.advance
      rw [Transformer.cipher.state_transform t _ _ hlen, ih]

theorem forall₂_envelope (h : HashKind) (t : Transformer) (ds : List Bytes) :
    List.Forall₂ (fun b e => b.length = e.length) (envelope sha256 h t ds)
      (ds.map (sealed sha256 h)) := by
  induction ds generalizing t with
  | nil => exact List.Forall₂.nil
  | cons d ds ih =>
      rw [envelope_cons, List.map_cons]
      exact List.Forall₂.cons (Transformer.transform_length _ _) (ih _)

theorem envelope_getElem? (h : HashKind) (t : Transformer) (ds : List Bytes) (i : ℕ) :
    (envelope sha256 h t ds)[i]? =
      ds[i]?.map (fun d => ((advance sha256 h t (ds.take i)).transform (sealed sha256 h d)).2) := by
  induction ds generalizing t i with
  | nil => simp
  | cons d ds ih =>
      cases i with
      | zero => rfl
      | succ i =>
          rw [envelope_cons, List.getElem?_cons_succ, ih, List.getElem?_cons_succ,
            List.take_succ_cons, advance_cons]

/-- A body that arrives as it was sent is seen as it was sealed, whatever happened to the
bodies in front of it, as long as their lengths are right. -/
theorem reverted_of_sent {p : DefaultProtocol} {ds : List Bytes}
    (hlen : List.Forall₂ (fun b e => b.length = e.length) p.queue.messages
      (envelope sha256 p.hashChecker p.revertor ds))
    {i : ℕ} {d : Bytes} (hd : ds[i]? = some d)
    (hsent : p.queue.messages[i]? = (envelope sha256 p.hashChecker p.revertor ds)[i]?) :
    p.reverted i = sealed sha256 p.hashChecker d := by
  have hstate : Transformer.cipher.advance p.revertor (p.queue.messages.take i) =
      advance sha256 p.hashChecker p.revertor (ds.take i) := by
    rw [advance_congr (List.forall₂_take i hlen),
      advance_congr (List.forall₂_take i (forall₂_envelope sha256 p.hashChecker p.revertor ds)),
      ← List.map_take]
    rfl
  rw [envelope_getElem?, hd] at hsent
  unfold reverted
  rw [hstate, List.getD_eq_getElem?_getD, hsent]
  exact congrArg Prod.snd (Transformer.transform_transform _ _)

/-- **Pops are exact.**  Any sequence of pops of either kind, over bodies of any lengths: a raw
pop succeeds with `d` exactly when its reverted body is the hash of `d` followed by `d` and
leaves the caller's object alone otherwise, a proto pop succeeds exactly when in addition `d`
parses.  In every case each pop takes its own body from the front and applies the revertor to it
once, so a body that arrives as it was sent is seen as it was sealed, even behind damaged ones. -/
theorem pops_exact (p : DefaultProtocol) (cs : List Pop)
    (hlen : cs.length ≤ p.queue.messages.length) :
    ∃ outs, p.pops sha256 unit cs = some (p.dropped cs.length, outs) ∧
      p.AllExact sha256 unit cs outs ∧
      ∀ ds, List.Forall₂ (fun b e => b.length = e.length) p.queue.messages
          (envelope sha256 p.hashChecker p.revertor ds) →
        ∀ i d, ds[i]? = some d →
          p.queue.messages[i]? = (envelope sha256 p.hashChecker p.revertor ds)[i]? →
          p.reverted i = sealed sha256 p.hashChecker d := by
  obtain ⟨outs, hpops, hexact⟩ := pops_all_exact sha256 unit cs p hlen
  exact ⟨outs, hpops, hexact, fun ds hds i d hd hsent => reverted_of_sent sha256 hds hd hsent⟩

end

/-- A body shorter than the hash, a damaged one and a good one behind them. -/
theorem pops_exact_three :
    let sha256 : Bytes → Digest := fun _ => ⟨List.replicate 32 0, rfl⟩
    let unit : Codec LowlevelUnit := ⟨fun _ => [], fun d => (d.length == 1, {})⟩
    let p : DefaultProtocol := { create.setHashChecker .crc32 with
      queue := ⟨[], [[0x61], [0, 0, 0, 0, 0x61], Crc32.get [0x61] ++ [0x61]], 16⟩ }
    ∃ outs, p.pops sha256 unit [.raw [1], .raw [2], .proto {}] = some (p.dropped 3, outs) ∧
      p.AllExact sha256 unit [.raw [1], .raw [2], .proto {}] outs := by
  intro sha256 unit p
  obtain ⟨outs, hpops, hexact, _⟩ := pops_exact sha256 unit p [.raw [1], .raw [2], .proto {}]
    (by decide)
  exact ⟨outs, hpops, hexact⟩

end Vtrc.DefaultProtocol
