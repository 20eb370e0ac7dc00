import Vtrc.Messages

/-! # The wire bytes of the handshake

The codecs of the messages are parameters of the model.  Here are some for concrete runs, with the
bytes that protobuf writes for the messages of these runs: `AuthCodecs.sample` parses nothing else
and is computable, `plainCodecs` and `keyCodecs` are lawful, for sessions without and with a key.
The two salts of a `transformer_setup` are any bytes (`setupCodec`). -/

namespace Vtrc

/-- A field of less than 128 bytes on the wire. -/
def wireField (tag : UInt8) (data : Bytes) : Bytes :=
  if data = [] then [] else tag :: UInt8.ofNat data.length :: data

/-- Codecs for concrete runs, with the wire bytes of the messages that these runs write and
read: capsules without an error, a `ready` capsule with an empty body, and one that announces
`max_message_length = 65536`. -/
def AuthCodecs.sample : AuthCodecs where
  capsule :=
    { serialize := fun c => wireField 0x0a (c.text.toList.map (fun ch => UInt8.ofNat ch.toNat)) ++
        (if c.ready then [0x10, 0x01] else []) ++ wireField 0x52 c.body
      parse := fun b =>
        if b = [] then (true, {})
        else if b = [0x10, 0x01] then (true, { ready := true })
        else if b = [0x10, 0x01, 0x52, 0x06, 0x0a, 0x04, 0x10, 0x80, 0x80, 0x04] then
          (true, { ready := true, body := [0x0a, 0x04, 0x10, 0x80, 0x80, 0x04] })
        else (false, {}) }
  initProtocol :=
    { serialize := fun p => p.hashSupported.flatMap (fun v => [0x08, v.toUInt8]) ++
        p.transformSupported.flatMap (fun v => [0x10, v.toUInt8])
      parse := fun b => (b = [], {}) }
  selection :=
    { serialize := fun s => [0x08, s.hash.toUInt8, 0x10, s.transform.toUInt8] ++ wireField 0x1a s.id
      parse := fun b => (b = [], {}) }
  setup :=
    { serialize := fun s => wireField 0x0a s.salt1 ++ wireField 0x12 s.salt2
      parse := fun b => (b = [], {}) }
  session :=
    { serialize := fun o =>
        if o = .defaults then
          [0x0a, 0x0e, 0x08, 0x05, 0x10, 0x80, 0x80, 0x04, 0x20, 0x10, 0x28, 0x80, 0x20, 0x30, 0x90, 0x4e]
        else []
      parse := fun b =>
        if b = [0x0a, 0x04, 0x10, 0x80, 0x80, 0x04] then (true, { maxMessageLength := 65536 })
        else (b = [], {}) }

/-! ### A session without a key -/

/-- The options of a session that allows `n` calls and messages of `k * 2 ^ 14` bytes. -/
def setupOptions (n k : UInt8) : SessionOptions :=
  { SessionOptions.defaults with
    maxActiveCalls := n.toUInt32, maxMessageLength := k.toUInt32 * 16384 }

/-- The bytes of a `session_setup` with these options. -/
def setupBytes (n k : UInt8) : Bytes :=
  [0x0a, 0x0e, 0x08, n, 0x10, 0x80, 0x80, k, 0x20, 0x10, 0x28, 0x80, 0x20, 0x30, 0x90, 0x4e]

/-- Lawful codecs with the wire bytes of a session without a key, in which `setupOptions n k` are
announced. -/
noncomputable def plainCodecs (n k : UInt8) : AuthCodecs where
  capsule := .withTable {}
    [({ text := "Tervetuloa!", ready := true
        body := [0x08, 0x00, 0x08, 0x02, 0x08, 0x0a, 0x10, 0x00, 0x10, 0x01] },
      [0x0a, 0x0b, 0x54, 0x65, 0x72, 0x76, 0x65, 0x74, 0x75, 0x6c, 0x6f, 0x61, 0x21, 0x10, 0x01,
       0x52, 0x0a, 0x08, 0x00, 0x08, 0x02, 0x08, 0x0a, 0x10, 0x00, 0x10, 0x01]),
     ({ text := "Miten menee?", ready := true, body := [0x08, 0x02, 0x10, 0x00] },
      [0x0a, 0x0c, 0x4d, 0x69, 0x74, 0x65, 0x6e, 0x20, 0x6d, 0x65, 0x6e, 0x65, 0x65, 0x3f, 0x10, 0x01,
       0x52, 0x04, 0x08, 0x02, 0x10, 0x00]),
     ({ text := "Kiva nahda sinut!", ready := true, body := setupBytes n k },
      [0x0a, 0x11, 0x4b, 0x69, 0x76, 0x61, 0x20, 0x6e, 0x61, 0x68, 0x64, 0x61, 0x20, 0x73, 0x69, 0x6e,
       0x75, 0x74, 0x21, 0x10, 0x01, 0x52, 0x10] ++ setupBytes n k)]
  initProtocol := .withBytes { hashSupported := [0, 2, 10], transformSupported := [0, 1] }
    [0x08, 0x00, 0x08, 0x02, 0x08, 0x0a, 0x10, 0x00, 0x10, 0x01]
  selection := .withBytes { hash := 2, transform := 0 } [0x08, 0x02, 0x10, 0x00]
  setup := .withBytes {} []
  session := .withBytes (setupOptions n k) (setupBytes n k)

theorem plainCodecs_lawful (n k : UInt8) : (plainCodecs n k).Lawful where
  capsule := by
    refine Codec.withTable_lawful _ ?_ ?_
    · simp
    · simp [setupBytes]
  initProtocol := Codec.withBytes_lawful _ (by decide)
  selection := Codec.withBytes_lawful _ (by decide)
  setup := Codec.withBytes_lawful _ (by decide)
  session := Codec.withBytes_lawful _ (by simp [setupBytes])

/-! ### A session with a key -/

/-- `transformer_setup` on the wire: two fields with their lengths. -/
def setupCodec : Codec TransformerSetup where
  serialize s := 0x0a :: (Varint.pack s.salt1.length ++ (s.salt1 ++
    0x12 :: (Varint.pack s.salt2.length ++ s.salt2)))
  parse b :=
    let r := b.tail
    let d := r.drop (Varint.sizeLength r)
    let n := Varint.unpack r.length r
    let r' := (d.drop n).tail
    (true, { salt1 := d.take n, salt2 := r'.drop (Varint.sizeLength r') })

theorem setupCodec_lawful : setupCodec.Lawful := by
  intro s
  have hn : ∀ r : Bytes, Varint.unpack (Varint.pack s.salt1.length ++ (s.salt1 ++ 0x12 :: r)).length
      (Varint.pack s.salt1.length ++ (s.salt1 ++ 0x12 :: r)) = s.salt1.length := by
    intro r
    refine Varint.unpack_pack _ _ _ ((Nat.lt_two_pow_self (n := s.salt1.length)).trans_le ?_)
    refine Nat.pow_le_pow_right (by norm_num) ?_
    simp only [List.length_append]
    omega
  simp only [setupCodec, List.tail_cons, Varint.sizeLength_pack, List.drop_left, hn, List.take_left]

/-- `init_capsule` with nothing but the flag and a body on the wire; the others as `C` has them. -/
def readyCapsules (C : Codec InitCapsule) : Codec InitCapsule where
  serialize c :=
    if c = { ready := true, body := c.body } then
      0x10 :: 0x01 :: 0x52 :: (Varint.pack c.body.length ++ c.body)
    else C.serialize c
  parse b :=
    if b.take 3 = [0x10, 0x01, 0x52] then
      (true, { ready := true, body := (b.drop 3).drop (Varint.sizeLength (b.drop 3)) })
    else C.parse b

theorem readyCapsules_lawful {C : Codec InitCapsule} (hC : C.Lawful)
    (hhead : ∀ c, (C.serialize c).head? ≠ some 0x10) : (readyCapsules C).Lawful := by
  intro c
  simp only [readyCapsules]
  by_cases hc : c = { ready := true, body := c.body }
  · rw [if_pos hc, if_pos (by rfl)]
    simp only [List.drop_succ_cons, List.drop_zero, Varint.sizeLength_pack, List.drop_left]
    rw [← hc]
  · rw [if_neg hc, if_neg, hC c]
    intro htake
    apply hhead c
    cases hb : C.serialize c with
    | nil =>
        rw [hb] at htake
        cases htake
    | cons x b =>
        rw [hb, List.take_succ_cons] at htake
        rw [(List.cons.inj htake).1]
        rfl

/-- The capsules of a handshake with a key, but for those of `readyCapsules`. -/
def keyTable : List (InitCapsule × Bytes) :=
  [({ text := "Tervetuloa!", ready := true
      body := [0x08, 0x00, 0x08, 0x02, 0x08, 0x0a, 0x10, 0x00, 0x10, 0x01] },
    [0x0a, 0x0b, 0x54, 0x65, 0x72, 0x76, 0x65, 0x74, 0x75, 0x6c, 0x6f, 0x61, 0x21, 0x10, 0x01,
     0x52, 0x0a, 0x08, 0x00, 0x08, 0x02, 0x08, 0x0a, 0x10, 0x00, 0x10, 0x01]),
   ({ text := "Miten menee?", ready := true, body := [0x08, 0x02, 0x10, 0x01] },
    [0x0a, 0x0c, 0x4d, 0x69, 0x74, 0x65, 0x6e, 0x20, 0x6d, 0x65, 0x6e, 0x65, 0x65, 0x3f, 0x10, 0x01,
     0x52, 0x04, 0x08, 0x02, 0x10, 0x01]),
   ({ text := "Kiva nahda sinut!", ready := true, body := setupBytes 5 4 },
    [0x0a, 0x11, 0x4b, 0x69, 0x76, 0x61, 0x20, 0x6e, 0x61, 0x68, 0x64, 0x61, 0x20, 0x73, 0x69, 0x6e,
     0x75, 0x74, 0x21, 0x10, 0x01, 0x52, 0x10] ++ setupBytes 5 4)]

/-- Lawful codecs with the wire bytes of a session with a key. -/
noncomputable def keyCodecs : AuthCodecs where
  capsule := readyCapsules (.withTable {} keyTable)
  initProtocol := (plainCodecs 5 4).initProtocol
  selection := .withBytes { hash := 2, transform := 1 } [0x08, 0x02, 0x10, 0x01]
  setup := setupCodec
  session := (plainCodecs 5 4).session

theorem keyCodecs_lawful : keyCodecs.Lawful where
  capsule := by
    refine readyCapsules_lawful (Codec.withTable_lawful _ ?_ ?_) (Codec.withTable_head _ (by decide) ?_)
    · simp [keyTable]
    · simp [keyTable, setupBytes]
    · simp [keyTable]
  initProtocol := (plainCodecs_lawful 5 4).initProtocol
  selection := Codec.withBytes_lawful _ (by decide)
  setup := setupCodec_lawful
  session := (plainCodecs_lawful 5 4).session

end Vtrc
