import Vtrc.FrameParser
import Vtrc.SizeCodec

/-! # The serializer (`serializer_impl` in `data-queue.cpp`)

`process` of the serializer packs what has been appended into one message.  `serializeAll` gives
it a list of strings, each in any number of pieces.

* `serializeAll_eq`: the serializer queues one frame for each string.
* `serializer_parser_inverse`: a parser with the same limit gives the strings back. -/

namespace Vtrc

namespace DataQueue

open Framing

/-- `create_serializer`. -/
def createSerializer (maxValidLength : ℕ) : DataQueue := ⟨[], [], maxValidLength⟩

/-- `serializer_impl::process`: the queue and the error that was raised, if any. -/
def serialize (P : SizePolicy) (q : DataQueue) : DataQueue × Option LengthError :=
  if q.data.length > q.maxValidLength then (q, some .tooLong)
  else
    let newData := P.pack q.data.length ++ q.data
    ({ q with messages := q.messages ++ [newData], data := [] }, none)

/-- The calls of `append` for one string. -/
def appendAll (q : DataQueue) (pieces : List Bytes) : DataQueue := pieces.foldl append q

/-- The strings are appended in pieces and processed one after the other; what `process` raised
for each of them. -/
def serializeAll (P : SizePolicy) : DataQueue → List (List Bytes) → DataQueue × List (Option LengthError)
  | q, [] => (q, [])
  | q, pieces :: strings =>
      let r := serialize P (q.appendAll pieces)
      let rs := serializeAll P r.1 strings
      (rs.1, r.2 :: rs.2)

theorem appendAll_eq (q : DataQueue) (pieces : List Bytes) :
    q.appendAll pieces = q.append pieces.flatten := by
  unfold appendAll
  induction pieces generalizing q with
  | nil => simp [append]
  | cons c pieces ih =>
      rw [List.foldl_cons, ih, List.flatten_cons]
      simp only [append, List.append_assoc]

theorem serialize_tooLong (P : SizePolicy) {q : DataQueue}
    (h : q.maxValidLength < q.data.length) : serialize P q = (q, some .tooLong) := by
  unfold serialize
  rw [if_pos h]

theorem serialize_frame (P : SizePolicy) {q : DataQueue} (h : q.data.length ≤ q.maxValidLength) :
    serialize P q = ({ q with messages := q.messages ++ [frame P q.data], data := [] }, none) := by
  unfold serialize
  rw [if_neg (by omega)]
  rfl

theorem serializeAll_eq (P : SizePolicy) (strings : List (List Bytes)) (q : DataQueue)
    (hdata : q.data = []) (hlen : ∀ s ∈ strings, s.flatten.length ≤ q.maxValidLength) :
    serializeAll P q strings =
      ({ q with messages := q.messages ++ (strings.map List.flatten).map (frame P) },
        List.replicate strings.length none) := by
  induction strings generalizing q with
  | nil => simp [serializeAll]
  | cons s strings ih =>
      have hs := hlen s List.mem_cons_self
      have hone : serialize P (q.appendAll s) =
          ({ q with messages := q.messages ++ [frame P s.flatten] }, none) := by
        rw [appendAll_eq]
        have hdata' : (q.append s.flatten).data = s.flatten := by rw [append_data, hdata, List.nil_append]
        rw [serialize_frame P (by rwa [hdata', append_maxValidLength]), hdata', ← hdata]
        rfl
      have hrest := ih { q with messages := q.messages ++ [frame P s.flatten] } hdata
        (fun t ht => hlen t (List.mem_cons_of_mem _ ht))
      rw [serializeAll, hone]
      simp only
      rw [hrest]
      simp only [List.map_cons, List.append_assoc, List.singleton_append, List.length_cons,
        List.replicate_succ]

/-- A whole stream of frames within the limit is cut into its messages. -/
theorem process_stream {P : SizePolicy} {M : ℕ} (hP : P.Lawful M) (bodies : List Bytes)
    (hM : ∀ b ∈ bodies, b.length ≤ M) :
    process P ((createParser M).append (bodies.map (frame P)).flatten) =
      (⟨[], bodies, M⟩, none) := by
  have hdata : ((createParser M).append (bodies.map (frame P)).flatten).data ++ [] =
      (bodies.map (frame P)).flatten := by
    rw [append_data, List.append_nil]
    rfl
  rcases process_frames hP bodies _ [] hdata hM with ⟨_, hproc⟩ | ⟨hover, _⟩
  · have hended : ended (bodies.map (frame P)) (bodies.map (frame P)).flatten.length =
        bodies.length := by rw [ended_flatten, List.length_map]
    rw [List.append_nil] at hdata
    have hleft : rest (bodies.map (frame P)) (bodies.map (frame P)).flatten = [] := by
      unfold rest
      rw [hended, List.take_of_length_le (by rw [List.length_map]), List.drop_length]
    rw [hproc, hdata, hended, List.take_length, hleft]
    rfl
  · exact absurd hover (not_overlong_of_fits hM _)

/-- **Serializer and parser are inverse.**  Strings within the limit, each appended in any pieces
and then processed, raise nothing and leave one message for each of them; a parser with the same
limit that is fed these messages in any chunks gives the strings back in order, with nothing
left over and no error.  Pending data above the limit raises `length_error` and leaves the
serializer as it was. -/
theorem serializer_parser_inverse (kind : PolicyKind) (w M : ℕ) (hw : 0 < w)
    (hM : M + (kind.policy w).maxLength < 2 ^ (kind.policy w).bits) :
    (∀ strings : List (List Bytes), (∀ s ∈ strings, s.flatten.length ≤ M) →
      ∃ packed : List Bytes,
        serializeAll (kind.policy w) (createSerializer M) strings =
            (⟨[], packed, M⟩, List.replicate strings.length none) ∧
          packed.length = strings.length ∧
          ∀ chunks : List Bytes, chunks.flatten = packed.flatten →
            feedAll (kind.policy w) (createParser M, false) chunks =
              (⟨[], strings.map List.flatten, M⟩, false)) ∧
      ∀ q : DataQueue, q.maxValidLength = M → M < q.data.length →
        serialize (kind.policy w) q = (q, some .tooLong) := by
  constructor
  · intro strings hlen
    refine ⟨(strings.map List.flatten).map (frame (kind.policy w)), ?_, by simp, ?_⟩
    · rw [serializeAll_eq _ strings (createSerializer M) rfl hlen]
      rfl
    · intro chunks hchunks
      have hbodies : ∀ b ∈ strings.map List.flatten, b.length ≤ M := by
        intro b hb
        obtain ⟨s, hs, rfl⟩ := List.mem_map.mp hb
        exact hlen s hs
      have hfeed := feedAll_eq (kind.headerSpec w) (q := createParser M) hM
        (process_createParser (kind.headerSpec w) hM) chunks
      rw [hchunks, process_stream (kind.lawful w M hw hM) _ hbodies] at hfeed
      exact hfeed
  · intro q hq hlong
    exact serialize_tooLong _ (hq ▸ hlong)

/-- The empty string and a string of the length of the limit, fed back byte by byte. -/
theorem serializer_parser_inverse_two :
    feedAll (PolicyKind.varint.policy 8) (createParser 2, false) [[0], [2], [0x61], [0x62]] =
      (⟨[], [[], [0x61, 0x62]], 2⟩, false) := by
  obtain ⟨packed, hpacked, _, hfeed⟩ := (serializer_parser_inverse .varint 8 2 (by decide)
    (by decide)).1 [[], [[0x61], [0x62]]] (by decide)
  have hframes := serializeAll_eq (PolicyKind.varint.policy 8) [[], [[0x61], [0x62]]]
    (createSerializer 2) rfl (by decide)
  have h₀ : (PolicyKind.varint.policy 8).pack 0 = [0] := Varint.pack_of_le (by decide)
  have h₂ : (PolicyKind.varint.policy 8).pack 2 = [2] := Varint.pack_of_le (by decide)
  rw [hframes] at hpacked
  have hmess := congrArg (fun r => r.1.messages) hpacked
  simp only at hmess
  apply hfeed
  rw [← hmess]
  simp [createSerializer, frame, h₀, h₂]

end DataQueue

end Vtrc
