import Vtrc.DataQueue

/-! # The frame parser on arbitrary bytes

`DataQueue.process_frames` describes the parser on a stream that was packed by the serializer.
Here the stream is anything: headers that never end, headers longer than `max_length`, lengths
above the limit.  Both size policies are covered through `SizePolicy.HeaderSpec`.

* `processOne_append`: every decision of `process_one` that is not "wait for more" is stable under
  appending bytes.  From it `process_append` and, for any sequence of chunks, `feedAll_eq`.
* `process_split`: what `process` cuts off are accepted frames, and why it stops
  (`processOne_eq_none`).
* `processOne_exact_iff`: when the header of an extracted message denotes its length.
* `extracted_inside_iff`: when the test before an extraction passes for what lies in the buffer
  only.

The first two assume that the sum of the limit and `max_length` fits in the size type, the last two
do not: where the sum in `process_one` wraps, it forms a range that ends before it starts. -/

namespace Vtrc

namespace DataQueue

variable {P : SizePolicy} {value : Bytes → ℕ}

/-- The sum of header and body length does not wrap for an accepted header. -/
def Fits (P : SizePolicy) (q : DataQueue) : Prop := q.maxValidLength + P.maxLength < 2 ^ P.bits

/-! ### What one round can do -/

/-- No header, an over-long header, a length above the limit, a complete frame, or a frame whose
body is not complete. -/
theorem processOne_cases (q : DataQueue) (hfit : q.Fits P) :
    (P.sizeLength q.data = 0 ∧ processOne P q = .ok none) ∨
      (P.maxLength < P.sizeLength q.data ∧ processOne P q = .error .invalidData) ∨
      (0 < P.sizeLength q.data ∧ P.sizeLength q.data ≤ P.maxLength ∧
        q.maxValidLength < P.unpack q.data ∧ processOne P q = .error .tooLong) ∨
      (0 < P.sizeLength q.data ∧ P.sizeLength q.data ≤ P.maxLength ∧
        P.unpack q.data ≤ q.maxValidLength ∧
        P.unpack q.data + P.sizeLength q.data ≤ q.data.length ∧
        processOne P q = .ok (some { q with
          data := q.data.drop (P.unpack q.data + P.sizeLength q.data)
          messages := q.messages ++ [(q.data.take (P.unpack q.data + P.sizeLength q.data)).drop
            (P.sizeLength q.data)] })) ∨
      (0 < P.sizeLength q.data ∧ P.sizeLength q.data ≤ P.maxLength ∧
        P.unpack q.data ≤ q.maxValidLength ∧
        q.data.length < P.unpack q.data + P.sizeLength q.data ∧ processOne P q = .ok none) := by
  simp only [processOne]
  rcases Nat.eq_zero_or_pos (P.sizeLength q.data) with h0 | hpos
  · left
    rw [if_neg (by omega)]
    exact ⟨h0, rfl⟩
  rw [if_pos hpos]
  rcases Nat.lt_or_ge P.maxLength (P.sizeLength q.data) with hlong | hle
  · rw [if_pos hlong]
    exact .inr (.inl ⟨hlong, rfl⟩)
  rw [if_neg (by omega)]
  rcases Nat.lt_or_ge q.maxValidLength (P.unpack q.data) with hbig | hlen
  · rw [if_pos hbig]
    exact .inr (.inr (.inl ⟨hpos, hle, hbig, rfl⟩))
  have hmod : (P.unpack q.data + P.sizeLength q.data) % 2 ^ P.bits =
      P.unpack q.data + P.sizeLength q.data := by
    rw [Fits] at hfit
    exact Nat.mod_eq_of_lt (by omega)
  rw [if_neg (by omega), hmod]
  rcases Nat.lt_or_ge q.data.length (P.unpack q.data + P.sizeLength q.data) with hshort | hfull
  · rw [if_neg (by omega)]
    exact .inr (.inr (.inr (.inr ⟨hpos, hle, hlen, hshort, rfl⟩)))
  · rw [if_pos hfull, if_neg (by omega)]
    exact .inr (.inr (.inr (.inl ⟨hpos, hle, hlen, hfull, rfl⟩)))

/-- A round that extracts has found an accepted header and all of the body. -/
theorem processOne_eq_some {q q' : DataQueue} (hfit : q.Fits P)
    (h : processOne P q = .ok (some q')) :
    0 < P.sizeLength q.data ∧ P.sizeLength q.data ≤ P.maxLength ∧
      P.unpack q.data ≤ q.maxValidLength ∧
      P.unpack q.data + P.sizeLength q.data ≤ q.data.length ∧
      q' = { q with
        data := q.data.drop (P.unpack q.data + P.sizeLength q.data)
        messages := q.messages ++ [(q.data.take (P.unpack q.data + P.sizeLength q.data)).drop
          (P.sizeLength q.data)] } := by
  rcases processOne_cases q hfit with ⟨_, heq⟩ | ⟨_, heq⟩ | ⟨_, _, _, heq⟩ |
    ⟨hpos, hle, hlen, hfull, heq⟩ | ⟨_, _, _, _, heq⟩
  · rw [heq] at h
    cases h
  · rw [heq] at h
    cases h
  · rw [heq] at h
    cases h
  · rw [heq] at h
    exact ⟨hpos, hle, hlen, hfull, (Option.some.inj (Except.ok.inj h)).symm⟩
  · rw [heq] at h
    cases h

theorem unpack_append (hP : P.HeaderSpec value) {data : Bytes} (more : Bytes)
    (hpos : 0 < P.sizeLength data) : P.unpack (data ++ more) = P.unpack data := by
  have hsize := hP.sizeLength_append data more hpos
  rw [hP.unpack_eq data hpos, hP.unpack_eq (data ++ more) (by omega), hsize,
    List.take_append_of_le_length (hP.sizeLength_le data)]

theorem processOne_append_some (hP : P.HeaderSpec value) {q q' : DataQueue} (hfit : q.Fits P)
    (h : processOne P q = .ok (some q')) (c : Bytes) :
    processOne P (q.append c) = .ok (some (q'.append c)) := by
  obtain ⟨hpos, hle, hlen, hfull, rfl⟩ := processOne_eq_some hfit h
  have hsize := hP.sizeLength_append q.data c hpos
  have hunpack := unpack_append hP c hpos
  rcases processOne_cases (q.append c) hfit with ⟨h0, _⟩ | ⟨hlong, _⟩ | ⟨_, _, hbig, _⟩ |
    ⟨_, _, _, _, heq'⟩ | ⟨_, _, _, hshort, _⟩
  · rw [append_data, hsize] at h0
    omega
  · rw [append_data, hsize] at hlong
    omega
  · rw [append_data, hunpack, append_maxValidLength] at hbig
    omega
  · rw [heq']
    simp only [append_data, hsize, hunpack]
    rw [List.drop_append_of_le_length hfull, List.take_append_of_le_length hfull]
    rfl
  · rw [append_data, hsize, hunpack, List.length_append] at hshort
    omega

theorem processOne_append_error (hP : P.HeaderSpec value) {q : DataQueue} (hfit : q.Fits P)
    {e : LengthError} (h : processOne P q = .error e) (c : Bytes) :
    processOne P (q.append c) = .error e := by
  have hstable : 0 < P.sizeLength q.data → P.sizeLength (q.append c).data = P.sizeLength q.data ∧
      P.unpack (q.append c).data = P.unpack q.data := fun hpos =>
    ⟨hP.sizeLength_append q.data c hpos, unpack_append hP c hpos⟩
  rcases processOne_cases q hfit with ⟨_, heq⟩ | ⟨hlong, heq⟩ | ⟨hpos, hle, hbig, heq⟩ |
    ⟨_, _, _, _, heq⟩ | ⟨_, _, _, _, heq⟩
  · rw [heq] at h
    cases h
  · rw [heq] at h
    obtain rfl := Except.error.inj h
    obtain ⟨hsize, _⟩ := hstable (by omega)
    rcases processOne_cases (q.append c) hfit with ⟨h0, _⟩ | ⟨_, heq'⟩ | ⟨_, hle, _⟩ |
      ⟨_, hle, _⟩ | ⟨_, hle, _⟩
    · omega
    · exact heq'
    · omega
    · omega
    · omega
  · rw [heq] at h
    obtain rfl := Except.error.inj h
    obtain ⟨hsize, hunpack⟩ := hstable hpos
    have hmax := append_maxValidLength q c
    rcases processOne_cases (q.append c) hfit with ⟨h0, _⟩ | ⟨hlong, _⟩ | ⟨_, _, _, heq'⟩ |
      ⟨_, _, hlen, _⟩ | ⟨_, _, hlen, _⟩
    · omega
    · omega
    · exact heq'
    · omega
    · omega
  · rw [heq] at h
    cases h
  · rw [heq] at h
    cases h

theorem processOne_some {q q' : DataQueue} (hfit : q.Fits P)
    (h : processOne P q = .ok (some q')) :
    q'.data.length < q.data.length ∧ q'.maxValidLength = q.maxValidLength ∧ q'.Fits P := by
  obtain ⟨hpos, _, _, hfull, rfl⟩ := processOne_eq_some hfit h
  refine ⟨?_, rfl, hfit⟩
  rw [List.length_drop]
  omega

/-! ### The loop -/

theorem processLoop_fuel {q : DataQueue} (hfit : q.Fits P) {m n : ℕ} (hm : q.data.length < m)
    (hn : q.data.length < n) : processLoop P m q = processLoop P n q := by
  induction m generalizing q n with
  | zero => omega
  | succ m ih =>
      obtain ⟨n, rfl⟩ : ∃ k, n = k + 1 := ⟨n - 1, by omega⟩
      rw [processLoop, processLoop]
      cases hone : processOne P q with
      | error e => rfl
      | ok r =>
          cases r with
          | none => rfl
          | some q' =>
              obtain ⟨hlt, _, hfit'⟩ := processOne_some hfit hone
              exact ih hfit' (by omega) (by omega)

theorem process_eq {q : DataQueue} (hfit : q.Fits P) :
    process P q = match processOne P q with
      | .error e => (q, some e)
      | .ok none => (q, none)
      | .ok (some q') => process P q' := by
  rw [process, processLoop]
  cases hone : processOne P q with
  | error e => rfl
  | ok r =>
      cases r with
      | none => rfl
      | some q' =>
          obtain ⟨hlt, _, hfit'⟩ := processOne_some hfit hone
          exact processLoop_fuel hfit' hlt (Nat.lt_succ_self _)

theorem process_fst_of_stop {q : DataQueue} (hfit : q.Fits P)
    (hstop : ∀ q', processOne P q ≠ .ok (some q')) : (process P q).1 = q := by
  rw [process_eq hfit]
  cases hone : processOne P q with
  | error e => rfl
  | ok r =>
      cases r with
      | none => rfl
      | some q' => exact absurd hone (hstop q')

/-- Induction along the rounds of `process`. -/
theorem process_induction {motive : DataQueue → Prop}
    (stop : ∀ q, q.Fits P → (∀ q', processOne P q ≠ .ok (some q')) → motive q)
    (next : ∀ q q', q.Fits P → processOne P q = .ok (some q') → motive q' → motive q)
    (q : DataQueue) (hfit : q.Fits P) : motive q := by
  induction hn : q.data.length using Nat.strong_induction_on generalizing q with
  | _ n ih =>
      by_cases hone : ∃ q', processOne P q = .ok (some q')
      · obtain ⟨q', hone⟩ := hone
        obtain ⟨hlt, _, hfit'⟩ := processOne_some hfit hone
        exact next q q' hfit hone (ih _ (by omega) q' hfit' rfl)
      · exact stop q hfit (fun q' h => hone ⟨q', h⟩)

theorem process_stopped {q : DataQueue} (hfit : q.Fits P) :
    (process P q).1.maxValidLength = q.maxValidLength ∧
      processOne P (process P q).1 = match (process P q).2 with
        | some e => .error e
        | none => .ok none := by
  refine process_induction (motive := fun q => (process P q).1.maxValidLength = q.maxValidLength ∧
    processOne P (process P q).1 = match (process P q).2 with
      | some e => .error e
      | none => .ok none) ?_ ?_ q hfit
  · intro q hfit hstop
    rw [process_eq hfit]
    cases hone : processOne P q with
    | error e => exact ⟨rfl, hone⟩
    | ok r =>
        cases r with
        | none => exact ⟨rfl, hone⟩
        | some q' => exact absurd hone (hstop q')
  · intro q q' hfit hone ih
    rw [process_eq hfit, hone]
    exact ⟨ih.1.trans (processOne_some hfit hone).2.1, ih.2⟩

theorem process_of_stopped {q : DataQueue} (hfit : q.Fits P) {e : Option LengthError}
    (h : processOne P q = match e with
      | some e => .error e
      | none => .ok none) : process P q = (q, e) := by
  rw [process_eq hfit, h]
  cases e <;> rfl

/-- **Processing in two steps**: what was processed before the bytes `c` came makes no
difference. -/
theorem process_append (hP : P.HeaderSpec value) {q : DataQueue} (hfit : q.Fits P) (c : Bytes) :
    process P (q.append c) = process P ((process P q).1.append c) := by
  refine process_induction
    (motive := fun q => process P (q.append c) = process P ((process P q).1.append c)) ?_ ?_ q hfit
  · intro q hfit hstop
    rw [process_fst_of_stop hfit hstop]
  · intro q q' hfit hone ih
    rw [process_eq (q := q.append c) hfit, processOne_append_some hP hfit hone,
      process_eq (q := q) hfit, hone]
    exact ih

/-- An error stays: the bytes that raised it are still there. -/
theorem process_error_append (hP : P.HeaderSpec value) {q : DataQueue} (hfit : q.Fits P)
    {e : LengthError} (h : (process P q).2 = some e) (c : Bytes) :
    (process P (q.append c)).2 = some e := by
  obtain ⟨hmax, hstop⟩ := process_stopped hfit
  have hfit' : (process P q).1.Fits P := by
    rw [Fits, hmax]
    exact hfit
  rw [h] at hstop
  rw [process_append hP hfit, process_of_stopped (e := some e) (by exact hfit')
    (processOne_append_error hP hfit' hstop c)]

/-! ### Chunks -/

/-- The chunks are appended and processed one after the other; a raised error is noted and
feeding goes on. -/
def feedAll (P : SizePolicy) : DataQueue × Bool → List Bytes → DataQueue × Bool
  | r, [] => r
  | (q, raised), c :: cs =>
      let r := process P (q.append c)
      feedAll P (r.1, raised || r.2.isSome) cs

/-- Feeding a queue on which `process` has just been run, as one process of everything. -/
theorem feedAll_eq (hP : P.HeaderSpec value) {q : DataQueue} (hfit : q.Fits P)
    {e : Option LengthError} (hq : process P q = (q, e)) (cs : List Bytes) :
    feedAll P (q, e.isSome) cs =
      ((process P (q.append cs.flatten)).1, (process P (q.append cs.flatten)).2.isSome) := by
  induction cs generalizing q e with
  | nil =>
      have hnil : q.append ([] : List Bytes).flatten = q := by
        rw [append]
        simp
      rw [feedAll, hnil, hq]
  | cons c cs ih =>
      obtain ⟨hmax, hstop⟩ := process_stopped (q := q.append c) hfit
      have hfit' : (process P (q.append c)).1.Fits P := by
        rw [Fits, hmax]
        exact hfit
      have hsticky : (e.isSome || (process P (q.append c)).2.isSome) =
          (process P (q.append c)).2.isSome := by
        cases e with
        | none => rfl
        | some e =>
            rw [process_error_append hP hfit (by rw [hq]) c]
            rfl
      rw [feedAll, hsticky, ih hfit' (process_of_stopped hfit' hstop),
        ← process_append hP (q := q.append c) hfit, List.flatten_cons]
      simp only [append, List.append_assoc]

theorem process_createParser (hP : P.HeaderSpec value) {M : ℕ} (hM : M + P.maxLength < 2 ^ P.bits) :
    process P (createParser M) = (createParser M, none) := by
  have h0 : P.sizeLength [] = 0 := by
    have := hP.sizeLength_le []
    simpa using this
  refine process_of_stopped (q := createParser M) (e := none) hM ?_
  simp [processOne, createParser, h0]

/-- **Chunking.**  A stream of arbitrary bytes gives the same messages, the same leftover and the
same verdict however it is cut into chunks. -/
theorem feed_chunks (kind : PolicyKind) (w M : ℕ)
    (hM : M + (kind.policy w).maxLength < 2 ^ (kind.policy w).bits) (chunks : List Bytes) :
    feedAll (kind.policy w) (createParser M, false) chunks =
      feedAll (kind.policy w) (createParser M, false) [chunks.flatten] := by
  have hP := kind.headerSpec w
  have hstart := process_createParser hP hM
  have h₁ := feedAll_eq hP (q := createParser M) hM hstart chunks
  have h₂ := feedAll_eq hP (q := createParser M) hM hstart [chunks.flatten]
  rw [Option.isSome_none] at h₁ h₂
  rw [h₁, h₂]
  simp

/-- A frame, then a header of eleven bytes: cut inside the frame and inside the header, and fed
in one chunk. -/
theorem feed_chunks_malformed :
    feedAll (PolicyKind.varint.policy 8) (.createParser 16, false)
        [[0x02, 0x61], [0x62, 0xff, 0xff], [0xff, 0xff, 0xff, 0xff, 0xff, 0xff, 0xff, 0xff], [0x00]] =
      feedAll (PolicyKind.varint.policy 8) (.createParser 16, false)
        [[0x02, 0x61, 0x62, 0xff, 0xff, 0xff, 0xff, 0xff, 0xff, 0xff, 0xff, 0xff, 0xff, 0x00]] :=
  feed_chunks .varint 8 16 (by decide) _

/-! ### What is left in the buffer -/

/-- One frame that the parser accepts under the limit `M`: a header of at most `max_length` bytes
and a body of the length it unpacks to. -/
structure Accepted (P : SizePolicy) (M : ℕ) (f : Bytes) : Prop where
  pos : 0 < P.sizeLength f
  le : P.sizeLength f ≤ P.maxLength
  limit : P.unpack f ≤ M
  length : f.length = P.unpack f + P.sizeLength f

theorem processOne_accepted (hP : P.HeaderSpec value) {q : DataQueue} (hfit : q.Fits P)
    {f d : Bytes} (hf : Accepted P q.maxValidLength f) (hd : q.data = f ++ d) :
    processOne P q = .ok (some { q with
      data := d, messages := q.messages ++ [f.drop (P.sizeLength f)] }) := by
  have hsize : P.sizeLength q.data = P.sizeLength f := by
    rw [hd]
    exact hP.sizeLength_append f d hf.pos
  have hunpack : P.unpack q.data = P.unpack f := by
    rw [hd]
    exact unpack_append hP d hf.pos
  have hlen : q.data.length = f.length + d.length := by rw [hd, List.length_append]
  have hfl := hf.length
  have hpos := hf.pos
  have hle := hf.le
  have hlimit := hf.limit
  rcases processOne_cases q hfit with ⟨h0, _⟩ | ⟨hlong, _⟩ | ⟨_, _, hbig, _⟩ | ⟨_, _, _, _, heq⟩ |
    ⟨_, _, _, hshort, _⟩
  · omega
  · omega
  · omega
  · rw [heq, hsize, hunpack, ← hf.length, hd, List.drop_left, List.take_left]
  · omega

/-- The buffer before an extraction is an accepted frame and the buffer after it. -/
theorem processOne_split (hP : P.HeaderSpec value) {q q' : DataQueue} (hfit : q.Fits P)
    (h : processOne P q = .ok (some q')) :
    ∃ f, Accepted P q.maxValidLength f ∧ q.data = f ++ q'.data := by
  obtain ⟨hpos, hle, hlen, hfull, rfl⟩ := processOne_eq_some hfit h
  have hsplit := List.take_append_drop (P.unpack q.data + P.sizeLength q.data) q.data
  -- the header of the buffer lies in the frame that is cut off
  have hsize : P.sizeLength (q.data.take (P.unpack q.data + P.sizeLength q.data)) =
      P.sizeLength q.data := by
    have hhead := hP.sizeLength_take q.data hpos
    have htake : q.data.take (P.unpack q.data + P.sizeLength q.data) =
        q.data.take (P.sizeLength q.data) ++
          (q.data.drop (P.sizeLength q.data)).take (P.unpack q.data) := by
      rw [Nat.add_comm, List.take_add]
    rw [htake, hP.sizeLength_append _ _ (by omega), hhead]
  have hunpack : P.unpack (q.data.take (P.unpack q.data + P.sizeLength q.data)) =
      P.unpack q.data := by
    have hpos' : 0 < P.sizeLength (q.data.take (P.unpack q.data + P.sizeLength q.data)) := by
      omega
    have := unpack_append hP (q.data.drop (P.unpack q.data + P.sizeLength q.data)) hpos'
    rw [← this, hsplit]
  refine ⟨_, ⟨?_, ?_, ?_, ?_⟩, hsplit.symm⟩
  · rw [hsize]
    exact hpos
  · rw [hsize]
    exact hle
  · rw [hunpack]
    exact hlen
  · rw [hsize, hunpack, List.length_take]
    omega

/-- What `process` cuts off are accepted frames. -/
theorem process_split (hP : P.HeaderSpec value) {q : DataQueue} (hfit : q.Fits P) :
    ∃ fs : List Bytes, (∀ f ∈ fs, Accepted P q.maxValidLength f) ∧
      q.data = fs.flatten ++ (process P q).1.data := by
  refine process_induction (motive := fun q => ∃ fs : List Bytes,
    (∀ f ∈ fs, Accepted P q.maxValidLength f) ∧ q.data = fs.flatten ++ (process P q).1.data)
    ?_ ?_ q hfit
  · intro q hfit hstop
    refine ⟨[], by simp, ?_⟩
    rw [process_fst_of_stop hfit hstop]
    rfl
  · rintro q q' hfit hone ⟨fs, hfs, hdata⟩
    obtain ⟨f, hf, hq⟩ := processOne_split hP hfit hone
    rw [(processOne_some hfit hone).2.1] at hfs
    refine ⟨f :: fs, List.forall_mem_cons.mpr ⟨hf, hfs⟩, ?_⟩
    rw [process_eq hfit, hone, hq, List.flatten_cons, List.append_assoc, ← hdata]

theorem process_accepted (hP : P.HeaderSpec value) (fs : List Bytes) {q : DataQueue}
    (hfit : q.Fits P) (hfs : ∀ f ∈ fs, Accepted P q.maxValidLength f) {u : Bytes}
    (hd : q.data = fs.flatten ++ u) (hu : P.sizeLength u = 0) :
    (process P q).1.data = u ∧ (process P q).2 = none := by
  induction fs generalizing q with
  | nil =>
      have hone : processOne P q = .ok none := by
        rw [List.flatten_nil, List.nil_append] at hd
        simp [processOne, hd, hu]
      rw [process_of_stopped (e := none) hfit hone]
      exact ⟨hd, rfl⟩
  | cons f fs ih =>
      obtain ⟨hf, hfs⟩ := List.forall_mem_cons.mp hfs
      rw [List.flatten_cons, List.append_assoc] at hd
      rw [process_eq hfit, processOne_accepted hP hfit hf hd]
      exact ih (q := { q with
        data := fs.flatten ++ u, messages := q.messages ++ [f.drop (P.sizeLength f)] }) hfit hfs rfl

/-- Complete accepted frames, followed by at least `M + max_length` bytes in which no header
ends. -/
def Overrun (P : SizePolicy) (M : ℕ) (stream : Bytes) : Prop :=
  ∃ (fs : List Bytes) (u : Bytes), stream = fs.flatten ++ u ∧ (∀ f ∈ fs, Accepted P M f) ∧
    P.sizeLength u = 0 ∧ M + P.maxLength ≤ u.length

theorem process_length_iff (hP : P.HeaderSpec value) {q : DataQueue} (hfit : q.Fits P)
    (hnone : (process P q).2 = none) :
    (process P q).1.data.length < q.maxValidLength + P.maxLength ↔
      ¬ Overrun P q.maxValidLength q.data := by
  constructor
  · rintro hlt ⟨fs, u, hd, hfs, hu, hlen⟩
    obtain ⟨hdata, _⟩ := process_accepted hP fs hfit hfs hd hu
    rw [hdata] at hlt
    omega
  · intro hover
    obtain ⟨hmax, hstop⟩ := process_stopped hfit
    obtain ⟨fs, hfs, hd⟩ := process_split hP hfit
    have hfit' : (process P q).1.Fits P := by
      rw [Fits, hmax]
      exact hfit
    rw [hnone] at hstop
    rcases processOne_cases _ hfit' with ⟨h0, _⟩ | ⟨_, heq⟩ | ⟨_, _, _, heq⟩ | ⟨_, _, _, _, heq⟩ |
      ⟨_, hle, hlen, hshort, _⟩
    · by_contra hge
      exact hover ⟨fs, _, hd, hfs, h0, by omega⟩
    · rw [heq] at hstop
      cases hstop
    · rw [heq] at hstop
      cases hstop
    · rw [heq] at hstop
      cases hstop
    · omega

/-- **The receive buffer.**  After a process that raised nothing the leftover is below
`M + max_length` if and only if the bytes fed so far are not complete frames followed by that
many bytes in which no header ends. -/
theorem leftover_lt_iff (kind : PolicyKind) (w M : ℕ)
    (hM : M + (kind.policy w).maxLength < 2 ^ (kind.policy w).bits) (chunks : List Bytes)
    (last : Bytes)
    (hnone : (process (kind.policy w)
      ((feedAll (kind.policy w) (createParser M, false) chunks).1.append last)).2 = none) :
    (process (kind.policy w)
        ((feedAll (kind.policy w) (createParser M, false) chunks).1.append last)).1.data.length <
        M + (kind.policy w).maxLength ↔
      ¬ Overrun (kind.policy w) M (chunks.flatten ++ last) := by
  have hP := kind.headerSpec w
  have hfed := feedAll_eq hP (q := createParser M) hM (process_createParser hP hM) chunks
  rw [Option.isSome_none] at hfed
  rw [hfed] at hnone ⊢
  rw [← process_append hP (q := (createParser M).append chunks.flatten) hM] at hnone ⊢
  exact process_length_iff hP (q := ((createParser M).append chunks.flatten).append last) hM hnone

/-- A frame and the beginning of the next one. -/
theorem leftover_lt_two_chunks :
    (process (PolicyKind.varint.policy 8) ((feedAll (PolicyKind.varint.policy 8)
      (createParser 4, false) [[0x02, 0x61]]).1.append [0x62, 0x03, 0x61])).1.data.length < 4 + 10 := by
  refine (leftover_lt_iff .varint 8 4 (by decide) [[0x02, 0x61]] [0x62, 0x03, 0x61]
    (by decide)).mpr ?_
  rintro ⟨fs, u, hd, _, _, hlen⟩
  have hle : u.length ≤ 5 := by
    have := congrArg List.length hd
    simp only [List.length_append] at this
    simp at this
    omega
  have : (PolicyKind.varint.policy 8).maxLength = 10 := by decide
  omega

/-- Bytes that all have their top bit set are kept, however many there are. -/
theorem process_unterminated {M : ℕ} (hM : M + 10 < 2 ^ 64) {u : Bytes}
    (hu : ∀ x ∈ u, x &&& 0x80 ≠ 0) :
    process (PolicyKind.varint.policy 8) ((createParser M).append u) =
      ((createParser M).append u, none) := by
  have hopen : (PolicyKind.varint.policy 8).sizeLength u = 0 := Varint.sizeLength_open hu
  have hfit : ((createParser M).append u).Fits (PolicyKind.varint.policy 8) := hM
  refine process_of_stopped (e := none) hfit ?_
  simp [processOne, createParser, hopen]

/-- A header that never ends, under the default limit: 65546 bytes stay in the buffer and nothing
is raised. -/
theorem leftover_unterminated :
    ∃ chunk : Bytes,
      (process (PolicyKind.varint.policy 8) ((createParser 65536).append chunk)).2 = none ∧
      ¬ (process (PolicyKind.varint.policy 8) ((createParser 65536).append chunk)).1.data.length <
        65536 + (PolicyKind.varint.policy 8).maxLength := by
  obtain ⟨u, hu, hlen⟩ : ∃ u : Bytes, (∀ x ∈ u, x &&& 0x80 ≠ 0) ∧ u.length = 65546 := by
    refine ⟨List.replicate 65546 0x80, fun x hx => ?_, List.length_replicate⟩
    rw [List.eq_of_mem_replicate hx]
    decide
  have hmax : (PolicyKind.varint.policy 8).maxLength = 10 := by decide
  refine ⟨u, ?_⟩
  rw [process_unterminated (by norm_num) hu, hmax, append_data, createParser, List.nil_append, hlen]
  exact ⟨rfl, by omega⟩

/-! ### What a header denotes -/

/-- The number that the header at the front of the buffer denotes. -/
def denoted (P : SizePolicy) (value : Bytes → ℕ) (q : DataQueue) : ℕ :=
  value (q.data.take (P.sizeLength q.data))

/-- The header is refused with a `length_error`; `raises` says that `std::string` raises one on a
range that ends before it starts. -/
def Refused (P : SizePolicy) (raises : Bool) (q : DataQueue) : Prop :=
  ∃ e, processOne P q = .error e ∧ (e = .badRange → raises = true)

/-- An extracted message has the length that its header denotes, and a header that denotes more
than the limit is refused. -/
def HeaderExact (P : SizePolicy) (value : Bytes → ℕ) (raises : Bool) (q : DataQueue) : Prop :=
  (∀ q', processOne P q = .ok (some q') →
    ∃ m, q'.messages = q.messages ++ [m] ∧ denoted P value q = m.length) ∧
  (0 < P.sizeLength q.data → q.maxValidLength < denoted P value q → Refused P raises q)

theorem processOne_of_gt (hP : P.HeaderSpec value) {q : DataQueue}
    (hpos : 0 < P.sizeLength q.data) (hle : P.sizeLength q.data ≤ P.maxLength)
    (hlen : q.maxValidLength < denoted P value q % 2 ^ P.bits) :
    processOne P q = .error .tooLong := by
  have hunpack : P.unpack q.data = denoted P value q % 2 ^ P.bits := hP.unpack_eq q.data hpos
  simp only [processOne, hunpack]
  rw [if_pos hpos, if_neg (by omega), if_pos (by omega)]

theorem processOne_of_long {q : DataQueue} (hlong : P.maxLength < P.sizeLength q.data) :
    processOne P q = .error .invalidData := by
  simp only [processOne]
  rw [if_pos (by omega), if_pos hlong]

/-- A header of an admitted length whose low bits are within the limit, where the sum of both
lengths does not wrap: the message is cut at the sum. -/
theorem processOne_of_fits (hP : P.HeaderSpec value) {q : DataQueue}
    (hpos : 0 < P.sizeLength q.data) (hle : P.sizeLength q.data ≤ P.maxLength)
    (hlen : denoted P value q % 2 ^ P.bits ≤ q.maxValidLength)
    (hsum : denoted P value q % 2 ^ P.bits + P.sizeLength q.data < 2 ^ P.bits) :
    processOne P q =
      if denoted P value q % 2 ^ P.bits + P.sizeLength q.data ≤ q.data.length then
        .ok (some { q with
          data := q.data.drop (denoted P value q % 2 ^ P.bits + P.sizeLength q.data)
          messages := q.messages ++ [(q.data.take
            (denoted P value q % 2 ^ P.bits + P.sizeLength q.data)).drop (P.sizeLength q.data)] })
      else .ok none := by
  have hunpack : P.unpack q.data = denoted P value q % 2 ^ P.bits := hP.unpack_eq q.data hpos
  have hrange : ¬ denoted P value q % 2 ^ P.bits + P.sizeLength q.data < P.sizeLength q.data := by
    omega
  simp only [processOne, hunpack, Nat.mod_eq_of_lt hsum, hrange, if_false]
  rw [if_pos hpos, if_neg (by omega), if_neg (by omega)]

/-- Where the sum wraps it is less than the header, which is there: the test passes, and the range
of the message ends before it starts. -/
theorem processOne_of_wraps (hP : P.HeaderSpec value) (hbits : P.maxLength < 2 ^ P.bits)
    {q : DataQueue} (hpos : 0 < P.sizeLength q.data) (hle : P.sizeLength q.data ≤ P.maxLength)
    (hlen : denoted P value q % 2 ^ P.bits ≤ q.maxValidLength)
    (hwrap : 2 ^ P.bits ≤ denoted P value q % 2 ^ P.bits + P.sizeLength q.data) :
    processOne P q = .error .badRange := by
  have hunpack : P.unpack q.data = denoted P value q % 2 ^ P.bits := hP.unpack_eq q.data hpos
  have hin := hP.sizeLength_le q.data
  have hlow : denoted P value q % 2 ^ P.bits < 2 ^ P.bits := Nat.mod_lt _ (by positivity)
  have hmod : (denoted P value q % 2 ^ P.bits + P.sizeLength q.data) % 2 ^ P.bits =
      denoted P value q % 2 ^ P.bits + P.sizeLength q.data - 2 ^ P.bits := by
    rw [Nat.mod_eq_sub_mod hwrap, Nat.mod_eq_of_lt (by omega)]
  simp only [processOne, hunpack, hmod]
  rw [if_pos hpos, if_neg (by omega), if_neg (by omega), if_pos (by omega), if_pos (by omega)]

theorem headerExact_iff (hP : P.HeaderSpec value) (hbits : P.maxLength < 2 ^ P.bits)
    {raises : Bool} {q : DataQueue} (hM : q.maxValidLength < 2 ^ P.bits) :
    HeaderExact P value raises q ↔
      P.sizeLength q.data = 0 ∨ P.maxLength < P.sizeLength q.data ∨
        q.maxValidLength < denoted P value q % 2 ^ P.bits ∨
        denoted P value q < 2 ^ P.bits ∨
        raises = true ∧ 2 ^ P.bits ≤ denoted P value q % 2 ^ P.bits + P.sizeLength q.data := by
  rcases Nat.eq_zero_or_pos (P.sizeLength q.data) with h0 | hpos
  · refine iff_of_true ⟨?_, fun hpos => by omega⟩ (.inl h0)
    intro q' h
    simp [processOne, h0] at h
  rcases Nat.lt_or_ge P.maxLength (P.sizeLength q.data) with hlong | hle
  · have hone := processOne_of_long hlong
    refine iff_of_true ⟨?_, fun _ _ => ⟨_, hone, fun h => by cases h⟩⟩ (.inr (.inl hlong))
    intro q' h
    rw [hone] at h
    cases h
  rcases Nat.lt_or_ge q.maxValidLength (denoted P value q % 2 ^ P.bits) with hbig | hlen
  · have hone := processOne_of_gt hP hpos hle hbig
    refine iff_of_true ⟨?_, fun _ _ => ⟨_, hone, fun h => by cases h⟩⟩ (.inr (.inr (.inl hbig)))
    intro q' h
    rw [hone] at h
    cases h
  rcases Nat.lt_or_ge (denoted P value q % 2 ^ P.bits + P.sizeLength q.data) (2 ^ P.bits)
    with hsum | hwrap
  · have hone := processOne_of_fits hP hpos hle hlen hsum
    rcases Nat.lt_or_ge (denoted P value q) (2 ^ P.bits) with hfits | hover
    · rw [Nat.mod_eq_of_lt hfits] at hone hlen
      refine iff_of_true ⟨?_, fun _ hgt => by omega⟩ (.inr (.inr (.inr (.inl hfits))))
      intro q' h
      rw [hone] at h
      split_ifs at h with hfull
      · obtain rfl := Option.some.inj (Except.ok.inj h)
        refine ⟨_, rfl, ?_⟩
        rw [List.length_drop, List.length_take]
        omega
      · cases h
    · -- the number does not fit in the size type, so it is above the limit, and is not refused
      refine iff_of_false ?_ (by omega)
      rintro ⟨_, href⟩
      obtain ⟨e, he, _⟩ := href hpos (by omega)
      rw [hone] at he
      split_ifs at he
  · have hone := processOne_of_wraps hP hbits hpos hle hlen hwrap
    have hnone : ∀ q', processOne P q ≠ .ok (some q') := by
      intro q' h
      rw [hone] at h
      cases h
    rcases Nat.lt_or_ge (denoted P value q) (2 ^ P.bits) with hfits | hover
    · rw [Nat.mod_eq_of_lt hfits] at hlen
      exact iff_of_true ⟨fun q' h => absurd h (hnone q'), fun _ hgt => by omega⟩
        (.inr (.inr (.inr (.inl hfits))))
    · constructor
      · rintro ⟨_, href⟩
        obtain ⟨e, he, hraises⟩ := href hpos (by omega)
        obtain rfl := Except.error.inj (hone.symm.trans he)
        exact .inr (.inr (.inr (.inr ⟨hraises rfl, hwrap⟩)))
      · intro h
        have hraises : raises = true := by
          rcases h with h | h | h | h | h
          · omega
          · omega
          · omega
          · omega
          · exact h.1
        exact ⟨fun q' h => absurd h (hnone q'), fun _ _ => ⟨_, hone, fun _ => hraises⟩⟩

theorem maxLength_lt (kind : PolicyKind) {w : ℕ} (hw : 0 < w) :
    (kind.policy w).maxLength < 2 ^ (8 * w) := by
  have hlt : 2 * w < 2 ^ (8 * w) := by
    calc 2 * w < 2 ^ (2 * w) := Nat.lt_two_pow_self
      _ ≤ 2 ^ (8 * w) := Nat.pow_le_pow_right (by norm_num) (by omega)
  cases kind with
  | varint =>
      show Varint.maxLength w < 2 ^ (8 * w)
      rw [Varint.maxLength]
      omega
  | fixint =>
      show w < 2 ^ (8 * w)
      omega

/-- **Headers and lengths.**  Whatever the buffer holds: the extracted message has the length that
its header denotes and a denoted length above the limit is refused, if and only if there is no
header, or it is longer than `max_length`, or the low bits of the denoted number are above the
limit, or the denoted number fits in the size type; or the low bits and the header length
together do not fit, where `std::string` raises on a range that ends before it starts. -/
theorem processOne_exact_iff (kind : PolicyKind) (w : ℕ) (hw : 0 < w) (raises : Bool)
    (q : DataQueue) (hM : q.maxValidLength < 2 ^ (8 * w)) :
    HeaderExact (kind.policy w) kind.value raises q ↔
      (kind.policy w).sizeLength q.data = 0 ∨
        (kind.policy w).maxLength < (kind.policy w).sizeLength q.data ∨
        q.maxValidLength < denoted (kind.policy w) kind.value q % 2 ^ (8 * w) ∨
        denoted (kind.policy w) kind.value q < 2 ^ (8 * w) ∨
        raises = true ∧ 2 ^ (8 * w) ≤ denoted (kind.policy w) kind.value q % 2 ^ (8 * w) +
          (kind.policy w).sizeLength q.data := by
  have hlong := maxLength_lt kind hw
  cases kind with
  | varint => exact headerExact_iff (varintPolicy_headerSpec w) hlong hM
  | fixint => exact headerExact_iff (fixintPolicy_headerSpec w) hlong hM

/-- A frame of one byte. -/
theorem processOne_exact_one :
    HeaderExact (PolicyKind.varint.policy 8) PolicyKind.varint.value false ⟨[0x01, 0x61], [], 16⟩ :=
  (processOne_exact_iff .varint 8 (by decide) false ⟨[0x01, 0x61], [], 16⟩ (by decide)).mpr
    (.inr (.inr (.inr (.inl (by decide)))))

/-- A varint header of ten bytes that denotes `2 ^ 64 + 5`: five bytes are extracted. -/
theorem processOne_dropped_bits :
    let q : DataQueue := ⟨[0x85, 0x80, 0x80, 0x80, 0x80, 0x80, 0x80, 0x80, 0x80, 0x02,
      0x68, 0x65, 0x6c, 0x6c, 0x6f], [], 65536⟩
    denoted (PolicyKind.varint.policy 8) PolicyKind.varint.value q = 2 ^ 64 + 5 ∧
      processOne (PolicyKind.varint.policy 8) q =
        .ok (some ⟨[], [[0x68, 0x65, 0x6c, 0x6c, 0x6f]], 65536⟩) ∧
      ∀ raises, ¬ HeaderExact (PolicyKind.varint.policy 8) PolicyKind.varint.value raises q := by
  intro q
  have hden : denoted (PolicyKind.varint.policy 8) PolicyKind.varint.value q = 2 ^ 64 + 5 := by
    decide +kernel
  have hone : processOne (PolicyKind.varint.policy 8) q =
      .ok (some ⟨[], [[0x68, 0x65, 0x6c, 0x6c, 0x6f]], 65536⟩) := by decide +kernel
  refine ⟨hden, hone, ?_⟩
  rintro raises ⟨hext, _⟩
  obtain ⟨m, hm, hlen⟩ := hext _ hone
  obtain rfl := List.singleton_inj.mp hm.symm
  rw [hden] at hlen
  simp at hlen

/-! ### The range of an extracted message -/

/-- The round comes to the test `(len + next) <= data.size( )` and passes it: a message is
extracted, or is to be built from a range that ends before it starts. -/
def TestPasses (P : SizePolicy) (q : DataQueue) : Prop :=
  (∃ q', processOne P q = .ok (some q')) ∨ processOne P q = .error .badRange

/-- The test passes only for a message that lies in the buffer: both lengths together, with no
wrap-around, are at most the number of buffered bytes. -/
def ExtractsInside (P : SizePolicy) (q : DataQueue) : Prop :=
  TestPasses P q → P.sizeLength q.data + P.unpack q.data ≤ q.data.length

theorem not_testPasses {q : DataQueue} {r : Except LengthError (Option DataQueue)}
    (h : processOne P q = r) (hsome : ∀ q', r ≠ .ok (some q')) (hbad : r ≠ .error .badRange) :
    ¬ TestPasses P q := by
  rintro (⟨q', hq'⟩ | hq)
  · exact hsome q' (h.symm.trans hq')
  · exact hbad (h.symm.trans hq)

theorem extractsInside_iff (hP : P.HeaderSpec value) (hbits : P.maxLength < 2 ^ P.bits)
    {q : DataQueue} (hsize : q.data.length < 2 ^ P.bits) :
    ExtractsInside P q ↔
      P.sizeLength q.data = 0 ∨ P.maxLength < P.sizeLength q.data ∨
        q.maxValidLength < denoted P value q % 2 ^ P.bits ∨
        denoted P value q % 2 ^ P.bits + P.sizeLength q.data < 2 ^ P.bits := by
  unfold ExtractsInside
  rcases Nat.eq_zero_or_pos (P.sizeLength q.data) with h0 | hpos
  · have hone : processOne P q = .ok none := by simp [processOne, h0]
    exact iff_of_true (fun h => absurd h (not_testPasses hone (by simp) (by simp))) (.inl h0)
  rcases Nat.lt_or_ge P.maxLength (P.sizeLength q.data) with hlong | hle
  · exact iff_of_true
      (fun h => absurd h (not_testPasses (processOne_of_long hlong) (by simp) (by simp)))
      (.inr (.inl hlong))
  rcases Nat.lt_or_ge q.maxValidLength (denoted P value q % 2 ^ P.bits) with hbig | hlen
  · exact iff_of_true
      (fun h => absurd h (not_testPasses (processOne_of_gt hP hpos hle hbig) (by simp) (by simp)))
      (.inr (.inr (.inl hbig)))
  rw [show P.unpack q.data = denoted P value q % 2 ^ P.bits from hP.unpack_eq q.data hpos]
  rcases Nat.lt_or_ge (denoted P value q % 2 ^ P.bits + P.sizeLength q.data) (2 ^ P.bits)
    with hsum | hwrap
  · refine iff_of_true ?_ (.inr (.inr (.inr hsum)))
    have hone := processOne_of_fits hP hpos hle hlen hsum
    intro h
    by_contra hshort
    rw [if_neg (by omega)] at hone
    exact not_testPasses hone (by simp) (by simp) h
  · refine iff_of_false ?_ (by omega)
    intro hinside
    have := hinside (.inr (processOne_of_wraps hP hbits hpos hle hlen hwrap))
    omega

/-- **The extracted range.**  For a `size_t` of 32 or 64 bits, both policies, every limit that
`max_message_length` can carry and every buffer: the test before an extraction passes only for what
lies in the buffer, if and only if `size_t` has 64 bits, or there is no header, or it is longer than
`max_length`, or the length that it announces is above the limit or fits in `size_t` together with
the header length. -/
theorem extracted_inside_iff (kind : PolicyKind) {w : ℕ} (hw : w = 4 ∨ w = 8) (q : DataQueue)
    (max : UInt32) (hsize : q.data.length < 2 ^ (8 * w)) :
    ExtractsInside (kind.policy w) (q.setMaximumLength max.toNat) ↔
      w = 8 ∨ (kind.policy w).sizeLength q.data = 0 ∨
        (kind.policy w).maxLength < (kind.policy w).sizeLength q.data ∨
        max.toNat < denoted (kind.policy w) kind.value q % 2 ^ (8 * w) ∨
        denoted (kind.policy w) kind.value q % 2 ^ (8 * w) + (kind.policy w).sizeLength q.data <
          2 ^ (8 * w) := by
  have hmax : max.toNat < 2 ^ 32 := max.toNat_lt
  have hbits : (kind.policy w).bits = 8 * w := by cases kind <;> rfl
  have hlong : (kind.policy w).maxLength ≤ 10 := by
    rcases hw with rfl | rfl <;> cases kind <;> decide
  have hpow : 2 ^ 32 ≤ 2 ^ (8 * w) := Nat.pow_le_pow_right (by norm_num) (by omega)
  have hiff := extractsInside_iff (q := q.setMaximumLength max.toNat) (kind.headerSpec w)
    (by rw [hbits]; omega) (by rwa [hbits])
  rw [hiff, hbits]
  constructor
  · exact .inr
  · rintro (rfl | h)
    · -- a length of at most 32 bits and a header of at most ten bytes
      have hden : denoted (kind.policy 8) kind.value (q.setMaximumLength max.toNat) =
        denoted (kind.policy 8) kind.value q := rfl
      have hlim : (q.setMaximumLength max.toNat).maxValidLength = max.toNat := rfl
      have hdata : (q.setMaximumLength max.toNat).data = q.data := rfl
      rw [hden, hlim, hdata]
      omega
    · exact h

/-- A frame of one byte on 32 bits. -/
theorem extracted_inside_one :
    ExtractsInside (PolicyKind.varint.policy 4)
      ((⟨[0x01, 0x61], [], 0⟩ : DataQueue).setMaximumLength (16 : UInt32).toNat) :=
  (extracted_inside_iff .varint (.inl rfl) ⟨[0x01, 0x61], [], 0⟩ 16 (by decide)).mpr
    (.inr (.inr (.inr (.inr (by decide)))))

/-- With the largest limit on 32 bits, a varint header of five bytes that announces `2 ^ 32 - 1`
bytes: the sum wraps to four and the test passes, with a buffer that holds the header only and a
range that ends before it starts. -/
theorem test_passes_wrapped :
    let q : DataQueue :=
      (⟨[0xff, 0xff, 0xff, 0xff, 0x0f], [], 0⟩ : DataQueue).setMaximumLength (0xffffffff : UInt32).toNat
    processOne (PolicyKind.varint.policy 4) q = .error .badRange ∧
      ¬ ExtractsInside (PolicyKind.varint.policy 4) q := by
  intro q
  have hone : processOne (PolicyKind.varint.policy 4) q = .error .badRange := by decide +kernel
  refine ⟨hone, fun h => ?_⟩
  have hsum := h (.inr hone)
  revert hsum
  decide +kernel

end DataQueue

end Vtrc
