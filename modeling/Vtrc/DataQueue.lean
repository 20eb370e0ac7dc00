import Vtrc.SizePack
import Vtrc.Lib.Framing

/-! # The frame parser (`data-queue.cpp`)

`queue_base` is a byte buffer (`data_`), a queue of messages (`packed_`) and a limit
(`max_valid_length_`); `parser_impl` cuts frames off the buffer.  `processOne` follows
`parser_impl::process_one` with its two `length_error`s, the sum `len + next` being taken in
the size type: where the sum wraps, the range of the message ends before it starts.  `process`
is the loop `while (process_one());`, which leaves the queue as it stands when an error is
raised.

`process_frames` is the specification used by everything above: a buffer that begins a stream
of well-formed frames gives up exactly the frames that end in it (`Framing.ended`), in order,
keeps the rest and raises nothing, unless the header of a frame above the limit ends in it
(`Overlong`). -/

namespace Vtrc

open Framing

/-- The `std::length_error`s of the parser, and `badRange` for a `std::string` that is to be built
from a range that ends before it starts: the standard does not say what comes of it, and the
libraries raise a `std::length_error` of their own. -/
inductive LengthError where
  | invalidData
  | tooLong
  | badRange
deriving DecidableEq, Repr

def LengthError.what : LengthError → Option String
  | .invalidData => some "The serialized data is invalid"
  | .tooLong => some "Message is too long"
  | .badRange => none

/-- `queue_base::impl`. -/
structure DataQueue where
  data : Bytes
  messages : List Bytes
  maxValidLength : ℕ
deriving DecidableEq, Repr

namespace DataQueue

/-- `create_parser`. -/
def createParser (maxValidLength : ℕ) : DataQueue := ⟨[], [], maxValidLength⟩

def append (q : DataQueue) (chunk : Bytes) : DataQueue := { q with data := q.data ++ chunk }

def setMaximumLength (q : DataQueue) (n : ℕ) : DataQueue := { q with maxValidLength := n }

/-- `parser_impl::process_one`: `some` of the queue with one more message, `none` when no
frame is complete. -/
def processOne (P : SizePolicy) (q : DataQueue) : Except LengthError (Option DataQueue) :=
  let next := P.sizeLength q.data
  if next > 0 then
    if next > P.maxLength then .error .invalidData
    else
      let len := P.unpack q.data
      if len > q.maxValidLength then .error .tooLong
      else
        -- `len + next` in the arithmetic of `size_t`
        let last := (len + next) % 2 ^ P.bits
        if last ≤ q.data.length then
          -- `std::string mess( n, e )`
          if last < next then .error .badRange
          else .ok (some { q with
            data := q.data.drop last
            messages := q.messages ++ [(q.data.take last).drop next] })
        else .ok none
  else .ok none

/-- `while (process_one());`: every extraction shortens the buffer, whose length bounds the
number of rounds. -/
def processLoop (P : SizePolicy) : ℕ → DataQueue → DataQueue × Option LengthError
  | 0, q => (q, none)
  | fuel + 1, q =>
      match processOne P q with
      | .error e => (q, some e)
      | .ok none => (q, none)
      | .ok (some q') => processLoop P fuel q'

/-- `parser_impl::process`: the queue and the error that was raised, if any. -/
def process (P : SizePolicy) (q : DataQueue) : DataQueue × Option LengthError :=
  processLoop P (q.data.length + 1) q

theorem processLoop_maxValidLength (P : SizePolicy) (fuel : ℕ) (q : DataQueue) :
    (processLoop P fuel q).1.maxValidLength = q.maxValidLength := by
  induction fuel generalizing q with
  | zero => rfl
  | succ fuel ih =>
      rw [processLoop]
      split
      · rfl
      · rfl
      · rename_i q' hone
        rw [ih]
        simp only [processOne] at hone
        split_ifs at hone
        · obtain rfl := Option.some.inj (Except.ok.inj hone)
          rfl
        · cases hone
        · cases hone

/-- A message with the header that announces its length. -/
def frame (P : SizePolicy) (body : Bytes) : Bytes := P.pack body.length ++ body

@[simp] theorem append_data (q : DataQueue) (c : Bytes) : (q.append c).data = q.data ++ c := rfl
@[simp] theorem append_maxValidLength (q : DataQueue) (c : Bytes) :
    (q.append c).maxValidLength = q.maxValidLength := rfl

/-- Among the frames around `bodies` there is one above the limit `M` whose header ends within the
first `n` bytes. -/
def Overlong (P : SizePolicy) (M : ℕ) (bodies : List Bytes) (n : ℕ) : Prop :=
  ∃ i b, bodies[i]? = some b ∧ M < b.length ∧
    ((bodies.take i).map (frame P)).flatten.length + (P.pack b.length).length ≤ n

theorem not_overlong_of_fits {P : SizePolicy} {M : ℕ} {bodies : List Bytes}
    (h : ∀ b ∈ bodies, b.length ≤ M) (n : ℕ) : ¬ Overlong P M bodies n := by
  rintro ⟨i, b, hb, hM, _⟩
  have := h b (List.mem_of_getElem? hb)
  omega

theorem overlong_cons {P : SizePolicy} {M : ℕ} {b : Bytes} {bodies : List Bytes} {n : ℕ} :
    Overlong P M (b :: bodies) n ↔
      M < b.length ∧ (P.pack b.length).length ≤ n ∨
        (frame P b).length ≤ n ∧ Overlong P M bodies (n - (frame P b).length) := by
  constructor
  · rintro ⟨i, c, hc, hM, hle⟩
    cases i with
    | zero =>
        obtain rfl := Option.some.inj hc
        exact .inl ⟨hM, by simpa using hle⟩
    | succ i =>
        rw [List.take_succ_cons, List.map_cons, List.flatten_cons, List.length_append] at hle
        exact .inr ⟨by omega, i, c, hc, hM, by omega⟩
  · rintro (⟨hM, hle⟩ | ⟨hframe, i, c, hc, hM, hle⟩)
    · exact ⟨0, b, rfl, hM, by simpa using hle⟩
    · refine ⟨i + 1, c, hc, hM, ?_⟩
      rw [List.take_succ_cons, List.map_cons, List.flatten_cons, List.length_append]
      omega

/-- A longer beginning of the stream shows a longer frame to the parser only through the frames
that it has not cut off yet. -/
theorem overlong_drop {P : SizePolicy} {M : ℕ} {bodies : List Bytes} {data more tail : Bytes}
    (h : data ++ (more ++ tail) = (bodies.map (frame P)).flatten)
    (hin : ¬ Overlong P M bodies data.length) :
    Overlong P M (bodies.drop (ended (bodies.map (frame P)) data.length))
        (rest (bodies.map (frame P)) data ++ more).length ↔
      Overlong P M bodies (data ++ more).length := by
  induction bodies generalizing data with
  | nil => exact Iff.rfl
  | cons b bodies ih =>
      rcases Nat.lt_or_ge data.length (frame P b).length with hlt | hge
      · rw [List.map_cons, rest, ended_cons_of_lt hlt]
        exact Iff.rfl
      · obtain ⟨d, rfl, hd⟩ := head_complete hge h
        rw [overlong_cons, List.length_append, Nat.add_sub_cancel_left] at hin
        have hheader : (P.pack b.length).length ≤ (frame P b).length := by
          rw [frame, List.length_append]
          omega
        have hfits : ¬ M < b.length := fun hM => hin (.inl ⟨hM, by omega⟩)
        have hd' := ih hd (fun hover => hin (.inr ⟨by omega, hover⟩))
        rw [List.map_cons, ended_cons_append, rest_cons_append, List.drop_succ_cons, hd',
          overlong_cons, List.append_assoc, @List.length_append _ (frame P b),
          Nat.add_sub_cancel_left]
        constructor
        · exact fun hover => .inr ⟨by omega, hover⟩
        · rintro (⟨hM, _⟩ | ⟨_, hover⟩)
          · exact absurd hM hfits
          · exact hover

/-! ### One round on a stream of frames -/

section
variable {P : SizePolicy} {N : ℕ} (hP : P.Lawful N)
include hP

theorem frame_length_pos {body : Bytes} (hN : body.length ≤ N) : 0 < (frame P body).length := by
  have := List.length_pos_iff.mpr (hP.pack_ne_nil body.length hN)
  rw [frame, List.length_append]
  omega

theorem processOne_part {q : DataQueue} {n : ℕ} (hN : n ≤ N) (hpart : q.data <+: P.pack n)
    (hlt : q.data.length < (P.pack n).length) : processOne P q = .ok none := by
  obtain ⟨u, hu⟩ := hpart
  have hune : u ≠ [] := by
    rintro rfl
    rw [List.append_nil] at hu
    rw [hu] at hlt
    exact lt_irrefl _ hlt
  have hsize : P.sizeLength q.data = 0 := hP.sizeLength_prefix _ _ _ hN hu.symm hune
  simp only [processOne, hsize]
  rw [if_neg (by omega)]

/-- A round on a buffer that starts with a header; the sum of both lengths does not wrap. -/
theorem processOne_header {q : DataQueue} {n : ℕ} {d : Bytes} (hN : n ≤ N)
    (hd : q.data = P.pack n ++ d) :
    processOne P q =
      if q.maxValidLength < n then .error .tooLong
      else if (P.pack n).length + n ≤ q.data.length then
        .ok (some { q with data := d.drop n, messages := q.messages ++ [d.take n] })
      else .ok none := by
  have hpos : 0 < (P.pack n).length := List.length_pos_iff.mpr (hP.pack_ne_nil n hN)
  have hle := hP.pack_length_le n hN
  have hadd := hP.add_lt
  have hsize : P.sizeLength q.data = (P.pack n).length := by
    rw [hd]
    exact hP.sizeLength_pack _ _ hN
  have hunpack : P.unpack q.data = n := by
    rw [hd]
    exact hP.unpack_pack _ _ hN
  have hlast : (n + (P.pack n).length) % 2 ^ P.bits = (P.pack n).length + n := by
    rw [Nat.mod_eq_of_lt (by omega), Nat.add_comm]
  have hdrop : q.data.drop ((P.pack n).length + n) = d.drop n := by
    rw [hd, List.drop_length_add_append]
  have htake : (q.data.take ((P.pack n).length + n)).drop (P.pack n).length = d.take n := by
    rw [hd, List.take_length_add_append, List.drop_left]
  have hrange : ¬ (P.pack n).length + n < (P.pack n).length := by omega
  simp only [processOne, hsize, hunpack, hlast, hdrop, htake, hrange, if_false]
  rw [if_pos hpos, if_neg (by omega)]

theorem processOne_frame {q : DataQueue} {body d : Bytes} (hd : q.data = frame P body ++ d)
    (hN : body.length ≤ N) (hm : body.length ≤ q.maxValidLength) :
    processOne P q = .ok (some { q with data := d, messages := q.messages ++ [body] }) := by
  rw [frame, List.append_assoc] at hd
  have hle : (P.pack body.length).length + body.length ≤ q.data.length := by
    rw [hd, List.length_append, List.length_append]
    omega
  rw [processOne_header hP hN hd, if_neg (by omega), if_pos hle, List.drop_left, List.take_left]

/-- A proper part of a frame gives nothing and raises nothing. -/
theorem processOne_incomplete {q : DataQueue} {body tail s : Bytes}
    (h : q.data ++ tail = frame P body ++ s) (hlt : q.data.length < (frame P body).length)
    (hN : body.length ≤ N) (hm : body.length ≤ q.maxValidLength) :
    processOne P q = .ok none := by
  have hframe : (frame P body).length = (P.pack body.length).length + body.length :=
    List.length_append
  rw [frame, List.append_assoc] at h
  rcases Nat.lt_or_ge q.data.length (P.pack body.length).length with hhdr | hhdr
  · exact processOne_part hP hN (List.prefix_of_prefix_length_le ⟨tail, h⟩ ⟨_, rfl⟩ hhdr.le) hhdr
  · obtain ⟨d, hd, _⟩ := head_complete hhdr h
    rw [processOne_header hP hN hd, if_neg (by omega), if_neg (by omega)]

/-- A frame above the limit is refused as soon as its header is there. -/
theorem processOne_tooLong {q : DataQueue} {body tail s : Bytes}
    (h : q.data ++ tail = frame P body ++ s) (hN : body.length ≤ N)
    (hm : q.maxValidLength < body.length) :
    (P.pack body.length).length ≤ q.data.length ∧ processOne P q = .error .tooLong ∨
      q.data.length < (P.pack body.length).length ∧ processOne P q = .ok none := by
  rw [frame, List.append_assoc] at h
  rcases Nat.lt_or_ge q.data.length (P.pack body.length).length with hhdr | hhdr
  · have hpart := List.prefix_of_prefix_length_le ⟨tail, h⟩ ⟨_, rfl⟩ hhdr.le
    exact .inr ⟨hhdr, processOne_part hP hN hpart hhdr⟩
  · left
    obtain ⟨d, hd, _⟩ := head_complete hhdr h
    rw [processOne_header hP hN hd, if_pos hm]
    exact ⟨hhdr, rfl⟩

theorem processOne_nil {q : DataQueue} (h : q.data = []) : processOne P q = .ok none := by
  have hsize : P.sizeLength q.data = 0 := by
    rw [h]
    exact hP.sizeLength_prefix 0 [] (P.pack 0) (Nat.zero_le _) rfl (hP.pack_ne_nil 0 (Nat.zero_le _))
  simp only [processOne, hsize]
  rw [if_neg (by omega)]

/-! ### The whole loop -/

/-- The loop cuts off the frames that end in the buffer, or is stopped by a frame above the
limit. -/
theorem processLoop_frames (bodies : List Bytes) (q : DataQueue) (tail : Bytes) (fuel : ℕ)
    (hfuel : q.data.length < fuel)
    (h : q.data ++ tail = (bodies.map (frame P)).flatten) (hN : ∀ b ∈ bodies, b.length ≤ N) :
    ¬ Overlong P q.maxValidLength bodies q.data.length ∧ processLoop P fuel q =
      ({ q with
          data := rest (bodies.map (frame P)) q.data
          messages := q.messages ++ bodies.take (ended (bodies.map (frame P)) q.data.length) },
        none) ∨
      Overlong P q.maxValidLength bodies q.data.length ∧
        (processLoop P fuel q).2 = some .tooLong := by
  induction bodies generalizing q fuel with
  | nil =>
      left
      obtain ⟨hq, rfl⟩ := List.append_eq_nil_iff.mp h
      obtain ⟨fuel, rfl⟩ : ∃ f, fuel = f + 1 := ⟨fuel - 1, by omega⟩
      refine ⟨not_overlong_of_fits (by simp) _, ?_⟩
      rw [processLoop, processOne_nil hP hq]
      cases q
      simp_all [rest]
  | cons b bodies ih =>
      obtain ⟨fuel, rfl⟩ : ∃ f, fuel = f + 1 := ⟨fuel - 1, by omega⟩
      have hbN := hN b List.mem_cons_self
      have hframe : (frame P b).length = (P.pack b.length).length + b.length := List.length_append
      rw [List.map_cons, List.flatten_cons] at h
      have hpart : processOne P q = .ok none → q.data.length < (frame P b).length →
          processLoop P (fuel + 1) q =
            ({ q with
                data := rest ((b :: bodies).map (frame P)) q.data
                messages := q.messages ++
                  (b :: bodies).take (ended ((b :: bodies).map (frame P)) q.data.length) }, none) := by
        intro hone hlt
        rw [processLoop, hone]
        cases q
        simp [rest, ended_cons_of_lt hlt]
      rw [overlong_cons]
      rcases Nat.lt_or_ge q.maxValidLength b.length with hm | hm
      · rcases processOne_tooLong hP h hbN hm with ⟨hhdr, herr⟩ | ⟨hhdr, hone⟩
        · right
          rw [processLoop, herr]
          exact ⟨.inl ⟨hm, hhdr⟩, rfl⟩
        · exact .inl ⟨by omega, hpart hone (by omega)⟩
      · rcases Nat.lt_or_ge q.data.length (frame P b).length with hlt | hge
        · exact .inl ⟨by omega, hpart (processOne_incomplete hP h hlt hbN hm) hlt⟩
        · obtain ⟨d, hd, ht⟩ := head_complete hge h
          have hpos := frame_length_pos hP hbN
          have hlen : q.data.length = (frame P b).length + d.length := by
            rw [hd, List.length_append]
          rw [processLoop, processOne_frame hP hd hbN hm]
          simp only
          have hih := ih { q with data := d, messages := q.messages ++ [b] } fuel
            (show d.length < fuel by omega) ht (fun c hc => hN c (List.mem_cons_of_mem _ hc))
          rw [hlen, Nat.add_sub_cancel_left]
          rcases hih with ⟨hin, hih⟩ | ⟨hover, herr⟩
          · left
            refine ⟨?_, ?_⟩
            · rintro (hb | hrest)
              · omega
              · exact hin hrest.2
            · rw [hih, hd, List.map_cons, ← List.length_append, ended_cons_append, rest_cons_append]
              simp
          · exact .inr ⟨.inr ⟨by omega, hover⟩, herr⟩

/-- **The parser on a stream of frames**: exactly the frames that end in the buffer are
extracted, the rest of the buffer stays and nothing is raised, unless the header of a frame above
the limit ends in it. -/
theorem process_frames (bodies : List Bytes) (q : DataQueue) (tail : Bytes)
    (h : q.data ++ tail = (bodies.map (frame P)).flatten) (hN : ∀ b ∈ bodies, b.length ≤ N) :
    ¬ Overlong P q.maxValidLength bodies q.data.length ∧ process P q =
      ({ q with
          data := rest (bodies.map (frame P)) q.data
          messages := q.messages ++ bodies.take (ended (bodies.map (frame P)) q.data.length) },
        none) ∨
      Overlong P q.maxValidLength bodies q.data.length ∧ (process P q).2 = some .tooLong :=
  processLoop_frames hP bodies q tail _ (Nat.lt_succ_self _) h hN

end

end DataQueue

end Vtrc
