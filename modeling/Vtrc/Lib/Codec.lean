import Mathlib.Logic.Equiv.List
import Mathlib.Tactic.DeriveCountable

/-! # Codecs of messages

A serializer that a program takes from a library writes a message as bytes and parses bytes into a
message, with a flag that tells whether they were one; what it leaves in the message when they were
not is part of it, for callers that ignore the flag.  A *lawful* codec parses what it has written.

A run on fixed messages depends on the bytes of these messages only.  `withBytes` and `withTable`
give the bytes of some messages and write every other one in a form that no entry of the table has;
they are lawful for every countable type of messages (`withBytes_lawful`, `withTable_lawful`). -/

namespace Vtrc

/-- `serialize` and `parse` of a type of messages. -/
structure Codec (α : Type) where
  serialize : α → List UInt8
  parse : List UInt8 → Bool × α

/-- Parsing what was serialized succeeds and gives the message back. -/
def Codec.Lawful {α : Type} (C : Codec α) : Prop := ∀ a, C.parse (C.serialize a) = (true, a)

/-! ### Countable fields -/

instance countableUInt8 : Countable UInt8 :=
  Function.Injective.countable (f := UInt8.toNat) (fun _ _ h => UInt8.toNat_inj.mp h)

instance countableUInt64 : Countable UInt64 :=
  Function.Injective.countable (f := UInt64.toNat) (fun _ _ h => UInt64.toNat_inj.mp h)

instance countableUInt32 : Countable UInt32 :=
  Function.Injective.countable (f := UInt32.toNat) (fun _ _ h => UInt32.toNat_inj.mp h)

instance countableString : Countable String :=
  Function.Injective.countable (f := fun s => s.toList.map Char.toNat) (fun _ _ h =>
    String.toList_inj.mp (List.map_injective_iff.mpr (fun _ _ hc => Char.toNat_inj.mp hc) h))

/-! ### Codecs with given bytes -/

/-- A codec of which the bytes of the messages in the table are given. -/
noncomputable def Codec.withTable {α : Type} [Countable α] [DecidableEq α] (a : α)
    (table : List (α × List UInt8)) : Codec α :=
  letI := Encodable.ofCountable α
  { serialize := fun x =>
      match table.find? (fun r => r.1 = x) with
      | some r => r.2
      | none => 0xff :: List.replicate (Encodable.encode x) 0
    parse := fun b =>
      match table.find? (fun r => r.2 = b) with
      | some r => (true, r.1)
      | none => match (Encodable.decode (b.length - 1) : Option α) with
        | some x => (true, x)
        | none => (false, a) }

theorem Codec.withTable_lawful {α : Type} [Countable α] [DecidableEq α] (a : α)
    {table : List (α × List UInt8)} (hhead : ∀ r ∈ table, r.2.head? ≠ some 0xff)
    (hinj : ∀ r ∈ table, ∀ r' ∈ table, r.2 = r'.2 → r.1 = r'.1) :
    (Codec.withTable a table).Lawful := by
  intro x
  rw [withTable]
  dsimp only
  cases hx : table.find? (fun r => r.1 = x) with
  | some r =>
      have hr := List.mem_of_find?_eq_some hx
      have hrx : r.1 = x := by simpa using List.find?_some hx
      cases hb : table.find? (fun r' => r'.2 = r.2) with
      | some r' =>
          have hr' := List.mem_of_find?_eq_some hb
          have hbytes : r'.2 = r.2 := by simpa using List.find?_some hb
          simp only
          rw [hinj r' hr' r hr hbytes, hrx]
      | none => exact absurd (List.find?_eq_none.mp hb r hr) (by simp)
  | none =>
      have hb : table.find? (fun r => r.2 = 0xff :: List.replicate
          (@Encodable.encode α (Encodable.ofCountable α) x) 0) = none := by
        rw [List.find?_eq_none]
        intro r hr heq
        refine hhead r hr ?_
        rw [show r.2 = _ by simpa using heq]
        rfl
      simp [hb]

theorem Codec.withTable_head {α : Type} [Countable α] [DecidableEq α] (a : α)
    {table : List (α × List UInt8)} {x : UInt8} (hx : x ≠ 0xff)
    (h : ∀ r ∈ table, r.2.head? ≠ some x) (c : α) :
    ((Codec.withTable a table).serialize c).head? ≠ some x := by
  rw [Codec.withTable]
  dsimp only
  split
  · rename_i r hr
    exact h r (List.mem_of_find?_eq_some hr)
  · simpa using hx.symm

/-- A codec of which only the bytes of the message `a` are given. -/
noncomputable def Codec.withBytes {α : Type} [Countable α] [DecidableEq α] (a : α)
    (bytes : List UInt8) : Codec α :=
  .withTable a [(a, bytes)]

theorem Codec.withBytes_lawful {α : Type} [Countable α] [DecidableEq α] (a : α) {bytes : List UInt8}
    (h : bytes.head? ≠ some 0xff) : (Codec.withBytes a bytes).Lawful :=
  withTable_lawful a (by simpa using h) (by simp)

end Vtrc
