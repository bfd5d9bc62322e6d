import PracticalCrypto.Surf.Server.Connection

/-!
# The framing of key messages

`pack_key_bytes` of `ssl/Messaging.cpp` and `unpack_key_bytes`, which the verifier's reads
use. A key message is one header byte and between 1 and 16383 bytes of key material. The
enumeration of the headers has a gap: 15 is below `SIZE`, so `is_valid_header` accepts it,
but no header is declared with that value.
-/

namespace PracticalCrypto.Surf

open Server

/-- The enumerator is declared in `MessageHeaders`. -/
def MessageHeader.isDeclared (header : MessageHeader) : Bool := header ≠ .unassigned

/-- The byte of the value that `is_valid_header` accepts and that names no header. -/
def undeclaredByte : UInt8 := MessageHeader.toByte .unassigned

def packKeyBytes (header : MessageHeader) (key : Bytes) : Option Bytes :=
  if key.length = 0 ∨ maxPlainLength - 1 < key.length then none
  else some (header.toByte :: key)

theorem MessageHeader.toByte_all (index : Fin all.length) :
    (all.get index).toByte = UInt8.ofNat index := by
  revert index
  decide

theorem MessageHeader.ofByte_eq_some_iff {byte : UInt8} {header : MessageHeader} :
    ofByte byte = some header ↔ header.toByte = byte := by
  constructor
  · intro found
    rcases List.getElem?_eq_some_iff.mp found with ⟨inRange, rfl⟩
    exact (toByte_all ⟨byte.toNat, inRange⟩).trans UInt8.ofNat_toNat
  · rintro rfl
    exact ofByte_toByte header

theorem packKeyBytes_eq_some_iff {header : MessageHeader} {key message : Bytes} :
    packKeyBytes header key = some message ↔
      (1 ≤ key.length ∧ key.length ≤ maxPlainLength - 1) ∧ header.toByte :: key = message := by
  rw [packKeyBytes]
  split
  · refine ⟨nofun, fun packed => ?_⟩
    omega
  · rw [Option.some_inj]
    refine ⟨fun packed => ⟨?_, packed⟩, fun packed => packed.2⟩
    omega

/-- Messages are accepted exactly as they are packed, with or without a declared header. -/
theorem unpackKeyBytes_eq_some_iff {header : MessageHeader} {key message : Bytes} :
    unpackKeyBytes message = some (header, key) ↔ packKeyBytes header key = some message := by
  rw [packKeyBytes_eq_some_iff, unpackKeyBytes]
  cases message with
  | nil => simp
  | cons byte rest =>
      have lengths : (byte :: rest).length ≤ maxPlainLength ∧ 2 ≤ (byte :: rest).length ↔
          1 ≤ rest.length ∧ rest.length ≤ maxPlainLength - 1 := by
        rw [List.length_cons, maxPlainLength]
        omega
      rw [List.cons.injEq, ← MessageHeader.ofByte_eq_some_iff]
      split
      · have admitted := lengths.mp ‹_›
        rcases found : MessageHeader.ofByte byte with _ | declared
        · simp [found]
        · simp only [List.head?_cons, List.tail_cons, Option.bind_eq_bind, Option.bind_some, found,
            Option.some.injEq, Prod.mk.injEq]
          constructor
          · rintro ⟨rfl, rfl⟩
            exact ⟨admitted, rfl, rfl⟩
          · rintro ⟨_, rfl, rfl⟩
            exact ⟨rfl, rfl⟩
      · have refused := mt lengths.mpr ‹_›
        refine ⟨nofun, ?_⟩
        rintro ⟨admitted, _, rfl⟩
        exact absurd admitted refused

theorem MessageHeader.isDeclared_iff {header : MessageHeader} :
    header.isDeclared = true ↔ header.toByte ≠ undeclaredByte := by
  cases header <;> decide

/-- A packed message has a declared header unless it begins with 15. -/
theorem packKeyBytes_declared_iff {header : MessageHeader} {key message : Bytes}
    (packed : packKeyBytes header key = some message) :
    header.isDeclared = true ↔ message.head? ≠ some undeclaredByte := by
  rcases packKeyBytes_eq_some_iff.mp packed with ⟨_, rfl⟩
  rw [MessageHeader.isDeclared_iff, List.head?_cons, Ne, Ne, Option.some_inj]

/--
Packing a key and unpacking the message gives the header and the key back. What is accepted is
a packed message with a declared header, except for exactly the messages that begin with 15.
-/
theorem keyBytes_framing (message : Bytes) :
    (∀ header : MessageHeader, header.isDeclared = true → ∀ key : Bytes, 1 ≤ key.length →
        key.length ≤ maxPlainLength - 1 →
        ∃ packed, packKeyBytes header key = some packed ∧
          unpackKeyBytes packed = some (header, key)) ∧
      (((unpackKeyBytes message).isSome = true →
          ∃ header key, header.isDeclared = true ∧ packKeyBytes header key = some message) ↔
        ¬(message.head? = some undeclaredByte ∧ 2 ≤ message.length ∧
          message.length ≤ maxPlainLength)) := by
  constructor
  · intro header _ key notEmpty short
    have packed : packKeyBytes header key = some (header.toByte :: key) :=
      packKeyBytes_eq_some_iff.mpr ⟨⟨notEmpty, short⟩, rfl⟩
    exact ⟨header.toByte :: key, packed, unpackKeyBytes_eq_some_iff.mpr packed⟩
  · constructor
    · rintro image ⟨first, longEnough, short⟩
      cases message with
      | nil => cases first
      | cons byte key =>
          rw [List.head?_cons, Option.some_inj] at first
          rw [List.length_cons] at longEnough short
          have packed : packKeyBytes .unassigned key = some (byte :: key) :=
            packKeyBytes_eq_some_iff.mpr ⟨⟨by omega, by omega⟩, by rw [first, undeclaredByte]⟩
          have accepted := unpackKeyBytes_eq_some_iff.mpr packed
          rcases image (by rw [accepted]; rfl) with ⟨header, other, declared, same⟩
          have notFirst := (packKeyBytes_declared_iff same).mp declared
          exact notFirst (by rw [List.head?_cons, first])
    · intro notUndeclared accepted
      rcases Option.isSome_iff_exists.mp accepted with ⟨unpacked, found⟩
      have packed := unpackKeyBytes_eq_some_iff.mp found
      refine ⟨unpacked.1, unpacked.2, (packKeyBytes_declared_iff packed).mpr ?_, packed⟩
      rcases packKeyBytes_eq_some_iff.mp packed with ⟨⟨notEmpty, short⟩, rfl⟩
      refine fun first => notUndeclared ⟨first, ?_, ?_⟩
      · rw [List.length_cons]
        omega
      · rw [List.length_cons]
        rw [maxPlainLength] at short ⊢
        omega

theorem unpackKeyBytes_undeclared :
    unpackKeyBytes [15, 0] = some (.unassigned, [0]) ∧
      ∀ header key, header.isDeclared = true → packKeyBytes header key ≠ some [15, 0] := by
  refine ⟨rfl, fun header key declared packed => ?_⟩
  exact (packKeyBytes_declared_iff packed).mp declared rfl

end PracticalCrypto.Surf
