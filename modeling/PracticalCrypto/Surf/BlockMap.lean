import Mathlib.Algebra.Order.Floor.Div
import Mathlib.Data.Set.Function
import Mathlib.Data.UInt
import Mathlib.GroupTheory.GroupAction.Ring
import PracticalCrypto.Library.BigEndian
import Mathlib.Tactic.Ring

/-!
# Counter blocks and the record-to-block map

This file embeds `SurfBlockMap` of `surf-impl/src/ssl/ThreePartyHandshake.hpp`,
which both parties use to turn a record sequence number and a position inside a
record into the 16-byte input of AES in counter mode.
-/

namespace PracticalCrypto.Surf

abbrev Block := Fin 16 → UInt8

abbrev Iv := Fin 12 → UInt8

namespace BlockMap

/-- `ctr_block`: the nonce `static_iv XOR seq` followed by the counter, both big-endian. -/
def ctrBlock (staticIv : Iv) (seq : UInt64) (counter : UInt32) : Block := fun i =>
  if inNonce : i.val < 12 then
    (if 4 ≤ i.val then (seq >>> UInt64.ofNat (8 * (11 - i.val))).toUInt8 else 0) ^^^
      staticIv ⟨i.val, inNonce⟩
  else (counter >>> UInt32.ofNat (8 * (15 - i.val))).toUInt8

/-- `RecordDims`: the sequence number and the ciphertext length of a record. -/
structure RecordDims where
  seq : UInt64
  ctLen : UInt32
deriving Repr, DecidableEq

def blocksOf (length : ℕ) : ℕ := (length + 15) / 16

/-- The loop of `resolve`, with `acc` blocks already passed. -/
def resolveFrom (acc : ℕ) : List RecordDims → ℕ → Option (UInt64 × UInt32)
  | [], _ => none
  | record :: later, index =>
      if index < acc + blocksOf record.ctLen.toNat then
        some (record.seq, UInt32.ofNat (index - acc) + 2)
      else resolveFrom (acc + blocksOf record.ctLen.toNat) later index

/-- `resolve`: the sequence number and the counter of a global block index. -/
def resolve (records : List RecordDims) (index : ℕ) : Option (UInt64 × UInt32) :=
  resolveFrom 0 records index

def totalBlocks (records : List RecordDims) : ℕ :=
  (records.map fun record => blocksOf record.ctLen.toNat).sum

section Injectivity

variable {staticIv : Iv} {seq : UInt64} {counter other : UInt32}

theorem toNat_counter_byte (counter : UInt32) (shift : ℕ) (small : shift < 32) :
    (counter >>> UInt32.ofNat shift).toUInt8.toNat = counter.toNat / 2 ^ shift % 256 := by
  have amount : (UInt32.ofNat shift).toNat = shift := by
    rw [UInt32.toNat_ofNat']
    exact Nat.mod_eq_of_lt (by omega)
  rw [UInt32.toNat_toUInt8, UInt32.toNat_shiftRight, amount, Nat.mod_eq_of_lt small,
    Nat.shiftRight_eq_div_pow]

theorem ctrBlock_counter_injective
    (same : ctrBlock staticIv seq counter = ctrBlock staticIv seq other) : counter = other := by
  apply UInt32.toNat_inj.mp
  have counterLt : counter.toNat < 256 ^ 4 := counter.toNat_lt
  refine BigEndian.eq_of_bytes_eq counterLt other.toNat_lt fun i inCounter => ?_
  have behindNonce : ¬15 - i < 12 := by omega
  have position : 15 - (15 - i) = i := by omega
  have sameByte := congrFun same ⟨15 - i, by omega⟩
  simp only [ctrBlock, behindNonce, dif_neg, not_false_eq_true, position] at sameByte
  have sameNat := congrArg UInt8.toNat sameByte
  rwa [toNat_counter_byte _ _ (by omega), toNat_counter_byte _ _ (by omega)] at sameNat

theorem toNat_seq_byte (seq : UInt64) (shift : ℕ) (small : shift < 64) :
    (seq >>> UInt64.ofNat shift).toUInt8.toNat = seq.toNat / 2 ^ shift % 256 := by
  have amount : (UInt64.ofNat shift).toNat = shift := by
    rw [UInt64.toNat_ofNat']
    exact Nat.mod_eq_of_lt (by omega)
  rw [UInt64.toNat_toUInt8, UInt64.toNat_shiftRight, amount, Nat.mod_eq_of_lt small,
    Nat.shiftRight_eq_div_pow]

theorem ctrBlock_seq_injective {otherSeq : UInt64}
    (same : ctrBlock staticIv seq counter = ctrBlock staticIv otherSeq other) : seq = otherSeq := by
  apply UInt64.toNat_inj.mp
  have seqLt : seq.toNat < 256 ^ 8 := seq.toNat_lt
  refine BigEndian.eq_of_bytes_eq seqLt otherSeq.toNat_lt fun i inSeq => ?_
  have inNonce : 11 - i < 12 := by omega
  have behindZeros : 4 ≤ 11 - i := by omega
  have position : 11 - (11 - i) = i := by omega
  have sameByte := congrFun same ⟨11 - i, by omega⟩
  simp only [ctrBlock, inNonce, dif_pos, behindZeros, if_true, position] at sameByte
  have sameNat := congrArg UInt8.toNat ((UInt8.xor_left_inj _).mp sameByte)
  rwa [toNat_seq_byte _ _ (by omega), toNat_seq_byte _ _ (by omega)] at sameNat

theorem ctrBlock_injective (staticIv : Iv) :
    Function.Injective fun block : UInt64 × UInt32 => ctrBlock staticIv block.1 block.2 := by
  rintro ⟨seq, counter⟩ ⟨otherSeq, other⟩ same
  have sameSeq : seq = otherSeq := ctrBlock_seq_injective same
  subst sameSeq
  have sameCounter : counter = other := ctrBlock_counter_injective same
  rw [sameCounter]

end Injectivity

section Resolve

variable {records : List RecordDims}

/-- The blocks of the records in their order, each with the counter that it has in its record. -/
def blocksInOrder (records : List RecordDims) : List (UInt64 × UInt32) :=
  records.flatMap fun record =>
    (List.range (record.ctLen.toNat ⌈/⌉ 16)).map fun position =>
      (record.seq, UInt32.ofNat (2 + position))

theorem blocksOf_eq (length : ℕ) : blocksOf length = length ⌈/⌉ 16 := by
  rw [blocksOf, Nat.ceilDiv_eq_add_pred_div]
  rfl

theorem length_blocksInOrder (records : List RecordDims) :
    (blocksInOrder records).length = totalBlocks records := by
  simp [blocksInOrder, totalBlocks, List.length_flatMap, blocksOf_eq]

theorem ofNat_two_add (position : ℕ) :
    UInt32.ofNat (2 + position) = UInt32.ofNat position + 2 := by
  rw [Nat.add_comm, UInt32.ofNat_add]
  rfl

/-- The loop looks up the block in the records that are left. -/
theorem resolveFrom_eq (acc position : ℕ) :
    resolveFrom acc records (acc + position) = (blocksInOrder records)[position]? := by
  induction records generalizing acc position with
  | nil => rfl
  | cons record later ih =>
      have split : blocksInOrder (record :: later) =
          ((List.range (blocksOf record.ctLen.toNat)).map fun position =>
            (record.seq, UInt32.ofNat (2 + position))) ++ blocksInOrder later := by
        rw [blocksOf_eq]
        rfl
      rw [resolveFrom, split]
      by_cases here : position < blocksOf record.ctLen.toNat
      · rw [if_pos (by omega), Nat.add_sub_cancel_left,
          List.getElem?_append_left (by simpa using here)]
        simp [here, ← ofNat_two_add]
      · have beyond : acc + position =
            acc + blocksOf record.ctLen.toNat + (position - blocksOf record.ctLen.toNat) := by
          omega
        rw [if_neg (by omega), beyond, ih, List.getElem?_append_right (by simpa using here)]
        simp

theorem resolve_eq (records : List RecordDims) (index : ℕ) :
    resolve records index = (blocksInOrder records)[index]? := by
  have found : resolveFrom 0 records (0 + index) = _ := resolveFrom_eq 0 index
  rwa [Nat.zero_add] at found

/-- An index inside the records belongs to a block of one of them. -/
theorem resolve_of_lt {index : ℕ} (inside : index < totalBlocks records) :
    ∃ record ∈ records, ∃ position < blocksOf record.ctLen.toNat,
      resolve records index = some (record.seq, UInt32.ofNat position + 2) := by
  rw [← length_blocksInOrder] at inside
  rcases List.mem_flatMap.mp (List.getElem_mem inside) with ⟨record, member, listed⟩
  rcases List.mem_map.mp listed with ⟨position, inRecord, isBlock⟩
  refine ⟨record, member, position, ?_, ?_⟩
  · rw [blocksOf_eq]
    exact List.mem_range.mp inRecord
  · rw [resolve_eq, List.getElem?_eq_getElem inside, ← ofNat_two_add, isBlock]

/-- A block of one of the records. -/
def IsBlockOf (records : List RecordDims) (block : UInt64 × UInt32) : Prop :=
  ∃ record ∈ records, block.1 = record.seq ∧
    2 ≤ block.2.toNat ∧ block.2.toNat < 2 + record.ctLen.toNat ⌈/⌉ 16

/-- The counters of a record do not overflow. -/
theorem toNat_counter {position : ℕ} {ctLen : UInt32} (inRecord : position < ctLen.toNat ⌈/⌉ 16) :
    (UInt32.ofNat (2 + position)).toNat = 2 + position := by
  have bound := ctLen.toNat_lt
  rw [← blocksOf_eq, blocksOf] at inRecord
  rw [UInt32.toNat_ofNat']
  exact Nat.mod_eq_of_lt (by omega)

theorem mem_blocksInOrder {block : UInt64 × UInt32} :
    block ∈ blocksInOrder records ↔ IsBlockOf records block := by
  simp only [blocksInOrder, List.mem_flatMap, List.mem_map, List.mem_range, IsBlockOf]
  constructor
  · rintro ⟨record, member, position, inRecord, rfl⟩
    have counter := toNat_counter inRecord
    refine ⟨record, member, rfl, ?_, ?_⟩
    · dsimp only
      omega
    · dsimp only
      omega
  · rintro ⟨record, member, sameSeq, first, last⟩
    refine ⟨record, member, block.2.toNat - 2, by omega, ?_⟩
    rw [Nat.add_sub_cancel' first, UInt32.ofNat_toNat, ← sameSeq]

theorem nodup_blocksInOrder (distinct : (records.map RecordDims.seq).Nodup) :
    (blocksInOrder records).Nodup := by
  rw [blocksInOrder, List.nodup_flatMap]
  constructor
  · intro record _
    refine List.Nodup.map_on ?_ List.nodup_range
    intro position inRecord other otherInRecord same
    have sameCounter := congrArg UInt32.toNat (Prod.mk.inj same).2
    rw [toNat_counter (List.mem_range.mp inRecord), toNat_counter (List.mem_range.mp otherInRecord)]
      at sameCounter
    omega
  · refine (List.pairwise_map.mp distinct).imp ?_
    intro record other different block inRecord inOther
    rcases List.mem_map.mp inRecord with ⟨_, _, rfl⟩
    rcases List.mem_map.mp inOther with ⟨_, _, same⟩
    exact different (Prod.mk.inj same).1.symm

/-- The block map is a bijection between the indices below the number of blocks and the blocks of
the records, in their order, and different blocks have different inputs of the cipher. -/
theorem resolve_bijective (records : List RecordDims)
    (distinct : (records.map RecordDims.seq).Nodup) :
    (∀ index, (resolve records index).isSome = true ↔ index < totalBlocks records) ∧
      Set.BijOn (resolve records) {index | index < totalBlocks records}
        (some '' {block | IsBlockOf records block}) ∧
      (List.range (totalBlocks records)).map (resolve records) =
        (blocksInOrder records).map some ∧
      ∀ staticIv, Function.Injective
        fun block : UInt64 × UInt32 => ctrBlock staticIv block.1 block.2 := by
  have looksUp : resolve records = fun index => (blocksInOrder records)[index]? :=
    funext (resolve_eq records)
  rw [looksUp, ← length_blocksInOrder]
  refine ⟨fun index => by simp, ⟨?_, ?_, ?_⟩, ?_, ctrBlock_injective⟩
  · intro index inside
    have listed := mem_blocksInOrder.mp (List.getElem_mem inside)
    exact ⟨_, listed, (List.getElem?_eq_getElem inside).symm⟩
  · intro index inside other _ same
    exact (List.getElem?_inj inside (nodup_blocksInOrder distinct)).mp same
  · rintro _ ⟨block, isBlock, rfl⟩
    rcases List.getElem_of_mem (mem_blocksInOrder.mpr isBlock) with ⟨index, inside, rfl⟩
    exact ⟨index, inside, List.getElem?_eq_getElem inside⟩
  · apply List.ext_getElem
    · simp
    · intro index inRange inBlocks
      simp

def twoRecords : List RecordDims := [⟨7, 33⟩, ⟨3, 16⟩]

theorem twoRecords_bijective :
    (twoRecords.map RecordDims.seq).Nodup ∧
      Set.BijOn (resolve twoRecords) {index | index < totalBlocks twoRecords}
        (some '' {block | IsBlockOf twoRecords block}) :=
  ⟨by decide, (resolve_bijective twoRecords (by decide)).2.1⟩

end Resolve

end BlockMap

end PracticalCrypto.Surf
