import PracticalCrypto.Library.Aes
import PracticalCrypto.Surf.Prover.Release

/-!
# The gadgets of the record circuits

This file embeds the gadgets of `surf-impl/src/2pc/DeriveCircuits.cpp` that the
circuits on records are built from: the comparison of two wire bundles, one AES
block and the Hirose commitment.

The netlist `aes128_full.txt` is a parameter. `ComputesAes` states its behaviour
as the comment above `rev_bytes128` does.
-/

namespace PracticalCrypto.Surf

open Wires

section Model

/-- `or_gate`, by De Morgan's law. -/
def orGate (a b : Bool) : Bool := !(!a && !b)

/-- `equals`. -/
def equalsGate (a b : List Bool) : Bool := !(xorWires a b).foldl orGate false

/-- `rev_bytes128`. -/
def revBytes128 (wires : List Bool) : List Bool :=
  (List.range 16).flatMap fun i => slice wires (8 * (15 - i)) 8

/-- `rev_bits128`. -/
def revBits128 (wires : List Bool) : List Bool :=
  (List.range 16).flatMap fun i => (slice wires (8 * i) 8).reverse

/-- `aes128_encrypt` over the netlist `raw`. -/
def aes128Encrypt (raw : List Bool → List Bool → List Bool) (key pt : List Bool) : List Bool :=
  revBits128 (raw (revBytes128 key) (revBytes128 pt))

/-- `hirose_commit`. -/
def hiroseCommit (raw : List Bool → List Bool → List Bool) (r b c : List Bool) : List Bool :=
  let bc := xorWires b c
  let g := aes128Encrypt raw r b
  let h := aes128Encrypt raw r bc
  xorWires g b ++ xorWires h bc

/-- The wires of a block. -/
def blockWires (block : Block) : List Bool := ofBytes (List.ofFn block)

/-- The netlist computes `bitrev(AES(byterev(key), byterev(plaintext)))`. -/
def ComputesAes (raw : List Bool → List Bool → List Bool) (aes : Block → Block → Block) : Prop :=
  ∀ key pt : Block, raw (blockWires key) (blockWires pt) =
    blockWires (bitReverse ∘ aes (key ∘ Fin.rev) (pt ∘ Fin.rev))

/-- The decoding of an output byte that repeats one bit; any other byte means a desync. -/
def repeatedBit (byte : UInt8) : Option Bool :=
  if byte = 0x00 then some false else if byte = 0xFF then some true else none

end Model

section Laws

/-- The byte of eight wires that carry the same bit. -/
def repeatedByte (bit : Bool) : UInt8 := if bit then 0xFF else 0x00

theorem replicate_eq_ofBytes (bit : Bool) : List.replicate 8 bit = ofBytes [repeatedByte bit] := by
  cases bit <;> decide

theorem repeatedBit_repeatedByte (bit : Bool) : repeatedBit (repeatedByte bit) = some bit := by
  cases bit <;> rfl

variable {raw : List Bool → List Bool → List Bool} {aes : Block → Block → Block}

theorem orGate_eq (a b : Bool) : orGate a b = (a || b) := by
  simp [orGate]

theorem foldl_orGate (bits : List Bool) (found : Bool) :
    bits.foldl orGate found = (found || bits.any id) := by
  induction bits generalizing found with
  | nil => simp
  | cons bit bits ih => simp [ih, orGate_eq, Bool.or_assoc]

theorem equalsGate_eq_decide {a b : List Bool} (sameLength : a.length = b.length) :
    equalsGate a b = decide (a = b) := by
  rw [equalsGate, foldl_orGate, Bool.false_or]
  induction a generalizing b with
  | nil =>
      cases b with
      | nil => rfl
      | cons => simp at sameLength
  | cons bit a ih =>
      cases b with
      | nil => simp at sameLength
      | cons other b =>
          have later := ih (b := b) (by simpa using sameLength)
          simp only [xorWires, List.zipWith_cons_cons, List.any_cons, id_eq, Bool.not_or] at later ⊢
          rw [later]
          cases bit <;> cases other <;> simp

theorem equalsGate_ofBytes {a b : List UInt8} (sameLength : a.length = b.length) :
    equalsGate (ofBytes a) (ofBytes b) = decide (a = b) := by
  rw [equalsGate_eq_decide (by simp [sameLength])]
  exact decide_eq_decide.mpr ofBytes_injective.eq_iff

theorem equalsGate_blockWires (a b : Block) :
    equalsGate (blockWires a) (blockWires b) = decide (a = b) := by
  rw [blockWires, blockWires, equalsGate_ofBytes (by simp)]
  exact decide_eq_decide.mpr List.ofFn_injective.eq_iff

theorem xorWires_blockWires (a b : Block) :
    xorWires (blockWires a) (blockWires b) = blockWires fun i => a i ^^^ b i := by
  rw [blockWires, blockWires, xorWires_ofBytes, ← ofFn_xor]
  rfl

theorem slice_blockWires (block : Block) (i : Fin 16) :
    slice (blockWires block) (8 * i.val) 8 = ofByte (block i) := by
  rw [blockWires, slice_ofByte _ (by simp), List.getElem_ofFn]

theorem revBytes128_blockWires (block : Block) :
    revBytes128 (blockWires block) = blockWires (block ∘ Fin.rev) := by
  apply flatMap_range_eq_ofBytes
  intro i
  have mirrored : 15 - i.val = i.rev.val := by
    rw [Fin.val_rev]
    omega
  rw [mirrored, slice_blockWires]
  rfl

theorem revBits128_blockWires (block : Block) :
    revBits128 (blockWires block) = blockWires (bitReverse ∘ block) := by
  apply flatMap_range_eq_ofBytes
  intro i
  rw [slice_blockWires, Function.comp_apply, ofByte_bitReverse]

theorem aes128Encrypt_blockWires (computes : ComputesAes raw aes) (key pt : Block) :
    aes128Encrypt raw (blockWires key) (blockWires pt) = blockWires (aes key pt) := by
  rw [aes128Encrypt, revBytes128_blockWires, revBytes128_blockWires, computes,
    revBits128_blockWires]
  congr 1
  funext i
  simp [Function.comp_def, bitReverse_bitReverse]

/-- `hirose_commit_host` with a cipher that does not fail. -/
def hiroseDigest (aes : Block → Block → Block) (r b : Block) : List UInt8 :=
  let bc : Block := fun i => b i ^^^ Prover.hiroseConstant i
  (List.ofFn fun i => aes r b i ^^^ b i) ++ List.ofFn fun i => aes r bc i ^^^ bc i

theorem hiroseCommitHost_eq (aes : Block → Block → Block) (r b : Block) :
    Prover.hiroseCommitHost (fun key pt => some (aes key pt)) r b = some (hiroseDigest aes r b) :=
  rfl

/-- The commitment on wires is the one that the host computes. -/
theorem hiroseCommit_blockWires (computes : ComputesAes raw aes) (r b : Block) :
    hiroseCommit raw (blockWires r) (blockWires b) (blockWires Prover.hiroseConstant) =
      ofBytes (hiroseDigest aes r b) := by
  simp only [hiroseCommit, xorWires_blockWires, aes128Encrypt_blockWires computes, hiroseDigest,
    ofBytes_append]
  rfl

/-- A netlist with the behaviour that `ComputesAes` states, for a given cipher. -/
def netlistOf (aes : Block → Block → Block) (key pt : List Bool) : List Bool :=
  let read : List Bool → Block := fun wires => field (toBytes 16 wires) 0 16
  blockWires (bitReverse ∘ aes (read key ∘ Fin.rev) (read pt ∘ Fin.rev))

theorem computesAes_netlistOf (aes : Block → Block → Block) : ComputesAes (netlistOf aes) aes := by
  have reads : ∀ block : Block, field (toBytes 16 (blockWires block)) 0 16 = block := by
    intro block
    apply List.ofFn_injective
    rw [blockWires, toBytes_ofBytes (by simp), ofFn_field _ (by simp), slice_all _ (by simp)]
  intro key pt
  simp only [netlistOf, reads]

end Laws

end PracticalCrypto.Surf
