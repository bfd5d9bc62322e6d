import PracticalCrypto.Frodo.FlatMatrix

/-!
# The FrodoPIR client and server

This file embeds `pir/src/utils.rs` (module `lwe`), `pir/src/offline.rs` and
`pir/src/online.rs`. As in the matrix layer, `none` is a panic of the source:
an overflowing power, a division by zero, an index past a vector.

The vectors returned by `random_ternary_vector` and the bytes returned by
`generate_seed` are drawn from the operating system, so they are arguments
here. `BaseParams.ofLwe` and `ClientParams.ofSecrets` are the parts of the two
constructors that run after the sampling.
-/

namespace PracticalCrypto.Frodo

/-- `MODULUS`: `u32::MAX as u64 + 1`. -/
def modulus : ℕ := 2 ^ 32

/-- `get_plaintext_size`: `2u32.pow(plaintext_bits as u32)`, which panics on overflow. -/
def getPlaintextSize (plaintextBits : ℕ) : Option UInt32 :=
  if plaintextBits % 2 ^ 32 < 32 then some (UInt32.ofNat (2 ^ (plaintextBits % 2 ^ 32)))
  else none

/-- `get_rounding_factor`: the quotient is truncated to 32 bits. -/
def getRoundingFactor (plaintextBits : ℕ) : Option UInt32 := do
  let size ← getPlaintextSize plaintextBits
  if size = 0 then none else some (UInt32.ofNat (modulus / size.toNat))

def getRoundingFloor (plaintextBits : ℕ) : Option UInt32 := do
  let factor ← getRoundingFactor plaintextBits
  some (factor / 2)

structure BaseParams where
  dim : ℕ
  m : ℕ
  elemSize : ℕ
  plaintextBits : ℕ
  publicSeed : Seed
  A : FlatMatrix
  H : FlatMatrix
  db : FlatMatrix
  transDb : FlatMatrix
deriving Repr, DecidableEq

namespace BaseParams

/-- `BaseParams::new` once the LWE matrix is known. -/
def ofLwe (publicSeed : Seed) (A db : FlatMatrix) (m elemSize plaintextBits dim : ℕ) :
    Option BaseParams := do
  let H ← FlatMatrix.multTranspose A db
  let transDb ← db.transpose
  some { dim, m, elemSize, plaintextBits, publicSeed, A, H, db, transDb }

def new (nextU32 : Seed → ℕ → UInt32) (publicSeed : Seed) (db : FlatMatrix)
    (m elemSize plaintextBits dim : ℕ) : Option BaseParams := do
  let A ← FlatMatrix.newFromSeed nextU32 publicSeed dim m
  ofLwe publicSeed A db m elemSize plaintextBits dim

end BaseParams

structure ClientParams where
  dim : ℕ
  m : ℕ
  plaintextBits : ℕ
  dbW : ℕ
  B : FlatMatrix
  C : FlatMatrix
deriving Repr, DecidableEq

namespace ClientParams

/-- `ClientParams::new` once `A`, `S` and `E` are known. -/
def ofSecrets (A S E H : FlatMatrix) (m dim plaintextBits dbW : ℕ) : Option ClientParams := do
  let product ← FlatMatrix.multTranspose S A
  let B ← product.add E
  let C ← FlatMatrix.multTranspose S H
  some { dim, m, plaintextBits, dbW, B, C }

/--
`ClientParams::new`. The loops extend vectors that already hold
`queries * dim` and `queries * m` zeros; `secrets k` and `errors k` are what the
`k`-th calls of `random_ternary_vector` return.
-/
def new (nextU32 : Seed → ℕ → UInt32) (secrets errors : ℕ → List UInt32)
    (m dim plaintextBits dbW : ℕ) (publicSeed : Seed) (H : FlatMatrix) (queries : ℕ) :
    Option (Except String ClientParams) :=
  if 2 ^ 52 ≤ queries then some (.error "Queries must be less than 2^52")
  else do
    let A ← FlatMatrix.newFromSeed nextU32 publicSeed dim m
    let sVec := List.replicate (queries * dim) 0 ++ (List.range queries).flatMap secrets
    let eVec := List.replicate (queries * m) 0 ++ (List.range queries).flatMap errors
    let S ← FlatMatrix.withVector sVec queries dim
    let E ← FlatMatrix.withVector eVec queries m
    let params ← ofSecrets A S E H m dim plaintextBits dbW
    some (.ok params)

end ClientParams

inductive QueryError where
  | errorQueryParamsReused
  | errorOverflownAdd
deriving Repr, DecidableEq

structure Query where
  b : List UInt32
  c : List UInt32
deriving Repr, DecidableEq

structure Response where
  c : List UInt32
deriving Repr, DecidableEq

namespace Query

/--
`Query::create`. Both rows are popped before anything is checked, so the
parameters are consumed by every call that gets past the emptiness test.
-/
def create (cp : ClientParams) (rowIndex : ℕ) :
    Option (Except QueryError Query × ClientParams) :=
  if cp.B.isEmpty || cp.C.isEmpty then some (.error .errorQueryParamsReused, cp)
  else do
    let (b, B) ← cp.B.popRow
    let (c, C) ← cp.C.popRow
    let queryIndicator ← getRoundingFactor cp.plaintextBits
    let consumed := { cp with B, C }
    match b with
    | none => some (.error .errorOverflownAdd, consumed)
    | some bRow =>
        if rowIndex < bRow.length then
          let value := bRow.getD rowIndex 0
          if value.toNat + queryIndicator.toNat < 2 ^ 32 then
            match c with
            | none => some (.error .errorOverflownAdd, consumed)
            | some cRow =>
                some (.ok ⟨bRow.set rowIndex (value + queryIndicator), cRow⟩, consumed)
          else some (.error .errorOverflownAdd, consumed)
        else some (.error .errorOverflownAdd, consumed)

/-- The parameters left after one `Query::create` call for each listed row, whatever it returned. -/
def createAll (cp : ClientParams) : List ℕ → Option ClientParams
  | [] => some cp
  | rowIndex :: later => do
      let (_, consumed) ← create cp rowIndex
      createAll consumed later

/-- One column of `Query::parse_response`: round the unmasked value to the nearest multiple. -/
def parseColumn (roundingFactor roundingFloor plaintextSize unscaledRes : UInt32) :
    Option UInt32 :=
  if roundingFactor = 0 ∨ plaintextSize = 0 then none
  else
    let scaledRes := unscaledRes / roundingFactor
    let scaledRem := unscaledRes % roundingFactor
    if roundingFloor < scaledRem then
      if scaledRes.toNat + 1 < 2 ^ 32 then some ((scaledRes + 1) % plaintextSize) else none
    else some (scaledRes % plaintextSize)

def parseResponse (self : Query) (cp : ClientParams) (response : Response) :
    Option (List UInt32) := do
  let roundingFactor ← getRoundingFactor cp.plaintextBits
  let roundingFloor ← getRoundingFloor cp.plaintextBits
  let plaintextSize ← getPlaintextSize cp.plaintextBits
  (List.range cp.dbW).mapM fun i => do
    let received ← response.c[i]?
    let unmask ← self.c[i]?
    parseColumn roundingFactor roundingFloor plaintextSize (received - unmask)

end Query

/-- `Response::create`; the `unwrap` panics on the length error. -/
def Response.create (bp : BaseParams) (query : Query) : Option Response :=
  match bp.transDb.multByVector query.b with
  | some (.ok resp) => some ⟨resp⟩
  | _ => none

section Offline

variable {p m w dim queries elemSize : ℕ} {seed : Seed} {A S E db : FlatMatrix}

theorem ofLwe_spec (aShape : A.HasShape dim m) (dbShape : db.HasShape m w) :
    ∃ bp, BaseParams.ofLwe seed A db m elemSize p dim = some bp ∧ bp.db = db ∧
      bp.H.HasShape dim w ∧
      bp.H.toMatrix dim w = A.toMatrix dim m * db.toMatrix m w ∧
      bp.transDb.HasShape w m ∧ bp.transDb.toMatrix w m = (db.toMatrix m w).transpose := by
  rcases FlatMatrix.multTranspose_spec aShape.toCovers dbShape.toCovers with
    ⟨H, computed, hShape, hMatrix⟩
  rcases FlatMatrix.transpose_spec dbShape.toCovers with ⟨t, transposed, tShape, tMatrix⟩
  refine ⟨⟨dim, m, elemSize, p, seed, A, H, db, t⟩, ?_, rfl, hShape, hMatrix, tShape, tMatrix⟩
  simp [BaseParams.ofLwe, computed, transposed]

theorem ofSecrets_spec {H : FlatMatrix} (aShape : A.HasShape dim m)
    (sCovers : S.Covers queries dim) (eCovers : E.Covers queries m) (hCovers : H.Covers dim w) :
    ∃ B C, ClientParams.ofSecrets A S E H m dim p w = some ⟨dim, m, p, w, B, C⟩ ∧
      B.HasShape queries m ∧
      B.toMatrix queries m =
        S.toMatrix queries dim * A.toMatrix dim m + E.toMatrix queries m ∧
      C.HasShape queries w ∧
      C.toMatrix queries w = S.toMatrix queries dim * H.toMatrix dim w := by
  rcases FlatMatrix.multTranspose_spec sCovers aShape.toCovers with
    ⟨product, multiplied, productShape, productMatrix⟩
  rcases FlatMatrix.add_spec productShape eCovers with ⟨B, added, bShape, bMatrix⟩
  rcases FlatMatrix.multTranspose_spec sCovers hCovers with ⟨C, masked, cShape, cMatrix⟩
  refine ⟨B, C, ?_, bShape, ?_, cShape, cMatrix⟩
  · simp [ClientParams.ofSecrets, multiplied, added, masked]
  · rw [bMatrix, productMatrix]

end Offline

end PracticalCrypto.Frodo
