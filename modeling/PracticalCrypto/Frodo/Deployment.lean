import PracticalCrypto.Frodo.Format
import PracticalCrypto.Frodo.Masking
import PracticalCrypto.Frodo.QueryRuns
import PracticalCrypto.Frodo.Retrieval

/-!
# A FrodoPIR deployment

`main.rs` builds the database, the parameters of the server and of the client, and
then asks for an element. This file composes these parts for any number of requests
and compares them with what the system is for: a table that answers a limited number
of requests. The masks of the client are zero, so the answers have no noise, and so
the queries show the server which rows are asked for.
-/

namespace PracticalCrypto.Frodo

open Wires

section Abstract

variable {α β : Type}

def answer (table : List α) (row : ℕ) : Except QueryError α :=
  match table[row]? with
  | some value => .ok value
  | none => .error .errorOverflownAdd

/-- What a table answers to the requests for its rows, of which it grants a number. -/
def answers (table : List α) : ℕ → List ℕ → List (Except QueryError α)
  | _, [] => []
  | 0, _ :: later => .error .errorQueryParamsReused :: answers table 0 later
  | granted + 1, row :: later => answer table row :: answers table granted later

theorem map_answers (f : α → β) (table : List α) (granted : ℕ) (rows : List ℕ) :
    (answers table granted rows).map (Except.map f) = answers (table.map f) granted rows := by
  induction rows generalizing granted with
  | nil => rfl
  | cons row later ih =>
      cases granted with
      | zero =>
          rw [answers, answers, List.map_cons, ih]
          rfl
      | succ granted =>
          rw [answers, answers, List.map_cons, ih, answer, answer, List.getElem?_map]
          cases table[row]? <;> rfl

theorem filterMap_answers (table : List α) (granted : ℕ) (rows : List ℕ) :
    (answers table granted rows).filterMap Except.toOption =
      (rows.take granted).filterMap fun row => table[row]? := by
  induction rows generalizing granted with
  | nil => simp [answers]
  | cons row later ih =>
      cases granted with
      | zero => simpa [answers, Except.toOption] using ih 0
      | succ granted =>
          rw [answers, answer, List.take_succ_cons, List.filterMap_cons, List.filterMap_cons, ih]
          cases table[row]? <;> rfl

end Abstract

section Model

variable (base64 : Base64Crate) (nextU32 : Seed → ℕ → UInt32)

/-- `unwrap` of a result, which panics on an error. -/
def unwrap {ε α : Type} (result : Option (Except ε α)) : Option α :=
  result.bind Except.toOption

/-- `main` up to the first query. -/
def setUp (secrets errors : ℕ → List UInt32) (publicSeed : Seed) (vals : List String)
    (m elemSize plaintextBits dim queries : ℕ) : Option (BaseParams × ClientParams) := do
  let db ← unwrap (FlatMatrix.newFromVals base64 vals m elemSize plaintextBits).run
  let bp ← BaseParams.new nextU32 publicSeed db m elemSize plaintextBits dim
  let cp ← unwrap (ClientParams.new nextU32 secrets errors m dim plaintextBits db.cols
    bp.publicSeed bp.H queries)
  some (bp, cp)

/-- A query that was sent, and the text that came of its response. -/
structure Exchange where
  query : Query
  text : String

/-- `main` from the query on, for any row. -/
def request (bp : BaseParams) (cp : ClientParams) (rowIndex : ℕ) :
    Option (Except QueryError Exchange × ClientParams) := do
  let (created, consumed) ← Query.create cp rowIndex
  match created with
  | .error error => some (.error error, consumed)
  | .ok query => do
      let response ← Response.create bp query
      let val ← query.parseResponse consumed response
      let text ← base64FromU32Slice base64 val bp.plaintextBits bp.elemSize
      some (.ok ⟨query, text⟩, consumed)

def requestAll (bp : BaseParams) (cp : ClientParams) :
    List ℕ → Option (List (Except QueryError Exchange))
  | [] => some []
  | rowIndex :: later => do
      let (answer, consumed) ← request base64 bp cp rowIndex
      let rest ← requestAll bp consumed later
      some (answer :: rest)

/-- What comes back of an element: without a remainder its last cell is dropped. -/
def restored (elemSize plaintextBits : ℕ) (bytes : List UInt8) : List UInt8 :=
  bitsToBytesLe ((bytesToBitsLe bytes).take
    (if elemSize % plaintextBits = 0 then elemSize - plaintextBits else elemSize))

/-- The query for a row under masks that are zero. -/
def bareQuery (m w plaintextBits row : ℕ) : Query :=
  ⟨(List.replicate m 0).set row (UInt32.ofNat (2 ^ 32 / 2 ^ plaintextBits)), List.replicate w 0⟩

end Model

section Cells

theorem bitsToU32Le_lt {bits : List Bool} {cell : UInt32} (fits : bits.length ≤ 32)
    (isCell : bitsToU32Le bits = .ok cell) : cell.toNat < 2 ^ bits.length := by
  obtain ⟨bytes, four, padded, parsed⟩ := bitsToU32Le_eq fits
  cases isCell.symm.trans parsed
  apply Nat.lt_pow_two_of_testBit
  intro i high
  rw [u32FromLeBytes, UInt32.toNat_ofNat', Nat.testBit_mod_two_pow]
  by_cases inCell : i < 32
  · rw [testBit_bigEndian _ (by rw [List.length_reverse, four]; exact inCell),
      List.reverse_reverse, ← getD_ofBytes, padded, List.getD_eq_getElem?_getD,
      List.getElem?_append_right high, List.getElem?_replicate]
    split <;> simp
  · simp [inCell]

theorem cellOf_lt {plaintextBits : ℕ} (fits : plaintextBits ≤ 32) (bits : List Bool) (j : ℕ) :
    (cellOf bits plaintextBits j).toNat < 2 ^ plaintextBits := by
  have size := length_slice bits (j * plaintextBits) plaintextBits
  have short : (slice bits (j * plaintextBits) plaintextBits).length ≤ plaintextBits := by omega
  exact (bitsToU32Le_lt (short.trans fits) (bitsToU32Le_slice fits j)).trans_le
    (Nat.pow_le_pow_right (by decide) short)

end Cells

section SetUp

variable {base64 : Base64Crate} {nextU32 : Seed → ℕ → UInt32} {contents : List (List UInt8)}
  {elemSize p dim queries m w : ℕ} {bp : BaseParams} {cp : ClientParams} {db : FlatMatrix}

/-- A matrix with the cells of one element in every row. -/
structure Stores (db : FlatMatrix) (contents : List (List UInt8)) (elemSize p : ℕ) : Prop where
  shape : db.HasShape contents.length (rowWidthOf elemSize p)
  cells : ∀ i bytes, contents[i]? = some bytes →
    db.rowAt i = (List.range (rowWidthOf elemSize p)).map (cellOf (ofBytes bytes) p)

theorem newFromVals_stores (codec : base64.RoundTrips) (bitsPos : 0 < p) (fits : p ≤ 32)
    (positive : 0 < elemSize) (nonempty : 0 < contents.length)
    (sized : ∀ bytes ∈ contents, 8 * bytes.length = elemSize) :
    ∃ db, FlatMatrix.newFromVals base64 (contents.map base64.encode) contents.length elemSize p =
        pure db ∧
      Stores db contents elemSize p := by
  obtain ⟨db, returned⟩ : ∃ db, FlatMatrix.newFromVals base64 (contents.map base64.encode)
      contents.length elemSize p = pure db := by
    apply newFromVals_returns codec bitsPos fits positive nonempty
    intro i inContents
    refine ⟨contents[i], sized _ (List.getElem_mem inContents), ?_⟩
    simp [inContents]
  refine ⟨db, returned, ?_, ?_⟩
  · obtain ⟨result, rfl, widths, -⟩ := newFromVals_rows returned
    have length : result.flatten.length = contents.length * rowWidthOf elemSize p := by
      rw [List.length_flatten, widths, List.sum_replicate_nat]
    exact ⟨⟨rfl, rfl, rfl, nonempty, rowWidthOf_pos positive bitsPos, length.ge⟩, length⟩
  · intro i bytes stored
    obtain ⟨inContents, -⟩ := List.getElem?_eq_some_iff.mp stored
    have built := rowAt_newFromVals returned inContents
    simp only [indexedRow, List.getElem?_map, stored, Option.map_some,
      valueRow_eq codec fits (sized bytes (List.mem_of_getElem? stored))] at built
    exact (Except.ok.inj (Option.some.inj built)).symm

theorem base64FromU32Slice_cells (base64 : Base64Crate) (bitsPos : 0 < p) (fits : p ≤ 32)
    (positive : 0 < elemSize) {bytes : List UInt8} (size : 8 * bytes.length = elemSize) :
    base64FromU32Slice base64
        ((List.range (rowWidthOf elemSize p)).map (cellOf (ofBytes bytes) p)) p elemSize =
      some (base64.encode (restored elemSize p bytes)) := by
  have length : (ofBytes bytes).length = elemSize := by rw [length_ofBytes, size]
  have readBack := bytesFromU32Slice_cells fits bitsPos (length ▸ positive)
  rw [length, keptBits_eq] at readBack
  rw [base64FromU32Slice, readBack, restored, bytesToBitsLe_eq]
  rfl

theorem restored_of_remainder {bytes : List UInt8} (remainder : elemSize % p ≠ 0)
    (size : 8 * bytes.length = elemSize) : restored elemSize p bytes = bytes := by
  rw [restored, if_neg remainder, bytesToBitsLe_eq,
    List.take_of_length_le (by rw [length_ofBytes, size]), bitsToBytesLe_ofBytes]

theorem new_dbW {secrets errors : ℕ → List UInt32} {plaintextBits dbW : ℕ} {publicSeed : Seed}
    {H : FlatMatrix}
    (built : ClientParams.new nextU32 secrets errors m dim plaintextBits dbW publicSeed H queries =
      some (.ok cp)) : cp.dbW = dbW := by
  rw [ClientParams.new] at built
  split at built
  · cases built
  simp only [ClientParams.ofSecrets, Option.bind_eq_bind, Option.bind_eq_some_iff] at built
  obtain ⟨A, -, S, -, E, -, prepared, ⟨product, -, B, -, C, -, isPrepared⟩, isParams⟩ := built
  cases isPrepared
  cases isParams
  rfl

/-- A server with a database, and a client that has not asked for anything. -/
structure Deployed (bp : BaseParams) (cp : ClientParams) (db : FlatMatrix)
    (queries m w p elemSize : ℕ) : Prop where
  fresh : cp.Fresh queries m w
  plaintextBits : cp.plaintextBits = p
  dbW : cp.dbW = w
  unmasked : ∀ k < queries, cp.B.rowAt k = List.replicate m 0 ∧ cp.C.rowAt k = List.replicate w 0
  format : bp.plaintextBits = p ∧ bp.elemSize = elemSize
  transposed : bp.transDb.HasShape w m
  transposed_eq : bp.transDb.toMatrix w m = (db.toMatrix m w).transpose

theorem new_deployed (nextU32 : Seed → ℕ → UInt32) (secrets errors : ℕ → List UInt32)
    (publicSeed : Seed) (elemSize : ℕ) (small : p ≤ 31) (shape : db.HasShape m w) (dimPos : 0 < dim)
    (queriesPos : 1 ≤ queries) (queriesLt : queries < 2 ^ 52) :
    ∃ bp cp, BaseParams.new nextU32 publicSeed db m elemSize p dim = some bp ∧
      ClientParams.new nextU32 secrets errors m dim p db.cols bp.publicSeed bp.H queries =
        some (.ok cp) ∧
      Deployed bp cp db queries m w p elemSize := by
  obtain ⟨A, generated, aShape⟩ :=
    FlatMatrix.newFromSeed_hasShape nextU32 publicSeed dimPos shape.rows_pos
  obtain ⟨bp, served, -, hShape, -, transposed, transposedEq⟩ :
      ∃ bp, BaseParams.ofLwe publicSeed A db m elemSize p dim = some bp ∧ _ :=
    ofLwe_spec aShape shape
  obtain ⟨-, cp, -, -, prepared, unmasked⟩ := new_masked_zero (p := p) nextU32 secrets errors
    publicSeed queriesPos queriesLt shape.rows_pos dimPos hShape.toCovers
  obtain ⟨bShape, cShape, bits⟩ := new_hasShape prepared
  rw [hShape.cols_eq] at cShape
  have seed : bp.publicSeed = publicSeed ∧ bp.plaintextBits = p ∧ bp.elemSize = elemSize := by
    obtain ⟨H, -, rest⟩ := Option.bind_eq_some_iff.mp served
    obtain ⟨transDb, -, isParams⟩ := Option.bind_eq_some_iff.mp rest
    cases isParams
    exact ⟨rfl, rfl, rfl⟩
  refine ⟨bp, cp, ?_, ?_, ⟨bShape, cShape, bits.le.trans small⟩, bits, new_dbW prepared,
    unmasked, seed.2, transposed, transposedEq⟩
  · rw [BaseParams.new, generated]
    exact served
  · rw [seed.1, shape.cols_eq]
    exact prepared

theorem Deployed.create (deployed : Deployed bp cp db queries m w p elemSize) {kept : ℕ}
    (left : kept < queries) (row : ℕ) :
    Query.create (cp.remaining (kept + 1)) row =
      some (if row < m then .ok (bareQuery m w p row) else .error .errorOverflownAdd,
        cp.remaining kept) := by
  rw [Query.create_remaining_succ deployed.fresh left, deployed.plaintextBits]
  by_cases inRows : row < m
  · have zero : cp.B.entry kept row = 0 := by
      rw [← FlatMatrix.getD_rowAt (by rw [deployed.fresh.B_shape.cols_eq]; exact inRows),
        (deployed.unmasked kept left).1]
      simp [List.getD_eq_getElem?_getD, inRows]
    have noOverflow : (0 : UInt32).toNat + (UInt32.ofNat (2 ^ 32 / 2 ^ p)).toNat < 2 ^ 32 := by
      rw [UInt32.toNat_zero, Nat.zero_add]
      exact UInt32.toNat_lt _
    rw [zero, if_pos ⟨inRows, noOverflow⟩, if_pos inRows, (deployed.unmasked kept left).1,
      (deployed.unmasked kept left).2, zero_add, bareQuery]
  · rw [if_neg (fun both => inRows both.1), if_neg inRows]

/-- Without noise the response to a query decodes to the row. -/
theorem Deployed.retrieves (deployed : Deployed bp cp db queries m w p elemSize)
    (positive : 1 ≤ p) (small : p ≤ 31) (shape : db.HasShape m w) {row : ℕ} (inRows : row < m)
    (bounded : ∀ value ∈ db.rowAt row, value.toNat < 2 ^ p) (kept : ℕ) :
    ∃ response, Response.create bp (bareQuery m w p row) = some response ∧
      (bareQuery m w p row).parseResponse (cp.remaining kept) response = some (db.rowAt row) := by
  let i : Fin m := ⟨row, inRows⟩
  let factor := UInt32.ofNat (2 ^ 32 / 2 ^ p)
  have selector : (bareQuery m w p row).b = List.ofFn (Pi.single i factor) := by
    have zeros : List.replicate m (0 : UInt32) = List.ofFn fun _ : Fin m => 0 := by simp
    rw [bareQuery, zeros]
    exact ofFn_set (fun _ => 0) i factor
  have mask : (bareQuery m w p row).c = List.ofFn fun _ : Fin w => 0 := by simp [bareQuery]
  have multiplied := FlatMatrix.multByVector_spec deployed.transposed.toCovers (Pi.single i factor)
  refine ⟨⟨_⟩, by rw [Response.create, selector, multiplied], ?_⟩
  rw [FlatMatrix.rowAt_eq_ofFn shape.toCovers i] at bounded ⊢
  apply parseResponse_columns (w := w) (deployed.plaintextBits.le.trans small) deployed.dbW mask
  intro j
  have column : (bp.transDb.toMatrix w m).mulVec (Pi.single i factor) j - 0 =
      db.toMatrix m w i j * factor := by
    rw [deployed.transposed_eq, Matrix.mulVec_single, sub_zero]
    rfl
  have step : 0 < 2 ^ 32 / 2 ^ p := Nat.div_pos (Nat.pow_le_pow_right (by decide) (by omega))
    (Nat.two_pow_pos p)
  have lower : -((2 ^ 32 / 2 ^ p : ℕ) : ℤ) < 2 * 0 := by omega
  have upper : 2 * 0 ≤ ((2 ^ 32 / 2 ^ p : ℕ) : ℤ) := by omega
  have unscaled : ((db.toMatrix m w i j * factor).toNat : ℤ) =
      ((2 ^ 32 / 2 ^ p * (db.toMatrix m w i j).toNat : ℕ) + 0) % 2 ^ 32 := by
    rw [UInt32.toNat_mul, toNat_roundingFactor positive, Nat.mul_comm, add_zero]
    push_cast
    rfl
  rw [deployed.plaintextBits, column]
  exact parseColumn_recovers positive small (bounded _ (List.mem_ofFn.mpr ⟨j, rfl⟩)) lower upper
    unscaled

end SetUp

section Requests

variable {base64 : Base64Crate} {contents : List (List UInt8)} {elemSize p dim queries : ℕ}
  {bp : BaseParams} {cp : ClientParams} {db : FlatMatrix}

/-- What is exchanged for every element of the database. -/
def exchanges (base64 : Base64Crate) (contents : List (List UInt8)) (elemSize p : ℕ) :
    List Exchange :=
  contents.mapIdx fun i bytes =>
    ⟨bareQuery contents.length (rowWidthOf elemSize p) p i,
      base64.encode (restored elemSize p bytes)⟩

/-- Elements and parameters that a deployment accepts. -/
structure Admissible (base64 : Base64Crate) (contents : List (List UInt8))
    (elemSize p dim queries : ℕ) : Prop where
  codec : base64.RoundTrips
  bitsPos : 1 ≤ p
  bitsLe : p ≤ 31
  elemPos : 0 < elemSize
  nonempty : 0 < contents.length
  sized : ∀ bytes ∈ contents, 8 * bytes.length = elemSize
  dimPos : 0 < dim
  queriesPos : 1 ≤ queries
  queriesLt : queries < 2 ^ 52

theorem Deployed.request (admissible : Admissible base64 contents elemSize p dim queries)
    (deployed : Deployed bp cp db queries contents.length (rowWidthOf elemSize p) p elemSize)
    (stores : Stores db contents elemSize p) {kept : ℕ} (left : kept < queries) (row : ℕ) :
    request base64 bp (cp.remaining (kept + 1)) row =
      some (answer (exchanges base64 contents elemSize p) row, cp.remaining kept) := by
  rw [Frodo.request, deployed.create left, answer, exchanges, List.getElem?_mapIdx]
  cases stored : contents[row]? with
  | none =>
      rw [if_neg (Nat.not_lt.mpr (List.getElem?_eq_none_iff.mp stored))]
      rfl
  | some bytes =>
      obtain ⟨inRows, -⟩ := List.getElem?_eq_some_iff.mp stored
      have fits : p ≤ 32 := admissible.bitsLe.trans (by decide)
      have bounded : ∀ value ∈ db.rowAt row, value.toNat < 2 ^ p := by
        rw [stores.cells row bytes stored]
        intro value listed
        obtain ⟨j, -, rfl⟩ := List.mem_map.mp listed
        exact cellOf_lt fits (ofBytes bytes) j
      obtain ⟨response, responds, parses⟩ := deployed.retrieves admissible.bitsPos
        admissible.bitsLe stores.shape inRows bounded kept
      have text := base64FromU32Slice_cells base64 admissible.bitsPos fits admissible.elemPos
        (admissible.sized bytes (List.mem_of_getElem? stored))
      rw [← stores.cells row bytes stored] at text
      rw [if_pos inRows]
      simp only [Option.bind_eq_bind, Option.bind_some, responds, parses, deployed.format.1,
        deployed.format.2, text, Option.map_some]

theorem Deployed.requestAll (admissible : Admissible base64 contents elemSize p dim queries)
    (deployed : Deployed bp cp db queries contents.length (rowWidthOf elemSize p) p elemSize)
    (stores : Stores db contents elemSize p) {kept : ℕ} (left : kept ≤ queries) (rows : List ℕ) :
    requestAll base64 bp (cp.remaining kept) rows =
      some (answers (exchanges base64 contents elemSize p) kept rows) := by
  induction rows generalizing kept with
  | nil => rfl
  | cons row later ih =>
      cases kept with
      | zero =>
          have refused : Frodo.request base64 bp (cp.remaining 0) row =
              some (.error .errorQueryParamsReused, cp.remaining 0) := by
            rw [Frodo.request, Query.create_remaining_zero deployed.fresh.B_shape
              deployed.fresh.C_shape]
            rfl
          simp only [Frodo.requestAll, refused, ih left, answers, Option.bind_eq_bind,
            Option.bind_some]
      | succ kept =>
          simp only [Frodo.requestAll, deployed.request admissible stores left,
            ih (Nat.le_of_succ_le left), answers, Option.bind_eq_bind, Option.bind_some]

theorem setUp_exchanges (admissible : Admissible base64 contents elemSize p dim queries)
    (nextU32 : Seed → ℕ → UInt32) (secrets errors : ℕ → List UInt32) (publicSeed : Seed) :
    ∃ bp cp, setUp base64 nextU32 secrets errors publicSeed (contents.map base64.encode)
        contents.length elemSize p dim queries = some (bp, cp) ∧
      ∀ rows, requestAll base64 bp cp rows =
        some (answers (exchanges base64 contents elemSize p) queries rows) := by
  obtain ⟨db, stored, stores⟩ := newFromVals_stores admissible.codec admissible.bitsPos
    (admissible.bitsLe.trans (by decide)) admissible.elemPos admissible.nonempty admissible.sized
  obtain ⟨bp, cp, served, prepared, deployed⟩ := new_deployed nextU32 secrets errors
    publicSeed elemSize admissible.bitsLe stores.shape admissible.dimPos admissible.queriesPos
    admissible.queriesLt
  refine ⟨bp, cp, ?_, fun rows => ?_⟩
  · have database : unwrap (FlatMatrix.newFromVals base64 (contents.map base64.encode)
        contents.length elemSize p).run = some db := by
      rw [stored]
      rfl
    have client : unwrap (ClientParams.new nextU32 secrets errors contents.length dim p db.cols
        bp.publicSeed bp.H queries) = some cp := by
      rw [prepared]
      rfl
    simp only [setUp, database, served, client, Option.bind_eq_bind, Option.bind_some]
  · rw [← deployed.requestAll admissible stores le_rfl, deployed.fresh.remaining_all]

/--
A deployment is a table of its elements that answers as many requests as it was set up
for, and the elements come back as they were stored if their last cell is a short one.
-/
theorem requestAll_answers_table (admissible : Admissible base64 contents elemSize p dim queries)
    (nextU32 : Seed → ℕ → UInt32) (secrets errors : ℕ → List UInt32) (publicSeed : Seed) :
    ∃ bp cp, setUp base64 nextU32 secrets errors publicSeed (contents.map base64.encode)
        contents.length elemSize p dim queries = some (bp, cp) ∧
      ∀ rows, ∃ made, requestAll base64 bp cp rows = some made ∧
        made.map (Except.map Exchange.text) =
          answers (contents.map fun bytes => base64.encode (restored elemSize p bytes)) queries
            rows ∧
        (elemSize % p ≠ 0 → made.map (Except.map Exchange.text) =
          answers (contents.map base64.encode) queries rows) := by
  obtain ⟨bp, cp, ready, requests⟩ := setUp_exchanges admissible nextU32 secrets errors publicSeed
  have texts : (exchanges base64 contents elemSize p).map Exchange.text =
      contents.map fun bytes => base64.encode (restored elemSize p bytes) := by
    apply List.ext_getElem
    · simp [exchanges]
    · intro i _ _
      simp [exchanges]
  refine ⟨bp, cp, ready, fun rows => ⟨_, requests rows, ?_, fun remainder => ?_⟩⟩
  · rw [map_answers, texts]
  · rw [map_answers, texts]
    congr 1
    apply List.map_congr_left
    intro bytes listed
    rw [restored_of_remainder remainder (admissible.sized bytes listed)]

/-- Two elements of 24 bits in cells of 10 bits, for two queries. -/
def sampleContents : List (List UInt8) := [[1, 2, 3], [250, 0, 9]]

theorem admissible_sampleContents : Admissible standardBase64 sampleContents 24 10 2 2 :=
  ⟨standardBase64_roundTrips, by decide, by decide, by decide, by decide, by decide, by decide,
    by decide, by decide⟩

theorem sampleContents_answered :
    ∃ bp cp, setUp standardBase64 (fun _ i => UInt32.ofNat i) (fun _ => [1, 0]) (fun _ => [0, 1])
        [7] (sampleContents.map standardBase64.encode) sampleContents.length 24 10 2 2 =
          some (bp, cp) ∧
      ∀ rows, ∃ made, requestAll standardBase64 bp cp rows = some made ∧
        made.map (Except.map Exchange.text) =
          answers (sampleContents.map fun bytes => standardBase64.encode (restored 24 10 bytes)) 2
            rows ∧
        (24 % 10 ≠ 0 → made.map (Except.map Exchange.text) =
          answers (sampleContents.map standardBase64.encode) 2 rows) :=
  requestAll_answers_table admissible_sampleContents _ _ _ _

theorem findIdx_bareQuery {m w row : ℕ} (positive : 1 ≤ p) (small : p ≤ 31) (inRows : row < m) :
    (bareQuery m w p row).b.findIdx (· != 0) = row := by
  have length : row < (bareQuery m w p row).b.length := by simpa [bareQuery] using inRows
  rw [List.findIdx_eq length]
  constructor
  · simpa [bareQuery] using roundingFactor_ne_zero positive small
  · intro before earlier
    simp [bareQuery, Nat.ne_of_gt earlier]

/-- Whatever the client has sampled, the queries show the server the rows they are for. -/
theorem queries_show_rows (admissible : Admissible base64 contents elemSize p dim queries)
    (nextU32 : Seed → ℕ → UInt32) (secrets errors : ℕ → List UInt32) (publicSeed : Seed) :
    ∃ bp cp, setUp base64 nextU32 secrets errors publicSeed (contents.map base64.encode)
        contents.length elemSize p dim queries = some (bp, cp) ∧
      ∀ rows, ∃ made, requestAll base64 bp cp rows = some made ∧
        (made.filterMap Except.toOption).map (fun sent => sent.query.b.findIdx (· != 0)) =
          (rows.take queries).filter (· < contents.length) := by
  obtain ⟨bp, cp, ready, requests⟩ := setUp_exchanges admissible nextU32 secrets errors publicSeed
  refine ⟨bp, cp, ready, fun rows => ⟨_, requests rows, ?_⟩⟩
  have shown : (fun row => ((exchanges base64 contents elemSize p)[row]?).map fun sent =>
      sent.query.b.findIdx (· != 0)) = Option.guard (· < contents.length) := by
    funext row
    rw [exchanges, List.getElem?_mapIdx]
    by_cases inRows : row < contents.length
    · simp [Option.guard, inRows, findIdx_bareQuery admissible.bitsPos admissible.bitsLe inRows]
    · simp [Option.guard, inRows]
  rw [filterMap_answers, List.map_filterMap, shown, List.filterMap_eq_filter]

theorem sampleContents_rows_shown :
    ∃ bp cp, setUp standardBase64 (fun _ i => UInt32.ofNat i) (fun _ => [1, 0]) (fun _ => [0, 1])
        [7] (sampleContents.map standardBase64.encode) sampleContents.length 24 10 2 2 =
          some (bp, cp) ∧
      ∀ rows, ∃ made, requestAll standardBase64 bp cp rows = some made ∧
        (made.filterMap Except.toOption).map (fun sent => sent.query.b.findIdx (· != 0)) =
          (rows.take 2).filter (· < sampleContents.length) :=
  queries_show_rows admissible_sampleContents _ _ _ _

end Requests

end PracticalCrypto.Frodo
