import PracticalCrypto.Surf.Demo.Headers
import Mathlib.Algebra.Group.Nat.Defs
import Mathlib.Data.List.ReduceOption

/-!
# The queue and the manifest of the demo

The rounds of the demo are processes of their own. What they know of each other is in two files
of the output directory (`surf-impl/src/demo/demo.b.cpp`): the queue has a line for each asset of
the page, with its path and the reference in the page, and the manifest has a line for each
resource that has been fetched. The fields of a line are separated by tabs and not escaped.
-/

namespace PracticalCrypto.Surf.Demo

open TextSearch HttpText

section Streams

/-- `std::getline`: the text before the delimiter and what is left of the stream. It fails at the
end of the stream. -/
def getline (delimiter : UInt8) (stream : Text) : Option (Text × Text) :=
  if stream = [] then none
  else some (stream.takeWhile (· ≠ delimiter), (stream.dropWhile (· ≠ delimiter)).drop 1)

/-- The loop over the lines. Every line takes at least its end from the stream. -/
def linesLoop : ℕ → Text → List Text
  | 0, _ => []
  | rounds + 1, stream =>
      match getline 10 stream with
      | none => []
      | some (line, rest) => line :: linesLoop rounds rest

def fileLines (file : Text) : List Text := linesLoop file.length file

/-- A file with the given lines. -/
def lineText (lines : List Text) : Text := lines.flatMap (· ++ [10])

variable {delimiter : UInt8} {line rest : Text} {lines : List Text}

theorem getline_append (absent : delimiter ∉ line) (rest : Text) :
    getline delimiter (line ++ delimiter :: rest) = some (line, rest) := by
  rw [getline, if_neg (by simp), takeWhile_ne_append absent, dropWhile_ne_append absent]
  rfl

theorem getline_last (nonempty : line ≠ []) (absent : delimiter ∉ line) :
    getline delimiter line = some (line, []) := by
  rw [getline, if_neg nonempty, takeWhile_ne_of_not_mem absent, dropWhile_ne_of_not_mem absent]
  rfl

theorem not_mem_of_getline {stream : Text} (read : getline delimiter stream = some (line, rest)) :
    delimiter ∉ line ∧ line ⊆ stream ∧ rest ⊆ stream := by
  rw [getline] at read
  split at read
  case isTrue => simp at read
  case isFalse =>
    rcases Prod.mk.inj (Option.some.inj read) with ⟨rfl, rfl⟩
    refine ⟨fun inside => by simpa using List.mem_takeWhile_imp inside, ?_, ?_⟩
    · exact (List.takeWhile_prefix _).subset
    · exact List.Subset.trans (List.drop_suffix _ _).subset (List.dropWhile_suffix _).subset

theorem linesLoop_lineText {rounds : ℕ} (areLines : ∀ line ∈ lines, 10 ∉ line)
    (enough : lines.length ≤ rounds) : linesLoop rounds (lineText lines) = lines := by
  induction lines generalizing rounds with
  | nil => cases rounds <;> rfl
  | cons line lines ih =>
      rcases rounds with _ | rounds
      · simp at enough
      · have first : lineText (line :: lines) = line ++ 10 :: lineText lines := by
          simp [lineText]
        rw [linesLoop, first, getline_append (areLines line (by simp))]
        dsimp only
        rw [ih (fun line isLine => areLines line (by simp [isLine])) (by simpa using enough)]

theorem length_le_lineText (lines : List Text) : lines.length ≤ (lineText lines).length := by
  induction lines with
  | nil => simp
  | cons line lines ih =>
      simp only [lineText, List.flatMap_cons, List.length_append, List.length_cons] at ih ⊢
      omega

theorem fileLines_lineText (areLines : ∀ line ∈ lines, 10 ∉ line) :
    fileLines (lineText lines) = lines :=
  linesLoop_lineText areLines (length_le_lineText lines)

theorem not_mem_of_mem_fileLines {file : Text} (isLine : line ∈ fileLines file) : 10 ∉ line := by
  have loop (rounds : ℕ) (stream : Text) (isLine : line ∈ linesLoop rounds stream) :
      10 ∉ line := by
    induction rounds generalizing stream with
    | zero => simp [linesLoop] at isLine
    | succ rounds ih =>
        rw [linesLoop] at isLine
        cases read : getline 10 stream with
        | none => simp [read] at isLine
        | some pair =>
            rw [read] at isLine
            rcases List.mem_cons.mp isLine with rfl | later
            · exact (not_mem_of_getline read).1
            · exact ih _ later
  exact loop _ _ isLine

end Streams

section Queue

/-- A path to fetch and the reference to it in the page. -/
structure Asset where
  path : Text
  rawRef : Text
deriving DecidableEq

def writeQueue (queue : List Asset) : Text :=
  lineText (queue.map fun asset => asset.path ++ 9 :: asset.rawRef)

def readAsset (line : Text) : Option Asset :=
  (find [9] line).map fun tab => { path := line.take tab, rawRef := line.drop (tab + 1) }

def readQueue (file : Text) : List Asset := (fileLines file).filterMap readAsset

/-- The assets that are in the file, with nothing in them that separates fields or lines except
for tabs in a reference. -/
theorem plain_of_mem_readQueue {file : Text} {asset : Asset} (queued : asset ∈ readQueue file) :
    9 ∉ asset.path ∧ 10 ∉ asset.path ∧ 10 ∉ asset.rawRef := by
  rcases List.mem_filterMap.mp queued with ⟨line, isLine, read⟩
  have plain := not_mem_of_mem_fileLines isLine
  rcases Option.map_eq_some_iff.mp read with ⟨tab, found, rfl⟩
  refine ⟨?_, fun inside => plain (List.mem_of_mem_take inside),
    fun inside => plain (List.mem_of_mem_drop inside)⟩
  rw [← List.singleton_infix_iff]
  exact not_infix_take_of_find (by simp) found

theorem readQueue_writeQueue {queue : List Asset}
    (plain : ∀ asset ∈ queue, 9 ∉ asset.path ∧ 10 ∉ asset.path ∧ 10 ∉ asset.rawRef) :
    readQueue (writeQueue queue) = queue := by
  have areLines : ∀ line ∈ queue.map fun asset => asset.path ++ 9 :: asset.rawRef, 10 ∉ line := by
    intro line isLine
    rcases List.mem_map.mp isLine with ⟨asset, queued, rfl⟩
    simp [plain asset queued]
  rw [readQueue, writeQueue, fileLines_lineText areLines, List.filterMap_map]
  have read (asset : Asset) (queued : asset ∈ queue) :
      readAsset (asset.path ++ 9 :: asset.rawRef) = some asset := by
    rw [readAsset, find_singleton (plain asset queued).1]
    simp
  exact (List.filterMap_congr read).trans List.filterMap_some

theorem readQueue_writeQueue_two_assets :
    readQueue (writeQueue [⟨[47, 97], [97]⟩, ⟨[47, 98], []⟩]) = [⟨[47, 97], [97]⟩, ⟨[47, 98], []⟩] :=
  readQueue_writeQueue (by decide)

end Queue

section Manifest

/-- A resource that has been fetched, the file it is in and what it took to fetch it. -/
structure Fetched where
  path : Text
  rawRef : Text
  localFile : Text
  bytes : UInt64
  records : UInt64
  blocks : UInt64

/-- `std::isspace` in the C locale. -/
def isWhitespace (c : UInt8) : Bool := c = 32 ∨ 9 ≤ c ∧ c ≤ 13

def isDigit (c : UInt8) : Bool := 48 ≤ c ∧ c ≤ 57

/-- `std::stoul`, with `none` for the exceptions it throws: there is no number, or it is too
large. A number with a minus sign is negated as an unsigned number. -/
def stoul (text : Text) : Option UInt64 :=
  let text := text.dropWhile isWhitespace
  let negative := text.head? = some 45
  let text := if negative ∨ text.head? = some 43 then text.drop 1 else text
  let digits := text.takeWhile isDigit
  let number := digits.foldl (fun number digit => 10 * number + (digit.toNat - 48)) 0
  if digits = [] ∨ 2 ^ 64 ≤ number then none
  else some (if negative then -UInt64.ofNat number else .ofNat number)

/-- A line of the manifest. -/
def manifestLine (f : Fetched) : Text :=
  f.path ++ 9 :: (f.rawRef ++ 9 :: (f.localFile ++ 9 :: (decimal f.bytes.toNat ++
    9 :: (decimal f.records.toNat ++ 9 :: decimal f.blocks.toNat))))

def appendManifest (manifest : Text) (f : Fetched) : Text := manifest ++ manifestLine f ++ [10]

/-- A count that is missing is zero. -/
def readCount (count : Text) : Option UInt64 := if count = [] then some 0 else stoul count

/-- What a line of the manifest is read as. The outer `none` is an exception, the inner one a
line that is passed over. -/
def readEntry (line : Text) : Option (Option Fetched) :=
  match getline 9 line with
  | none => some none
  | some (path, rest) =>
      match getline 9 rest with
      | none => some none
      | some (rawRef, rest) =>
          match getline 9 rest with
          | none => some none
          | some (localFile, rest) => do
              let (bytes, rest) := (getline 9 rest).getD ([], [])
              let (records, rest) := (getline 9 rest).getD ([], [])
              let (blocks, _) := (getline 9 rest).getD ([], [])
              let bytes ← readCount bytes
              let records ← readCount records
              let blocks ← readCount blocks
              return some { path, rawRef, localFile, bytes, records, blocks }

def readManifest (file : Text) : Option (List Fetched) :=
  ((fileLines file).mapM readEntry).map List.reduceOption

theorem stoul_decimal (number : UInt64) : stoul (decimal number.toNat) = some number := by
  have digits (c : UInt8) (inside : c ∈ decimal number.toNat) : isDigit c = true := by
    simpa [isDigit, UInt8.le_iff_toNat_le] using digit_of_mem_decimal inside
  have value : (decimal number.toNat).foldl
      (fun number digit => 10 * number + (digit.toNat - 48)) 0 = number.toNat := by
    rw [decimal_eq, List.foldl_map]
    refine (List.foldl_ext _ _ 0 ?_).trans Nat.ofDigitChars_ten_toDigits
    intro sofar digit isDigit
    have bounds := toNat_of_mem_toDigits isDigit
    rw [UInt8.toNat_ofNat', Nat.mod_eq_of_lt (by omega)]
    rfl
  -- the text begins with a digit, so neither blanks nor a sign are taken off
  rcases List.exists_cons_of_ne_nil (decimal_ne_nil number.toNat) with ⟨c, rest, isText⟩
  have first := digit_of_mem_decimal (isText ▸ List.mem_cons_self : c ∈ decimal number.toNat)
  have noSpace : (decimal number.toNat).dropWhile isWhitespace = decimal number.toNat := by
    rw [isText]
    apply List.dropWhile_cons_of_neg
    simp only [isWhitespace, decide_eq_true_eq, UInt8.le_iff_toNat_le, ← UInt8.toNat_inj,
      UInt8.reduceToNat]
    omega
  have noSign : (decimal number.toNat).head? ≠ some 45 ∧
      (decimal number.toNat).head? ≠ some 43 := by
    simp only [isText, List.head?_cons, ne_eq, Option.some.injEq, ← UInt8.toNat_inj,
      UInt8.reduceToNat]
    omega
  have bound := number.toNat_lt
  simp [stoul, noSpace, noSign, List.takeWhile_eq_self_iff.mpr digits, value, decimal_ne_nil,
    Nat.not_le.mpr bound]

theorem readCount_decimal (number : UInt64) : readCount (decimal number.toNat) = some number := by
  rw [readCount, if_neg (decimal_ne_nil _), stoul_decimal]

theorem readEntry_manifestLine {f : Fetched} (path : 9 ∉ f.path) (rawRef : 9 ∉ f.rawRef)
    (localFile : 9 ∉ f.localFile) : readEntry (manifestLine f) = some (some f) := by
  have tabless (number : ℕ) : 9 ∉ decimal number := by
    intro isTab
    have digit := digit_of_mem_decimal isTab
    simp at digit
  rw [readEntry, manifestLine, getline_append path]
  dsimp only
  rw [getline_append rawRef]
  dsimp only
  rw [getline_append localFile]
  dsimp only
  rw [getline_append (tabless _), Option.getD_some, getline_append (tabless _), Option.getD_some,
    getline_last (decimal_ne_nil _) (tabless _)]
  simp [readCount_decimal]

/-- No separators in the texts of an entry. -/
def Fetched.IsPlain (f : Fetched) : Prop :=
  ∀ text ∈ [f.path, f.rawRef, f.localFile], 9 ∉ text ∧ 10 ∉ text

theorem Fetched.IsPlain.manifestLine {f : Fetched} (plain : f.IsPlain) :
    10 ∉ manifestLine f ∧ readEntry (manifestLine f) = some (some f) := by
  have endless (number : ℕ) : 10 ∉ decimal number := by
    intro isEnd
    have digit := digit_of_mem_decimal isEnd
    simp at digit
  have path := plain f.path (by simp)
  have rawRef := plain f.rawRef (by simp)
  have localFile := plain f.localFile (by simp)
  constructor
  · simp [Demo.manifestLine, path, rawRef, localFile, endless]
  · exact readEntry_manifestLine path.1 rawRef.1 localFile.1

theorem appendManifest_lineText (lines : List Text) (f : Fetched) :
    appendManifest (lineText lines) f = lineText (lines ++ [manifestLine f]) := by
  simp [appendManifest, lineText]

theorem readManifest_lineText {items : List Fetched} (plain : ∀ f ∈ items, f.IsPlain) :
    readManifest (lineText (items.map manifestLine)) = some items := by
  have areLines : ∀ line ∈ items.map manifestLine, 10 ∉ line := by
    intro line isLine
    rcases List.mem_map.mp isLine with ⟨f, isItem, rfl⟩
    exact (plain f isItem).manifestLine.1
  have entries : (items.map manifestLine).mapM readEntry = some (items.map some) := by
    clear areLines
    induction items with
    | nil => rfl
    | cons f items ih =>
        rw [List.map_cons, List.mapM_cons, (plain f (by simp)).manifestLine.2,
          ih fun other isItem => plain other (by simp [isItem])]
        rfl
  rw [readManifest, fileLines_lineText areLines, entries]
  simp [List.reduceOption]

theorem plain_of_readEntry {line : Text} {f : Fetched} (isLine : 10 ∉ line)
    (read : readEntry line = some (some f)) : 9 ∉ f.rawRef ∧ 10 ∉ f.rawRef := by
  rw [readEntry] at read
  split at read
  · simp at read
  · rename_i path rest readPath
    split at read
    · simp at read
    · rename_i rawRef rest' readRef
      have isRef : f.rawRef = rawRef := by
        split at read
        · simp at read
        · simp only [bind, Option.bind_eq_some_iff] at read
          rcases read with ⟨bytes, -, records, -, blocks, -, isEntry⟩
          simp only [pure, Option.some.injEq] at isEntry
          rw [← isEntry]
      have absent := not_mem_of_getline readRef
      rw [isRef]
      refine ⟨absent.1, fun isEnd => isLine ?_⟩
      exact (not_mem_of_getline readPath).2.2 (absent.2.1 isEnd)

/-- The references of a manifest have no separators in them, whatever is in the file. -/
theorem plain_of_readManifest {file : Text} {items : List Fetched}
    (read : readManifest file = some items) : ∀ f ∈ items, 9 ∉ f.rawRef ∧ 10 ∉ f.rawRef := by
  have entry {lines : List Text} {entries : List (Option Fetched)} {entry : Option Fetched}
      (readLines : lines.mapM readEntry = some entries) (isEntry : entry ∈ entries) :
      ∃ line ∈ lines, readEntry line = some entry := by
    induction lines generalizing entries with
    | nil => simp_all
    | cons line lines ih =>
        simp only [List.mapM_cons, bind, pure, Option.bind_eq_some_iff,
          Option.some.injEq] at readLines
        rcases readLines with ⟨first, isFirst, later, areLater, rfl⟩
        rcases List.mem_cons.mp isEntry with rfl | isLater
        · exact ⟨line, by simp, isFirst⟩
        · rcases ih areLater isLater with ⟨other, isOther, isRead⟩
          exact ⟨other, by simp [isOther], isRead⟩
  rcases Option.map_eq_some_iff.mp read with ⟨entries, readLines, rfl⟩
  intro f isItem
  rcases entry readLines (List.reduceOption_mem_iff.mp isItem) with ⟨line, isLine, isRead⟩
  exact plain_of_readEntry (not_mem_of_mem_fileLines isLine) isRead

end Manifest

end PracticalCrypto.Surf.Demo
