import Mathlib.Algebra.GroupWithZero.Nat
import Mathlib.Data.List.Basic

/-!
# Reading a stream that is cut into segments

A writer cuts a stream into segments. A reader keeps what is left of the segment
that it opened last. A request for more than that makes it open the next segment,
but never two of them, and never one above a limit. Requests that ask for the
whole stream are all served if and only if the range of each of them contains at
most one beginning of a segment and no segment is too long.
-/

namespace PracticalCrypto.Segments

variable {α : Type*}

structure Reader (α : Type*) where
  unread : List α
  segments : List (List α)

namespace Reader

def rest (reader : Reader α) : List α := reader.unread ++ reader.segments.flatten

theorem length_rest (reader : Reader α) :
    reader.rest.length = reader.unread.length + reader.segments.flatten.length :=
  List.length_append

/-- One request. -/
def read (limit size : ℕ) (reader : Reader α) : Option (List α × Reader α) :=
  if size ≤ reader.unread.length then
    some (reader.unread.take size, { reader with unread := reader.unread.drop size })
  else
    match reader.segments with
    | [] => none
    | segment :: later =>
        let missing := size - reader.unread.length
        if missing ≤ segment.length ∧ segment.length ≤ limit then
          some (reader.unread ++ segment.take missing, ⟨segment.drop missing, later⟩)
        else none

/-- One request after the other. -/
def readAll (limit : ℕ) : List ℕ → Reader α → Option (List (List α) × Reader α)
  | [], reader => some ([], reader)
  | size :: later, reader => do
      let (items, served) ← reader.read limit size
      let (chunks, final) ← readAll limit later served
      some (items :: chunks, final)

variable {limit size : ℕ} {sizes : List ℕ} {reader served : Reader α} {items : List α}
  {chunks : List (List α)}

theorem read_of_le {unread : List α} {segments : List (List α)} (enough : size ≤ unread.length) :
    read limit size ⟨unread, segments⟩ =
      some (unread.take size, ⟨unread.drop size, segments⟩) :=
  if_pos enough

theorem read_of_lt {unread segment : List α} {later : List (List α)}
    (missing : unread.length < size) :
    read limit size ⟨unread, segment :: later⟩ =
      if size - unread.length ≤ segment.length ∧ segment.length ≤ limit then
        some (unread ++ segment.take (size - unread.length),
          ⟨segment.drop (size - unread.length), later⟩)
      else none :=
  if_neg (Nat.not_le_of_lt missing)

theorem rest_of_read (read : reader.read limit size = some (items, served)) :
    reader.rest = items ++ served.rest ∧ items.length = size := by
  rcases reader with ⟨unread, segments⟩
  simp only [Reader.read] at read
  split_ifs at read with enough
  · cases read
    refine ⟨by simp [rest, ← List.append_assoc], ?_⟩
    exact List.length_take_of_le enough
  · cases segments with
    | nil => exact nomatch read
    | cons segment later =>
        simp only at read
        split_ifs at read with fits
        cases read
        constructor
        · simp only [rest, List.flatten_cons, List.append_assoc]
          rw [← List.append_assoc (segment.take _), List.take_append_drop]
        · simp only [List.length_append, List.length_take]
          omega

theorem segments_subset_of_read (read : reader.read limit size = some (items, served)) :
    served.segments ⊆ reader.segments := by
  rcases reader with ⟨unread, segments⟩
  simp only [Reader.read] at read
  split_ifs at read with enough
  · cases read
    exact List.Subset.refl _
  · cases segments with
    | nil => exact nomatch read
    | cons segment later =>
        simp only at read
        split_ifs at read
        cases read
        exact List.subset_cons_self _ _

theorem rest_of_readAll (read : reader.readAll limit sizes = some (chunks, served)) :
    reader.rest = chunks.flatten ++ served.rest ∧ chunks.flatten.length = sizes.sum := by
  induction sizes generalizing reader chunks with
  | nil =>
      cases read
      exact ⟨rfl, rfl⟩
  | cons size later ih =>
      simp only [readAll, Option.bind_eq_bind, Option.bind_eq_some_iff, Prod.exists] at read
      rcases read with ⟨items, opened, first, more, final, others, rejoined⟩
      cases rejoined
      rcases rest_of_read first with ⟨firstRest, firstLength⟩
      rcases ih others with ⟨laterRest, laterLength⟩
      constructor
      · rw [firstRest, laterRest, List.flatten_cons, List.append_assoc]
      · rw [List.flatten_cons, List.length_append, firstLength, laterLength, List.sum_cons]

theorem isSome_readAll_cons (first : reader.read limit size = some (items, served)) :
    (reader.readAll limit (size :: sizes)).isSome = (served.readAll limit sizes).isSome := by
  cases later : served.readAll limit sizes <;> simp [readAll, first, later]

theorem isSome_readAll_cons_of_none (first : reader.read limit size = none) :
    (reader.readAll limit (size :: sizes)).isSome = false := by
  simp [readAll, first]

end Reader

section Starts

/-- The offsets at which the segments begin, the first of them at `base`. -/
def starts : ℕ → List (List α) → List ℕ
  | _, [] => []
  | base, segment :: later => base :: starts (base + segment.length) later

/-- How many of the given beginnings a request covers. -/
def covered (beginnings : List ℕ) (offset size : ℕ) : ℕ :=
  beginnings.countP fun start => offset ≤ start ∧ start < offset + size

/-- Every request covers one beginning at most. -/
def CoversAtMostOne (beginnings : List ℕ) : ℕ → List ℕ → Prop
  | _, [] => True
  | offset, size :: later =>
      covered beginnings offset size ≤ 1 ∧ CoversAtMostOne beginnings (offset + size) later

instance decidableCoversAtMostOne (beginnings : List ℕ) :
    ∀ (offset : ℕ) (sizes : List ℕ), Decidable (CoversAtMostOne beginnings offset sizes)
  | _, [] => inferInstanceAs (Decidable True)
  | offset, size :: later =>
      have := decidableCoversAtMostOne beginnings (offset + size) later
      inferInstanceAs (Decidable (_ ∧ _))

variable {past : List ℕ} {base offset size limit : ℕ}

theorem le_of_mem_starts {segments : List (List α)} :
    ∀ start ∈ starts base segments, base ≤ start := by
  induction segments generalizing base with
  | nil => simp [starts]
  | cons segment later ih =>
      intro start among
      rcases List.mem_cons.mp among with rfl | among
      · exact Nat.le_refl _
      · exact Nat.le_of_add_right_le (ih start among)

theorem covered_append (first second : List ℕ) (offset size : ℕ) :
    covered (first ++ second) offset size =
      covered first offset size + covered second offset size :=
  List.countP_append

theorem covered_past (before : ∀ start ∈ past, start < offset) : covered past offset size = 0 := by
  apply List.countP_eq_zero.mpr
  intro start among
  have := before start among
  simp
  omega

theorem covered_future {segments : List (List α)} (behind : offset + size ≤ base) :
    covered (starts base segments) offset size = 0 := by
  apply List.countP_eq_zero.mpr
  intro start among
  have := le_of_mem_starts start among
  simp
  omega

theorem covered_cons {start : ℕ} (later : List ℕ) (reached : offset ≤ start)
    (inside : start < offset + size) :
    covered (start :: later) offset size = covered later offset size + 1 :=
  List.countP_cons_of_pos (by simp [reached, inside])

/-- Requests for all that is left are served exactly when they cover at most one beginning each. -/
theorem isSome_readAll_iff {reader : Reader α} {sizes : List ℕ}
    (before : ∀ start ∈ past, start < offset) (total : sizes.sum = reader.rest.length) :
    (reader.readAll limit sizes).isSome ↔
      CoversAtMostOne (past ++ starts (offset + reader.unread.length) reader.segments) offset sizes ∧
        ∀ segment ∈ reader.segments, segment.length ≤ limit := by
  rcases reader with ⟨unread, segments⟩
  induction sizes generalizing unread segments past offset with
  | nil =>
      simp only [Reader.length_rest, List.sum_nil] at total
      have empty : ∀ segment ∈ segments, segment.length ≤ limit := by
        intro segment among
        have whole := (List.sublist_flatten_of_mem among).length_le
        omega
      simp only [Reader.readAll, CoversAtMostOne, Option.isSome_some, true_and]
      exact iff_of_true trivial empty
  | cons size later ih =>
      simp only [Reader.length_rest, List.sum_cons] at total
      have beforeLater : ∀ start ∈ past, start < offset + size := fun start among =>
        Nat.lt_add_right size (before start among)
      rcases Nat.lt_or_ge unread.length size with missing | enough
      swap
      · -- Nothing is opened, and nothing that begins later is covered.
        have totalLater : later.sum = (Reader.rest ⟨unread.drop size, segments⟩).length := by
          simp only [Reader.length_rest, List.length_drop]
          omega
        have sameBase : offset + size + (unread.drop size).length = offset + unread.length := by
          simp only [List.length_drop]
          omega
        have noneCovered :
            covered (past ++ starts (offset + unread.length) segments) offset size = 0 := by
          rw [covered_append, covered_past before, covered_future (by omega)]
        rw [Reader.isSome_readAll_cons (Reader.read_of_le enough), ih beforeLater _ _ totalLater,
          sameBase]
        simp [CoversAtMostOne, noneCovered]
      cases segments with
      | nil =>
          simp only [List.flatten_nil, List.length_nil] at total
          omega
      | cons segment others =>
          simp only [List.flatten_cons, List.length_append] at total
          have inside : offset + unread.length < offset + size := by omega
          have coveredFirst (behind : List ℕ) :
              covered (past ++ (offset + unread.length) :: behind) offset size =
                covered behind offset size + 1 := by
            rw [covered_append, covered_past before, covered_cons behind (by omega) inside,
              Nat.zero_add]
          by_cases fits : size - unread.length ≤ segment.length ∧ segment.length ≤ limit
          · have read : Reader.read limit size ⟨unread, segment :: others⟩ = some _ :=
              (Reader.read_of_lt missing).trans (if_pos fits)
            have totalLater : later.sum =
                (Reader.rest ⟨segment.drop (size - unread.length), others⟩).length := by
              simp only [Reader.length_rest, List.length_drop]
              omega
            have sameBase : offset + size + (segment.drop (size - unread.length)).length =
                offset + unread.length + segment.length := by
              simp only [List.length_drop]
              omega
            have noneBehind :
                covered (starts (offset + unread.length + segment.length) others) offset size =
                  0 :=
              covered_future (by omega)
            have beforeOpened : ∀ start ∈ past ++ [offset + unread.length],
                start < offset + size :=
              List.forall_mem_append.mpr ⟨beforeLater, by simpa using inside⟩
            rw [Reader.isSome_readAll_cons read, ih beforeOpened _ _ totalLater, sameBase]
            simp [CoversAtMostOne, coveredFirst, noneBehind, starts, fits.2]
          · have read : Reader.read limit size ⟨unread, segment :: others⟩ = none :=
              (Reader.read_of_lt missing).trans (if_neg fits)
            rw [Reader.isSome_readAll_cons_of_none read]
            refine iff_of_false Bool.false_ne_true ?_
            rintro ⟨⟨one, -⟩, short⟩
            have tooMuch : unread.length + segment.length < size := by
              have segmentShort := short segment List.mem_cons_self
              omega
            cases others with
            | nil =>
                simp only [List.flatten_nil, List.length_nil] at total
                omega
            | cons next rest =>
                -- The request reaches behind the segment, where the next one begins.
                simp only [starts] at one
                rw [coveredFirst, covered_cons _ (by omega) (by omega)] at one
                omega

theorem isSome_readAll_start_iff {segments : List (List α)} {sizes : List ℕ}
    (total : sizes.sum = segments.flatten.length) :
    (Reader.readAll limit sizes ⟨[], segments⟩).isSome ↔
      CoversAtMostOne (starts 0 segments) 0 sizes ∧
        ∀ segment ∈ segments, segment.length ≤ limit := by
  have nothingPast : ∀ start ∈ ([] : List ℕ), start < 0 := nofun
  exact isSome_readAll_iff nothingPast total

end Starts

end PracticalCrypto.Segments
