import Mathlib.Data.List.Basic
import Mathlib.Tactic.Ring

/-!
# Buffers in chunks, and choices between them

A buffer that is longer than the unit of a transfer is cut into chunks, and a choice
between two such buffers becomes one choice for every chunk. Repeating the choice for
all chunks of a part selects the part as a whole.
-/

namespace PracticalCrypto.Chunks

variable {α : Type*}

/-- The first `count` chunks of a buffer. -/
def chunks (size : ℕ) : ℕ → List α → List (List α)
  | 0, _ => []
  | count + 1, buffer => buffer.take size :: chunks size count (buffer.drop size)

@[simp]
theorem length_chunks (size count : ℕ) (buffer : List α) :
    (chunks size count buffer).length = count := by
  induction count generalizing buffer with
  | zero => rfl
  | succ count ih => simp [chunks, ih]

theorem flatten_chunks {size count : ℕ} {buffer : List α} (exact : buffer.length = size * count) :
    (chunks size count buffer).flatten = buffer := by
  induction count generalizing buffer with
  | zero =>
      have empty : buffer = [] := List.length_eq_zero_iff.mp exact
      simp [chunks, empty]
  | succ count ih =>
      have rest : (buffer.drop size).length = size * count := by
        rw [List.length_drop, exact, Nat.mul_succ, Nat.add_sub_cancel]
      rw [chunks, List.flatten_cons, ih rest, List.take_append_drop]

theorem chunks_append {size count : ℕ} {front : List α} (exact : front.length = size * count)
    (more : ℕ) (back : List α) :
    chunks size (count + more) (front ++ back) =
      chunks size count front ++ chunks size more back := by
  induction count generalizing front with
  | zero =>
      have empty : front = [] := List.length_eq_zero_iff.mp exact
      simp [chunks, empty]
  | succ count ih =>
      have inFront : size ≤ front.length := by
        rw [exact, Nat.mul_succ]
        exact Nat.le_add_left _ _
      have rest : (front.drop size).length = size * count := by
        rw [List.length_drop, exact, Nat.mul_succ, Nat.add_sub_cancel]
      rw [Nat.add_right_comm, chunks, chunks, List.take_append_of_le_length inFront,
        List.drop_append_of_le_length inFront, ih rest, List.cons_append]

/-- The second entry of a pair where the choice is true, and the first one elsewhere. -/
def choose (choices : List Bool) (zeros ones : List α) : List α :=
  (choices.zip (zeros.zip ones)).map fun row => if row.1 then row.2.2 else row.2.1

theorem choose_replicate (choice : Bool) {count : ℕ} {zeros ones : List α}
    (zerosFit : zeros.length = count) (onesFit : ones.length = count) :
    choose (List.replicate count choice) zeros ones = if choice then ones else zeros := by
  induction count generalizing zeros ones with
  | zero =>
      rw [List.length_eq_zero_iff.mp zerosFit, List.length_eq_zero_iff.mp onesFit]
      simp [choose]
  | succ count ih =>
      rcases List.exists_cons_of_length_eq_add_one zerosFit with ⟨zero, laterZeros, rfl⟩
      rcases List.exists_cons_of_length_eq_add_one onesFit with ⟨one, laterOnes, rfl⟩
      have later := ih (Nat.succ.inj zerosFit) (Nat.succ.inj onesFit)
      simp only [choose, List.replicate_succ, List.zip_cons_cons, List.map_cons] at later ⊢
      rw [later]
      cases choice <;> rfl

theorem choose_append {front back : List Bool} {zeros ones moreZeros moreOnes : List α}
    (zerosFit : front.length = zeros.length) (onesFit : zeros.length = ones.length) :
    choose (front ++ back) (zeros ++ moreZeros) (ones ++ moreOnes) =
      choose front zeros ones ++ choose back moreZeros moreOnes := by
  rw [choose, List.zip_append onesFit, List.zip_append (by simp [zerosFit, onesFit]),
    List.map_append]
  rfl

end PracticalCrypto.Chunks
