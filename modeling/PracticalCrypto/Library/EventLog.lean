import Mathlib.Data.Nat.Notation

/-!
# Logs in which every event is permitted by its past

A log lists events with the newest one first. A safety property of whole runs
that says when an event may happen is a predicate `permitted older event`, and
`Justified permitted log` says that it held at every event of the log. Keeping
it is a matter of the newest event alone. `since` is the part of the log after
the last delimiter, such as the events of the current connection.
-/

namespace PracticalCrypto.EventLog

variable {ε : Type}

/-- Every event of the log is permitted by the events before it. -/
inductive Justified (permitted : List ε → ε → Prop) : List ε → Prop
  | nil : Justified permitted []
  | cons {log : List ε} {event : ε} (earlier : Justified permitted log)
      (allowed : permitted log event) : Justified permitted (event :: log)

def since (delimiter : ε → Bool) (log : List ε) : List ε :=
  log.takeWhile fun event => !delimiter event

section Justified

variable {permitted : List ε → ε → Prop} {log older : List ε} {event : ε}

theorem Justified.head (justified : Justified permitted (event :: log)) :
    permitted log event := by
  cases justified with
  | cons earlier allowed => exact allowed

theorem Justified.tail (justified : Justified permitted (event :: log)) :
    Justified permitted log := by
  cases justified with
  | cons earlier allowed => exact earlier

theorem justified_cons_iff :
    Justified permitted (event :: log) ↔ permitted log event ∧ Justified permitted log :=
  ⟨fun justified => ⟨justified.head, justified.tail⟩, fun ⟨allowed, earlier⟩ => earlier.cons allowed⟩

instance Justified.decidable [∀ older event, Decidable (permitted older event)] :
    (log : List ε) → Decidable (Justified permitted log)
  | [] => isTrue .nil
  | event :: log =>
      have := Justified.decidable log
      decidable_of_iff (permitted log event ∧ Justified permitted log) justified_cons_iff.symm

theorem Justified.of_suffix (justified : Justified permitted log) (suffix : older <:+ log) :
    Justified permitted older := by
  rcases suffix with ⟨newer, rfl⟩
  induction newer with
  | nil => exact justified
  | cons _ newer ih => exact ih justified.tail

theorem Justified.permitted_of_suffix (justified : Justified permitted log)
    (suffix : event :: older <:+ log) : permitted older event :=
  (justified.of_suffix suffix).head

theorem Justified.cons_of_imp {condition : List ε → ε → Prop}
    (earlier : Justified condition log → Justified permitted log)
    (allowed : Justified condition (event :: log) → Justified permitted log → permitted log event)
    (met : Justified condition (event :: log)) : Justified permitted (event :: log) :=
  (earlier met.tail).cons (allowed met (earlier met.tail))

end Justified

section Since

variable {delimiter : ε → Bool} {log : List ε} {event : ε}

@[simp]
theorem since_cons_delimiter (isDelimiter : delimiter event = true) :
    since delimiter (event :: log) = [] := by
  simp [since, isDelimiter]

@[simp]
theorem since_cons_other (isOther : delimiter event = false) :
    since delimiter (event :: log) = event :: since delimiter log := by
  simp [since, isOther]

/-- An event of the current part, with what came after it and before it. -/
theorem exists_split_of_mem_since (member : event ∈ since delimiter log) :
    ∃ newer older, log = newer ++ event :: older ∧
      (∀ other ∈ newer, delimiter other = false) ∧
      since delimiter log = newer ++ event :: since delimiter older := by
  induction log with
  | nil => cases member
  | cons head tail ih =>
      rcases isDelimiter : delimiter head with _ | _
      · rw [since_cons_other isDelimiter] at member ⊢
        rcases List.mem_cons.mp member with rfl | inTail
        · exact ⟨[], tail, rfl, by simp, rfl⟩
        · rcases ih inTail with ⟨newer, older, split, others, sinceSplit⟩
          refine ⟨head :: newer, older, by rw [split]; rfl, ?_, by rw [sinceSplit]; rfl⟩
          intro other inNewer
          rcases List.mem_cons.mp inNewer with rfl | inRest
          · exact isDelimiter
          · exact others other inRest
      · rw [since_cons_delimiter isDelimiter] at member
        cases member

/-- An event that left the finer part of the log is separated from it by a delimiter. -/
theorem exists_delimiter_of_not_mem {coarse : ε → Bool}
    (member : event ∈ since coarse log) (absent : event ∉ since delimiter log) :
    ∃ separator older, log = since delimiter log ++ separator :: older ∧
      delimiter separator = true ∧ coarse separator = false := by
  induction log with
  | nil => cases member
  | cons head tail ih =>
      have coarseHead : coarse head = false := by
        rcases isCoarse : coarse head with _ | _
        · rfl
        · rw [since_cons_delimiter isCoarse] at member
          cases member
      rcases isDelimiter : delimiter head with _ | _
      · rw [since_cons_other isDelimiter] at absent ⊢
        rw [since_cons_other coarseHead] at member
        rcases List.mem_cons.mp member with rfl | inTail
        · exact absurd List.mem_cons_self absent
        · have absentTail := fun inSince => absent (List.mem_cons_of_mem _ inSince)
          rcases ih inTail absentTail with ⟨separator, older, split, separates, notCoarse⟩
          exact ⟨separator, older, by rw [List.cons_append, ← split], separates, notCoarse⟩
      · rw [since_cons_delimiter isDelimiter]
        exact ⟨head, tail, rfl, isDelimiter, coarseHead⟩

end Since

end PracticalCrypto.EventLog
