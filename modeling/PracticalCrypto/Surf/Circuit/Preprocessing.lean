import Mathlib.Data.List.Basic
import PracticalCrypto.Library.EventLog

/-!
# Preprocessing and evaluation of a circuit

This file embeds the entry points of `EmpWrapperAG2PC` in
`surf-impl/src/ssl/EmpWrapperAG2PC.cpp`: the preprocessing, the evaluation and the
counter `run_times` that decides when an entry point preprocesses again. A circuit
for a single execution is preprocessed for one evaluation, and an amortised one for
its number of iterations.

What the library computes is left out. A library call may lose the connection, and a
wrapper that has lost it stays without. `NeverReused` says that preprocessed material
is evaluated at most as often as it was made for. An amortised circuit has it in every
run. A single execution returns before it counts, so that its entry point never
preprocesses again by itself.
-/

namespace PracticalCrypto.Surf

open EventLog

/-- The circuits that the builders of `EmpWrapperAG2PC` make. -/
inductive Ag2pcKind where
  | deriveTs
  | deriveRotate
  | deriveRes
  | derivePsk
  | derivePsk8
  | derivePsk0
  | deriveBinder
  | jointAes
  | gcmTag
  | gcmVfy
  | gcmVfyCommit
  | ksBatch
  | aesEnc
  | gcm
  | deriveHs256
  | deriveHs384
deriving DecidableEq, Repr

/-- What the library does with a circuit. -/
inductive Phase where
  | independent
  | dependent
  | evaluated
  | exchanged
deriving DecidableEq, Repr

/-- The state of the wrapper, with the phases so far, newest first. -/
structure Ag2pc where
  runTimes : ℕ
  ioFailed : Bool
  log : List Phase

/-- What the owner of a wrapper calls. -/
inductive Ag2pcCall where
  | doPreproc
  | execute
deriving DecidableEq, Repr

section Model

/-- The iterations of an amortised circuit. -/
def Ag2pcKind.iters : Ag2pcKind → Option ℕ
  | jointAes => some 2
  | gcm => some 4
  | gcmTag => some 8
  | aesEnc => some 4
  | gcmVfy | gcmVfyCommit => some 128
  | ksBatch => some 16
  | deriveRotate => some 2
  | deriveTs | deriveRes | derivePsk | derivePsk8 | derivePsk0 | deriveBinder | deriveHs256
  | deriveHs384 => none

/-- The number of evaluations that one preprocessing is made for. -/
def Ag2pcKind.instances (kind : Ag2pcKind) : ℕ := kind.iters.getD 1

/-- Whether the entry point of a circuit preprocesses again. -/
def Ag2pcKind.preprocessesAgain (kind : Ag2pcKind) (runTimes : ℕ) : Bool :=
  match kind.iters with
  | some iters => runTimes == iters
  | none => kind != deriveBinder && 0 < runTimes

/-- A library call; `fails` says whether the connection is lost in it. -/
def libraryCall (fails : ℕ → Bool) (phase : Phase) (circuit : Ag2pc) : Ag2pc :=
  { circuit with
    ioFailed := fails circuit.log.length
    log := phase :: circuit.log }

/-- `do_preproc_indep`. -/
def doPreprocIndep (fails : ℕ → Bool) (circuit : Ag2pc) : Ag2pc :=
  if circuit.ioFailed then circuit else libraryCall fails .independent circuit

/-- `do_preproc_dep`. -/
def doPreprocDep (fails : ℕ → Bool) (circuit : Ag2pc) : Ag2pc :=
  let circuit := { circuit with runTimes := 0 }
  if circuit.ioFailed then circuit else libraryCall fails .dependent circuit

/-- `do_preproc`. -/
def doPreproc (fails : ℕ → Bool) (circuit : Ag2pc) : Ag2pc :=
  doPreprocDep fails (doPreprocIndep fails circuit)

/-- `exec_small_internal`. The result of a single execution goes to both parties, and the function
returns at once; the result of an amortised one is exchanged and counted. -/
def execSmallInternal (fails : ℕ → Bool) (kind : Ag2pcKind) (circuit : Ag2pc) : Bool × Ag2pc :=
  if circuit.ioFailed then (false, circuit)
  else
    let circuit := libraryCall fails .evaluated circuit
    if circuit.ioFailed then (false, circuit)
    else
      match kind.iters with
      | none => (true, circuit)
      | some _ =>
          let circuit := libraryCall fails .exchanged circuit
          (true, { circuit with runTimes := circuit.runTimes + 1 })

/-- The entry point of a circuit, such as `derive_ts` or `make_tag`. -/
def executeCircuit (fails : ℕ → Bool) (kind : Ag2pcKind) (circuit : Ag2pc) : Bool × Ag2pc :=
  execSmallInternal fails kind
    (if kind.preprocessesAgain circuit.runTimes then doPreproc fails circuit else circuit)

def performCall (fails : ℕ → Bool) (kind : Ag2pcKind) (circuit : Ag2pc) : Ag2pcCall → Ag2pc
  | .doPreproc => doPreproc fails circuit
  | .execute => (executeCircuit fails kind circuit).2

/-- A wrapper after a sequence of calls. -/
def performCalls (fails : ℕ → Bool) (kind : Ag2pcKind) (circuit : Ag2pc)
    (calls : List Ag2pcCall) : Ag2pc :=
  calls.foldl (performCall fails kind) circuit

/-- A wrapper as the builders return it. -/
def newCircuit : Ag2pc := { runTimes := 0, ioFailed := false, log := [] }

end Model

section Reuse

/-- After a preprocessing and until the next one, there are at most `instances` evaluations. -/
def NeverReused (instances : ℕ) (log : List Phase) : Prop :=
  ∀ newer between older, log = newer ++ (between ++ .dependent :: older) → .dependent ∉ between →
    between.count .evaluated ≤ instances

def isDependent (phase : Phase) : Bool := phase == .dependent

/-- The evaluations since the last preprocessing. -/
def evaluations (log : List Phase) : ℕ := (since isDependent log).count .evaluated

/-- An evaluation finds material that is left. -/
def MaterialLeft (instances : ℕ) (older : List Phase) (phase : Phase) : Prop :=
  phase = .evaluated → .dependent ∈ older → evaluations older < instances

@[simp]
theorem evaluations_dependent (log : List Phase) : evaluations (.dependent :: log) = 0 := rfl

@[simp]
theorem evaluations_evaluated (log : List Phase) :
    evaluations (.evaluated :: log) = evaluations log + 1 := by
  rw [evaluations, since_cons_other rfl, List.count_cons_self]
  rfl

@[simp]
theorem evaluations_independent (log : List Phase) :
    evaluations (.independent :: log) = evaluations log := by
  rw [evaluations, since_cons_other rfl, List.count_cons_of_ne (by decide)]
  rfl

@[simp]
theorem evaluations_exchanged (log : List Phase) :
    evaluations (.exchanged :: log) = evaluations log := by
  rw [evaluations, since_cons_other rfl, List.count_cons_of_ne (by decide)]
  rfl

theorem evaluations_append {between older : List Phase} (inside : .dependent ∉ between) :
    evaluations (between ++ .dependent :: older) = between.count .evaluated := by
  induction between with
  | nil => rfl
  | cons phase between ih =>
      rcases not_or.mp (List.mem_cons.not.mp inside) with ⟨other, later⟩
      cases phase with
      | dependent => exact absurd rfl other
      | independent => simp [ih later]
      | evaluated => simp [ih later]
      | exchanged => simp [ih later]

/-- Counting at every evaluation is counting between the preprocessings. -/
theorem neverReused_iff {instances : ℕ} {log : List Phase} :
    NeverReused instances log ↔ Justified (MaterialLeft instances) log := by
  constructor
  · intro bounded
    induction log with
    | nil => exact .nil
    | cons phase log ih =>
        apply Justified.cons
        · apply ih
          intro newer between older split inside
          apply bounded (phase :: newer) between older _ inside
          rw [split, List.cons_append]
        · rintro rfl prepared
          rcases List.eq_append_cons_of_mem prepared with ⟨between, older, rfl, inside⟩
          have count := bounded [] (.evaluated :: between) older rfl (by simp [inside])
          rw [List.count_cons_self] at count
          rw [evaluations_append inside]
          omega
  · intro justified newer between older split inside
    have suffix : between ++ .dependent :: older <:+ log := ⟨newer, split.symm⟩
    have part := justified.of_suffix suffix
    clear split suffix justified
    induction between with
    | nil => simp
    | cons phase between ih =>
        rcases not_or.mp (List.mem_cons.not.mp inside) with ⟨other, later⟩
        have earlier := ih later part.tail
        rcases eq_or_ne phase .evaluated with rfl | otherPhase
        · have left : evaluations (between ++ .dependent :: older) < instances :=
            part.head rfl (by simp)
          rw [evaluations_append later] at left
          rw [List.count_cons_self]
          omega
        · rwa [List.count_cons_of_ne otherPhase]

end Reuse

section Steps

variable {fails : ℕ → Bool} {kind : Ag2pcKind} {circuit : Ag2pc}

/-- What a preprocessing leaves: a new count, and new material unless the connection is lost. -/
theorem doPreproc_spec (fails : ℕ → Bool) {instances : ℕ}
    (justified : Justified (MaterialLeft instances) circuit.log) :
    (doPreproc fails circuit).runTimes = 0 ∧
      Justified (MaterialLeft instances) (doPreproc fails circuit).log ∧
      ((doPreproc fails circuit).ioFailed = false →
        .dependent ∈ (doPreproc fails circuit).log ∧
          evaluations (doPreproc fails circuit).log = 0) := by
  have independent : Justified (MaterialLeft instances) (.independent :: circuit.log) :=
    justified.cons nofun
  simp only [doPreproc, doPreprocDep, doPreprocIndep, libraryCall]
  split_ifs with failed lost
  · exact ⟨rfl, justified, fun working => absurd failed (by simp_all)⟩
  · exact ⟨rfl, independent, fun working => absurd lost (by simp_all)⟩
  · exact ⟨rfl, independent.cons nofun, fun _ => ⟨List.mem_cons_self, rfl⟩⟩

/-- What `exec_small_internal` can do: nothing without a connection, an evaluation that is not
counted, or an evaluation with an exchange that is counted. -/
theorem execSmallInternal_cases (fails : ℕ → Bool) (kind : Ag2pcKind) (circuit : Ag2pc) :
    (circuit.ioFailed = true ∧ (execSmallInternal fails kind circuit).2 = circuit) ∨
      (circuit.ioFailed = false ∧ ∃ failed,
        (execSmallInternal fails kind circuit).2 =
          { circuit with ioFailed := failed, log := .evaluated :: circuit.log } ∧
        (failed = false → kind.iters = none)) ∨
      (circuit.ioFailed = false ∧ kind.iters ≠ none ∧ ∃ failed,
        (execSmallInternal fails kind circuit).2 =
          { runTimes := circuit.runTimes + 1, ioFailed := failed,
            log := .exchanged :: .evaluated :: circuit.log }) := by
  rcases failed : circuit.ioFailed with _ | _
  · right
    rcases lost : fails circuit.log.length with _ | _
    · rcases iterations : kind.iters with _ | iters
      · left
        exact ⟨rfl, false, by simp [execSmallInternal, libraryCall, failed, lost, iterations],
          fun _ => rfl⟩
      · right
        exact ⟨rfl, nofun, fails (circuit.log.length + 1),
          by simp [execSmallInternal, libraryCall, failed, lost, iterations]⟩
    · left
      exact ⟨rfl, true, by simp [execSmallInternal, libraryCall, failed, lost], nofun⟩
  · left
    exact ⟨rfl, by simp [execSmallInternal, failed]⟩

theorem log_suffix_doPreproc : circuit.log <:+ (doPreproc fails circuit).log := by
  simp only [doPreproc, doPreprocDep, doPreprocIndep, libraryCall]
  split_ifs with failed lost
  · exact List.suffix_rfl
  · exact List.suffix_cons _ _
  · exact ⟨[.dependent, .independent], rfl⟩

theorem log_suffix_execSmallInternal :
    circuit.log <:+ (execSmallInternal fails kind circuit).2.log := by
  rcases execSmallInternal_cases fails kind circuit with
    ⟨-, same⟩ | ⟨-, failed, evaluated, -⟩ | ⟨-, -, failed, evaluated⟩
  · simp [same]
  · rw [evaluated]
    exact List.suffix_cons _ _
  · rw [evaluated]
    exact ⟨[.exchanged, .evaluated], rfl⟩

theorem log_suffix_performCall (call : Ag2pcCall) :
    circuit.log <:+ (performCall fails kind circuit call).log := by
  cases call with
  | doPreproc => exact log_suffix_doPreproc
  | execute =>
      simp only [performCall, executeCircuit]
      split_ifs with again
      · exact log_suffix_doPreproc.trans log_suffix_execSmallInternal
      · exact log_suffix_execSmallInternal

theorem log_suffix_performCalls (calls : List Ag2pcCall) :
    circuit.log <:+ (performCalls fails kind circuit calls).log := by
  induction calls generalizing circuit with
  | nil => exact List.suffix_rfl
  | cons call calls ih => exact (log_suffix_performCall call).trans ih

theorem connected_performCall (reliable : ∀ position, fails position = false)
    (connected : circuit.ioFailed = false) (call : Ag2pcCall) :
    (performCall fails kind circuit call).ioFailed = false := by
  have preprocessed : (doPreproc fails circuit).ioFailed = false := by
    simp [doPreproc, doPreprocDep, doPreprocIndep, libraryCall, connected, reliable]
  have executed {circuit : Ag2pc} (connected : circuit.ioFailed = false) :
      (execSmallInternal fails kind circuit).2.ioFailed = false := by
    rcases iterations : kind.iters <;>
      simp [execSmallInternal, libraryCall, connected, reliable, iterations]
  cases call with
  | doPreproc => exact preprocessed
  | execute =>
      simp only [performCall, executeCircuit]
      split_ifs with again
      · exact executed preprocessed
      · exact executed connected

end Steps

section Amortised

/-- The count of an amortised circuit is the number of evaluations of its material. -/
structure AmortisedInvariant (iters : ℕ) (circuit : Ag2pc) : Prop where
  justified : Justified (MaterialLeft iters) circuit.log
  counted : circuit.ioFailed = false → evaluations circuit.log = circuit.runTimes
  bounded : circuit.runTimes ≤ iters

variable {fails : ℕ → Bool} {kind : Ag2pcKind} {circuit : Ag2pc} {iters : ℕ}

theorem AmortisedInvariant.doPreproc (invariant : AmortisedInvariant iters circuit) :
    AmortisedInvariant iters (doPreproc fails circuit) := by
  rcases doPreproc_spec fails invariant.justified with ⟨reset, justified, prepared⟩
  constructor
  · exact justified
  · intro working
    rw [reset, (prepared working).2]
  · rw [reset]
    exact Nat.zero_le iters

theorem AmortisedInvariant.execSmallInternal (amortised : kind.iters = some iters)
    (invariant : AmortisedInvariant iters circuit) (below : circuit.runTimes < iters) :
    AmortisedInvariant iters (execSmallInternal fails kind circuit).2 := by
  rcases execSmallInternal_cases fails kind circuit with
    ⟨-, same⟩ | ⟨working, failed, evaluated, single⟩ | ⟨working, -, failed, evaluated⟩
  · rw [same]
    exact invariant
  all_goals
    have left : MaterialLeft iters circuit.log .evaluated := by
      intro _ _
      rw [invariant.counted working]
      exact below
    have justified := invariant.justified.cons left
    rw [evaluated]
  · refine ⟨justified, ?_, invariant.bounded⟩
    intro stillWorking
    rw [single stillWorking] at amortised
    exact nomatch amortised
  · refine ⟨justified.cons nofun, ?_, below⟩
    intro _
    rw [evaluations_exchanged, evaluations_evaluated, invariant.counted working]

theorem AmortisedInvariant.performCall (amortised : kind.iters = some iters) (positive : 0 < iters)
    (invariant : AmortisedInvariant iters circuit) (call : Ag2pcCall) :
    AmortisedInvariant iters (performCall fails kind circuit call) := by
  cases call with
  | doPreproc => exact invariant.doPreproc
  | execute =>
      simp only [Surf.performCall, executeCircuit]
      have again : kind.preprocessesAgain circuit.runTimes = (circuit.runTimes == iters) := by
        simp [Ag2pcKind.preprocessesAgain, amortised]
      rw [again]
      split_ifs with full
      · apply invariant.doPreproc.execSmallInternal amortised
        rw [(doPreproc_spec fails invariant.justified).1]
        exact positive
      · apply invariant.execSmallInternal amortised
        have notFull : circuit.runTimes ≠ iters := by simpa using full
        exact Nat.lt_of_le_of_ne invariant.bounded notFull

theorem AmortisedInvariant.performCalls (amortised : kind.iters = some iters) (positive : 0 < iters)
    (invariant : AmortisedInvariant iters circuit) (calls : List Ag2pcCall) :
    AmortisedInvariant iters (performCalls fails kind circuit calls) := by
  induction calls generalizing circuit with
  | nil => exact invariant
  | cons call calls ih => exact ih (invariant.performCall amortised positive call)

end Amortised

section Single

/-- What the owner of a circuit has done with it. -/
inductive Stage where
  | unprepared
  | prepared
  | used
deriving DecidableEq, Repr

/-- Between two executions after a preprocessing, the owner preprocesses again. -/
def SpacedFrom : Stage → List Ag2pcCall → Prop
  | _, [] => True
  | _, .doPreproc :: calls => SpacedFrom .prepared calls
  | .unprepared, .execute :: calls => SpacedFrom .unprepared calls
  | .prepared, .execute :: calls => SpacedFrom .used calls
  | .used, .execute :: _ => False

def Spaced (calls : List Ag2pcCall) : Prop := SpacedFrom .unprepared calls

/-- What the log of a circuit that has a connection says at a stage. -/
def Stage.Describes : Stage → List Phase → Prop
  | unprepared, log => .dependent ∉ log
  | prepared, log => .dependent ∈ log ∧ evaluations log = 0
  | used, log => .dependent ∈ log ∧ evaluations log = 1

/-- A single execution is never counted. -/
structure SingleInvariant (stage : Stage) (circuit : Ag2pc) : Prop where
  justified : Justified (MaterialLeft 1) circuit.log
  uncounted : circuit.runTimes = 0
  described : circuit.ioFailed = false → stage.Describes circuit.log

variable {fails : ℕ → Bool} {kind : Ag2pcKind} {circuit : Ag2pc}

theorem SingleInvariant.doPreproc {stage : Stage} (invariant : SingleInvariant stage circuit) :
    SingleInvariant .prepared (doPreproc fails circuit) := by
  rcases doPreproc_spec fails invariant.justified with ⟨reset, justified, prepared⟩
  exact ⟨justified, reset, prepared⟩

theorem executeCircuit_of_uncounted (single : kind.iters = none) (uncounted : circuit.runTimes = 0) :
    executeCircuit fails kind circuit = execSmallInternal fails kind circuit := by
  simp [executeCircuit, Ag2pcKind.preprocessesAgain, single, uncounted]

/-- The stage after an execution. -/
def Stage.execute : Stage → Stage
  | unprepared => unprepared
  | prepared => used
  | used => used

/-- An execution before the first preprocessing, or the first one after a preprocessing. -/
theorem SingleInvariant.execute {stage : Stage} (single : kind.iters = none)
    (invariant : SingleInvariant stage circuit) (unused : stage ≠ .used) :
    SingleInvariant stage.execute (executeCircuit fails kind circuit).2 := by
  rw [executeCircuit_of_uncounted single invariant.uncounted]
  rcases execSmallInternal_cases fails kind circuit with
    ⟨failed, same⟩ | ⟨working, failed, evaluated, -⟩ | ⟨-, amortised, -⟩
  · rw [same]
    exact ⟨invariant.justified, invariant.uncounted, fun working => absurd failed (by simp [working])⟩
  · rw [evaluated]
    have described := invariant.described working
    cases stage with
    | unprepared =>
        have left : MaterialLeft 1 circuit.log .evaluated := fun _ inside => absurd inside described
        exact ⟨invariant.justified.cons left, invariant.uncounted, fun _ => by
          simpa [Stage.execute, Stage.Describes] using described⟩
    | prepared =>
        rcases described with ⟨inside, unevaluated⟩
        have left : MaterialLeft 1 circuit.log .evaluated := by
          intro _ _
          rw [unevaluated]
          exact Nat.one_pos
        exact ⟨invariant.justified.cons left, invariant.uncounted, fun _ => by
          simpa [Stage.execute, Stage.Describes, unevaluated] using inside⟩
    | used => exact absurd rfl unused
  · exact absurd single amortised

theorem SingleInvariant.performCalls {stage : Stage} (single : kind.iters = none)
    (invariant : SingleInvariant stage circuit) {calls : List Ag2pcCall}
    (spaced : SpacedFrom stage calls) :
    ∃ last, SingleInvariant last (performCalls fails kind circuit calls) := by
  induction calls generalizing circuit stage with
  | nil => exact ⟨stage, invariant⟩
  | cons call calls ih =>
      cases call with
      | doPreproc =>
          rw [SpacedFrom] at spaced
          exact ih invariant.doPreproc spaced
      | execute =>
          cases stage with
          | unprepared => exact ih (invariant.execute single nofun) spaced
          | prepared => exact ih (invariant.execute single nofun) spaced
          | used => exact False.elim spaced

/-- The second execution after a preprocessing evaluates the same material again. -/
theorem SingleInvariant.reused (single : kind.iters = none)
    (invariant : SingleInvariant .used circuit) (connected : circuit.ioFailed = false) :
    ¬ Justified (MaterialLeft 1) (executeCircuit fails kind circuit).2.log := by
  intro justified
  rw [executeCircuit_of_uncounted single invariant.uncounted] at justified
  rcases execSmallInternal_cases fails kind circuit with
    ⟨failed, -⟩ | ⟨-, failed, evaluated, -⟩ | ⟨-, amortised, -⟩
  · simp [connected] at failed
  · rw [evaluated] at justified
    rcases invariant.described connected with ⟨inside, once⟩
    have left := justified.head rfl inside
    omega
  · exact absurd single amortised

/-- Without a lost connection, only spaced calls keep the material from being used twice. -/
theorem SingleInvariant.spaced {stage : Stage} (reliable : ∀ position, fails position = false)
    (single : kind.iters = none) (invariant : SingleInvariant stage circuit)
    (connected : circuit.ioFailed = false) {calls : List Ag2pcCall}
    (justified : Justified (MaterialLeft 1) (Surf.performCalls fails kind circuit calls).log) :
    SpacedFrom stage calls := by
  induction calls generalizing circuit stage with
  | nil => cases stage <;> trivial
  | cons call calls ih =>
      have stillConnected : (Surf.performCall fails kind circuit call).ioFailed = false :=
        connected_performCall reliable connected call
      cases call with
      | doPreproc =>
          rw [SpacedFrom]
          exact ih invariant.doPreproc stillConnected justified
      | execute =>
          cases stage with
          | unprepared => exact ih (invariant.execute single nofun) stillConnected justified
          | prepared => exact ih (invariant.execute single nofun) stillConnected justified
          | used =>
              exact invariant.reused single connected
                (justified.of_suffix (log_suffix_performCalls calls))

end Single

section Runs

theorem amortisedInvariant_newCircuit (iters : ℕ) : AmortisedInvariant iters newCircuit :=
  ⟨.nil, fun _ => rfl, Nat.zero_le iters⟩

theorem singleInvariant_newCircuit : SingleInvariant .unprepared newCircuit :=
  ⟨.nil, rfl, fun _ => List.not_mem_nil⟩

theorem Ag2pcKind.iters_pos {kind : Ag2pcKind} {iters : ℕ} (amortised : kind.iters = some iters) :
    0 < iters := by
  cases kind <;> simp only [Ag2pcKind.iters, Option.some.injEq, reduceCtorEq] at amortised <;> omega

/-- An amortised circuit never uses its material more often than it was made for, whatever its
owner calls. A circuit for a single execution does not if its owner preprocesses between any two
executions, and without a lost connection only then. -/
theorem preprocessing_neverReused (kind : Ag2pcKind) (fails : ℕ → Bool) (calls : List Ag2pcCall) :
    (kind.iters.isSome ∨ Spaced calls →
      NeverReused kind.instances (performCalls fails kind newCircuit calls).log) ∧
    ((∀ position, fails position = false) →
      NeverReused kind.instances (performCalls fails kind newCircuit calls).log →
      kind.iters.isSome ∨ Spaced calls) := by
  rw [neverReused_iff, Ag2pcKind.instances]
  rcases kindOf : kind.iters with _ | iters
  · simp only [Option.isSome_none, Bool.false_eq_true, false_or, Option.getD_none]
    constructor
    · intro spaced
      rcases singleInvariant_newCircuit.performCalls kindOf spaced with ⟨last, invariant⟩
      exact invariant.justified
    · intro reliable justified
      exact singleInvariant_newCircuit.spaced reliable kindOf rfl justified
  · simp only [Option.isSome_some, true_or, true_implies, implies_true, and_true,
      Option.getD_some]
    have invariant : AmortisedInvariant iters (performCalls fails kind newCircuit calls) :=
      (amortisedInvariant_newCircuit iters).performCalls kindOf (Ag2pcKind.iters_pos kindOf) calls
    exact invariant.justified

/-- The traffic keys derived twice after one preprocessing. -/
theorem deriveTs_reused :
    ¬ NeverReused Ag2pcKind.deriveTs.instances
      (performCalls (fun _ => false) .deriveTs newCircuit [.doPreproc, .execute, .execute]).log := by
  intro bounded
  have count := bounded [] [.evaluated, .evaluated] [.independent] rfl (by decide)
  exact absurd count (by decide)

end Runs

end PracticalCrypto.Surf
