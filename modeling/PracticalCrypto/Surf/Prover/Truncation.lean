import PracticalCrypto.Surf.Prover.ReleasedData

/-!
# Releases of complete responses

The prover reads from the origin until the connection is closed, which anyone on
the path can do. A release that asks for it succeeds only if the last captured
record is the `close_notify` of the origin and no record before it is one. The
three releases check this separately, one of them across calls.
-/

namespace PracticalCrypto.Surf.Prover

open Handler

variable {env : Environment} {ssl : Ssl}

/-- The records from `start` to the last of `total` were opened, and only the last ends the stream. -/
structure EndsStream (start total : ℕ) (opened : List (ℕ × Bytes)) : Prop where
  every : opened.map Prod.fst = List.range' start (total - start)
  last : ∃ plaintext, opened.getLast? = some (total - 1, plaintext) ∧ CloseNotify plaintext
  before : ∀ entry ∈ opened.dropLast, ¬CloseNotify entry.2

theorem Terminated.endsStream {start total : ℕ} {plaintexts : List Bytes}
    (terminated : Terminated true plaintexts) (complete : plaintexts.length = total - start) :
    EndsStream start total ((List.range' start (total - start)).zip plaintexts) := by
  rcases terminated.ends rfl with ⟨last, isLast, closes⟩
  rcases List.getLast?_eq_some_iff.mp isLast with ⟨earlier, rfl⟩
  rw [List.length_append, List.length_singleton] at complete
  have zipped : (List.range' start (total - start)).zip (earlier ++ [last]) =
      (List.range' start earlier.length).zip earlier ++ [(total - 1, last)] := by
    have lastIndex : start + 1 * earlier.length = total - 1 := by omega
    rw [← complete, List.range'_concat, List.zip_append List.length_range', lastIndex]
    rfl
  rw [zipped]
  refine ⟨?_, ⟨last, List.getLast?_concat, surfIsCloseNotify_iff.mp closes⟩, ?_⟩
  · rw [← zipped]
    refine List.map_fst_zip ?_
    simp [complete]
  · rw [List.dropLast_concat]
    rintro ⟨recordIndex, plaintext⟩ member
    have isEarlier : plaintext ∈ (earlier ++ [last]).dropLast := by
      rw [List.dropLast_concat]
      exact (List.of_mem_zip member).2
    rw [← surfIsCloseNotify_iff, terminated.before plaintext isEarlier]
    exact Bool.false_ne_true

section Specifications

theorem map_fst_mark (plaintexts : List Bytes) (mark : Bool) :
    (plaintexts.map (·, mark)).map Prod.fst = plaintexts := by
  rw [List.map_map]
  exact List.map_id' plaintexts

theorem map_fst_markBoundary (plaintexts : List Bytes) :
    (markBoundary plaintexts).map Prod.fst = plaintexts := by
  rw [markBoundary, List.map_append, map_fst_mark, map_fst_mark]
  rcases List.eq_nil_or_concat plaintexts with rfl | ⟨earlier, last, rfl⟩
  · rfl
  · simp

theorem range'_cut {start stop n : ℕ} (notBefore : start ≤ stop) (within : stop ≤ n) :
    List.range' start (n - start) =
      List.range' start (stop - start) ++ List.range' stop (n - stop) := by
  have joined := List.range'_append_1 (s := start) (m := stop - start) (n := n - stop)
  have next : start + (stop - start) = stop := by omega
  have total : stop - start + (n - stop) = n - start := by omega
  rw [next, total] at joined
  exact joined.symm

theorem releaseEpochs_spec (n fuel start : ℕ) (marked : List (Bytes × Bool)) (within : start ≤ n) :
    Ensures (releaseEpochs env n fuel start marked)
      (fun result after => ∃ plaintexts,
        result.map Prod.fst = marked.map Prod.fst ++ plaintexts ∧
        plaintexts.length = n - start ∧
        after.opened = ssl.opened ++ (List.range' start (n - start)).zip plaintexts)
      ssl := by
  induction fuel generalizing start marked ssl with
  | zero => exact Ensures.fail
  | succ fuel ih =>
      refine Ensures.modify_bind ?_
      refine Ensures.silent_bind Ssl.history keeps_surfSendKeyCommitment
        fun _ committed sameCommitted => ?_
      refine Ensures.bind fun stop verified ended => ?_
      have bounds := ensures_verifyUntilRejected _ _ _ _ ended
      have sameVerified : Ssl.history verified = Ssl.history committed :=
        Silent.of_returned (keeps_verifyUntilRejected _ _) ended
      refine Ensures.require_bind fun progress => ?_
      refine Ensures.silent_bind Ssl.history keeps_surfReleaseEpochKey
        fun _ released sameReleased => ?_
      have sameOpened : released.opened = ssl.opened :=
        congrArg History.opened ((sameReleased.trans sameVerified).trans sameCommitted)
      refine Ensures.bind ((ensures_openRecords _).mono ?_)
      rintro plaintexts _ ⟨_, lengths, rfl⟩
      rw [List.length_range'] at lengths
      refine Ensures.ite (fun isEnd => Ensures.pure ?_) fun notEnd => ?_
      · subst isEnd
        refine ⟨plaintexts, ?_, lengths, ?_⟩
        · rw [List.map_append, map_fst_mark]
        · rw [← sameOpened]
      · -- neither the rotation nor the new sequence numbers touch what was opened
        refine Ensures.require_bind fun _ => ?_
        refine Ensures.silent_bind Ssl.history keeps_rotateServerKeys fun _ rotated sameRotated => ?_
        refine Ensures.silent_bind Ssl.history (silent_renumber stop)
          fun _ renumbered sameRenumbered => ?_
        refine (ih stop _ (by omega)).mono ?_
        rintro result after ⟨later, results, laterLengths, history⟩
        have openedBefore : renumbered.opened =
            released.opened ++ (List.range' start (stop - start)).zip plaintexts :=
          congrArg History.opened (sameRenumbered.trans sameRotated)
        have cut := range'_cut (n := n) bounds.1 (by omega)
        refine ⟨plaintexts ++ later, ?_, ?_, ?_⟩
        · rw [results, List.map_append, map_fst_markBoundary, List.append_assoc]
        · rw [List.length_append, lengths, laterLengths]
          omega
        · rw [history, openedBefore, sameOpened, cut, List.zip_append, List.append_assoc]
          rw [List.length_range', lengths]

theorem rotateSurfRelease_spec (requireCloseNotify : Bool) :
    Ensures (rotateSurfRelease env requireCloseNotify)
      (fun out after => ∃ plaintexts, out = plaintexts.flatMap applicationBytes ∧
        plaintexts.length = ssl.surfRecords.length ∧
        after.opened = ssl.opened ++ (List.range ssl.surfRecords.length).zip plaintexts ∧
        Terminated requireCloseNotify plaintexts)
      ssl := by
  refine Ensures.get_bind (Ensures.require_bind fun _ => ?_)
  refine Ensures.bind ((releaseEpochs_spec _ _ 0 [] (Nat.zero_le _)).mono ?_)
  rintro marked released ⟨plaintexts, results, lengths, history⟩
  rw [Nat.sub_zero] at lengths history
  refine Ensures.modify_bind ?_
  refine Ensures.bind ((ensures_assemble requireCloseNotify _).mono ?_)
  rintro _ _ ⟨rfl, rfl, terminated⟩
  rw [results] at terminated
  refine Ensures.silent_bind Ssl.history (keeps_forEach keeps_replay _)
    fun _ replayed sameReplayed => Ensures.pure ?_
  refine ⟨plaintexts, by rw [results]; rfl, lengths, ?_, terminated⟩
  rw [List.range_eq_range', ← history]
  exact congrArg History.opened sameReplayed

theorem ensures_closeEpoch (n : ℕ) (plaintexts : List Bytes) :
    Ensures (closeEpoch env n plaintexts)
      (fun _ after => after.opened = ssl.opened ∧
        after.surfRecords.length = ssl.surfRecords.length ∧ after.surfEpochStart = n) ssl := by
  refine Ensures.silent_bind Ssl.history keeps_rotateServerKeys fun _ rotated same => ?_
  apply Ensures.modify
  exact ⟨congrArg History.opened same, congrArg History.captured same, rfl⟩

/-- The call opens the records of the open epoch and hands out their application data. -/
theorem ensures_rotateSurfReleaseEpoch (finalEpoch : Bool) :
    Ensures (rotateSurfReleaseEpoch env finalEpoch)
      (fun out after => ∃ plaintexts,
        plaintexts.length = ssl.surfRecords.length - ssl.surfEpochStart ∧
        after.opened = ssl.opened ++
          (List.range' ssl.surfEpochStart (ssl.surfRecords.length - ssl.surfEpochStart)).zip
            plaintexts ∧
        out = plaintexts.flatMap applicationBytes ∧
        (∃ last ∈ plaintexts.getLast?, endsEpoch finalEpoch last = true) ∧
        (∀ plaintext ∈ plaintexts.dropLast, surfIsCloseNotify plaintext = false) ∧
        (finalEpoch = false → after.surfRecords.length = ssl.surfRecords.length ∧
          after.surfEpochStart = ssl.surfRecords.length))
      ssl := by
  refine Ensures.get_bind (Ensures.require_bind fun _ => Ensures.require_bind fun _ => ?_)
  refine Ensures.modify_bind ?_
  refine Ensures.silent_bind Ssl.history keeps_surfSendKeyCommitment
    fun _ _ sameCommitted => ?_
  refine Ensures.silent_bind Ssl.history (keeps_forEach keeps_verifyInEpoch _)
    fun _ _ sameVerified => ?_
  refine Ensures.silent_bind Ssl.history keeps_surfReleaseEpochKey
    fun _ released sameReleased => ?_
  have same : released.history = ssl.history :=
    (sameReleased.trans sameVerified).trans sameCommitted
  refine Ensures.bind ((ensures_openRecords _).mono ?_)
  rintro plaintexts _ ⟨_, lengths, rfl⟩
  rw [List.length_range'] at lengths
  refine Ensures.require_bind fun ends => Ensures.require_bind fun before => ?_
  refine Ensures.silent_bind Ssl.history (keeps_forEach keeps_replay _)
    fun _ replayed sameReplayed => ?_
  have opened : replayed.opened = ssl.opened ++ (List.range' ssl.surfEpochStart
      (ssl.surfRecords.length - ssl.surfEpochStart)).zip plaintexts := by
    rw [← show released.opened = ssl.opened from congrArg History.opened same]
    exact congrArg History.opened sameReplayed
  have captured : replayed.surfRecords.length = ssl.surfRecords.length :=
    (congrArg History.captured sameReplayed).trans (congrArg History.captured same)
  apply Ensures.ite
  · intro isFinal
    apply Ensures.pure
    exact ⟨plaintexts, lengths, opened, rfl, ends, before, by simp [isFinal]⟩
  · intro _
    refine Ensures.bind ((ensures_closeEpoch _ plaintexts).mono ?_)
    rintro _ _ ⟨openedSame, capturedSame, start⟩
    apply Ensures.pure
    exact ⟨plaintexts, lengths, openedSame.trans opened, rfl, ends, before, fun _ =>
      ⟨capturedSame.trans captured, start⟩⟩

end Specifications

/-- The calls that promise a complete response. -/
def Call.closes : Call → Bool
  | .captureRecord _ => false
  | .trueSurfRelease requireCloseNotify => requireCloseNotify
  | .rotateSurfRelease requireCloseNotify => requireCloseNotify
  | .rotateSurfReleaseEpoch finalEpoch => finalEpoch

def Call.firstRecord (ssl : Ssl) : Call → ℕ
  | .rotateSurfReleaseEpoch _ => ssl.surfEpochStart
  | _ => 0

theorem perform_spec {call : Call} (closes : call.closes = true) :
    Ensures (perform env call)
      (fun _ after => ∃ opened, after.opened = ssl.opened ++ opened ∧
        EndsStream (call.firstRecord ssl) ssl.surfRecords.length opened)
      ssl := by
  cases call with
  | captureRecord body => cases closes
  | trueSurfRelease requireCloseNotify =>
      cases closes
      refine (trueSurfRelease_spec true).mono ?_
      rintro _ after ⟨_, plaintexts, _, _, lengths, history, _, terminated⟩
      rw [List.range_eq_range'] at history
      exact ⟨_, history, terminated.endsStream lengths⟩
  | rotateSurfRelease requireCloseNotify =>
      cases closes
      refine (rotateSurfRelease_spec true).mono ?_
      rintro _ after ⟨plaintexts, _, lengths, history, terminated⟩
      rw [List.range_eq_range'] at history
      exact ⟨_, history, terminated.endsStream lengths⟩
  | rotateSurfReleaseEpoch finalEpoch =>
      cases closes
      refine (ensures_rotateSurfReleaseEpoch true).mono ?_
      rintro _ after ⟨plaintexts, lengths, history, _, ends, before, _⟩
      have terminated : Terminated true plaintexts := ⟨before, fun _ => ends⟩
      exact ⟨_, history, terminated.endsStream lengths⟩

/-- A connection before its first release. -/
structure Ssl.Unreleased (ssl : Ssl) : Prop where
  epochStart_eq : ssl.surfEpochStart = 0
  closedEpochs_eq : ssl.closedEpochs = []

theorem Ssl.Unreleased.invariant (unreleased : ssl.Unreleased) :
    History.Invariant ssl.history := by
  refine ⟨?_, ?_, ?_⟩
  · change ssl.surfEpochStart ≤ _
    rw [unreleased.epochStart_eq]
    exact Nat.zero_le _
  · change ssl.closedEpochs.flatten.length = ssl.surfEpochStart
    rw [unreleased.closedEpochs_eq, unreleased.epochStart_eq]
    rfl
  · change ∀ plaintext ∈ ssl.closedEpochs.flatten, _
    rw [unreleased.closedEpochs_eq]
    exact nofun

/--
Truncation resistance: after any captures and releases, whatever they returned, a
release that promises a complete response and succeeds has opened every record
that was not released before, up to the last captured one. That one is a
`close_notify`, and no other record is, nor is any of the epochs closed before,
which hold all the records in front of the open epoch.
-/
theorem perform_endsStream (env : Environment) (calls : List Call) {ssl after : Ssl} {call : Call}
    {out : Bytes} (unreleased : ssl.Unreleased) (closes : call.closes = true)
    (released : perform env call (performAll env calls ssl) = (.returned out, after)) :
    ∃ opened, after.opened = (performAll env calls ssl).opened ++ opened ∧
      EndsStream (call.firstRecord (performAll env calls ssl))
        (performAll env calls ssl).surfRecords.length opened ∧
      (performAll env calls ssl).closedEpochs.flatten.length =
        (performAll env calls ssl).surfEpochStart ∧
      ∀ plaintext ∈ (performAll env calls ssl).closedEpochs.flatten, ¬CloseNotify plaintext := by
  rcases perform_spec closes _ _ released with ⟨opened, history, ends⟩
  have inv := performAll_invariant env calls unreleased.invariant
  exact ⟨opened, history, ends, inv.covered, inv.going⟩

/-- A record whose ciphertext is this plaintext, with a tag of zeros. -/
def plainBody (plaintext : Bytes) : Bytes := plaintext ++ List.replicate 16 0

/-- A `KeyUpdate` is captured and its epoch released, and the padded end of the stream captured. -/
def twoEpochs : List Call :=
  [.captureRecord (plainBody [24, 0, 0, 1, 0, 22]), .rotateSurfReleaseEpoch false,
    .captureRecord (plainBody [1, 0, 21, 0])]

theorem twoEpochs_endsStream :
    (perform Environment.cooperative (.rotateSurfReleaseEpoch true)
        (performAll Environment.cooperative twoEpochs (Ssl.initial .rotate))).1 = .returned [] ∧
      ∃ opened, EndsStream 1 2 opened := by
  have returned : (perform Environment.cooperative (.rotateSurfReleaseEpoch true)
      (performAll Environment.cooperative twoEpochs (Ssl.initial .rotate))).1 =
        .returned [] := by decide +kernel
  have start : (performAll Environment.cooperative twoEpochs
      (Ssl.initial .rotate)).surfEpochStart = 1 := by decide +kernel
  have total : (performAll Environment.cooperative twoEpochs
      (Ssl.initial .rotate)).surfRecords.length = 2 := by decide +kernel
  refine ⟨returned, ?_⟩
  rcases ended : perform Environment.cooperative (.rotateSurfReleaseEpoch true)
    (performAll Environment.cooperative twoEpochs (Ssl.initial .rotate)) with ⟨outcome, after⟩
  rw [ended] at returned
  cases returned
  rcases perform_endsStream _ _ ⟨rfl, rfl⟩ rfl ended with ⟨opened, _, ends, _⟩
  rw [total, Call.firstRecord, start] at ends
  exact ⟨opened, ends⟩

end PracticalCrypto.Surf.Prover
