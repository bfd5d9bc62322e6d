import PracticalCrypto.Surf.Prover.Classification

/-!
# The stream of captured records

What the releases do to the stream of records, cut into steps: records are
captured, records are opened, and an epoch is closed once all its records are
opened, none of them a `close_notify`. `streams_perform` shows that every call
follows these steps, also a call that fails part-way, so that the invariant of
the steps holds after any calls.
-/

namespace PracticalCrypto.Surf.Prover

open Handler

/-- The stream: its length, the first record of the open epoch, and what was opened. -/
structure History where
  captured : ℕ
  start : ℕ
  closed : List (List Bytes)
  opened : List (ℕ × Bytes)

def Ssl.history (ssl : Ssl) : History where
  captured := ssl.surfRecords.length
  start := ssl.surfEpochStart
  closed := ssl.closedEpochs
  opened := ssl.opened

/-- What opening a record depends on, and the stream. -/
structure Material where
  records : List SurfRecord
  serverKeyShare : Block
  serverIv : Block
  history : History

def Ssl.material (ssl : Ssl) : Material where
  records := ssl.surfRecords
  serverKeyShare := ssl.serverKeyShare
  serverIv := ssl.serverIv
  history := ssl.history

namespace History

inductive Step (h : History) : History → Prop where
  | capture : Step h { h with captured := h.captured + 1 }
  | opening (recordIndex : ℕ) (plaintext : Bytes) :
      Step h { h with opened := h.opened ++ [(recordIndex, plaintext)] }
  | close (plaintexts : List Bytes) (complete : h.start + plaintexts.length = h.captured)
      (going : ∀ plaintext ∈ plaintexts, ¬CloseNotify plaintext) :
      Step h { h with start := h.captured, closed := h.closed ++ [plaintexts] }

/-- The closed epochs hold every record before the open one, and no `close_notify`. -/
structure Invariant (h : History) : Prop where
  start_le : h.start ≤ h.captured
  covered : h.closed.flatten.length = h.start
  going : ∀ plaintext ∈ h.closed.flatten, ¬CloseNotify plaintext

theorem Invariant.step {h h' : History} (inv : Invariant h) (step : Step h h') :
    Invariant h' := by
  cases step with
  | capture => exact ⟨Nat.le_succ_of_le inv.start_le, inv.covered, inv.going⟩
  | opening => exact ⟨inv.start_le, inv.covered, inv.going⟩
  | close plaintexts complete going =>
      refine ⟨Nat.le_refl _, ?_, ?_⟩
      · simpa [inv.covered] using complete
      · intro plaintext member
        rw [List.flatten_concat] at member
        rcases List.mem_append.mp member with earlier | added
        · exact inv.going plaintext earlier
        · exact going plaintext added

end History

variable {env : Environment} {ssl : Ssl}

section Keeps

/-- Relations that respect the exchange with the verifier and what it leaves of an epoch's key. -/
class IoBlind (rel : Ssl → Ssl → Prop) : Prop extends IsPreorder Ssl rel where
  tick : ∀ ssl, rel ssl { ssl with clock := ssl.clock + 1 }
  send : ∀ (ssl : Ssl) (message : Bytes), rel ssl { ssl with sent := ssl.sent ++ [message] }
  epochKey : ∀ (ssl : Ssl) (surfKeyCommitRand surfFullServerKey : Block)
    (surfKeyCommitted surfKeyReleased : Bool),
    rel ssl
      { ssl with surfKeyCommitRand, surfFullServerKey, surfKeyCommitted, surfKeyReleased }
  release : ∀ (ssl : Ssl) (key : Block),
    rel ssl
      { ssl with
        surfFullServerKey := key
        surfKeyReleased := true
        released := ssl.released ++ [(ssl.keyMaterial, key)] }

/-- Relations that respect new traffic keys as well. -/
class KeyBlind (rel : Ssl → Ssl → Prop) : Prop extends IoBlind rel where
  install : ∀ (ssl : Ssl) (effect : HandshakeEffect), rel ssl (effect.install ssl)
  rotate : ∀ (ssl : Ssl) (satsShare serverKeyShare serverIv : Block) (sgcmShare : Bytes)
    (surfKeyCommitted surfKeyReleased : Bool),
    rel ssl
      { ssl with
        satsShare, serverKeyShare, serverIv, sgcmShare, surfKeyCommitted, surfKeyReleased }

instance : IoBlind (Same Ssl.material) where
  tick _ := rfl
  send _ _ := rfl
  epochKey _ _ _ _ _ := rfl
  release _ _ := rfl

instance : KeyBlind (Same Ssl.history) where
  tick _ := rfl
  send _ _ := rfl
  epochKey _ _ _ _ _ := rfl
  release _ _ := rfl
  install _ _ := rfl
  rotate _ _ _ _ _ _ _ := rfl

variable {rel : Ssl → Ssl → Prop}

section IoBlind

variable [IoBlind rel]

theorem keeps_tick : Keeps rel tick :=
  keeps_bind keeps_get fun _ => keeps_bind (keeps_modify IoBlind.tick) fun _ => keeps_pure _

theorem keeps_sslWrite (message : Bytes) : Keeps rel (sslWrite env message) :=
  keeps_bind keeps_tick fun _ => keeps_bind (keeps_require _) fun _ =>
    keeps_modify fun ssl => IoBlind.send ssl message

theorem keeps_readExactBlocking (count : ℕ) : Keeps rel (readExactBlocking env count) :=
  keeps_bind keeps_tick fun _ => keeps_ofOption _

theorem keeps_resetEpochKey :
    Keeps rel (Handler.modify fun ssl =>
      { ssl with surfKeyCommitted := false, surfKeyReleased := false }) :=
  keeps_modify fun ssl => IoBlind.epochKey ssl _ _ _ _

theorem keeps_surfSendKeyCommitment : Keeps rel (surfSendKeyCommitment env) := by
  refine keeps_bind keeps_tick fun _ => ?_
  refine keeps_bind (keeps_modify fun ssl => IoBlind.epochKey ssl _ _ _ _) fun _ => ?_
  refine keeps_bind keeps_get fun _ => keeps_bind (keeps_ofOption _) fun _ => ?_
  exact keeps_bind (keeps_sslWrite _) fun _ =>
    keeps_modify fun ssl => IoBlind.epochKey ssl _ _ _ _

theorem keeps_commitBeforeFirst : Keeps rel (commitBeforeFirst env) :=
  keeps_bind keeps_get fun _ => keeps_ite keeps_surfSendKeyCommitment (keeps_pure _)

theorem keeps_readVerdict (out : GcmVfyOut) (wantsVerdict : Bool) :
    Keeps rel (readVerdict env out wantsVerdict) := by
  refine keeps_bind (keeps_readExactBlocking _) fun _ => keeps_bind (keeps_require _) fun _ => ?_
  exact keeps_ite (keeps_pure _) (keeps_ite (keeps_pure _) keeps_fail)

theorem keeps_verifyRecordTag (recordIndex : ℕ) (wantsVerdict : Bool) :
    Keeps rel (verifyRecordTag env recordIndex wantsVerdict) := by
  refine keeps_bind keeps_get fun _ => keeps_bind (keeps_require _) fun _ => ?_
  refine keeps_bind (keeps_ofOption _) fun _ => keeps_bind keeps_commitBeforeFirst fun _ => ?_
  refine keeps_bind (keeps_sslWrite _) fun _ => keeps_bind keeps_get fun _ => ?_
  refine keeps_bind (keeps_ofOption _) fun _ => keeps_bind keeps_tick fun _ => ?_
  refine keeps_bind (keeps_ofOption _) fun _ => ?_
  refine keeps_ite (keeps_readVerdict _ _) ?_
  exact keeps_bind (keeps_require _) fun _ => keeps_pure _

theorem keeps_verifyUntilRejected (remaining stop : ℕ) :
    Keeps rel (verifyUntilRejected env remaining stop) := by
  induction remaining generalizing stop with
  | zero => exact keeps_pure _
  | succ remaining ih =>
      exact keeps_bind (keeps_verifyRecordTag _ _) fun _ => keeps_ite (ih _) (keeps_pure _)

theorem keeps_verifyInEpoch (recordIndex : ℕ) : Keeps rel (verifyInEpoch env recordIndex) :=
  keeps_bind (keeps_verifyRecordTag _ _) fun _ => keeps_require _

theorem keeps_surfReleaseEpochKey : Keeps rel (surfReleaseEpochKey env) :=
  keeps_bind (keeps_sslWrite _) fun _ => keeps_bind (keeps_readExactBlocking _) fun _ =>
    keeps_modify fun ssl => IoBlind.release ssl _

theorem keeps_assemble (requireCloseNotify : Bool) (opened : List Bytes) :
    Keeps rel (assemble requireCloseNotify opened) :=
  keeps_bind (keeps_require _) fun _ => keeps_bind (keeps_require _) fun _ =>
    keeps_bind (keeps_require _) fun _ => keeps_pure _

end IoBlind

section KeyBlind

variable [KeyBlind rel]

theorem keeps_replay (plaintext : Bytes) : Keeps rel (replay env plaintext) := by
  refine keeps_ite ?_ (keeps_pure _)
  refine keeps_bind keeps_tick fun _ => keeps_bind keeps_get fun _ => ?_
  refine keeps_bind (keeps_ofOption _) fun effect => ?_
  exact keeps_modify fun ssl => KeyBlind.install ssl effect

theorem keeps_rotateServerKeys : Keeps rel (rotateServerKeys env) := by
  refine keeps_bind keeps_get fun _ => keeps_bind (keeps_require _) fun _ => ?_
  refine keeps_bind (keeps_sslWrite _) fun _ => ?_
  refine keeps_bind keeps_tick fun _ => keeps_bind (keeps_ofOption _) fun _ => ?_
  refine keeps_bind (keeps_modify fun ssl => KeyBlind.rotate ssl _ _ _ _ _ _) fun _ => ?_
  refine keeps_bind keeps_tick fun _ => keeps_bind (keeps_ofOption _) fun _ => ?_
  exact keeps_modify fun ssl => KeyBlind.rotate ssl _ _ _ _ _ _

end KeyBlind

theorem silent_renumber (stop : ℕ) :
    Silent Ssl.history
      (Handler.modify fun ssl => { ssl with surfRecords := renumber stop ssl.surfRecords }) :=
  keeps_modify fun ssl => by
    simp only [Same, Ssl.history, renumber, List.length_mapIdx]

end Keeps

section Opening

theorem ensures_trueSurfOpenRecord (recordIndex : ℕ) :
    Ensures (trueSurfOpenRecord env recordIndex)
      (fun plaintext after => ssl.opens env recordIndex = some plaintext ∧
        after = { ssl with opened := ssl.opened ++ [(recordIndex, plaintext)] })
      ssl := by
  refine Ensures.get_bind (Ensures.ofOption_bind fun plaintext opens => ?_)
  exact Ensures.modify_bind (Ensures.pure ⟨opens, rfl⟩)

theorem ensures_openRecords (indices : List ℕ) :
    Ensures (Handler.collect (trueSurfOpenRecord env) indices)
      (fun plaintexts after => indices.mapM (ssl.opens env) = some plaintexts ∧
        plaintexts.length = indices.length ∧
        after = { ssl with opened := ssl.opened ++ indices.zip plaintexts })
      ssl := by
  induction indices generalizing ssl with
  | nil => exact Ensures.pure ⟨rfl, rfl, by simp⟩
  | cons recordIndex later ih =>
      refine Ensures.bind ((ensures_trueSurfOpenRecord recordIndex).mono ?_)
      rintro plaintext _ ⟨opens, rfl⟩
      refine Ensures.bind (ih.mono ?_)
      rintro plaintexts _ ⟨rest, lengths, rfl⟩
      refine Ensures.pure ⟨?_, ?_, ?_⟩
      · have sameRest : later.mapM (ssl.opens env) = some plaintexts := rest
        rw [List.mapM_cons, opens, sameRest]
        rfl
      · rw [List.length_cons, List.length_cons, lengths]
      · simp

theorem traces_openRecords (indices : List ℕ) :
    Traces Ssl.history History.Step (Handler.collect (trueSurfOpenRecord env) indices) ssl := by
  refine Traces.collect (fun recordIndex ssl => ?_) indices
  refine Traces.get_bind (Traces.ofOption_bind fun plaintext _ => ?_)
  exact Traces.modify_bind (Relation.ReflTransGen.single (.opening recordIndex plaintext))
    (Silent.traces (keeps_pure _))

end Opening

section Calls

/-- The call moves the stream by its steps, whatever it returns. -/
abbrev Streams {α : Type} (prog : Handler Ssl α) (ssl : Ssl) : Prop :=
  Traces Ssl.history History.Step prog ssl

theorem streams_trueSurfRelease (requireCloseNotify : Bool) :
    Streams (trueSurfRelease env requireCloseNotify) ssl := by
  refine Traces.get_bind (Traces.require_bind fun _ => ?_)
  refine Traces.silent_bind (keeps_collect (fun recordIndex =>
    keeps_verifyRecordTag recordIndex false) _) fun _ _ _ => ?_
  refine Traces.silent_bind keeps_surfReleaseEpochKey fun _ _ _ => ?_
  refine Traces.bind (traces_openRecords _) fun opened _ _ => Silent.traces ?_
  exact keeps_bind (keeps_assemble requireCloseNotify opened) fun _ =>
    keeps_bind (keeps_forEach keeps_replay _) fun _ => keeps_pure _

theorem streams_releaseEpochs (n fuel start : ℕ) (opened : List (Bytes × Bool)) :
    Streams (releaseEpochs env n fuel start opened) ssl := by
  induction fuel generalizing start opened ssl with
  | zero => exact Silent.traces keeps_fail
  | succ fuel ih =>
      refine Traces.silent_bind (keeps_modify fun _ => rfl) fun _ _ _ => ?_
      refine Traces.silent_bind keeps_surfSendKeyCommitment fun _ _ _ => ?_
      refine Traces.silent_bind (keeps_verifyUntilRejected _ _)
        fun stop _ _ => Traces.require_bind fun _ => ?_
      refine Traces.silent_bind keeps_surfReleaseEpochKey fun _ _ _ => ?_
      refine Traces.bind (traces_openRecords _) fun plaintexts _ _ => ?_
      refine Traces.ite (fun _ => Silent.traces (keeps_pure _)) fun _ => ?_
      refine Traces.require_bind fun _ => ?_
      refine Traces.silent_bind keeps_rotateServerKeys fun _ _ _ => ?_
      exact Traces.silent_bind (silent_renumber stop) fun _ _ _ => ih _ _

theorem streams_rotateSurfRelease (requireCloseNotify : Bool) :
    Streams (rotateSurfRelease env requireCloseNotify) ssl := by
  refine Traces.get_bind (Traces.require_bind fun _ => ?_)
  refine Traces.bind (streams_releaseEpochs _ _ _ _) fun marked _ _ => Silent.traces ?_
  refine keeps_bind (keeps_modify fun _ => rfl) fun _ => ?_
  exact keeps_bind (keeps_assemble requireCloseNotify _) fun _ =>
    keeps_bind (keeps_forEach keeps_replay _) fun _ => keeps_pure _

/-- Closing an epoch whose records are all opened, none of them a `close_notify`. -/
theorem streams_closeEpoch {plaintexts : List Bytes}
    (complete : ssl.surfEpochStart + plaintexts.length = ssl.surfRecords.length)
    (going : ∀ plaintext ∈ plaintexts, ¬CloseNotify plaintext) :
    Streams (closeEpoch env ssl.surfRecords.length plaintexts) ssl := by
  refine Traces.silent_bind keeps_rotateServerKeys fun _ rotated same => ?_
  have close : History.Step ssl.history
      { ssl.history with
        start := ssl.surfRecords.length, closed := ssl.closedEpochs ++ [plaintexts] } :=
    .close plaintexts complete going
  rw [← same] at close
  have closedSame : rotated.closedEpochs = ssl.closedEpochs := congrArg History.closed same
  rw [← closedSame] at close
  exact Relation.ReflTransGen.single close

theorem going_of_keyUpdate {plaintexts : List Bytes}
    (ends : ∃ last ∈ plaintexts.getLast?, surfIsKeyUpdate last = true)
    (before : ∀ plaintext ∈ plaintexts.dropLast, surfIsCloseNotify plaintext = false) :
    ∀ plaintext ∈ plaintexts, ¬CloseNotify plaintext := by
  rcases ends with ⟨last, isLast, isUpdate⟩
  rw [← List.dropLast_append_getLast? last isLast]
  intro plaintext member
  rcases List.mem_append.mp member with earlier | isEnd
  · rw [← surfIsCloseNotify_iff, before plaintext earlier]
    exact Bool.false_ne_true
  · rw [List.mem_singleton.mp isEnd]
    exact (surfIsKeyUpdate_iff.mp isUpdate).not_closeNotify

theorem streams_rotateSurfReleaseEpoch (finalEpoch : Bool) :
    Streams (rotateSurfReleaseEpoch env finalEpoch) ssl := by
  refine Traces.get_bind (Traces.require_bind fun _ => Traces.require_bind fun within => ?_)
  refine Traces.silent_bind (keeps_modify fun _ => rfl) fun _ _ reset => ?_
  refine Traces.silent_bind keeps_surfSendKeyCommitment fun _ _ committed => ?_
  refine Traces.silent_bind (keeps_forEach keeps_verifyInEpoch _)
    fun _ _ verified => ?_
  refine Traces.silent_bind keeps_surfReleaseEpochKey fun _ released same => ?_
  rw [verified, committed, reset] at same
  refine Traces.bind (traces_openRecords _) fun plaintexts after ended => ?_
  rcases ensures_openRecords _ _ _ ended with ⟨_, lengths, rfl⟩
  refine Traces.require_bind fun ends => Traces.require_bind fun before => ?_
  refine Traces.silent_bind (keeps_forEach keeps_replay _) fun _ replayed sameReplayed => ?_
  refine Traces.ite (fun _ => Silent.traces (keeps_pure _)) fun notFinal => ?_
  rw [Bool.not_eq_true] at notFinal
  subst notFinal
  -- only the list of opened records differs from the stream that the call has found
  have sameCaptured : replayed.surfRecords.length = ssl.surfRecords.length :=
    (congrArg History.captured sameReplayed).trans (congrArg History.captured same)
  have sameStart : replayed.surfEpochStart = ssl.surfEpochStart :=
    (congrArg History.start sameReplayed).trans (congrArg History.start same)
  have complete : replayed.surfEpochStart + plaintexts.length = replayed.surfRecords.length := by
    rw [sameStart, sameCaptured, lengths, List.length_range']
    omega
  rw [← sameCaptured]
  exact Traces.bind (streams_closeEpoch complete (going_of_keyUpdate ends before))
    fun _ _ _ => Silent.traces (keeps_pure _)

theorem streams_captureRecord (body : Bytes) : Streams (captureRecord body) ssl := by
  refine Traces.get_bind (Traces.require_bind fun _ => Traces.require_bind fun _ => ?_)
  refine Traces.modify_bind (Relation.ReflTransGen.single ?_) (Silent.traces ?_)
  · have grown : Ssl.history
        { ssl with surfRecords := ssl.surfRecords ++ [capturedRecord ssl.readSequence body] } =
          { ssl.history with captured := ssl.surfRecords.length + 1 } := by
      simp [Ssl.history]
    rw [grown]
    exact .capture
  · exact keeps_bind (keeps_require _) fun _ => keeps_bind (keeps_modify fun _ => rfl) fun _ =>
      keeps_require _

theorem streams_perform (call : Call) : Streams (perform env call) ssl := by
  cases call with
  | captureRecord body =>
      exact Traces.bind (streams_captureRecord body) fun _ _ _ => Silent.traces (keeps_pure _)
  | trueSurfRelease requireCloseNotify => exact streams_trueSurfRelease requireCloseNotify
  | rotateSurfRelease requireCloseNotify => exact streams_rotateSurfRelease requireCloseNotify
  | rotateSurfReleaseEpoch finalEpoch => exact streams_rotateSurfReleaseEpoch finalEpoch

/-- Whatever is captured and released, in whatever order, the stream follows its steps. -/
theorem streams_performAll (env : Environment) (calls : List Call) (ssl : Ssl) :
    Relation.ReflTransGen History.Step ssl.history (performAll env calls ssl).history := by
  induction calls generalizing ssl with
  | nil => exact Relation.ReflTransGen.refl
  | cons call later ih =>
      have first : Streams (perform env call) ssl := streams_perform call
      exact first.trans (ih _)

theorem performAll_invariant (env : Environment) (calls : List Call)
    (start : History.Invariant ssl.history) :
    History.Invariant (performAll env calls ssl).history := by
  have preserved : ∀ h h', History.Step h h' → History.Invariant h → History.Invariant h' :=
    fun _ _ step inv => inv.step step
  exact invariant_along preserved (streams_performAll env calls ssl) start

end Calls

section Fuel

theorem ensures_verifyUntilRejected (remaining first : ℕ) :
    Ensures (verifyUntilRejected env remaining first)
      (fun stop _ => first ≤ stop ∧ stop ≤ first + remaining) ssl := by
  induction remaining generalizing first ssl with
  | zero => exact Ensures.pure ⟨Nat.le_refl _, Nat.le_refl _⟩
  | succ remaining ih =>
      refine Ensures.bind fun _ _ _ => Ensures.ite (fun _ => ?_) fun _ => ?_
      · refine (ih (first + 1)).mono fun stop _ bounds => ?_
        omega
      · exact Ensures.pure (by omega)

/-- Every epoch has a record, so the loop of `rotate_surf_release` does not run out of fuel. -/
theorem releaseEpochs_fuel {n fuel start : ℕ} (enough : n - start < fuel)
    (opened : List (Bytes × Bool)) :
    releaseEpochs env n (fuel + 1) start opened ssl = releaseEpochs env n fuel start opened ssl := by
  induction fuel generalizing start opened ssl with
  | zero => omega
  | succ fuel ih =>
      rw [releaseEpochs, releaseEpochs]
      refine bind_congr_of_returned fun _ _ _ => bind_congr_of_returned fun _ _ _ => ?_
      refine bind_congr_of_returned fun stop _ ended => ?_
      have bounds := ensures_verifyUntilRejected _ _ _ _ ended
      by_cases progress : stop ≠ start
      · refine bind_congr_of_returned fun _ _ _ => bind_congr_of_returned fun _ _ _ => ?_
        refine bind_congr_of_returned fun plaintexts _ _ => ?_
        by_cases isEnd : stop = n
        · rw [if_pos isEnd, if_pos isEnd]
        · rw [if_neg isEnd, if_neg isEnd]
          refine bind_congr_of_returned fun _ _ _ => bind_congr_of_returned fun _ _ _ => ?_
          refine bind_congr_of_returned fun _ _ _ => ?_
          exact ih (by omega) _
      · rw [require_false progress]
        rfl

end Fuel

end PracticalCrypto.Surf.Prover
