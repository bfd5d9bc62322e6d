import PracticalCrypto.Surf.Prover.Stream

/-!
# The plaintext that a release hands out

`true_surf_release` opens every captured record under the key of which the
verifier has sent its share, and hands out the records that end with the type of
application data. This is the application data of the origin as long as the
origin does not pad it.
-/

namespace PracticalCrypto.Surf.Prover

open Handler

variable {env : Environment} {ssl : Ssl}

section Specifications

theorem ensures_readExactBlocking (count : ℕ) :
    Ensures (readExactBlocking env count)
      (fun bytes after => (∃ now, env.read now count = some bytes) ∧
        ∃ clock, after = { ssl with clock })
      ssl := by
  refine Ensures.bind (ensures_tick.mono ?_)
  rintro now _ ⟨_, rfl⟩
  exact Ensures.ofOption fun bytes answered => ⟨⟨now, answered⟩, _, rfl⟩

theorem ensures_surfReleaseEpochKey :
    Ensures (surfReleaseEpochKey env)
      (fun _ after => ∃ kv sent clock, (∃ now, env.read now 16 = some kv) ∧
        after =
          { ssl with
            surfFullServerKey := ssl.jointServerKey kv
            surfKeyReleased := true
            released := ssl.released ++ [(ssl.keyMaterial, ssl.jointServerKey kv)]
            sent
            clock })
      ssl := by
  refine Ensures.bind ((ensures_sslWrite _).mono ?_)
  rintro _ _ rfl
  refine Ensures.bind ((ensures_readExactBlocking 16).mono ?_)
  rintro kv _ ⟨answered, clock, rfl⟩
  exact Ensures.modify ⟨kv, _, clock, answered, rfl⟩

/-- What the checks on the end of the stream have found. -/
structure Terminated (requireCloseNotify : Bool) (opened : List Bytes) : Prop where
  before : ∀ plaintext ∈ opened.dropLast, surfIsCloseNotify plaintext = false
  ends : requireCloseNotify = true → ∃ last ∈ opened.getLast?, surfIsCloseNotify last = true

theorem ensures_assemble (requireCloseNotify : Bool) (opened : List Bytes) :
    Ensures (assemble requireCloseNotify opened)
      (fun out after => after = ssl ∧ out = opened.flatMap applicationBytes ∧
        Terminated requireCloseNotify opened)
      ssl := by
  refine Ensures.require_bind fun before => Ensures.require_bind fun ends => ?_
  exact Ensures.require_bind fun _ => Ensures.pure ⟨rfl, rfl, before, ends⟩

theorem mapM_range_getElem? {α β : Type} (items : List α) (f : α → Option β) :
    (List.range items.length).mapM (fun i => items[i]? >>= f) = items.mapM f := by
  have lookups : (List.range items.length).map (fun i => items[i]?) = items.map some := by
    refine List.ext_getElem (by simp) fun i inRange _ => ?_
    rw [List.length_map, List.length_range] at inRange
    simp [inRange]
  calc (List.range items.length).mapM (fun i => items[i]? >>= f)
      = ((List.range items.length).map fun i => items[i]?).mapM (· >>= f) := by
        rw [List.mapM_map]
        rfl
    _ = items.mapM f := by
        rw [lookups, List.mapM_map]
        rfl

theorem trueSurfRelease_spec (requireCloseNotify : Bool) :
    Ensures (trueSurfRelease env requireCloseNotify)
      (fun out after => ∃ kv opened, (∃ now, env.read now 16 = some kv) ∧
        ssl.surfRecords.mapM (openRecord env.aes (ssl.jointServerKey kv) ssl.serverIv) =
          some opened ∧
        opened.length = ssl.surfRecords.length ∧
        after.opened = ssl.opened ++ (List.range ssl.surfRecords.length).zip opened ∧
        out = opened.flatMap applicationBytes ∧ Terminated requireCloseNotify opened)
      ssl := by
  refine Ensures.get_bind (Ensures.require_bind fun _ => ?_)
  refine Ensures.silent_bind Ssl.material (keeps_collect (fun recordIndex =>
    keeps_verifyRecordTag recordIndex false) _) fun _ verified same => ?_
  have sameRecords : verified.surfRecords = ssl.surfRecords := congrArg Material.records same
  have sameIv : verified.serverIv = ssl.serverIv := congrArg Material.serverIv same
  have sameShare : verified.serverKeyShare = ssl.serverKeyShare :=
    congrArg Material.serverKeyShare same
  have sameOpened : verified.opened = ssl.opened :=
    congrArg (fun material => material.history.opened) same
  refine Ensures.bind (ensures_surfReleaseEpochKey.mono ?_)
  rintro _ _ ⟨kv, sent, clock, answered, rfl⟩
  refine Ensures.bind ((ensures_openRecords _).mono ?_)
  rintro opened _ ⟨opens, lengths, rfl⟩
  refine Ensures.bind ((ensures_assemble requireCloseNotify opened).mono ?_)
  rintro out _ ⟨rfl, assembled, terminated⟩
  refine Ensures.silent_bind Ssl.history (keeps_forEach keeps_replay _)
    fun _ replayed sameReplayed => Ensures.pure ?_
  refine ⟨kv, opened, answered, ?_, ?_, ?_, assembled, terminated⟩
  · have sameKey : verified.jointServerKey kv = ssl.jointServerKey kv :=
      congrArg (fun share i => share i ^^^ kv i) sameShare
    rw [← mapM_range_getElem?, ← opens, ← sameRecords, ← sameIv, ← sameKey]
    rfl
  · rw [lengths, List.length_range]
  · rw [← sameOpened]
    exact congrArg History.opened sameReplayed

end Specifications

/--
A release in the TRUE mode hands out the application data of the captured records
exactly if none of them holds application data with padding after it.
-/
theorem trueSurfRelease_eq_applicationContent_iff {after : Ssl} {requireCloseNotify : Bool}
    {out : Bytes} (released : trueSurfRelease env requireCloseNotify ssl = (.returned out, after)) :
    ∃ kv opened, (∃ now, env.read now 16 = some kv) ∧
      ssl.surfRecords.mapM (openRecord env.aes (ssl.jointServerKey kv) ssl.serverIv) =
        some opened ∧
      after.opened = ssl.opened ++ (List.range ssl.surfRecords.length).zip opened ∧
      (out = opened.flatMap applicationContent ↔
        ∀ plaintext ∈ opened, ¬PaddedApplicationData plaintext) := by
  rcases trueSurfRelease_spec requireCloseNotify _ _ released with
    ⟨kv, opened, answered, opens, _, history, rfl, _⟩
  refine ⟨kv, opened, answered, opens, history, ?_⟩
  rw [flatMap_eq_iff fun plaintext _ => applicationBytes_eq_or_nil plaintext]
  exact forall₂_congr fun plaintext _ => applicationBytes_eq_iff

/-- A TRUE-mode connection on which records with these ciphertexts were captured. -/
def Ssl.holding (mode : Mode) (ciphertexts : List Bytes) : Ssl :=
  { Ssl.initial mode with
    surfRecords := ciphertexts.mapIdx fun seq ciphertext =>
      { ciphertext, tag := fun _ => 0, seq := UInt64.ofNat seq } }

/-- One byte of application data and the end of the stream. -/
def unpaddedStream : Ssl := Ssl.holding .trueSurf [[104, 23], [1, 0, 21]]

theorem trueSurfRelease_unpadded :
    ∃ opened, (trueSurfRelease Environment.cooperative true unpaddedStream).1 = .returned [104] ∧
      (trueSurfRelease Environment.cooperative true unpaddedStream).2.opened =
        (List.range 2).zip opened ∧
      ([104] = opened.flatMap applicationContent ↔
        ∀ plaintext ∈ opened, ¬PaddedApplicationData plaintext) := by
  have returned : (trueSurfRelease Environment.cooperative true unpaddedStream).1 =
      .returned [104] := by decide +kernel
  rcases ended : trueSurfRelease Environment.cooperative true unpaddedStream with ⟨outcome, after⟩
  rw [ended] at returned
  cases returned
  rcases trueSurfRelease_eq_applicationContent_iff ended with ⟨_, opened, _, _, history, selected⟩
  exact ⟨opened, rfl, history, selected⟩

/-- The same byte with one byte of padding: it is opened, and it is missing from the output. -/
def paddedStream : Ssl := Ssl.holding .trueSurf [[104, 23, 0], [1, 0, 21]]

theorem trueSurfRelease_padded :
    (trueSurfRelease Environment.cooperative true paddedStream).1 = .returned [] ∧
      (trueSurfRelease Environment.cooperative true paddedStream).2.opened =
        [(0, [104, 23, 0]), (1, [1, 0, 21])] ∧
      [[104, 23, 0], [1, 0, 21]].flatMap applicationContent = [104] := by
  decide +kernel

end PracticalCrypto.Surf.Prover
