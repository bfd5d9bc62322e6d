import PracticalCrypto.Surf.Prover.Opening
import PracticalCrypto.Surf.Prover.Truncation

/-!
# Release of a stream with several epochs

The origin ends an epoch with a `KeyUpdate` and continues with new keys and with
sequence number 0. `rotate_surf_release` gets the whole stream at once and finds the
ends of the epochs by the records that the verifier rejects, while
`rotate_surf_release_epoch` is called at every end. If no record of a later epoch
verifies under the keys of an earlier one, then the first function finds the epochs
of the stream, and both open every record with the key of its epoch and the number
that the origin has used, and hand out the same application data.
-/

namespace PracticalCrypto.Surf.Prover

open Handler

variable {env : Environment} {ssl : Ssl}

section Relations

/-- One state of a run comes before another. -/
structure Before (earlier later : Ssl) : Prop where
  clock : earlier.clock ≤ later.clock
  sent : earlier.sent <+: later.sent
  released : earlier.released <+: later.released

theorem Before.rfl : Before ssl ssl := ⟨Nat.le_refl _, List.prefix_refl _, List.prefix_refl _⟩

theorem Before.trans {first second third : Ssl} (one : Before first second)
    (two : Before second third) : Before first third :=
  ⟨Nat.le_trans one.clock two.clock, one.sent.trans two.sent, one.released.trans two.released⟩

/-- A later state in which the stream is the same. -/
structure Onward (earlier later : Ssl) : Prop where
  before : Before earlier later
  records : later.surfRecords = earlier.surfRecords
  opened : later.opened = earlier.opened

/-- A later state of the same epoch. -/
structure InEpoch (earlier later : Ssl) : Prop where
  onward : Onward earlier later
  keys : later.keyMaterial = earlier.keyMaterial

instance : IsPreorder Ssl Onward where
  refl _ := ⟨Before.rfl, rfl, rfl⟩
  trans _ _ _ one two :=
    ⟨one.before.trans two.before, two.records.trans one.records, two.opened.trans one.opened⟩

instance : KeyBlind Onward where
  tick _ := ⟨⟨Nat.le_succ _, List.prefix_refl _, List.prefix_refl _⟩, rfl, rfl⟩
  send _ _ := ⟨⟨Nat.le_refl _, List.prefix_append _ _, List.prefix_refl _⟩, rfl, rfl⟩
  epochKey _ _ _ _ _ := ⟨⟨Nat.le_refl _, List.prefix_refl _, List.prefix_refl _⟩, rfl, rfl⟩
  release _ _ := ⟨⟨Nat.le_refl _, List.prefix_refl _, List.prefix_append _ _⟩, rfl, rfl⟩
  install _ _ := ⟨⟨Nat.le_refl _, List.prefix_append _ _, List.prefix_refl _⟩, rfl, rfl⟩
  rotate _ _ _ _ _ _ _ := ⟨⟨Nat.le_refl _, List.prefix_refl _, List.prefix_refl _⟩, rfl, rfl⟩

instance : IsPreorder Ssl Before where
  refl _ := Before.rfl
  trans _ _ _ := Before.trans

instance : KeyBlind Before where
  tick ssl := (show Onward ssl _ from IoBlind.tick ssl).before
  send ssl message := (show Onward ssl _ from IoBlind.send ssl message).before
  epochKey ssl _ _ _ _ := (show Onward ssl _ from IoBlind.epochKey ssl _ _ _ _).before
  release ssl key := (show Onward ssl _ from IoBlind.release ssl key).before
  install ssl effect := (show Onward ssl _ from KeyBlind.install ssl effect).before
  rotate ssl _ _ _ _ _ _ := (show Onward ssl _ from KeyBlind.rotate ssl _ _ _ _ _ _).before

instance : IsPreorder Ssl InEpoch where
  refl ssl := ⟨refl ssl, rfl⟩
  trans _ _ _ one two := ⟨IsTrans.trans _ _ _ one.onward two.onward, two.keys.trans one.keys⟩

instance : IoBlind InEpoch where
  tick ssl := ⟨IoBlind.tick ssl, rfl⟩
  send ssl message := ⟨IoBlind.send ssl message, rfl⟩
  epochKey ssl _ _ _ _ := ⟨IoBlind.epochKey ssl _ _ _ _, rfl⟩
  release ssl _ := ⟨IoBlind.release ssl _, rfl⟩

end Relations

section Stream

/-- Records with consecutive sequence numbers, as `surf_capture_ciphertext` stores them. -/
def numbered (base : UInt64) (bodies : List Bytes) : List SurfRecord :=
  bodies.mapIdx fun i body => capturedRecord (base + UInt64.ofNat i) body

theorem numbered_append (base : UInt64) (first second : List Bytes) :
    numbered base (first ++ second) =
      numbered base first ++ numbered (base + UInt64.ofNat first.length) second := by
  simp only [numbered, List.mapIdx_append]
  congr 2
  funext i body
  rw [Nat.add_comm, UInt64.ofNat_add, UInt64.add_assoc]

theorem length_numbered (base : UInt64) (bodies : List Bytes) :
    (numbered base bodies).length = bodies.length :=
  List.length_mapIdx

theorem renumber_append {stop : ℕ} {earlier : List SurfRecord} (isEnd : stop = earlier.length)
    (base : UInt64) (bodies : List Bytes) :
    renumber stop (earlier ++ numbered base bodies) = earlier ++ numbered 0 bodies := by
  subst isEnd
  rw [renumber, List.mapIdx_append]
  congr 1
  · apply List.ext_getElem (by simp)
    intro i inRange _
    have early : ¬earlier.length ≤ i := by
      simp only [List.length_mapIdx] at inRange
      omega
    simp [early]
  · simp only [numbered, List.mapIdx_mapIdx]
    congr 1
    funext i body
    simp [capturedRecord]

/-- A record of the origin: what is captured of it, and its plaintext. -/
abbrev StreamRecord := Bytes × Bytes

def bodies (epoch : List StreamRecord) : List Bytes := epoch.map Prod.fst

def plaintexts (epoch : List StreamRecord) : List Bytes := epoch.map Prod.snd

/-- Every epoch but the last one ends with the `KeyUpdate` that it has, and the last one has none
and ends with a `close_notify`. -/
def EpochsEnd : List (List StreamRecord) → Prop
  | [] => False
  | [epoch] =>
      (∃ last ∈ (plaintexts epoch).getLast?, CloseNotify last) ∧
        ∀ plaintext ∈ plaintexts epoch, ¬KeyUpdate plaintext
  | epoch :: later =>
      (∃ last ∈ (plaintexts epoch).getLast?, KeyUpdate last) ∧
        (∀ plaintext ∈ (plaintexts epoch).dropLast, ¬KeyUpdate plaintext) ∧ EpochsEnd later

/-- The origin has protected the records of the epoch with these keys, numbered from `base` on. -/
def Protected (aes : Block → Block → Block) (keys : RecordKeys) (base : UInt64)
    (epoch : List StreamRecord) : Prop :=
  ∀ i record, epoch[i]? = some record → record.2.length < 2 ^ 32 ∧
    ∃ tag, record.1 = keys.body aes (base + UInt64.ofNat i) record.2 tag

/-- Every epoch has keys of its own, and an epoch after the first one restarts at 0. -/
def Protects (aes : Block → Block → Block) :
    UInt64 → List RecordKeys → List (List StreamRecord) → Prop
  | _, [], [] => True
  | base, keys :: laterKeys, epoch :: later =>
      Protected aes keys base epoch ∧ Protects aes 0 laterKeys later
  | _, _, _ => False

/-- The records that the origin sends, all with the same tag. -/
def RecordKeys.protect (aes : Block → Block → Block) (keys : RecordKeys) (base : UInt64)
    (tag : Block) (plaintexts : List Bytes) : List StreamRecord :=
  plaintexts.mapIdx fun i plaintext =>
    (keys.body aes (base + UInt64.ofNat i) plaintext tag, plaintext)

theorem protected_protect {aes : Block → Block → Block} {keys : RecordKeys} {base : UInt64}
    {tag : Block} {plaintexts : List Bytes}
    (short : ∀ plaintext ∈ plaintexts, plaintext.length < 2 ^ 32) :
    Protected aes keys base (keys.protect aes base tag plaintexts) := by
  intro i record isRecord
  rw [RecordKeys.protect, List.getElem?_mapIdx] at isRecord
  rcases Option.map_eq_some_iff.mp isRecord with ⟨plaintext, isPlaintext, rfl⟩
  exact ⟨short plaintext (List.mem_of_getElem? isPlaintext), tag, rfl⟩

/-- The sequence numbers that the origin has used: an epoch after the first one restarts at 0. -/
def numberedEpochs : UInt64 → List (List StreamRecord) → List SurfRecord
  | _, [] => []
  | base, epoch :: later => numbered base (bodies epoch) ++ numberedEpochs 0 later

variable {epoch : List StreamRecord} {later : List (List StreamRecord)}

theorem EpochsEnd.ne_nil (ends : EpochsEnd (epoch :: later)) : epoch ≠ [] := by
  rintro rfl
  cases later with
  | nil =>
      rcases ends.1 with ⟨_, isLast, _⟩
      exact nomatch isLast
  | cons next rest =>
      rcases ends.1 with ⟨_, isLast, _⟩
      exact nomatch isLast

theorem EpochsEnd.of_cons (ends : EpochsEnd (epoch :: later)) (more : later ≠ []) :
    EpochsEnd later := by
  cases later with
  | nil => exact absurd rfl more
  | cons next rest => exact ends.2.2

theorem EpochsEnd.eq_nil (ends : EpochsEnd (epoch :: later)) (nothing : later.flatten = []) :
    later = [] := by
  by_contra more
  have laterEnds := ends.of_cons more
  cases later with
  | nil => exact more rfl
  | cons next rest =>
      apply laterEnds.ne_nil
      rw [List.flatten_cons, List.append_eq_nil_iff] at nothing
      exact nothing.1

/-- A `KeyUpdate` of an epoch is its last record, and another epoch follows. -/
theorem EpochsEnd.boundary (ends : EpochsEnd (epoch :: later)) {count : ℕ} {last : Bytes}
    (within : count ≤ epoch.length) (isLast : ((plaintexts epoch).take count).getLast? = some last)
    (update : KeyUpdate last) : count = epoch.length ∧ later ≠ [] := by
  cases later with
  | nil =>
      have among : last ∈ plaintexts epoch := List.mem_of_mem_take (List.mem_of_getLast? isLast)
      exact absurd update (ends.2 last among)
  | cons next rest =>
      refine ⟨?_, nofun⟩
      by_contra shorter
      have among : last ∈ (plaintexts epoch).dropLast := by
        have taken : (plaintexts epoch).take count = (plaintexts epoch).dropLast.take count := by
          rw [List.dropLast_eq_take, List.take_take, min_eq_left]
          simp only [plaintexts, List.length_map]
          omega
        rw [taken] at isLast
        exact List.mem_of_mem_take (List.mem_of_getLast? isLast)
      exact ends.2.1 last among update

end Stream

section Verification

/-- Somewhere, `verify_record_tag` has accepted this record with these keys. -/
def Verifies (env : Environment) (keys : KeyMaterial) (captured : SurfRecord) : Prop :=
  ∃ s after recordIndex, s.keyMaterial = keys ∧ s.surfRecords[recordIndex]? = some captured ∧
    verifyRecordTag env recordIndex true s = (.returned true, after)

/-- Between two states of a run, `verify_record_tag` has accepted this record with these keys. -/
def VerifiedBetween (env : Environment) (first last : Ssl) (keys : KeyMaterial)
    (captured : SurfRecord) : Prop :=
  ∃ s after recordIndex, Before first s ∧ Before after last ∧ s.keyMaterial = keys ∧
    s.surfRecords[recordIndex]? = some captured ∧
    verifyRecordTag env recordIndex true s = (.returned true, after)

/-- Somewhere, the joint rotation has led from these keys to those. -/
def Rotates (env : Environment) (keys next : KeyMaterial) : Prop :=
  ∃ s after, s.keyMaterial = keys ∧ after.keyMaterial = next ∧
    rotateServerKeys env s = (.returned (), after)

def RotatedBetween (env : Environment) (first last : Ssl) (keys next : KeyMaterial) : Prop :=
  ∃ s after, Before first s ∧ Before after last ∧ s.keyMaterial = keys ∧
    after.keyMaterial = next ∧ rotateServerKeys env s = (.returned (), after)

/-- No record of a later epoch verifies under the keys of an earlier one. -/
def NeverEarly (env : Environment) : KeyMaterial → List (List StreamRecord) → Prop
  | _, [] => True
  | keys, _ :: later =>
      (∀ body ∈ bodies later.flatten, ∀ seq, ¬Verifies env keys (capturedRecord seq body)) ∧
        ∀ next, Rotates env keys next → NeverEarly env next later

/-- The epochs of the origin have the keys that the parties share: wherever a share was released,
it has completed the prover's part of the keys to those of the epoch. -/
def SharesKeys (env : Environment) (released : List (KeyMaterial × Block)) :
    KeyMaterial → List RecordKeys → Prop
  | _, [] => True
  | keys, origin :: later =>
      (∀ entry ∈ released, entry.1 = keys → ⟨entry.2, staticIv keys.serverIv⟩ = origin) ∧
        ∀ next, Rotates env keys next → SharesKeys env released next later

/-- Every record was verified with the keys of its epoch and the sequence number that the origin
has used, and the keys of an epoch are the rotated ones of the epoch before. -/
def VerifiedInEpochs (env : Environment) (first last : Ssl) :
    KeyMaterial → UInt64 → List (List StreamRecord) → Prop
  | _, _, [] => True
  | keys, base, epoch :: later =>
      (∀ captured ∈ numbered base (bodies epoch),
          VerifiedBetween env first last keys captured) ∧
        (later ≠ [] → ∃ next, RotatedBetween env first last keys next ∧
          VerifiedInEpochs env first last next 0 later)

variable {first first' last last' : Ssl} {keys next : KeyMaterial} {captured : SurfRecord}

theorem SharesKeys.of_prefix {log log' : List (KeyMaterial × Block)}
    {originKeys : List RecordKeys} (shares : SharesKeys env log' keys originKeys)
    (shorter : log <+: log') : SharesKeys env log keys originKeys := by
  induction originKeys generalizing keys with
  | nil => exact trivial
  | cons origin later ih =>
      rcases shares with ⟨here, afterwards⟩
      refine ⟨fun entry among => here entry (shorter.subset among), ?_⟩
      intro next rotates
      exact ih (afterwards next rotates)

theorem VerifiedBetween.verifies (verified : VerifiedBetween env first last keys captured) :
    Verifies env keys captured := by
  rcases verified with ⟨s, after, recordIndex, -, -, verified⟩
  exact ⟨s, after, recordIndex, verified⟩

theorem RotatedBetween.rotates (rotated : RotatedBetween env first last keys next) :
    Rotates env keys next := by
  rcases rotated with ⟨s, after, -, -, rotated⟩
  exact ⟨s, after, rotated⟩

theorem VerifiedBetween.mono (verified : VerifiedBetween env first last keys captured)
    (start : Before first' first) (finish : Before last last') :
    VerifiedBetween env first' last' keys captured := by
  rcases verified with ⟨s, after, recordIndex, begins, ends, verified⟩
  exact ⟨s, after, recordIndex, start.trans begins, ends.trans finish, verified⟩

theorem VerifiedInEpochs.mono {base : UInt64} {epochs : List (List StreamRecord)}
    (verified : VerifiedInEpochs env first last keys base epochs)
    (start : Before first' first) (finish : Before last last') :
    VerifiedInEpochs env first' last' keys base epochs := by
  induction epochs generalizing keys base with
  | nil => exact trivial
  | cons epoch later ih =>
      rcases verified with ⟨inEpoch, inLater⟩
      refine ⟨fun captured among => (inEpoch captured among).mono start finish, ?_⟩
      intro more
      rcases inLater more with ⟨next, ⟨s, after, begins, ends, rotated⟩, verified⟩
      exact ⟨next, ⟨s, after, start.trans begins, ends.trans finish, rotated⟩, ih verified⟩

theorem ensures_verifyRecordTag (recordIndex : ℕ) :
    Ensures (verifyRecordTag env recordIndex true)
      (fun ok after => InEpoch ssl after ∧
        (ok = true → ∀ captured, ssl.surfRecords[recordIndex]? = some captured →
          VerifiedBetween env ssl after ssl.keyMaterial captured)) ssl := by
  intro ok after ended
  refine ⟨(keeps_verifyRecordTag recordIndex true).ensures _ _ ended, ?_⟩
  rintro rfl captured isRecord
  exact ⟨ssl, after, recordIndex, Before.rfl, Before.rfl, rfl, isRecord, ended⟩

/-- `gcm_vfy` ran on this record with these keys, and either it or the verifier's byte accepted. -/
def Accepts (env : Environment) (serverKeyShare : Block) (captured : SurfRecord) : Prop :=
  ∃ now input out, env.gcmVfy now input = some out ∧ input.key = serverKeyShare ∧
    input.serverTag = captured.tag ∧ out.cheated = false ∧
    (out.tagPassed = true ∨ env.read (now + 1) 1 = some fun _ => MessageHeader.toByte .tagOk)

theorem ensures_readVerdict (out : GcmVfyOut) :
    Ensures (readVerdict env out true)
      (fun ok _ => ok = true → out.cheated = false ∧
        env.read ssl.clock 1 = some fun _ => MessageHeader.toByte .tagOk) ssl := by
  apply Ensures.bind
  apply Ensures.bind
  refine ensures_tick.mono ?_
  rintro _ _ ⟨rfl, rfl⟩
  refine Ensures.ofOption fun ack isAck => Ensures.require_bind fun honest => ?_
  apply Ensures.ite
  · intro accepted
    have isByte : ack = fun _ => MessageHeader.toByte .tagOk := by
      funext i
      rw [Fin.fin_one_eq_zero i, accepted]
    exact Ensures.pure fun _ => ⟨honest.1, isByte ▸ isAck⟩
  · intro _
    apply Ensures.ite
    · intro _
      exact Ensures.pure nofun
    · intro _
      exact Ensures.fail

theorem Verifies.accepts {keys : KeyMaterial} {captured : SurfRecord}
    (verifies : Verifies env keys captured) : Accepts env keys.serverKeyShare captured := by
  rcases verifies with ⟨s, after, recordIndex, rfl, isRecord, ended⟩
  have accepted : Ensures (verifyRecordTag env recordIndex true)
      (fun ok _ => ok = true → Accepts env s.serverKeyShare captured) s := by
    apply Ensures.get_bind
    refine Ensures.require_bind fun _ => Ensures.ofOption_bind fun found isFound => ?_
    cases isRecord.symm.trans isFound
    refine Ensures.keeps_bind InEpoch keeps_commitBeforeFirst fun _ committed committedIn => ?_
    refine Ensures.keeps_bind InEpoch (keeps_sslWrite _) fun _ asked askedIn => ?_
    have sameKey : asked.serverKeyShare = s.serverKeyShare :=
      congrArg KeyMaterial.serverKeyShare (askedIn.keys.trans committedIn.keys)
    apply Ensures.get_bind
    refine Ensures.ofOption_bind fun tagShare _ => ?_
    apply Ensures.bind
    refine ensures_tick.mono ?_
    rintro _ _ ⟨rfl, rfl⟩
    refine Ensures.ofOption_bind fun out isOut => ?_
    apply Ensures.ite
    · intro _
      refine (ensures_readVerdict out).mono ?_
      intro ok _ verdict isOk
      rcases verdict isOk with ⟨honest, acknowledged⟩
      exact ⟨_, _, out, isOut, sameKey, rfl, honest, Or.inr acknowledged⟩
    · intro _
      refine Ensures.require_bind fun passed => Ensures.pure fun _ => ?_
      exact ⟨_, _, out, isOut, sameKey, rfl, passed.2.1, Or.inl passed.1⟩
  exact accepted _ _ ended rfl

theorem ensures_verifyUntilRejected_records (remaining start : ℕ) :
    Ensures (verifyUntilRejected env remaining start)
      (fun stop after => InEpoch ssl after ∧
        ∀ recordIndex captured, start ≤ recordIndex → recordIndex < stop →
          ssl.surfRecords[recordIndex]? = some captured →
          VerifiedBetween env ssl after ssl.keyMaterial captured) ssl := by
  induction remaining generalizing start ssl with
  | zero =>
      apply Ensures.pure
      refine ⟨refl ssl, ?_⟩
      intro recordIndex captured notBefore inside
      omega
  | succ remaining ih =>
      apply Ensures.bind
      refine (ensures_verifyRecordTag start).mono ?_
      rintro ok checked ⟨inEpoch, accepted⟩
      apply Ensures.ite
      · intro isOk
        refine (ih (start + 1)).mono ?_
        rintro stop after ⟨later, verified⟩
        refine ⟨IsTrans.trans _ _ _ inEpoch later, ?_⟩
        intro recordIndex captured notBefore inside isRecord
        rcases Nat.eq_or_lt_of_le notBefore with rfl | behind
        · exact (accepted isOk captured isRecord).mono Before.rfl later.onward.before
        · rw [← inEpoch.onward.records] at isRecord
          rw [← inEpoch.keys]
          exact (verified recordIndex captured behind inside isRecord).mono
            inEpoch.onward.before Before.rfl
      · intro _
        apply Ensures.pure
        refine ⟨inEpoch, ?_⟩
        intro recordIndex captured notBefore inside
        omega

theorem ensures_rotateServerKeys_between :
    Ensures (rotateServerKeys env)
      (fun _ after => Onward ssl after ∧
        RotatedBetween env ssl after ssl.keyMaterial after.keyMaterial) ssl := by
  intro _ after ended
  refine ⟨keeps_rotateServerKeys.ensures _ _ ended, ?_⟩
  exact ⟨ssl, after, Before.rfl, Before.rfl, rfl, rfl, ended⟩

/-- A later state of the same epoch in which more records are opened. -/
structure Opening (entries : List (ℕ × Bytes)) (earlier later : Ssl) : Prop where
  before : Before earlier later
  records : later.surfRecords = earlier.surfRecords
  keys : later.keyMaterial = earlier.keyMaterial
  opened : later.opened = earlier.opened ++ entries

theorem InEpoch.opening {middle later : Ssl} {entries : List (ℕ × Bytes)}
    (inEpoch : InEpoch ssl middle) (opening : Opening entries middle later) :
    Opening entries ssl later := by
  refine ⟨inEpoch.onward.before.trans opening.before, opening.records.trans inEpoch.onward.records,
    opening.keys.trans inEpoch.keys, ?_⟩
  rw [opening.opened, inEpoch.onward.opened]

/-- These plaintexts are what the records from `start` on give with a key that is in the log. -/
def OpenedWith (env : Environment) (ssl : Ssl) (log : List (KeyMaterial × Block)) (start count : ℕ)
    (opened : List Bytes) : Prop :=
  ∃ s : Ssl, s.surfRecords = ssl.surfRecords ∧ s.serverIv = ssl.serverIv ∧
    (ssl.keyMaterial, s.surfFullServerKey) ∈ log ∧
    (List.range' start count).mapM (s.opens env) = some opened

theorem OpenedWith.mono {log log' : List (KeyMaterial × Block)} {start count : ℕ}
    {opened : List Bytes} (openedWith : OpenedWith env ssl log start count opened)
    (longer : log <+: log') : OpenedWith env ssl log' start count opened := by
  rcases openedWith with ⟨s, records, iv, logged, opens⟩
  exact ⟨s, records, iv, longer.subset logged, opens⟩

theorem OpenedWith.of_inEpoch {middle : Ssl} {log : List (KeyMaterial × Block)} {start count : ℕ}
    {opened : List Bytes} (openedWith : OpenedWith env middle log start count opened)
    (inEpoch : InEpoch ssl middle) : OpenedWith env ssl log start count opened := by
  rcases openedWith with ⟨s, records, iv, logged, opens⟩
  refine ⟨s, records.trans inEpoch.onward.records, ?_, ?_, opens⟩
  · exact iv.trans (congrArg KeyMaterial.serverIv inEpoch.keys)
  · rwa [inEpoch.keys] at logged

/-- The end of an epoch in both releases: the key is released, and the records are opened. -/
theorem ensures_releaseAndOpen {α : Type} {start count : ℕ} {next : List Bytes → Handler Ssl α}
    {post : α → Ssl → Prop}
    (each : ∀ opened after, opened.length = count →
      Opening ((List.range' start count).zip opened) ssl after →
      OpenedWith env ssl after.released start count opened → Ensures (next opened) post after) :
    Ensures
      (do
        surfReleaseEpochKey env
        let opened ← Handler.collect (trueSurfOpenRecord env) (List.range' start count)
        next opened)
      post ssl := by
  apply Ensures.bind
  intro _ released ended
  have releasedIn : InEpoch ssl released := keeps_surfReleaseEpochKey.ensures _ _ ended
  have logged : (ssl.keyMaterial, released.surfFullServerKey) ∈ released.released := by
    rcases ensures_surfReleaseEpochKey _ _ ended with ⟨kv, sent, clock, -, rfl⟩
    simp
  apply Ensures.bind
  refine (ensures_openRecords _).mono ?_
  rintro opened _ ⟨opens, lengths, rfl⟩
  rw [List.length_range'] at lengths
  refine each opened _ lengths (releasedIn.opening ?_) ?_
  · exact ⟨⟨Nat.le_refl _, List.prefix_refl _, List.prefix_refl _⟩, rfl, rfl, rfl⟩
  · have sameIv : released.serverIv = ssl.serverIv := congrArg KeyMaterial.serverIv releasedIn.keys
    exact ⟨released, releasedIn.onward.records, sameIv, logged, opens⟩

end Verification

section Batch

theorem eq_of_zip_range' {start count : ℕ} {first second : List Bytes}
    (firstLength : first.length = count) (secondLength : second.length = count)
    (same : (List.range' start count).zip first = (List.range' start count).zip second) :
    first = second := by
  have values := congrArg (List.map Prod.snd) same
  rwa [List.map_snd_zip (by simp [firstLength]), List.map_snd_zip (by simp [secondLength])]
    at values

variable {epoch : List StreamRecord} {later : List (List StreamRecord)} {base : UInt64}
  {earlier : List SurfRecord} {start stop n : ℕ}

theorem plaintexts_append (first second : List StreamRecord) :
    plaintexts (first ++ second) = plaintexts first ++ plaintexts second :=
  List.map_append

theorem length_plaintexts (records : List StreamRecord) :
    (plaintexts records).length = records.length :=
  List.length_map _

theorem length_bodies (records : List StreamRecord) :
    (bodies records).length = records.length :=
  List.length_map _

theorem bodies_append (first second : List StreamRecord) :
    bodies (first ++ second) = bodies first ++ bodies second :=
  List.map_append

/-- The openings of a stream are those of its first epoch and then those of the others. -/
theorem zip_flatten_cons (start : ℕ) (epoch : List StreamRecord)
    (later : List (List StreamRecord)) :
    (List.range' start (epoch :: later).flatten.length).zip (plaintexts (epoch :: later).flatten) =
      (List.range' start epoch.length).zip (plaintexts epoch) ++
        (List.range' (start + epoch.length) later.flatten.length).zip
          (plaintexts later.flatten) := by
  rw [List.flatten_cons, List.length_append, plaintexts_append, ← List.range'_append_1,
    List.zip_append (by simp [length_plaintexts])]

theorem stop_le (neverEarly : NeverEarly env ssl.keyMaterial (epoch :: later))
    (records : ssl.surfRecords = earlier ++ numbered base (bodies (epoch ++ later.flatten)))
    (isStart : start = earlier.length)
    (within : stop ≤ start + (epoch.length + later.flatten.length))
    (accepted : ∀ recordIndex captured, start ≤ recordIndex → recordIndex < stop →
      ssl.surfRecords[recordIndex]? = some captured → Verifies env ssl.keyMaterial captured) :
    stop ≤ start + epoch.length := by
  by_contra behind
  have inLater : 0 < later.flatten.length := by omega
  rcases List.exists_cons_of_length_pos inLater with ⟨record, rest, first⟩
  have next : ssl.surfRecords[start + epoch.length]? =
      some (capturedRecord (base + UInt64.ofNat epoch.length) record.1) := by
    rw [records, isStart, List.getElem?_append_right (Nat.le_add_right _ _),
      Nat.add_sub_cancel_left, bodies_append, numbered_append,
      List.getElem?_append_right (by simp [length_numbered, bodies])]
    simp [bodies, first, numbered]
  apply neverEarly.1 record.1 (by simp [bodies, first])
  exact accepted _ _ (Nat.le_add_right _ _) (by omega) next

theorem accepted_epoch {verified : SurfRecord → Prop} {rest : List Bytes}
    (records : ssl.surfRecords = earlier ++ numbered base (bodies epoch ++ rest))
    (isStart : start = earlier.length) (isStop : stop = start + epoch.length)
    (accepted : ∀ recordIndex captured, start ≤ recordIndex → recordIndex < stop →
      ssl.surfRecords[recordIndex]? = some captured → verified captured) :
    ∀ captured ∈ numbered base (bodies epoch), verified captured := by
  intro captured among
  rcases List.mem_iff_getElem?.mp among with ⟨i, isRecord⟩
  have inside : i < (numbered base (bodies epoch)).length := (List.getElem?_eq_some_iff.mp isRecord).1
  have epochLength : (numbered base (bodies epoch)).length = epoch.length := by
    simp [length_numbered, bodies]
  apply accepted (start + i) captured (Nat.le_add_right _ _) (by omega)
  rw [records, isStart, List.getElem?_append_right (Nat.le_add_right _ _), Nat.add_sub_cancel_left,
    numbered_append, List.getElem?_append_left inside]
  exact isRecord

/-- With the keys of the epoch, its records open to their plaintexts. -/
theorem OpenedWith.eq_take {aes : Block → Block → Block} {origin : RecordKeys} {rest : List Bytes}
    {log : List (KeyMaterial × Block)} {count : ℕ} {opened : List Bytes}
    (openedWith : OpenedWith env ssl log start count opened)
    (cipher : env.aes = fun key block => some (aes key block))
    (shared : ∀ entry ∈ log, entry.1 = ssl.keyMaterial →
      ⟨entry.2, staticIv ssl.keyMaterial.serverIv⟩ = origin)
    (isProtected : Protected aes origin base epoch)
    (records : ssl.surfRecords = earlier ++ numbered base (bodies epoch ++ rest))
    (isStart : start = earlier.length) (within : count ≤ epoch.length) :
    opened = (plaintexts epoch).take count := by
  rcases openedWith with ⟨s, sameRecords, sameIv, logged, opens⟩
  have isOrigin := shared _ logged rfl
  have each : ∀ idx ∈ List.range' start count,
      s.opens env idx = pure ((plaintexts epoch).getD (idx - start) []) := by
    intro idx listed
    rw [List.mem_range'_1] at listed
    obtain ⟨i, rfl⟩ : ∃ i, idx = start + i := ⟨idx - start, by omega⟩
    have inside : i < epoch.length := by omega
    rcases isProtected i _ (List.getElem?_eq_getElem inside) with ⟨short, tag, isBody⟩
    have isRecord : s.surfRecords[start + i]? = some (capturedRecord (base + UInt64.ofNat i)
        (origin.body aes (base + UInt64.ofNat i) epoch[i].2 tag)) := by
      rw [sameRecords, records, isStart, List.getElem?_append_right (Nat.le_add_right _ _),
        Nat.add_sub_cancel_left, numbered_append, List.getElem?_append_left]
      · simp [numbered, bodies, inside, isBody]
      · simpa [length_numbered, bodies] using inside
    rw [opens_body cipher isRecord]
    · simp [plaintexts, inside]
    · exact congrArg RecordKeys.key isOrigin
    · rw [sameIv]
      exact congrArg RecordKeys.iv isOrigin
    · exact short
  rw [Handler.mapM_eq_pure each] at opens
  rw [← Option.some.inj opens]
  apply List.ext_getElem
  · simp only [List.length_map, List.length_range', List.length_take, length_plaintexts]
    omega
  · intro i inMap inTake
    simp only [List.length_take, length_plaintexts] at inTake
    simp [show i < (plaintexts epoch).length by rw [length_plaintexts]; omega]

/-- What the loop has done with the stream. -/
structure ReleasedInEpochs (env : Environment) (first last : Ssl) (earlier : List SurfRecord)
    (base : UInt64) (stream : List (List StreamRecord)) : Prop where
  before : Before first last
  records : last.surfRecords = earlier ++ numberedEpochs base stream
  opened : last.opened = first.opened ++
    (List.range' earlier.length stream.flatten.length).zip (plaintexts stream.flatten)
  verified : VerifiedInEpochs env first last first.keyMaterial base stream

/-- An epoch of the loop: the records up to `stop` were accepted and opened. -/
structure Round (env : Environment) (ssl : Ssl) (start stop : ℕ) (opened : List Bytes)
    (after : Ssl) : Prop where
  length : opened.length = stop - start
  opening : Opening ((List.range' start (stop - start)).zip opened) ssl after
  accepted : ∀ recordIndex captured, start ≤ recordIndex → recordIndex < stop →
    ssl.surfRecords[recordIndex]? = some captured →
    VerifiedBetween env ssl after ssl.keyMaterial captured
  openedWith : OpenedWith env ssl after.released start (stop - start) opened

theorem ensures_round {α : Type} {remaining : ℕ} {next : ℕ → List Bytes → Handler Ssl α}
    {post : α → Ssl → Prop}
    (each : ∀ stop opened after, start < stop → stop ≤ start + remaining →
      Round env ssl start stop opened after → Ensures (next stop opened) post after) :
    Ensures
      (do
        Handler.modify fun ssl => { ssl with surfKeyCommitted := false, surfKeyReleased := false }
        surfSendKeyCommitment env
        let stop ← verifyUntilRejected env remaining start
        Handler.require (stop ≠ start)
        surfReleaseEpochKey env
        let opened ← Handler.collect (trueSurfOpenRecord env) (List.range' start (stop - start))
        next stop opened)
      post ssl := by
  refine Ensures.keeps_bind InEpoch keeps_resetEpochKey fun _ reset resetIn => ?_
  refine Ensures.keeps_bind InEpoch keeps_surfSendKeyCommitment fun _ committed committedIn => ?_
  apply Ensures.bind
  intro stop checked ended
  have bounds := ensures_verifyUntilRejected _ _ _ _ ended
  rcases ensures_verifyUntilRejected_records _ _ _ _ ended with ⟨checkedIn, accepted⟩
  apply Ensures.require_bind
  intro progress
  have startIn : InEpoch ssl committed := IsTrans.trans _ _ _ resetIn committedIn
  have inEpoch : InEpoch ssl checked := IsTrans.trans _ _ _ startIn checkedIn
  apply ensures_releaseAndOpen
  intro opened after lengths opening openedWith
  refine each stop opened after (by omega) bounds.2 ⟨lengths, inEpoch.opening opening, ?_, ?_⟩
  · intro recordIndex captured notBefore inside isRecord
    rw [← startIn.onward.records] at isRecord
    rw [← startIn.keys]
    exact (accepted recordIndex captured notBefore inside isRecord).mono startIn.onward.before
      opening.before
  · exact openedWith.of_inEpoch inEpoch

/-- An epoch that was accepted, the rotation, and the epochs after it. -/
theorem ReleasedInEpochs.cons {middle rotated after : Ssl} {records : List SurfRecord}
    (accepted : ∀ captured ∈ numbered base (bodies epoch),
      VerifiedBetween env ssl middle ssl.keyMaterial captured)
    (opening : Opening ((List.range' earlier.length epoch.length).zip (plaintexts epoch)) ssl middle)
    (toRotated : Onward middle rotated)
    (rotates : RotatedBetween env middle rotated middle.keyMaterial rotated.keyMaterial)
    (rest : ReleasedInEpochs env { rotated with surfRecords := records } after
      (earlier ++ numbered base (bodies epoch)) 0 later) :
    ReleasedInEpochs env ssl after earlier base (epoch :: later) := by
  have fromRotated : Before rotated after :=
    ⟨rest.before.clock, rest.before.sent, rest.before.released⟩
  have upToRotated := opening.before.trans toRotated.before
  have toRest : Before ssl { rotated with surfRecords := records } :=
    ⟨upToRotated.clock, upToRotated.sent, upToRotated.released⟩
  refine ⟨upToRotated.trans fromRotated, ?_, ?_, ?_, ?_⟩
  · rw [rest.records, List.append_assoc]
    rfl
  · have openedRest := rest.opened
    have openedBefore : rotated.opened = ssl.opened ++ _ := toRotated.opened.trans opening.opened
    simp only [openedBefore, List.length_append, length_numbered, length_bodies] at openedRest
    rw [openedRest, zip_flatten_cons, List.append_assoc]
  · intro captured among
    exact (accepted captured among).mono Before.rfl (toRotated.before.trans fromRotated)
  · intro _
    rcases rotates with ⟨s, turned, begins, finishes, keys, next, ended⟩
    refine ⟨rotated.keyMaterial, ?_, rest.verified.mono toRest Before.rfl⟩
    exact ⟨s, turned, opening.before.trans begins, finishes.trans fromRotated,
      keys.trans opening.keys, next, ended⟩

/-- An epoch that was accepted, and nothing after it. -/
theorem Round.releasedInEpochs {opened : List Bytes} {after : Ssl}
    (round : Round env ssl start stop opened after)
    (records : ssl.surfRecords = earlier ++ numbered base (bodies epoch ++ bodies []))
    (isStart : start = earlier.length) (isStop : stop = start + epoch.length)
    (openedEq : opened = (plaintexts epoch).take (stop - start)) :
    ReleasedInEpochs env ssl after earlier base [epoch] := by
  have count : stop - start = epoch.length := by omega
  have whole : opened = plaintexts epoch := by
    rw [openedEq, count, ← length_plaintexts, List.take_length]
  refine ⟨round.opening.before, ?_, ?_, ?_, fun more => absurd rfl more⟩
  · rw [round.opening.records, records]
    simp [numberedEpochs, bodies]
  · rw [round.opening.opened, count, whole, isStart]
    simp
  · exact accepted_epoch records isStart isStop round.accepted

/-- The records behind an epoch that was accepted, with the numbers of the next one. -/
theorem Round.renumbered {opened : List Bytes} {middle rotated : Ssl} {rest : List Bytes}
    (round : Round env ssl start stop opened middle) (toRotated : Onward middle rotated)
    (records : ssl.surfRecords = earlier ++ numbered base (bodies epoch ++ rest))
    (isNext : stop = (earlier ++ numbered base (bodies epoch)).length) :
    renumber stop rotated.surfRecords =
      (earlier ++ numbered base (bodies epoch)) ++ numbered 0 rest := by
  rw [toRotated.records, round.opening.records, records, numbered_append, ← List.append_assoc]
  exact renumber_append isNext _ _

theorem keeps_releaseEpochs (fuel : ℕ) (marked : List (Bytes × Bool)) :
    Keeps Before (releaseEpochs env n fuel start marked) := by
  induction fuel generalizing start marked with
  | zero => exact keeps_fail
  | succ fuel ih =>
      have openRecord (recordIndex : ℕ) : Keeps Before (trueSurfOpenRecord env recordIndex) := by
        refine keeps_bind keeps_get fun _ => keeps_bind (keeps_ofOption _) fun _ => ?_
        refine keeps_bind (keeps_modify fun ssl => ?_) fun _ => keeps_pure _
        exact ⟨Nat.le_refl _, List.prefix_refl _, List.prefix_refl _⟩
      refine keeps_bind keeps_resetEpochKey fun _ => ?_
      refine keeps_bind keeps_surfSendKeyCommitment fun _ => ?_
      refine keeps_bind (keeps_verifyUntilRejected _ _) fun stop => ?_
      refine keeps_bind (keeps_require _) fun _ => keeps_bind keeps_surfReleaseEpochKey fun _ => ?_
      refine keeps_bind (keeps_collect openRecord _) fun _ => keeps_ite (keeps_pure _) ?_
      refine keeps_bind (keeps_require _) fun _ => keeps_bind keeps_rotateServerKeys fun _ => ?_
      refine keeps_bind (keeps_modify fun ssl => ?_) fun _ => ih _
      exact ⟨Nat.le_refl _, List.prefix_refl _, List.prefix_refl _⟩

theorem ensures_releaseEpochs {aes : Block → Block → Block} {originKeys : List RecordKeys}
    {stream : List (List StreamRecord)} (fuel : ℕ) (marked : List (Bytes × Bool))
    (cipher : env.aes = fun key block => some (aes key block)) (ends : EpochsEnd stream)
    (neverEarly : NeverEarly env ssl.keyMaterial stream)
    (protects : Protects aes base originKeys stream)
    (records : ssl.surfRecords = earlier ++ numbered base (bodies stream.flatten))
    (isStart : start = earlier.length) (total : n = start + stream.flatten.length) :
    Ensures (releaseEpochs env n fuel start marked)
      (fun _ after => SharesKeys env after.released ssl.keyMaterial originKeys →
        ReleasedInEpochs env ssl after earlier base stream) ssl := by
  induction fuel generalizing ssl start marked base earlier stream originKeys with
  | zero => exact Ensures.fail
  | succ fuel ih =>
      cases stream with
      | nil => exact ends.elim
      | cons epoch later =>
          cases originKeys with
          | nil => exact protects.elim
          | cons origin laterKeys =>
              rcases protects with ⟨isProtected, laterProtects⟩
              rw [List.flatten_cons] at records total
              rw [List.length_append] at total
              refine ensures_round fun stop opened middle progress within round => ?_
              have withinEpoch := stop_le neverEarly records isStart (by omega)
                fun recordIndex captured notBefore inside isRecord =>
                  (round.accepted recordIndex captured notBefore inside isRecord).verifies
              rw [bodies_append] at records
              have openedEq {after : Ssl} (toAfter : Before middle after)
                  (shares : SharesKeys env after.released ssl.keyMaterial (origin :: laterKeys)) :
                  opened = (plaintexts epoch).take (stop - start) :=
                (round.openedWith.mono toAfter.released).eq_take cipher shares.1 isProtected
                  records isStart (by omega)
              apply Ensures.ite
              · intro isEnd
                apply Ensures.pure
                intro shares
                have nothingLater : later = [] :=
                  ends.eq_nil (List.length_eq_zero_iff.mp (by omega))
                subst nothingLater
                have isStop : stop = start + epoch.length := by
                  simp only [List.flatten_nil, List.length_nil] at total
                  omega
                exact round.releasedInEpochs records isStart isStop (openedEq Before.rfl shares)
              · intro notEnd
                apply Ensures.require_bind
                rintro ⟨last, isLast, isUpdate⟩
                apply Ensures.bind
                refine ensures_rotateServerKeys_between.mono ?_
                rintro _ rotated ⟨rotatedOnward, rotatedKeys⟩
                apply Ensures.modify_bind
                intro result after ended shares
                have fromRotated := (keeps_releaseEpochs _ _).ensures _ _ ended
                have toAfter : Before middle after := rotatedOnward.before.trans
                  ⟨fromRotated.clock, fromRotated.sent, fromRotated.released⟩
                have opens := openedEq toAfter shares
                -- the last record that was opened ends the epoch
                rw [opens] at isLast
                rcases ends.boundary (by omega) isLast (surfIsKeyUpdate_iff.mp isUpdate) with
                  ⟨count, more⟩
                rw [count, ← length_plaintexts, List.take_length] at opens
                have isStop : stop = start + epoch.length := by omega
                have isNext : stop = (earlier ++ numbered base (bodies epoch)).length := by
                  rw [List.length_append, length_numbered, length_bodies, isStop, isStart]
                have renumbered := round.renumbered rotatedOnward records isNext
                have rotates := rotatedKeys.rotates
                rw [round.opening.keys] at rotates
                have rest : ReleasedInEpochs env
                    { rotated with surfRecords := renumber stop rotated.surfRecords } after
                    (earlier ++ numbered base (bodies epoch)) 0 later := by
                  refine ih _ (ends.of_cons more) ?_ laterProtects renumbered isNext (by omega) _ _
                    ended ?_
                  · exact neverEarly.2 _ rotates
                  · exact shares.2 _ rotates
                have opening := round.opening
                rw [count, opens, isStart] at opening
                exact ReleasedInEpochs.cons (accepted_epoch records isStart isStop round.accepted)
                  opening rotatedOnward rotatedKeys rest

end Batch

section Capture

theorem numbered_cons (base : UInt64) (body : Bytes) (later : List Bytes) :
    numbered base (body :: later) = capturedRecord base body :: numbered (base + 1) later := by
  have split := numbered_append base [body] later
  simpa [numbered] using split

theorem ensures_captureAll (bodies : List Bytes) :
    Ensures (Handler.forEach captureRecord bodies)
      (fun _ after => ∃ readSequence, after =
        { ssl with
          surfRecords := ssl.surfRecords ++ numbered ssl.readSequence bodies
          readSequence }) ssl := by
  induction bodies generalizing ssl with
  | nil => exact Ensures.pure ⟨ssl.readSequence, by simp [numbered]⟩
  | cons body later ih =>
      apply Ensures.bind
      apply Ensures.get_bind
      refine Ensures.require_bind fun _ => Ensures.require_bind fun _ => ?_
      apply Ensures.modify_bind
      refine Ensures.require_bind fun _ => ?_
      apply Ensures.modify_bind
      refine Ensures.require fun _ => ?_
      refine ih.mono ?_
      rintro _ _ ⟨readSequence, rfl⟩
      exact ⟨readSequence, by simp [numbered_cons]⟩

end Capture

section ByEpoch

/-- Capture the records of one epoch after the other and release each one at its end. -/
def releaseByEpoch (env : Environment) : List (List StreamRecord) → Handler Ssl (List Bytes)
  | [] => pure []
  | epoch :: later => do
      Handler.forEach captureRecord (bodies epoch)
      let out ← rotateSurfReleaseEpoch env later.isEmpty
      let outs ← releaseByEpoch env later
      pure (out :: outs)

def HandshakeEffect.keyMaterial (effect : HandshakeEffect) : KeyMaterial where
  serverKeyShare := effect.serverKeyShare
  serverIv := effect.serverIv
  satsShare := effect.satsShare
  sgcmShare := effect.sgcmShare

/-- The messages in this record leave the keys of the server alone, as a ticket does. -/
def KeepsKeys (env : Environment) (plaintext : Bytes) : Prop :=
  ∀ now members effect, env.postHandshake now members plaintext.dropLast = some effect →
    effect.keyMaterial = members.keyMaterial

theorem ensures_replay (plaintexts : List Bytes) :
    Ensures (Handler.forEach (replay env) plaintexts)
      (fun _ after => (∀ plaintext ∈ plaintexts, KeepsKeys env plaintext) →
        after.keyMaterial = ssl.keyMaterial) ssl := by
  induction plaintexts generalizing ssl with
  | nil => exact Ensures.pure fun _ => rfl
  | cons plaintext later ih =>
      apply Ensures.bind
      intro _ replayed ended
      refine ih.mono ?_
      intro _ after laterKeeps keeps
      rw [laterKeeps fun other among => keeps other (List.mem_cons_of_mem _ among)]
      have first : Ensures (replay env plaintext)
          (fun _ after => after.keyMaterial = ssl.keyMaterial) ssl := by
        apply Ensures.ite
        · intro _
          apply Ensures.bind
          refine ensures_tick.mono ?_
          rintro now _ ⟨rfl, rfl⟩
          apply Ensures.get_bind
          refine Ensures.ofOption_bind fun effect isEffect => ?_
          exact Ensures.modify (keeps plaintext List.mem_cons_self _ _ _ isEffect)
        · intro _
          exact Ensures.pure rfl
      exact first _ _ ended

/-- What a release of the open epoch does, also to the state in which the next epoch begins. -/
structure EpochReleased (env : Environment) (ssl : Ssl) (finalEpoch : Bool) (opened : List Bytes)
    (after : Ssl) : Prop where
  before : Before ssl after
  history : after.opened = ssl.opened ++ (List.range' ssl.surfEpochStart
    (ssl.surfRecords.length - ssl.surfEpochStart)).zip opened
  openedWith : OpenedWith env ssl after.released ssl.surfEpochStart
    (ssl.surfRecords.length - ssl.surfEpochStart) opened
  next : finalEpoch = false → after.surfRecords = ssl.surfRecords ∧
    after.surfEpochStart = ssl.surfRecords.length ∧ after.readSequence = 0 ∧
    ((∀ plaintext ∈ opened.dropLast, KeepsKeys env plaintext) →
      Rotates env ssl.keyMaterial after.keyMaterial)

theorem ensures_epochReleased (finalEpoch : Bool) :
    Ensures (rotateSurfReleaseEpoch env finalEpoch)
      (fun out after => ∃ opened, out = opened.flatMap applicationBytes ∧
        EpochReleased env ssl finalEpoch opened after) ssl := by
  refine Ensures.get_bind (Ensures.require_bind fun _ => Ensures.require_bind fun _ => ?_)
  refine Ensures.keeps_bind InEpoch keeps_resetEpochKey fun _ reset resetIn => ?_
  refine Ensures.keeps_bind InEpoch keeps_surfSendKeyCommitment fun _ committed committedIn => ?_
  refine Ensures.keeps_bind InEpoch (keeps_forEach keeps_verifyInEpoch _)
    fun _ checked checkedIn => ?_
  have inEpoch : InEpoch ssl checked :=
    IsTrans.trans _ _ _ resetIn (IsTrans.trans _ _ _ committedIn checkedIn)
  apply ensures_releaseAndOpen
  intro opened middle _ openingThere openedWith
  have opening := inEpoch.opening openingThere
  refine Ensures.require_bind fun _ => Ensures.require_bind fun _ => ?_
  apply Ensures.bind
  intro _ replayed ended
  have replayedOnward : Onward middle replayed := (keeps_forEach keeps_replay _).ensures _ _ ended
  have replayedKeys := ensures_replay _ _ _ ended
  have openedHere := (openedWith.of_inEpoch inEpoch).mono replayedOnward.before.released
  apply Ensures.ite
  · intro isFinal
    apply Ensures.pure
    refine ⟨opened, rfl, opening.before.trans replayedOnward.before, ?_, openedHere, ?_⟩
    · exact replayedOnward.opened.trans opening.opened
    · simp [isFinal]
  · intro notFinal
    apply Ensures.bind
    apply Ensures.bind
    refine ensures_rotateServerKeys_between.mono ?_
    rintro _ rotated ⟨rotatedOnward, rotates⟩
    apply Ensures.modify
    apply Ensures.pure
    have onward : Onward middle rotated := IsTrans.trans _ _ _ replayedOnward rotatedOnward
    refine ⟨opened, rfl, ?_, ?_, openedHere.mono rotatedOnward.before.released, fun _ => ?_⟩
    · have whole := opening.before.trans onward.before
      exact ⟨whole.clock, whole.sent, whole.released⟩
    · exact onward.opened.trans opening.opened
    · refine ⟨onward.records.trans opening.records, rfl, rfl, fun keeps => ?_⟩
      rw [if_neg notFinal] at replayedKeys
      have rotates := rotates.rotates
      rwa [replayedKeys keeps, opening.keys] at rotates

/-- The records of an epoch were captured, and nothing else has changed. -/
structure Capturing (ssl : Ssl) (epoch : List StreamRecord) (captured : Ssl) : Prop where
  before : Before ssl captured
  records : captured.surfRecords = ssl.surfRecords ++ numbered ssl.readSequence (bodies epoch)
  epochStart : captured.surfEpochStart = ssl.surfEpochStart
  opened : captured.opened = ssl.opened
  keys : captured.keyMaterial = ssl.keyMaterial

theorem ensures_capturing (epoch : List StreamRecord) :
    Ensures (Handler.forEach captureRecord (bodies epoch))
      (fun _ captured => Capturing ssl epoch captured) ssl := by
  refine (ensures_captureAll (bodies epoch)).mono ?_
  rintro _ _ ⟨readSequence, rfl⟩
  exact ⟨⟨Nat.le_refl _, List.prefix_refl _, List.prefix_refl _⟩, rfl, rfl, rfl, rfl⟩

theorem Capturing.count {epoch : List StreamRecord} {captured : Ssl}
    (capturing : Capturing ssl epoch captured)
    (isStart : ssl.surfEpochStart = ssl.surfRecords.length) :
    captured.surfRecords.length - captured.surfEpochStart = epoch.length := by
  rw [capturing.records, capturing.epochStart, isStart, List.length_append, length_numbered,
    length_bodies, Nat.add_sub_cancel_left]

/-- With the keys of the epoch, the release opens what was captured of it to its plaintexts. -/
theorem EpochReleased.opened_eq {aes : Block → Block → Block} {origin : RecordKeys}
    {laterKeys : List RecordKeys} {epoch : List StreamRecord} {captured after final : Ssl}
    {finalEpoch : Bool} {opened : List Bytes}
    (released : EpochReleased env captured finalEpoch opened after)
    (capturing : Capturing ssl epoch captured)
    (cipher : env.aes = fun key block => some (aes key block))
    (isProtected : Protected aes origin ssl.readSequence epoch)
    (isStart : ssl.surfEpochStart = ssl.surfRecords.length) (toFinal : Before after final)
    (shares : SharesKeys env final.released ssl.keyMaterial (origin :: laterKeys)) :
    opened = plaintexts epoch := by
  have openedWith := released.openedWith.mono toFinal.released
  have records : captured.surfRecords =
      ssl.surfRecords ++ numbered ssl.readSequence (bodies epoch ++ []) := by
    rw [capturing.records, List.append_nil]
  rw [capturing.count isStart] at openedWith
  rw [← capturing.keys] at shares
  have taken := openedWith.eq_take cipher shares.1 isProtected records
    (capturing.epochStart.trans isStart) le_rfl
  rwa [← length_plaintexts, List.take_length] at taken

/-- The epoch-by-epoch run opens the records to the plaintexts of the origin. -/
theorem ensures_releaseByEpoch {aes : Block → Block → Block} {originKeys : List RecordKeys}
    {stream : List (List StreamRecord)}
    (cipher : env.aes = fun key block => some (aes key block)) (ends : EpochsEnd stream)
    (protects : Protects aes ssl.readSequence originKeys stream)
    (keeps : ∀ plaintext ∈ plaintexts stream.flatten, ¬KeyUpdate plaintext →
      KeepsKeys env plaintext)
    (isStart : ssl.surfEpochStart = ssl.surfRecords.length) :
    Ensures (releaseByEpoch env stream)
      (fun outs after => Before ssl after ∧
        (SharesKeys env after.released ssl.keyMaterial originKeys →
          after.opened = ssl.opened ++
            (List.range' ssl.surfRecords.length stream.flatten.length).zip
              (plaintexts stream.flatten) ∧
          outs.flatten = (plaintexts stream.flatten).flatMap applicationBytes)) ssl := by
  induction stream generalizing ssl originKeys with
  | nil => exact ends.elim
  | cons epoch later ih =>
      cases originKeys with
      | nil => exact protects.elim
      | cons origin laterKeys =>
          rcases protects with ⟨isProtected, laterProtects⟩
          apply Ensures.bind
          refine (ensures_capturing epoch).mono ?_
          intro _ captured capturing
          apply Ensures.bind
          refine (ensures_epochReleased later.isEmpty).mono ?_
          rintro _ after ⟨opened, rfl, released⟩
          have toAfter := capturing.before.trans released.before
          have history := released.history
          rw [capturing.count isStart, capturing.epochStart, isStart, capturing.opened] at history
          have openedEq {final : Ssl} (toFinal : Before after final)
              (shares : SharesKeys env final.released ssl.keyMaterial (origin :: laterKeys)) :
              opened = plaintexts epoch :=
            released.opened_eq capturing cipher isProtected isStart toFinal shares
          apply Ensures.bind
          cases later with
          | nil =>
              apply Ensures.pure
              apply Ensures.pure
              refine ⟨toAfter, fun shares => ?_⟩
              rw [openedEq Before.rfl shares] at history ⊢
              exact ⟨by simpa using history, by simp⟩
          | cons next rest =>
              rcases released.next rfl with ⟨sameRecords, startAfter, restarted, rotates⟩
              have protectsAfter : Protects aes after.readSequence laterKeys (next :: rest) := by
                rwa [restarted]
              have keepsLater : ∀ plaintext ∈ plaintexts (next :: rest).flatten,
                  ¬KeyUpdate plaintext → KeepsKeys env plaintext := by
                intro plaintext among
                apply keeps plaintext
                rw [List.flatten_cons, plaintexts_append]
                exact List.mem_append_right _ among
              have nextStart : after.surfEpochStart = after.surfRecords.length := by
                rw [startAfter, sameRecords]
              refine (ih ends.2.2 protectsAfter keepsLater nextStart).mono ?_
              rintro outs final ⟨toFinal, openedLater⟩
              apply Ensures.pure
              refine ⟨toAfter.trans toFinal, fun shares => ?_⟩
              have isOpened := openedEq toFinal shares
              have keepsEpoch : ∀ plaintext ∈ opened.dropLast, KeepsKeys env plaintext := by
                intro plaintext among
                rw [isOpened] at among
                apply keeps plaintext _ (ends.2.1 plaintext among)
                rw [List.flatten_cons, plaintexts_append]
                exact List.mem_append_left _ (List.mem_of_mem_dropLast among)
              have rotated := rotates keepsEpoch
              rw [capturing.keys] at rotated
              rcases openedLater (shares.2 _ rotated) with ⟨historyLater, outsLater⟩
              have nextLength : after.surfRecords.length = ssl.surfRecords.length + epoch.length := by
                rw [sameRecords, capturing.records, List.length_append, length_numbered,
                  length_bodies]
              constructor
              · rw [historyLater, history, isOpened, nextLength, List.append_assoc,
                  ← zip_flatten_cons]
              · rw [List.flatten_cons, outsLater, isOpened, ← List.flatMap_append,
                  ← plaintexts_append]
                rfl

/-- Every record is opened once, in order, and to its plaintext. -/
def OpensAs (stream : List (List StreamRecord)) (before after : Ssl) : Prop :=
  after.opened = before.opened ++
    (List.range stream.flatten.length).zip (plaintexts stream.flatten)

theorem ensures_rotateSurfRelease {aes : Block → Block → Block} {originKeys : List RecordKeys}
    {stream : List (List StreamRecord)} {base : UInt64} (requireCloseNotify : Bool)
    (cipher : env.aes = fun key block => some (aes key block)) (ends : EpochsEnd stream)
    (neverEarly : NeverEarly env ssl.keyMaterial stream)
    (protects : Protects aes base originKeys stream)
    (records : ssl.surfRecords = numbered base (bodies stream.flatten)) :
    Ensures (rotateSurfRelease env requireCloseNotify)
      (fun _ after => SharesKeys env after.released ssl.keyMaterial originKeys →
        ReleasedInEpochs env ssl after [] base stream) ssl := by
  have total : ssl.surfRecords.length = 0 + stream.flatten.length := by
    rw [records, length_numbered, length_bodies, Nat.zero_add]
  apply Ensures.get_bind
  refine Ensures.require_bind fun _ => ?_
  apply Ensures.bind
  have inStream : ssl.surfRecords = [] ++ numbered base (bodies stream.flatten) := records
  refine (ensures_releaseEpochs _ [] cipher ends neverEarly protects inStream rfl total).mono ?_
  intro marked done inEpochs
  refine Ensures.keeps_bind Onward (keeps_modify fun ssl => IoBlind.epochKey ssl _ _ _ _)
    fun _ marking markingOnward => ?_
  refine Ensures.keeps_bind Onward (keeps_assemble _ _) fun out assembled assembledOnward => ?_
  refine Ensures.keeps_bind Onward (keeps_forEach keeps_replay _)
    fun _ after replayedOnward => Ensures.pure ?_
  have onward : Onward done after :=
    IsTrans.trans _ _ _ markingOnward (IsTrans.trans _ _ _ assembledOnward replayedOnward)
  intro shares
  have reached := inEpochs (shares.of_prefix onward.before.released)
  exact ⟨reached.before.trans onward.before, onward.records.trans reached.records,
    onward.opened.trans reached.opened, reached.verified.mono Before.rfl onward.before⟩

/-- A run that captures and releases one epoch after the other, on a connection with the same
records, of which the verifier has its part of the keys. -/
structure RunsByEpoch (aes : Block → Block → Block) (originKeys : List RecordKeys)
    (stream : List (List StreamRecord)) (base : UInt64) (env : Environment) (start final : Ssl)
    (outs : List Bytes) : Prop where
  cipher : env.aes = fun key block => some (aes key block)
  keeps : ∀ plaintext ∈ plaintexts stream.flatten, ¬KeyUpdate plaintext → KeepsKeys env plaintext
  records : start.surfRecords = []
  epochStart : start.surfEpochStart = 0
  readSequence : start.readSequence = base
  run : releaseByEpoch env stream start = (.returned outs, final)
  shares : SharesKeys env final.released start.keyMaterial originKeys

/-- A release of a stream that was captured as a whole finds its epochs, verifies and opens every
record with the keys of its epoch and the sequence number that the origin has used, and hands out
what the releases of the single epochs hand out. -/
theorem rotateSurfRelease_byEpoch {aes : Block → Block → Block} {originKeys : List RecordKeys}
    {stream : List (List StreamRecord)} {captured after : Ssl} {requireCloseNotify : Bool}
    {out : Bytes} (cipher : env.aes = fun key block => some (aes key block))
    (ends : EpochsEnd stream) (protects : Protects aes ssl.readSequence originKeys stream)
    (empty : ssl.surfRecords = [])
    (caught : Handler.forEach captureRecord (bodies stream.flatten) ssl = (.returned (), captured))
    (neverEarly : NeverEarly env captured.keyMaterial stream)
    (released : rotateSurfRelease env requireCloseNotify captured = (.returned out, after))
    (shares : SharesKeys env after.released captured.keyMaterial originKeys) :
    after.surfRecords = numberedEpochs ssl.readSequence stream ∧
      OpensAs stream captured after ∧
      VerifiedInEpochs env captured after captured.keyMaterial ssl.readSequence stream ∧
      ∀ (other : Environment) (start final : Ssl) (outs : List Bytes),
        RunsByEpoch aes originKeys stream ssl.readSequence other start final outs →
        OpensAs stream start final ∧ out = outs.flatten := by
  have records : captured.surfRecords = numbered ssl.readSequence (bodies stream.flatten) := by
    rcases ensures_captureAll _ _ _ caught with ⟨readSequence, rfl⟩
    simp [empty]
  have inEpochs := ensures_rotateSurfRelease requireCloseNotify cipher ends neverEarly protects
    records _ _ released shares
  have opens : OpensAs stream captured after := by
    have opened := inEpochs.opened
    rwa [List.length_nil, ← List.range_eq_range'] at opened
  refine ⟨by simpa using inEpochs.records, opens, inEpochs.verified, ?_⟩
  intro other start final outs byEpoch
  rcases rotateSurfRelease_spec requireCloseNotify _ _ released with
    ⟨opened, rfl, lengths, history, -⟩
  have total : captured.surfRecords.length = stream.flatten.length := by
    rw [records, length_numbered, length_bodies]
  have openedEq : opened = plaintexts stream.flatten := by
    rw [total] at lengths history
    rw [opens, List.append_cancel_left_eq, List.range_eq_range'] at history
    exact (eq_of_zip_range' (length_plaintexts _) lengths history).symm
  have protectsStart : Protects aes start.readSequence originKeys stream := by
    rwa [byEpoch.readSequence]
  have noRecords : start.surfRecords.length = 0 := by rw [byEpoch.records, List.length_nil]
  have isStart : start.surfEpochStart = start.surfRecords.length := by
    rw [byEpoch.epochStart, noRecords]
  rcases ensures_releaseByEpoch byEpoch.cipher ends protectsStart byEpoch.keeps isStart _ _
    byEpoch.run with ⟨-, outcome⟩
  rcases outcome byEpoch.shares with ⟨opensByEpoch, outsEq⟩
  refine ⟨?_, by rw [openedEq, outsEq]⟩
  rwa [noRecords, ← List.range_eq_range'] at opensByEpoch

section TwoKeys

/-- The keystream depends on the key, the IV and the number of the record. -/
def xorCipher (key block : Block) : Block := fun i => key i ^^^ block i

def firstKeys : RecordKeys := ⟨fun _ => 7, fun _ => 0⟩

def secondKeys : RecordKeys := ⟨fun _ => 8, fun _ => 2⟩

/-- A `KeyUpdate` after one record, and the end of the stream under the next keys, whose records
have another tag. -/
def twoKeyStream : List (List StreamRecord) :=
  [firstKeys.protect xorCipher 0 (fun _ => 0) [[104, 105, 23], [24, 0, 0, 1, 0, 22]],
    secondKeys.protect xorCipher 0 (fun _ => 1) [[33, 23], [1, 0, 21]]]

/-- A verifier that releases one share before the rotation and another one after it. -/
def Environment.twoKeys : Environment :=
  { Environment.cooperative with
    read := fun now count => some fun _ =>
      if count = 1 then MessageHeader.toByte .tagOk else if now < 14 then 7 else 9
    rotate := fun _ share =>
      some { nextShare := share, keyShare := fun _ => 1, iv := fun _ => 2 }
    aes := fun key block => some (xorCipher key block) }

/-- The same verifier rejects the tag of the later records under the first key, in `gcm_vfy` at
this time and with the byte that it sends next. -/
def Environment.rejectingAt (time : ℕ) : Environment :=
  { Environment.twoKeys with
    read := fun now count =>
      if count = 1 ∧ now = time + 1 then some fun _ => MessageHeader.toByte .tagReject
      else Environment.twoKeys.read now count
    gcmVfy := fun now input =>
      if input.key = (fun _ => 0) ∧ input.serverTag = (fun _ => 1) then
        if now = time then some { tagPassed := false, cheated := false, keyOpened := true }
        else none
      else some { tagPassed := true, cheated := false, keyOpened := true } }

theorem not_accepts_rejectingAt (time : ℕ) {captured : SurfRecord}
    (tag : captured.tag = fun _ => 1) :
    ¬Accepts (Environment.rejectingAt time) (fun _ => 0) captured := by
  rintro ⟨now, input, out, isOut, isKey, isTag, -, accepted⟩
  have underKey : input.key = (fun _ => 0) ∧ input.serverTag = (fun _ => 1) :=
    ⟨isKey, isTag.trans tag⟩
  simp only [Environment.rejectingAt, if_pos underKey] at isOut
  split at isOut
  · rename_i isTime
    cases isOut
    rcases accepted with passed | acknowledged
    · exact nomatch passed
    · rw [isTime] at acknowledged
      simp only [Environment.rejectingAt, and_self, if_true] at acknowledged
      have isOk := congrFun (Option.some.inj acknowledged) 0
      revert isOk
      decide
  · exact nomatch isOut

theorem neverEarly_twoKeyStream {keys : KeyMaterial} (isKey : keys.serverKeyShare = fun _ => 0) :
    NeverEarly (Environment.rejectingAt 9) keys twoKeyStream := by
  refine ⟨?_, fun next _ => ⟨nofun, fun _ _ => trivial⟩⟩
  have laterTags : ∀ body ∈ bodies twoKeyStream.tail.flatten,
      (fun i : Fin 16 => body.getD (body.length - 16 + i) 0) = fun _ => 1 := by
    decide +kernel
  intro body among seq verifies
  have accepts := verifies.accepts
  rw [isKey] at accepts
  exact not_accepts_rejectingAt 9 (laterTags body among) accepts

theorem Rotates.exists_out {keys next : KeyMaterial} (rotates : Rotates env keys next) :
    ∃ now out, env.rotate now keys.satsShare = some out ∧ next.serverKeyShare = out.keyShare := by
  rcases rotates with ⟨s, after, rfl, rfl, ended⟩
  have rotated : Ensures (rotateServerKeys env)
      (fun _ after => ∃ now out, env.rotate now s.satsShare = some out ∧
        after.serverKeyShare = out.keyShare) s := by
    refine Ensures.get_bind (Ensures.require_bind fun _ => ?_)
    apply Ensures.bind
    refine (ensures_sslWrite _).mono ?_
    rintro _ _ rfl
    apply Ensures.bind
    refine ensures_tick.mono ?_
    rintro now _ ⟨rfl, rfl⟩
    refine Ensures.ofOption_bind fun out isOut => ?_
    apply Ensures.modify_bind
    apply Ensures.bind
    refine ensures_tick.mono ?_
    rintro _ _ ⟨rfl, rfl⟩
    refine Ensures.ofOption_bind fun powers _ => ?_
    exact Ensures.modify ⟨_, out, isOut, rfl⟩
  exact rotated _ _ ended

theorem sharesKeys_twoKeys {keys : KeyMaterial} {log : List (KeyMaterial × Block)}
    (rotate : env.rotate = Environment.twoKeys.rotate)
    (first : ∀ entry ∈ log, entry.1 = keys → ⟨entry.2, staticIv keys.serverIv⟩ = firstKeys)
    (second : ∀ entry ∈ log, entry.1.serverKeyShare = (fun _ => 1) →
      ⟨entry.2, staticIv entry.1.serverIv⟩ = secondKeys) :
    SharesKeys env log keys [firstKeys, secondKeys] := by
  refine ⟨first, fun next rotates => ⟨?_, fun _ _ => trivial⟩⟩
  rintro entry among rfl
  rcases rotates.exists_out with ⟨now, out, isOut, isShare⟩
  rw [rotate] at isOut
  cases isOut
  exact second entry among isShare

/-- The stream, captured as a whole on a new connection. -/
def twoKeyCapture : Ssl :=
  (Handler.forEach captureRecord (bodies twoKeyStream.flatten) (Ssl.initial .rotate)).2

theorem twoKeyStream_byEpoch :
    (rotateSurfRelease (Environment.rejectingAt 9) true twoKeyCapture).1 =
        .returned [104, 105, 33] ∧
      ∃ outs, (releaseByEpoch Environment.twoKeys twoKeyStream (Ssl.initial .rotate)).1 =
        .returned outs ∧ [104, 105, 33] = outs.flatten := by
  have caught : Handler.forEach captureRecord (bodies twoKeyStream.flatten) (Ssl.initial .rotate) =
      (.returned (), twoKeyCapture) := rfl
  have ends : EpochsEnd twoKeyStream :=
    ⟨⟨_, rfl, by decide⟩, by decide, ⟨_, rfl, by decide⟩, by decide⟩
  have protects : Protects xorCipher 0 [firstKeys, secondKeys] twoKeyStream :=
    ⟨protected_protect (by decide), protected_protect (by decide), trivial⟩
  have returned : (rotateSurfRelease (Environment.rejectingAt 9) true twoKeyCapture).1 =
      .returned [104, 105, 33] := by decide +kernel
  have returnedByEpoch : (releaseByEpoch Environment.twoKeys twoKeyStream
      (Ssl.initial .rotate)).1 = .returned [[104, 105], [33]] := by decide +kernel
  have shares : SharesKeys (Environment.rejectingAt 9)
      (rotateSurfRelease (Environment.rejectingAt 9) true twoKeyCapture).2.released
      twoKeyCapture.keyMaterial [firstKeys, secondKeys] :=
    sharesKeys_twoKeys rfl (by decide +kernel) (by decide +kernel)
  have sharesByEpoch : SharesKeys Environment.twoKeys
      (releaseByEpoch Environment.twoKeys twoKeyStream (Ssl.initial .rotate)).2.released
      (Ssl.initial .rotate).keyMaterial [firstKeys, secondKeys] :=
    sharesKeys_twoKeys rfl (by decide +kernel) (by decide +kernel)
  have keeps (plaintext : Bytes) : KeepsKeys Environment.twoKeys plaintext := by
    intro _ _ _ isEffect
    cases isEffect
  refine ⟨returned, _, returnedByEpoch, ?_⟩
  -- Both runs are named, so that no later step evaluates them again.
  rcases released : rotateSurfRelease (Environment.rejectingAt 9) true twoKeyCapture with
    ⟨outcome, after⟩
  rcases releasedByEpoch : releaseByEpoch Environment.twoKeys twoKeyStream
    (Ssl.initial .rotate) with ⟨outcomeByEpoch, final⟩
  rw [released] at returned shares
  rw [releasedByEpoch] at returnedByEpoch sharesByEpoch
  cases returned
  cases returnedByEpoch
  rcases rotateSurfRelease_byEpoch rfl ends protects rfl caught (neverEarly_twoKeyStream rfl)
    released shares with ⟨-, -, -, sameOut⟩
  exact (sameOut _ _ _ _ ⟨rfl, fun plaintext _ _ => keeps plaintext, rfl, rfl, rfl,
    releasedByEpoch, sharesByEpoch⟩).2

end TwoKeys

end ByEpoch

end PracticalCrypto.Surf.Prover
