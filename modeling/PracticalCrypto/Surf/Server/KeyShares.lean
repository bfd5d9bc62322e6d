import PracticalCrypto.Surf.Server.Piggyback
import PracticalCrypto.Surf.Server.Survival

/-!
# Key shares across connections

`create_new_share` answers the entries of a `COLLECT` message: for each it generates a key
and adds the received point. The two `KeyShare` objects belong to the `Server` and are not
cleared between connections. A message with one entry writes only the first of them, while
`send_additive_share` sends, and `finish_tph` searches, both.
-/

namespace PracticalCrypto.Surf

open Handler

/-- The curve arithmetic that `KeyShare::create_new_share` uses. -/
structure Curves (Point : Type) where
  /-- The public key that `SSLKeyShare::Generate` writes at a time, for a group. -/
  generate : ℕ → UInt16 → Option Bytes
  /-- `EC_POINT_oct2point`. -/
  oct2point : UInt16 → Bytes → Option Point
  add : UInt16 → Point → Point → Point
  /-- `EC_POINT_point2cbb`. -/
  point2cbb : UInt16 → Point → Option Bytes

namespace Curves

variable {Point : Type} (curves : Curves Point)

/-- `SSL_CURVE_X25519` and the two groups that combine it with a lattice scheme. -/
def curve25519Groups : List UInt16 := [29, 0x11ec, 0x6399]

/-- The other groups for which `SSLKeyShare::Create` makes a share. -/
def nistGroups : List UInt16 := [23, 24, 25]

/-- `POINT_CONVERSION_UNCOMPRESSED`. -/
def uncompressed : UInt8 := 4

def decode (group : UInt16) (bytes : Bytes) : Option Point :=
  if bytes.head? = some uncompressed then curves.oct2point group bytes else none

/-- The entry that answers a received one: the sum of its point and of the key generated now. -/
def sumEntry (now : ℕ) (group : UInt16) (peerKey : Bytes) : Option Bytes := do
  let ourKey ← curves.generate now group
  let peerPoint ← curves.decode group peerKey
  let ourPoint ← curves.decode group ourKey
  let sum ← curves.point2cbb group (curves.add group ourPoint peerPoint)
  if sum.length < 2 ^ 16 then some (Server.keyEntry group sum) else none

/-- `KeyShare::create_new_share`. The last sum stays until a new one is complete. -/
def createNewShare (now : ℕ) (share : KeyShare) (group : UInt16) (peerKey : Bytes) :
    Bool × KeyShare :=
  if group ∈ curve25519Groups then (false, share)
  else if group ∉ nistGroups then (false, { share with groupId := 0 })
  else
    match curves.sumEntry now group peerKey with
    | none => (false, { share with groupId := group })
    | some additiveShare => (true, { groupId := group, additiveShare })

/-- A share that was created has the group and the sum of its entry. -/
theorem createNewShare_created {now : ℕ} {share : KeyShare} {group : UInt16} {peerKey : Bytes}
    (created : (curves.createNewShare now share group peerKey).1 = true) :
    ∃ sum, curves.sumEntry now group peerKey = some sum ∧
      (curves.createNewShare now share group peerKey).2 = ⟨group, sum⟩ := by
  rw [createNewShare] at created ⊢
  split_ifs at created ⊢ with hybrid nist
  rcases found : curves.sumEntry now group peerKey with _ | sum
  · rw [found] at created
    cases created
  · exact ⟨sum, rfl, rfl⟩

/-- The answers to a list of entries, created one after another. -/
def answers (now : ℕ) : List (UInt16 × Bytes) → Option (List Bytes)
  | [] => some []
  | entry :: later => do
      let answer ← curves.sumEntry now entry.1 entry.2
      let others ← answers (now + 1) later
      some (answer :: others)

end Curves

/-- The environment in which the key shares are computed with these curves. A share that was never
created cannot be finished. -/
def Environment.withCurves {Point : Type} (env : Environment) (curves : Curves Point) :
    Environment :=
  { env with
    createNewShare := curves.createNewShare
    finish := fun now share key => share.groupId != 0 && env.finish now share key }

namespace Server

/-- The entries of a `COLLECT` message: one or two. -/
def collectEntries (payload : Bytes) : Option (List (UInt16 × Bytes)) := do
  let first ← takeKeyEntry payload
  if first.2.2 = [] then some [(first.1, first.2.1)]
  else do
    let second ← takeKeyEntry first.2.2
    if second.2.2 = [] then some [(first.1, first.2.1), (second.1, second.2.1)] else none

/-- The group that the `SERVER_KEY_SHARE` message names. -/
def namedGroup (server : Server) : Option UInt16 :=
  (takeKeyEntry server.clientPublicKey).map Prod.fst

section Connections

variable (env : Environment)

/-- The three ways in which an operator serves a connection. -/
inductive Driver where
  | full
  | resumed
  | announced
deriving Repr, DecidableEq

/-- A connection up to the state `stopState`. -/
def connect (shouldPreproc : Bool) (stopState : ServerState) : Driver → Handler Server Unit
  | .full => run env stopState shouldPreproc false
  | .resumed => runResumption env stopState shouldPreproc false
  | .announced => do
      let kind ← acceptAndReadMode env
      match kind with
      | .full => run env stopState shouldPreproc true
      | .resumed => runResumption env stopState shouldPreproc true

variable {env} in
/-- The calls of an operator are connections up to some state. -/
theorem perform_eq_connect (shouldPreproc : Bool) (stopState : ServerState) :
    perform env (.run stopState shouldPreproc) = connect env shouldPreproc stopState .full ∧
      perform env (.runResumption stopState shouldPreproc) =
        connect env shouldPreproc stopState .resumed ∧
      perform env (.serveConnection shouldPreproc) =
        connect env shouldPreproc .done .announced := ⟨rfl, rfl, rfl⟩

variable {Point : Type} (curves : Curves Point)

/-- The reply consists of one answer to each entry of the message. -/
def RepliesExactly (collected replied : Server) : Prop :=
  ∃ entries answers, collectEntries collected.clientPublicKey = some entries ∧
    curves.answers collected.clock entries = some answers ∧
    replied.outbox = collected.outbox ++ MessageHeader.toByte .ok :: answers.flatten

/-- The selected share is the answer to an entry of the message. -/
def SelectsAnswer (collected selected : Server) : Prop :=
  ∃ entries, collectEntries collected.clientPublicKey = some entries ∧
    ∃ (i : ℕ) (entry : UInt16 × Bytes) (sum : Bytes), entries[i]? = some entry ∧
      curves.sumEntry (collected.clock + i) entry.1 entry.2 = some sum ∧
      selected.activeShare = ⟨entry.1, sum⟩

/-- The key shares that a connection sends and selects are its own. -/
def KeySharesCurrent (shouldPreproc : Bool) (driver : Driver) (server : Server) : Prop :=
  ∀ collected, connect env shouldPreproc .makingKs driver server = (.returned (), collected) →
    (∀ replied, connect env shouldPreproc .pskBinder driver server = (.returned (), replied) →
      RepliesExactly curves collected replied) ∧
    ∀ selected, connect env shouldPreproc .writingHsRecv driver server = (.returned (), selected) →
      SelectsAnswer curves collected selected

end Connections

section Shares

variable {Point : Type} {curves : Curves Point} {env : Environment} {s : Server}

/-- What `create_new_share` leaves in the two slots, for a message that was parsed completely. -/
inductive Offered (curves : Curves Point) (payload : Bytes) (now : ℕ) (second : KeyShare) :
    KeyShare → KeyShare → Prop
  | one {group : UInt16} {key sum : Bytes}
      (parsed : collectEntries payload = some [(group, key)])
      (created : curves.sumEntry now group key = some sum) :
      Offered curves payload now second ⟨group, sum⟩ second
  | two {group other : UInt16} {key otherKey sum otherSum : Bytes}
      (parsed : collectEntries payload = some [(group, key), (other, otherKey)])
      (created : curves.sumEntry now group key = some sum)
      (createdToo : curves.sumEntry (now + 1) other otherKey = some otherSum) :
      Offered curves payload now second ⟨group, sum⟩ ⟨other, otherSum⟩

theorem ensures_createNewShare :
    Ensures (createNewShare (env.withCurves curves))
      (fun _ after => after.outbox = s.outbox ∧
        Offered curves s.clientPublicKey s.clock s.keyShareB after.keyShareA after.keyShareB) s := by
  refine Ensures.get_bind (Ensures.ofOption_bind fun first found => ?_)
  refine Ensures.bind (ensures_tick.mono ?_)
  rintro now _ ⟨rfl, rfl⟩
  refine Ensures.modify_bind (Ensures.require_bind fun created => ?_)
  rcases curves.createNewShare_created created with ⟨sum, isSum, share⟩
  refine Ensures.ite (fun last => ?_) fun more => ?_
  · have parsed : collectEntries s.clientPublicKey = some [(first.1, first.2.1)] := by
      simp only [collectEntries, found, Option.bind_eq_bind, Option.bind_some]
      exact if_pos last
    have offered : Offered curves s.clientPublicKey s.clock s.keyShareB _ _ := .one parsed isSum
    rw [← share] at offered
    exact Ensures.modify ⟨rfl, offered⟩
  · refine Ensures.ofOption_bind fun second foundToo => ?_
    refine Ensures.bind (ensures_tick.mono ?_)
    rintro later _ ⟨rfl, rfl⟩
    refine Ensures.modify_bind (Ensures.require_bind fun createdToo => ?_)
    rcases curves.createNewShare_created createdToo.1 with ⟨otherSum, isOtherSum, otherShare⟩
    have parsed : collectEntries s.clientPublicKey =
        some [(first.1, first.2.1), (second.1, second.2.1)] := by
      simp only [collectEntries, found, Option.bind_eq_bind, Option.bind_some]
      rw [if_neg more, foundToo, Option.bind_some, if_pos createdToo.2]
    have offered : Offered curves s.clientPublicKey s.clock s.keyShareB _ _ :=
      .two parsed isSum isOtherSum
    rw [← share, ← otherShare] at offered
    exact Ensures.modify ⟨rfl, offered⟩

theorem ensures_sendAdditiveShare :
    Ensures (sendAdditiveShare env)
      (fun _ after => after.outbox = s.outbox ++ MessageHeader.toByte .ok ::
        (s.keyShareA.additiveShare ++ s.keyShareB.additiveShare)) s := by
  refine Ensures.get_bind (Ensures.require_bind fun _ => ?_)
  refine Ensures.bind ?_
  refine Ensures.bind (ensures_tick.mono ?_)
  rintro now _ ⟨rfl, rfl⟩
  exact Ensures.require_bind fun _ => Ensures.modify (Ensures.modify rfl)

/-- The slots of the key shares. -/
def slots (server : Server) : KeyShare × KeyShare := (server.keyShareA, server.keyShareB)

instance setupBlindSlots : SetupBlind (Same slots) where
  io _ _ _ _ _ _ _ _ := rfl
  circuits _ _ := rfl
  setup _ _ _ _ _ := rfl

/-- `finish_tph` takes the first slot whose group is the named one, if its share was created. -/
theorem ensures_finishTph :
    Ensures (finishTph (env.withCurves curves))
      (fun _ after => after.slots = s.slots ∧ after.activeShare.groupId ≠ 0 ∧
        ∃ named, after.namedGroup = some named ∧
          (after.activeShare = s.keyShareA ∧ s.keyShareA.groupId = named ∨
            after.activeShare = s.keyShareB ∧ s.keyShareA.groupId ≠ named ∧
              s.keyShareB.groupId = named)) s := by
  refine Ensures.get_bind (Ensures.ofOption_bind fun entry found => ?_)
  refine Ensures.require_bind fun _ => Ensures.ofOption_bind fun choice chosen => ?_
  refine Ensures.modify_bind (Ensures.bind (ensures_tick.mono ?_))
  rintro now _ ⟨rfl, rfl⟩
  refine Ensures.require_bind fun finished => Ensures.modify ?_
  have named : s.namedGroup = some entry.1 := by rw [namedGroup, found, Option.map_some]
  have created : choice.2.groupId ≠ 0 := bne_iff_ne.mp (Bool.and_eq_true_iff.mp finished).1
  split_ifs at chosen with first second
  · cases chosen
    exact ⟨rfl, created, entry.1, named, .inl ⟨rfl, first⟩⟩
  · cases chosen
    exact ⟨rfl, created, entry.1, named, .inr ⟨rfl, first, second⟩⟩

end Shares

section Drivers

variable {env : Environment} {shouldPreproc : Bool} {s t u : Server}

/-- The handlers of these states return one after another, whatever `state` they find. -/
inductive Serves (env : Environment) (shouldPreproc : Bool) :
    List ServerState → Server → Server → Prop
  | nil (s : Server) : Serves env shouldPreproc [] s s
  | cons {state : ServerState} {later : List ServerState} {s served u : Server}
      (entered : ServerState)
      (ended : serve env shouldPreproc state { s with state := entered } = (.returned (), served))
      (rest : Serves env shouldPreproc later served u) : Serves env shouldPreproc (state :: later) s u

theorem Serves.of_cons {state : ServerState} {later : List ServerState}
    (serves : Serves env shouldPreproc (state :: later) s u) :
    ∃ entered served,
      serve env shouldPreproc state { s with state := entered } = (.returned (), served) ∧
        Serves env shouldPreproc later served u := by
  cases serves with
  | cons entered ended rest => exact ⟨entered, _, ended, rest⟩

theorem Serves.of_nil (serves : Serves env shouldPreproc [] s u) : s = u := by
  cases serves with
  | nil => rfl

/-- Up to `finish_tph`, only `create_new_share` changes the slots. -/
theorem keepsSlots_serve {state : ServerState} (making : state ≠ .makingKs)
    (early : state.value < ServerState.finishingTph.value) :
    Keeps (Same slots) (serve env shouldPreproc state) := by
  cases state with
  | accept => exact keeps_accept
  | handshake => exact keeps_doHandshake
  | handshakeDone => exact keeps_writeHandshakeDone
  | circuitPreproc => exact keeps_doPreproc _
  | maskCommit =>
      refine keeps_bind keeps_get fun _ => keeps_ite keeps_advance ?_
      refine keeps_bind keeps_readSingleHeader fun _ => keeps_bind (keeps_require _) fun _ => ?_
      refine keeps_bind (keeps_readExact _) fun _ => keeps_bind ?_ fun _ => keeps_advance
      exact keeps_modify fun _ => rfl
  | readingKs => exact keeps_bind (keeps_readKeyshare _) fun _ => keeps_setState _
  | makingKs => exact absurd rfl making
  | writingKs => exact keeps_sendAdditiveShare
  | pskBinder => exact keeps_doPskBinder
  | readingSks => exact keeps_bind (keeps_readKeyshare _) fun _ => keeps_advance
  | _ => exact absurd early (by decide)

theorem keepsSlots_early {state : ServerState}
    (early : state.value < ServerState.makingKs.value) :
    Keeps (Same slots) (serve env shouldPreproc state) := by
  refine keepsSlots_serve ?_ (early.trans (by decide))
  rintro rfl
  exact lt_irrefl _ early

theorem runLoop_stopped {stopState : ServerState} (fuel : ℕ)
    (reached : stopState.value ≤ s.state.value) :
    runLoop env stopState shouldPreproc (fuel + 1) s = (.returned (), s) := by
  rw [runLoop, bind_of_returned (show Handler.get s = (.returned s, s) from rfl), if_pos reached]
  rfl

theorem runLoop_running {stopState : ServerState} (fuel : ℕ)
    (running : s.state.value < stopState.value) :
    runLoop env stopState shouldPreproc (fuel + 1) s =
      (serve env shouldPreproc s.state >>= fun _ =>
        runLoop env stopState shouldPreproc fuel) s := by
  rw [runLoop, bind_of_returned (show Handler.get s = (.returned s, s) from rfl),
    if_neg (Nat.not_le.mpr running)]

theorem Follows.value_le_makingKs {state after : ServerState} (follows : Follows state after)
    (early : state.value < ServerState.makingKs.value) :
    after.value ≤ ServerState.makingKs.value := by
  rcases follows with rfl | ⟨_, bound⟩
  · cases state with
    | accept | handshake | handshakeDone | circuitPreproc | maskCommit | readingKs => decide
    | _ => exact absurd early (by decide)
  · exact bound

/-- The loop of `run` comes by `MAKING_KS` if it goes further. -/
theorem runLoop_through {stopState : ServerState} {fuel : ℕ}
    (early : s.state.value ≤ ServerState.makingKs.value)
    (further : ServerState.makingKs.value < stopState.value) :
    Ensures (runLoop env stopState shouldPreproc fuel)
      (fun _ after => ∃ collected left,
        runLoop env .makingKs shouldPreproc fuel s = (.returned (), collected) ∧
          collected.state = .makingKs ∧ collected.slots = s.slots ∧
          runLoop env stopState shouldPreproc left collected = (.returned (), after)) s := by
  induction fuel generalizing s with
  | zero => exact Ensures.fail
  | succ fuel ih =>
      rcases Nat.eq_or_lt_of_le early with there | before
      · intro _ after ended
        have inState := ServerState.value_injective there
        exact ⟨s, fuel + 1, runLoop_stopped fuel there.ge, inState, rfl, ended⟩
      · rw [Ensures, runLoop_running fuel (before.trans further), runLoop_running fuel before]
        refine Ensures.bind fun _ served ended => ?_
        have follows := settles_serve shouldPreproc s.state s rfl _ _ ended
        have kept : served.slots = s.slots := (keepsSlots_early before).of_eq ended
        rw [bind_of_returned ended]
        refine (ih (follows.value_le_makingKs before)).mono ?_
        rintro _ after ⟨collected, left, reached, inState, same, rest⟩
        exact ⟨collected, left, reached, inState, same.trans kept, rest⟩

/-- After `MAKING_KS` the loop serves one state after the other. -/
theorem serves_of_runLoop {stopState : ServerState} {states : List ServerState} {fuel : ℕ}
    (chain : (states ++ [stopState]).IsChain fun state following => following = state.next)
    (first : (states ++ [stopState]).head? = some s.state)
    (between : ∀ state ∈ states,
      ServerState.makingKs.value ≤ state.value ∧ state.value < stopState.value) :
    Ensures (runLoop env stopState shouldPreproc fuel)
      (fun _ after => Serves env shouldPreproc states s after) s := by
  induction fuel generalizing s states with
  | zero => exact Ensures.fail
  | succ fuel ih =>
      cases states with
      | nil =>
          rw [List.nil_append, List.head?_cons, Option.some_inj] at first
          rw [Ensures, runLoop_stopped fuel (by rw [first])]
          rintro _ _ ⟨⟩
          exact .nil s
      | cons state later =>
          rw [List.cons_append, List.head?_cons, Option.some_inj] at first
          rcases List.forall_mem_cons.mp between with ⟨⟨late, running⟩, rest⟩
          subst first
          rw [Ensures, runLoop_running fuel running]
          refine Ensures.bind fun _ served ended => ?_
          have next := (settles_serve shouldPreproc s.state s rfl _ _ ended).eq_next
            (le_trans (by decide) late)
          have head : (later ++ [stopState]).head? = some served.state := by
            rw [next]
            rcases later with _ | ⟨following, _⟩
            · exact congrArg some (List.isChain_cons_cons.mp chain).1
            · exact congrArg some (List.isChain_cons_cons.mp chain).1
          refine (ih chain.tail head rest).mono fun _ _ served => ?_
          exact .cons s.state ended served

theorem serves_forEach {states : List ServerState} :
    Ensures
      (Handler.forEach (fun state => do
        setState state
        serve env shouldPreproc state) states)
      (fun _ after => Serves env shouldPreproc states s after) s := by
  induction states generalizing s with
  | nil => exact Ensures.pure (.nil s)
  | cons state later ih =>
      refine Ensures.bind (Ensures.modify_bind fun _ served ended => ?_)
      exact ih.mono fun _ _ rest => .cons state ended rest

theorem Serves.keepsSlots {states : List ServerState} (serves : Serves env shouldPreproc states s u)
    (early : ∀ state ∈ states, state.value < ServerState.makingKs.value) : u.slots = s.slots := by
  induction serves with
  | nil s => rfl
  | cons entered ended rest ih =>
      rcases List.forall_mem_cons.mp early with ⟨here, later⟩
      have kept := (keepsSlots_early here).of_eq ended
      exact (ih later).trans kept

theorem forEach_append {α : Type} (body : α → Handler Server Unit) (items later : List α) :
    Handler.forEach body (items ++ later) =
      Handler.forEach body items >>= fun _ => Handler.forEach body later := by
  induction items with
  | nil => rfl
  | cons item items ih =>
      rw [List.cons_append, Handler.forEach, Handler.forEach, ih, bind_assoc]

/-- The states lead from `MAKING_KS` to the stop state, in both drivers. -/
structure LeadsTo (states : List ServerState) (stopState : ServerState) : Prop where
  chain : (states ++ [stopState]).IsChain fun state following => following = state.next
  first : (states ++ [stopState]).head? = some .makingKs
  between : ∀ state ∈ states,
    ServerState.makingKs.value ≤ state.value ∧ state.value < stopState.value
  further : ServerState.makingKs.value < stopState.value
  prescribed : ∀ alreadyAccepted, prescribedStates stopState alreadyAccepted =
    prescribedStates .makingKs alreadyAccepted ++ states

variable {states : List ServerState} {stopState : ServerState}

/-- What a connection does from `MAKING_KS` on. -/
def Continues (env : Environment) (shouldPreproc : Bool) (states : List ServerState)
    (reach : Handler Server Unit) (server after : Server) : Prop :=
  ∃ collected, reach server = (.returned (), collected) ∧ collected.slots = server.slots ∧
    Serves env shouldPreproc states collected after

theorem continues_run (leads : LeadsTo states stopState) (alreadyAccepted : Bool)
    (early : alreadyAccepted = true → s.state.value ≤ ServerState.makingKs.value) :
    Ensures (run env stopState shouldPreproc alreadyAccepted)
      (fun _ after => Continues env shouldPreproc states
        (run env .makingKs shouldPreproc alreadyAccepted) s after) s := by
  have loop (entered : Server) (same : entered.slots = s.slots)
      (early : entered.state.value ≤ ServerState.makingKs.value)
      (enters : ∀ stopState, run env stopState shouldPreproc alreadyAccepted s =
        runLoop env stopState shouldPreproc 28 entered) :
      Ensures (run env stopState shouldPreproc alreadyAccepted)
        (fun _ after => Continues env shouldPreproc states
          (run env .makingKs shouldPreproc alreadyAccepted) s after) s := by
    rw [Ensures, enters]
    refine (runLoop_through early leads.further).mono ?_
    rintro _ after ⟨collected, left, reached, inState, kept, rest⟩
    have first := leads.first
    rw [← inState] at first
    refine ⟨collected, (enters _).trans reached, kept.trans same, ?_⟩
    exact serves_of_runLoop leads.chain first leads.between _ _ rest
  cases alreadyAccepted with
  | false =>
      exact loop
        { s with state := .accept, session := clearConnection s.session, isResumptionRun := false }
        rfl (show ServerState.accept.value ≤ ServerState.makingKs.value by decide) fun _ => rfl
  | true => exact loop { s with isResumptionRun := false } rfl (early rfl) fun _ => rfl

theorem prescribedStates_early {alreadyAccepted : Bool} :
    ∀ state ∈ prescribedStates .makingKs alreadyAccepted,
      state.value < ServerState.makingKs.value := by
  cases alreadyAccepted <;> decide

theorem continues_runResumption (leads : LeadsTo states stopState) (alreadyAccepted : Bool) :
    Ensures (runResumption env stopState shouldPreproc alreadyAccepted)
      (fun _ after => Continues env shouldPreproc states
        (runResumption env .makingKs shouldPreproc alreadyAccepted) s after) s := by
  have loop (entered : Server) (same : entered.slots = s.slots)
      (enters : ∀ stopState, runResumption env stopState shouldPreproc alreadyAccepted s =
        Handler.forEach (fun state => do
          setState state
          serve env shouldPreproc state) (prescribedStates stopState alreadyAccepted) entered) :
      Ensures (runResumption env stopState shouldPreproc alreadyAccepted)
        (fun _ after => Continues env shouldPreproc states
          (runResumption env .makingKs shouldPreproc alreadyAccepted) s after) s := by
    rw [Ensures, enters, leads.prescribed, forEach_append]
    refine Ensures.bind fun _ collected reached => ?_
    have kept := (serves_forEach _ _ reached).keepsSlots prescribedStates_early
    refine serves_forEach.mono fun _ after serves => ?_
    exact ⟨collected, (enters _).trans reached, kept.trans same, serves⟩
  cases alreadyAccepted with
  | false =>
      exact loop
        { s with
          session := clearConnection s.session
          circuits := fun _ => false
          isResumptionRun := true }
        rfl fun _ => rfl
  | true =>
      exact loop { s with circuits := fun _ => false, isResumptionRun := true } rfl fun _ => rfl

theorem keepsSlots_acceptAndReadMode : Keeps (Same slots) (acceptAndReadMode env) := by
  refine keeps_bind (keeps_modify fun _ => rfl) fun _ => keeps_bind (keeps_setState _) fun _ => ?_
  refine keeps_bind keeps_accept fun _ => keeps_bind keeps_doHandshake fun _ => ?_
  refine keeps_bind keeps_get fun _ => keeps_bind (keeps_require _) fun _ => ?_
  refine keeps_bind keeps_writeHandshakeDone fun _ => keeps_bind keeps_readSingleHeader fun _ => ?_
  exact keeps_bind (keeps_require _) fun _ => keeps_pure _

/-- Every connection that goes further comes by `MAKING_KS` with the slots as it found them. -/
theorem continues_connect (leads : LeadsTo states stopState) (driver : Driver) :
    Ensures (connect env shouldPreproc stopState driver)
      (fun _ after => Continues env shouldPreproc states
        (connect env shouldPreproc .makingKs driver) s after) s := by
  cases driver with
  | full => exact continues_run leads false nofun
  | resumed => exact continues_runResumption leads false
  | announced =>
      refine Ensures.bind fun kind accepted ended => ?_
      have kept := keepsSlots_acceptAndReadMode.of_eq ended
      have early := ensures_acceptAndReadMode _ _ ended
      cases kind with
      | full =>
          refine (continues_run leads true fun _ => early).mono ?_
          rintro _ after ⟨collected, reached, same, serves⟩
          exact ⟨collected, (bind_of_returned ended).trans reached, same.trans kept, serves⟩
      | resumed =>
          refine (continues_runResumption leads true).mono ?_
          rintro _ after ⟨collected, reached, same, serves⟩
          exact ⟨collected, (bind_of_returned ended).trans reached, same.trans kept, serves⟩

theorem leadsTo_pskBinder : LeadsTo [.makingKs, .writingKs] .pskBinder where
  chain := by decide
  first := rfl
  between := by decide
  further := by decide
  prescribed := by decide

theorem leadsTo_writingHsRecv :
    LeadsTo [.makingKs, .writingKs, .pskBinder, .readingSks, .finishingTph] .writingHsRecv where
  chain := by decide
  first := rfl
  between := by decide
  further := by decide
  prescribed := by decide

end Drivers

section Replies

variable {Point : Type} {curves : Curves Point} {env : Environment} {shouldPreproc : Bool}
  {s t u : Server}

theorem Serves.replied
    (serves : Serves (env.withCurves curves) shouldPreproc [.makingKs, .writingKs] t u) :
    ∃ first second, Offered curves t.clientPublicKey t.clock t.keyShareB first second ∧
      u.outbox = t.outbox ++ MessageHeader.toByte .ok ::
        (first.additiveShare ++ second.additiveShare) := by
  rcases serves.of_cons with ⟨_, served, made, sending⟩
  rcases sending.of_cons with ⟨_, _, sent, stopped⟩
  cases stopped.of_nil
  have offered := ensures_createNewShare _ _ made
  have written := ensures_sendAdditiveShare _ _ sent
  refine ⟨served.keyShareA, served.keyShareB, offered.2, ?_⟩
  rw [written]
  exact congrArg (· ++ _) offered.1

theorem Serves.selected
    (serves : Serves (env.withCurves curves) shouldPreproc
      [.makingKs, .writingKs, .pskBinder, .readingSks, .finishingTph] t u) :
    ∃ first second, Offered curves t.clientPublicKey t.clock t.keyShareB first second ∧
      u.activeShare.groupId ≠ 0 ∧
      ∃ named, u.namedGroup = some named ∧
        (u.activeShare = first ∧ first.groupId = named ∨
          u.activeShare = second ∧ first.groupId ≠ named ∧ second.groupId = named) := by
  rcases serves.of_cons with ⟨_, served, made, sending⟩
  rcases sending.of_cons with ⟨_, _, sent, binding⟩
  rcases binding.of_cons with ⟨_, _, bound, reading⟩
  rcases reading.of_cons with ⟨_, named, read, finishing⟩
  rcases finishing.of_cons with ⟨_, _, finished, stopped⟩
  cases stopped.of_nil
  have offered := ensures_createNewShare _ _ made
  have afterReply := (keepsSlots_serve (by decide) (by decide)).of_eq sent
  have afterBinder := (keepsSlots_serve (by decide) (by decide)).of_eq bound
  have afterRead := (keepsSlots_serve (by decide) (by decide)).of_eq read
  have kept : named.slots = served.slots := afterRead.trans (afterBinder.trans afterReply)
  rcases Prod.mk.inj kept with ⟨sameFirst, sameSecond⟩
  rcases ensures_finishTph _ _ finished with ⟨_, created, group, isNamed, selection⟩
  refine ⟨served.keyShareA, served.keyShareB, offered.2, created, group, isNamed, ?_⟩
  rw [← sameFirst, ← sameSecond]
  exact selection

/-- The condition under which a connection keeps to its own shares: the message fills both slots,
or the second one holds no sum and the prover names the group of its only entry. -/
def OwnSharesOnly (env : Environment) (shouldPreproc : Bool) (driver : Driver) (server : Server) :
    Prop :=
  ∀ collected, connect env shouldPreproc .makingKs driver server = (.returned (), collected) →
    ∀ group key, collectEntries collected.clientPublicKey = some [(group, key)] →
      (∀ replied, connect env shouldPreproc .pskBinder driver server = (.returned (), replied) →
        server.keyShareB.additiveShare = []) ∧
      ∀ selected,
        connect env shouldPreproc .writingHsRecv driver server = (.returned (), selected) →
          selected.namedGroup = some group

variable {collected replied selected : Server} {first second : KeyShare}

/-- With one entry the reply is exact if the other slot has nothing to add. -/
theorem repliesExactly_one_iff {group : UInt16} {key sum : Bytes}
    (parsed : collectEntries collected.clientPublicKey = some [(group, key)])
    (created : curves.sumEntry collected.clock group key = some sum)
    (sent : replied.outbox = collected.outbox ++ MessageHeader.toByte .ok ::
      (sum ++ second.additiveShare)) :
    RepliesExactly curves collected replied ↔ second.additiveShare = [] := by
  have only : curves.answers collected.clock [(group, key)] = some [sum] := by
    simp only [Curves.answers, created, Option.bind_eq_bind, Option.bind_some]
  constructor
  · rintro ⟨entries, answers, isEntries, isAnswers, exactly⟩
    rw [parsed, Option.some_inj] at isEntries
    subst isEntries
    rw [only, Option.some_inj] at isAnswers
    subst isAnswers
    rw [sent] at exactly
    simpa using exactly
  · intro empty
    refine ⟨_, _, parsed, only, ?_⟩
    rw [sent, empty]
    simp

theorem repliesExactly_two {group other : UInt16} {key otherKey sum otherSum : Bytes}
    (parsed : collectEntries collected.clientPublicKey = some [(group, key), (other, otherKey)])
    (created : curves.sumEntry collected.clock group key = some sum)
    (createdToo : curves.sumEntry (collected.clock + 1) other otherKey = some otherSum)
    (sent : replied.outbox = collected.outbox ++ MessageHeader.toByte .ok :: (sum ++ otherSum)) :
    RepliesExactly curves collected replied := by
  refine ⟨_, [sum, otherSum], parsed, ?_, ?_⟩
  · simp only [Curves.answers, created, createdToo, Option.bind_eq_bind, Option.bind_some]
  · rw [sent]
    simp

/-- What a connection that found `s` has sent when it comes to `PSK_BINDER`. -/
theorem connect_replied {driver : Driver}
    (reached : connect (env.withCurves curves) shouldPreproc .makingKs driver s =
      (.returned (), collected))
    (ended : connect (env.withCurves curves) shouldPreproc .pskBinder driver s =
      (.returned (), replied)) :
    ∃ first second,
      Offered curves collected.clientPublicKey collected.clock s.keyShareB first second ∧
        replied.outbox = collected.outbox ++ MessageHeader.toByte .ok ::
          (first.additiveShare ++ second.additiveShare) := by
  rcases continues_connect leadsTo_pskBinder driver _ _ ended with
    ⟨other, reachedToo, kept, serves⟩
  cases reached.symm.trans reachedToo
  rcases serves.replied with ⟨first, second, offered, sent⟩
  rw [(Prod.mk.inj kept).2] at offered
  exact ⟨first, second, offered, sent⟩

theorem connect_selected {driver : Driver}
    (reached : connect (env.withCurves curves) shouldPreproc .makingKs driver s =
      (.returned (), collected))
    (ended : connect (env.withCurves curves) shouldPreproc .writingHsRecv driver s =
      (.returned (), selected)) :
    ∃ first second,
      Offered curves collected.clientPublicKey collected.clock s.keyShareB first second ∧
        selected.activeShare.groupId ≠ 0 ∧
        ∃ named, selected.namedGroup = some named ∧
          (selected.activeShare = first ∧ first.groupId = named ∨
            selected.activeShare = second ∧ first.groupId ≠ named ∧ second.groupId = named) := by
  rcases continues_connect leadsTo_writingHsRecv driver _ _ ended with
    ⟨other, reachedToo, kept, serves⟩
  cases reached.symm.trans reachedToo
  rcases serves.selected with ⟨first, second, offered, selection⟩
  rw [(Prod.mk.inj kept).2] at offered
  exact ⟨first, second, offered, selection⟩

theorem ownSharesOnly_of_current {driver : Driver}
    (current : KeySharesCurrent (env.withCurves curves) curves shouldPreproc driver s) :
    OwnSharesOnly (env.withCurves curves) shouldPreproc driver s := by
  intro collected reached group key parsed
  rcases current collected reached with ⟨replies, selects⟩
  constructor
  · intro replied ended
    rcases connect_replied reached ended with ⟨first, second, offered, sent⟩
    cases offered with
    | one parsedHere created =>
        exact (repliesExactly_one_iff parsedHere created sent).mp (replies replied ended)
    | two parsedHere _ _ =>
        rw [parsed] at parsedHere
        cases parsedHere
  · intro selected ended
    rcases connect_selected reached ended with
      ⟨first, second, offered, _, named, isNamed, selection⟩
    rcases selects selected ended with ⟨entries, isEntries, i, entry, sum, isEntry, _, active⟩
    rw [parsed, Option.some_inj] at isEntries
    subst isEntries
    have isOnly : entry = (group, key) := by
      rcases i with _ | i
      · exact (Option.some_inj.mp isEntry).symm
      · cases isEntry
    rw [isOnly] at active
    cases offered with
    | one parsedHere created =>
        rw [parsed] at parsedHere
        cases parsedHere
        rw [isNamed]
        rcases selection with ⟨_, isFirst⟩ | ⟨isSecond, notFirst, named⟩
        · rw [← isFirst]
        · rw [← isSecond, active] at named
          exact absurd named notFirst
    | two parsedHere _ _ =>
        rw [parsed] at parsedHere
        cases parsedHere

theorem current_of_ownSharesOnly {driver : Driver}
    (own : OwnSharesOnly (env.withCurves curves) shouldPreproc driver s) :
    KeySharesCurrent (env.withCurves curves) curves shouldPreproc driver s := by
  intro collected reached
  constructor
  · intro replied ended
    rcases connect_replied reached ended with ⟨first, second, offered, sent⟩
    cases offered with
    | one parsed created =>
        have empty := (own collected reached _ _ parsed).1 replied ended
        exact (repliesExactly_one_iff parsed created sent).mpr empty
    | two parsed created createdToo => exact repliesExactly_two parsed created createdToo sent
  · intro selected ended
    rcases connect_selected reached ended with
      ⟨first, second, offered, _, named, isNamed, selection⟩
    cases offered with
    | one parsed created =>
        have isOnly := (own collected reached _ _ parsed).2 selected ended
        rw [isNamed, Option.some_inj] at isOnly
        rcases selection with ⟨active, _⟩ | ⟨_, notFirst, _⟩
        · exact ⟨_, parsed, 0, _, _, rfl, created, active⟩
        · exact absurd isOnly.symm notFirst
    | two parsed created createdToo =>
        rcases selection with ⟨active, _⟩ | ⟨active, _, _⟩
        · exact ⟨_, parsed, 0, _, _, rfl, created, active⟩
        · exact ⟨_, parsed, 1, _, _, rfl, createdToo, active⟩

theorem ownSharesOnly_of_unused {driver : Driver} (unused : s.keyShareB = ⟨0, []⟩) :
    OwnSharesOnly (env.withCurves curves) shouldPreproc driver s := by
  intro collected reached group key parsed
  refine ⟨fun _ _ => by rw [unused], fun selected ended => ?_⟩
  rcases connect_selected reached ended with
    ⟨first, second, offered, created, named, isNamed, selection⟩
  cases offered with
  | one parsedHere _ =>
      rw [parsed] at parsedHere
      cases parsedHere
      rw [isNamed]
      rcases selection with ⟨_, isFirst⟩ | ⟨isSecond, _, _⟩
      · rw [← isFirst]
      · rw [isSecond, unused] at created
        exact absurd rfl created
  | two parsedHere _ _ =>
      rw [parsed] at parsedHere
      cases parsedHere

end Replies

section Histories

variable {Point : Type}

/--
Whatever connections a `Server` has served, the next one sends and selects only its own key shares
exactly if its `COLLECT` message has two entries, or the second slot holds no sum from an earlier
connection and the prover names the group of its entry. That is so while the slot is unused.
-/
theorem performAll_keySharesCurrent_iff (env : Environment) (curves : Curves Point)
    (calls : List Call) (server : Server) (shouldPreproc : Bool) (driver : Driver) :
    (KeySharesCurrent (env.withCurves curves) curves shouldPreproc driver
        (performAll (env.withCurves curves) calls server) ↔
      OwnSharesOnly (env.withCurves curves) shouldPreproc driver
        (performAll (env.withCurves curves) calls server)) ∧
      ((performAll (env.withCurves curves) calls server).keyShareB = ⟨0, []⟩ →
        OwnSharesOnly (env.withCurves curves) shouldPreproc driver
          (performAll (env.withCurves curves) calls server)) :=
  ⟨⟨ownSharesOnly_of_current, current_of_ownSharesOnly⟩, ownSharesOnly_of_unused⟩

/-- Curves on which a point is any byte string and the sum joins the two strings. -/
def sampleCurves : Curves Bytes where
  generate now _ := some [Curves.uncompressed, UInt8.ofNat now]
  oct2point _ bytes := some bytes
  add _ point other := point ++ other
  point2cbb _ point := some point

/-- The first connection brings the first messages, every later one the others. -/
def twoConnections (first later : Bytes) : Environment :=
  ({ Environment.cooperative [] 32 with
      accept := fun now => some (if now = 0 then first else later) }).withCurves sampleCurves

/-- A `COLLECT` message for two groups. -/
def collectTwo : Bytes :=
  MessageHeader.toByte .collect ::
    (keyEntry 23 (Curves.uncompressed :: List.replicate 11 0) ++
      keyEntry 24 (Curves.uncompressed :: List.replicate 10 0))

/-- A `COLLECT` message for one group, and a selection of the other one. -/
def collectOne : Bytes :=
  MessageHeader.toByte .collect :: keyEntry 23 (Curves.uncompressed :: List.replicate 26 0) ++
    MessageHeader.toByte .serverKeyShare :: keyEntry 24 (List.replicate 27 0)

/-- A `Server` that has answered the message for two groups. -/
def answeredTwo : Server :=
  performAll (twoConnections collectTwo collectOne) [.run .pskBinder true] (Server.initial .trueSurf)

/-- The connection that it serves next, up to a state. -/
def nextConnection (stopState : ServerState) : Outcome Unit × Server :=
  connect (twoConnections collectTwo collectOne) true stopState .full answeredTwo

theorem nextConnection_eq {stopState : ServerState}
    (returned : (nextConnection stopState).1 = .returned ()) :
    nextConnection stopState = (.returned (), (nextConnection stopState).2) :=
  Prod.ext returned rfl

/-- The next connection offers one group. It gets two entries back, and the share of the earlier
connection is selected. -/
theorem nextConnection_not_current :
    (collectEntries (nextConnection .makingKs).2.clientPublicKey).map (List.map Prod.fst) =
        some [23] ∧
      (collectEntries ((nextConnection .pskBinder).2.outbox.drop 2)).map (List.map Prod.fst) =
        some [23, 24] ∧
      (nextConnection .writingHsRecv).2.activeShare = answeredTwo.keyShareB ∧
      ¬KeySharesCurrent (twoConnections collectTwo collectOne) sampleCurves true .full
        answeredTwo := by
  refine ⟨by decide +kernel, by decide +kernel, by decide +kernel, fun current => ?_⟩
  have reached := nextConnection_eq (show (nextConnection .makingKs).1 = _ by decide +kernel)
  have ended := nextConnection_eq (show (nextConnection .pskBinder).1 = _ by decide +kernel)
  have parsed : collectEntries (nextConnection .makingKs).2.clientPublicKey =
      some [(23, Curves.uncompressed :: List.replicate 26 0)] := by decide +kernel
  have empty := (ownSharesOnly_of_current current _ reached _ _ parsed).1 _ ended
  exact absurd empty (by decide +kernel)

end Histories

end Server

end PracticalCrypto.Surf
