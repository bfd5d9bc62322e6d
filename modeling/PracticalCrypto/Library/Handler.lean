import Mathlib.Data.List.Forall2
import Mathlib.Data.Nat.Notation
import Mathlib.Logic.Relation
import Mathlib.Order.Defs.Unbundled

/-!
# Handlers: programs with a state that may fail part-way

A handler reads and changes a state. It returns a value, fails (a C++ function
that returns `false`) or aborts (an `std::abort`, or behaviour the language
leaves undefined). What it changed before it failed or aborted stays changed.

Eight judgements reason about handlers without unfolding them.

* `Keeps rel prog`: the states before and after `prog` are related, whatever it
  returns. `Silent view prog` is the case in which `view` does not change.
* `Traces view step prog s`: from `s` the handler moves `view` along the
  relation `step`, whatever it returns. The relation is an abstract machine, and
  `Traces` is the statement that the handler refines it.
* `Ensures prog post s`: if `prog` returns from `s`, then `post` holds.
* `Returns prog s`: `prog` returns from `s`.
* `Survives prog post s`: `prog` does not abort from `s`, and `post` holds if it
  returns. `Steady rel prog` is the case in which this holds from every state,
  with a relation between the states before and after.
* `Appends view emitted prog s`: from `s` the handler appends a first part of
  `emitted` to `view`, and all of it if it returns.
* `Leaves always prog post s`: wherever `prog` ends from `s`, also part-way, the
  state satisfies `always`, and `post` holds if it returns.
-/

namespace PracticalCrypto

inductive Outcome (α : Type) where
  | returned (value : α)
  | failed
  | aborted
deriving Repr, DecidableEq

/-- A program over the state `σ` that returns, fails or aborts. -/
def Handler (σ α : Type) : Type := σ → Outcome α × σ

namespace Handler

variable {σ τ α β γ : Type}

def andThen (prog : Handler σ α) (next : α → Handler σ β) : Handler σ β := fun s =>
  match prog s with
  | (.returned value, s') => next value s'
  | (.failed, s') => (.failed, s')
  | (.aborted, s') => (.aborted, s')

instance : Monad (Handler σ) where
  pure value := fun s => (.returned value, s)
  bind := andThen

/-- `return false`. -/
def fail : Handler σ α := fun s => (.failed, s)

/-- `std::abort`, or undefined behaviour. -/
def abort : Handler σ α := fun s => (.aborted, s)

def get : Handler σ σ := fun s => (.returned s, s)

def modify (change : σ → σ) : Handler σ Unit := fun s => (.returned (), change s)

def require (condition : Prop) [Decidable condition] : Handler σ Unit :=
  if condition then pure () else fail

def ofOption : Option α → Handler σ α
  | some value => pure value
  | none => fail

def forEach (body : β → Handler σ Unit) : List β → Handler σ Unit
  | [] => pure ()
  | item :: later => do
      body item
      forEach body later

def collect (body : β → Handler σ α) : List β → Handler σ (List α)
  | [] => pure []
  | item :: later => do
      let value ← body item
      let values ← collect body later
      pure (value :: values)

section Running

variable {prog : Handler σ α} {next : α → Handler σ β} {s s' : σ}

theorem bind_of_returned {value : α} (ended : prog s = (.returned value, s')) :
    (prog >>= next) s = next value s' := by
  change andThen prog next s = _
  rw [andThen, ended]

theorem bind_of_failed (ended : prog s = (.failed, s')) :
    (prog >>= next) s = (.failed, s') := by
  change andThen prog next s = _
  rw [andThen, ended]

theorem bind_of_aborted (ended : prog s = (.aborted, s')) :
    (prog >>= next) s = (.aborted, s') := by
  change andThen prog next s = _
  rw [andThen, ended]

/-- Two continuations need only agree on what the first handler returns. -/
theorem bind_congr_of_returned {other : α → Handler σ β}
    (agree : ∀ value s', prog s = (.returned value, s') → next value s' = other value s') :
    (prog >>= next) s = (prog >>= other) s := by
  rcases ended : prog s with ⟨value | _ | _, s'⟩
  · rw [bind_of_returned ended, bind_of_returned ended]
    exact agree value s' ended
  · rw [bind_of_failed ended, bind_of_failed ended]
  · rw [bind_of_aborted ended, bind_of_aborted ended]

theorem bind_congr_of_eq {other : Handler σ α} (same : prog s = other s) :
    (prog >>= next) s = (other >>= next) s := by
  change andThen prog next s = andThen other next s
  rw [andThen, andThen, same]

theorem andThen_pure (prog : Handler σ α) : (prog >>= fun value => pure value) = prog := by
  funext s
  rcases ended : prog s with ⟨value | _ | _, s'⟩
  · exact bind_of_returned ended
  · exact bind_of_failed ended
  · exact bind_of_aborted ended

theorem andThen_assoc (prog : Handler σ α) (next : α → Handler σ β) (later : β → Handler σ γ) :
    (prog >>= next >>= later) = prog >>= fun value => next value >>= later := by
  funext s
  rcases ended : prog s with ⟨value | _ | _, s'⟩
  · rw [bind_of_returned ended]
    rcases continued : next value s' with ⟨result | _ | _, s''⟩
    · rw [bind_of_returned ((bind_of_returned ended).trans continued), bind_of_returned continued]
    · rw [bind_of_failed ((bind_of_returned ended).trans continued), bind_of_failed continued]
    · rw [bind_of_aborted ((bind_of_returned ended).trans continued), bind_of_aborted continued]
  · rw [bind_of_failed ended, bind_of_failed (bind_of_failed ended)]
  · rw [bind_of_aborted ended, bind_of_aborted (bind_of_aborted ended)]

instance : LawfulMonad (Handler σ) :=
  LawfulMonad.mk' (Handler σ) andThen_pure (fun _ _ => rfl) andThen_assoc

theorem require_true {condition : Prop} [Decidable condition] (holds : condition) :
    (require condition : Handler σ Unit) = pure () := by
  rw [require, if_pos holds]

theorem require_false {condition : Prop} [Decidable condition] (fails : ¬condition) :
    (require condition : Handler σ Unit) = fail := by
  rw [require, if_neg fails]

/-- A loop whose steps all succeed, in any monad. -/
theorem mapM_eq_pure {m : Type → Type} [Monad m] [LawfulMonad m] {α β : Type} {items : List α}
    {f : α → m β} {g : α → β} (each : ∀ item ∈ items, f item = pure (g item)) :
    items.mapM f = pure (items.map g) := by
  induction items with
  | nil => simp
  | cons item items ih =>
      have later := ih fun item member => each item (List.mem_cons_of_mem _ member)
      simp [List.mapM_cons, each item List.mem_cons_self, later]

end Running

section Keeps

variable {rel : σ → σ → Prop}

/-- The states before and after the handler are related. -/
def Keeps (rel : σ → σ → Prop) (prog : Handler σ α) : Prop := ∀ s, rel s (prog s).2

theorem Keeps.of_eq {prog : Handler σ α} {s s' : σ} {outcome : Outcome α} (keeps : Keeps rel prog)
    (ended : prog s = (outcome, s')) : rel s s' := by
  have related := keeps s
  rwa [ended] at related

theorem keeps_modify {change : σ → σ} (related : ∀ s, rel s (change s)) :
    Keeps rel (modify change) := related

theorem keeps_ite {condition : Prop} [Decidable condition] {whenTrue whenFalse : Handler σ α}
    (left : Keeps rel whenTrue) (right : Keeps rel whenFalse) :
    Keeps rel (if condition then whenTrue else whenFalse) := by
  split
  · exact left
  · exact right

variable [IsPreorder σ rel]

theorem keeps_pure (value : α) : Keeps rel (pure value : Handler σ α) := fun s => refl s

theorem keeps_fail : Keeps rel (fail : Handler σ α) := fun s => refl s

theorem keeps_abort : Keeps rel (abort : Handler σ α) := fun s => refl s

theorem keeps_get : Keeps rel (get : Handler σ σ) := fun s => refl s

theorem keeps_require (condition : Prop) [Decidable condition] :
    Keeps rel (require condition : Handler σ Unit) := by
  by_cases holds : condition
  · rw [require_true holds]
    exact keeps_pure ()
  · rw [require_false holds]
    exact keeps_fail

theorem keeps_ofOption (value : Option α) : Keeps rel (ofOption value : Handler σ α) := by
  cases value with
  | none => exact keeps_fail
  | some value => exact keeps_pure value

theorem keeps_bind {prog : Handler σ α} {next : α → Handler σ β} (first : Keeps rel prog)
    (rest : ∀ value, Keeps rel (next value)) : Keeps rel (prog >>= next) := by
  intro s
  have here := first s
  rcases ended : prog s with ⟨_ | _ | _, s'⟩
  · rw [ended] at here
    rw [bind_of_returned ended]
    exact IsTrans.trans _ _ _ here (rest _ s')
  · rw [ended] at here
    rw [bind_of_failed ended]
    exact here
  · rw [ended] at here
    rw [bind_of_aborted ended]
    exact here

theorem keeps_forEach {body : β → Handler σ Unit} (each : ∀ item, Keeps rel (body item))
    (items : List β) : Keeps rel (forEach body items) := by
  induction items with
  | nil => exact keeps_pure ()
  | cons item later ih => exact keeps_bind (each item) fun _ => ih

theorem keeps_collect {body : β → Handler σ α} (each : ∀ item, Keeps rel (body item))
    (items : List β) : Keeps rel (collect body items) := by
  induction items with
  | nil => exact keeps_pure []
  | cons item later ih =>
      exact keeps_bind (each item) fun _ => keeps_bind ih fun _ => keeps_pure _

end Keeps

section Silent

def Same (view : σ → τ) (s s' : σ) : Prop := view s' = view s

instance (view : σ → τ) : IsPreorder σ (Same view) where
  refl _ := rfl
  trans _ _ _ first second := Eq.trans second first

/-- The handler never changes `view`. -/
abbrev Silent (view : σ → τ) (prog : Handler σ α) : Prop := Keeps (Same view) prog

theorem Silent.of_returned {view : σ → τ} {prog : Handler σ α} {s s' : σ} {value : α}
    (silent : Silent view prog) (ended : prog s = (.returned value, s')) : view s' = view s := by
  have same : view (prog s).2 = view s := silent s
  rwa [ended] at same

end Silent

section Traces

variable {view : σ → τ} {step : τ → τ → Prop} {s : σ}

/-- From `s` the handler moves `view` by steps of the abstract machine. -/
def Traces (view : σ → τ) (step : τ → τ → Prop) (prog : Handler σ α) (s : σ) : Prop :=
  Relation.ReflTransGen step (view s) (view (prog s).2)

theorem Silent.traces {prog : Handler σ α} (silent : Silent view prog) :
    Traces view step prog s := by
  have same : view (prog s).2 = view s := silent s
  rw [Traces, same]

theorem Traces.bind {prog : Handler σ α} {next : α → Handler σ β}
    (first : Traces view step prog s)
    (rest : ∀ value s', prog s = (.returned value, s') → Traces view step (next value) s') :
    Traces view step (prog >>= next) s := by
  unfold Traces at first rest ⊢
  rcases ended : prog s with ⟨_ | _ | _, s'⟩
  · rw [ended] at first
    rw [bind_of_returned ended]
    exact first.trans (rest _ _ ended)
  · rw [ended] at first
    rw [bind_of_failed ended]
    exact first
  · rw [ended] at first
    rw [bind_of_aborted ended]
    exact first

/-- A silent handler may be stepped over; only `view` is known about the state after it. -/
theorem Traces.silent_bind {prog : Handler σ α} {next : α → Handler σ β}
    (silent : Silent view prog)
    (rest : ∀ value s', view s' = view s → Traces view step (next value) s') :
    Traces view step (prog >>= next) s := by
  apply Traces.bind silent.traces
  intro value s' ended
  exact rest value s' (silent.of_returned ended)

theorem Traces.require_bind {condition : Prop} [Decidable condition] {next : Unit → Handler σ β}
    (rest : condition → Traces view step (next ()) s) :
    Traces view step (require condition >>= next) s := by
  by_cases holds : condition
  · rw [require_true holds]
    exact rest holds
  · rw [require_false holds]
    exact Silent.traces keeps_fail

theorem Traces.get_bind {next : σ → Handler σ β} (rest : Traces view step (next s) s) :
    Traces view step (get >>= next) s := rest

theorem Traces.modify_bind {change : σ → σ} {next : Unit → Handler σ β}
    (moves : Relation.ReflTransGen step (view s) (view (change s)))
    (rest : Traces view step (next ()) (change s)) :
    Traces view step (modify change >>= next) s :=
  Traces.bind moves fun _ _ ended => by cases ended; exact rest

theorem Traces.ofOption_bind {value : Option α} {next : α → Handler σ β}
    (rest : ∀ found, value = some found → Traces view step (next found) s) :
    Traces view step (ofOption value >>= next) s := by
  cases value with
  | none => exact Silent.traces keeps_fail
  | some found => exact rest found rfl

theorem Traces.ite {condition : Prop} [Decidable condition] {whenTrue whenFalse : Handler σ α}
    (left : condition → Traces view step whenTrue s)
    (right : ¬condition → Traces view step whenFalse s) :
    Traces view step (if condition then whenTrue else whenFalse) s := by
  split
  · exact left ‹_›
  · exact right ‹_›

theorem Traces.collect {body : β → Handler σ α}
    (each : ∀ item s, Traces view step (body item) s) (items : List β) :
    Traces view step (collect body items) s := by
  induction items generalizing s with
  | nil => exact Silent.traces (keeps_pure [])
  | cons item later ih =>
      refine Traces.bind (each item s) fun _ _ _ => ?_
      exact Traces.bind ih fun _ _ _ => Silent.traces (keeps_pure _)

theorem invariant_along {holds : τ → Prop} (preserved : ∀ t t', step t t' → holds t → holds t')
    {t t' : τ} (path : Relation.ReflTransGen step t t') (start : holds t) : holds t' := by
  induction path with
  | refl => exact start
  | tail _ last ih => exact preserved _ _ last ih

end Traces

section Ensures

variable {s : σ}

/-- If the handler returns from `s`, then `post` holds. -/
def Ensures (prog : Handler σ α) (post : α → σ → Prop) (s : σ) : Prop :=
  ∀ value s', prog s = (.returned value, s') → post value s'

theorem Ensures.bind {prog : Handler σ α} {next : α → Handler σ β} {post : β → σ → Prop}
    (rest : Ensures prog (fun value => Ensures (next value) post) s) :
    Ensures (prog >>= next) post s := by
  intro result s'' both
  rcases ended : prog s with ⟨value | _ | _, s'⟩
  · rw [bind_of_returned ended] at both
    exact rest value s' ended result s'' both
  · rw [bind_of_failed ended] at both
    cases both
  · rw [bind_of_aborted ended] at both
    cases both

theorem Keeps.ensures {rel : σ → σ → Prop} {prog : Handler σ α} (keeps : Keeps rel prog) :
    Ensures prog (fun _ => rel s) s := by
  intro value s' ended
  have related := keeps s
  rw [ended] at related
  exact related

theorem Ensures.keeps_bind (rel : σ → σ → Prop) {prog : Handler σ α} {next : α → Handler σ β}
    {post : β → σ → Prop} (keeps : Keeps rel prog)
    (rest : ∀ value s', rel s s' → Ensures (next value) post s') :
    Ensures (prog >>= next) post s :=
  Ensures.bind fun value s' ended => rest value s' (keeps.ensures value s' ended)

theorem Ensures.silent_bind (view : σ → τ) {prog : Handler σ α} {next : α → Handler σ β}
    {post : β → σ → Prop} (silent : Silent view prog)
    (rest : ∀ value s', view s' = view s → Ensures (next value) post s') :
    Ensures (prog >>= next) post s :=
  Ensures.bind fun value s' ended => rest value s' (silent.of_returned ended)

theorem Ensures.pure {value : α} {post : α → σ → Prop} (holds : post value s) :
    Ensures (pure value) post s := by
  intro _ _ ended
  cases ended
  exact holds

theorem Ensures.fail {post : α → σ → Prop} : Ensures fail post s := by
  intro _ _ ended
  cases ended

theorem Ensures.abort {post : α → σ → Prop} : Ensures abort post s := by
  intro _ _ ended
  cases ended

theorem Ensures.modify {change : σ → σ} {post : Unit → σ → Prop} (holds : post () (change s)) :
    Ensures (modify change) post s := by
  intro _ _ ended
  cases ended
  exact holds

theorem Ensures.modify_bind {change : σ → σ} {next : Unit → Handler σ β} {post : β → σ → Prop}
    (rest : Ensures (next ()) post (change s)) : Ensures (Handler.modify change >>= next) post s :=
  Ensures.bind (Ensures.modify rest)

theorem Ensures.get_bind {next : σ → Handler σ β} {post : β → σ → Prop}
    (rest : Ensures (next s) post s) : Ensures (get >>= next) post s := rest

theorem Ensures.require {condition : Prop} [Decidable condition] {post : Unit → σ → Prop}
    (holds : condition → post () s) : Ensures (require condition) post s := by
  by_cases met : condition
  · rw [require_true met]
    exact Ensures.pure (holds met)
  · rw [require_false met]
    exact Ensures.fail

theorem Ensures.require_bind {condition : Prop} [Decidable condition] {next : Unit → Handler σ β}
    {post : β → σ → Prop} (rest : condition → Ensures (next ()) post s) :
    Ensures (Handler.require condition >>= next) post s :=
  Ensures.bind (Ensures.require rest)

theorem Ensures.ofOption {value : Option α} {post : α → σ → Prop}
    (holds : ∀ found, value = some found → post found s) : Ensures (ofOption value) post s := by
  cases value with
  | none => exact Ensures.fail
  | some found => exact Ensures.pure (holds found rfl)

theorem Ensures.ofOption_bind {value : Option α} {next : α → Handler σ β} {post : β → σ → Prop}
    (rest : ∀ found, value = some found → Ensures (next found) post s) :
    Ensures (Handler.ofOption value >>= next) post s :=
  Ensures.bind (Ensures.ofOption rest)

theorem Ensures.ite {condition : Prop} [Decidable condition] {whenTrue whenFalse : Handler σ α}
    {post : α → σ → Prop} (left : condition → Ensures whenTrue post s)
    (right : ¬condition → Ensures whenFalse post s) :
    Ensures (if condition then whenTrue else whenFalse) post s := by
  split
  · exact left ‹_›
  · exact right ‹_›

theorem Ensures.mono {prog : Handler σ α} {post weaker : α → σ → Prop}
    (ensures : Ensures prog post s) (implies : ∀ value s', post value s' → weaker value s') :
    Ensures prog weaker s :=
  fun value s' ended => implies value s' (ensures value s' ended)

/-- A loop traces the machine if its body does, under an invariant that the body keeps. -/
theorem Traces.forEach {view : σ → τ} {step : τ → τ → Prop} {body : β → Handler σ Unit}
    {items : List β} (holds : List β → σ → Prop)
    (each : ∀ item later s, holds (item :: later) s →
      Traces view step (body item) s ∧ Ensures (body item) (fun _ => holds later) s)
    (start : holds items s) : Traces view step (forEach body items) s := by
  induction items generalizing s with
  | nil => exact Silent.traces (keeps_pure ())
  | cons item later ih =>
      rcases each item later s start with ⟨traces, kept⟩
      apply Traces.bind traces
      intro _ s' ended
      exact ih (kept _ s' ended)

/-- A loop invariant, indexed by the items that are still to come. -/
theorem Ensures.forEach {body : β → Handler σ Unit} {holds : List β → σ → Prop} {items : List β}
    (each : ∀ item later s, holds (item :: later) s → Ensures (body item) (fun _ => holds later) s)
    (start : holds items s) : Ensures (forEach body items) (fun _ => holds []) s := by
  induction items generalizing s with
  | nil => exact Ensures.pure start
  | cons item later ih =>
      exact Ensures.bind ((each item later s start).mono fun _ _ kept => ih kept)

/-- The same for a loop that collects values, with a relation between items and values. -/
theorem Ensures.collect {body : β → Handler σ α} {holds : List β → σ → Prop} {rel : β → α → Prop}
    {items : List β}
    (each : ∀ item later s, holds (item :: later) s →
      Ensures (body item) (fun value s' => rel item value ∧ holds later s') s)
    (start : holds items s) :
    Ensures (collect body items) (fun values s' => List.Forall₂ rel items values ∧ holds [] s') s := by
  induction items generalizing s with
  | nil => exact Ensures.pure ⟨.nil, start⟩
  | cons item later ih =>
      apply Ensures.bind
      refine (each item later s start).mono ?_
      rintro value s' ⟨related, kept⟩
      apply Ensures.bind
      refine (ih kept).mono ?_
      rintro values s'' ⟨relatedLater, done⟩
      exact Ensures.pure ⟨.cons related relatedLater, done⟩

end Ensures

section Returns

variable {s : σ}

def Returns (prog : Handler σ α) (s : σ) : Prop := ∃ value s', prog s = (.returned value, s')

theorem Returns.bind {prog : Handler σ α} {next : α → Handler σ β} (first : Returns prog s)
    (rest : Ensures prog (fun value => Returns (next value)) s) : Returns (prog >>= next) s := by
  rcases first with ⟨value, s', ended⟩
  rcases rest value s' ended with ⟨result, s'', continued⟩
  refine ⟨result, s'', ?_⟩
  rw [bind_of_returned ended, continued]

theorem Returns.pure {value : α} : Returns (pure value) s := ⟨value, s, rfl⟩

theorem Returns.get_bind {next : σ → Handler σ β} (rest : Returns (next s) s) :
    Returns (get >>= next) s := rest

theorem Returns.modify {change : σ → σ} : Returns (modify change) s := ⟨(), change s, rfl⟩

theorem Returns.modify_bind {change : σ → σ} {next : Unit → Handler σ β}
    (rest : Returns (next ()) (change s)) : Returns (Handler.modify change >>= next) s :=
  Returns.modify.bind (Ensures.modify rest)

theorem Returns.require {condition : Prop} [Decidable condition] (holds : condition) :
    Returns (require condition) s := by
  rw [require_true holds]
  exact Returns.pure

theorem Returns.require_bind {condition : Prop} [Decidable condition] {next : Unit → Handler σ β}
    (holds : condition) (rest : Returns (next ()) s) :
    Returns (Handler.require condition >>= next) s :=
  (Returns.require holds).bind (Ensures.require fun _ => rest)

theorem Returns.ofOption {value : Option α} {found : α} (isSome : value = some found) :
    Returns (ofOption value) s := by
  rw [isSome]
  exact Returns.pure

theorem Returns.ofOption_bind {value : Option α} {found : α} {next : α → Handler σ β}
    (isSome : value = some found) (rest : Returns (next found) s) :
    Returns (Handler.ofOption value >>= next) s := by
  rw [isSome]
  exact rest

theorem Returns.forEach {body : β → Handler σ Unit} (each : ∀ item s, Returns (body item) s)
    (items : List β) : Returns (forEach body items) s := by
  induction items generalizing s with
  | nil => exact Returns.pure
  | cons item later ih => exact (each item s).bind fun _ _ _ => ih

theorem Returns.collect {body : β → Handler σ α} (each : ∀ item s, Returns (body item) s)
    (items : List β) : Returns (collect body items) s := by
  induction items generalizing s with
  | nil => exact Returns.pure
  | cons item later ih =>
      exact (each item s).bind fun _ _ _ => ih.bind fun _ _ _ => Returns.pure

end Returns

section Achieves

variable {s : σ}

/-- From `s` the handler returns, and `post` holds then. -/
def Achieves (prog : Handler σ α) (post : α → σ → Prop) (s : σ) : Prop :=
  ∃ value s', prog s = (.returned value, s') ∧ post value s'

theorem Achieves.ensures {prog : Handler σ α} {post : α → σ → Prop} (achieves : Achieves prog post s) :
    Ensures prog post s := by
  rcases achieves with ⟨value, s', ended, holds⟩
  intro other s'' again
  rw [ended] at again
  cases again
  exact holds

theorem Achieves.bind {prog : Handler σ α} {next : α → Handler σ β} {post : β → σ → Prop}
    (first : Achieves prog (fun value => Achieves (next value) post) s) :
    Achieves (prog >>= next) post s := by
  rcases first with ⟨value, s', ended, result, s'', continued, holds⟩
  exact ⟨result, s'', (bind_of_returned ended).trans continued, holds⟩

theorem Achieves.mono {prog : Handler σ α} {post weaker : α → σ → Prop}
    (achieves : Achieves prog post s) (weaken : ∀ value s', post value s' → weaker value s') :
    Achieves prog weaker s := by
  rcases achieves with ⟨value, s', ended, holds⟩
  exact ⟨value, s', ended, weaken value s' holds⟩

theorem Achieves.pure {value : α} {post : α → σ → Prop} (holds : post value s) :
    Achieves (pure value) post s := ⟨value, s, rfl, holds⟩

theorem Achieves.get_bind {next : σ → Handler σ β} {post : β → σ → Prop}
    (rest : Achieves (next s) post s) : Achieves (get >>= next) post s := rest

theorem Achieves.modify {change : σ → σ} {post : Unit → σ → Prop} (holds : post () (change s)) :
    Achieves (modify change) post s := ⟨(), change s, rfl, holds⟩

theorem Achieves.modify_bind {change : σ → σ} {next : Unit → Handler σ β} {post : β → σ → Prop}
    (rest : Achieves (next ()) post (change s)) :
    Achieves (Handler.modify change >>= next) post s := rest

theorem Achieves.require_bind {condition : Prop} [Decidable condition] {next : Unit → Handler σ β}
    {post : β → σ → Prop} (holds : condition) (rest : Achieves (next ()) post s) :
    Achieves (Handler.require condition >>= next) post s := by
  rw [require_true holds]
  exact rest

end Achieves

section Survives

variable {s : σ}

/-- From `s` the handler does not abort, and if it returns, then `post` holds. -/
structure Survives (prog : Handler σ α) (post : α → σ → Prop) (s : σ) : Prop where
  notAborted : (prog s).1 ≠ .aborted
  ensures : Ensures prog post s

theorem Survives.bind {prog : Handler σ α} {next : α → Handler σ β} {post : β → σ → Prop}
    (rest : Survives prog (fun value => Survives (next value) post) s) :
    Survives (prog >>= next) post s := by
  constructor
  · rcases ended : prog s with ⟨value | _ | _, s'⟩
    · rw [bind_of_returned ended]
      exact (rest.ensures value s' ended).notAborted
    · rw [bind_of_failed ended]
      exact nofun
    · exact absurd (congrArg Prod.fst ended) rest.notAborted
  · apply Ensures.bind
    intro value s' ended
    exact (rest.ensures value s' ended).ensures

theorem Survives.mono {prog : Handler σ α} {post weaker : α → σ → Prop}
    (survives : Survives prog post s) (implies : ∀ value s', post value s' → weaker value s') :
    Survives prog weaker s :=
  ⟨survives.notAborted, survives.ensures.mono implies⟩

theorem Survives.of_eq {prog : Handler σ α} {post : α → σ → Prop} {value : α} {s' : σ}
    (ended : prog s = (.returned value, s')) (holds : post value s') : Survives prog post s := by
  constructor
  · rw [ended]
    exact nofun
  · intro other s'' endedToo
    rw [ended] at endedToo
    cases endedToo
    exact holds

theorem Survives.of_failed {prog : Handler σ α} {post : α → σ → Prop} {s' : σ}
    (ended : prog s = (.failed, s')) : Survives prog post s := by
  constructor
  · rw [ended]
    exact nofun
  · intro value s'' returned
    rw [ended] at returned
    cases returned

theorem Survives.and {prog : Handler σ α} {post other : α → σ → Prop}
    (survives : Survives prog post s) (ensures : Ensures prog other s) :
    Survives prog (fun value s' => post value s' ∧ other value s') s :=
  ⟨survives.notAborted, fun value s' ended =>
    ⟨survives.ensures value s' ended, ensures value s' ended⟩⟩

theorem Survives.pure {value : α} {post : α → σ → Prop} (holds : post value s) :
    Survives (pure value) post s :=
  ⟨nofun, Ensures.pure holds⟩

theorem Survives.fail {post : α → σ → Prop} : Survives fail post s := ⟨nofun, Ensures.fail⟩

theorem Survives.modify {change : σ → σ} {post : Unit → σ → Prop} (holds : post () (change s)) :
    Survives (modify change) post s :=
  ⟨nofun, Ensures.modify holds⟩

theorem Survives.modify_bind {change : σ → σ} {next : Unit → Handler σ β} {post : β → σ → Prop}
    (rest : Survives (next ()) post (change s)) :
    Survives (Handler.modify change >>= next) post s :=
  Survives.bind (Survives.modify rest)

theorem Survives.get_bind {next : σ → Handler σ β} {post : β → σ → Prop}
    (rest : Survives (next s) post s) : Survives (get >>= next) post s :=
  ⟨rest.notAborted, rest.ensures⟩

theorem Survives.require {condition : Prop} [Decidable condition] {post : Unit → σ → Prop}
    (holds : condition → post () s) : Survives (require condition) post s := by
  by_cases met : condition
  · rw [require_true met]
    exact Survives.pure (holds met)
  · rw [require_false met]
    exact Survives.fail

theorem Survives.require_bind {condition : Prop} [Decidable condition] {next : Unit → Handler σ β}
    {post : β → σ → Prop} (rest : condition → Survives (next ()) post s) :
    Survives (Handler.require condition >>= next) post s :=
  Survives.bind (Survives.require rest)

theorem Survives.ofOption {value : Option α} {post : α → σ → Prop}
    (holds : ∀ found, value = some found → post found s) : Survives (ofOption value) post s := by
  cases value with
  | none => exact Survives.fail
  | some found => exact Survives.pure (holds found rfl)

theorem Survives.ofOption_bind {value : Option α} {next : α → Handler σ β} {post : β → σ → Prop}
    (rest : ∀ found, value = some found → Survives (next found) post s) :
    Survives (Handler.ofOption value >>= next) post s :=
  Survives.bind (Survives.ofOption rest)

theorem Survives.ite {condition : Prop} [Decidable condition] {whenTrue whenFalse : Handler σ α}
    {post : α → σ → Prop} (left : condition → Survives whenTrue post s)
    (right : ¬condition → Survives whenFalse post s) :
    Survives (if condition then whenTrue else whenFalse) post s := by
  split
  · exact left ‹_›
  · exact right ‹_›

/-- A loop invariant, indexed by the items that are still to come. -/
theorem Survives.forEach {body : β → Handler σ Unit} {holds : List β → σ → Prop} {items : List β}
    (each : ∀ item later s, holds (item :: later) s → Survives (body item) (fun _ => holds later) s)
    (start : holds items s) : Survives (forEach body items) (fun _ => holds []) s := by
  induction items generalizing s with
  | nil => exact Survives.pure start
  | cons item later ih =>
      apply Survives.bind
      apply (each item later s start).mono
      intro _ s' kept
      exact ih kept

variable {rel : σ → σ → Prop}

/-- The handler never aborts, and if it returns, then the states before and after are related. -/
def Steady (rel : σ → σ → Prop) (prog : Handler σ α) : Prop :=
  ∀ s, Survives prog (fun _ => rel s) s

theorem Steady.survives_bind {prog : Handler σ α} {next : α → Handler σ β} {post : β → σ → Prop}
    (steady : Steady rel prog) (rest : ∀ value s', rel s s' → Survives (next value) post s') :
    Survives (prog >>= next) post s :=
  Survives.bind ((steady s).mono rest)

theorem steady_modify {change : σ → σ} (related : ∀ s, rel s (change s)) :
    Steady rel (modify change) := fun s => Survives.modify (related s)

theorem steady_ite {condition : Prop} [Decidable condition] {whenTrue whenFalse : Handler σ α}
    (left : Steady rel whenTrue) (right : Steady rel whenFalse) :
    Steady rel (if condition then whenTrue else whenFalse) :=
  fun s => Survives.ite (fun _ => left s) fun _ => right s

theorem steady_fail : Steady rel (fail : Handler σ α) := fun _ => Survives.fail

variable [IsPreorder σ rel]

theorem steady_pure (value : α) : Steady rel (pure value : Handler σ α) :=
  fun s => Survives.pure (refl s)

theorem steady_get : Steady rel (get : Handler σ σ) := by
  intro s
  refine ⟨nofun, ?_⟩
  intro _ _ ended
  cases ended
  exact refl s

theorem steady_require (condition : Prop) [Decidable condition] :
    Steady rel (require condition : Handler σ Unit) :=
  fun s => Survives.require fun _ => refl s

theorem steady_ofOption (value : Option α) : Steady rel (ofOption value : Handler σ α) :=
  fun s => Survives.ofOption fun _ _ => refl s

theorem steady_bind {prog : Handler σ α} {next : α → Handler σ β} (first : Steady rel prog)
    (rest : ∀ value, Steady rel (next value)) : Steady rel (prog >>= next) := by
  intro s
  apply first.survives_bind
  intro value s' here
  apply (rest value s').mono
  intro _ s'' there
  exact IsTrans.trans _ _ _ here there

theorem steady_forEach {body : β → Handler σ Unit} (each : ∀ item, Steady rel (body item))
    (items : List β) : Steady rel (forEach body items) := by
  induction items with
  | nil => exact steady_pure ()
  | cons item later ih => exact steady_bind (each item) fun _ => ih

theorem steady_collect {body : β → Handler σ α} (each : ∀ item, Steady rel (body item))
    (items : List β) : Steady rel (collect body items) := by
  induction items with
  | nil => exact steady_pure []
  | cons item later ih =>
      exact steady_bind (each item) fun _ => steady_bind ih fun _ => steady_pure _

end Survives

section Appends

variable {γ : Type} {view : σ → List γ} {emitted early late : List γ} {s : σ}

/-- The handler appends a first part of `emitted` to `view`, and all of it if it returns. -/
structure Appends (view : σ → List γ) (emitted : List γ) (prog : Handler σ α) (s : σ) : Prop where
  part : view (prog s).2 <+: view s ++ emitted
  whole : Ensures prog (fun _ s' => view s' = view s ++ emitted) s

theorem Silent.appends {prog : Handler σ α} (silent : Silent view prog) :
    Appends view [] prog s := by
  have same : view (prog s).2 = view s := silent s
  refine ⟨?_, ?_⟩
  · rw [same]
    exact List.prefix_append _ _
  · intro _ s' ended
    rw [silent.of_returned ended, List.append_nil]

theorem Appends.bind {prog : Handler σ α} {next : α → Handler σ β}
    (first : Appends view early prog s)
    (rest : ∀ value s', prog s = (.returned value, s') → Appends view late (next value) s') :
    Appends view (early ++ late) (prog >>= next) s := by
  refine ⟨?_, ?_⟩
  · have stopped : view (prog s).2 <+: view s ++ (early ++ late) := by
      rw [← List.append_assoc]
      exact first.part.trans (List.prefix_append _ _)
    rcases ended : prog s with ⟨value | _ | _, s'⟩
    · rw [bind_of_returned ended, ← List.append_assoc, ← first.whole value s' ended]
      exact (rest value s' ended).part
    · rw [ended] at stopped
      rw [bind_of_failed ended]
      exact stopped
    · rw [ended] at stopped
      rw [bind_of_aborted ended]
      exact stopped
  · apply Ensures.bind
    intro value s' ended
    refine (rest value s' ended).whole.mono ?_
    intro _ s'' emittedLate
    rw [emittedLate, first.whole value s' ended, List.append_assoc]

theorem Appends.silent_bind {prog : Handler σ α} {next : α → Handler σ β}
    (silent : Silent view prog)
    (rest : ∀ value s', prog s = (.returned value, s') → Appends view emitted (next value) s') :
    Appends view emitted (prog >>= next) s :=
  silent.appends.bind rest

theorem Appends.bind_silent {prog : Handler σ α} {next : α → Handler σ β}
    (first : Appends view emitted prog s) (silent : ∀ value, Silent view (next value)) :
    Appends view emitted (prog >>= next) s := by
  rw [← List.append_nil emitted]
  exact first.bind fun value _ _ => (silent value).appends

theorem Appends.get_bind {next : σ → Handler σ β} (rest : Appends view emitted (next s) s) :
    Appends view emitted (get >>= next) s :=
  ⟨rest.part, rest.whole⟩

theorem Appends.fail : Appends view emitted (fail : Handler σ α) s :=
  ⟨List.prefix_append _ _, Ensures.fail⟩

theorem Appends.require_bind {condition : Prop} [Decidable condition] {next : Unit → Handler σ β}
    (rest : condition → Appends view emitted (next ()) s) :
    Appends view emitted (require condition >>= next) s := by
  by_cases holds : condition
  · rw [require_true holds]
    exact rest holds
  · rw [require_false holds]
    exact Appends.fail

theorem Appends.ofOption_bind {value : Option α} {next : α → Handler σ β}
    (rest : ∀ found, value = some found → Appends view emitted (next found) s) :
    Appends view emitted (ofOption value >>= next) s := by
  cases value with
  | none => exact Appends.fail
  | some found => exact rest found rfl

theorem Appends.modify {change : σ → σ} (appended : view (change s) = view s ++ emitted) :
    Appends view emitted (modify change) s := by
  refine ⟨?_, Ensures.modify appended⟩
  rw [← appended]
  exact List.prefix_rfl

theorem Appends.forEach {emit : β → γ} {body : β → Handler σ Unit} {items : List β}
    (holds : σ → Prop)
    (each : ∀ item s, holds s →
      Appends view [emit item] (body item) s ∧ Ensures (body item) (fun _ => holds) s)
    (start : holds s) : Appends view (items.map emit) (forEach body items) s := by
  induction items generalizing s with
  | nil => exact Silent.appends (keeps_pure ())
  | cons item later ih =>
      rcases each item s start with ⟨appends, kept⟩
      apply Appends.bind appends
      intro _ s' ended
      exact ih (kept _ s' ended)

end Appends

section Leaves

variable {s : σ} {always : σ → Prop} {prog : Handler σ α} {next : α → Handler σ β}

/-- The state satisfies `always` wherever the handler ends, and `post` if it returns. -/
structure Leaves (always : σ → Prop) (prog : Handler σ α) (post : α → σ → Prop) (s : σ) :
    Prop where
  ended : always (prog s).2
  ensures : Ensures prog post s

theorem Leaves.bind {mid : α → σ → Prop} {post : β → σ → Prop} (first : Leaves always prog mid s)
    (rest : ∀ value s', prog s = (.returned value, s') → mid value s' →
      Leaves always (next value) post s') : Leaves always (prog >>= next) post s := by
  rcases first with ⟨always, ensures⟩
  constructor
  · rcases ended : prog s with ⟨value | _ | _, s'⟩
    · rw [bind_of_returned ended]
      exact (rest value s' ended (ensures value s' ended)).ended
    · rw [ended] at always
      rwa [bind_of_failed ended]
    · rw [ended] at always
      rwa [bind_of_aborted ended]
  · refine Ensures.bind fun value s' ended => ?_
    exact (rest value s' ended (ensures value s' ended)).ensures

theorem Leaves.mono {post weaker : α → σ → Prop} (leaves : Leaves always prog post s)
    (implies : ∀ value s', post value s' → weaker value s') : Leaves always prog weaker s :=
  ⟨leaves.ended, leaves.ensures.mono implies⟩

theorem Leaves.pure {value : α} {post : α → σ → Prop} (here : always s) (holds : post value s) :
    Leaves always (pure value) post s :=
  ⟨here, Ensures.pure holds⟩

theorem Leaves.modify {change : σ → σ} {post : Unit → σ → Prop} (here : always (change s))
    (holds : post () (change s)) : Leaves always (modify change) post s :=
  ⟨here, Ensures.modify holds⟩

theorem Leaves.modify_bind {change : σ → σ} {next : Unit → Handler σ β} {post : β → σ → Prop}
    (rest : Leaves always (next ()) post (change s)) :
    Leaves always (Handler.modify change >>= next) post s :=
  ⟨rest.ended, rest.ensures⟩

theorem Leaves.get_bind {next : σ → Handler σ β} {post : β → σ → Prop}
    (rest : Leaves always (next s) post s) : Leaves always (get >>= next) post s :=
  ⟨rest.ended, rest.ensures⟩

theorem Leaves.returned_bind {value : α} {s' : σ} {post : β → σ → Prop}
    (ended : prog s = (.returned value, s')) (rest : Leaves always (next value) post s') :
    Leaves always (prog >>= next) post s := by
  constructor
  · rw [bind_of_returned ended]
    exact rest.ended
  · intro result s'' both
    rw [bind_of_returned ended] at both
    exact rest.ensures result s'' both

theorem Leaves.ofOption_bind {value : Option α} {post : β → σ → Prop}
    (missing : value = none → always s)
    (rest : ∀ found, value = some found → Leaves always (next found) post s) :
    Leaves always (Handler.ofOption value >>= next) post s := by
  cases value with
  | none => exact ⟨missing rfl, Ensures.bind Ensures.fail⟩
  | some found => exact rest found rfl

theorem Leaves.silent_bind {view : σ → τ} {post : β → σ → Prop} (silent : Silent view prog)
    (kept : ∀ s', view s' = view s → always s')
    (rest : ∀ value s', view s' = view s → Leaves always (next value) post s') :
    Leaves always (prog >>= next) post s := by
  have first : Leaves always prog (fun _ s' => view s' = view s) s :=
    ⟨kept _ (silent s), fun _ _ ended => silent.of_returned ended⟩
  exact first.bind fun value s' _ => rest value s'

theorem Leaves.require_bind {condition : Prop} [Decidable condition] {next : Unit → Handler σ β}
    {post : β → σ → Prop} (refused : ¬condition → always s)
    (rest : condition → Leaves always (next ()) post s) :
    Leaves always (Handler.require condition >>= next) post s := by
  by_cases met : condition
  · rw [require_true met]
    exact rest met
  · rw [require_false met]
    exact ⟨refused met, Ensures.bind Ensures.fail⟩

theorem Leaves.require {condition : Prop} [Decidable condition] {post : Unit → σ → Prop}
    (here : always s) (holds : condition → post () s) :
    Leaves always (require condition) post s := by
  by_cases met : condition
  · rw [require_true met]
    exact Leaves.pure here (holds met)
  · rw [require_false met]
    exact ⟨here, Ensures.fail⟩

theorem Leaves.ite {condition : Prop} [Decidable condition] {whenTrue whenFalse : Handler σ α}
    {post : α → σ → Prop} (left : condition → Leaves always whenTrue post s)
    (right : ¬condition → Leaves always whenFalse post s) :
    Leaves always (if condition then whenTrue else whenFalse) post s := by
  split
  · exact left ‹_›
  · exact right ‹_›

/-- A loop invariant, indexed by the items that are still to come. -/
theorem Leaves.forEach {body : β → Handler σ Unit} {holds : List β → σ → Prop} {items : List β}
    (each : ∀ item later s, holds (item :: later) s →
      Leaves always (body item) (fun _ => holds later) s)
    (done : ∀ s, holds [] s → always s) (start : holds items s) :
    Leaves always (forEach body items) (fun _ => holds []) s := by
  induction items generalizing s with
  | nil => exact Leaves.pure (done s start) start
  | cons item later ih => exact (each item later s start).bind fun _ _ _ => ih

end Leaves

section Focus

variable {view : σ → τ} {update : τ → σ → σ} {prog : Handler τ α} {s : σ}

/-- A handler of a part of the state. -/
def focus (view : σ → τ) (update : τ → σ → σ) (prog : Handler τ α) : Handler σ α := fun s =>
  ((prog (view s)).1, update (prog (view s)).2 s)

theorem Ensures.focus {post : α → σ → Prop}
    (ensures : Ensures prog (fun value t => post value (update t s)) (view s)) :
    Ensures (focus view update prog) post s := by
  intro value s' ended
  rcases run : prog (view s) with ⟨outcome, t⟩
  simp only [Handler.focus, run, Prod.mk.injEq] at ended
  rcases ended with ⟨rfl, rfl⟩
  exact ensures value t run

theorem Appends.focus {γ : Type} {whole : σ → List γ} {part : τ → List γ} {emitted : List γ}
    (appends : Appends part emitted prog (view s)) (before : whole s = part (view s))
    (after : ∀ t, whole (update t s) = part t) :
    Appends whole emitted (focus view update prog) s := by
  refine ⟨?_, Ensures.focus (appends.whole.mono ?_)⟩
  · change whole (update _ s) <+: _
    rw [after, before]
    exact appends.part
  · intro _ t appended
    rw [after, before, appended]

theorem Returns.focus (returns : Returns prog (view s)) : Returns (focus view update prog) s := by
  rcases returns with ⟨value, t, ended⟩
  refine ⟨value, update t s, ?_⟩
  rw [Handler.focus, ended]

end Focus

end Handler

end PracticalCrypto
