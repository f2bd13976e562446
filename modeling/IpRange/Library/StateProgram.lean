import Mathlib.Logic.Basic

/-!
Outcome reasoning for fallible programs that carry a mutable state. A failed
run keeps whatever state it had reached, and its condition is about both.
-/

namespace IpRange

section StateProgram

variable {ε σ α β : Type}

/-- Every outcome of running `program` from `state` meets its postcondition. -/
def Ensures (program : EStateM ε σ α) (state : σ) (post : α → σ → Prop)
    (fail : ε → σ → Prop) : Prop :=
  match program state with
  | .ok value next => post value next
  | .error error next => fail error next

def liftResult (result : Except ε α) : EStateM ε σ α := fun state =>
  match result with
  | .ok value => .ok value state
  | .error error => .error error state

/-- Runs a program on the part of a state that `part` reads and `put` replaces. -/
def onPart {τ : Type} (part : τ → σ) (put : τ → σ → τ) (program : EStateM ε σ α) :
    EStateM ε τ α := fun state =>
  match program (part state) with
  | .ok value inner => .ok value (put state inner)
  | .error error inner => .error error (put state inner)

@[simp] theorem ensures_pure (value : α) (state : σ) (post : α → σ → Prop) (fail : ε → σ → Prop) :
    Ensures (pure value) state post fail ↔ post value state := Iff.rfl

@[simp] theorem ensures_bind (program : EStateM ε σ α) (next : α → EStateM ε σ β) (state : σ)
    (post : β → σ → Prop) (fail : ε → σ → Prop) :
    Ensures (program >>= next) state post fail ↔
      Ensures program state (fun value reached => Ensures (next value) reached post fail) fail := by
  simp only [Ensures, bind, EStateM.bind]
  cases program state <;> rfl

@[simp] theorem ensures_map (program : EStateM ε σ α) (f : α → β) (state : σ)
    (post : β → σ → Prop) (fail : ε → σ → Prop) :
    Ensures (f <$> program) state post fail ↔
      Ensures program state (fun value reached => post (f value) reached) fail := by
  simp only [Ensures, Functor.map, EStateM.map]
  cases program state <;> rfl

@[simp] theorem ensures_throw (error : ε) (state : σ) (post : α → σ → Prop) (fail : ε → σ → Prop) :
    Ensures (throw error : EStateM ε σ α) state post fail ↔ fail error state := Iff.rfl

@[simp] theorem ensures_get (state : σ) (post : σ → σ → Prop) (fail : ε → σ → Prop) :
    Ensures get state post fail ↔ post state state := Iff.rfl

@[simp] theorem ensures_set (replacement state : σ) (post : PUnit → σ → Prop) (fail : ε → σ → Prop) :
    Ensures (set replacement) state post fail ↔ post ⟨⟩ replacement := Iff.rfl

@[simp] theorem ensures_modify (f : σ → σ) (state : σ) (post : PUnit → σ → Prop)
    (fail : ε → σ → Prop) :
    Ensures (modify f) state post fail ↔ post ⟨⟩ (f state) := Iff.rfl

@[simp] theorem ensures_liftResult_ok (value : α) (state : σ) (post : α → σ → Prop)
    (fail : ε → σ → Prop) :
    Ensures (liftResult (.ok value)) state post fail ↔ post value state := Iff.rfl

@[simp] theorem ensures_liftResult_error (error : ε) (state : σ) (post : α → σ → Prop)
    (fail : ε → σ → Prop) :
    Ensures (liftResult (.error error : Except ε α)) state post fail ↔ fail error state := Iff.rfl

@[simp] theorem ensures_onPart {τ : Type} {part : τ → σ} {put : τ → σ → τ}
    {program : EStateM ε σ α} {state : τ} {post : α → τ → Prop} {fail : ε → τ → Prop} :
    Ensures (onPart part put program) state post fail ↔
      Ensures program (part state) (fun value inner => post value (put state inner))
        fun error inner => fail error (put state inner) := by
  simp only [Ensures, onPart]
  cases program (part state) <;> rfl

/-- What `view` sees of a run that goes through. -/
def observed {γ : Type} (view : α → σ → γ) : EStateM.Result ε σ α → Option γ
  | .ok value reached => some (view value reached)
  | .error _ _ => none

theorem exists_ok_of_observed {γ : Type} {view : α → σ → γ} {outcome : EStateM.Result ε σ α}
    {sight : γ} (run : observed view outcome = some sight) :
    ∃ value reached, outcome = .ok value reached ∧ view value reached = sight := by
  cases outcome with
  | ok value reached => exact ⟨value, reached, rfl, Option.some.inj run⟩
  | error error reached => cases run

theorem get_bind_apply (next : σ → EStateM ε σ β) (state : σ) :
    (get >>= next) state = next state state := rfl

theorem liftResult_bind_apply (value : α) (next : α → EStateM ε σ β) (state : σ) :
    (liftResult (.ok value) >>= next) state = next value state := rfl

variable {program : EStateM ε σ α} {next : α → EStateM ε σ β} {first : Except ε α}

theorem bind_apply_eq_ok {state reached : σ} {value : β} :
    (program >>= next) state = .ok value reached ↔
      ∃ middle between, program state = .ok middle between ∧
        next middle between = .ok value reached := by
  show EStateM.bind program next state = _ ↔ _
  rw [EStateM.bind]
  cases program state with
  | ok middle between =>
    constructor
    · intro done
      exact ⟨middle, between, rfl, done⟩
    · rintro ⟨_, _, same, done⟩
      cases same
      exact done
  | error error between => simp

theorem bind_apply_of_ok {state reached : σ} {value : α} (run : program state = .ok value reached) :
    (program >>= next) state = next value reached := by
  simp only [bind, EStateM.bind, run]

section Rules

variable {program : EStateM ε σ α} {state : σ} {post post' : α → σ → Prop} {fail : ε → σ → Prop}

section Run

variable (run : Ensures program state post fail)

include run

theorem Ensures.outcome :
    Ensures program state
      (fun value reached => program state = .ok value reached ∧ post value reached)
      (fun error reached => program state = .error error reached ∧ fail error reached) := by
  unfold Ensures at run ⊢
  cases outcome : program state with
  | ok value reached => rw [outcome] at run; exact ⟨rfl, run⟩
  | error error reached => rw [outcome] at run; exact ⟨rfl, run⟩

theorem Ensures.ok {value : α} {reached : σ} (outcome : program state = .ok value reached) :
    post value reached := by
  unfold Ensures at run
  rw [outcome] at run
  exact run

theorem Ensures.error {error : ε} {reached : σ} (outcome : program state = .error error reached) :
    fail error reached := by
  unfold Ensures at run
  rw [outcome] at run
  exact run

theorem Ensures.mono {fail' : ε → σ → Prop}
    (onValue : ∀ value reached, post value reached → post' value reached)
    (onFail : ∀ error reached, fail error reached → fail' error reached) :
    Ensures program state post' fail' := by
  unfold Ensures at run ⊢
  cases outcome : program state with
  | ok value reached => rw [outcome] at run; exact onValue value reached run
  | error error reached => rw [outcome] at run; exact onFail error reached run

variable (onValue : ∀ value reached, post value reached → post' value reached)

include onValue

theorem Ensures.imp : Ensures program state post' fail :=
  run.mono onValue fun _ _ failed => failed

theorem Ensures.impOr {other : ε → σ → Prop} :
    Ensures program state post' (fun error reached => fail error reached ∨ other error reached) :=
  run.mono onValue fun _ _ failed => Or.inl failed

end Run

theorem Ensures.bind {next : α → EStateM ε σ β} {after : β → σ → Prop}
    (run : Ensures program state post fail)
    (onValue : ∀ value reached, post value reached → Ensures (next value) reached after fail) :
    Ensures (program >>= next) state after fail :=
  (ensures_bind ..).mpr (run.imp onValue)

theorem Ensures.total (run : Ensures program state post (fun _ _ => False)) :
    ∃ value reached, program state = .ok value reached ∧ post value reached := by
  cases outcome : program state with
  | ok value reached => exact ⟨value, reached, rfl, run.ok outcome⟩
  | error error reached => exact (run.error outcome).elim

end Rules

theorem bind_eq_ok {next : α → Except ε β} {result : β} :
    (first >>= next) = .ok result ↔ ∃ value, first = .ok value ∧ next value = .ok result := by
  cases first with
  | error error => simp [bind, Except.bind]
  | ok value => simp [bind, Except.bind]

theorem map_eq_ok {f : α → β} {result : β} :
    f <$> first = .ok result ↔ ∃ value, first = .ok value ∧ f value = result := by
  cases first with
  | error error => simp [Functor.map, Except.map]
  | ok value => simp [Functor.map, Except.map]

theorem map_eq_error {f : α → β} {error : ε} :
    f <$> first = .error error ↔ first = .error error := by
  cases first with
  | error error => simp [Functor.map, Except.map]
  | ok value => simp [Functor.map, Except.map]

theorem bind_eq_error {next : α → Except ε β} {error : ε} :
    (first >>= next) = .error error ↔
      first = .error error ∨ ∃ value, first = .ok value ∧ next value = .error error := by
  cases first with
  | error error => simp [bind, Except.bind]
  | ok value => simp [bind, Except.bind]

end StateProgram

end IpRange
