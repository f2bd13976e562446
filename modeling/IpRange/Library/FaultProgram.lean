import Mathlib.Order.Defs.Unbundled

/-!
Calls that may fail or crash at any step. Whatever way a call ends, the state it
reached is described by one relation to the state it started from; a value that
is returned has a postcondition of its own.
-/

namespace IpRange

inductive Stop (Problem : Type) where
  | failed (problem : Problem)
  | crashed
deriving DecidableEq, Repr

section FaultProgram

variable {ε σ α β Problem : Type}

/-- Every outcome relates the reached state to the first one, and a value meets `post`. -/
def Keeps (relation : σ → σ → Prop) (program : EStateM ε σ α) (state : σ)
    (post : α → σ → Prop) : Prop :=
  match program state with
  | .ok value reached => relation state reached ∧ post value reached
  | .error _ reached => relation state reached

/-- Runs `program` and hands its failure on as a value; a crash ends the caller too. -/
def outcomeOf (program : EStateM (Stop Problem) σ α) :
    EStateM (Stop Problem) σ (Except Problem α) := fun state =>
  match program state with
  | .ok value reached => .ok (.ok value) reached
  | .error (.failed problem) reached => .ok (.error problem) reached
  | .error .crashed reached => .error .crashed reached

variable {relation : σ → σ → Prop} {state : σ}

theorem Keeps.modify {f : σ → σ} {post : PUnit → σ → Prop} (moved : relation state (f state))
    (holds : post ⟨⟩ (f state)) : Keeps relation (modify f : EStateM ε σ PUnit) state post :=
  ⟨moved, holds⟩

variable {post : α → σ → Prop} {program : EStateM ε σ α}

theorem Keeps.mono {post' : α → σ → Prop} (run : Keeps relation program state post)
    (onValue : ∀ value reached, relation state reached → post value reached → post' value reached) :
    Keeps relation program state post' := by
  unfold Keeps at run ⊢
  cases outcome : program state with
  | ok value reached =>
    rw [outcome] at run
    exact ⟨run.1, onValue value reached run.1 run.2⟩
  | error error reached => rw [outcome] at run; exact run

theorem Keeps.weaken {larger : σ → σ → Prop} (run : Keeps relation program state post)
    (included : ∀ reached, relation state reached → larger state reached) :
    Keeps larger program state post := by
  unfold Keeps at run ⊢
  cases outcome : program state with
  | ok value reached =>
    rw [outcome] at run
    exact ⟨included reached run.1, run.2⟩
  | error error reached => rw [outcome] at run; exact included reached run

theorem Keeps.outcomeOf {program : EStateM (Stop Problem) σ α}
    (run : Keeps relation program state post) :
    Keeps relation (outcomeOf program) state fun result reached =>
      ∀ value, result = .ok value → post value reached := by
  unfold Keeps IpRange.outcomeOf at *
  cases outcome : program state with
  | ok value reached =>
    rw [outcome] at run
    refine ⟨run.1, ?_⟩
    rintro _ ⟨⟩
    exact run.2
  | error stop reached =>
    rw [outcome] at run
    cases stop with
    | failed problem => exact ⟨run, fun _ impossible => by cases impossible⟩
    | crashed => exact run

theorem Keeps.get_bind {next : σ → EStateM ε σ α} (run : Keeps relation (next state) state post) :
    Keeps relation (get >>= next) state post :=
  run

section Preorder

variable [IsPreorder σ relation]

variable {post : α → σ → Prop}

theorem Keeps.pure {value : α} (holds : post value state) :
    Keeps relation (pure value : EStateM ε σ α) state post :=
  ⟨refl_of relation state, holds⟩

theorem Keeps.throw {error : ε} : Keeps relation (throw error : EStateM ε σ α) state post :=
  refl_of relation state

variable {next : α → EStateM ε σ β}

theorem Keeps.bind {program : EStateM ε σ α} {middle : α → σ → Prop} {post : β → σ → Prop}
    (first : Keeps relation program state middle)
    (second : ∀ value reached, relation state reached → middle value reached →
      Keeps relation (next value) reached post) :
    Keeps relation (program >>= next) state post := by
  unfold Keeps at first ⊢
  simp only [Bind.bind, EStateM.bind]
  cases outcome : program state with
  | ok value reached =>
    rw [outcome] at first
    have later := second value reached first.1 first.2
    unfold Keeps at later
    cases final : next value reached with
    | ok result last =>
      simp only [final] at later ⊢
      exact ⟨trans_of relation first.1 later.1, later.2⟩
    | error error last =>
      simp only [final] at later ⊢
      exact trans_of relation first.1 later
  | error error reached => rw [outcome] at first; exact first

end Preorder

end FaultProgram

end IpRange
