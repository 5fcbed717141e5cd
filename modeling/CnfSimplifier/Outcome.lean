import CnfSimplifier.Error

/-!
# Computations on a state

Every operation of the engine takes a state and ends in one of three ways. It is
done, with a value and the new state. It fails for a cause of the domain; the
state it had reached is kept, because a failed operation may have changed the
formula in a sound way and later operations go on from there. Or it is stuck: it
reached outside a table or used a stale handle, or the fuel of a loop was spent,
or there was no room for another clause or variable.
There is no state after that, and nothing can be said about the formula.
-/
namespace CnfSimplifier

/-- Why a computation has no continuation. -/
inductive Breakdown where
  /-- An index outside a table, or a handle from another epoch. -/
  | badAccess
  /-- A loop used up its fuel. -/
  | outOfFuel
  /-- All names of clauses, or all names of variables, were given away. -/
  | outOfSpace
deriving DecidableEq

/-- How a computation on a state of type `σ` ends. -/
inductive Outcome (σ α : Type) where
  | done (value : α) (state : σ)
  | failed (cause : Error) (state : σ)
  | stuck (why : Breakdown)

/-- A computation on a state of type `σ` with a value of type `α`. -/
def Run (σ α : Type) : Type := σ → Outcome σ α

namespace Run

variable {σ τ α β : Type}

/-- Give a value and leave the state. -/
@[always_inline, inline]
protected def pure (value : α) : Run σ α := fun state => .done value state

/-- Run one computation and go on with its value, unless it failed or is stuck. -/
@[always_inline, inline]
protected def bind (first : Run σ α) (next : α → Run σ β) : Run σ β := fun state =>
  match first state with
  | .done value after => next value after
  | .failed cause after => .failed cause after
  | .stuck why => .stuck why

@[always_inline]
instance : Monad (Run σ) where
  pure := Run.pure
  bind := Run.bind

/-- Mapping the identity changes nothing. -/
theorem id_map (body : Run σ α) : id <$> body = body := by
  funext state
  change (match body state with | .done a t => _ | .failed c t => _ | .stuck w => _) = body state
  cases body state <;> rfl

/-- Computations can be regrouped. -/
theorem bind_assoc {γ : Type} (body : Run σ α) (first : α → Run σ β) (second : β → Run σ γ) :
    body >>= first >>= second = body >>= fun value => first value >>= second := by
  funext state
  change Run.bind (Run.bind body first) second state =
    Run.bind body (fun value => Run.bind (first value) second) state
  unfold Run.bind
  cases body state <;> rfl

instance : LawfulMonad (Run σ) :=
  LawfulMonad.mk' (Run σ) id_map (fun _ _ => rfl) bind_assoc

/-- Read the state. -/
@[always_inline, inline]
protected def get : Run σ σ := fun state => .done state state

/-- Replace the state. -/
@[always_inline, inline]
protected def set (state : σ) : Run σ Unit := fun _ => .done () state

/-- Change the state and give a value. -/
@[always_inline, inline]
protected def modifyGet (change : σ → α × σ) : Run σ α := fun state =>
  match change state with
  | (value, after) => .done value after

@[always_inline]
instance : MonadStateOf σ (Run σ) where
  get := Run.get
  set := Run.set
  modifyGet := Run.modifyGet

/-- Stop for a cause and keep the state. -/
@[always_inline, inline]
def fail (cause : Error) : Run σ α := fun state => .failed cause state

/-- Stop without a continuation. -/
@[always_inline, inline]
def stop (why : Breakdown) : Run σ α := fun _ => .stuck why

/-- Use the value of a table access; an access outside the table gets stuck. -/
@[always_inline, inline]
def access (found : Option α) : Run σ α := fun state =>
  match found with
  | some value => .done value state
  | none => .stuck .badAccess

/-- Read something from a table of the state; an access outside gets stuck. -/
@[always_inline, inline]
def read (look : σ → Option α) : Run σ α := fun state =>
  match look state with
  | some value => .done value state
  | none => .stuck .badAccess

/-- Change the state through its tables; an access outside gets stuck. -/
@[always_inline, inline]
def update (change : σ → Option σ) : Run σ Unit := fun state =>
  match change state with
  | some after => .done () after
  | none => .stuck .badAccess

/-- Turn a refusal into a value, so that the caller can act on it. -/
@[always_inline, inline]
def attempt (body : Run σ α) : Run σ (Except Error α) := fun state =>
  match body state with
  | .done value after => .done (.ok value) after
  | .failed cause after => .done (.error cause) after
  | .stuck why => .stuck why

/-- Work on the first of two states. -/
@[always_inline, inline]
def onFirst (body : Run σ α) : Run (σ × τ) α := fun (first, second) =>
  match body first with
  | .done value after => .done value (after, second)
  | .failed cause after => .failed cause (after, second)
  | .stuck why => .stuck why

/-- Work on the second of two states. -/
@[always_inline, inline]
def onSecond (body : Run τ α) : Run (σ × τ) α := fun (first, second) =>
  match body second with
  | .done value after => .done value (first, after)
  | .failed cause after => .failed cause (first, after)
  | .stuck why => .stuck why

/-! ## How computations unfold -/

@[simp] theorem pure_apply (value : α) (state : σ) :
    (pure value : Run σ α) state = .done value state := rfl

/-- What comes next goes on in the state that was reached. -/
theorem bind_apply (first : Run σ α) (next : α → Run σ β) (state : σ) :
    (first >>= next) state =
      match first state with
      | .done value after => next value after
      | .failed cause after => .failed cause after
      | .stuck why => .stuck why := rfl

/-- After a computation that is done, its value and state are handed on. -/
theorem bind_of_done {first : Run σ α} {next : α → Run σ β} {state after : σ} {value : α}
    (ended : first state = .done value after) : (first >>= next) state = next value after := by
  rw [bind_apply, ended]

/-- After a refusal nothing more is run. -/
theorem bind_of_failed {first : Run σ α} {next : α → Run σ β} {state after : σ} {cause : Error}
    (ended : first state = .failed cause after) : (first >>= next) state = .failed cause after := by
  rw [bind_apply, ended]

/-- Nothing follows a computation that is stuck. -/
theorem bind_of_stuck {first : Run σ α} {next : α → Run σ β} {state : σ} {why : Breakdown}
    (ended : first state = .stuck why) : (first >>= next) state = .stuck why := by
  rw [bind_apply, ended]

/-- Looking at the state leaves it. -/
@[simp] theorem get_apply (state : σ) : (get : Run σ σ) state = .done state state := rfl

@[simp] theorem set_apply (state before : σ) : (set state : Run σ Unit) before = .done () state :=
  rfl

@[simp] theorem modify_apply (change : σ → σ) (state : σ) :
    (modify change : Run σ Unit) state = .done () (change state) := rfl

/-- A failure keeps the state. -/
@[simp] theorem fail_apply (cause : Error) (state : σ) :
    (fail cause : Run σ α) state = .failed cause state := rfl

@[simp] theorem stop_apply (why : Breakdown) (state : σ) :
    (stop why : Run σ α) state = .stuck why := rfl

@[simp] theorem access_some (value : α) (state : σ) :
    (access (some value) : Run σ α) state = .done value state := rfl

@[simp] theorem access_none (state : σ) : (access none : Run σ α) state = .stuck .badAccess := rfl

end Run

end CnfSimplifier
