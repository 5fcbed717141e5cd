import CnfSimplifier.Outcome

/-!
# How runs end

A statement about a run has two parts: what holds of the value and the state if
the run is done, and what holds of the cause and the state if it failed. Nothing
is said about a run that is stuck, since it has no state.

The rules follow the ways in which runs are put together. A statement about a
sequence needs one about its first part, and for every value and state of that
part one about the rest.
-/
namespace CnfSimplifier

/-- Put the state at the end of a computation into a larger one. -/
def Outcome.mapState {σ τ α : Type} (put : σ → τ) : Outcome σ α → Outcome τ α
  | .done value after => .done value (put after)
  | .failed cause after => .failed cause (put after)
  | .stuck why => .stuck why

namespace Run

variable {σ τ α β : Type}

/-- What holds after a run that is done and after one that failed. -/
def Ends (body : Run σ α) (state : σ) (done : α → σ → Prop) (failed : Error → σ → Prop) : Prop :=
  match body state with
  | .done value after => done value after
  | .failed cause after => failed cause after
  | .stuck _ => True

variable {body : Run σ α} {state : σ} {done : α → σ → Prop} {failed : Error → σ → Prop} {value : α}
  {after : σ} {cause : Error} {next : α → Run σ β} {doneAll : β → σ → Prop} {found : α → Prop}

/-- A run that is known to be done ends as it does. -/
theorem Ends.of_done (ended : body state = .done value after) (holds : done value after) :
    body.Ends state done failed := by
  unfold Ends
  rw [ended]
  exact holds

theorem Ends.of_failed (ended : body state = .failed cause after) (holds : failed cause after) :
    body.Ends state done failed := by
  unfold Ends
  rw [ended]
  exact holds

theorem Ends.of_stuck {why : Breakdown} (ended : body state = .stuck why) :
    body.Ends state done failed := by
  unfold Ends
  rw [ended]
  trivial

/-- What is said of a run holds when it is done. -/
theorem Ends.done_of_eq (ends : body.Ends state done failed)
    (ended : body state = .done value after) : done value after := by
  unfold Ends at ends
  rw [ended] at ends
  exact ends

theorem Ends.failed_of_eq (ends : body.Ends state done failed)
    (ended : body state = .failed cause after) : failed cause after := by
  unfold Ends at ends
  rw [ended] at ends
  exact ends

/-- Less may be said of a run. -/
theorem Ends.imp {done' : α → σ → Prop} {failed' : Error → σ → Prop}
    (ends : body.Ends state done failed)
    (whenDone : ∀ value after, done value after → done' value after)
    (whenFailed : ∀ cause after, failed cause after → failed' cause after) :
    body.Ends state done' failed' := by
  unfold Ends at ends ⊢
  cases ended : body state with
  | done value after =>
    rw [ended] at ends
    exact whenDone value after ends
  | failed cause after =>
    rw [ended] at ends
    exact whenFailed cause after ends
  | stuck why => trivial

/-- Two statements about a run hold together. -/
theorem Ends.and {further : α → σ → Prop} {otherwise : Error → σ → Prop}
    (first : body.Ends state done failed) (second : body.Ends state further otherwise) :
    body.Ends state (fun value after => done value after ∧ further value after)
      fun cause after => failed cause after ∧ otherwise cause after := by
  unfold Ends at *
  cases ended : body state with
  | done value after =>
    rw [ended] at first second
    exact ⟨first, second⟩
  | failed cause after =>
    rw [ended] at first second
    exact ⟨first, second⟩
  | stuck why => trivial

/-- A sequence ends as its second part does, unless the first part failed. -/
theorem Ends.bind (first : body.Ends state done failed)
    (rest : ∀ value after, done value after → (next value).Ends after doneAll failed) :
    (body >>= next).Ends state doneAll failed := by
  unfold Ends at first ⊢
  rw [bind_apply]
  cases ended : body state with
  | done value after =>
    rw [ended] at first
    exact rest value after first
  | failed cause after =>
    rw [ended] at first
    exact first
  | stuck why => trivial

/-- A sequence ends well if its first part ends where the rest ends well. -/
theorem Ends.seq
    (ends : body.Ends state (fun value after => (next value).Ends after doneAll failed) failed) :
    (body >>= next).Ends state doneAll failed :=
  ends.bind fun _ _ rest => rest

/-- A part that is known to be done hands its value and state on. -/
theorem Ends.step (ended : body state = .done value after)
    (rest : (next value).Ends after doneAll failed) :
    (body >>= next).Ends state doneAll failed := by
  unfold Ends
  rw [bind_of_done ended]
  exact rest

theorem Ends.pure (holds : done value state) :
    (pure value : Run σ α).Ends state done failed := holds

theorem Ends.fail (holds : failed cause state) :
    (Run.fail cause : Run σ α).Ends state done failed := holds

theorem Ends.stop {why : Breakdown} : (Run.stop why : Run σ α).Ends state done failed := trivial

/-- A value read from a table is there. -/
theorem Ends.read {look : σ → Option α}
    (found : ∀ value, look state = some value → done value state) :
    (Run.read look).Ends state done failed := by
  cases looked : look state with
  | none =>
    have ended : Run.read look state = .stuck .badAccess := by simp only [Run.read, looked]
    exact .of_stuck ended
  | some value =>
    have ended : Run.read look state = .done value state := by simp only [Run.read, looked]
    exact .of_done ended (found value looked)

theorem Ends.access {found : Option α} (holds : ∀ value, found = some value → done value state) :
    (Run.access found).Ends state done failed := by
  cases found with
  | none => trivial
  | some value => exact holds value rfl

theorem Ends.update {change : σ → Option σ} {done : Unit → σ → Prop}
    (holds : ∀ after, change state = some after → done () after) :
    (Run.update change).Ends state done failed := by
  cases changed : change state with
  | none =>
    have ended : Run.update change state = .stuck .badAccess := by simp only [Run.update, changed]
    exact .of_stuck ended
  | some after =>
    have ended : Run.update change state = .done () after := by simp only [Run.update, changed]
    exact .of_done ended (holds after changed)

/-- What an empty computation has, and a sequence if both its parts have it, a loop has if all its
turns have it. -/
theorem forM_of_turns {ι : Type} {items : List ι} {turn : ι → Run σ PUnit}
    {motive : Run σ PUnit → Prop} (nothing : motive (pure ⟨⟩))
    (sequence : ∀ {first rest}, motive first → motive rest → motive (first >>= fun _ => rest))
    (turns : ∀ item ∈ items, motive (turn item)) : motive (items.forM turn) := by
  induction items with
  | nil => exact nothing
  | cons item rest ih =>
    obtain ⟨own, others⟩ := List.forall_mem_cons.1 turns
    exact sequence own (ih others)

/-- What every turn of a loop keeps holds at its end. -/
theorem Ends.forM {ι : Type} {items : List ι} {turn : ι → Run σ PUnit} {keeps : σ → Prop}
    (start : keeps state)
    (step : ∀ item ∈ items, ∀ state, keeps state →
      (turn item).Ends state (fun _ after => keeps after) failed) :
    (items.forM turn).Ends state (fun _ after => keeps after) failed :=
  forM_of_turns (motive := fun body => ∀ state, keeps state →
      body.Ends state (fun _ after => keeps after) failed)
    (fun _ held => .pure held) (fun first rest state held => (first state held).bind fun _ => rest)
    step state start

/-- What a run comes to is what it came to. -/
theorem Ends.self : body.Ends state (fun value after => body state = .done value after)
    fun cause after => body state = .failed cause after := by
  unfold Ends
  split <;> first | assumption | trivial

/-- Nothing needs to be said of a run. -/
theorem Ends.trivial : body.Ends state (fun _ _ => True) fun _ _ => True := by
  unfold Ends
  cases body state <;> exact True.intro

/-! ## Computations that only look -/

/-- A computation leaves the state and finds a value of which something holds. -/
def Looks (body : Run σ α) (state : σ) (found : α → Prop) : Prop :=
  body.Ends state (fun value after => after = state ∧ found value) fun _ _ => False

theorem Looks.of_done (ended : body state = .done value state) (holds : found value) :
    body.Looks state found :=
  Ends.of_done ended ⟨rfl, holds⟩

theorem Looks.read {look : σ → Option α} :
    (Run.read look).Looks state fun value => look state = some value :=
  Ends.read fun _ looked => ⟨rfl, looked⟩

theorem Looks.access {found : Option α} :
    (Run.access found : Run σ α).Looks state fun value => found = some value :=
  Ends.access fun _ looked => ⟨rfl, looked⟩

/-- After a look the state is the same. -/
theorem Looks.bind (looks : body.Looks state found)
    (rest : ∀ value, found value → (next value).Ends state doneAll failed) :
    (body >>= next).Ends state doneAll failed := by
  unfold Looks Ends at looks
  unfold Ends
  rw [bind_apply]
  cases ended : body state with
  | done value after =>
    rw [ended] at looks
    obtain ⟨same, holds⟩ := looks
    subst same
    exact rest value holds
  | failed cause after =>
    rw [ended] at looks
    exact looks.elim
  | stuck why => trivial

/-- An attempt is done in both cases. -/
theorem Ends.attempt {done : Except Error α → σ → Prop}
    (ends : body.Ends state (fun value => done (.ok value)) (fun cause => done (.error cause))) :
    body.attempt.Ends state done failed := by
  unfold Ends at ends ⊢
  unfold Run.attempt
  cases ended : body state with
  | done value after =>
    rw [ended] at ends
    exact ends
  | failed cause after =>
    rw [ended] at ends
    exact ends
  | stuck why => trivial

/-- An attempt that gives a cause failed for it. -/
theorem failed_of_attempt (ended : body.attempt state = .done (.error cause) after) :
    body state = .failed cause after := by
  unfold Run.attempt at ended
  cases reached : body state with
  | done value last =>
    rw [reached] at ended
    cases ended
  | failed reason last =>
    rw [reached] at ended
    cases ended
    rfl
  | stuck why =>
    rw [reached] at ended
    cases ended

/-- Work on a part of a state ends as it does on the part alone, with the part put
back in its place. -/
theorem Ends.within {whole : Run τ α} {outer : τ} {put : σ → τ}
    {done : α → τ → Prop} {failed : Error → τ → Prop}
    (same : whole outer = (body state).mapState put)
    (ends : body.Ends state (fun value after => done value (put after))
      (fun cause after => failed cause (put after))) :
    whole.Ends outer done failed := by
  unfold Ends at ends ⊢
  rw [same]
  cases ended : body state with
  | done value after =>
    rw [ended] at ends
    exact ends
  | failed cause after =>
    rw [ended] at ends
    exact ends
  | stuck why => trivial

/-- A look at a part of a state is a look at the state. -/
theorem Looks.within {whole : Run τ α} {outer : τ} {put : σ → τ}
    (same : whole outer = (body state).mapState put) (back : put state = outer)
    (looks : body.Looks state found) : whole.Looks outer found := by
  refine Ends.within same (looks.imp (fun value after => ?_) fun _ _ impossible => impossible)
  rintro ⟨unchanged, holds⟩
  rw [unchanged]
  exact ⟨back, holds⟩

end Run

/-! ## Runs that come to an end -/

namespace Run

variable {σ α β : Type} {body : Run σ α} {state : σ}

/-- A run is done, with a value and a state of which something holds. -/
def Returns (body : Run σ α) (state : σ) (done : α → σ → Prop) : Prop :=
  ∃ value after, body state = .done value after ∧ done value after

variable {done further : α → σ → Prop}

/-- Whether a run is done, and as it should be, is seen by running it. -/
instance Returns.decidable [∀ value after, Decidable (done value after)] :
    Decidable (body.Returns state done) :=
  match ended : body state with
  | .done value after => decidable_of_iff (done value after)
      ⟨fun holds => ⟨value, after, ended, holds⟩, fun ⟨_, _, again, holds⟩ => by
        cases ended.symm.trans again
        exact holds⟩
  | .failed _ _ => .isFalse fun ⟨_, _, again, _⟩ => nomatch ended.symm.trans again
  | .stuck _ => .isFalse fun ⟨_, _, again, _⟩ => nomatch ended.symm.trans again

theorem Returns.of_done {value : α} {after : σ} (ended : body state = .done value after)
    (holds : done value after) : body.Returns state done := ⟨value, after, ended, holds⟩

theorem Returns.pure {value : α} (holds : done value state) :
    (pure value : Run σ α).Returns state done := ⟨value, state, rfl, holds⟩

/-- Parts that are done follow one another. -/
theorem Returns.bind {next : α → Run σ β} {last : β → σ → Prop} (first : body.Returns state done)
    (rest : ∀ value after, done value after → (next value).Returns after last) :
    (body >>= next).Returns state last := by
  obtain ⟨value, after, ended, holds⟩ := first
  obtain ⟨result, final, returned, concluded⟩ := rest value after holds
  exact ⟨result, final, (bind_of_done ended).trans returned, concluded⟩

/-- A part that is known to be done hands its value and state on. -/
theorem Returns.step {next : α → Run σ β} {last : β → σ → Prop} {value : α} {after : σ}
    (ended : body state = .done value after) (rest : (next value).Returns after last) :
    (body >>= next).Returns state last := by
  obtain ⟨result, final, returned, concluded⟩ := rest
  exact ⟨result, final, (bind_of_done ended).trans returned, concluded⟩

/-- What is said of a run in any case holds of one that is done. -/
theorem Returns.and_ends {failed : Error → σ → Prop} (returns : body.Returns state done)
    (ends : body.Ends state further failed) :
    body.Returns state fun value after => done value after ∧ further value after := by
  obtain ⟨value, after, ended, holds⟩ := returns
  exact ⟨value, after, ended, holds, ends.done_of_eq ended⟩

theorem Returns.imp (returns : body.Returns state done)
    (holds : ∀ value after, done value after → further value after) :
    body.Returns state further := by
  obtain ⟨value, after, ended, held⟩ := returns
  exact ⟨value, after, ended, holds value after held⟩

end Run

end CnfSimplifier
