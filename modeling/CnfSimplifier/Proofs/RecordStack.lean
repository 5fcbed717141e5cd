import CnfSimplifier.Proofs.Extension

/-!
# What the stack of records gives back

All records share one array and are told apart by the separator alone. As long as it is no literal
of a record, a push adds exactly one record, so the stack gives back what was pushed, the last record
first. Extending a model is a fold over these records then: every open variable is made true, and
each record makes its chosen literal true unless one of its literals is true already.
-/
namespace CnfSimplifier

/-! ## One record -/

namespace Record

variable {model : Model} {literals : List Literal} {record : Record}

/-- Some literal is true in a table. -/
def TrueIn (model : Model) (literals : List Literal) : Prop :=
  ∃ literal ∈ literals, model[literal.var]? = some (some literal.isPositive)

instance : Decidable (TrueIn model literals) :=
  inferInstanceAs (Decidable (∃ literal ∈ literals, _))

/-- Make the chosen literal true if no literal of the record is. -/
def settle (model : Model) (record : Record) : Model :=
  if TrueIn model record.literals then model
  else model.setIfInBounds record.chosen.var (some record.chosen.isPositive)

/-- The search for a true literal finds one if there is one. -/
theorem satisfiedBy?_eq_trueIn (inside : ∀ literal ∈ literals, literal.var < model.size) :
    satisfiedBy? model literals = some (decide (TrueIn model literals)) := by
  induction literals with
  | nil => simp [satisfiedBy?, TrueIn]
  | cons literal rest ih =>
    obtain ⟨own, others⟩ := List.forall_mem_cons.1 inside
    have looked := Array.getElem?_eq_getElem own
    have isTrue : literal.isTrueUnder model[literal.var] = true ↔
        model[literal.var]? = some (some literal.isPositive) := by
      rw [looked]
      cases model[literal.var] <;> simp [Literal.isTrueUnder, Literal.valueUnder]
    have either : TrueIn model (literal :: rest) ↔
        literal.isTrueUnder model[literal.var] = true ∨ TrueIn model rest := by
      rw [isTrue]
      simp [TrueIn]
    unfold satisfiedBy?
    rw [looked, Option.bind_eq_bind, Option.bind_some, ih others]
    by_cases holds : literal.isTrueUnder model[literal.var] = true
    · simp [holds, either]
    · simp [holds, either]

/-- A record whose variables are in the table is settled. -/
theorem replay_eq_settle (inside : ∀ literal ∈ record.literals, literal.var < model.size) :
    record.replay model = some (settle model record) := by
  have chosen : record.chosen.var < model.size := inside record.chosen List.mem_cons_self
  unfold replay settle
  rw [satisfiedBy?_eq_trueIn inside, Option.bind_eq_bind, Option.bind_some]
  by_cases holds : TrueIn model record.literals
  · simp [holds]
  · simp [holds, chosen]

theorem size_settle : (settle model record).size = model.size := by
  unfold settle
  split
  · rfl
  · exact Array.size_setIfInBounds

end Record

/-! ## The stack -/

namespace Reconstruction

variable {records calls : List Record} {model : Model}

/-- Each record is counted. -/
theorem count_pushAll (stack : Reconstruction) (calls : List Record) :
    (stack.pushAll calls).count = stack.count + calls.length := by
  induction calls generalizing stack with
  | nil => rfl
  | cons call rest ih =>
    change ((stack.push call.chosen call.rest).pushAll rest).count = _
    rw [ih, List.length_cons, Nat.add_comm rest.length 1, ← Nat.add_assoc]
    rfl

/-- Replaying is a fold that may fail at a variable outside the table. -/
theorem replayAll_eq_foldlM (records : List Record) (model : Model) :
    replayAll records model = records.foldlM (fun model record => record.replay model) model := by
  induction records generalizing model with
  | nil => rfl
  | cons record rest ih =>
    rw [replayAll, List.foldlM_cons]
    exact congrArg _ (funext ih)

/-- With all variables in the table it does not fail. -/
theorem replayAll_eq_foldl
    (inside : ∀ record ∈ records, ∀ literal ∈ record.literals, literal.var < model.size) :
    replayAll records model = some (records.foldl Record.settle model) := by
  induction records generalizing model with
  | nil => rfl
  | cons record rest ih =>
    obtain ⟨own, others⟩ := List.forall_mem_cons.1 inside
    rw [replayAll, Record.replay_eq_settle own, Option.bind_eq_bind, Option.bind_some,
      ih (Record.size_settle.symm ▸ others), List.foldl_cons]

theorem size_complete (model : Model) : (complete model).size = model.size := Array.size_mapIdx

/-- Open variables become true, and nothing else changes. -/
theorem getElem?_complete (model : Model) (name : Nat) :
    (complete model)[name]? = if name = 0 then model[name]? else
      (model[name]?).map fun value => some (value.getD true) := by
  rw [complete, Array.getElem?_mapIdx]
  split
  next zero => simp
  next positive => rfl

/-- The stack gives back exactly what was pushed. After any pushes whose literals are none of them
the separator, there is one record for each of them, the last one first: the chosen literal and then
the others in order, without further copies of the chosen one. The counters say how many records
there are and how many cells they take. To extend a model is to make all open variables true and to
settle one record after the other, from the last one on. -/
theorem decodes_pushAll (plain : ∀ call ∈ calls, Literal.separator ∉ call.literals) :
    (({} : Reconstruction).pushAll calls).records = calls.reverse.map (fun call =>
      ⟨call.chosen, call.rest.filter fun literal => literal != call.chosen⟩) ∧
    (({} : Reconstruction).pushAll calls).count = calls.length ∧
    (({} : Reconstruction).pushAll calls).numCells =
      ((({} : Reconstruction).pushAll calls).records.map fun record =>
        1 + record.literals.length).sum ∧
    ∀ model : Model, ∃ filled : Model, filled.size = model.size ∧
      (∀ name : Nat, filled[name]? = if name = 0 then model[name]? else
        (model[name]?).map fun value => some (value.getD true)) ∧
      (({} : Reconstruction).pushAll calls).extend model =
        (({} : Reconstruction).pushAll calls).records.foldlM
          (fun model record => record.replay model) filled ∧
      ((∀ call ∈ calls, ∀ literal ∈ call.literals, literal.var < model.size) →
        (({} : Reconstruction).pushAll calls).extend model =
          some ((({} : Reconstruction).pushAll calls).records.foldl Record.settle filled)) := by
  have decoded := records_pushAll plain
  rw [← List.map_reverse] at decoded
  refine ⟨decoded, ?_, ?_, fun model => ⟨complete model, size_complete model,
    getElem?_complete model, replayAll_eq_foldlM _ _, fun inside => replayAll_eq_foldl ?_⟩⟩
  · rw [count_pushAll]
    exact Nat.zero_add _
  · rw [decoded, numCells, ← Array.length_toList, cells_pushAll]
    simp [List.length_flatMap, Function.comp_def, Nat.add_comm, List.map_reverse]
  · rw [decoded, size_complete]
    intro record member literal inRecord
    obtain ⟨call, isCall, rfl⟩ := List.mem_map.1 member
    exact inside call (List.mem_reverse.1 isCall) literal (Record.mem_normal.1 inRecord)

/-- Two records, each pushed with a copy of its chosen literal. -/
theorem decodes_pushAll_copies :
    let first : Record := ⟨.ofInt 1, [.ofInt 1, .ofInt 2]⟩
    let second : Record := ⟨.ofInt (-3), [.ofInt 4, .ofInt (-3)]⟩
    let stack := ({} : Reconstruction).pushAll [first, second]
    stack.records = [⟨.ofInt (-3), [.ofInt 4]⟩, ⟨.ofInt 1, [.ofInt 2]⟩] ∧ stack.count = 2 ∧
      stack.numCells = 6 ∧
      stack.extend #[none, some false, none, none, some false] =
        some #[none, some false, some true, some false, some false] := by
  intro first second stack
  have plain : ∀ call ∈ [first, second], Literal.separator ∉ call.literals := by decide
  obtain ⟨records, count, cells, extends_⟩ := decodes_pushAll plain
  obtain ⟨filled, _, value, _, settled⟩ := extends_ #[none, some false, none, none, some false]
  obtain rfl : filled = #[none, some false, some true, some true, some false] :=
    Array.ext_getElem? fun name => (value name).trans (by
      rcases name with _ | _ | _ | _ | _ | _ <;> rfl)
  rw [records] at cells settled
  exact ⟨records, count, cells, (settled (by decide)).trans (by decide +kernel)⟩

end Reconstruction

end CnfSimplifier
