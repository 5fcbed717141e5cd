import CnfSimplifier.Numbering
import CnfSimplifier.Proofs.Conclusion

/-!
# Numbering the variables of a formula

A numbering fits a formula if it numbers variables of the formula, none of them
twice, and has every protected variable and every variable of a clause or root
literal. The numbering that is built fits; it leaves the formula alone.
-/
namespace CnfSimplifier

namespace Numbering

variable {engine : Engine} {literals : List Literal} {used : Array Bool} {name : Nat}
  {clauses : List Clause} {names : Array Nat}

/-- A numbering has every variable that matters, each once. -/
structure Fits (numbering : Numbering) (picture : Picture) : Prop where
  active : numbering.isActive = true
  inRange : ∀ name ∈ numbering.names.toList, 0 < name ∧ name ≤ picture.numVars
  distinct : numbering.names.toList.Nodup
  frozen : ∀ name, 0 < name → picture.frozen name → name ∈ numbering.names.toList
  mentioned : ∀ literals ∈ picture.formula, ∀ literal ∈ literals,
    literal.var ∈ numbering.names.toList
  /-- No other variable has a number. -/
  needed : ∀ name ∈ numbering.names.toList, picture.frozen name ∨
    ∃ literals ∈ picture.formula, ∃ literal ∈ literals, literal.var = name

/-- Marks are only ever set. -/
theorem marked_foldl (marked : used[name]? = some true) :
    (literals.foldl (fun used l => used.setIfInBounds l.var true) used)[name]? = some true := by
  induction literals generalizing used with
  | nil => exact marked
  | cons literal rest ih =>
    refine ih ?_
    rw [Array.getElem?_setIfInBounds]
    split
    next same =>
      subst same
      have inside : literal.var < used.size := (Array.getElem?_eq_some_iff.1 marked).1
      simp [inside]
    next => exact marked

/-- The variables of a clause get a mark. -/
theorem marked_of_mem {literal : Literal} (member : literal ∈ literals)
    (inside : literal.var < used.size) :
    (literals.foldl (fun used l => used.setIfInBounds l.var true) used)[literal.var]? =
      some true := by
  induction literals generalizing used with
  | nil => cases member
  | cons first rest ih =>
    rcases List.mem_cons.1 member with rfl | later
    · have marked : (used.setIfInBounds literal.var true)[literal.var]? = some true :=
        Array.getElem?_setIfInBounds_self_of_lt inside
      rw [List.foldl_cons]
      exact marked_foldl marked
    · exact ih later (by rwa [Array.size_setIfInBounds])

/-- The variables of all clauses get a mark. -/
theorem marked_of_markUsed? {used after : Array Bool} (done : markUsed? clauses used = some after) :
    (∀ name : Nat, used[name]? = some true → after[name]? = some true) ∧
      ∀ clause ∈ clauses, ∀ literal ∈ clause.literals, after[literal.var]? = some true := by
  induction clauses generalizing used with
  | nil =>
    cases done
    exact ⟨fun _ marked => marked, by simp⟩
  | cons clause rest ih =>
    unfold markUsed? at done
    split at done
    next inside =>
      obtain ⟨keeps, marks⟩ := ih done
      refine ⟨fun name marked => keeps name (marked_foldl marked),
        List.forall_mem_cons.2 ⟨fun literal member => keeps _ (marked_of_mem member ?_), marks⟩⟩
      simpa using List.all_eq_true.1 inside literal member
    next => cases done

/-- Only the variables of the clause get a new mark. -/
theorem mem_of_marked
    (marked : (literals.foldl (fun used l => used.setIfInBounds l.var true) used)[name]? =
      some true) : used[name]? = some true ∨ ∃ literal ∈ literals, literal.var = name := by
  induction literals generalizing used with
  | nil => exact .inl marked
  | cons literal rest ih =>
    rcases ih marked with before | ⟨other, member, same⟩
    · by_cases same : literal.var = name
      · exact .inr ⟨literal, List.mem_cons_self, same⟩
      · rw [Array.getElem?_setIfInBounds_ne same] at before
        exact .inl before
    · exact .inr ⟨other, List.mem_cons_of_mem _ member, same⟩

/-- Only the variables of the clauses get a new mark. -/
theorem mem_of_markUsed? {used after : Array Bool} (done : markUsed? clauses used = some after)
    (marked : after[name]? = some true) :
    used[name]? = some true ∨ ∃ clause ∈ clauses, ∃ literal ∈ clause.literals, literal.var = name := by
  induction clauses generalizing used with
  | nil =>
    obtain rfl := Option.some.inj done
    exact .inl marked
  | cons clause rest ih =>
    unfold markUsed? at done
    split at done
    next inside =>
      rcases ih done with before | ⟨other, member, literal, inside, same⟩
      · rcases mem_of_marked before with before | ⟨literal, member, same⟩
        · exact .inl before
        · exact .inr ⟨clause, List.mem_cons_self, literal, member, same⟩
      · exact .inr ⟨other, List.mem_cons_of_mem _ member, literal, inside, same⟩
    · cases done

/-- Marking the variables of a clause does not change the length of the table. -/
theorem size_marked (literals : List Literal) (used : Array Bool) :
    (literals.foldl (fun used l => used.setIfInBounds l.var true) used).size = used.size := by
  induction literals generalizing used with
  | nil => rfl
  | cons literal rest ih => exact (ih _).trans Array.size_setIfInBounds

/-- A long enough table takes a mark for every variable of the clauses. -/
theorem exists_marked
    (inRange : ∀ clause ∈ clauses, ∀ literal ∈ clause.literals, literal.var < used.size) :
    ∃ after, markUsed? clauses used = some after := by
  induction clauses generalizing used with
  | nil => exact ⟨used, rfl⟩
  | cons clause rest ih =>
    obtain ⟨here, later⟩ := List.forall_mem_cons.1 inRange
    unfold markUsed?
    rw [if_pos (List.all_eq_true.2 fun literal member => decide_eq_true (here literal member))]
    refine ih fun other member literal inside => ?_
    rw [size_marked]
    exact later other member literal inside

/-- A variable that gets a number: it is in a live clause, protected, or has a value. -/
def Keeps (engine : Engine) (name : Nat) : Prop :=
  (∃ clause ∈ engine.arena.liveClauses, ∃ literal ∈ clause.literals, literal.var = name) ∨
    ∃ state, engine.trail.vars[name]? = some state ∧
      (state.flags.frozen = true ∨ state.value.isSome = true)

/-- The needed variables are listed in order. -/
theorem ascending_needed? (found : needed? engine = some names) :
    names.toList.Pairwise (· < ·) := by
  obtain ⟨used, _, isNames⟩ := Option.bind_eq_some_iff.1 found
  rw [← Option.some.inj isNames]
  exact (List.pairwise_lt_range' 1).filter _

/-- They are the variables of the engine that are in a live clause, protected or assigned. -/
theorem mem_needed? (found : needed? engine = some names) :
    name ∈ names.toList ↔ 0 < name ∧ name ≤ engine.numVars ∧ Keeps engine name := by
  obtain ⟨used, marked, isNames⟩ := Option.bind_eq_some_iff.1 found
  have isUsed : (used[name]?).getD false = true ↔ ∃ clause ∈ engine.arena.liveClauses,
      ∃ literal ∈ clause.literals, literal.var = name := by
    constructor
    · intro isMarked
      cases atName : used[name]? with
      | none => simp [atName] at isMarked
      | some value =>
        obtain rfl : value = true := by simpa [atName] using isMarked
        rcases mem_of_markUsed? marked atName with before | inClause
        · rw [Array.getElem?_replicate] at before
          split at before <;> cases before
        · exact inClause
    · rintro ⟨clause, live, literal, member, rfl⟩
      rw [(marked_of_markUsed? marked).2 clause live literal member, Option.getD_some]
  have isKept : ((engine.trail.vars[name]?).map fun state =>
      state.flags.frozen || state.value.isSome).getD false = true ↔
      ∃ state, engine.trail.vars[name]? = some state ∧
        (state.flags.frozen = true ∨ state.value.isSome = true) := by
    cases engine.trail.vars[name]? <;> simp
  rw [← Option.some.inj isNames, List.mem_filter, List.mem_range'_1, Bool.or_eq_true, isUsed, isKept,
    and_assoc, Keeps, Nat.lt_iff_add_one_le, Nat.add_comm 1, Nat.succ_le_succ_iff]
  rfl

/-- They can be found if the clauses have no further variables. -/
theorem exists_needed_of_inRange (inRange : ∀ clause ∈ engine.arena.liveClauses,
    ∀ literal ∈ clause.literals, literal.var ≤ engine.numVars) :
    ∃ names, needed? engine = some names := by
  obtain ⟨used, marked⟩ : ∃ used, markUsed? engine.arena.liveClauses
      (Array.replicate (engine.numVars + 1) false) = some used := by
    refine exists_marked fun clause live literal member => ?_
    rw [Array.size_replicate]
    exact Nat.lt_succ_of_le (inRange clause live literal member)
  unfold needed?
  rw [marked]
  exact ⟨_, rfl⟩

/-- Then the numbering is built, and the engine is left alone. -/
theorem build_returns_needed (tool : Tool Numbering) (found : needed? engine = some names) :
    build.Returns (tool, engine) fun _ after =>
      after.2 = engine ∧ after.1.own = ⟨some names⟩ := by
  have spent : ∀ (clauses : List Clause) (tool : Tool Numbering),
      (clauses.forM fun clause => do
        let _ ← (Work.spend clause.size : Work Numbering Bool)
        pure ()).Returns (tool, engine) fun _ after => after.2 = engine := by
    intro clauses
    induction clauses with
    | nil => exact fun _ => .pure rfl
    | cons clause rest ih => exact fun _ => .step rfl (ih _)
  unfold build
  refine .step rfl (.bind (spent _ tool) ?_)
  rintro _ ⟨tool, _⟩ rfl
  rw [found]
  exact .step rfl (.of_done rfl ⟨rfl, rfl⟩)

variable [Realm]

/-- The variables that are needed make up a numbering that fits. -/
theorem fits_of_needed? (sound : engine.Sound) (found : needed? engine = some names) :
    Fits ⟨some names⟩ engine.picture := by
  have inNames : ∀ name, 0 < name → name < engine.trail.vars.size → Keeps engine name →
      name ∈ names.toList := by
    intro name positive small isNeeded
    exact (mem_needed? found).2 ⟨positive, Nat.le_sub_one_of_lt small, isNeeded⟩
  constructor
  case active => rfl
  case inRange =>
    intro name inside
    obtain ⟨positive, small, _⟩ := (mem_needed? found).1 inside
    exact ⟨positive, small⟩
  case distinct => exact (ascending_needed? found).imp Nat.ne_of_lt
  case frozen =>
    rintro name positive ⟨flags, lookedUp, isFrozen⟩
    obtain ⟨state, atName, rfl⟩ := Option.map_eq_some_iff.1 lookedUp
    exact inNames name positive (Array.getElem?_eq_some_iff.1 atName).1
      (.inr ⟨state, atName, .inl isFrozen⟩)
  case needed =>
    intro name inside
    obtain ⟨positive, _, ⟨clause, live, literal, member, same⟩ | ⟨state, atName, kept⟩⟩ :=
      (mem_needed? found).1 inside
    · refine .inr ⟨clause.literals, .inl ?_, literal, member, same⟩
      change clause.literals ∈ engine.arena.contents
      rw [Arena.contents_eq_liveClauses]
      exact Multiset.mem_coe.2 (List.mem_map_of_mem live)
    · rcases kept with frozen | assigned
      · exact .inl ⟨state.flags, by rw [Trail.flags?, atName]; rfl, frozen⟩
      · obtain ⟨sign, value⟩ := Option.isSome_iff_exists.1 assigned
        have small := sound.trail.small_of_lt (Array.getElem?_eq_some_iff.1 atName).1
        have isVar : (Literal.ofVar name sign).var = name := Literal.var_ofVar positive small
        refine .inr ⟨[Literal.ofVar name sign], .inr ⟨_, ?_, rfl⟩, _, List.mem_singleton_self _, isVar⟩
        refine (sound.trail.agrees.mem_facts_iff (by rwa [isVar]) (by rwa [isVar])).1 ?_
        rw [Literal.isPositive_ofVar positive small, value]
  case mentioned =>
    intro literals clause literal member
    obtain ⟨positive, inRange, _⟩ := sound.wellFormed.known_of_mem clause member
    have small := Trail.lt_of_le_numVars sound.trail.nonempty inRange
    refine inNames literal.var positive small ?_
    rcases clause with clause | ⟨unit, atRoot, rfl⟩
    · change literals ∈ engine.arena.contents at clause
      rw [Arena.contents_eq_liveClauses] at clause
      obtain ⟨stored, isLive, rfl⟩ := List.mem_map.1 (Multiset.mem_coe.1 clause)
      exact .inl ⟨stored, isLive, literal, member, rfl⟩
    · rw [List.mem_singleton.1 member] at positive small ⊢
      have atName := Array.getElem?_eq_getElem small
      have assigned := (sound.trail.agrees.mem_facts_iff positive atName).2 atRoot
      exact .inr ⟨_, atName, .inr (by rw [assigned]; rfl)⟩

/-- Building a numbering leaves the engine, and the numbering fits. -/
theorem build_ends {state : Tool Numbering × Engine} (sound : state.2.Sound)
    {failed : Error → Tool Numbering × Engine → Prop} :
    build.Ends state (fun _ after => after.2 = state.2 ∧ after.1.own.Fits state.2.picture)
      failed := by
  obtain ⟨tool, engine⟩ := state
  unfold build
  refine .step rfl ?_
  have spent : (engine.arena.liveClauses.forM fun clause => do
      let _ ← (Work.spend clause.size : Work Numbering Bool)
      pure ()).Ends (tool, engine) (fun _ after => after.2 = engine) failed :=
    .forM rfl fun clause _ state same => .step rfl (.pure same)
  refine spent.bind ?_
  rintro _ ⟨tool, _⟩ rfl
  refine Run.Looks.access.bind fun names found => .of_done rfl ⟨rfl, ?_⟩
  exact fits_of_needed? sound found

/-- The variables of a sound formula that are needed can be found. -/
theorem exists_needed (sound : engine.Sound) : ∃ names, needed? engine = some names := by
  refine exists_needed_of_inRange fun clause live literal member => ?_
  have isClause : clause.literals ∈ engine.picture.formula := by
    refine .inl ?_
    change clause.literals ∈ engine.arena.contents
    rw [Arena.contents_eq_liveClauses]
    exact List.mem_map_of_mem live
  exact (sound.wellFormed.known_of_mem isClause member).2.1

/-- A numbering can be built for every sound formula. -/
theorem build_returns (tool : Tool Numbering) (sound : engine.Sound) :
    build.Returns (tool, engine) fun _ after => after.2 = engine := by
  obtain ⟨names, needed⟩ := exists_needed sound
  exact (build_returns_needed tool needed).imp fun _ _ built => built.1

/-- Numbering the variables leaves the formula. -/
theorem process_ends {scope : Scope} {state : Tool Numbering × Engine} (sound : state.2.Sound) :
    process.Ends state (fun status after => state.2.Concludes scope status after.2 ∧
      status ≠ .unsat ∧ after.1.own.Fits after.2.picture) fun _ _ => False := by
  obtain ⟨tool, engine⟩ := state
  dsimp only at sound
  unfold process
  refine .step rfl (.step rfl (Run.Ends.bind (build_ends sound) ?_))
  rintro _ ⟨tool, after⟩ ⟨same, fits⟩
  dsimp only at same fits
  subst same
  refine .step rfl (.step rfl (.step rfl (.of_done rfl ?_)))
  have leads : ∀ notice, after.Leads scope { after with
      notices := after.notices.push notice } := fun _ =>
    .of_same sound rfl rfl rfl rfl rfl rfl rfl rfl rfl
  dsimp only
  split
  next empty => exact ⟨.inl (.inl ⟨by decide, leads _, fun _ => eq_of_beq empty⟩), by decide, fits⟩
  next => exact ⟨.inl (.inl ⟨by decide, leads _, nofun⟩), by decide, fits⟩

end Numbering

end CnfSimplifier
