import CnfSimplifier.Component
import CnfSimplifier.Proofs.ImplicationGraph
import Mathlib.Data.List.Pairwise

/-!
# The components found are strongly connected

A component is a set of literals that reach each other, with everything that
reaches one of them and is reached from it. The search keeps two stacks: the
literals that are open, and the literals that belong to no component yet. Three
facts carry the proof. An open literal reaches everything that was met after it.
A literal that is not open any more reaches an older one. And whatever a literal
has a look at is met, and not older than the least number known of an open
literal below it.

So when an open literal reaches nothing older, everything above it on the second
stack reaches it, and no edge leads from there to what is left on the stack.
-/
namespace CnfSimplifier

variable {graph : Implications}

/-- Two literals reach each other. -/
def Equivalent (edge : Literal → Literal → Prop) (a b : Literal) : Prop :=
  Relation.ReflTransGen edge a b ∧ Relation.ReflTransGen edge b a

theorem Equivalent.refl {edge : Literal → Literal → Prop} (a : Literal) : Equivalent edge a a :=
  ⟨.refl, .refl⟩

/-- Literals that reach each other, and all of those. -/
structure Component (edge : Literal → Literal → Prop) (members : List Literal) : Prop where
  nodup : members.Nodup
  reaches : ∀ a ∈ members, ∀ b ∈ members, Relation.ReflTransGen edge a b
  full : ∀ a ∈ members, ∀ b, Relation.ReflTransGen edge a b → Relation.ReflTransGen edge b a →
    b ∈ members

/-- The order of its members does not matter to a component. -/
theorem Component.of_perm {edge : Literal → Literal → Prop} {members others : List Literal}
    (component : Component edge members) (perm : others.Perm members) : Component edge others where
  nodup := perm.nodup_iff.2 component.nodup
  reaches a inA b inB := component.reaches a (perm.mem_iff.1 inA) b (perm.mem_iff.1 inB)
  full a inA b there back := perm.mem_iff.2 (component.full a (perm.mem_iff.1 inA) b there back)

namespace ComponentSearch

variable {search after : ComponentSearch} {literal other : Literal}

/-- Writing a table changes the entry of one literal. -/
theorem write_spec {α : Type} {table changed : Array α} {entry : α}
    (written : write table literal entry = some changed) (other : Literal) :
    changed[other.index]? = if other = literal then some entry else table[other.index]? := by
  unfold write at written
  split at written
  next inside =>
    rw [Option.some.injEq] at written
    subst written
    rw [Array.getElem?_setIfInBounds]
    by_cases same : other = literal
    · subst same
      simp [inside]
    · have different : literal.index ≠ other.index := fun equal =>
        same (Literal.index_inj.1 equal).symm
      simp [same, different]
  next => cases written

/-- The number of a literal, zero before it is met. -/
def num (search : ComponentSearch) (literal : Literal) : Nat :=
  (search.number[literal.index]?).getD 0

/-- The least number known to be reachable from a literal. -/
def least (search : ComponentSearch) (literal : Literal) : Nat :=
  (search.low[literal.index]?).getD 0

/-- What holds during the search. The open literals are `path`, the one met last
first; `todo` says which successors were not looked at. -/
structure Searched (edge : Literal → Literal → Prop) (search : ComponentSearch)
    (path : List Literal) (todo : Literal → Literal → Prop) : Prop where
  pending : ∀ literal, search.pending[literal.index]? = some true ↔ literal ∈ search.stack
  small : ∀ literal, search.num literal < search.next
  met : ∀ literal ∈ search.stack, search.num literal ≠ 0
  ordered : search.stack.Pairwise fun upper lower => search.num lower < search.num upper
  onStack : ∀ literal ∈ path, literal ∈ search.stack
  descending : path.Pairwise fun upper lower => search.num lower < search.num upper
  todoOpen : ∀ literal target, todo literal target → literal ∈ path ∧ edge literal target
  leastLe : ∀ literal ∈ search.stack, search.least literal ≤ search.num literal
  leastReached : ∀ literal ∈ search.stack, ∃ target ∈ search.stack,
    search.num target = search.least literal ∧ Relation.ReflTransGen edge literal target
  /-- A literal that is not open any more reaches an older one. -/
  left : ∀ literal ∈ search.stack, literal ∉ path → search.least literal < search.num literal
  /-- The last open literal before such a one knows what it knows. -/
  inherits : ∀ literal ∈ search.stack, literal ∉ path → ∀ below ∈ path,
    search.num below < search.num literal →
    (∀ between ∈ path, search.num between ≤ search.num below ∨
      search.num literal < search.num between) →
    search.least below ≤ search.least literal
  /-- An open literal reaches everything met after it. -/
  chain : ∀ lower ∈ path, ∀ literal ∈ search.stack, search.num lower ≤ search.num literal →
    Relation.ReflTransGen edge lower literal
  looked : ∀ literal ∈ search.stack, ∀ target, edge literal target →
    todo literal target ∨ (search.num target ≠ 0 ∧
      (target ∈ search.stack → search.least literal ≤ search.num target))
  closed : ∀ literal, search.num literal ≠ 0 → literal ∉ search.stack →
    ∀ target, edge literal target → search.num target ≠ 0 ∧ target ∉ search.stack
  found : ∀ members ∈ search.found.toList, 1 < members.length ∧ Component edge members
  /-- What left the stack is in a component that was found, or alone. -/
  kept : ∀ literal, search.num literal ≠ 0 → literal ∉ search.stack →
    (∃ members ∈ search.found.toList, literal ∈ members) ∨
      ∀ other, Equivalent edge literal other → other = literal
  /-- The components were taken off the stack. -/
  taken : ∀ members ∈ search.found.toList, ∀ literal ∈ members,
    search.num literal ≠ 0 ∧ literal ∉ search.stack
  apart : search.found.toList.Pairwise List.Disjoint

variable {edge : Literal → Literal → Prop} {path : List Literal}
  {todo later : Literal → Literal → Prop} {failed : Error → ComponentSearch → Prop}

/-! ## Meeting a literal -/

/-- The search after a literal was met. -/
structure Meets (search : ComponentSearch) (literal : Literal) (after : ComponentSearch) : Prop where
  num : ∀ other, after.num other = if other = literal then search.next else search.num other
  least : ∀ other, after.least other = if other = literal then search.next else search.least other
  pending : ∀ other, after.pending[other.index]? =
    if other = literal then some true else search.pending[other.index]?
  stack : after.stack = literal :: search.stack
  next : after.next = search.next + 1
  found : after.found = search.found

/-- A literal that is visited gets the next number. -/
theorem visit_ends :
    (visit literal).Ends search (fun _ after => Meets search literal after) failed := by
  refine .update fun after changed => ?_
  simp only [Option.bind_eq_bind, Option.bind_eq_some_iff, Option.pure_def,
    Option.some.injEq] at changed
  obtain ⟨number, writtenNumber, low, writtenLow, pending, writtenPending, rfl⟩ := changed
  refine ⟨fun other => ?_, fun other => ?_, write_spec writtenPending, rfl, rfl, rfl⟩
  · unfold num
    rw [write_spec writtenNumber]
    split <;> rfl
  · unfold least
    rw [write_spec writtenLow]
    split <;> rfl

section Meets

variable (meets : Meets search literal after)

include meets

theorem Meets.num_new : after.num literal = search.next := by
  rw [meets.num, if_pos rfl]

theorem Meets.num_old (different : other ≠ literal) : after.num other = search.num other := by
  rw [meets.num, if_neg different]

theorem Meets.least_new : after.least literal = search.next := by
  rw [meets.least, if_pos rfl]

theorem Meets.least_old (different : other ≠ literal) : after.least other = search.least other := by
  rw [meets.least, if_neg different]

theorem Meets.not_mem (outside : other ∉ after.stack) : other ≠ literal ∧ other ∉ search.stack := by
  rwa [meets.stack, List.mem_cons, not_or] at outside

end Meets

section Meeting

variable (searched : Searched edge search path todo) (meets : Meets search literal after)
  (fresh : search.num literal = 0)

include searched fresh

/-- What is on the stack was met before. -/
theorem Searched.ne_of_mem (member : other ∈ search.stack) : other ≠ literal := by
  rintro rfl
  exact searched.met other member fresh

include meets

theorem Searched.meet_cases (member : other ∈ after.stack) :
    other = literal ∨ (other ≠ literal ∧ other ∈ search.stack) := by
  rw [meets.stack] at member
  rcases List.mem_cons.1 member with rfl | earlier
  · exact .inl rfl
  · exact .inr ⟨searched.ne_of_mem fresh earlier, earlier⟩

omit fresh in
theorem Searched.num_lt_next (different : other ≠ literal) : after.num other < search.next := by
  rw [meets.num_old different]
  exact searched.small other

/-- The literal that is met comes after all others. -/
theorem Searched.meet_pairwise {literals : List Literal} (inside : literals ⊆ search.stack)
    (ordered : literals.Pairwise fun upper lower => search.num lower < search.num upper) :
    (literal :: literals).Pairwise fun upper lower => after.num lower < after.num upper := by
  have old : ∀ other ∈ literals, other ≠ literal := fun other member =>
    searched.ne_of_mem fresh (inside member)
  refine List.pairwise_cons.2 ⟨fun other earlier => ?_, ?_⟩
  · rw [meets.num_new]
    exact searched.num_lt_next meets (old other earlier)
  · refine ordered.imp_of_mem fun {upper lower} inUpper inLower order => ?_
    rwa [meets.num_old (old upper inUpper), meets.num_old (old lower inLower)]

/-- The least number noted for a literal belongs to one it reaches. -/
theorem Searched.meet_leastReached (member : other ∈ after.stack) : ∃ target ∈ after.stack,
    after.num target = after.least other ∧ Relation.ReflTransGen edge other target := by
  rcases searched.meet_cases meets fresh member with rfl | ⟨different, earlier⟩
  · exact ⟨other, member, by rw [meets.num_new, meets.least_new], .refl⟩
  · obtain ⟨target, inStack, same, path⟩ := searched.leastReached other earlier
    refine ⟨target, by rw [meets.stack]; exact List.mem_cons_of_mem _ inStack, ?_, path⟩
    rw [meets.num_old (searched.ne_of_mem fresh inStack), meets.least_old different, same]

/-- A literal that is not open has inherited what its successors found. -/
theorem Searched.meet_inherits (member : other ∈ after.stack) (notOpen : other ∉ literal :: path)
    {below : Literal} (onPath : below ∈ literal :: path) (less : after.num below < after.num other)
    (between : ∀ middle ∈ literal :: path,
      after.num middle ≤ after.num below ∨ after.num other < after.num middle) :
    after.least below ≤ after.least other := by
  have old : ∀ {middle}, middle ∈ path → middle ≠ literal := fun inPath =>
    searched.ne_of_mem fresh (searched.onStack _ inPath)
  rcases searched.meet_cases meets fresh member with rfl | ⟨different, earlier⟩
  · exact absurd List.mem_cons_self notOpen
  rcases List.mem_cons.1 onPath with rfl | deeper
  · -- The literal that is met has the greatest number.
    have := searched.num_lt_next meets different
    rw [meets.num_new] at less
    omega
  · rw [meets.least_old different, meets.least_old (old deeper)]
    rw [meets.num_old different, meets.num_old (old deeper)] at less
    refine searched.inherits other earlier
      (fun onPath => notOpen (List.mem_cons_of_mem _ onPath)) below deeper less ?_
    intro middle inPath
    have gap := between middle (List.mem_cons_of_mem _ inPath)
    rwa [meets.num_old (old inPath), meets.num_old (old deeper), meets.num_old different] at gap

/-- Every literal below on the path leads to the new one. -/
theorem Searched.meet_chain (reached : ∀ lower ∈ path, Relation.ReflTransGen edge lower literal)
    {lower : Literal} (onPath : lower ∈ literal :: path) (member : other ∈ after.stack)
    (less : after.num lower ≤ after.num other) : Relation.ReflTransGen edge lower other := by
  rcases searched.meet_cases meets fresh member with rfl | ⟨different, earlier⟩
  · rcases List.mem_cons.1 onPath with rfl | deeper
    · exact .refl
    · exact reached lower deeper
  · rcases List.mem_cons.1 onPath with rfl | deeper
    · have := searched.num_lt_next meets different
      rw [meets.num_new] at less
      omega
    · refine searched.chain lower deeper other earlier ?_
      have old := searched.ne_of_mem fresh (searched.onStack _ deeper)
      rwa [meets.num_old old, meets.num_old different] at less

/-- Every edge was looked along or is still to be. -/
theorem Searched.meet_looked
    (covers : ∀ source target, todo source target → later source target ∨ target = literal)
    (own : ∀ target, edge literal target → later literal target) {source target : Literal}
    (member : source ∈ after.stack) (step : edge source target) :
    later source target ∨ (after.num target ≠ 0 ∧
      (target ∈ after.stack → after.least source ≤ after.num target)) := by
  rcases searched.meet_cases meets fresh member with rfl | ⟨different, earlier⟩
  · exact .inl (own target step)
  rw [meets.least_old different]
  rcases searched.looked source earlier target step with open_ | ⟨nonzero, known⟩
  · rcases covers source target open_ with kept | rfl
    · exact .inl kept
    · right
      rw [meets.num_new]
      have := searched.leastLe source earlier
      have := searched.small source
      exact ⟨by omega, fun _ => by omega⟩
  · right
    have old : target ≠ literal := by
      rintro rfl
      exact nonzero fresh
    rw [meets.num_old old]
    refine ⟨nonzero, fun inStack => known ?_⟩
    exact ((searched.meet_cases meets fresh inStack).resolve_left old).2

/-- A literal is met for the first time. -/
theorem Searched.meet (reached : ∀ lower ∈ path, Relation.ReflTransGen edge lower literal)
    (covers : ∀ source target, todo source target → later source target ∨ target = literal)
    (own : ∀ target, edge literal target → later literal target)
    (proper : ∀ source target, later source target → source ∈ literal :: path ∧ edge source target) :
    Searched edge after (literal :: path) later where
  pending other := by
    rw [meets.pending, meets.stack, List.mem_cons, ← searched.pending other]
    split
    next same => simp [same]
    next different => simp [different]
  small other := by
    rw [meets.num, meets.next]
    split
    · omega
    · exact Nat.lt_succ_of_lt (searched.small other)
  met other member := by
    rcases searched.meet_cases meets fresh member with rfl | ⟨different, earlier⟩
    · rw [meets.num_new]
      have := searched.small other
      omega
    · rw [meets.num_old different]
      exact searched.met other earlier
  ordered := meets.stack ▸ searched.meet_pairwise meets fresh (List.Subset.refl _) searched.ordered
  onStack other member := by
    rw [meets.stack]
    exact List.mem_cons.2 ((List.mem_cons.1 member).imp_right (searched.onStack other))
  descending := searched.meet_pairwise meets fresh (fun _ => searched.onStack _) searched.descending
  todoOpen := proper
  leastLe other member := by
    rcases searched.meet_cases meets fresh member with rfl | ⟨different, earlier⟩
    · rw [meets.num_new, meets.least_new]
    · rw [meets.num_old different, meets.least_old different]
      exact searched.leastLe other earlier
  leastReached _ := searched.meet_leastReached meets fresh
  left other member notOpen := by
    rcases searched.meet_cases meets fresh member with rfl | ⟨different, earlier⟩
    · exact absurd List.mem_cons_self notOpen
    · rw [meets.num_old different, meets.least_old different]
      exact searched.left other earlier fun onPath => notOpen (List.mem_cons_of_mem _ onPath)
  inherits _ member notOpen _ := searched.meet_inherits meets fresh member notOpen
  chain _ onPath _ := searched.meet_chain meets fresh reached onPath
  looked _ member _ := searched.meet_looked meets fresh covers own member
  closed source nonzero notOn target step := by
    obtain ⟨different, notBefore⟩ := meets.not_mem notOn
    rw [meets.num_old different] at nonzero
    obtain ⟨metTarget, offStack⟩ := searched.closed source nonzero notBefore target step
    have old : target ≠ literal := by
      rintro rfl
      exact metTarget fresh
    rw [meets.num_old old, meets.stack, List.mem_cons, not_or]
    exact ⟨metTarget, old, offStack⟩
  found := by
    rw [meets.found]
    exact searched.found
  kept other nonzero notOn := by
    obtain ⟨different, notBefore⟩ := meets.not_mem notOn
    rw [meets.num_old different] at nonzero
    rw [meets.found]
    exact searched.kept other nonzero notBefore
  taken := by
    rw [meets.found]
    intro members isFound other member
    obtain ⟨nonzero, offStack⟩ := searched.taken members isFound other member
    have old : other ≠ literal := by
      rintro rfl
      exact nonzero fresh
    rw [meets.num_old old, meets.stack, List.mem_cons, not_or]
    exact ⟨nonzero, old, offStack⟩
  apart := by
    rw [meets.found]
    exact searched.apart

end Meeting

/-! ## Looking at a literal that was met -/

/-- The least number of a literal may have become smaller. -/
structure Lowers (search : ComponentSearch) (literal : Literal) (number : Nat)
    (after : ComponentSearch) : Prop where
  least : ∀ other, after.least other =
    if other = literal then min (search.least literal) number else search.least other
  num : after.num = search.num
  pending : after.pending = search.pending
  stack : after.stack = search.stack
  next : after.next = search.next
  found : after.found = search.found

/-- A number that was reached lowers the least one noted. -/
theorem reach_ends {number : Nat} :
    (reach literal number).Ends search (fun _ after => Lowers search literal number after)
      failed := by
  refine Run.Looks.read.bind fun known asked => .update fun after changed => ?_
  simp only [Option.bind_eq_bind, Option.bind_eq_some_iff, Option.pure_def,
    Option.some.injEq] at changed
  obtain ⟨low, written, rfl⟩ := changed
  refine ⟨fun other => ?_, rfl, rfl, rfl, rfl, rfl⟩
  unfold least
  rw [write_spec written, asked]
  split <;> rfl

/-- What was reached may be noted for a literal of the path. -/
theorem Searched.lower {number : Nat} (searched : Searched edge search path todo)
    (lowers : Lowers search literal number after) (isOpen : literal ∈ path)
    (reached : ∃ target ∈ search.stack, search.num target = number ∧
      Relation.ReflTransGen edge literal target) : Searched edge after path todo := by
  have leastLe : ∀ other, after.least other ≤ search.least other := by
    intro other
    rw [lowers.least]
    split
    next same => exact same ▸ Nat.min_le_left _ _
    next => exact Nat.le_refl _
  have leastOld : ∀ other, other ∉ path → after.least other = search.least other := by
    intro other notOpen
    rw [lowers.least, if_neg]
    rintro rfl
    exact notOpen isOpen
  exact {
    pending := by
      rw [lowers.pending, lowers.stack]
      exact searched.pending
    small := by
      rw [lowers.num, lowers.next]
      exact searched.small
    met := by
      rw [lowers.num, lowers.stack]
      exact searched.met
    ordered := by
      rw [lowers.num, lowers.stack]
      exact searched.ordered
    onStack := by
      rw [lowers.stack]
      exact searched.onStack
    descending := by
      rw [lowers.num]
      exact searched.descending
    todoOpen := searched.todoOpen
    leastLe := by
      rw [lowers.num, lowers.stack]
      exact fun other member => (leastLe other).trans (searched.leastLe other member)
    leastReached := by
      rw [lowers.num, lowers.stack]
      intro other member
      rw [lowers.least]
      split
      next same =>
        subst same
        rcases Nat.le_total (search.least other) number with small | large
        · rw [Nat.min_eq_left small]
          exact searched.leastReached other member
        · rw [Nat.min_eq_right large]
          exact reached
      next => exact searched.leastReached other member
    left := by
      rw [lowers.num, lowers.stack]
      intro other member notOpen
      rw [leastOld other notOpen]
      exact searched.left other member notOpen
    inherits := by
      rw [lowers.num, lowers.stack]
      intro other member notOpen below onPath less between
      rw [leastOld other notOpen]
      exact (leastLe below).trans
        (searched.inherits other member notOpen below onPath less between)
    chain := by
      rw [lowers.num, lowers.stack]
      exact searched.chain
    looked := by
      rw [lowers.num, lowers.stack]
      intro source member target step
      rcases searched.looked source member target step with open_ | ⟨nonzero, known⟩
      · exact .inl open_
      · exact .inr ⟨nonzero, fun inStack => (leastLe source).trans (known inStack)⟩
    closed := by
      rw [lowers.num, lowers.stack]
      exact searched.closed
    found := by
      rw [lowers.found]
      exact searched.found
    kept := by
      rw [lowers.num, lowers.stack, lowers.found]
      exact searched.kept
    taken := by
      rw [lowers.num, lowers.stack, lowers.found]
      exact searched.taken
    apart := by
      rw [lowers.found]
      exact searched.apart }

/-- A successor that was looked at need not be looked at again. -/
theorem Searched.drop_todo (searched : Searched edge search path todo)
    (covers : ∀ source target, todo source target → later source target ∨
      (search.num target ≠ 0 ∧ (target ∈ search.stack → search.least source ≤ search.num target)))
    (fewer : ∀ source target, later source target → todo source target) :
    Searched edge search path later := by
  refine { searched with todoOpen := ?_, looked := ?_ }
  · exact fun source target open_ => searched.todoOpen source target (fewer source target open_)
  · intro source member target step
    rcases searched.looked source member target step with open_ | known
    · exact covers source target open_
    · exact .inr known

/-! ## Leaving a literal -/

variable {rest : List Literal}

/-- The open literal that was met last is the one with the greatest number. -/
theorem Searched.num_le_top (searched : Searched edge search (literal :: rest) todo)
    (member : other ∈ literal :: rest) : search.num other ≤ search.num literal := by
  rcases List.mem_cons.1 member with rfl | deeper
  · exact Nat.le_refl _
  · exact Nat.le_of_lt ((List.pairwise_cons.1 searched.descending).1 other deeper)

/-- What lies above the last open literal knows no less than it. -/
theorem Searched.least_top_le (searched : Searched edge search (literal :: rest) todo)
    (member : other ∈ search.stack) (above : search.num literal < search.num other) :
    search.least literal ≤ search.least other := by
  have notOpen : other ∉ literal :: rest := fun onPath =>
    absurd (searched.num_le_top onPath) (Nat.not_le_of_lt above)
  exact searched.inherits other member notOpen literal List.mem_cons_self above
    fun between onPath => .inl (searched.num_le_top onPath)

/-- Literals of the stack with the same number are the same. -/
theorem Searched.eq_of_num_eq (searched : Searched edge search path todo) {a b : Literal}
    (inA : a ∈ search.stack) (inB : b ∈ search.stack) (same : search.num a = search.num b) :
    a = b := by
  by_contra different
  have distinct : search.stack.Pairwise fun a b => search.num a ≠ search.num b :=
    searched.ordered.imp fun less => Nat.ne_of_gt less
  have symmetric : Std.Symm fun a b => search.num a ≠ search.num b := ⟨fun _ _ ne => ne.symm⟩
  exact distinct.forall inA inB different same

/-- A literal is left that reaches an older one. -/
theorem Searched.leave (searched : Searched edge search (literal :: rest) todo)
    (finished : ∀ target, ¬ todo literal target)
    (reachesOlder : search.least literal ≠ search.num literal)
    (parentKnows : ∀ parent ∈ rest.head?, search.least parent ≤ search.least literal) :
    Searched edge search rest todo := by
  have onPath : ∀ other ∈ rest, other ∈ literal :: rest :=
    fun other member => List.mem_cons_of_mem _ member
  have inStack := searched.onStack literal List.mem_cons_self
  -- The last of the remaining open literals knows what this one knows.
  have topKnows : ∀ below ∈ rest, (∀ between ∈ rest, search.num between ≤ search.num below) →
      search.least below ≤ search.least literal := by
    intro below inRest greatest
    cases rest with
    | nil => cases inRest
    | cons parent others =>
      have isParent : below = parent := by
        rcases List.mem_cons.1 inRest with same | deeper
        · exact same
        · have descending := (List.pairwise_cons.1 searched.descending).2
          have less := (List.pairwise_cons.1 descending).1 below deeper
          have := greatest parent List.mem_cons_self
          omega
      rw [isParent]
      exact parentKnows parent rfl
  refine { searched with
    onStack := fun other member => searched.onStack other (onPath other member)
    descending := (List.pairwise_cons.1 searched.descending).2
    todoOpen := ?_
    left := ?_
    inherits := ?_
    chain := fun lower member => searched.chain lower (onPath lower member) }
  · intro source target open_
    obtain ⟨isOpen, step⟩ := searched.todoOpen source target open_
    rcases List.mem_cons.1 isOpen with rfl | deeper
    · exact absurd open_ (finished target)
    · exact ⟨deeper, step⟩
  · intro other member notOpen
    by_cases same : other = literal
    · subst same
      have := searched.leastLe other member
      omega
    · refine searched.left other member fun isOpen => ?_
      rcases List.mem_cons.1 isOpen with isTop | deeper
      · exact same isTop
      · exact notOpen deeper
  · intro other member notOpen below inRest less between
    -- Nothing lies between the last of the remaining open literals and this one.
    have fromTop : search.num literal ≤ search.num other →
        search.least below ≤ search.least literal := by
      intro above
      refine topKnows below inRest fun middle inside => ?_
      have := (List.pairwise_cons.1 searched.descending).1 middle inside
      rcases between middle inside with low | high
      · exact low
      · omega
    by_cases same : other = literal
    · exact same ▸ fromTop (same ▸ Nat.le_refl _)
    · rcases Nat.lt_or_ge (search.num literal) (search.num other) with above | under
      · exact (fromTop (Nat.le_of_lt above)).trans (searched.least_top_le member above)
      · refine searched.inherits other member ?_ below (onPath below inRest) less ?_
        · intro isOpen
          rcases List.mem_cons.1 isOpen with isTop | deeper
          · exact same isTop
          · exact notOpen deeper
        · intro middle isOpen
          rcases List.mem_cons.1 isOpen with rfl | deeper
          · right
            exact Nat.lt_of_le_of_ne under fun equal =>
              same (searched.eq_of_num_eq member inStack equal)
          · exact between middle deeper

/-! ## Closing a component -/

/-- The stack is cut below a literal. -/
structure Cut (num : Literal → Nat) (literal : Literal) (stack members below : List Literal) :
    Prop where
  whole : stack = members ++ below
  inside : literal ∈ members
  above : ∀ other ∈ members, num literal ≤ num other
  under : ∀ other ∈ below, num other < num literal

/-- A stack in order is cut below a literal. -/
theorem cut_splitThrough {stack members below : List Literal} (num : Literal → Nat)
    (ordered : stack.Pairwise fun upper lower => num lower < num upper) (inside : literal ∈ stack)
    (split : splitThrough literal stack = (members, below)) :
    Cut num literal stack members below := by
  induction stack generalizing members with
  | nil => cases inside
  | cons top rest ih =>
    obtain ⟨highest, orderedRest⟩ := List.pairwise_cons.1 ordered
    unfold splitThrough at split
    split at split
    next same =>
      obtain ⟨rfl, rfl⟩ := Prod.mk.inj split
      subst same
      exact ⟨rfl, by simp, by simp, highest⟩
    next different =>
      have inRest : literal ∈ rest := by
        rcases List.mem_cons.1 inside with same | later
        · exact absurd same.symm different
        · exact later
      obtain ⟨rfl, rfl⟩ := Prod.mk.inj split
      obtain ⟨whole, member, above, under⟩ := ih orderedRest inRest rfl
      refine ⟨by rw [List.cons_append, ← whole], List.mem_cons_of_mem _ member, ?_, under⟩
      intro other isMember
      rcases List.mem_cons.1 isMember with rfl | later
      · exact Nat.le_of_lt (highest literal inRest)
      · exact above other later

section Cut

variable {num : Literal → Nat} {stack members below : List Literal}

theorem Cut.of_below (cut : Cut num literal stack members below) (outside : other ∈ below) :
    other ∈ stack := by
  rw [cut.whole]
  exact List.mem_append_right _ outside

theorem Cut.of_members (cut : Cut num literal stack members below) (member : other ∈ members) :
    other ∈ stack := by
  rw [cut.whole]
  exact List.mem_append_left _ member

theorem Cut.cases (cut : Cut num literal stack members below) (inStack : other ∈ stack) :
    other ∈ members ∨ other ∈ below := by
  rw [cut.whole] at inStack
  exact List.mem_append.1 inStack

theorem Cut.below_of_lt (cut : Cut num literal stack members below) (inStack : other ∈ stack)
    (less : num other < num literal) : other ∈ below := by
  rcases cut.cases inStack with inside | outside
  · exact absurd (cut.above other inside) (Nat.not_le_of_lt less)
  · exact outside

theorem Cut.not_member (cut : Cut num literal stack members below) (outside : other ∈ below) :
    other ∉ members := fun inside =>
  absurd (cut.above other inside) (Nat.not_le_of_lt (cut.under other outside))

end Cut

/-- Unmarking members leaves all other marks. -/
theorem unmark_spec {members : List Literal} {table changed : Array Bool}
    (written : members.foldlM (fun table member => write table member false) table = some changed)
    (other : Literal) : changed[other.index]? = some true ↔
      table[other.index]? = some true ∧ other ∉ members := by
  induction members generalizing table with
  | nil =>
    simp only [List.foldlM_nil, Option.pure_def, Option.some.injEq] at written
    subst written
    simp
  | cons first rest ih =>
    simp only [List.foldlM_cons, Option.bind_eq_bind, Option.bind_eq_some_iff] at written
    obtain ⟨middle, writtenFirst, writtenRest⟩ := written
    rw [ih writtenRest, write_spec writtenFirst, List.mem_cons, not_or]
    split
    next same => simp [same]
    next different => simp [different]

/-- The search after a component was taken off the stack. -/
structure Closes (search : ComponentSearch) (members below : List Literal)
    (after : ComponentSearch) : Prop where
  pending : ∀ other : Literal, after.pending[other.index]? = some true ↔
    search.pending[other.index]? = some true ∧ other ∉ members
  num : after.num = search.num
  least : after.least = search.least
  stack : after.stack = below
  next : after.next = search.next
  list : after.found.toList =
    search.found.toList ++ if 1 < members.length then [members] else []

/-- The component closed is found, if it has two members. -/
theorem Closes.found {members below : List Literal} (closes : Closes search members below after)
    (component : List Literal) : component ∈ after.found.toList ↔
      component ∈ search.found.toList ∨ (component = members ∧ 1 < members.length) := by
  rw [closes.list, List.mem_append]
  split
  next several => simp [several]
  next single => simp [single]

/-- Closing a literal takes its component off the stack. -/
theorem close_ends :
    (close literal).Ends search (fun _ after => ∃ members below,
      splitThrough literal search.stack = (members, below) ∧ Closes search members below after)
      failed := by
  refine .update fun after changed => ?_
  simp only [Option.bind_eq_bind, Option.bind_eq_some_iff, Option.pure_def,
    Option.some.injEq] at changed
  obtain ⟨pending, written, rfl⟩ := changed
  refine ⟨_, _, rfl, unmark_spec written, rfl, rfl, rfl, rfl, ?_⟩
  dsimp only
  split <;> simp

/-- Every literal of the stack reaches an open one. -/
theorem Searched.reaches_open (searched : Searched edge search path todo) (bound : Nat) :
    ∀ other ∈ search.stack, search.num other ≤ bound →
      ∃ lower ∈ path, Relation.ReflTransGen edge other lower := by
  induction bound with
  | zero => exact fun other member small => absurd (Nat.le_zero.1 small) (searched.met other member)
  | succ bound ih =>
    intro other member small
    by_cases isOpen : other ∈ path
    · exact ⟨other, isOpen, .refl⟩
    · have older := searched.left other member isOpen
      obtain ⟨target, inStack, same, reaches⟩ := searched.leastReached other member
      obtain ⟨lower, onPath, further⟩ := ih target inStack (by omega)
      exact ⟨lower, onPath, reaches.trans further⟩

section Closing

variable {members below : List Literal}

/-- The open literals that remain are below the cut. -/
theorem Searched.rest_below (searched : Searched edge search (literal :: rest) todo)
    (cut : Cut search.num literal search.stack members below) (member : other ∈ rest) :
    other ∈ below :=
  cut.below_of_lt (searched.onStack other (List.mem_cons_of_mem _ member))
    ((List.pairwise_cons.1 searched.descending).1 other member)

/-- No edge leads from a member to what is left on the stack. -/
theorem Searched.edge_of_member (searched : Searched edge search (literal :: rest) todo)
    (finished : ∀ target, ¬ todo literal target)
    (reachesNothing : search.least literal = search.num literal)
    (cut : Cut search.num literal search.stack members below) {source target : Literal}
    (member : source ∈ members) (step : edge source target) :
    search.num target ≠ 0 ∧ target ∉ below := by
  have inStack := cut.of_members member
  have notTodo : ¬ todo source target := by
    intro open_
    rcases List.mem_cons.1 (searched.todoOpen source target open_).1 with rfl | deeper
    · exact finished target open_
    · exact cut.not_member (searched.rest_below cut deeper) member
  rcases searched.looked source inStack target step with open_ | ⟨nonzero, known⟩
  · exact absurd open_ notTodo
  refine ⟨nonzero, fun outside => ?_⟩
  have leSource : search.least literal ≤ search.least source := by
    rcases Nat.lt_or_ge (search.num literal) (search.num source) with higher | same
    · exact searched.least_top_le inStack higher
    · have equal : source = literal :=
        searched.eq_of_num_eq inStack (searched.onStack literal List.mem_cons_self)
          (Nat.le_antisymm same (cut.above source member))
      rw [equal]
  have := known (cut.of_below outside)
  have := cut.under target outside
  omega

/-- What was met and is not left on the stack is closed under edges. -/
theorem Searched.closed_after (searched : Searched edge search (literal :: rest) todo)
    (finished : ∀ target, ¬ todo literal target)
    (reachesNothing : search.least literal = search.num literal)
    (cut : Cut search.num literal search.stack members below) {source target : Literal}
    (nonzero : search.num source ≠ 0) (notBelow : source ∉ below) (step : edge source target) :
    search.num target ≠ 0 ∧ target ∉ below := by
  by_cases onStack : source ∈ search.stack
  · rcases cut.cases onStack with member | outside
    · exact searched.edge_of_member finished reachesNothing cut member step
    · exact absurd outside notBelow
  · obtain ⟨metTarget, offStack⟩ := searched.closed source nonzero onStack target step
    exact ⟨metTarget, fun outside => offStack (cut.of_below outside)⟩

/-- Everything down to a literal that reaches nothing older is a component. -/
theorem Searched.component (searched : Searched edge search (literal :: rest) todo)
    (finished : ∀ target, ¬ todo literal target)
    (reachesNothing : search.least literal = search.num literal)
    (cut : Cut search.num literal search.stack members below) : Component edge members := by
  have inStack := searched.onStack literal List.mem_cons_self
  have fromTop : ∀ other ∈ members, Relation.ReflTransGen edge literal other := fun other member =>
    searched.chain literal List.mem_cons_self other (cut.of_members member)
      (cut.above other member)
  have toTop : ∀ other ∈ members, Relation.ReflTransGen edge other literal := by
    intro other member
    obtain ⟨lower, isOpen, reaches⟩ :=
      searched.reaches_open _ other (cut.of_members member) (Nat.le_refl _)
    exact reaches.trans
      (searched.chain lower isOpen literal inStack (searched.num_le_top isOpen))
  refine ⟨?_, fun a inA b inB => (toTop a inA).trans (fromTop b inB), ?_⟩
  · have ordered := searched.ordered
    rw [cut.whole] at ordered
    refine (List.pairwise_append.1 ordered).1.imp fun {a b} less same => ?_
    subst same
    exact Nat.lt_irrefl _ less
  · intro a member b there back
    -- What is reached from a member was met and is not left on the stack.
    have reached : search.num b ≠ 0 ∧ b ∉ below := by
      clear back
      induction there with
      | refl => exact ⟨searched.met a (cut.of_members member),
          fun outside => cut.not_member outside member⟩
      | tail _ last ih => exact searched.closed_after finished reachesNothing cut ih.1 ih.2 last
    by_cases onStack : b ∈ search.stack
    · rcases cut.cases onStack with isMember | outside
      · exact isMember
      · exact absurd outside reached.2
    · -- Otherwise the member would have been closed before.
      have earlier : search.num a ≠ 0 ∧ a ∉ search.stack := by
        clear there member
        induction back with
        | refl => exact ⟨reached.1, onStack⟩
        | tail _ last ih => exact searched.closed _ ih.1 ih.2 _ last
      exact absurd (cut.of_members member) earlier.2

/-- What was taken off the stack is in a component that was found, or alone. -/
theorem Searched.kept_after (searched : Searched edge search (literal :: rest) todo)
    (component : Component edge members) (cut : Cut search.num literal search.stack members below)
    (closes : Closes search members below after) (nonzero : search.num other ≠ 0)
    (notBelow : other ∉ below) : (∃ found ∈ after.found.toList, other ∈ found) ∨
      ∀ mate, Equivalent edge other mate → mate = other := by
  by_cases onStack : other ∈ search.stack
  · have member := (cut.cases onStack).resolve_right notBelow
    by_cases several : 1 < members.length
    · exact .inl ⟨members, (closes.found members).2 (.inr ⟨rfl, several⟩), member⟩
    · obtain ⟨only, rfl⟩ := List.length_eq_one_iff.1
        (Nat.le_antisymm (Nat.le_of_not_lt several) (List.length_pos_of_mem member))
      refine .inr fun mate ⟨there, back⟩ => ?_
      have inside := component.full other member mate there back
      rw [List.mem_singleton.1 inside, List.mem_singleton.1 member]
  · refine (searched.kept other nonzero onStack).imp_left ?_
    rintro ⟨found, isFound, member⟩
    exact ⟨found, (closes.found found).2 (.inl isFound), member⟩

/-- The components found are off the stack, and no two of them share a literal. -/
theorem Searched.taken_after (searched : Searched edge search (literal :: rest) todo)
    (cut : Cut search.num literal search.stack members below)
    (closes : Closes search members below after) :
    (∀ found ∈ after.found.toList, ∀ other ∈ found, search.num other ≠ 0 ∧ other ∉ below) ∧
      after.found.toList.Pairwise List.Disjoint := by
  constructor
  · intro found isFound other member
    rcases (closes.found found).1 isFound with earlier | ⟨rfl, _⟩
    · obtain ⟨nonzero, offStack⟩ := searched.taken found earlier other member
      exact ⟨nonzero, fun outside => offStack (cut.of_below outside)⟩
    · exact ⟨searched.met other (cut.of_members member), fun outside =>
        cut.not_member outside member⟩
  · rw [closes.list]
    refine List.pairwise_append.2 ⟨searched.apart, by split <;> simp, ?_⟩
    intro found isFound last isLast other inside outside
    split at isLast
    · rw [List.mem_singleton.1 isLast] at outside
      exact (searched.taken found isFound other inside).2 (cut.of_members outside)
    · cases isLast

/-- A literal that reaches nothing older closes a component. -/
theorem Searched.close (searched : Searched edge search (literal :: rest) todo)
    (finished : ∀ target, ¬ todo literal target)
    (reachesNothing : search.least literal = search.num literal)
    (cut : Cut search.num literal search.stack members below)
    (closes : Closes search members below after) : Searched edge after rest todo := by
  have component := searched.component finished reachesNothing cut
  have ofRest : ∀ other ∈ below, other ∉ rest → other ∉ literal :: rest := by
    intro other outside notOpen isOpen
    rcases List.mem_cons.1 isOpen with rfl | deeper
    · exact absurd (cut.under other outside) (Nat.lt_irrefl _)
    · exact notOpen deeper
  obtain ⟨taken, apart⟩ := searched.taken_after cut closes
  exact {
    pending := by
      intro other
      rw [closes.pending, searched.pending, closes.stack]
      exact ⟨fun ⟨inStack, notMember⟩ => (cut.cases inStack).resolve_left notMember,
        fun outside => ⟨cut.of_below outside, cut.not_member outside⟩⟩
    small := by
      rw [closes.num, closes.next]
      exact searched.small
    met := by
      rw [closes.num, closes.stack]
      exact fun other outside => searched.met other (cut.of_below outside)
    ordered := by
      rw [closes.num, closes.stack]
      have ordered := searched.ordered
      rw [cut.whole] at ordered
      exact (List.pairwise_append.1 ordered).2.1
    onStack := by
      rw [closes.stack]
      exact fun other member => searched.rest_below cut member
    descending := by
      rw [closes.num]
      exact (List.pairwise_cons.1 searched.descending).2
    todoOpen := by
      intro source target open_
      obtain ⟨isOpen, step⟩ := searched.todoOpen source target open_
      rcases List.mem_cons.1 isOpen with rfl | deeper
      · exact absurd open_ (finished target)
      · exact ⟨deeper, step⟩
    leastLe := by
      rw [closes.num, closes.least, closes.stack]
      exact fun other outside => searched.leastLe other (cut.of_below outside)
    leastReached := by
      rw [closes.num, closes.least, closes.stack]
      intro other outside
      have inStack := cut.of_below outside
      obtain ⟨target, onStack, same, reaches⟩ := searched.leastReached other inStack
      refine ⟨target, cut.below_of_lt onStack ?_, same, reaches⟩
      have := searched.leastLe other inStack
      have := cut.under other outside
      omega
    left := by
      rw [closes.num, closes.least, closes.stack]
      exact fun other outside notOpen =>
        searched.left other (cut.of_below outside) (ofRest other outside notOpen)
    inherits := by
      rw [closes.num, closes.least, closes.stack]
      intro other outside notOpen lower inRest less between
      refine searched.inherits other (cut.of_below outside) (ofRest other outside notOpen) lower
        (List.mem_cons_of_mem _ inRest) less fun middle isOpen => ?_
      rcases List.mem_cons.1 isOpen with rfl | deeper
      · exact .inr (cut.under other outside)
      · exact between middle deeper
    chain := by
      rw [closes.num, closes.stack]
      exact fun lower inRest other outside =>
        searched.chain lower (List.mem_cons_of_mem _ inRest) other (cut.of_below outside)
    looked := by
      rw [closes.num, closes.least, closes.stack]
      intro source outside target step
      rcases searched.looked source (cut.of_below outside) target step with open_ | ⟨nonzero, known⟩
      · exact .inl open_
      · exact .inr ⟨nonzero, fun stays => known (cut.of_below stays)⟩
    closed := by
      rw [closes.num, closes.stack]
      exact fun source nonzero notBelow target step =>
        searched.closed_after finished reachesNothing cut nonzero notBelow step
    found := by
      intro members isFound
      rcases (closes.found members).1 isFound with earlier | ⟨rfl, several⟩
      · exact searched.found members earlier
      · exact ⟨several, component⟩
    kept := by
      rw [closes.num, closes.stack]
      exact fun other nonzero notBelow => searched.kept_after component cut closes nonzero notBelow
    taken := by
      rw [closes.num, closes.stack]
      exact taken
    apart := apart }

end Closing

/-! ## The whole search -/

section Walking

variable {interrupted : Bool} {known : Literal → Prop}

/-- The open literals of a stack with successors, and what is still to be looked at. -/
def Todo (stack : List (Literal × List Literal)) (source target : Literal) : Prop :=
  ∃ entry ∈ stack, entry.1 = source ∧ target ∈ entry.2

section Todo

variable {stack : List (Literal × List Literal)} {source target next : Literal}
  {others : List Literal}

theorem todo_nil_cons :
    Todo ((literal, []) :: stack) source target ↔ Todo stack source target := by
  simp [Todo]

/-- What is left to look at is the next literal or left after it. -/
theorem todo_cons_cons : Todo ((literal, next :: others) :: stack) source target ↔
    (source = literal ∧ target = next) ∨ Todo ((literal, others) :: stack) source target := by
  simp only [Todo, List.mem_cons, exists_eq_or_imp]
  tauto

end Todo

theorem numberOf_looks : (numberOf literal).Looks search fun value => value = search.num literal := by
  refine Run.Ends.read fun value found => ⟨rfl, ?_⟩
  unfold num
  rw [found]
  rfl

theorem lowOf_looks : (lowOf literal).Looks search fun value => value = search.least literal := by
  refine Run.Ends.read fun value found => ⟨rfl, ?_⟩
  unfold least
  rw [found]
  rfl

theorem Searched.of_budget {budget : Budget} (searched : Searched edge search path todo) :
    Searched edge { search with budget := budget } path todo :=
  { searched with }

/-- Leaving the open literal that was met last. -/
theorem Searched.leave_ends {stack : List (Literal × List Literal)} {next : Run ComponentSearch Bool}
    {done : Bool → ComponentSearch → Prop}
    (searched : Searched edge search (literal :: stack.map Prod.fst) (Todo ((literal, []) :: stack)))
    (parentKnows : ∀ parent ∈ (stack.map Prod.fst).head?,
      search.least parent ≤ search.least literal)
    (rest : ∀ after, Searched edge after (stack.map Prod.fst) (Todo stack) →
      after.num = search.num → next.Ends after done fun _ _ => False) :
    (do
      if (← lowOf literal) = (← numberOf literal) then ComponentSearch.close literal
      next).Ends search done fun _ _ => False := by
  have notBelow : literal ∉ stack.map Prod.fst := fun member =>
    Nat.lt_irrefl _ ((List.pairwise_cons.1 searched.descending).1 literal member)
  have finished : ∀ target, ¬ Todo ((literal, []) :: stack) literal target := by
    intro target open_
    obtain ⟨entry, member, same, _⟩ := todo_nil_cons.1 open_
    exact notBelow (same ▸ List.mem_map_of_mem member)
  refine lowOf_looks.bind ?_
  rintro _ rfl
  refine numberOf_looks.bind ?_
  rintro _ rfl
  split
  next reachesNothing =>
    refine close_ends.bind ?_
    rintro _ after ⟨members, below, split, closes⟩
    have cut := cut_splitThrough search.num searched.ordered
      (searched.onStack literal List.mem_cons_self) split
    have closed := searched.close finished reachesNothing cut closes
    exact rest after (closed.drop_todo (fun _ _ open_ => .inl (todo_nil_cons.1 open_))
      fun _ _ => todo_nil_cons.2) closes.num
  next reachesOlder =>
    have left := searched.leave finished reachesOlder parentKnows
    exact rest search (left.drop_todo (fun _ _ open_ => .inl (todo_nil_cons.1 open_))
      fun _ _ => todo_nil_cons.2) rfl

/-- The literals of a set were met. -/
def Met (search : ComponentSearch) (known : Literal → Prop) : Prop :=
  ∀ literal, known literal → search.num literal ≠ 0

/-- A literal that is met is known. -/
theorem Meets.met (meets : Meets search literal after) (positive : search.next ≠ 0)
    (met : search.Met known) : after.Met fun other => other = literal ∨ known other := by
  intro other isKnown
  rw [meets.num]
  split
  next => exact positive
  next different => exact met other (isKnown.resolve_left different)

section Successors

variable {stack : List (Literal × List Literal)} {next : Literal} {others : List Literal}

/-- The last open literal hands what it knows on to the one below it. -/
theorem Searched.lower_parent {parent : Literal}
    (searched : Searched edge search (literal :: parent :: path) todo)
    (lowers : Lowers search parent (search.least literal) after) :
    Searched edge after (literal :: parent :: path) todo ∧
      after.least parent ≤ after.least literal := by
  have isOpen : parent ∈ literal :: parent :: path := by simp
  have inStack := searched.onStack literal List.mem_cons_self
  have younger : search.num parent < search.num literal :=
    (List.pairwise_cons.1 searched.descending).1 parent List.mem_cons_self
  have different : literal ≠ parent := by
    rintro rfl
    exact Nat.lt_irrefl _ younger
  obtain ⟨target, onStack, same, reaches⟩ := searched.leastReached literal inStack
  have toLiteral := searched.chain parent isOpen literal inStack (Nat.le_of_lt younger)
  refine ⟨searched.lower lowers isOpen ⟨target, onStack, same, toLiteral.trans reaches⟩, ?_⟩
  rw [lowers.least, lowers.least, if_pos rfl, if_neg different]
  exact Nat.min_le_right _ _

theorem Searched.edge_next (searched : Searched edge search path
    (Todo ((literal, next :: others) :: stack))) : edge literal next :=
  (searched.todoOpen literal next (todo_cons_cons.2 (.inl ⟨rfl, rfl⟩))).2

/-- The next successor is met for the first time, and its own successors are to be looked
at. -/
theorem Searched.meet_next {successors : List Literal}
    (searched : Searched edge search (literal :: path) (Todo ((literal, next :: others) :: stack)))
    (meets : Meets search next after) (fresh : search.num next = 0)
    (edges : ∀ target, edge next target ↔ target ∈ successors) :
    Searched edge after (next :: literal :: path)
      (Todo ((next, successors) :: (literal, others) :: stack)) := by
  refine searched.meet meets fresh ?_ ?_ ?_ ?_
  · intro lower isOpen
    exact (searched.chain lower isOpen literal (searched.onStack literal List.mem_cons_self)
      (searched.num_le_top isOpen)).tail searched.edge_next
  · intro source target open_
    rcases todo_cons_cons.1 open_ with ⟨_, isNext⟩ | ⟨entry, member, rest⟩
    · exact .inr isNext
    · exact .inl ⟨entry, List.mem_cons_of_mem _ member, rest⟩
  · exact fun target edge => ⟨_, List.mem_cons_self, rfl, (edges target).1 edge⟩
  · rintro source target ⟨entry, member, same, open_⟩
    rcases List.mem_cons.1 member with rfl | deeper
    · subst same
      exact ⟨List.mem_cons_self, (edges target).2 open_⟩
    · obtain ⟨isOpen, edge⟩ := searched.todoOpen source target
        (todo_cons_cons.2 (.inr ⟨entry, deeper, same, open_⟩))
      exact ⟨List.mem_cons_of_mem _ isOpen, edge⟩

/-- The next successor was met, and what the literal knows of it is enough. -/
theorem Searched.pass_next
    (searched : Searched edge search path (Todo ((literal, next :: others) :: stack)))
    (isMet : search.num next ≠ 0)
    (known : next ∈ search.stack → search.least literal ≤ search.num next) :
    Searched edge search path (Todo ((literal, others) :: stack)) := by
  refine searched.drop_todo (fun source target open_ => ?_) fun source target open_ =>
    todo_cons_cons.2 (.inr open_)
  rcases todo_cons_cons.1 open_ with ⟨rfl, rfl⟩ | stays
  · exact .inr ⟨isMet, known⟩
  · exact .inl stays

/-- The next successor is on the stack, and its number is reached. -/
theorem Searched.reach_next
    (searched : Searched edge search (literal :: path) (Todo ((literal, next :: others) :: stack)))
    (isMet : search.num next ≠ 0) (inStack : next ∈ search.stack)
    (lowers : Lowers search literal (search.num next) after) :
    Searched edge after (literal :: path) (Todo ((literal, others) :: stack)) := by
  refine (searched.lower lowers List.mem_cons_self
    ⟨next, inStack, rfl, .single searched.edge_next⟩).pass_next ?_ fun _ => ?_
  · rw [lowers.num]
    exact isMet
  · rw [lowers.num, lowers.least, if_pos rfl]
    exact Nat.min_le_right _ _

end Successors

/-- The walk keeps what the search knows, to its end. -/
theorem walk_ends (fuel : Nat) {stack : List (Literal × List Literal)}
    (searched : Searched graph.Edge search (stack.map Prod.fst) (Todo stack))
    (met : search.Met known) :
    (walk graph interrupted fuel stack).Ends search (fun finished after => finished = true →
      Searched graph.Edge after [] (Todo []) ∧ after.Met known) fun _ _ => False := by
  induction fuel generalizing search stack with
  | zero => exact .stop
  | succ fuel ih =>
    rcases stack with _ | ⟨⟨literal, _ | ⟨next, others⟩⟩, rest⟩
    · exact .pure fun _ => ⟨searched, met⟩
    · unfold walk
      rcases rest with _ | ⟨⟨parent, open_⟩, deeper⟩
      · exact searched.leave_ends (by simp) fun after left sameNum => ih left fun other isKnown =>
          sameNum ▸ met other isKnown
      · refine lowOf_looks.bind ?_
        rintro _ rfl
        refine reach_ends.bind fun _ later lowers => ?_
        obtain ⟨lowered, parentKnows⟩ := searched.lower_parent lowers
        refine lowered.leave_ends (fun other isParent => ?_) fun after left sameNum =>
          ih left fun other isKnown => ?_
        · obtain rfl : parent = other := by simpa using isParent
          exact parentKnows
        · rw [sameNum, lowers.num]
          exact met other isKnown
    · unfold walk
      have spent : (spend interrupted).Ends search
          (fun _ after => ∃ budget, after = { search with budget := budget }) fun _ _ => False :=
        .of_done rfl ⟨_, rfl⟩
      refine spent.bind ?_
      rintro goOn _ ⟨budget, rfl⟩
      split
      swap
      · exact .pure nofun
      have searched : Searched graph.Edge { search with budget := budget } _ _ := searched.of_budget
      refine numberOf_looks.bind ?_
      rintro _ rfl
      split
      next fresh =>
        refine visit_ends.bind fun _ later meets => ?_
        have positive : search.next ≠ 0 := Nat.ne_of_gt ((Nat.zero_le _).trans_lt (searched.small next))
        refine Run.Looks.access.bind fun successors found =>
          ih (searched.meet_next meets fresh fun target => ?_) fun other isKnown =>
            meets.met positive met other (.inr isKnown)
        rw [Implications.edge_iff_successors, found]
        simp
      next isMet =>
        refine Run.Looks.read.bind fun isPending asked => ?_
        have onStack : isPending = true ↔ next ∈ search.stack := by
          rw [← searched.pending next, asked, Option.some.injEq]
        split
        next waiting =>
          refine reach_ends.bind fun _ later lowers => ih ?_ fun other isKnown =>
            lowers.num ▸ met other isKnown
          exact searched.reach_next isMet (onStack.1 waiting) lowers
        next done =>
          exact ih (searched.pass_next isMet fun inStack => absurd (onStack.2 inStack) done) met

/-- The listed literals are met, but those without successors. -/
theorem searchFrom_ends (literals : List Literal)
    (searched : Searched graph.Edge search [] (Todo [])) (met : search.Met known) :
    (searchFrom graph interrupted literals).Ends search (fun finished after => finished = true →
      Searched graph.Edge after [] (Todo []) ∧ after.Met fun literal => known literal ∨
        (literal ∈ literals ∧ ∃ target, graph.Edge literal target)) fun _ _ => False := by
  induction literals generalizing search known with
  | nil => exact .pure fun _ => ⟨searched, fun literal isKnown => met literal (by simpa using isKnown)⟩
  | cons literal rest ih =>
    unfold searchFrom
    refine numberOf_looks.bind ?_
    rintro _ rfl
    refine Run.Looks.access.bind fun successors found => ?_
    have edges : ∀ target, graph.Edge literal target ↔ target ∈ successors.toList := by
      intro target
      rw [Implications.edge_iff_successors, found]
      simp
    -- Once the first literal was met, if need be, the rest is searched.
    have continue_ : ∀ later : ComponentSearch, Searched graph.Edge later [] (Todo []) →
        (later.Met fun other => known other ∨
          (other = literal ∧ ∃ target, graph.Edge literal target)) →
        (searchFrom graph interrupted rest).Ends later (fun finished after => finished = true →
          Searched graph.Edge after [] (Todo []) ∧ after.Met fun other => known other ∨
            (other ∈ literal :: rest ∧ ∃ target, graph.Edge other target)) fun _ _ => False := by
      intro later searchedLater metLater
      refine (ih searchedLater metLater).imp (fun finished after ends isTrue => ?_) fun _ _ no => no
      obtain ⟨searchedAfter, metAfter⟩ := ends isTrue
      refine ⟨searchedAfter, fun other wanted => metAfter other ?_⟩
      rcases wanted with isKnown | ⟨member, hasTarget⟩
      · exact .inl (.inl isKnown)
      · rcases List.mem_cons.1 member with rfl | inRest
        · exact .inl (.inr ⟨rfl, hasTarget⟩)
        · exact .inr ⟨inRest, hasTarget⟩
    split
    next idle =>
      refine continue_ search searched fun other wanted => ?_
      rcases wanted with isKnown | ⟨rfl, target, edge⟩
      · exact met other isKnown
      · rcases Bool.or_eq_true_iff.1 idle with wasMet | none
        · simpa using wasMet
        · rw [Array.isEmpty_iff.1 none] at edges
          exact absurd ((edges target).1 edge) (by simp)
    next wanted =>
      have fresh : search.num literal = 0 := by
        simp only [Bool.or_eq_true, decide_eq_true_eq, not_or, not_not] at wanted
        exact wanted.1
      have positive : search.next ≠ 0 :=
        Nat.ne_of_gt ((Nat.zero_le _).trans_lt (searched.small literal))
      refine visit_ends.bind fun _ later meets => ?_
      refine .bind (walk_ends _ (searched.meet meets fresh (by simp) ?_ ?_ ?_)
        (meets.met positive met)) ?_
      · rintro source target ⟨entry, member, _⟩
        cases member
      · exact fun target edge => ⟨_, List.mem_cons_self, rfl, (edges target).1 edge⟩
      · rintro source target ⟨entry, member, same, open_⟩
        rw [List.mem_singleton.1 member] at same open_
        subst same
        exact ⟨List.mem_cons_self, (edges target).2 open_⟩
      · intro finished after walked
        split
        next isTrue =>
          obtain ⟨searchedAfter, metAfter⟩ := walked isTrue
          exact continue_ after searchedAfter fun other wanted =>
            metAfter other (wanted.symm.imp_left And.left)
        next => exact .pure nofun

/-- Nothing was met at the beginning. -/
theorem searched_start (codes : Nat) (budget : Budget) :
    Searched edge (start codes budget) [] (Todo []) := by
  have none : ∀ literal, (start codes budget).num literal = 0 := by
    intro literal
    simp only [num, start, Array.getElem?_replicate]
    split <;> rfl
  constructor
  case pending =>
    intro literal
    simp only [start, Array.getElem?_replicate]
    split <;> simp
  case small =>
    intro literal
    rw [none]
    exact Nat.one_pos
  case met => exact fun literal member => by cases member
  case ordered => exact .nil
  case onStack => exact fun literal member => by cases member
  case descending => exact .nil
  case todoOpen =>
    rintro source target ⟨entry, member, _⟩
    cases member
  case leastLe => exact fun literal member => by cases member
  case leastReached => exact fun literal member => by cases member
  case left => exact fun literal member => by cases member
  case inherits => exact fun literal member => by cases member
  case chain => exact fun literal member => by cases member
  case looked => exact fun literal member => by cases member
  case closed => exact fun literal nonzero => absurd (none literal) nonzero
  case found => exact fun members member => by simp [start] at member
  case kept => exact fun literal nonzero => absurd (none literal) nonzero
  case taken => exact fun members member => by simp [start] at member
  case apart => exact .nil

end Walking

end ComponentSearch

/-- All components of at least two literals were found. -/
structure Implications.Components (graph : Implications) (found : List (List Literal)) : Prop where
  large : ∀ members ∈ found, 1 < members.length
  component : ∀ members ∈ found, Component graph.Edge members
  complete : ∀ a b, 0 < a.var → a.var ≤ graph.numVars → a ≠ b → Equivalent graph.Edge a b →
    ∃ members ∈ found, a ∈ members

/-- Every literal of a variable is listed. -/
theorem Implications.mem_allLiterals {numVars : Nat} {literal : Literal} (positive : 0 < literal.var)
    (inRange : literal.var ≤ numVars) : literal ∈ allLiterals numVars := by
  refine List.mem_flatMap.2 ⟨literal.var, List.mem_range'_1.2 ⟨positive, by omega⟩, ?_⟩
  rw [List.mem_pair]
  rcases sign : literal.isPositive with _ | _
  · exact .inr (sign ▸ (Literal.ofVar_var positive).symm)
  · exact .inl (sign ▸ (Literal.ofVar_var positive).symm)

/-- After the search everything that was met is in its component. -/
theorem ComponentSearch.Searched.components {search : ComponentSearch}
    (searched : Searched graph.Edge search [] (Todo []))
    (met : search.Met fun literal => literal ∈ Implications.allLiterals graph.numVars ∧
      ∃ target, graph.Edge literal target) : graph.Components search.found.toList where
  large members isFound := (searched.found members isFound).1
  component members isFound := (searched.found members isFound).2
  complete a b positive inRange different equivalent := by
    obtain ⟨target, edge⟩ : ∃ target, graph.Edge a target := by
      rcases Relation.ReflTransGen.cases_head equivalent.1 with same | ⟨target, edge, _⟩
      · exact absurd same different
      · exact ⟨target, edge⟩
    have nonzero := met a ⟨Implications.mem_allLiterals positive inRange, target, edge⟩
    have offStack : a ∉ search.stack := by
      intro inStack
      obtain ⟨lower, isOpen, _⟩ := searched.reaches_open _ a inStack (Nat.le_refl _)
      cases isOpen
    rcases searched.kept a nonzero offStack with found | alone
    · exact found
    · exact absurd (alone b equivalent).symm different

/-- A search that is not given up met all literals that have successors. -/
theorem Implications.components_searched {interrupted : Bool} {budget : Budget} :
    (graph.components interrupted).Ends budget
      (fun found _ => ∀ components, found = some components → ∃ search : ComponentSearch,
        search.found.toList = components ∧
        ComponentSearch.Searched graph.Edge search [] (ComponentSearch.Todo []) ∧
        search.Met fun literal => literal ∈ Implications.allLiterals graph.numVars ∧
          ∃ target, graph.Edge literal target) fun _ _ => False := by
  have nothing : (ComponentSearch.start (2 * (graph.numVars + 1)) budget).Met fun _ => False :=
    fun _ impossible => impossible.elim
  have ends : (ComponentSearch.searchFrom graph interrupted
      (Implications.allLiterals graph.numVars)).Ends
      (ComponentSearch.start (2 * (graph.numVars + 1)) budget) _ _ :=
    ComponentSearch.searchFrom_ends _ (ComponentSearch.searched_start _ _) nothing
  unfold Run.Ends at ends ⊢
  unfold Implications.components
  dsimp only
  split at ends
  next finished search ended =>
    rw [ended]
    cases finished with
    | true =>
      intro components same
      obtain ⟨searched, met⟩ := ends rfl
      exact ⟨search, Option.some.inj same, searched, fun literal wanted => met literal (.inr wanted)⟩
    | false => exact nofun
  next => exact ends.elim
  next why ended =>
    rw [ended]
    trivial

/-- The search finds all components of the graph, if it is not given up. -/
theorem Implications.components_ends {interrupted : Bool} {budget : Budget} :
    (graph.components interrupted).Ends budget
      (fun found _ => ∀ components, found = some components → graph.Components components)
      fun _ _ => False := by
  refine components_searched.imp (fun found _ ends components same => ?_) fun _ _ no => no
  obtain ⟨search, rfl, searched, met⟩ := ends components same
  exact searched.components met

end CnfSimplifier
