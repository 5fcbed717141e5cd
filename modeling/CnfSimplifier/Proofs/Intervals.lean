import CnfSimplifier.Proofs.Component
import CnfSimplifier.Proofs.GraphSearch

/-!
# Intervals

The stamps of the exploration are moments of one clock, and every moment stamps one literal
once. A literal that is left was entered last of those that are open, so two intervals
are disjoint or one lies inside the other; and when nothing is open every literal has its
interval. The exploration only reorders the successors, so they are those of the clauses.

Hence an interval inside another one shows a path, and the stamps say "implied" only where a
path leads from one literal to the other.
-/
namespace CnfSimplifier

/-! ## Moments -/

/-- The literals of a stack were entered and not left, the last one on top. Every moment of
the clock is one at which a literal was entered or left; zero is none. -/
structure Timeline (start stop : Literal → Nat) (clock : Nat) (stack : List Literal) : Prop where
  past : ∀ literal, start literal ≤ clock ∧ stop literal ≤ clock
  onto : ∀ moment, 0 < moment → moment ≤ clock →
    ∃ literal, start literal = moment ∨ stop literal = moment
  opened : ∀ literal, literal ∈ stack ↔ start literal ≠ 0 ∧ stop literal = 0
  falling : stack.Pairwise fun upper lower => start lower < start upper
  order : ∀ literal, stop literal ≠ 0 → start literal ≠ 0 ∧ start literal < stop literal
  starts : ∀ a b, start a = start b → start a ≠ 0 → a = b
  stops : ∀ a b, stop a = stop b → stop a ≠ 0 → a = b
  mixed : ∀ a b, start a = stop b → start a = 0
  laminar : ∀ a b, start a < start b →
    stop a = 0 ∨ stop a < start b ∨ (stop b ≠ 0 ∧ stop b < stop a)

namespace Timeline

variable {start stop later : Literal → Nat} {clock : Nat} {stack : List Literal} {literal : Literal}

/-- What was not entered was not left. -/
theorem stop_eq_zero (timeline : Timeline start stop clock stack) (fresh : start literal = 0) :
    stop literal = 0 := by
  by_contra left
  exact (timeline.order literal left).1 fresh

/-- Entering a literal: it lies inside all that are open. -/
theorem enter (timeline : Timeline start stop clock stack) (fresh : start literal = 0)
    (stamped : ∀ other, later other = if other = literal then clock + 1 else start other) :
    Timeline later stop (clock + 1) (literal :: stack) := by
  have own : later literal = clock + 1 := by rw [stamped, if_pos rfl]
  have others : ∀ other, other ≠ literal → later other = start other :=
    fun other different => by rw [stamped, if_neg different]
  have unleft := timeline.stop_eq_zero fresh
  have past := timeline.past
  have notOpen : ∀ other ∈ stack, other ≠ literal := by
    rintro other member rfl
    exact ((timeline.opened other).1 member).1 fresh
  constructor
  case past =>
    intro other
    grind
  case onto =>
    intro moment positive bound
    rcases Nat.lt_or_ge clock moment with last | earlier
    · exact ⟨literal, .inl (by omega)⟩
    · obtain ⟨other, found⟩ := timeline.onto moment positive earlier
      exact ⟨other, by grind⟩
  case opened =>
    intro other
    have := timeline.opened other
    grind
  case falling =>
    refine List.pairwise_cons.2 ⟨fun other member => ?_, ?_⟩
    · rw [own, others other (notOpen other member)]
      exact Nat.lt_succ_of_le (past other).1
    · refine timeline.falling.imp_of_mem fun {upper lower} isUpper isLower falls => ?_
      rwa [others upper (notOpen upper isUpper), others lower (notOpen lower isLower)]
  case order =>
    intro other left
    have := timeline.order other left
    grind
  case starts =>
    intro a b same entered
    have := timeline.starts a b
    grind
  case stops => exact timeline.stops
  case mixed =>
    intro a b same
    have := timeline.mixed a b
    grind
  case laminar =>
    intro a b before
    by_cases newInner : b = literal
    · subst newInner
      refine .inr (.inl ?_)
      rw [own]
      exact Nat.lt_succ_of_le (past a).2
    · by_cases newOuter : a = literal
      · have := (past b).1
        grind
      · rw [others a newOuter, others b newInner] at before
        rw [others b newInner]
        exact timeline.laminar a b before

/-- Leaving the literal entered last: what was entered after it was left already. -/
theorem leave (timeline : Timeline start stop clock (literal :: stack))
    (stamped : ∀ other, later other = if other = literal then clock + 1 else stop other) :
    Timeline start later (clock + 1) stack := by
  obtain ⟨entered, unleft⟩ := (timeline.opened literal).1 List.mem_cons_self
  obtain ⟨below, falling⟩ := List.pairwise_cons.1 timeline.falling
  have own : later literal = clock + 1 := by rw [stamped, if_pos rfl]
  have others : ∀ other, other ≠ literal → later other = stop other :=
    fun other different => by rw [stamped, if_neg different]
  have past := timeline.past
  have notBelow : literal ∉ stack := fun member => Nat.lt_irrefl _ (below literal member)
  constructor
  case past =>
    intro other
    grind
  case onto =>
    intro moment positive bound
    rcases Nat.lt_or_ge clock moment with last | earlier
    · exact ⟨literal, .inr (by omega)⟩
    · obtain ⟨other, found⟩ := timeline.onto moment positive earlier
      exact ⟨other, by grind⟩
  case opened =>
    intro other
    have := timeline.opened other
    grind
  case falling => exact falling
  case order =>
    intro other left
    have := timeline.order other
    grind
  case starts => exact timeline.starts
  case stops =>
    intro a b same left
    have := timeline.stops a b
    grind
  case mixed =>
    intro a b same
    have := timeline.mixed a b
    grind
  case laminar =>
    intro a b before
    by_cases leftOuter : a = literal
    · subst leftOuter
      -- An open literal would stand below the one that is left.
      have isLeft : stop b ≠ 0 := by
        intro isOpen
        have member := (timeline.opened b).2 ⟨by omega, isOpen⟩
        rcases List.mem_cons.1 member with rfl | deeper
        · exact Nat.lt_irrefl _ before
        · exact Nat.lt_asymm before (below b deeper)
      have different : b ≠ a := fun same => isLeft (same ▸ unleft)
      rw [own, others b different]
      exact .inr (.inr ⟨isLeft, Nat.lt_succ_of_le (past b).2⟩)
    · rw [others a leftOuter]
      have := timeline.laminar a b before
      grind

end Timeline

namespace Implications

variable {graph base : Implications} {literal : Literal} {numVars : Nat}
  {pairs : List (Literal × Literal)} {node : ImplicationNode}

/-- When a literal was entered. -/
def startOf (graph : Implications) (literal : Literal) : Nat :=
  (graph.node? literal).elim 0 ImplicationNode.start

/-- When a literal was left. -/
def stopOf (graph : Implications) (literal : Literal) : Nat :=
  (graph.node? literal).elim 0 ImplicationNode.stop

theorem startOf_of_node? (found : graph.node? literal = some node) :
    graph.startOf literal = node.start := by
  rw [startOf, found, Option.elim_some]

theorem stopOf_of_node? (found : graph.node? literal = some node) :
    graph.stopOf literal = node.stop := by
  rw [stopOf, found, Option.elim_some]

/-- What was entered has a node. -/
theorem exists_node?_of_startOf (entered : graph.startOf literal ≠ 0) :
    ∃ node, graph.node? literal = some node ∧ node.start = graph.startOf literal := by
  cases found : graph.node? literal with
  | none => simp [startOf, found] at entered
  | some node => exact ⟨node, rfl, (startOf_of_node? found).symm⟩

namespace Exploration

variable {walk later : Exploration} {stack : List (Literal × List Literal)} {reached : Literal → Prop}

theorem Stamps.startOf {node : ImplicationNode} (stamps : Stamps walk literal node later)
    (other : Literal) : later.graph.startOf other =
      if other = literal then node.start else walk.graph.startOf other := by
  unfold Implications.startOf
  rw [stamps.nodes]
  split <;> rfl

theorem Stamps.stopOf {node : ImplicationNode} (stamps : Stamps walk literal node later)
    (other : Literal) : later.graph.stopOf other =
      if other = literal then node.stop else walk.graph.stopOf other := by
  unfold Implications.stopOf
  rw [stamps.nodes]
  split <;> rfl

/-- What holds while a graph is stamped: successors are only reordered, literals of
variables are entered, some of them already. -/
structure Timed (base : Implications) (reached : Literal → Prop) (walk : Exploration)
    (stack : List (Literal × List Literal)) : Prop where
  size : base.SameSize walk.graph
  timeline : Timeline walk.graph.startOf walk.graph.stopOf walk.clock (stack.map Prod.fst)
  lists : ∀ literal node, walk.graph.node? literal = some node →
    ∃ old, base.node? literal = some old ∧ node.successors.toList.Perm old.successors.toList
  named : ∀ literal, walk.graph.startOf literal ≠ 0 → 0 < literal.var
  todo : ∀ entry ∈ stack, ∀ target ∈ entry.2, 0 < target.var
  kept : ∀ literal, reached literal → walk.graph.startOf literal ≠ 0

/-- Edges lead to literals of variables. -/
def Proper (graph : Implications) : Prop := ∀ source target, graph.Edge source target → 0 < target.var

/-- A literal that is entered starts a new interval. -/
theorem Timed.enter {old : ImplicationNode} {order : List Literal} (proper : Proper base)
    (timed : Timed base reached walk stack) (found : walk.graph.node? literal = some old)
    (fresh : old.start = 0) (present : 0 < literal.var) (perm : order.Perm old.successors.toList)
    (stamps : Stamps walk literal
      { old with start := walk.clock + 1, successors := order.toArray } later) :
    Timed base (fun other => reached other ∨ other = literal) later ((literal, order) :: stack) := by
  have started := stamps.startOf
  have stopped : later.graph.stopOf = walk.graph.stopOf := by
    funext other
    rw [stamps.stopOf]
    split
    next same => rw [same, stopOf_of_node? found]
    next => rfl
  obtain ⟨initial, foundInitial, permInitial⟩ := timed.lists literal old found
  constructor
  case size => exact timed.size.trans stamps.sameSize
  case timeline =>
    rw [stopped, stamps.clock]
    exact timed.timeline.enter ((startOf_of_node? found).trans fresh) started
  case lists =>
    intro other node lookedUp
    rw [stamps.nodes] at lookedUp
    split at lookedUp
    next same =>
      rw [Option.some.injEq] at lookedUp
      subst lookedUp same
      exact ⟨initial, foundInitial, perm.trans permInitial⟩
    next => exact timed.lists other node lookedUp
  case named =>
    intro other entered
    rw [started] at entered
    split at entered
    next same => exact same ▸ present
    next => exact timed.named other entered
  case todo =>
    intro entry member
    rcases List.mem_cons.1 member with rfl | older
    · intro target inOrder
      exact proper literal target
        ⟨initial, foundInitial, permInitial.mem_iff.1 (perm.mem_iff.1 inOrder)⟩
    · exact timed.todo entry older
  case kept =>
    intro other isReached
    rw [started]
    split
    next => exact Nat.succ_ne_zero _
    next different => exact timed.kept other (isReached.resolve_right different)

/-- A literal that is left closes its interval. -/
theorem Timed.leave {old : ImplicationNode} (timed : Timed base reached walk ((literal, []) :: stack))
    (found : walk.graph.node? literal = some old)
    (stamps : Stamps walk literal { old with stop := walk.clock + 1 } later) :
    Timed base reached later stack := by
  have started : later.graph.startOf = walk.graph.startOf := by
    funext other
    rw [stamps.startOf]
    split
    next same => rw [same, startOf_of_node? found]
    next => rfl
  constructor
  case size => exact timed.size.trans stamps.sameSize
  case timeline =>
    rw [started, stamps.clock]
    exact timed.timeline.leave stamps.stopOf
  case lists =>
    intro other node lookedUp
    rw [stamps.nodes] at lookedUp
    split at lookedUp
    next same =>
      rw [Option.some.injEq] at lookedUp
      subst lookedUp same
      exact timed.lists other old found
    next => exact timed.lists other node lookedUp
  case named =>
    rw [started]
    exact timed.named
  case todo =>
    intro entry member
    exact timed.todo entry (List.mem_cons_of_mem _ member)
  case kept =>
    rw [started]
    exact timed.kept

/-- What is reached may be forgotten. -/
theorem Timed.imp {fewer : Literal → Prop} (timed : Timed base reached walk stack)
    (part : ∀ literal, fewer literal → reached literal) : Timed base fewer walk stack :=
  ⟨timed.size, timed.timeline, timed.lists, timed.named, timed.todo,
    fun literal isReached => timed.kept literal (part literal isReached)⟩

/-- What is left to look at may shrink. -/
theorem Timed.shorter {next : Literal} {others : List Literal}
    (timed : Timed base reached walk ((literal, next :: others) :: stack)) :
    Timed base reached walk ((literal, others) :: stack) := by
  refine ⟨timed.size, timed.timeline, timed.lists, timed.named, ?_, timed.kept⟩
  obtain ⟨own, below⟩ := List.forall_mem_cons.1 timed.todo
  exact List.forall_mem_cons.2 ⟨(List.forall_mem_cons.1 own).2, below⟩

/-- Intervals stay in order throughout the walk. -/
theorem walk_timed (fuel : Nat) (proper : Proper base) (timed : Timed base reached walk stack) :
    (Exploration.walk fuel stack).Ends walk (fun _ later => Timed base reached later [])
      fun _ _ => False := by
  induction fuel generalizing walk stack with
  | zero => exact .stop
  | succ fuel ih =>
    rcases stack with _ | ⟨⟨literal, _ | ⟨next, others⟩⟩, rest⟩
    · exact .pure timed
    · refine leave_ends.bind ?_
      rintro _ later ⟨old, found, stamps⟩
      exact ih (timed.leave found stamps)
    · unfold Exploration.walk
      refine wasEntered_looks.bind ?_
      rintro _ ⟨node, found, rfl⟩
      split
      next => exact ih timed.shorter
      next unentered =>
        have fresh : node.start = 0 := by simpa using unentered
        have present : 0 < next.var :=
          timed.todo (literal, next :: others) List.mem_cons_self next List.mem_cons_self
        refine enter_ends.bind ?_
        rintro order later ⟨old, foundOld, perm, stamps⟩
        obtain rfl : node = old := Option.some.inj (found.symm.trans foundOld)
        exact ih ((timed.shorter.enter proper found fresh present perm stamps).imp
          fun _ => .inl)

/-- After the exploration from a literal it was entered. -/
theorem exploreFrom_timed (proper : Proper base) (timed : Timed base reached walk [])
    (present : 0 < literal.var) : (exploreFrom literal).Ends walk
      (fun _ later => Timed base (fun other => reached other ∨ other = literal) later [])
      fun _ _ => False := by
  unfold exploreFrom
  refine wasEntered_looks.bind ?_
  rintro _ ⟨node, found, rfl⟩
  split
  next entered =>
    refine .pure ⟨timed.size, timed.timeline, timed.lists, timed.named, timed.todo, ?_⟩
    rintro other (isReached | rfl)
    · exact timed.kept other isReached
    · rw [startOf_of_node? found]
      simpa using entered
  next unentered =>
    have fresh : node.start = 0 := by simpa using unentered
    refine enter_ends.bind ?_
    rintro order later ⟨old, foundOld, perm, stamps⟩
    obtain rfl : node = old := Option.some.inj (found.symm.trans foundOld)
    exact .step rfl (walk_timed _ proper (timed.enter proper found fresh present perm stamps))

/-- After the exploration from some literals all of them were entered. -/
theorem exploreAll_timed {items : List Literal} (proper : Proper base)
    (timed : Timed base reached walk []) (present : ∀ literal ∈ items, 0 < literal.var) :
    (items.forM exploreFrom).Ends walk
      (fun _ later => Timed base (fun other => reached other ∨ other ∈ items) later [])
      fun _ _ => False := by
  induction items generalizing walk reached with
  | nil => exact .pure (timed.imp fun _ => Or.rec id (by simp))
  | cons literal rest ih =>
    obtain ⟨own, others⟩ := List.forall_mem_cons.1 present
    refine (exploreFrom_timed proper timed own).bind fun _ middle timedMiddle => ?_
    refine (ih timedMiddle others).imp (fun _ last timedLast => timedLast.imp ?_) fun _ _ no => no
    intro other isReached
    rw [List.mem_cons] at isReached
    tauto

/-- The source of the random order does not matter. -/
theorem Timed.of_random {random : Random} (timed : Timed base reached walk stack) :
    Timed base reached { walk with random := random } stack :=
  ⟨timed.size, timed.timeline, timed.lists, timed.named, timed.todo, timed.kept⟩

/-- Before the exploration no literal was entered. -/
theorem timed_of_fresh {random : Random} (fresh : base.Fresh) :
    Timed base (fun _ => False) { graph := base, random := random } [] := by
  have unentered : ∀ literal, base.startOf literal = 0 := by
    intro literal
    cases found : base.node? literal with
    | none => simp [startOf, found]
    | some node => rw [startOf_of_node? found, (fresh literal node found).1]
  have unleft : ∀ literal, base.stopOf literal = 0 := by
    intro literal
    cases found : base.node? literal with
    | none => simp [stopOf, found]
    | some node => rw [stopOf_of_node? found, (fresh literal node found).2]
  refine ⟨.refl, ⟨?_, ?_, ?_, .nil, ?_, ?_, ?_, ?_, ?_⟩, fun _ node found => ⟨node, found, .refl _⟩,
    ?_, by simp, by simp⟩
  all_goals simp [unentered, unleft]
  omega

end Exploration

/-! ## The roots -/

/-- What is found is found at one of the items. -/
theorem mem_mapM {ι α : Type} {look : ι → Option (List α)} {items : List ι} {lists : List (List α)}
    {value : α} (looked : items.mapM look = some lists) (member : value ∈ lists.flatten) :
    ∃ item ∈ items, ∃ list, look item = some list ∧ value ∈ list := by
  induction items generalizing lists with
  | nil =>
    obtain rfl : lists = [] := by simpa using looked.symm
    simp at member
  | cons item rest ih =>
    simp only [List.mapM_cons, Option.bind_eq_bind, Option.bind_eq_some_iff, Option.pure_def,
      Option.some.injEq] at looked
    obtain ⟨list, lookedItem, others, lookedRest, rfl⟩ := looked
    rw [List.flatten_cons, List.mem_append] at member
    rcases member with own | later
    · exact ⟨item, List.mem_cons_self, list, lookedItem, own⟩
    · obtain ⟨other, inRest, found⟩ := ih lookedRest later
      exact ⟨other, List.mem_cons_of_mem _ inRest, found⟩

/-- Roots are literals of variables. -/
theorem var_of_mem_rootsOf? {name : Nat} {roots : List Literal} {root : Literal} (positive : 0 < name)
    (small : 2 * name + 1 < UInt32.size) (looked : graph.rootsOf? name = some roots)
    (isRoot : root ∈ roots) : 0 < root.var := by
  have own : (Literal.ofVar name true).var = name := Literal.var_ofVar positive small
  have which : root = (Literal.ofVar name true).complement ∨ root = Literal.ofVar name true := by
    simp only [rootsOf?, Option.bind_eq_bind, Option.bind_eq_some_iff, Option.pure_def,
      Option.some.injEq] at looked
    obtain ⟨_, _, _, _, rfl⟩ := looked
    rcases List.mem_append.1 isRoot with first | second
    · split at first <;> simp_all
    · split at second <;> simp_all
  rcases which with rfl | rfl
  · rwa [Literal.var_complement (by omega), own]
  · rwa [own]

/-- The literals are those of the variables. -/
theorem var_of_mem_allLiterals (small : 2 * numVars + 1 < UInt32.size)
    (member : literal ∈ allLiterals numVars) : 0 < literal.var ∧ literal.var ≤ numVars := by
  obtain ⟨name, inRange, which⟩ := List.mem_flatMap.1 member
  have bounds := List.mem_range'_1.1 inRange
  simp only [List.mem_cons, List.not_mem_nil, or_false] at which
  rcases which with rfl | rfl
  all_goals
    rw [Literal.var_ofVar (by omega) (by omega)]
    omega

/-- After the exploration all literals of variables were entered, and none is open. -/
theorem stampAll_timed {walk : Exploration} {reached : Literal → Prop}
    (proper : Exploration.Proper base) (small : 2 * base.numVars + 1 < UInt32.size)
    (timed : Exploration.Timed base reached walk []) :
    stampAll.Ends walk
      (fun _ later => Exploration.Timed base (· ∈ allLiterals base.numVars) later [])
      fun _ _ => False := by
  unfold stampAll
  refine .step rfl (Run.Looks.access.bind fun roots looked => .step rfl ?_)
  refine .bind (Exploration.exploreAll_timed proper timed.of_random fun root isRoot => ?_) ?_
  · have perm := Random.shuffle_perm walk.random roots.flatten.toArray
    have listed : root ∈ roots.flatten := perm.mem_iff.1 isRoot
    obtain ⟨name, inRange, found, lookedName, member⟩ := mem_mapM looked listed
    have bounds := List.mem_range'_1.1 inRange
    have vars := timed.size.numVars
    exact var_of_mem_rootsOf? (by omega) (by omega) lookedName member
  rintro _ middle timedMiddle
  have perm := Random.shuffle_perm middle.random (allLiterals middle.graph.numVars).toArray
  refine .step rfl (.step rfl ?_)
  refine .imp (Exploration.exploreAll_timed proper timedMiddle.of_random fun literal member => ?_)
    (fun _ last timedLast => timedLast.imp fun literal member => ?_) fun _ _ no => no
  · have listed : literal ∈ allLiterals middle.graph.numVars := perm.mem_iff.1 member
    rw [timedMiddle.size.numVars] at listed
    exact (var_of_mem_allLiterals small listed).1
  · refine .inr (perm.mem_iff.2 ?_)
    rw [timedMiddle.size.numVars]
    simpa using member

/-! ## The stamped graph -/

/-- The edges of binary clauses, two for each. -/
def edgesOf (pairs : List (Literal × Literal)) : List (Literal × Literal) :=
  pairs.flatMap fun (a, b) => [(a.complement, b), (b.complement, a)]

/-- Where the edges of a literal lead. -/
def targetsOf (edges : List (Literal × Literal)) (source : Literal) : List Literal :=
  (edges.filter fun edge => edge.1 = source).map Prod.snd

/-- An edge is put at the end of the list of its source. -/
theorem addEdge_successors {source target : Literal} (added : graph.addEdge source target = some base)
    (literal : Literal) : base.successors? literal = (graph.successors? literal).map fun old =>
      old ++ (targetsOf [(source, target)] literal).toArray := by
  simp only [addEdge, Option.bind_eq_bind, Option.bind_eq_some_iff, Option.pure_def,
    Option.some.injEq] at added
  obtain ⟨middle, changed, rfl⟩ := added
  change (middle.node? literal).map _ = ((graph.node? literal).map _).map _
  rw [node?_modify? changed]
  by_cases same : literal = source
  · subst same
    cases graph.node? literal <;> simp [targetsOf]
  · have different : source ≠ literal := Ne.symm same
    cases graph.node? literal <;> simp [targetsOf, same, different]

/-- The successors of a literal are where the edges of the clauses lead. -/
theorem addClauses_successors (added : graph.addClauses pairs = some base) (literal : Literal) :
    base.successors? literal = (graph.successors? literal).map fun old =>
      old ++ (targetsOf (edgesOf pairs) literal).toArray := by
  induction pairs generalizing graph with
  | nil =>
    obtain rfl : graph = base := by simpa [addClauses] using added
    cases graph.successors? literal <;> simp [edgesOf, targetsOf]
  | cons pair rest ih =>
    obtain ⟨a, b⟩ := pair
    simp only [addClauses, Option.bind_eq_bind, Option.bind_eq_some_iff] at added
    obtain ⟨first, addedFirst, second, addedSecond, addedRest⟩ := added
    rw [ih addedRest, addEdge_successors addedSecond, addEdge_successors addedFirst]
    have split : targetsOf (edgesOf ((a, b) :: rest)) literal =
        targetsOf [(a.complement, b)] literal ++ targetsOf [(b.complement, a)] literal ++
          targetsOf (edgesOf rest) literal := by
      simp only [targetsOf, edgesOf, List.flatMap_cons, List.cons_append, List.nil_append,
        List.filter_cons]
      split <;> split <;> simp
    rw [split]
    cases graph.successors? literal <;> simp

/-- All moments at which a literal was entered or left. -/
def endPoints (graph : Implications) : List Nat :=
  (allLiterals graph.numVars).flatMap fun literal => [graph.startOf literal, graph.stopOf literal]

/-- What the stamps of a graph are, and what they show about its clauses. -/
structure Intervals (graph : Implications) (pairs : List (Literal × Literal)) : Prop where
  interval : ∀ literal : Literal, 0 < literal.var → literal.var ≤ graph.numVars →
    ∃ start stop, graph.stamps? literal = some (start, stop) ∧ 0 < start ∧ start < stop
  /-- Every moment is the end of one interval, and of one only. -/
  moments : graph.endPoints.Perm (List.range' 1 (4 * graph.numVars))
  laminar : ∀ a b : Literal, 0 < a.var → a.var ≤ graph.numVars → 0 < b.var →
    b.var ≤ graph.numVars → a ≠ b → ∀ nodeA nodeB, graph.node? a = some nodeA →
      graph.node? b = some nodeB → nodeA.stop < nodeB.start ∨ nodeB.stop < nodeA.start ∨
        encloses nodeA nodeB = true ∨ encloses nodeB nodeA = true
  successors : ∀ literal : Literal, 0 < literal.var → literal.var ≤ graph.numVars →
    ∃ found, graph.successors? literal = some found ∧
      found.toList.Perm (targetsOf (edgesOf pairs) literal)
  answers : ∀ a b : Literal, 0 < a.var → a.var ≤ graph.numVars → 0 < b.var →
    b.var ≤ graph.numVars → ∃ answer, graph.implies? a b = some answer
  path : ∀ a b : Literal, 0 < a.var → 0 < b.var → graph.implies? a b = some true →
    Relation.TransGen graph.Edge a b
  entails : ∀ a b : Literal, 0 < a.var → 0 < b.var → graph.implies? a b = some true →
    ∀ values : Assignment, (∀ pair ∈ pairs, ClauseHolds values [pair.1, pair.2]) →
      a.Holds values → b.Holds values

/-- No literal is listed twice. -/
theorem nodup_allLiterals (small : 2 * numVars + 1 < UInt32.size) : (allLiterals numVars).Nodup := by
  have own : ∀ name ∈ List.range' 1 numVars, ∀ literal ∈ [Literal.ofVar name true, Literal.ofVar name false],
      literal.var = name := by
    intro name inRange literal which
    have bounds := List.mem_range'_1.1 inRange
    simp only [List.mem_cons, List.not_mem_nil, or_false] at which
    rcases which with rfl | rfl <;> exact Literal.var_ofVar (by omega) (by omega)
  refine List.nodup_flatMap.2 ⟨fun name inRange => ?_, ?_⟩
  · have bounds := List.mem_range'_1.1 inRange
    have different : Literal.ofVar name true ≠ Literal.ofVar name false := by
      intro same
      have signs := congrArg Literal.isPositive same
      rw [Literal.isPositive_ofVar (by omega) (by omega),
        Literal.isPositive_ofVar (by omega) (by omega)] at signs
      cases signs
    simpa using different
  · have distinct : (List.range' 1 numVars).Nodup := List.nodup_range'
    refine distinct.imp_of_mem fun {a b} inA inB different literal ofA ofB => different ?_
    rw [← own a inA literal ofA, own b inB literal ofB]

section Final

variable {walk : Exploration}
  (timed : Exploration.Timed base (· ∈ allLiterals base.numVars) walk [])

include timed

namespace Exploration.Timed

theorem entered (positive : 0 < literal.var) (inRange : literal.var ≤ base.numVars) :
    walk.graph.startOf literal ≠ 0 :=
  timed.kept literal (mem_allLiterals positive inRange)

theorem left (entered : walk.graph.startOf literal ≠ 0) : walk.graph.stopOf literal ≠ 0 :=
  fun isOpen => List.not_mem_nil ((timed.timeline.opened literal).2 ⟨entered, isOpen⟩)

/-- Only literals of the variables were entered. -/
theorem mem_allLiterals_of_startOf (full : walk.graph.Full)
    (entered : walk.graph.startOf literal ≠ 0) : literal ∈ allLiterals walk.graph.numVars := by
  refine mem_allLiterals (timed.named literal entered) ?_
  obtain ⟨node, found, _⟩ := exists_node?_of_startOf entered
  have inside : literal.code.toNat < walk.graph.nodes.size := index_lt_of_node? found
  rw [full.nodes] at inside
  change literal.code.toNat / 2 ≤ _
  omega

/-- No two intervals share an end point. -/
theorem nodup_endPoints (full : walk.graph.Full) : walk.graph.endPoints.Nodup := by
  have entered : ∀ literal ∈ allLiterals walk.graph.numVars, walk.graph.startOf literal ≠ 0 := by
    intro literal member
    rw [timed.size.numVars] at member
    exact timed.kept literal member
  refine List.nodup_flatMap.2 ⟨fun literal member => ?_, ?_⟩
  · have order := (timed.timeline.order literal (timed.left (entered literal member))).2
    simpa using order.ne
  · refine (nodup_allLiterals full.small).imp_of_mem fun {a b} inA inB different => ?_
    have enteredA := entered a inA
    have enteredB := entered b inB
    have starts := timed.timeline.starts a b
    have stops := timed.timeline.stops a b
    have mixed := timed.timeline.mixed a b
    have mixedBack := timed.timeline.mixed b a
    have leftA := timed.left enteredA
    rw [Function.onFun_apply, List.disjoint_left]
    simp only [List.mem_cons, List.not_mem_nil, or_false]
    grind

/-- The end points are the moments of the clock. -/
theorem mem_endPoints_iff (full : walk.graph.Full) {moment : Nat} :
    moment ∈ walk.graph.endPoints ↔ 1 ≤ moment ∧ moment < 1 + walk.clock := by
  have past := timed.timeline.past
  rw [endPoints, List.mem_flatMap]
  constructor
  · rintro ⟨literal, member, which⟩
    rw [timed.size.numVars] at member
    have entered := timed.kept literal member
    have left := timed.left entered
    have := past literal
    simp only [List.mem_cons, List.not_mem_nil, or_false] at which
    omega
  · rintro ⟨positive, bound⟩
    obtain ⟨literal, found⟩ := timed.timeline.onto moment positive (by omega)
    have entered : walk.graph.startOf literal ≠ 0 := by
      rcases found with isStart | isStop
      · omega
      · exact (timed.timeline.order literal (by omega)).1
    refine ⟨literal, timed.mem_allLiterals_of_startOf full entered, ?_⟩
    rw [List.mem_pair]
    exact found.imp Eq.symm Eq.symm

/-- The clock made one step for each end of each interval. -/
theorem endPoints_perm (full : walk.graph.Full) :
    walk.graph.endPoints.Perm (List.range' 1 (4 * walk.graph.numVars)) := by
  have perm : walk.graph.endPoints.Perm (List.range' 1 walk.clock) := by
    refine (List.perm_ext_iff_of_nodup (timed.nodup_endPoints full) List.nodup_range').2
      fun moment => ?_
    rw [timed.mem_endPoints_iff full, List.mem_range'_1]
  have length : walk.graph.endPoints.length = 4 * walk.graph.numVars := by
    simp [endPoints, allLiterals, List.length_flatMap]
    omega
  have clock := perm.length_eq
  rw [length, List.length_range'] at clock
  rwa [clock]

/-- Two intervals are apart, or one lies inside the other. -/
theorem laminar {a b : Literal} {nodeA nodeB : ImplicationNode}
    (foundA : walk.graph.node? a = some nodeA) (foundB : walk.graph.node? b = some nodeB)
    (enteredA : walk.graph.startOf a ≠ 0) (enteredB : walk.graph.startOf b ≠ 0) (different : a ≠ b) :
    nodeA.stop < nodeB.start ∨ nodeB.stop < nodeA.start ∨
      encloses nodeA nodeB = true ∨ encloses nodeB nodeA = true := by
  have leftA := timed.left enteredA
  have leftB := timed.left enteredB
  have starts := timed.timeline.starts a b
  have first := timed.timeline.laminar a b
  have second := timed.timeline.laminar b a
  simp only [startOf_of_node? foundA, startOf_of_node? foundB, stopOf_of_node? foundA,
    stopOf_of_node? foundB] at leftA leftB starts first second enteredA
  simp only [encloses, Bool.and_eq_true, decide_eq_true_eq]
  rcases Nat.lt_trichotomy nodeA.start nodeB.start with before | same | before
  · rcases first before with isOpen | apart | ⟨_, inside⟩
    · exact absurd isOpen leftA
    · exact .inl apart
    · exact .inr (.inr (.inl ⟨before, inside⟩))
  · exact absurd (starts same enteredA) different
  · rcases second before with isOpen | apart | ⟨_, inside⟩
    · exact absurd isOpen leftB
    · exact .inr (.inl apart)
    · exact .inr (.inr (.inr ⟨before, inside⟩))

end Exploration.Timed

end Final

/-! ## The graph of some clauses -/

/-- The literals of the clauses belong to the variables. -/
def Within (numVars : Nat) (pairs : List (Literal × Literal)) : Prop :=
  ∀ pair ∈ pairs, ∀ literal ∈ [pair.1, pair.2], 0 < literal.var ∧ literal.var ≤ numVars

/-- The edges are the implications of the clauses. -/
def EdgesOf (pairs : List (Literal × Literal)) (graph : Implications) : Prop :=
  ∀ source target, graph.Edge source target ↔
    ∃ pair ∈ pairs, (source = pair.1.complement ∧ target = pair.2) ∨
      (source = pair.2.complement ∧ target = pair.1)

section Edges

variable {a b : Literal} (within : Within numVars pairs) (edges : EdgesOf pairs graph)

include within edges

theorem EdgesOf.proper : Exploration.Proper graph := by
  intro source target edge
  obtain ⟨pair, member, ⟨_, rfl⟩ | ⟨_, rfl⟩⟩ := (edges source target).1 edge
  · exact (within pair member _ (by simp)).1
  · exact (within pair member _ (by simp)).1

/-- With an edge its contraposition is there. -/
theorem EdgesOf.contrapose (edge : graph.Edge a b) : graph.Edge b.complement a.complement := by
  obtain ⟨pair, member, which⟩ := (edges a b).1 edge
  have first := (within pair member pair.1 (by simp)).1
  have second := (within pair member pair.2 (by simp)).1
  refine (edges _ _).2 ⟨pair, member, ?_⟩
  rcases which with ⟨rfl, rfl⟩ | ⟨rfl, rfl⟩
  · exact .inr ⟨rfl, Literal.complement_complement first⟩
  · exact .inl ⟨rfl, Literal.complement_complement second⟩

theorem EdgesOf.path_contrapose (path : Relation.ReflTransGen graph.Edge a b) :
    Relation.ReflTransGen graph.Edge b.complement a.complement := by
  induction path with
  | refl => exact .refl
  | tail _ last ih => exact .head (edges.contrapose within last) ih

/-- Where the clauses hold, an edge leads from a true literal to a true literal. -/
theorem EdgesOf.holds {values : Assignment}
    (satisfied : ∀ pair ∈ pairs, ClauseHolds values [pair.1, pair.2]) (edge : graph.Edge a b)
    (isTrue : a.Holds values) : b.Holds values := by
  obtain ⟨pair, member, which⟩ := (edges a b).1 edge
  obtain ⟨literal, inside, known⟩ := satisfied pair member
  have first := (within pair member pair.1 (by simp)).1
  have second := (within pair member pair.2 (by simp)).1
  rw [List.mem_pair] at inside
  rcases which with ⟨rfl, rfl⟩ | ⟨rfl, rfl⟩
  · rw [Literal.holds_complement first] at isTrue
    rcases inside with rfl | rfl
    · exact absurd known isTrue
    · exact known
  · rw [Literal.holds_complement second] at isTrue
    rcases inside with rfl | rfl
    · exact known
    · exact absurd known isTrue

/-- A path leads from true literals to true ones. -/
theorem EdgesOf.path_holds {values : Assignment}
    (satisfied : ∀ pair ∈ pairs, ClauseHolds values [pair.1, pair.2])
    (path : Relation.TransGen graph.Edge a b) (isTrue : a.Holds values) : b.Holds values := by
  induction path with
  | single edge => exact edges.holds within satisfied edge isTrue
  | tail _ edge ih => exact edges.holds within satisfied edge ih

/-- Where the stamps say "implied" there is a path. -/
theorem EdgesOf.path_of_implies? (stamped : graph.Stamped) (positiveA : 0 < a.var)
    (positiveB : 0 < b.var) (implied : graph.implies? a b = some true) :
    Relation.TransGen graph.Edge a b := by
  obtain ⟨different, path⟩ := stamped.path_of_implies? implied
  have reaches : Relation.ReflTransGen graph.Edge a b := by
    rcases path with path | path
    · exact path
    · have back := edges.path_contrapose within path
      rwa [Literal.complement_complement positiveA, Literal.complement_complement positiveB] at back
  exact (Relation.reflTransGen_iff_eq_or_transGen.1 reaches).resolve_left different.symm

end Edges

/-- The stamped graph was reached from the graph of the clauses by stamping. -/
theorem build_timed {random : Random} (small : 2 * numVars + 1 < UInt32.size)
    (within : Within numVars pairs) : (build numVars pairs).Ends random (fun graph _ =>
      ∃ base, (ofVars numVars).addClauses pairs = some base ∧ ∃ walk : Exploration,
        walk.graph = graph ∧ Exploration.Timed base (· ∈ allLiterals base.numVars) walk [])
      fun _ _ => False := by
  cases added : (ofVars numVars).addClauses pairs with
  | none =>
    have stuck : build numVars pairs random = .stuck .badAccess := by simp only [build, added]
    exact .of_stuck stuck
  | some base =>
    obtain ⟨baseEdges, fresh, vars, _⟩ := addClauses_spec added
    have edges : EdgesOf pairs base := by
      intro source target
      rw [baseEdges]
      exact or_iff_right (not_edge_ofVars numVars)
    have ends : stampAll.Ends { graph := base, random := random } _ _ :=
      stampAll_timed (edges.proper within) (by rw [vars]; exact small)
        (Exploration.timed_of_fresh (fresh (fresh_ofVars numVars)))
    cases ended : stampAll { graph := base, random := random } with
    | done value walk =>
      have built : build numVars pairs random = .done walk.graph walk.random := by
        simp only [build, added, ended]
      exact .of_done built ⟨base, rfl, walk, rfl, ends.done_of_eq ended⟩
    | failed cause walk => exact (ends.failed_of_eq ended).elim
    | stuck why =>
      have stuck : build numVars pairs random = .stuck why := by simp only [build, added, ended]
      exact .of_stuck stuck

/-- In the graph of the clauses the successors stand in the order of the clauses. -/
theorem successors_of_addClauses (added : (ofVars numVars).addClauses pairs = some base)
    (found : base.node? literal = some node) :
    node.successors.toList = targetsOf (edgesOf pairs) literal := by
  have listed := addClauses_successors added literal
  rw [successors?, found] at listed
  obtain ⟨none_, isEmpty, successors⟩ := Option.map_eq_some_iff.1 listed.symm
  obtain ⟨empty, foundEmpty, rfl⟩ := Option.map_eq_some_iff.1 isEmpty
  unfold node? ofVars at foundEmpty
  obtain ⟨inside, rfl⟩ := Array.getElem?_eq_some_iff.1 foundEmpty
  rw [← successors]
  simp

/-- The stamped graph of clauses over the variables has intervals that show paths only. -/
theorem build_intervals {random : Random} (small : 4 * numVars < UInt32.size)
    (within : Within numVars pairs) : (build numVars pairs).Returns random fun graph _ =>
      graph.numVars = numVars ∧ graph.numEdges = 2 * pairs.length ∧ graph.Intervals pairs := by
  have size : 1 < UInt32.size := by decide
  have fits : 2 * numVars + 1 < UInt32.size := by omega
  have returns : (build numVars pairs).Returns random _ :=
    ((build_returns fits within).and_ends build_ends).and_ends (build_timed fits within)
  obtain ⟨graph, after, built, ⟨full, edges, stamped, vars, count⟩, base, added, walk, rfl, timed⟩ :=
    returns
  refine .of_done built ⟨vars, count, ?_⟩
  have edges : EdgesOf pairs walk.graph := edges
  have entered : ∀ literal : Literal, 0 < literal.var → literal.var ≤ walk.graph.numVars →
      walk.graph.startOf literal ≠ 0 :=
    fun literal positive inRange => timed.entered positive (timed.size.numVars ▸ inRange)
  refine ⟨fun literal positive inRange => ?_, timed.endPoints_perm full, ?_, ?_,
    fun a b => full.exists_implies?, fun a b => edges.path_of_implies? within stamped,
    fun a b positiveA positiveB implied values satisfied => ?_⟩
  · obtain ⟨node, found⟩ := exists_node? (full.index_lt inRange)
    have isEntered := entered literal positive inRange
    have order := (timed.timeline.order literal (timed.left isEntered)).2
    rw [startOf_of_node? found] at isEntered order
    rw [stopOf_of_node? found] at order
    exact ⟨node.start, node.stop, by rw [stamps?, found]; rfl, Nat.pos_of_ne_zero isEntered, order⟩
  · intro a b positiveA inRangeA positiveB inRangeB different nodeA nodeB foundA foundB
    exact timed.laminar foundA foundB (entered a positiveA inRangeA) (entered b positiveB inRangeB)
      different
  · intro literal _ inRange
    obtain ⟨node, found⟩ := exists_node? (full.index_lt inRange)
    obtain ⟨old, foundOld, perm⟩ := timed.lists literal node found
    rw [successors_of_addClauses added foundOld] at perm
    exact ⟨node.successors, by rw [successors?, found]; rfl, perm⟩
  · exact edges.path_holds within satisfied
      (edges.path_of_implies? within stamped positiveA positiveB implied)

/-! ## A graph in the place of an old one -/

/-- A change apart from the stamps commutes with clearing them. -/
theorem nodes_modify_unstamp {change : ImplicationNode → ImplicationNode}
    (apart : ∀ node : ImplicationNode, change { node with start := 0, stop := 0 } =
      { change node with start := 0, stop := 0 }) :
    (graph.modify? literal change).map unstamp = graph.unstamp.modify? literal change := by
  unfold modify? unstamp
  simp only [Array.size_map]
  split
  next inside =>
    simp only [Option.map_some, Option.some.injEq, Implications.mk.injEq, and_true]
    refine Array.ext (by simp) fun place _ _ => ?_
    simp only [Array.getElem_map, Array.getElem_modify]
    split
    · exact (apart _).symm
    · rfl
  next => rfl

/-- Edges do not depend on stamps. -/
theorem addEdge_unstamp {source target : Literal} :
    (graph.addEdge source target).map unstamp = graph.unstamp.addEdge source target := by
  have changed : (graph.modify? source fun node =>
      { node with successors := node.successors.push target }).map unstamp =
        graph.unstamp.modify? source _ := nodes_modify_unstamp fun _ => rfl
  simp only [addEdge, Option.bind_eq_bind, Option.pure_def]
  rw [← changed]
  cases graph.modify? source _ <;> rfl

/-- Adding edges does not look at stamps. -/
theorem addClauses_unstamp :
    (graph.addClauses pairs).map unstamp = graph.unstamp.addClauses pairs := by
  induction pairs generalizing graph with
  | nil => rfl
  | cons pair rest ih =>
    obtain ⟨a, b⟩ := pair
    simp only [addClauses, Option.bind_eq_bind]
    rw [← addEdge_unstamp]
    cases graph.addEdge a.complement b with
    | none => rfl
    | some first =>
      simp only [Option.bind_some, Option.map_some]
      rw [← addEdge_unstamp]
      cases first.addEdge b.complement a with
      | none => rfl
      | some second =>
        simp only [Option.bind_some, Option.map_some]
        exact ih

/-- A graph without edges and stamps is known by its number of variables. -/
theorem unstamp_reset : (graph.reset numVars).unstamp = ofVars numVars := by
  unfold reset unstamp ofVars
  simp only [Implications.mk.injEq, and_true]
  refine Array.ext (by simp) fun place _ _ => ?_
  simp only [Array.getElem_map, Array.getElem_append, Array.getElem_replicate]
  split <;> rfl

/-- What the old graph was does not matter. -/
theorem rebuild_eq_build : graph.rebuild numVars pairs = build numVars pairs := by
  funext random
  have same : ((graph.reset numVars).addClauses pairs).map unstamp = _ := addClauses_unstamp
  rw [unstamp_reset] at same
  unfold rebuild build
  rw [← same]
  cases (graph.reset numVars).addClauses pairs <;> rfl

/-- Whatever a graph held before, the graph made in its place has an interval for every literal
of the variables. The end points are all different, and two intervals are apart or nested.
The successors are those of the clauses in some order. Where the stamps say that a literal
implies another one a path leads there, so the clauses entail it. -/
theorem rebuild_intervals {random : Random} (small : 4 * numVars < UInt32.size)
    (within : Within numVars pairs) : (graph.rebuild numVars pairs).Returns random fun graph _ =>
      graph.numVars = numVars ∧ graph.numEdges = 2 * pairs.length ∧ graph.Intervals pairs := by
  rw [rebuild_eq_build]
  exact build_intervals small within

/-- Three literals that imply each other, and one that follows from them. -/
theorem rebuild_intervals_cycle :
    ∃ (old graph : Implications) (random after : Random),
      old.rebuild 4 [(.ofVar 1 false, .ofVar 2 true), (.ofVar 2 false, .ofVar 3 true),
        (.ofVar 3 false, .ofVar 1 true), (.ofVar 3 false, .ofVar 4 true)] random =
          .done graph after ∧
      graph.implies? (.ofVar 1 true) (.ofVar 4 true) = some true ∧
      graph.numVars = 4 ∧ graph.numEdges = 8 ∧
      graph.Intervals [(.ofVar 1 false, .ofVar 2 true), (.ofVar 2 false, .ofVar 3 true),
        (.ofVar 3 false, .ofVar 1 true), (.ofVar 3 false, .ofVar 4 true)] := by
  obtain ⟨graph, after, ended, implied⟩ : ((ofVars 9).rebuild 4 [(.ofVar 1 false, .ofVar 2 true),
      (.ofVar 2 false, .ofVar 3 true), (.ofVar 3 false, .ofVar 1 true),
      (.ofVar 3 false, .ofVar 4 true)]).Returns (.ofSeed 1) fun graph _ =>
        graph.implies? (.ofVar 1 true) (.ofVar 4 true) = some true := by
    decide +kernel
  obtain ⟨_, _, again, holds⟩ : ((ofVars 9).rebuild 4 [(.ofVar 1 false, .ofVar 2 true),
      (.ofVar 2 false, .ofVar 3 true), (.ofVar 3 false, .ofVar 1 true),
      (.ofVar 3 false, .ofVar 4 true)]).Returns (.ofSeed 1) _ :=
    rebuild_intervals (by decide) (by unfold Within; decide)
  cases ended.symm.trans again
  exact ⟨ofVars 9, graph, .ofSeed 1, after, ended, implied, holds⟩

end Implications

end CnfSimplifier
