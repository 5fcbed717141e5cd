import CnfSimplifier.Proofs.RootPropagation
import Mathlib.Data.List.Perm.Basic

/-!
# The implication graph and the formula

A formula has the implication from `a` to `b` if it contains the clause of the
complement of `a` and `b`, or a part of it. Propagation follows implications. The
graph of an engine has implications of its formula only, each together with its
contraposition.

The stamps of the graph show paths. While a literal is open, everything entered
is reached from it; once it is left, the literals entered in between are exactly
those with a start inside its interval.
-/
namespace CnfSimplifier

variable {engine : Engine}

/-! ## Implications of a formula -/

namespace Picture

variable [Realm]

/-- The formula has the binary clause of an implication, or a part of it. -/
structure Implies (picture : Picture) (a b : Literal) : Prop where
  left : picture.Present a.var
  right : picture.Present b.var
  contains : picture.Contains [a.complement, b]

/-- A path of implications. -/
abbrev Reaches (picture : Picture) : Literal → Literal → Prop :=
  Relation.ReflTransGen picture.Implies

variable {picture : Picture} {a b : Literal}

/-- An implication can be turned around. -/
theorem Implies.contrapose (implies : picture.Implies a b) :
    picture.Implies b.complement a.complement := by
  obtain ⟨left, right, part, clause, small⟩ := implies
  refine ⟨by rwa [Literal.var_complement right.1], by rwa [Literal.var_complement left.1],
    part, clause, fun literal member => ?_⟩
  rw [Literal.complement_complement right.1]
  have inPair := small member
  simp only [List.mem_cons, List.not_mem_nil, or_false] at inPair ⊢
  exact inPair.symm

theorem Reaches.contrapose (reaches : picture.Reaches a b) :
    picture.Reaches b.complement a.complement := by
  induction reaches with
  | refl => exact .refl
  | tail _ last ih => exact .head last.contrapose ih

/-- Propagation follows an implication, unless it runs into a conflict. -/
theorem Implies.propagates {assumed : Set Literal} (implies : picture.Implies a b)
    (known : Propagates picture.formula assumed a) :
    Propagates picture.formula assumed b ∨ Conflicts picture.formula assumed := by
  obtain ⟨left, _, part, clause, small⟩ := implies
  have falsified : ∀ literal ∈ part, literal ≠ b →
      Propagates picture.formula assumed literal.complement := by
    intro literal member different
    have inPair := small member
    simp only [List.mem_cons, List.not_mem_nil, or_false] at inPair
    rcases inPair with rfl | same
    · rw [Literal.complement_complement left.1]
      exact known
    · exact absurd same different
  by_cases member : b ∈ part
  · exact .inl (.unit clause member falsified)
  · refine .inr ⟨part, clause, fun literal inside => falsified literal inside ?_⟩
    rintro rfl
    exact member inside

/-- Propagation follows a path, or finds a conflict. -/
theorem Reaches.propagates {assumed : Set Literal} (reaches : picture.Reaches a b)
    (known : Propagates picture.formula assumed a) :
    Propagates picture.formula assumed b ∨ Conflicts picture.formula assumed := by
  induction reaches with
  | refl => exact .inl known
  | tail _ last ih =>
    rcases ih with reached | conflict
    · exact last.propagates reached
    · exact .inr conflict

/-- An implied literal holds with its source. -/
theorem Implies.holds {values : Assignment} (implies : picture.Implies a b)
    (holds : picture.Holds values) (source : a.Holds values) : b.Holds values := by
  obtain ⟨literal, member, satisfied⟩ := implies.contains.clauseHolds holds
  simp only [List.mem_cons, List.not_mem_nil, or_false] at member
  rcases member with rfl | rfl
  · rw [Literal.holds_complement implies.left.1] at satisfied
    exact absurd source satisfied
  · exact satisfied

theorem Reaches.holds {values : Assignment} (reaches : picture.Reaches a b)
    (holds : picture.Holds values) (source : a.Holds values) : b.Holds values := by
  induction reaches with
  | refl => exact source
  | tail _ last ih => exact last.holds holds ih

/-- A literal that implies its complement is false. -/
theorem Reaches.rup_complement (present : 0 < a.var) (reaches : picture.Reaches a a.complement) :
    Rup picture.formula [a.complement] := by
  have assumed : Propagates picture.formula (negations [a.complement]) a := by
    refine .assumption ⟨a.complement, List.mem_cons_self, ?_⟩
    rw [Literal.complement_complement present]
  rcases reaches.propagates assumed with derived | conflict
  · refine derived.conflicts ?_ (by rwa [Literal.complement_complement present])
    rintro ⟨literal, member, same⟩
    rw [List.mem_singleton.1 member, Literal.complement_complement present] at same
    exact Literal.complement_ne present same
  · exact conflict

/-- Implications are kept by everything but removal. -/
theorem Implies.of_steps {after : Picture} {scope : Scope} (implies : picture.Implies a b)
    (narrow : scope ≠ .removal) (wellFormed : picture.WellFormed)
    (steps : Steps scope picture after) : after.Implies a b :=
  ⟨Steps.present steps narrow implies.left, Steps.present steps narrow implies.right,
    Steps.contains_pair steps narrow wellFormed implies.contains⟩

/-- Narrow steps keep all paths. -/
theorem Reaches.of_steps {after : Picture} {scope : Scope} (reaches : picture.Reaches a b)
    (narrow : scope ≠ .removal) (wellFormed : picture.WellFormed)
    (steps : Steps scope picture after) : after.Reaches a b :=
  Relation.ReflTransGen.mono (fun _ _ (implies : picture.Implies _ _) =>
    implies.of_steps narrow wellFormed steps) a b reaches

/-- Paths do without clauses of three literals. -/
theorem Reaches.without_long {literals : List Literal} {rest : Multiset (List Literal)}
    (reaches : picture.Reaches a b) (wellFormed : picture.WellFormed)
    (split : picture.clauses = literals ::ₘ rest) (long : 3 ≤ literals.length) :
    Reaches { picture with clauses := rest } a b :=
  Relation.ReflTransGen.mono (fun _ _ (implies : picture.Implies _ _) =>
    ⟨implies.left, implies.right, implies.contains.without_long wellFormed split long⟩) a b reaches

end Picture

/-! ## Random order -/

/-- A shuffled array has the same items. -/
theorem Random.shuffleBelow_perm {α : Type} (count : Nat) (items : Array α) (random : Random) :
    (shuffleBelow count items random).1.toList.Perm items.toList := by
  fun_induction shuffleBelow count items random with
  | case1 => exact .refl _
  | case2 => exact .refl _
  | case3 items random last place random' drawn ih =>
    refine ih.trans ?_
    unfold Array.swapIfInBounds
    split
    · split
      · exact (Array.swap_perm _ _).toList
      · exact .refl _
    · exact .refl _

theorem Random.shuffle_perm {α : Type} (random : Random) (items : Array α) :
    (random.shuffle items).1.toList.Perm items.toList :=
  shuffleBelow_perm _ _ _

/-! ## Edges and stamps -/

namespace Implications

variable {graph after : Implications} {literal other a b : Literal}
  {pairs : List (Literal × Literal)}

/-- There is an edge. -/
def Edge (graph : Implications) (a b : Literal) : Prop :=
  ∃ node, graph.node? a = some node ∧ b ∈ node.successors.toList

/-- Edges lead to the listed successors. -/
theorem edge_iff_successors : graph.Edge a b ↔
    ∃ successors, graph.successors? a = some successors ∧ b ∈ successors.toList := by
  unfold Edge successors?
  constructor
  · rintro ⟨node, found, member⟩
    exact ⟨node.successors, by rw [found]; rfl, member⟩
  · rintro ⟨successors, found, member⟩
    obtain ⟨node, foundNode, rfl⟩ := Option.map_eq_some_iff.1 found
    exact ⟨node, foundNode, member⟩

/-- Changing one node leaves the others. -/
theorem node?_modify? {change : ImplicationNode → ImplicationNode}
    (changed : graph.modify? literal change = some after) (other : Literal) :
    after.node? other =
      if other = literal then (graph.node? literal).map change else graph.node? other := by
  unfold modify? at changed
  split at changed
  · rw [Option.some.injEq] at changed
    subst changed
    unfold node?
    rw [Array.getElem?_modify]
    by_cases same : other = literal
    · simp [same]
    · have different : literal.index ≠ other.index := fun equal =>
        same (Literal.index_inj.1 equal).symm
      simp [same, different]
  · cases changed

/-- Two graphs have the same numbers of variables, edges and nodes. -/
structure SameSize (graph after : Implications) : Prop where
  numVars : after.numVars = graph.numVars
  numEdges : after.numEdges = graph.numEdges
  nodes : after.nodes.size = graph.nodes.size

theorem SameSize.refl : SameSize graph graph := ⟨rfl, rfl, rfl⟩

theorem SameSize.trans {later : Implications} (first : SameSize graph after)
    (second : SameSize after later) : SameSize graph later :=
  ⟨second.numVars.trans first.numVars, second.numEdges.trans first.numEdges,
    second.nodes.trans first.nodes⟩

theorem sameSize_modify? {change : ImplicationNode → ImplicationNode}
    (changed : graph.modify? literal change = some after) : SameSize graph after := by
  unfold modify? at changed
  split at changed
  · rw [Option.some.injEq] at changed
    subst changed
    exact ⟨rfl, rfl, Array.size_modify⟩
  · cases changed

/-- No literal was entered or left yet. -/
def Fresh (graph : Implications) : Prop :=
  ∀ literal node, graph.node? literal = some node → node.start = 0 ∧ node.stop = 0

theorem fresh_ofVars (numVars : Nat) : (ofVars numVars).Fresh := by
  intro literal node found
  unfold node? ofVars at found
  obtain ⟨inside, rfl⟩ := Array.getElem?_eq_some_iff.1 found
  simp

theorem not_edge_ofVars (numVars : Nat) : ¬ (ofVars numVars).Edge a b := by
  rintro ⟨node, found, member⟩
  unfold node? ofVars at found
  obtain ⟨inside, rfl⟩ := Array.getElem?_eq_some_iff.1 found
  simp at member

/-- A new edge comes to the ones that are there. -/
theorem addEdge_spec (added : graph.addEdge a b = some after) :
    (∀ source target, after.Edge source target ↔
      graph.Edge source target ∨ (source = a ∧ target = b)) ∧
      (graph.Fresh → after.Fresh) ∧ after.numVars = graph.numVars ∧
      after.numEdges = graph.numEdges + 1 := by
  simp only [addEdge, Option.bind_eq_bind, Option.bind_eq_some_iff, Option.pure_def,
    Option.some.injEq] at added
  obtain ⟨middle, changed, rfl⟩ := added
  have nodes := node?_modify? changed
  have inTable : ∃ node, graph.node? a = some node := by
    unfold modify? at changed
    split at changed
    next inside => exact ⟨_, Array.getElem?_eq_getElem inside⟩
    next => cases changed
  obtain ⟨node, found⟩ := inTable
  have sameSize := sameSize_modify? changed
  refine ⟨fun source target => ?_, fun fresh literal old lookedUp => ?_, sameSize.numVars,
    congrArg (· + 1) sameSize.numEdges⟩
  · change (∃ new, middle.node? source = some new ∧ _) ↔ _
    rw [nodes]
    by_cases same : source = a
    · subst same
      simp [Edge, found]
    · simp [Edge, same]
  · change middle.node? literal = some old at lookedUp
    rw [nodes] at lookedUp
    split at lookedUp
    · obtain ⟨previous, foundPrevious, rfl⟩ := Option.map_eq_some_iff.1 lookedUp
      exact fresh a previous foundPrevious
    · exact fresh literal old lookedUp

/-- The edges of binary clauses are their implications. -/
theorem addClauses_spec (added : graph.addClauses pairs = some after) :
    (∀ source target, after.Edge source target ↔ graph.Edge source target ∨
      ∃ pair ∈ pairs, (source = pair.1.complement ∧ target = pair.2) ∨
        (source = pair.2.complement ∧ target = pair.1)) ∧
      (graph.Fresh → after.Fresh) ∧ after.numVars = graph.numVars ∧
      after.numEdges = graph.numEdges + 2 * pairs.length := by
  induction pairs generalizing graph with
  | nil =>
    simp only [addClauses, Option.some.injEq] at added
    subst added
    simp
  | cons pair rest ih =>
    obtain ⟨x, y⟩ := pair
    simp only [addClauses, Option.bind_eq_bind, Option.bind_eq_some_iff] at added
    obtain ⟨first, addedFirst, second, addedSecond, addedRest⟩ := added
    obtain ⟨edgesFirst, freshFirst, varsFirst, countFirst⟩ := addEdge_spec addedFirst
    obtain ⟨edgesSecond, freshSecond, varsSecond, countSecond⟩ := addEdge_spec addedSecond
    obtain ⟨edgesRest, freshRest, varsRest, countRest⟩ := ih addedRest
    refine ⟨fun source target => ?_, fun fresh => freshRest (freshSecond (freshFirst fresh)),
      varsRest.trans (varsSecond.trans varsFirst), ?_⟩
    · rw [edgesRest, edgesSecond, edgesFirst]
      simp only [List.mem_cons, exists_eq_or_imp, or_assoc]
    · rw [countRest, countSecond, countFirst, List.length_cons]
      omega

/-! ## Exploring depth first -/

namespace Exploration

variable {walk later : Exploration} {stack : List (Literal × List Literal)}

/-- One literal gets a new node, at the next moment. -/
structure Stamps (walk : Exploration) (literal : Literal) (node : ImplicationNode)
    (later : Exploration) : Prop where
  clock : later.clock = walk.clock + 1
  nodes : ∀ other, later.graph.node? other =
    if other = literal then some node else walk.graph.node? other
  sameSize : walk.graph.SameSize later.graph

theorem Stamps.inTable {node : ImplicationNode} (stamps : Stamps walk literal node later)
    (inTable : ∃ old, walk.graph.node? other = some old) :
    ∃ new, later.graph.node? other = some new := by
  rw [stamps.nodes]
  split
  · exact ⟨node, rfl⟩
  · exact inTable

/-- Entering a literal stamps its start and puts its successors into some order. -/
theorem enter_ends : (enter literal).Ends walk
    (fun order later => ∃ old, walk.graph.node? literal = some old ∧
      order.Perm old.successors.toList ∧ Stamps walk literal
        { old with start := walk.clock + 1, successors := order.toArray } later)
    fun _ _ => False := by
  unfold enter
  refine Run.Looks.read.bind fun successors found => ?_
  obtain ⟨old, foundNode, rfl⟩ := Option.map_eq_some_iff.1 found
  refine .step rfl ?_
  have perm := Random.shuffle_perm walk.random old.successors
  dsimp only
  refine .seq (.update fun later changed => .pure ?_)
  simp only [Option.bind_eq_bind, Option.bind_eq_some_iff, Option.pure_def,
    Option.some.injEq] at changed
  obtain ⟨graph, modified, rfl⟩ := changed
  refine ⟨old, foundNode, perm, rfl, fun other => ?_, sameSize_modify? modified⟩
  rw [node?_modify? modified, foundNode]
  rfl

/-- Leaving a literal stamps its end. -/
theorem leave_ends : (leave literal).Ends walk
    (fun _ later => ∃ old, walk.graph.node? literal = some old ∧
      Stamps walk literal { old with stop := walk.clock + 1 } later)
    fun _ _ => False := by
  unfold leave
  refine .update fun later changed => ?_
  simp only [Option.bind_eq_bind, Option.bind_eq_some_iff, Option.pure_def,
    Option.some.injEq] at changed
  obtain ⟨graph, modified, rfl⟩ := changed
  have inTable : ∃ old, walk.graph.node? literal = some old := by
    unfold modify? at modified
    split at modified
    next inside => exact ⟨_, Array.getElem?_eq_getElem inside⟩
    next => cases modified
  obtain ⟨old, found⟩ := inTable
  refine ⟨old, found, rfl, fun other => ?_, sameSize_modify? modified⟩
  change graph.node? other = _
  rw [node?_modify? modified, found]
  rfl

/-- What holds while a graph is explored: `edge` are its edges, and the literals of
the stack are open. -/
structure Explored (edge : Literal → Literal → Prop) (walk : Exploration)
    (stack : List (Literal × List Literal)) : Prop where
  edges : ∀ literal node, walk.graph.node? literal = some node →
    ∀ target, target ∈ node.successors.toList ↔ edge literal target
  inTable : ∀ literal target, edge literal target → ∃ node, walk.graph.node? literal = some node
  past : ∀ literal node, walk.graph.node? literal = some node →
    node.start ≤ walk.clock ∧ node.stop ≤ walk.clock
  entered : ∀ entry ∈ stack, ∀ node, walk.graph.node? entry.1 = some node → node.start ≠ 0
  todo : ∀ entry ∈ stack, ∀ target ∈ entry.2, edge entry.1 target
  chain : stack.Pairwise fun upper lower => Relation.ReflTransGen edge lower.1 upper.1
  /-- What was entered after an open literal is reached from it. -/
  inside : ∀ entry ∈ stack, ∀ outer, walk.graph.node? entry.1 = some outer →
    ∀ other inner, walk.graph.node? other = some inner → outer.start < inner.start →
      Relation.ReflTransGen edge entry.1 other
  /-- What was entered before a literal was left is reached from it. -/
  nested : ∀ literal outer, walk.graph.node? literal = some outer →
    ∀ other inner, walk.graph.node? other = some inner →
      outer.start < inner.start → inner.start < outer.stop →
        Relation.ReflTransGen edge literal other
  closed : ∀ literal node, walk.graph.node? literal = some node → node.start ≠ 0 →
    literal ∈ stack.map Prod.fst ∨ node.start < node.stop

variable {edge : Literal → Literal → Prop}

/-- Entering a literal that every open one reaches. -/
theorem Explored.enter {old : ImplicationNode} {order : List Literal}
    (explored : Explored edge walk stack) (found : walk.graph.node? literal = some old)
    (fresh : old.start = 0) (perm : order.Perm old.successors.toList)
    (stamps : Stamps walk literal
      { old with start := walk.clock + 1, successors := order.toArray } later)
    (reached : ∀ entry ∈ stack, Relation.ReflTransGen edge entry.1 literal) :
    Explored edge later ((literal, order) :: stack) := by
  have edges := explored.edges literal old found
  have open_ : ∀ entry ∈ stack, entry.1 ≠ literal := by
    rintro entry member rfl
    exact explored.entered entry member old found fresh
  -- Every node is the new one, or it is as before.
  have cases : ∀ other node, later.graph.node? other = some node →
      (other = literal ∧
        node = { old with start := walk.clock + 1, successors := order.toArray }) ∨
      (other ≠ literal ∧ walk.graph.node? other = some node) := by
    intro other node lookedUp
    rw [stamps.nodes] at lookedUp
    split at lookedUp
    next same => exact .inl ⟨same, (Option.some.inj lookedUp).symm⟩
    next different => exact .inr ⟨different, lookedUp⟩
  have clock := stamps.clock
  obtain ⟨_, stopPast⟩ := explored.past literal old found
  constructor
  case edges =>
    intro other node lookedUp target
    rcases cases other node lookedUp with ⟨rfl, rfl⟩ | ⟨_, earlier⟩
    · rw [← edges target]
      exact perm.mem_iff
    · exact explored.edges other node earlier target
  case inTable => exact fun source target step => stamps.inTable (explored.inTable source target step)
  case past =>
    intro other node lookedUp
    rcases cases other node lookedUp with ⟨rfl, rfl⟩ | ⟨_, earlier⟩
    · dsimp only
      omega
    · have := explored.past other node earlier
      omega
  case entered =>
    intro entry member node lookedUp
    rcases cases entry.1 node lookedUp with ⟨_, rfl⟩ | ⟨different, earlier⟩
    · exact Nat.succ_ne_zero _
    · rcases List.mem_cons.1 member with rfl | later
      · exact absurd rfl different
      · exact explored.entered entry later node earlier
  case todo =>
    intro entry member target inTodo
    rcases List.mem_cons.1 member with rfl | later
    · exact (edges target).1 (perm.mem_iff.1 inTodo)
    · exact explored.todo entry later target inTodo
  case chain => exact List.pairwise_cons.2 ⟨reached, explored.chain⟩
  case inside =>
    intro entry member outer lookedUp other inner lookedUpInner later
    rcases List.mem_cons.1 member with rfl | older
    · rcases cases literal outer lookedUp with ⟨_, rfl⟩ | ⟨different, _⟩
      · rcases cases other inner lookedUpInner with ⟨_, rfl⟩ | ⟨_, earlier⟩
        · exact absurd later (Nat.lt_irrefl _)
        · have := (explored.past other inner earlier).1
          dsimp only at later
          omega
      · exact absurd rfl different
    · rcases cases entry.1 outer lookedUp with ⟨same, _⟩ | ⟨_, earlierOuter⟩
      · exact absurd same (open_ entry older)
      · rcases cases other inner lookedUpInner with ⟨rfl, _⟩ | ⟨_, earlier⟩
        · exact reached entry older
        · exact explored.inside entry older outer earlierOuter other inner earlier later
  case nested =>
    intro source outer lookedUp other inner lookedUpInner later before
    rcases cases source outer lookedUp with ⟨_, rfl⟩ | ⟨_, earlierOuter⟩
    · dsimp only at later before
      omega
    · rcases cases other inner lookedUpInner with ⟨_, rfl⟩ | ⟨_, earlier⟩
      · have := (explored.past source outer earlierOuter).2
        dsimp only at before
        omega
      · exact explored.nested source outer earlierOuter other inner earlier later before
  case closed =>
    intro other node lookedUp started
    rcases cases other node lookedUp with ⟨rfl, _⟩ | ⟨_, earlier⟩
    · exact .inl List.mem_cons_self
    · rcases explored.closed other node earlier started with onStack | left
      · exact .inl (List.mem_cons_of_mem _ onStack)
      · exact .inr left

/-- Leaving the literal entered last. -/
theorem Explored.leave {old : ImplicationNode}
    (explored : Explored edge walk ((literal, []) :: stack))
    (found : walk.graph.node? literal = some old)
    (stamps : Stamps walk literal { old with stop := walk.clock + 1 } later) :
    Explored edge later stack := by
  -- Only the end of the literal is new.
  have cases : ∀ other node, later.graph.node? other = some node → ∃ earlier,
      walk.graph.node? other = some earlier ∧ node.successors = earlier.successors ∧
      node.start = earlier.start ∧
      (other = literal ∧ node.stop = walk.clock + 1 ∨
        other ≠ literal ∧ node.stop = earlier.stop) := by
    intro other node lookedUp
    rw [stamps.nodes] at lookedUp
    split at lookedUp
    next same =>
      rw [Option.some.injEq] at lookedUp
      subst lookedUp same
      exact ⟨old, found, rfl, rfl, .inl ⟨rfl, rfl⟩⟩
    next different => exact ⟨node, lookedUp, rfl, rfl, .inr ⟨different, rfl⟩⟩
  have clock := stamps.clock
  have below : ∀ entry ∈ stack, entry ∈ (literal, []) :: stack :=
    fun entry member => List.mem_cons_of_mem _ member
  constructor
  case edges =>
    intro other node lookedUp target
    obtain ⟨earlier, foundEarlier, successors, _⟩ := cases other node lookedUp
    rw [successors]
    exact explored.edges other earlier foundEarlier target
  case inTable => exact fun source target step => stamps.inTable (explored.inTable source target step)
  case past =>
    intro other node lookedUp
    obtain ⟨earlier, foundEarlier, _, start, stop⟩ := cases other node lookedUp
    have := explored.past other earlier foundEarlier
    omega
  case entered =>
    intro entry member node lookedUp
    obtain ⟨earlier, foundEarlier, _, start, _⟩ := cases entry.1 node lookedUp
    rw [start]
    exact explored.entered entry (below entry member) earlier foundEarlier
  case todo => exact fun entry member => explored.todo entry (below entry member)
  case chain => exact (List.pairwise_cons.1 explored.chain).2
  case inside =>
    intro entry member outer lookedUp other inner lookedUpInner order
    obtain ⟨outerBefore, foundOuter, _, startOuter, _⟩ := cases entry.1 outer lookedUp
    obtain ⟨innerBefore, foundInner, _, startInner, _⟩ := cases other inner lookedUpInner
    exact explored.inside entry (below entry member) outerBefore foundOuter other innerBefore
      foundInner (by omega)
  case nested =>
    intro source outer lookedUp other inner lookedUpInner order before
    obtain ⟨outerBefore, foundOuter, _, startOuter, stop⟩ := cases source outer lookedUp
    obtain ⟨innerBefore, foundInner, _, startInner, _⟩ := cases other inner lookedUpInner
    rcases stop with ⟨rfl, _⟩ | ⟨_, stop⟩
    · exact explored.inside (source, []) List.mem_cons_self outerBefore foundOuter other
        innerBefore foundInner (by omega)
    · exact explored.nested source outerBefore foundOuter other innerBefore foundInner
        (by omega) (by omega)
  case closed =>
    intro other node lookedUp started
    obtain ⟨earlier, foundEarlier, _, start, stop⟩ := cases other node lookedUp
    have past := explored.past other earlier foundEarlier
    rcases stop with ⟨rfl, stop⟩ | ⟨different, stop⟩
    · right
      omega
    · rcases explored.closed other earlier foundEarlier (by omega) with onStack | left
      · rcases List.mem_cons.1 onStack with same | deeper
        · exact absurd same different
        · exact .inl deeper
      · right
        omega

/-- Whether a literal was entered is read off its stamp. -/
theorem wasEntered_looks : (wasEntered literal).Looks walk fun answer =>
    ∃ node, walk.graph.node? literal = some node ∧ answer = (node.start != 0) := by
  refine Run.Ends.read fun value found => ⟨rfl, ?_⟩
  obtain ⟨node, foundNode, rfl⟩ := Option.map_eq_some_iff.1 found
  exact ⟨node, foundNode, rfl⟩

/-- Exploring from the open literals leaves none of them open. -/
theorem walk_ends (fuel : Nat) (explored : Explored edge walk stack) :
    (Exploration.walk fuel stack).Ends walk (fun _ later => Explored edge later [] ∧
      walk.graph.SameSize later.graph) fun _ _ => False := by
  induction fuel generalizing walk stack with
  | zero => exact .stop
  | succ fuel ih =>
    rcases stack with _ | ⟨⟨literal, _ | ⟨next, others⟩⟩, rest⟩
    · exact .pure ⟨explored, .refl⟩
    · refine leave_ends.bind ?_
      rintro _ later ⟨old, found, stamps⟩
      refine (ih (explored.leave found stamps)).imp ?_ fun _ _ impossible => impossible
      rintro _ last ⟨done, size⟩
      exact ⟨done, stamps.sameSize.trans size⟩
    · -- What is left to look at may shrink.
      have shorter : Explored edge walk ((literal, others) :: rest) := by
        refine ⟨explored.edges, explored.inTable, explored.past, ?_, ?_, ?_, ?_, explored.nested,
          explored.closed⟩
        · intro entry member
          rcases List.mem_cons.1 member with rfl | deeper
          · exact explored.entered (literal, next :: others) List.mem_cons_self
          · exact explored.entered entry (List.mem_cons_of_mem _ deeper)
        · intro entry member target inTodo
          rcases List.mem_cons.1 member with rfl | deeper
          · exact explored.todo (literal, next :: others) List.mem_cons_self target
              (List.mem_cons_of_mem _ inTodo)
          · exact explored.todo entry (List.mem_cons_of_mem _ deeper) target inTodo
        · exact List.pairwise_cons.2 (List.pairwise_cons.1 explored.chain)
        · intro entry member
          rcases List.mem_cons.1 member with rfl | deeper
          · exact explored.inside (literal, next :: others) List.mem_cons_self
          · exact explored.inside entry (List.mem_cons_of_mem _ deeper)
      unfold Exploration.walk
      refine wasEntered_looks.bind ?_
      rintro _ ⟨node, found, rfl⟩
      split
      next => exact ih shorter
      next unentered =>
        have fresh : node.start = 0 := by simpa using unentered
        refine enter_ends.bind ?_
        rintro order later ⟨old, foundOld, perm, stamps⟩
        have isOld : node = old := Option.some.inj (found.symm.trans foundOld)
        subst isOld
        have step : edge literal next :=
          explored.todo (literal, next :: others) List.mem_cons_self next List.mem_cons_self
        refine (ih (shorter.enter found fresh perm stamps ?_)).imp ?_ fun _ _ no => no
        · intro entry member
          rcases List.mem_cons.1 member with rfl | deeper
          · exact .single step
          · exact ((List.pairwise_cons.1 explored.chain).1 entry deeper).tail step
        · rintro _ last ⟨done, size⟩
          exact ⟨done, stamps.sameSize.trans size⟩

/-- What is explored from a literal is what it reaches. -/
theorem exploreFrom_ends (explored : Explored edge walk []) :
    (exploreFrom literal).Ends walk (fun _ later => Explored edge later [] ∧
      walk.graph.SameSize later.graph) fun _ _ => False := by
  unfold exploreFrom
  refine wasEntered_looks.bind ?_
  rintro _ ⟨node, found, rfl⟩
  split
  next => exact .pure ⟨explored, .refl⟩
  next unentered =>
    have fresh : node.start = 0 := by simpa using unentered
    refine enter_ends.bind ?_
    rintro order later ⟨old, foundOld, perm, stamps⟩
    have isOld : node = old := Option.some.inj (found.symm.trans foundOld)
    subst isOld
    refine .step rfl ?_
    refine (walk_ends _ (explored.enter found fresh perm stamps (by simp))).imp ?_ fun _ _ no => no
    rintro _ last ⟨done, size⟩
    exact ⟨done, stamps.sameSize.trans size⟩

/-- The source of the random order does not matter. -/
theorem Explored.of_random {random : Random} (explored : Explored edge walk stack) :
    Explored edge { walk with random := random } stack :=
  ⟨explored.edges, explored.inTable, explored.past, explored.entered, explored.todo,
    explored.chain, explored.inside, explored.nested, explored.closed⟩

/-- Before the exploration nothing was entered. -/
theorem explored_of_fresh (random : Random) (fresh : graph.Fresh) :
    Explored graph.Edge { graph := graph, random := random } [] := by
  constructor
  case edges =>
    intro literal node (found : graph.node? literal = some node) target
    unfold Edge
    rw [found]
    simp
  case inTable =>
    rintro literal target ⟨node, found, _⟩
    exact ⟨node, found⟩
  case past =>
    intro literal node found
    have := fresh literal node found
    dsimp only
    omega
  case entered => exact by simp
  case todo => exact by simp
  case chain => exact .nil
  case inside => exact by simp
  case nested =>
    intro literal outer found other inner _ _ before
    have := fresh literal outer found
    omega
  case closed =>
    intro literal node found started
    exact absurd (fresh literal node found).1 started

/-- After the exploration intervals inside each other show a path. -/
theorem Explored.reaches_of_encloses (explored : Explored edge walk []) {outer inner : ImplicationNode}
    (foundOuter : walk.graph.node? a = some outer) (foundInner : walk.graph.node? b = some inner)
    (encloses : Implications.encloses outer inner = true) : Relation.ReflTransGen edge a b := by
  simp only [Implications.encloses, Bool.and_eq_true, decide_eq_true_eq] at encloses
  obtain ⟨starts, stops⟩ := encloses
  rcases explored.closed b inner foundInner (by omega) with onStack | left
  · simp at onStack
  · exact explored.nested a outer foundOuter b inner foundInner starts (by omega)

end Exploration

/-- The stamps are right about the edges. -/
def Stamped (graph : Implications) : Prop :=
  ∀ a b outer inner, graph.node? a = some outer → graph.node? b = some inner →
    encloses outer inner = true → Relation.ReflTransGen graph.Edge a b

/-- Where the stamps say that a literal implies another one there is a path, perhaps
between their complements. -/
theorem Stamped.path_of_implies? (stamped : graph.Stamped)
    (implied : graph.implies? a b = some true) : a ≠ b ∧
      (Relation.ReflTransGen graph.Edge a b ∨
        Relation.ReflTransGen graph.Edge b.complement a.complement) := by
  simp only [implies?, Option.bind_eq_bind, Option.pure_def] at implied
  split at implied
  next => cases implied
  next different =>
  refine ⟨different, ?_⟩
  simp only [Option.bind_eq_some_iff] at implied
  obtain ⟨nodeA, foundA, nodeB, foundB, decided⟩ := implied
  split at decided
  next encloses => exact .inl (stamped a b nodeA nodeB foundA foundB encloses)
  next =>
    simp only [Option.bind_eq_some_iff, Option.some.injEq] at decided
    obtain ⟨notB, foundNotB, notA, foundNotA, encloses⟩ := decided
    exact .inr (stamped _ _ notB notA foundNotB foundNotA encloses)

/-- All literals are stamped. -/
theorem stampAll_ends {edge : Literal → Literal → Prop} {walk : Exploration}
    (explored : Exploration.Explored edge walk []) :
    stampAll.Ends walk (fun _ later => Exploration.Explored edge later [] ∧
      walk.graph.SameSize later.graph) fun _ _ => False := by
  have turn : ∀ literal (state : Exploration),
      (Exploration.Explored edge state [] ∧ walk.graph.SameSize state.graph) →
      (Exploration.exploreFrom literal).Ends state (fun _ later =>
        Exploration.Explored edge later [] ∧ walk.graph.SameSize later.graph)
        fun _ _ => False := by
    rintro literal state ⟨held, size⟩
    refine (Exploration.exploreFrom_ends held).imp ?_ fun _ _ no => no
    rintro _ later ⟨done, same⟩
    exact ⟨done, size.trans same⟩
  unfold stampAll
  refine .step rfl (Run.Looks.access.bind fun roots _ => ?_)
  refine .step rfl (.bind (.forM ⟨explored.of_random, .refl⟩ fun literal _ => turn literal) ?_)
  rintro _ middle ⟨held, size⟩
  exact .step rfl (.step rfl (.forM ⟨held.of_random, size⟩ fun literal _ => turn literal))

/-- The graph of binary clauses has their implications, and right stamps. -/
theorem build_ends {numVars : Nat} {random : Random} :
    (build numVars pairs).Ends random (fun graph _ =>
      (∀ source target, graph.Edge source target ↔
        ∃ pair ∈ pairs, (source = pair.1.complement ∧ target = pair.2) ∨
          (source = pair.2.complement ∧ target = pair.1)) ∧
      graph.Stamped ∧ graph.numVars = numVars ∧ graph.numEdges = 2 * pairs.length)
      fun _ _ => False := by
  cases added : (ofVars numVars).addClauses pairs with
  | none =>
    have ended : build numVars pairs random = .stuck .badAccess := by simp only [build, added]
    exact .of_stuck ended
  | some graph =>
    obtain ⟨edges, fresh, vars, count⟩ := addClauses_spec added
    have ends := stampAll_ends (Exploration.explored_of_fresh random (fresh (fresh_ofVars numVars)))
    cases ended : stampAll { graph := graph, random := random } with
    | done value walk =>
      obtain ⟨explored, sameSize⟩ := ends.done_of_eq ended
      have built : build numVars pairs random = .done walk.graph walk.random := by
        simp only [build, added, ended]
      have sameEdges : ∀ source target,
          walk.graph.Edge source target ↔ graph.Edge source target := by
        intro source target
        constructor
        · rintro ⟨node, found, member⟩
          exact (explored.edges source node found target).1 member
        · intro step
          obtain ⟨node, found⟩ := explored.inTable source target step
          exact ⟨node, found, (explored.edges source node found target).2 step⟩
      have counted : graph.numEdges = 2 * pairs.length := count.trans (Nat.zero_add _)
      refine .of_done built ⟨?_, ?_, sameSize.numVars.trans vars, sameSize.numEdges.trans counted⟩
      · intro source target
        rw [sameEdges, edges]
        simp [not_edge_ofVars]
      · intro a b outer inner foundOuter foundInner encloses
        have reaches := explored.reaches_of_encloses foundOuter foundInner encloses
        exact Relation.ReflTransGen.mono (fun _ _ step => (sameEdges _ _).2 step) a b reaches
    | failed cause walk => exact (ends.failed_of_eq ended).elim
    | stuck why =>
      have stuck : build numVars pairs random = .stuck why := by simp only [build, added, ended]
      exact .of_stuck stuck

/-- The pairs of a graph are the live irredundant clauses of two open literals. -/
theorem mem_freeBinaries? {trail : Trail} {slots : List Clause}
    (gathered : freeBinaries? trail slots = some pairs) (pair : Literal × Literal) :
    pair ∈ pairs ↔ ∃ clause ∈ slots, (clause.isDead = false ∧ clause.isRedundant = false ∧
      clause.literals = [pair.1, pair.2]) ∧ trail.literalValue? pair.1 = some none ∧
        trail.literalValue? pair.2 = some none := by
  induction slots generalizing pairs with
  | nil =>
    simp only [freeBinaries?, Option.some.injEq] at gathered
    simp [← gathered]
  | cons clause rest ih =>
    -- A clause that is of no account leaves it to the rest.
    have skip : (¬ (clause.isDead = false ∧ clause.isRedundant = false ∧
          clause.literals = [pair.1, pair.2])) → freeBinaries? trail rest = some pairs →
        (pair ∈ pairs ↔ ∃ other ∈ clause :: rest, (other.isDead = false ∧
          other.isRedundant = false ∧ other.literals = [pair.1, pair.2]) ∧
          trail.literalValue? pair.1 = some none ∧ trail.literalValue? pair.2 = some none) := by
      intro useless gatheredRest
      rw [ih gatheredRest, List.exists_mem_cons_iff]
      exact (or_iff_right fun used => useless used.1).symm
    unfold freeBinaries? at gathered
    split at gathered
    next a b isPair =>
      split at gathered
      next unusable => exact skip (fun used => by simp [used.1, used.2.1] at unusable) gathered
      next usable =>
        obtain ⟨alive, irredundant⟩ : clause.isDead = false ∧ clause.isRedundant = false := by
          simpa using usable
        obtain ⟨free, others, open_, gatheredRest, rfl⟩ : ∃ (free : Bool)
            (others : List (Literal × Literal)), (free = true ↔ trail.literalValue? a = some none ∧
              trail.literalValue? b = some none) ∧ freeBinaries? trail rest = some others ∧
            (if free then (a, b) :: others else others) = pairs := by
          simp only [Option.bind_eq_bind, Option.bind_eq_some_iff, Option.pure_def] at gathered
          obtain ⟨valueOfA, knownA, gathered⟩ := gathered
          rw [knownA]
          cases valueOfA with
          | some value =>
            simp only [Option.isSome_some, if_true, Option.bind_some, Option.bind_eq_some_iff,
              Option.some.injEq] at gathered
            obtain ⟨others, gatheredRest, chosen⟩ := gathered
            exact ⟨false, others, by simp, gatheredRest, chosen⟩
          | none =>
            simp only [Option.isSome_none, if_false, Bool.false_eq_true, Option.bind_eq_some_iff,
              Option.map_eq_some_iff, Option.some.injEq] at gathered
            obtain ⟨_, ⟨valueOfB, knownB, rfl⟩, others, gatheredRest, chosen⟩ := gathered
            exact ⟨_, others, by simp [knownB], gatheredRest, chosen⟩
        have own : (clause.isDead = false ∧ clause.isRedundant = false ∧
            clause.literals = [pair.1, pair.2]) ↔ pair = (a, b) := by
          rw [isPair, List.cons.injEq, List.cons.injEq, Prod.ext_iff]
          simp [alive, irredundant, eq_comm]
        rw [List.exists_mem_cons_iff, own, ← ih gatheredRest]
        split
        next yes =>
          rw [List.mem_cons]
          refine or_congr_left ⟨?_, And.left⟩
          rintro rfl
          exact ⟨rfl, open_.1 yes⟩
        next no =>
          refine (or_iff_right ?_).symm
          rintro ⟨rfl, isOpen⟩
          exact no (open_.2 isOpen)
    next notPair => exact skip (fun used => notPair _ _ used.2.2) gathered

end Implications

/-! ## The graph of an engine -/

/-- The graph is that of the live irredundant clauses of two open literals. Making it
changes nothing but the source of the random order. -/
theorem Engine.implications_ends : Engine.implications.Ends engine
    (fun graph after => after = { engine with random := after.random } ∧
      ∃ pairs, Implications.freeBinaries? engine.trail engine.arena.slots.toList = some pairs ∧
        (∀ source target, graph.Edge source target ↔
          ∃ pair ∈ pairs, (source = pair.1.complement ∧ target = pair.2) ∨
            (source = pair.2.complement ∧ target = pair.1)) ∧
        graph.Stamped ∧ graph.numVars = engine.numVars ∧ graph.numEdges = 2 * pairs.length)
    fun _ _ => False := by
  cases gathered : Implications.freeBinaries? engine.trail engine.arena.slots.toList with
  | none =>
    have ended : Engine.implications engine = .stuck .badAccess := by
      simp only [Engine.implications, gathered]
    exact .of_stuck ended
  | some pairs =>
    have same : Engine.implications engine = (Implications.build engine.numVars pairs
        engine.random).mapState fun random => { engine with random := random } := by
      simp only [Engine.implications, gathered]
      cases Implications.build engine.numVars pairs engine.random <;> rfl
    exact .within same (Implications.build_ends.imp (fun _ _ built => ⟨rfl, pairs, rfl, built⟩)
      fun _ _ impossible => impossible.elim)

variable [Realm]

/-- A graph shows implications of a formula. -/
structure Implications.Reflects (graph : Implications) (picture : Picture) : Prop where
  edge : ∀ {a b : Literal}, graph.Edge a b → picture.Implies a b
  skew : ∀ {a b : Literal}, graph.Edge a b → graph.Edge b.complement a.complement
  stamped : graph.Stamped
  numVars : graph.numVars = picture.numVars

namespace Implications.Reflects

variable {graph : Implications} {picture : Picture} {a b : Literal}

theorem reaches (reflects : graph.Reflects picture)
    (path : Relation.ReflTransGen graph.Edge a b) : picture.Reaches a b :=
  Relation.ReflTransGen.mono (fun _ _ step => reflects.edge step) a b path

theorem path_contrapose (reflects : graph.Reflects picture)
    (path : Relation.ReflTransGen graph.Edge a b) :
    Relation.ReflTransGen graph.Edge b.complement a.complement := by
  induction path with
  | refl => exact .refl
  | tail _ last ih => exact .head (reflects.skew last) ih

/-- The end of a path belongs to the formula. -/
theorem present_of_path (reflects : graph.Reflects picture)
    (path : Relation.ReflTransGen graph.Edge a b) (different : a ≠ b) :
    picture.Present b.var := by
  rcases Relation.ReflTransGen.cases_tail path with same | ⟨_, _, last⟩
  · exact absurd same.symm different
  · exact (reflects.edge last).right

/-- Where the stamps say that a literal implies another one there is a path, perhaps
between their complements. -/
theorem path_of_implies? (reflects : graph.Reflects picture)
    (implied : graph.implies? a b = some true) : Relation.ReflTransGen graph.Edge a b ∨
      Relation.ReflTransGen graph.Edge b.complement a.complement :=
  (reflects.stamped.path_of_implies? implied).2

/-- What the stamps say is implied is implied. -/
theorem reaches_of_implies? (reflects : graph.Reflects picture) (left : 0 < a.var)
    (right : 0 < b.var) (implied : graph.implies? a b = some true) : picture.Reaches a b := by
  rcases reflects.path_of_implies? implied with path | path
  · exact reflects.reaches path
  · have back := (reflects.reaches path).contrapose
    rwa [Literal.complement_complement left, Literal.complement_complement right] at back

/-- Where clauses say what the edges say, a path leads from true literals to true ones. -/
theorem holds_of_path {clauses : Set (List Literal)} {values : Assignment}
    (reflects : graph.Reflects picture)
    (rests : ∀ a b, graph.Edge a b → ∃ part ∈ clauses, part ⊆ [a.complement, b])
    (holds : ∀ literals ∈ clauses, ClauseHolds values literals)
    (path : Relation.ReflTransGen graph.Edge a b) (first : a.Holds values) : b.Holds values := by
  induction path with
  | refl => exact first
  | @tail middle last _ edge ih =>
    obtain ⟨part, member, small⟩ := rests middle last edge
    obtain ⟨literal, inside, isTrue⟩ := holds part member
    rcases List.mem_cons.1 (small inside) with rfl | isLast
    · exact absurd ih ((Literal.holds_complement (reflects.edge edge).left.1).1 isTrue)
    · exact List.mem_singleton.1 isLast ▸ isTrue

/-- A graph stays right as long as nothing is removed. -/
theorem of_steps {after : Picture} {scope : Scope} (reflects : graph.Reflects picture)
    (narrow : scope ≠ .removal) (wellFormed : picture.WellFormed)
    (steps : Steps scope picture after) : graph.Reflects after where
  edge step := (reflects.edge step).of_steps narrow wellFormed steps
  skew := reflects.skew
  stamped := reflects.stamped
  numVars := reflects.numVars.trans (Steps.numVars_eq steps).symm

end Implications.Reflects

/-- The implications of a graph come from irredundant clauses. -/
def Implications.Rests (graph : Implications) (engine : Engine) : Prop :=
  ∀ a b, graph.Edge a b → ∃ part ∈ engine.core, part ⊆ [a.complement, b]

namespace Implications.Rests

variable {graph : Implications} {after : Engine} {picture : Picture} {values : Assignment}
  {a b : Literal}

omit [Realm] in
theorem of_retains (rests : graph.Rests engine) (retains : engine.Retains after) :
    graph.Rests after := fun a b edge => retains.pairs _ _ (rests a b edge)

/-- A path leads from true literals to true literals. -/
theorem holds_of_path (rests : graph.Rests engine) (reflects : graph.Reflects picture)
    (holds : ∀ literals ∈ engine.core, ClauseHolds values literals)
    (path : Relation.ReflTransGen graph.Edge a b) (first : a.Holds values) : b.Holds values :=
  reflects.holds_of_path rests holds path first

/-- What the stamps say is implied is implied by the irredundant clauses. -/
theorem holds_of_implies? (rests : graph.Rests engine) (reflects : graph.Reflects picture)
    (holds : ∀ literals ∈ engine.core, ClauseHolds values literals) (left : 0 < a.var)
    (right : 0 < b.var) (implied : graph.implies? a b = some true) (first : a.Holds values) :
    b.Holds values := by
  rcases reflects.path_of_implies? implied with path | path
  · exact rests.holds_of_path reflects holds path first
  · by_contra falsified
    have back := rests.holds_of_path reflects holds path ((Literal.holds_complement right).2 falsified)
    exact (Literal.holds_complement left).1 back first

end Implications.Rests

/-- The graph shows implications of the irredundant clauses. -/
theorem Engine.works_implications {scope : Scope} :
    Works scope Engine.implications engine fun graph after =>
      after = { engine with random := after.random } ∧ graph.Reflects after.picture ∧
        graph.Rests after := by
  refine .of_ends fun sound => ?_
  refine Engine.implications_ends.imp ?_ fun _ _ impossible => impossible.elim
  rintro graph after ⟨unchanged, pairs, gathered, edges, stamped, vars, _⟩
  rw [unchanged]
  refine ⟨.of_same sound rfl rfl rfl rfl rfl rfl rfl rfl rfl, rfl, ?_⟩
  -- Every pair is an irredundant clause over variables of the formula.
  have live : ∀ pair ∈ pairs, ∃ handle clause, engine.arena.live? handle = some clause ∧
      clause.isRedundant = false ∧ clause.literals = [pair.1, pair.2] := by
    intro pair member
    obtain ⟨clause, inSlots, ⟨alive, irredundant, literals⟩, _⟩ :=
      (Implications.mem_freeBinaries? gathered pair).1 member
    obtain ⟨slot, inside, found⟩ := List.mem_iff_getElem.1 inSlots
    have atSlot : engine.arena.slots[slot]? = some clause := by
      rw [← Array.getElem?_toList, List.getElem?_eq_some_iff]
      exact ⟨inside, found⟩
    exact ⟨_, clause, Arena.live?_handleAt sound.space.le atSlot alive, irredundant, literals⟩
  have clauses : ∀ pair ∈ pairs, [pair.1, pair.2] ∈ engine.arena.contents := by
    intro pair member
    obtain ⟨handle, clause, isLive, _, literals⟩ := live pair member
    exact literals ▸ Arena.contents_of_live isLive
  have present : ∀ pair ∈ pairs,
      engine.picture.Present pair.1.var ∧ engine.picture.Present pair.2.var := by
    intro pair member
    have admits := sound.wellFormed.admits _ (clauses pair member)
    exact ⟨admits.present _ (by simp), admits.present _ (by simp)⟩
  refine ⟨⟨?_, ?_, stamped, vars⟩, fun a b step => ?_⟩
  · intro a b step
    obtain ⟨pair, member, ⟨rfl, rfl⟩ | ⟨rfl, rfl⟩⟩ := (edges a b).1 step
    · obtain ⟨left, right⟩ := present pair member
      refine ⟨by rwa [Literal.var_complement left.1], right, _, .inl (clauses pair member), ?_⟩
      rw [Literal.complement_complement left.1]
      exact List.Subset.refl _
    · obtain ⟨left, right⟩ := present pair member
      refine ⟨by rwa [Literal.var_complement right.1], left, _, .inl (clauses pair member), ?_⟩
      rw [Literal.complement_complement right.1]
      simp
  · intro a b step
    rw [edges] at step ⊢
    obtain ⟨pair, member, ⟨rfl, rfl⟩ | ⟨rfl, rfl⟩⟩ := step
    · exact ⟨pair, member, .inr ⟨rfl, Literal.complement_complement (present pair member).1.1⟩⟩
    · exact ⟨pair, member, .inl ⟨rfl, Literal.complement_complement (present pair member).2.1⟩⟩
  · obtain ⟨pair, member, ⟨rfl, rfl⟩ | ⟨rfl, rfl⟩⟩ := (edges a b).1 step
    · refine ⟨_, .inl (live pair member), ?_⟩
      rw [Literal.complement_complement (present pair member).1.1]
      exact List.Subset.refl _
    · refine ⟨_, .inl (live pair member), ?_⟩
      rw [Literal.complement_complement (present pair member).2.1]
      simp

/-- A root literal that implies its complement refutes the formula. -/
theorem Engine.refuted_of_root {literal : Literal} (atRoot : literal ∈ engine.trail.facts)
    (present : 0 < literal.var) (reaches : engine.picture.Reaches literal literal.complement) :
    Rup engine.picture.formula [] :=
  refuted_of_false (by rwa [Literal.complement_complement present])
    (reaches.rup_complement present)

end CnfSimplifier
