import Mathlib.Algebra.Order.Group.Nat
import Mathlib.Algebra.Order.BigOperators.Group.List
import CnfSimplifier.Proofs.Consistency
import CnfSimplifier.Proofs.Safety

/-!
# The exploration of a graph comes to an end

Each turn of the exploration looks at one edge, enters a literal or leaves one. An
edge is looked at from its open source only, and a literal is entered once, so the
turns that are left are counted by the edges that were not looked at: those to do for
the open literals, and all edges of the literals that were not entered yet. All of
them are edges of the graph, so the bound of the exploration is never met.

Every literal of the graph has a node, and so have its successors.
-/
namespace CnfSimplifier

namespace Run

variable {σ ι : Type} {state : σ}

/-- A loop over turns that return does return. -/
theorem Returns.forM {items : List ι} {turn : ι → Run σ PUnit} {keeps : σ → Prop}
    (start : keeps state) (step : ∀ item ∈ items, ∀ state, keeps state →
      (turn item).Returns state fun _ after => keeps after) :
    (items.forM turn).Returns state fun _ after => keeps after :=
  forM_of_turns (motive := fun body => ∀ state, keeps state →
      body.Returns state fun _ after => keeps after)
    (fun _ held => .pure held) (fun first rest state held => (first state held).bind fun _ => rest)
    step state start

end Run

/-- Changing one entry of a list changes the sum by what it changes there. -/
theorem sum_map_modify {α : Type} {weight : α → Nat} {change : α → α} {list : List α} {place : Nat}
    {old : α} (found : list[place]? = some old) :
    ((list.modify place change).map weight).sum + weight old =
      (list.map weight).sum + weight (change old) := by
  induction list generalizing place with
  | nil => simp at found
  | cons first rest ih =>
    cases place with
    | zero =>
      obtain rfl : first = old := by simpa using found
      simp only [List.modify_zero_cons, List.map_cons, List.sum_cons]
      omega
    | succ place =>
      have := @ih place (by simpa using found)
      simp only [List.modify_succ_cons, List.map_cons, List.sum_cons]
      omega

namespace Implications

variable {graph after : Implications} {literal target : Literal}

/-- What the nodes of a graph weigh together. -/
def weigh (weight : ImplicationNode → Nat) (graph : Implications) : Nat :=
  (graph.nodes.toList.map weight).sum

theorem exists_node? (inside : literal.index < graph.nodes.size) :
    ∃ node, graph.node? literal = some node :=
  ⟨_, Array.getElem?_eq_getElem inside⟩

theorem index_lt_of_node? {node : ImplicationNode} (found : graph.node? literal = some node) :
    literal.index < graph.nodes.size :=
  (Array.getElem?_eq_some_iff.1 found).1

theorem exists_modify? (graph : Implications) (change : ImplicationNode → ImplicationNode)
    (inside : literal.index < graph.nodes.size) :
    ∃ after, graph.modify? literal change = some after := by
  unfold modify?
  rw [if_pos inside]
  exact ⟨_, rfl⟩

/-- A change of a node changes the weight by its own. -/
theorem weigh_modify? (weight : ImplicationNode → Nat) {change : ImplicationNode → ImplicationNode}
    {old : ImplicationNode} (changed : graph.modify? literal change = some after)
    (found : graph.node? literal = some old) :
    after.weigh weight + weight old = graph.weigh weight + weight (change old) := by
  unfold modify? at changed
  split at changed
  next =>
    rw [Option.some.injEq] at changed
    subst changed
    unfold weigh
    rw [Array.toList_modify]
    exact sum_map_modify (by rwa [Array.getElem?_toList])
  next => cases changed

/-- The edges are counted, and they lead to literals that have nodes. -/
structure Sized (graph : Implications) : Prop where
  counted : graph.weigh (fun node => node.successors.size) = graph.numEdges
  target : ∀ source target, graph.Edge source target → target.index < graph.nodes.size

/-- Stamping a literal and reordering its successors leaves the edges. -/
theorem Sized.modify? {change : ImplicationNode → ImplicationNode} (sized : graph.Sized)
    (perm : ∀ node, graph.node? literal = some node →
      (change node).successors.toList.Perm node.successors.toList)
    (changed : graph.modify? literal change = some after) : after.Sized where
  counted := by
    have inside : literal.index < graph.nodes.size := by
      unfold Implications.modify? at changed
      split at changed
      · assumption
      · cases changed
    obtain ⟨node, found⟩ := exists_node? inside
    have same : (change node).successors.size = node.successors.size := by
      simpa using (perm node found).length_eq
    have weighed := weigh_modify? (fun node => node.successors.size) changed found
    have counted := sized.counted
    have edges := (sameSize_modify? changed).numEdges
    omega
  target := by
    rintro source target ⟨node, found, member⟩
    rw [(sameSize_modify? changed).nodes]
    rw [node?_modify? changed] at found
    split at found
    next =>
      obtain ⟨old, foundOld, rfl⟩ := Option.map_eq_some_iff.1 found
      exact sized.target literal target ⟨old, foundOld, (perm old foundOld).mem_iff.1 member⟩
    next => exact sized.target source target ⟨node, found, member⟩

/-! ## The size of a graph of clauses -/

theorem sized_ofVars (numVars : Nat) : (ofVars numVars).Sized where
  counted := by simp [weigh, ofVars]
  target := fun _ _ edge => absurd edge (not_edge_ofVars numVars)

/-- An edge can be added between literals that have nodes. -/
theorem addEdge_sized (sized : graph.Sized) (source : literal.index < graph.nodes.size)
    (inside : target.index < graph.nodes.size) : ∃ after, graph.addEdge literal target = some after ∧
      after.Sized ∧ after.nodes.size = graph.nodes.size := by
  obtain ⟨middle, changed⟩ := exists_modify? graph
    (fun node => { node with successors := node.successors.push target }) source
  have added : graph.addEdge literal target =
      some { middle with numEdges := middle.numEdges + 1 } := by
    simp only [addEdge, changed]
    rfl
  obtain ⟨node, found⟩ := exists_node? source
  have sizes := sameSize_modify? changed
  obtain ⟨edges, _⟩ := addEdge_spec added
  refine ⟨_, added, ⟨?_, fun start stop edge => ?_⟩, sizes.nodes⟩
  · have weighed := weigh_modify? (fun node => node.successors.size) changed found
    have counted := sized.counted
    have same := sizes.numEdges
    change middle.weigh _ = middle.numEdges + 1
    rw [Array.size_push] at weighed
    omega
  · change stop.index < middle.nodes.size
    rw [sizes.nodes]
    rcases (edges start stop).1 edge with old | ⟨_, rfl⟩
    · exact sized.target start stop old
    · exact inside

/-- The clauses whose literals have nodes can be added. -/
theorem addClauses_sized {pairs : List (Literal × Literal)} (sized : graph.Sized)
    (inside : ∀ pair ∈ pairs, ∀ literal ∈ [pair.1, pair.2],
      literal.index < graph.nodes.size ∧ literal.complement.index < graph.nodes.size) :
    ∃ after, graph.addClauses pairs = some after ∧ after.Sized ∧
      after.nodes.size = graph.nodes.size := by
  induction pairs generalizing graph with
  | nil => exact ⟨graph, rfl, sized, rfl⟩
  | cons pair rest ih =>
    obtain ⟨a, b⟩ := pair
    obtain ⟨own, others⟩ := List.forall_mem_cons.1 inside
    obtain ⟨insideA, outsideA⟩ := own a (by simp)
    obtain ⟨insideB, outsideB⟩ := own b (by simp)
    obtain ⟨first, addedFirst, sizedFirst, sizeFirst⟩ := addEdge_sized sized outsideA insideB
    obtain ⟨second, addedSecond, sizedSecond, sizeSecond⟩ :=
      addEdge_sized sizedFirst (sizeFirst ▸ outsideB) (sizeFirst ▸ insideA)
    have same : second.nodes.size = graph.nodes.size := sizeSecond.trans sizeFirst
    obtain ⟨after, added, sizedAfter, sizeAfter⟩ := ih sizedSecond fun pair member => by
      rw [same]
      exact others pair member
    refine ⟨after, ?_, sizedAfter, sizeAfter.trans same⟩
    simp only [addClauses, addedFirst, addedSecond, Option.bind_eq_bind, Option.bind_some, added]

/-- A graph without edges is known by their number. -/
theorem Sized.numEdges_pos (sized : graph.Sized) (edge : graph.Edge literal target) :
    0 < graph.numEdges := by
  obtain ⟨node, found, member⟩ := edge
  have listed : node.successors.size ∈ graph.nodes.toList.map fun node => node.successors.size :=
    List.mem_map.2 ⟨node, Array.mem_toList_iff.2 (Array.mem_of_getElem? found), rfl⟩
  have some_ : 0 < node.successors.size := by
    rw [← Array.length_toList]
    exact List.length_pos_of_mem member
  rw [← sized.counted]
  exact some_.trans_le (List.le_sum_of_mem listed)

/-! ## Turns of the exploration -/

namespace Exploration

variable {walk : Exploration} {stack : List (Literal × List Literal)}

/-- What there is still to do from a literal that was not entered yet: to look at
its edges and to leave it. -/
def due (node : ImplicationNode) : Nat :=
  if node.start = 0 then node.successors.size + 1 else 0

/-- The turns that are needed at most. -/
def turns (walk : Exploration) (stack : List (Literal × List Literal)) : Nat :=
  (stack.map fun entry => entry.2.length + 1).sum + walk.graph.weigh due

/-- A literal that was not entered yet can be entered. -/
theorem enter_returns {old : ImplicationNode} (sized : walk.graph.Sized)
    (found : walk.graph.node? literal = some old) (fresh : old.start = 0) :
    (enter literal).Returns walk fun order later => walk.graph.SameSize later.graph ∧
      later.graph.Sized ∧ (∀ target ∈ order, target.index < walk.graph.nodes.size) ∧
      order.length + 1 + later.graph.weigh due = walk.graph.weigh due := by
  have successors : walk.graph.successors? literal = some old.successors := by
    rw [successors?, found, Option.map_some]
  have perm := Random.shuffle_perm walk.random old.successors
  obtain ⟨graph, changed⟩ := exists_modify? walk.graph (fun node =>
    { node with start := walk.clock + 1, successors := (walk.random.shuffle old.successors).1 })
    (index_lt_of_node? found)
  have stamped : (do
      let graph ← walk.graph.modify? literal fun node => { node with
        start := walk.clock + 1, successors := (walk.random.shuffle old.successors).1 }
      return Exploration.mk graph (walk.clock + 1) (walk.random.shuffle old.successors).2) =
        some (Exploration.mk graph (walk.clock + 1) (walk.random.shuffle old.successors).2) := by
    rw [changed]
    rfl
  unfold enter
  refine .step (Run.read_of_eq_some successors) (.step rfl (.step (Run.update_of_eq_some stamped) ?_))
  refine .pure ⟨sameSize_modify? changed, sized.modify? ?_ changed, ?_, ?_⟩
  · intro node foundNode
    obtain rfl := Option.some.inj (found.symm.trans foundNode)
    exact perm
  · intro target member
    exact sized.target literal target ⟨old, found, perm.mem_iff.1 member⟩
  · have weighed := weigh_modify? due changed found
    have length : (walk.random.shuffle old.successors).1.toList.length = old.successors.size :=
      perm.length_eq
    rw [due, if_pos fresh, due, if_neg (Nat.succ_ne_zero _)] at weighed
    change (walk.random.shuffle old.successors).1.toList.length + 1 + graph.weigh due = _
    omega

/-- An entered literal can be left. -/
theorem leave_returns {old : ImplicationNode} (sized : walk.graph.Sized)
    (found : walk.graph.node? literal = some old) :
    (leave literal).Returns walk fun _ later => walk.graph.SameSize later.graph ∧
      later.graph.Sized ∧ later.graph.weigh due = walk.graph.weigh due := by
  obtain ⟨graph, changed⟩ := exists_modify? walk.graph
    (fun node => { node with stop := walk.clock + 1 }) (index_lt_of_node? found)
  have ended : leave literal walk =
      .done () { walk with graph := graph, clock := walk.clock + 1 } := by
    simp only [leave, Run.update, changed]
    rfl
  refine .of_done ended ⟨sameSize_modify? changed, sized.modify? ?_ changed, ?_⟩
  · exact fun _ _ => .refl _
  have weighed := weigh_modify? due changed found
  simp only [due] at weighed ⊢
  omega

theorem wasEntered_of_node? {node : ImplicationNode} (found : walk.graph.node? literal = some node) :
    wasEntered literal walk = .done (node.start != 0) walk := by
  simp only [wasEntered, Run.read, found, Option.map_some]

/-- The open literals and what is to be looked at from them have nodes. -/
def Inside (graph : Implications) (stack : List (Literal × List Literal)) : Prop :=
  ∀ entry ∈ stack, entry.1.index < graph.nodes.size ∧
    ∀ target ∈ entry.2, target.index < graph.nodes.size

/-- With a turn for each edge and each literal the exploration is completed. -/
theorem walk_returns (fuel : Nat) (sized : walk.graph.Sized) (inside : Inside walk.graph stack)
    (enough : turns walk stack < fuel) : (Exploration.walk fuel stack).Returns walk
      fun _ later => walk.graph.SameSize later.graph ∧ later.graph.Sized := by
  induction fuel generalizing walk stack with
  | zero => exact absurd enough (Nat.not_lt_zero _)
  | succ fuel ih =>
    -- A turn leads to a walk of the same size that has fewer turns to go.
    have onward : ∀ later next, walk.graph.SameSize later.graph → later.graph.Sized →
        Inside walk.graph next → turns later next < turns walk stack →
        (Exploration.walk fuel next).Returns later
          fun _ last => walk.graph.SameSize last.graph ∧ last.graph.Sized := by
      intro later next same sizedLater insideNext fewer
      refine (ih sizedLater ?_ (by omega)).imp ?_
      · unfold Inside
        rw [same.nodes]
        exact insideNext
      · rintro _ last ⟨sameLast, sizedLast⟩
        exact ⟨same.trans sameLast, sizedLast⟩
    rcases stack with _ | ⟨⟨literal, _ | ⟨next, others⟩⟩, rest⟩
    · exact .pure ⟨.refl, sized⟩
    · obtain ⟨⟨place, _⟩, below⟩ := List.forall_mem_cons.1 inside
      obtain ⟨old, found⟩ := exists_node? place
      refine (leave_returns sized found).bind ?_
      rintro _ later ⟨same, sizedLater, weight⟩
      refine onward later rest same sizedLater below ?_
      simp only [turns, List.map_cons, List.sum_cons, List.length_nil]
      omega
    · obtain ⟨⟨place, targets⟩, below⟩ := List.forall_mem_cons.1 inside
      obtain ⟨placeNext, insideOthers⟩ := List.forall_mem_cons.1 targets
      have shorter : Inside walk.graph ((literal, others) :: rest) :=
        List.forall_mem_cons.2 ⟨⟨place, insideOthers⟩, below⟩
      obtain ⟨node, found⟩ := exists_node? placeNext
      unfold Exploration.walk
      refine .step (wasEntered_of_node? found) ?_
      split
      next =>
        refine onward walk _ .refl sized shorter ?_
        simp only [turns, List.map_cons, List.sum_cons, List.length_cons]
        omega
      next unentered =>
        refine (enter_returns sized found (by simpa using unentered)).bind ?_
        rintro order later ⟨same, sizedLater, insideOrder, weight⟩
        refine onward later _ same sizedLater
          (List.forall_mem_cons.2 ⟨⟨placeNext, insideOrder⟩, shorter⟩) ?_
        simp only [turns, List.map_cons, List.sum_cons, List.length_cons]
        omega

/-- What is due is at most the number of edges and of literals. -/
theorem weigh_due_le (sized : walk.graph.Sized) :
    walk.graph.weigh due ≤ walk.graph.numEdges + walk.graph.nodes.size := by
  have bound : ∀ nodes : List ImplicationNode, (nodes.map due).sum ≤
      (nodes.map fun node => node.successors.size).sum + nodes.length := by
    intro nodes
    induction nodes with
    | nil => simp
    | cons node rest ih =>
      have own : due node ≤ node.successors.size + 1 := by
        unfold due
        split <;> omega
      simp only [List.map_cons, List.sum_cons, List.length_cons]
      omega
  rw [← sized.counted, ← Array.length_toList]
  exact bound _

/-- Exploring from a literal comes to its end. -/
theorem exploreFrom_returns (sized : walk.graph.Sized)
    (inside : literal.index < walk.graph.nodes.size) :
    (exploreFrom literal).Returns walk
      fun _ later => walk.graph.SameSize later.graph ∧ later.graph.Sized := by
  obtain ⟨node, found⟩ := exists_node? inside
  unfold exploreFrom
  refine .step (wasEntered_of_node? found) ?_
  split
  next => exact .pure ⟨.refl, sized⟩
  next unentered =>
    refine (enter_returns sized found (by simpa using unentered)).bind ?_
    rintro order later ⟨same, sizedLater, insideOrder, weight⟩
    refine .step rfl ((walk_returns _ sizedLater ?_ ?_).imp ?_)
    · unfold Inside
      rw [same.nodes]
      exact List.forall_mem_singleton.2 ⟨inside, insideOrder⟩
    · have bound := weigh_due_le sized
      have edges := same.numEdges
      have nodes := same.nodes
      simp only [turns, List.map_cons, List.map_nil, List.sum_cons, List.sum_nil]
      omega
    · rintro _ last ⟨sameLast, sizedLast⟩
      exact ⟨same.trans sameLast, sizedLast⟩

end Exploration

/-! ## The stamped graph -/

/-- The nodes of a graph are those of the literals of its variables. -/
structure Full (graph : Implications) : Prop extends graph.Sized where
  nodes : graph.nodes.size = 2 * (graph.numVars + 1)
  small : 2 * graph.numVars + 1 < UInt32.size

theorem Full.of_sameSize (full : graph.Full) (same : graph.SameSize after) (sized : after.Sized) :
    after.Full where
  toSized := sized
  nodes := by rw [same.nodes, same.numVars, full.nodes]
  small := same.numVars ▸ full.small

/-- The literals of the variables of a graph have nodes. -/
theorem Full.index_lt (full : graph.Full) (inside : literal.var ≤ graph.numVars) :
    literal.index < graph.nodes.size := by
  rw [full.nodes]
  change literal.code.toNat < _
  change literal.code.toNat / 2 ≤ _ at inside
  omega

/-- Every variable has its literals. -/
theorem Full.var_ofVar (full : graph.Full) {name : Nat} (member : name ∈ List.range' 1 graph.numVars)
    (positive : Bool) : (Literal.ofVar name positive).var = name ∧ 0 < name ∧ name ≤ graph.numVars := by
  have bounds := List.mem_range'_1.1 member
  have small := full.small
  exact ⟨Literal.var_ofVar (by omega) (by omega), by omega, by omega⟩

/-- Whether a literal is a root can be told. -/
theorem Full.exists_isRoot? (full : graph.Full) (present : 0 < literal.var)
    (inside : literal.var ≤ graph.numVars) : ∃ answer, graph.isRoot? literal = some answer := by
  have inside : literal.complement.var ≤ graph.numVars := by rwa [Literal.var_complement present]
  obtain ⟨node, found⟩ := exists_node? (full.index_lt inside)
  exact ⟨node.successors.isEmpty, by rw [isRoot?, successors?, found]; rfl⟩

/-- Of the literals of its variables a graph tells whether one implies the other. -/
theorem Full.exists_implies? {a b : Literal} (full : graph.Full) (presentA : 0 < a.var)
    (insideA : a.var ≤ graph.numVars) (presentB : 0 < b.var) (insideB : b.var ≤ graph.numVars) :
    ∃ answer, graph.implies? a b = some answer := by
  obtain ⟨nodeA, foundA⟩ := exists_node? (full.index_lt insideA)
  obtain ⟨nodeB, foundB⟩ := exists_node? (full.index_lt insideB)
  obtain ⟨notA, foundNotA⟩ := exists_node? (full.index_lt (Literal.var_complement presentA ▸ insideA))
  obtain ⟨notB, foundNotB⟩ := exists_node? (full.index_lt (Literal.var_complement presentB ▸ insideB))
  unfold implies?
  rw [foundA, foundB, foundNotA, foundNotB]
  split
  · exact ⟨_, rfl⟩
  · simp only [Option.bind_eq_bind, Option.bind_some]
    split <;> exact ⟨_, rfl⟩

/-- The literals of a variable can be asked whether an edge leads to them. -/
theorem Full.exists_rootsOf? (full : graph.Full) {name : Nat}
    (member : name ∈ List.range' 1 graph.numVars) : ∃ roots, graph.rootsOf? name = some roots ∧
      ∀ root ∈ roots, root.index < graph.nodes.size := by
  obtain ⟨own, positive, bound⟩ := full.var_ofVar member true
  have ownComplement : (Literal.ofVar name true).complement.var = name := by
    rw [Literal.var_complement (by omega), own]
  obtain ⟨negativeIsRoot, askedNegative⟩ := full.exists_isRoot? (by omega) (ownComplement.trans_le bound)
  obtain ⟨positiveIsRoot, askedPositive⟩ := full.exists_isRoot? (by omega) (own.trans_le bound)
  refine ⟨(if negativeIsRoot then [(Literal.ofVar name true).complement] else []) ++
    (if positiveIsRoot then [Literal.ofVar name true] else []),
    by simp only [rootsOf?, askedNegative, askedPositive]; rfl, fun root isRoot => full.index_lt ?_⟩
  have which : root = (Literal.ofVar name true).complement ∨ root = Literal.ofVar name true := by
    rcases List.mem_append.1 isRoot with first | second
    · split at first <;> simp_all
    · split at second <;> simp_all
  rcases which with rfl | rfl
  · exact ownComplement.trans_le bound
  · exact own.trans_le bound

/-- Each literal has a node. -/
theorem Full.index_lt_of_mem_allLiterals (full : graph.Full)
    (member : literal ∈ allLiterals graph.numVars) : literal.index < graph.nodes.size := by
  obtain ⟨name, inRange, which⟩ := List.mem_flatMap.1 member
  simp only [List.mem_cons, List.not_mem_nil, or_false] at which
  rcases which with rfl | rfl
  all_goals
    obtain ⟨own, _, bound⟩ := full.var_ofVar inRange _
    exact full.index_lt (own.trans_le bound)

/-- Looking something up for each of some items. -/
theorem exists_mapM {ι α : Type} {look : ι → Option (List α)} {holds : α → Prop} {items : List ι}
    (found : ∀ item ∈ items, ∃ list, look item = some list ∧ ∀ value ∈ list, holds value) :
    ∃ lists, items.mapM look = some lists ∧ ∀ value ∈ lists.flatten, holds value := by
  induction items with
  | nil => exact ⟨[], rfl, by simp⟩
  | cons item rest ih =>
    obtain ⟨⟨list, looked, own⟩, others⟩ := List.forall_mem_cons.1 found
    obtain ⟨lists, lookedRest, all⟩ := ih others
    refine ⟨list :: lists, by simp [List.mapM_cons, looked, lookedRest], fun value member => ?_⟩
    rw [List.flatten_cons, List.mem_append] at member
    exact member.elim (own value) (all value)

/-- The exploration of all literals is completed. -/
theorem stampAll_returns {walk : Exploration} (full : walk.graph.Full) :
    stampAll.Returns walk fun _ later => later.graph.Full ∧ walk.graph.SameSize later.graph := by
  -- Whatever literals with nodes are explored from, the graph keeps its size.
  have explore : ∀ (literals : List Literal) (state : Exploration),
      (∀ literal ∈ literals, literal.index < walk.graph.nodes.size) →
      (walk.graph.SameSize state.graph ∧ state.graph.Sized) →
      (literals.forM Exploration.exploreFrom).Returns state fun _ later =>
        walk.graph.SameSize later.graph ∧ later.graph.Sized := by
    intro literals state inside start
    refine .forM start fun literal member state ⟨same, sized⟩ => ?_
    have place : literal.index < state.graph.nodes.size := same.nodes ▸ inside literal member
    refine (Exploration.exploreFrom_returns sized place).imp ?_
    rintro _ later ⟨sameLater, sizedLater⟩
    exact ⟨same.trans sameLater, sizedLater⟩
  obtain ⟨roots, looked, inside⟩ := exists_mapM fun name member => full.exists_rootsOf? member
  unfold stampAll
  refine .step rfl (.step (Run.access_of_eq_some looked) (.step rfl ?_))
  refine .bind (explore _ _ (fun literal member => ?_) ⟨.refl, full.toSized⟩) ?_
  · have perm := Random.shuffle_perm walk.random roots.flatten.toArray
    exact inside literal (perm.mem_iff.1 member)
  rintro _ middle ⟨same, sized⟩
  have fullMiddle : middle.graph.Full := full.of_sameSize same sized
  refine .step rfl (.step rfl (.imp (explore _ _ (fun literal member => ?_) ⟨same, sized⟩) ?_))
  · have perm := Random.shuffle_perm middle.random (allLiterals middle.graph.numVars).toArray
    rw [← same.nodes]
    exact fullMiddle.index_lt_of_mem_allLiterals (perm.mem_iff.1 member)
  · rintro _ later ⟨sameLater, sizedLater⟩
    exact ⟨full.of_sameSize sameLater sizedLater, sameLater⟩

/-- The graph of clauses over the variables is built. -/
theorem build_returns {numVars : Nat} {pairs : List (Literal × Literal)} {random : Random}
    (small : 2 * numVars + 1 < UInt32.size)
    (inside : ∀ pair ∈ pairs, ∀ literal ∈ [pair.1, pair.2],
      0 < literal.var ∧ literal.var ≤ numVars) :
    (build numVars pairs).Returns random fun graph _ => graph.Full := by
  have empty : (ofVars numVars).Full :=
    ⟨sized_ofVars numVars, by simp [ofVars], small⟩
  obtain ⟨graph, added, sized, size⟩ : ∃ graph, (ofVars numVars).addClauses pairs = some graph ∧
      graph.Sized ∧ graph.nodes.size = (ofVars numVars).nodes.size := by
    refine addClauses_sized empty.toSized fun pair member literal isOwn => ?_
    obtain ⟨present, bound⟩ := inside pair member literal isOwn
    refine ⟨empty.index_lt bound, empty.index_lt ?_⟩
    rwa [Literal.var_complement present]
  obtain ⟨_, _, vars, _⟩ := addClauses_spec added
  have full : graph.Full := ⟨sized, by rw [size, vars, empty.nodes], vars ▸ small⟩
  obtain ⟨_, walk, ended, fullWalk, _⟩ : stampAll.Returns { graph, random } _ :=
    stampAll_returns full
  have built : build numVars pairs random = .done walk.graph walk.random := by
    simp only [build, added, ended]
  exact .of_done built fullWalk

/-- The values of the literals of clauses over the variables of a trail are known. -/
theorem exists_freeBinaries? {trail : Trail} {slots : List Clause}
    (inside : ∀ clause ∈ slots, clause.isDead = false → ∀ literal ∈ clause.literals,
      ∃ value, trail.literalValue? literal = some value) :
    ∃ pairs, freeBinaries? trail slots = some pairs := by
  induction slots with
  | nil => exact ⟨[], rfl⟩
  | cons clause rest ih =>
    obtain ⟨own, others⟩ := List.forall_mem_cons.1 inside
    obtain ⟨pairs, gathered⟩ := ih others
    unfold freeBinaries?
    split
    next a b isPair =>
      split
      next => exact ⟨pairs, gathered⟩
      next usable =>
        have alive : clause.isDead = false := by simp_all
        obtain ⟨valueOfA, knownA⟩ := own alive a (by simp [isPair])
        obtain ⟨valueOfB, knownB⟩ := own alive b (by simp [isPair])
        rw [knownA, knownB, gathered]
        cases valueOfA <;> exact ⟨_, rfl⟩
    next => exact ⟨pairs, gathered⟩

end Implications

namespace Engine

variable {engine after : Engine}

/-- A sound engine gets the graph of its binary clauses. -/
theorem implications_returns [Realm] (sound : engine.Sound) :
    Engine.implications.Returns engine fun graph _ => graph.Full := by
  have bound : ∀ clause ∈ engine.arena.slots.toList, clause.isDead = false →
      ∀ literal ∈ clause.literals, 0 < literal.var ∧ literal.var < engine.trail.vars.size := by
    intro clause inSlots alive literal member
    obtain ⟨slot, inside, found⟩ := List.mem_iff_getElem.1 inSlots
    have atSlot : engine.arena.slots[slot]? = some clause := by
      rw [← Array.getElem?_toList, List.getElem?_eq_some_iff]
      exact ⟨inside, found⟩
    exact sound.var_lt (Arena.live?_handleAt sound.space.le atSlot alive) member
  obtain ⟨pairs, gathered⟩ : ∃ pairs, Implications.freeBinaries? engine.trail
      engine.arena.slots.toList = some pairs :=
    Implications.exists_freeBinaries? fun clause inSlots alive literal member =>
      ⟨_, Trail.literalValue?_of_lt (bound clause inSlots alive literal member).2⟩
  have nonempty := sound.trail.nonempty
  have small := sound.trail.small_of_lt (Nat.sub_one_lt_of_lt nonempty)
  obtain ⟨graph, random, built, full⟩ :
      (Implications.build engine.numVars pairs).Returns engine.random fun graph _ => graph.Full := by
    refine Implications.build_returns small fun pair member literal isOwn => ?_
    obtain ⟨clause, inSlots, ⟨alive, _, literals⟩, _⟩ :=
      (Implications.mem_freeBinaries? gathered pair).1 member
    have inside := bound clause inSlots alive literal (literals ▸ isOwn)
    exact ⟨inside.1, Nat.le_sub_one_of_lt inside.2⟩
  have ended : Engine.implications engine = .done graph { engine with random := random } := by
    simp only [Engine.implications, gathered, built]
  exact .of_done ended full

/-! ## The edges -/

/-- A live irredundant clause of two literals says that the first literal implies the
second. -/
def Links (engine : Engine) (a b : Literal) : Prop :=
  ∃ clause ∈ engine.arena.liveClauses, clause.isRedundant = false ∧
    ∃ x y, clause.literals = [x, y] ∧
      ((a = x.complement ∧ b = y) ∨ (a = y.complement ∧ b = x))

/-- Once the root literals were applied all literals of clauses are open. -/
theorem open_of_applied [Realm] (sound : engine.Sound) (applied : Probing.Applied engine)
    {clause : Clause} (live : clause ∈ engine.arena.liveClauses) {literal : Literal}
    (inside : literal ∈ clause.literals) : engine.trail.literalValue? literal = some none := by
  have stored := Arena.literals_mem_contents live
  have present := (sound.wellFormed.admits _ stored).present literal inside
  refine sound.trail.agrees.literalValue?_of_open present.1 ?_ fun other atRoot same => ?_
  · have bound : literal.var ≤ engine.trail.numVars := present.2.1
    have nonempty := sound.trail.nonempty
    unfold Trail.numVars at bound
    omega
  · exact applied.unmentioned atRoot ⟨_, stored, literal, inside, same.symm⟩

/-- The graph that is made has the links of the engine. -/
theorem edge_of_implications [Realm] (sound : engine.Sound) (applied : Probing.Applied engine)
    {graph : Implications} (made : Engine.implications engine = .done graph after) :
    graph.Edge = engine.Links := by
  obtain ⟨_, pairs, gathered, edges, _⟩ := implications_ends.done_of_eq made
  funext a b
  rw [edges, eq_iff_iff]
  constructor
  · rintro ⟨pair, member, edge⟩
    obtain ⟨clause, inSlots, ⟨alive, irredundant, literals⟩, _⟩ :=
      (Implications.mem_freeBinaries? gathered pair).1 member
    exact ⟨clause, List.mem_filter.2 ⟨inSlots, by simp [alive]⟩, irredundant, _, _, literals, edge⟩
  · rintro ⟨clause, live, irredundant, x, y, literals, edge⟩
    obtain ⟨inSlots, alive⟩ := List.mem_filter.1 live
    refine ⟨(x, y), (Implications.mem_freeBinaries? gathered _).2
      ⟨clause, inSlots, ⟨by simpa using alive, irredundant, literals⟩, ?_, ?_⟩, edge⟩
    · exact open_of_applied sound applied live (by simp [literals])
    · exact open_of_applied sound applied live (by simp [literals])

/-- The live irredundant clauses of two literals. -/
def binaries (engine : Engine) : List (List Literal) :=
  (engine.arena.liveClauses.filter fun clause => !clause.isRedundant && clause.size == 2).map
    Clause.literals

/-- The binaries are the live irredundant clauses of length two. -/
theorem mem_binaries {literals : List Literal} : literals ∈ engine.binaries ↔
    ∃ clause ∈ engine.arena.liveClauses, clause.isRedundant = false ∧
      clause.literals = literals ∧ literals.length = 2 := by
  unfold binaries
  simp only [List.mem_map, List.mem_filter, Bool.and_eq_true, Bool.not_eq_true', beq_iff_eq]
  constructor
  · rintro ⟨clause, ⟨live, irredundant, two⟩, rfl⟩
    exact ⟨clause, live, irredundant, rfl, two⟩
  · rintro ⟨clause, live, irredundant, rfl, two⟩
    exact ⟨clause, ⟨live, irredundant, two⟩, rfl⟩

/-- A clause of two literals says that the complement of the first one implies the second. -/
theorem links_of_mem_binaries {literals : List Literal} (member : literals ∈ engine.binaries) :
    ∃ x y, literals = [x, y] ∧ engine.Links x.complement y := by
  obtain ⟨clause, live, irredundant, rfl, two⟩ := mem_binaries.1 member
  obtain ⟨x, y, pair⟩ := List.length_eq_two.1 two
  exact ⟨x, y, pair, clause, live, irredundant, x, y, pair, .inl ⟨rfl, rfl⟩⟩

/-- What one literal implies directly is said by a clause of two literals. -/
theorem exists_binary_of_links [Realm] (sound : engine.Sound) {a b : Literal}
    (links : engine.Links a b) : ∃ part ∈ engine.binaries, part ⊆ [a.complement, b] := by
  obtain ⟨clause, live, irredundant, x, y, pair, which⟩ := links
  have admits := sound.wellFormed.admits _ (Arena.literals_mem_contents live)
  have member : [x, y] ∈ engine.binaries := mem_binaries.2 ⟨clause, live, irredundant, pair, rfl⟩
  rcases which with ⟨rfl, rfl⟩ | ⟨rfl, rfl⟩
  · refine ⟨_, member, ?_⟩
    rw [Literal.complement_complement (admits.present x (by simp [pair])).1]
    exact List.Subset.refl _
  · refine ⟨_, member, ?_⟩
    rw [Literal.complement_complement (admits.present y (by simp [pair])).1]
    simp

end Engine

end CnfSimplifier
