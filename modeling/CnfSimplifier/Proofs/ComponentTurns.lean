import CnfSimplifier.Proofs.Component
import CnfSimplifier.Proofs.GraphSearch

/-!
# The search for components comes to an end

Each turn of the search looks at one edge or leaves a literal. A literal is met once, and
its edges are looked at from then on only. So the turns that are left are counted as in
the exploration of a graph: by the edges to be looked at from the open literals, and by
all edges of the literals that were not met.

The tables of the search have a place for every literal of the graph, so a search that is
not given up finds the components.
-/
namespace CnfSimplifier

/-- Changing one entry of a list changes the sum by what it changes there. -/
theorem sum_zipWith_set {α β : Type} {weight : α → β → Nat} {left : List α} {right : List β}
    {place : Nat} {a : α} {old new : β} (foundLeft : left[place]? = some a)
    (foundRight : right[place]? = some old) :
    (List.zipWith weight left (right.set place new)).sum + weight a old =
      (List.zipWith weight left right).sum + weight a new := by
  induction left generalizing right place with
  | nil => simp at foundLeft
  | cons first rest ih =>
    cases right with
    | nil => simp at foundRight
    | cons head tail =>
      cases place with
      | zero =>
        obtain rfl : first = a := by simpa using foundLeft
        obtain rfl : head = old := by simpa using foundRight
        simp only [List.set_cons_zero, List.zipWith_cons_cons, List.sum_cons]
        omega
      | succ place =>
        have := @ih tail place (by simpa using foundLeft) (by simpa using foundRight)
        simp only [List.set_cons_succ, List.zipWith_cons_cons, List.sum_cons]
        omega

namespace ComponentSearch

variable {graph : Implications} {search after : ComponentSearch} {literal : Literal}

/-- A search with a place in its tables for every literal of a graph. -/
structure Spans (graph : Implications) (search : ComponentSearch) : Prop where
  number : search.number.size = graph.nodes.size
  low : search.low.size = graph.nodes.size
  pending : search.pending.size = graph.nodes.size
  stack : ∀ literal ∈ search.stack, literal.index < graph.nodes.size
  next : 0 < search.next

theorem spans_start (budget : Budget) (full : graph.Full) :
    Spans graph (start (2 * (graph.numVars + 1)) budget) := by
  refine ⟨?_, ?_, ?_, fun literal member => ?_, Nat.one_pos⟩
  case refine_4 => cases member
  all_goals exact Array.size_replicate.trans full.nodes.symm

/-! ## Turns -/

/-- What there is still to do from a literal with a number: to look at its edges and to
leave it, unless it was met before. -/
def due (node : ImplicationNode) (number : Nat) : Nat :=
  if number = 0 then node.successors.size + 1 else 0

/-- What there is still to do from the literals that were not met. -/
def remains (graph : Implications) (search : ComponentSearch) : Nat :=
  (List.zipWith due graph.nodes.toList search.number.toList).sum

/-- The turns that are needed at most. -/
def turns (graph : Implications) (search : ComponentSearch) (stack : List (Literal × List Literal)) :
    Nat :=
  (stack.map fun entry => entry.2.length + 1).sum + remains graph search

/-- What remains is at most the number of edges and of literals. -/
theorem remains_le (sized : graph.Sized) (search : ComponentSearch) :
    remains graph search ≤ graph.numEdges + graph.nodes.size := by
  have bound : ∀ (nodes : List ImplicationNode) (numbers : List Nat),
      (List.zipWith due nodes numbers).sum ≤
        (nodes.map fun node => node.successors.size).sum + nodes.length := by
    intro nodes
    induction nodes with
    | nil => simp
    | cons node rest ih =>
      intro numbers
      cases numbers with
      | nil => simp
      | cons number others =>
        have own : due node number ≤ node.successors.size + 1 := by
          unfold due
          split <;> omega
        have := ih others
        simp only [List.zipWith_cons_cons, List.map_cons, List.sum_cons, List.length_cons]
        omega
  rw [← sized.counted, ← Array.length_toList]
  exact bound _ _

/-! ## Operations on the tables -/

theorem write_of_lt {α : Type} {table : Array α} {entry : α} (inside : literal.index < table.size) :
    write table literal entry = some (table.setIfInBounds literal.index entry) := if_pos inside

/-- Each literal has a number. -/
theorem numberOf_done (spans : Spans graph search) (inside : literal.index < graph.nodes.size) :
    ∃ number, search.number[literal.index]? = some number ∧
      numberOf literal search = .done number search :=
  have found := Array.getElem?_eq_getElem (spans.number.symm ▸ inside)
  ⟨_, found, Run.read_of_eq_some found⟩

theorem lowOf_done (spans : Spans graph search) (inside : literal.index < graph.nodes.size) :
    ∃ number, lowOf literal search = .done number search :=
  ⟨_, Run.read_of_eq_some (Array.getElem?_eq_getElem (spans.low.symm ▸ inside))⟩

/-- A literal that was not met can be met. -/
theorem visit_returns {node : ImplicationNode} (spans : Spans graph search)
    (found : graph.node? literal = some node) (fresh : search.number[literal.index]? = some 0) :
    (visit literal).Returns search fun _ later => Spans graph later ∧
      node.successors.size + 1 + remains graph later = remains graph search := by
  have inside := Implications.index_lt_of_node? found
  have met : visit literal search = .done () { search with
      number := search.number.setIfInBounds literal.index search.next
      low := search.low.setIfInBounds literal.index search.next
      pending := search.pending.setIfInBounds literal.index true
      stack := literal :: search.stack
      next := search.next + 1 } := by
    simp only [visit, Run.update, write_of_lt (spans.number.symm ▸ inside),
      write_of_lt (spans.low.symm ▸ inside), write_of_lt (spans.pending.symm ▸ inside)]
    rfl
  refine .of_done met ⟨⟨?_, ?_, ?_, ?_, Nat.succ_pos _⟩, ?_⟩
  · exact Array.size_setIfInBounds.trans spans.number
  · exact Array.size_setIfInBounds.trans spans.low
  · exact Array.size_setIfInBounds.trans spans.pending
  · exact List.forall_mem_cons.2 ⟨inside, spans.stack⟩
  · have changed := @sum_zipWith_set _ _ due graph.nodes.toList search.number.toList literal.index
      node 0 search.next (by rwa [Array.getElem?_toList]) (by rwa [Array.getElem?_toList])
    rw [due, if_pos rfl, due, if_neg (Nat.ne_of_gt spans.next)] at changed
    unfold remains
    rw [Array.toList_setIfInBounds]
    omega

/-- What is reached from a literal can be noted. -/
theorem reach_returns {number : Nat} (spans : Spans graph search)
    (inside : literal.index < graph.nodes.size) :
    (reach literal number).Returns search fun _ later =>
      Spans graph later ∧ later.number = search.number := by
  obtain ⟨known, looked⟩ := lowOf_done spans inside
  have lowered : (do
      let low ← write search.low literal (min known number)
      return { search with low := low }) =
        some { search with low := search.low.setIfInBounds literal.index (min known number) } := by
    rw [write_of_lt (spans.low.symm ▸ inside)]
    rfl
  refine .step looked (.of_done (Run.update_of_eq_some lowered) ⟨?_, rfl⟩)
  exact { spans with low := Array.size_setIfInBounds.trans spans.low }

/-- Literals that have places can be unmarked. -/
theorem exists_unmark {members : List Literal} {table : Array Bool}
    (inside : ∀ member ∈ members, member.index < table.size) :
    ∃ changed, members.foldlM (fun table member => write table member false) table = some changed ∧
      changed.size = table.size := by
  induction members generalizing table with
  | nil => exact ⟨table, rfl, rfl⟩
  | cons first rest ih =>
    obtain ⟨own, others⟩ := List.forall_mem_cons.1 inside
    obtain ⟨changed, unmarked, size⟩ := @ih (table.setIfInBounds first.index false) fun member inRest =>
      Array.size_setIfInBounds.symm ▸ others member inRest
    refine ⟨changed, ?_, size.trans Array.size_setIfInBounds⟩
    rw [List.foldlM_cons, write_of_lt own]
    exact unmarked

/-- Both parts of a stack are parts of it. -/
theorem splitThrough_append (literal : Literal) (stack : List Literal) :
    (splitThrough literal stack).1 ++ (splitThrough literal stack).2 = stack := by
  induction stack with
  | nil => rfl
  | cons top rest ih =>
    unfold splitThrough
    split
    next => rfl
    next => exact congrArg (top :: ·) ih

/-- A component can be taken off the stack. -/
theorem close_returns (spans : Spans graph search) :
    (close literal).Returns search fun _ later =>
      Spans graph later ∧ later.number = search.number := by
  have parts : ∀ other, other ∈ (splitThrough literal search.stack).1 ∨
      other ∈ (splitThrough literal search.stack).2 → other.index < graph.nodes.size := by
    intro other which
    refine spans.stack other ?_
    rw [← splitThrough_append literal search.stack]
    exact List.mem_append.2 which
  obtain ⟨pending, unmarked, size⟩ := exists_unmark fun member isMember =>
    spans.pending.symm ▸ parts member (.inl isMember)
  have closed : close literal search = .done () { search with
      stack := (splitThrough literal search.stack).2
      pending := pending
      found := if 1 < (splitThrough literal search.stack).1.length then
        search.found.push (splitThrough literal search.stack).1 else search.found } := by
    simp only [close, Run.update, unmarked]
    rfl
  refine .of_done closed ⟨?_, rfl⟩
  exact { spans with
    pending := size.trans spans.pending
    stack := fun other outside => parts other (.inr outside) }

/-! ## The walk -/

section Walking

variable {interrupted : Bool} {stack : List (Literal × List Literal)}

/-- A literal can be left. -/
theorem leave_returns {next : Run ComponentSearch Bool} {done : Bool → ComponentSearch → Prop}
    (spans : Spans graph search) (inside : literal.index < graph.nodes.size)
    (rest : ∀ later, Spans graph later → later.number = search.number → next.Returns later done) :
    (do
      if (← lowOf literal) = (← numberOf literal) then ComponentSearch.close literal
      next).Returns search done := by
  obtain ⟨low, lookedLow⟩ := lowOf_done spans inside
  obtain ⟨number, _, lookedNumber⟩ := numberOf_done spans inside
  refine .step lookedLow (.step lookedNumber ?_)
  split
  · exact (close_returns spans).bind fun _ later ⟨spansLater, same⟩ => rest later spansLater same
  · exact rest search spans rfl

/-- With a turn for each edge and each literal the walk is completed, or it is given up. -/
theorem walk_returns (fuel : Nat) (sized : graph.Sized) (spans : Spans graph search)
    (inside : Implications.Exploration.Inside graph stack) (enough : turns graph search stack < fuel) :
    (walk graph interrupted fuel stack).Returns search fun _ later => Spans graph later := by
  induction fuel generalizing search stack with
  | zero => exact absurd enough (Nat.not_lt_zero _)
  | succ fuel ih =>
    rcases stack with _ | ⟨⟨literal, _ | ⟨next, others⟩⟩, rest⟩
    · exact .pure spans
    · obtain ⟨⟨place, _⟩, below⟩ := List.forall_mem_cons.1 inside
      have leave : ∀ later, Spans graph later → later.number = search.number →
          (walk graph interrupted fuel rest).Returns later fun _ last => Spans graph last := by
        intro later spansLater same
        refine ih spansLater below ?_
        simp only [turns, remains, List.map_cons, List.sum_cons, List.length_nil] at enough ⊢
        rw [same]
        omega
      unfold walk
      rcases rest with _ | ⟨⟨parent, open_⟩, deeper⟩
      · exact leave_returns spans place leave
      · obtain ⟨⟨placeParent, _⟩, _⟩ := List.forall_mem_cons.1 below
        obtain ⟨low, looked⟩ := lowOf_done spans place
        refine .step looked ((reach_returns spans placeParent).bind ?_)
        rintro _ later ⟨spansLater, same⟩
        refine leave_returns spansLater place fun last spansLast sameLast => ?_
        exact leave last spansLast (sameLast.trans same)
    · obtain ⟨⟨place, targets⟩, below⟩ := List.forall_mem_cons.1 inside
      obtain ⟨placeNext, insideOthers⟩ := List.forall_mem_cons.1 targets
      have shorter : Implications.Exploration.Inside graph ((literal, others) :: rest) :=
        List.forall_mem_cons.2 ⟨⟨place, insideOthers⟩, below⟩
      unfold walk
      have spent : (spend interrupted).Returns search
          fun _ later => ∃ budget, later = { search with budget := budget } := .of_done rfl ⟨_, rfl⟩
      refine spent.bind ?_
      rintro goOn _ ⟨budget, rfl⟩
      have spans : Spans graph { search with budget := budget } := { spans with }
      split
      swap
      · exact .pure spans
      obtain ⟨number, known, looked⟩ := numberOf_done spans placeNext
      refine .step looked ?_
      split
      next fresh =>
        rw [fresh] at known
        obtain ⟨node, found⟩ := Implications.exists_node? placeNext
        have successors : graph.successors? next = some node.successors := by
          rw [Implications.successors?, found, Option.map_some]
        refine (visit_returns spans found known).bind ?_
        rintro _ later ⟨spansLater, fewer⟩
        refine .step (Run.access_of_eq_some successors) (ih spansLater ?_ ?_)
        · exact List.forall_mem_cons.2 ⟨⟨placeNext, fun target member =>
            sized.target next target ⟨node, found, member⟩⟩, shorter⟩
        · change _ = remains graph search at fewer
          simp only [turns, List.map_cons, List.sum_cons, List.length_cons,
            Array.length_toList] at enough ⊢
          omega
      next =>
        have onward : ∀ later, Spans graph later → later.number = search.number →
            (walk graph interrupted fuel ((literal, others) :: rest)).Returns later
              fun _ last => Spans graph last := by
          intro later spansLater same
          refine ih spansLater shorter ?_
          simp only [turns, remains, List.map_cons, List.sum_cons, List.length_cons] at enough ⊢
          rw [same]
          omega
        have asked := Array.getElem?_eq_getElem (spans.pending.symm ▸ placeNext)
        refine .step (Run.read_of_eq_some asked) ?_
        split
        · refine (reach_returns spans place).bind ?_
          rintro _ later ⟨spansLater, same⟩
          exact onward later spansLater same
        · exact onward _ spans rfl

/-- The search from literals that have nodes is completed, or it is given up. -/
theorem searchFrom_returns {literals : List Literal} (sized : graph.Sized)
    (spans : Spans graph search) (inside : ∀ literal ∈ literals, literal.index < graph.nodes.size) :
    (searchFrom graph interrupted literals).Returns search fun _ _ => True := by
  induction literals generalizing search with
  | nil => exact .pure trivial
  | cons literal rest ih =>
    obtain ⟨place, others⟩ := List.forall_mem_cons.1 inside
    obtain ⟨number, known, looked⟩ := numberOf_done spans place
    obtain ⟨node, found⟩ := Implications.exists_node? place
    have successors : graph.successors? literal = some node.successors := by
      rw [Implications.successors?, found, Option.map_some]
    unfold searchFrom
    refine .step looked (.step (Run.access_of_eq_some successors) ?_)
    split
    next => exact ih spans others
    next wanted =>
      have fresh : number = 0 := by simp_all
      rw [fresh] at known
      refine (visit_returns spans found known).bind ?_
      rintro _ later ⟨spansLater, fewer⟩
      have insideStack : Implications.Exploration.Inside graph
          [(literal, node.successors.toList)] := List.forall_mem_singleton.2
        ⟨place, fun target member => sized.target literal target ⟨node, found, member⟩⟩
      refine (walk_returns _ sized spansLater insideStack ?_).bind fun goOn last spansLast => ?_
      · have bound := remains_le sized search
        simp only [turns, List.map_cons, List.map_nil, List.sum_cons, List.sum_nil,
          Array.length_toList]
        omega
      · split
        · exact ih spansLast others
        · exact .pure trivial

end Walking

end ComponentSearch

/-- The components of a graph are found, or the steps are used up. -/
theorem Implications.components_returns {graph : Implications} {interrupted : Bool} {budget : Budget}
    (full : graph.Full) : (graph.components interrupted).Returns budget fun found _ =>
      ∀ components, found = some components → graph.Components components := by
  obtain ⟨finished, search, ended, _⟩ : (ComponentSearch.searchFrom graph interrupted
      (allLiterals graph.numVars)).Returns
      (ComponentSearch.start (2 * (graph.numVars + 1)) budget) _ :=
    ComponentSearch.searchFrom_returns full.toSized (ComponentSearch.spans_start budget full)
      fun literal member => full.index_lt_of_mem_allLiterals member
  suffices responds : (graph.components interrupted).Returns budget fun _ _ => True from
    (responds.and_ends components_ends).imp fun _ _ held => held.2
  unfold components
  cases finished with
  | true => exact ⟨some search.found.toList, search.budget, by simp only [ended], trivial⟩
  | false => exact ⟨none, search.budget, by simp only [ended], trivial⟩

end CnfSimplifier
