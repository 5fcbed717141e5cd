import CnfSimplifier.Proofs.Representatives
import CnfSimplifier.Proofs.Weakening

/-!
# Substituting equivalent literals

Two components of the implication graph that share a variable have the same
variables: they are equal, or each has the complements of the other. So dealing
with a component once, and skipping those whose least variable was dealt with,
gives every variable at most one representative, and no representative gives way
itself. The images of the clauses follow by unit propagation along paths of the
graph, and once they are there the clauses with variables that give way can go: the
records make each of these variables equal to its representative again.
-/
namespace CnfSimplifier.Equivalence

variable {graph : Implications} {picture : Picture} {engine : Engine} {members : List Literal}
  {representative : Literal} {image : Array (Option Literal)} {pair : Literal × Literal}
  {targets : List (Literal × Literal)} {values : Assignment} {state : Tool Unit × Engine}

/-! ## Components without complementary pairs -/

/-- A pair that is found is in the component. -/
theorem mem_of_complementaryPair? {literal : Literal} (ascending : members.Pairwise (· < ·))
    (found : complementaryPair? members = some literal) :
    literal ∈ members ∧ ∃ other ∈ members, other ≠ literal ∧ other.var = literal.var := by
  fun_induction complementaryPair? members with
  | case1 a b rest same =>
    obtain rfl : a = literal := by simpa using found
    refine ⟨List.mem_cons_self, b, by simp, ?_, same.symm⟩
    rintro rfl
    exact UInt32.lt_irrefl _ ((List.pairwise_cons.1 ascending).1 b List.mem_cons_self)
  | case2 a b rest different ih =>
    obtain ⟨inRest, other, otherInRest, facts⟩ := ih (List.pairwise_cons.1 ascending).2 found
    exact ⟨List.mem_cons_of_mem _ inRest, other, List.mem_cons_of_mem _ otherInRest, facts⟩
  | case3 => cases found

/-- In an ascending list the two literals of a variable would be neighbours. -/
theorem distinct_of_complementaryPair? (ascending : members.Pairwise (· < ·))
    (none : complementaryPair? members = none) : members.Pairwise fun a b => a.var < b.var := by
  fun_induction complementaryPair? members with
  | case1 => cases none
  | case2 a b rest different ih =>
    obtain ⟨below, sortedRest⟩ := List.pairwise_cons.1 ascending
    have rest := ih sortedRest none
    have first : a.var < b.var := by
      have order : a.code.toNat < b.code.toNat := below b List.mem_cons_self
      unfold Literal.var at different ⊢
      omega
    refine List.pairwise_cons.2 ⟨List.forall_mem_cons.2 ⟨first, fun later member => ?_⟩, rest⟩
    exact first.trans ((List.pairwise_cons.1 rest).1 later member)
  | case3 members short =>
    match members, short with
    | [], _ => exact .nil
    | [_], _ => simp
    | a :: b :: rest, short => exact absurd rfl (short a b rest)

/-- The members of a component in ascending order. -/
theorem ascending_of_nodup (nodup : members.Nodup) :
    (sortBy (fun a b => decide (a ≤ b)) members).Pairwise (· < ·) := by
  have ordered : (sortBy (fun a b => decide (a ≤ b)) members).Pairwise
      (fun a b => decide (a ≤ b) = true) :=
    pairwise_sortBy
      (fun a b c first second => by
        simp only [decide_eq_true_eq] at *
        exact Literal.le_trans first second)
      (fun a b => by
        simp only [Bool.or_eq_true, decide_eq_true_eq]
        exact Literal.le_total a b)
      members
  have distinct : (sortBy (fun a b => decide (a ≤ b)) members).Nodup :=
    (sortBy_perm members).nodup_iff.2 nodup
  exact (ordered.and distinct).imp fun both =>
    Literal.lt_of_le_of_ne (by simpa using both.1) both.2

/-- Members of a component belong to the formula. -/
theorem present_of_component [Realm] (reflects : graph.Reflects picture)
    (component : Component graph.Edge members) (large : 1 < members.length) {literal : Literal}
    (member : literal ∈ members) : picture.Present literal.var := by
  obtain ⟨other, inside, different⟩ : ∃ other ∈ members, other ≠ literal := by
    by_contra none
    push Not at none
    have all : members ⊆ [literal] := fun other inside => List.mem_singleton.2 (none other inside)
    have short := (component.nodup.subperm all).length_le
    exact absurd large (by simpa using short)
  exact reflects.present_of_path (component.reaches other inside literal member) different

/-- The edges of a graph of binary clauses come in pairs. -/
theorem skew_of_reflects [Realm] (reflects : graph.Reflects picture) : Skew graph.Edge where
  left _ _ edge := (reflects.edge edge).left.1
  right _ _ edge := (reflects.edge edge).right.1
  contrapose _ _ edge := reflects.skew edge

/-! ## Choosing representatives -/

/-- Literals that give way, each with an equivalent literal that stays. -/
structure Targets [Realm] (engine : Engine) (targets : List (Literal × Literal)) : Prop where
  there : ∀ pair ∈ targets, engine.picture.Reaches pair.1 pair.2
  back : ∀ pair ∈ targets, engine.picture.Reaches pair.2 pair.1
  source : ∀ pair ∈ targets, engine.picture.Present pair.1.var
  stands : ∀ pair ∈ targets, engine.picture.Present pair.2.var
  removable : ∀ pair ∈ targets, engine.isRemovable? pair.1.var = some true
  distinct : (targets.map fun pair => pair.1.var).Nodup
  stays : ∀ pair ∈ targets, ∀ other ∈ targets, other.1.var ≠ pair.2.var

/-- Let a literal stand for another one, and the complements likewise. -/
def bend (image : Array (Option Literal)) (pair : Literal × Literal) : Array (Option Literal) :=
  (image.setIfInBounds pair.1.index (some pair.2)).setIfInBounds pair.1.complement.index
    (some pair.2.complement)

/-- What was chosen so far. With a variable all those of its component are dealt
with, and the image follows from the targets. -/
structure Chosen [Realm] (graph : Implications) (engine : Engine) (substitution : Substitution) : Prop where
  targets : Targets engine substitution.targets
  image : substitution.image = substitution.targets.foldl bend
    (Array.replicate (2 * (engine.numVars + 1)) none)
  size : substitution.handled.size = engine.numVars + 1
  handled : ∀ pair ∈ substitution.targets, substitution.handled[pair.1.var]? = some true ∧
    substitution.handled[pair.2.var]? = some true
  closed : ∀ a b : Literal, 0 < a.var → Relation.ReflTransGen graph.Edge a b →
    Relation.ReflTransGen graph.Edge b a → substitution.handled[a.var]? = some true →
    substitution.handled[b.var]? = some true
  represents : ∀ pair ∈ substitution.targets,
    Represents engine.trail.Frozen graph.Edge pair.1 pair.2
  /-- Whatever was dealt with and may go is a target, or stands for itself. -/
  complete : ∀ a : Literal, 0 < a.var → substitution.handled[a.var]? = some true →
    engine.isRemovable? a.var = some true →
    Represents engine.trail.Frozen graph.Edge a a ∨
      ∃ pair ∈ substitution.targets, pair.1.var = a.var

/-- What dealing with members of a component adds. -/
structure Extends (engine : Engine) (representative : Literal) (members : List Literal)
    (substitution after : Substitution) (gone : List Literal) : Prop where
  size : after.handled.size = substitution.handled.size
  handled : ∀ name, after.handled[name]? = some true ↔ substitution.handled[name]? = some true ∨
    (name < substitution.handled.size ∧ ∃ member ∈ members, member.var = name)
  targets : after.targets = substitution.targets ++ gone.map fun member => (member, representative)
  image : after.image = (gone.map fun member => (member, representative)).foldl bend
    substitution.image
  within : gone.Sublist members
  goes : ∀ member ∈ gone, member ≠ representative ∧ engine.isRemovable? member.var = some true
  all : ∀ member ∈ members, member ≠ representative →
    engine.isRemovable? member.var = some true → member ∈ gone

/-- The members of a component get their representative. -/
theorem extends_of_assignMembers? {substitution after : Substitution}
    (assigned : assignMembers? engine representative members substitution = some after) :
    ∃ gone, Extends engine representative members substitution after gone := by
  induction members generalizing substitution with
  | nil =>
    obtain rfl : substitution = after := by simpa [assignMembers?] using assigned
    exact ⟨[], ⟨rfl, by simp, by simp, rfl, .refl _, by simp, by simp⟩⟩
  | cons member rest ih =>
    let marking := { substitution with
      handled := substitution.handled.setIfInBounds member.var true }
    have turn : ((member = representative ∨ engine.isRemovable? member.var = some false) ∧
          assignMembers? engine representative rest marking = some after) ∨
        ((member ≠ representative ∧ engine.isRemovable? member.var = some true) ∧
          assignMembers? engine representative rest { marking with
            image := bend marking.image (member, representative)
            targets := marking.targets ++ [(member, representative)] } = some after) := by
      unfold assignMembers? at assigned
      dsimp only at assigned
      split at assigned
      next same => exact .inl ⟨.inl same, by simpa using assigned⟩
      next different =>
        obtain ⟨goes, removable, others⟩ := Option.bind_eq_some_iff.1 assigned
        cases goes with
        | false => exact .inl ⟨.inr removable, by simpa using others⟩
        | true => exact .inr ⟨⟨different, removable⟩, others⟩
    have marked : ∀ name : Nat, marking.handled[name]? = some true ↔
        substitution.handled[name]? = some true ∨
          (name < substitution.handled.size ∧ member.var = name) := by
      intro name
      rw [Array.getElem?_setIfInBounds]
      split
      next same =>
        subst same
        split <;> simp_all
      next different => simp [different]
    have size : marking.handled.size = substitution.handled.size := Array.size_setIfInBounds
    have handled : (∀ name, after.handled[name]? = some true ↔ marking.handled[name]? = some true ∨
        (name < marking.handled.size ∧ ∃ other ∈ rest, other.var = name)) →
        ∀ name, after.handled[name]? = some true ↔ substitution.handled[name]? = some true ∨
          (name < substitution.handled.size ∧ ∃ other ∈ member :: rest, other.var = name) := by
      intro later name
      rw [later, marked, size]
      simp only [List.mem_cons, exists_eq_or_imp]
      tauto
    rcases turn with ⟨stays, others⟩ | ⟨goes, others⟩
    · obtain ⟨gone, extends_⟩ := ih others
      refine ⟨gone, extends_.size.trans size, handled extends_.handled, extends_.targets,
        extends_.image, extends_.within.cons member, extends_.goes,
        List.forall_mem_cons.2 ⟨fun different removable => ?_, extends_.all⟩⟩
      rw [removable] at stays
      exact absurd stays (by simp [different])
    · obtain ⟨gone, extends_⟩ := ih others
      refine ⟨member :: gone, extends_.size.trans size, handled extends_.handled, ?_,
        extends_.image, extends_.within.cons_cons member, List.forall_mem_cons.2
          ⟨goes, extends_.goes⟩, List.forall_mem_cons.2 ⟨fun _ _ => List.mem_cons_self,
          fun other inRest different removable =>
            List.mem_cons_of_mem _ (extends_.all other inRest different removable)⟩⟩
      rw [extends_.targets]
      simp [marking]

/-- All members of a component are handled. -/
theorem Extends.marked {members gone : List Literal} {substitution after : Substitution}
    (extends_ : Extends engine representative members substitution after gone)
    (inRange : ∀ member ∈ members, member.var < substitution.handled.size) :
    ∀ member ∈ members, after.handled[member.var]? = some true := fun member inside =>
  (extends_.handled member.var).2 (.inr ⟨inRange member inside, member, inside, rfl⟩)

section Extending

variable {substitution after : Substitution} {gone : List Literal}

/-- New targets map members that go to the representative. -/
theorem Extends.mem_targets (extends_ : Extends engine representative members substitution after gone)
    (target : pair ∈ after.targets) :
    pair ∈ substitution.targets ∨ (pair.1 ∈ gone ∧ pair.2 = representative) := by
  rw [extends_.targets] at target
  rcases List.mem_append.1 target with old | added
  · exact .inl old
  · obtain ⟨literal, isGone, rfl⟩ := List.mem_map.1 added
    exact .inr ⟨isGone, rfl⟩

/-- A component that was not dealt with shares no variable with the targets. -/
theorem Chosen.var_ne [Realm] (chosen : Chosen graph engine substitution)
    (fresh : ∀ member ∈ members, substitution.handled[member.var]? ≠ some true)
    (old : pair ∈ substitution.targets) {member : Literal} (inside : member ∈ members) :
    pair.1.var ≠ member.var ∧ pair.2.var ≠ member.var := by
  obtain ⟨first, second⟩ := chosen.handled pair old
  exact ⟨fun same => fresh member inside (same ▸ first),
    fun same => fresh member inside (same ▸ second)⟩

/-- The members that go are targets beside the old ones. -/
theorem Chosen.targets_extend [Realm] (reflects : graph.Reflects engine.picture)
    (chosen : Chosen graph engine substitution) (component : Component graph.Edge members)
    (large : 1 < members.length) (distinct : members.Pairwise fun a b => a.var < b.var)
    (inside : representative ∈ members)
    (fresh : ∀ member ∈ members, substitution.handled[member.var]? ≠ some true)
    (extends_ : Extends engine representative members substitution after gone) :
    Targets engine after.targets := by
  have present : ∀ member ∈ members, engine.picture.Present member.var := fun member inside =>
    present_of_component reflects component large inside
  have vars : (members.map Literal.var).Nodup :=
    List.pairwise_map.2 (distinct.imp fun less => Nat.ne_of_lt less)
  have inMembers : ∀ {literal}, literal ∈ gone → literal ∈ members := fun isGone =>
    extends_.within.subset isGone
  exact {
    there := by
      intro pair target
      rcases extends_.mem_targets target with old | ⟨isGone, isRepresentative⟩
      · exact chosen.targets.there pair old
      · rw [isRepresentative]
        exact reflects.reaches (component.reaches _ (inMembers isGone) _ inside)
    back := by
      intro pair target
      rcases extends_.mem_targets target with old | ⟨isGone, isRepresentative⟩
      · exact chosen.targets.back pair old
      · rw [isRepresentative]
        exact reflects.reaches (component.reaches _ inside _ (inMembers isGone))
    source := by
      intro pair target
      rcases extends_.mem_targets target with old | ⟨isGone, _⟩
      · exact chosen.targets.source pair old
      · exact present _ (inMembers isGone)
    stands := by
      intro pair target
      rcases extends_.mem_targets target with old | ⟨_, isRepresentative⟩
      · exact chosen.targets.stands pair old
      · rw [isRepresentative]
        exact present _ inside
    removable := by
      intro pair target
      rcases extends_.mem_targets target with old | ⟨isGone, _⟩
      · exact chosen.targets.removable pair old
      · exact (extends_.goes _ isGone).2
    distinct := by
      rw [extends_.targets, List.map_append, List.map_map, List.nodup_append]
      refine ⟨chosen.targets.distinct, vars.sublist (extends_.within.map Literal.var), ?_⟩
      intro first old second added sameVar
      obtain ⟨pair, isOld, rfl⟩ := List.mem_map.1 old
      obtain ⟨literal, isGone, rfl⟩ := List.mem_map.1 added
      exact (chosen.var_ne fresh isOld (inMembers isGone)).1 sameVar
    stays := by
      intro pair target other otherTarget
      rcases extends_.mem_targets target with old | ⟨isGone, isRepresentative⟩
      · rcases extends_.mem_targets otherTarget with otherOld | ⟨otherGone, _⟩
        · exact chosen.targets.stays pair old other otherOld
        · exact (chosen.var_ne fresh old (inMembers otherGone)).2.symm
      · rw [isRepresentative]
        rcases extends_.mem_targets otherTarget with otherOld | ⟨otherGone, _⟩
        · exact (chosen.var_ne fresh otherOld inside).1
        · intro sameVar
          exact (extends_.goes _ otherGone).1
            (List.inj_on_of_nodup_map vars (inMembers otherGone) inside sameVar) }

/-- What is equivalent to the complement of a member is the complement of a member. -/
theorem complement_mem_component [Realm] (reflects : graph.Reflects engine.picture)
    (component : Component graph.Edge members) {member other : Literal} (inside : member ∈ members)
    (positive : 0 < member.var) (there : Relation.ReflTransGen graph.Edge member.complement other)
    (back : Relation.ReflTransGen graph.Edge other member.complement) :
    other.complement ∈ members ∧ other.complement.var = other.var := by
  have toMember := reflects.path_contrapose there
  have fromMember := reflects.path_contrapose back
  rw [Literal.complement_complement positive] at toMember fromMember
  refine ⟨component.full member inside _ fromMember toMember, ?_⟩
  by_cases equal : member.complement = other
  · rw [← equal, Literal.complement_complement positive, Literal.var_complement positive]
  · exact Literal.var_complement (reflects.present_of_path there equal).1

/-- With a variable all those of its component are dealt with. -/
theorem Chosen.closed_extend [Realm] (reflects : graph.Reflects engine.picture)
    (chosen : Chosen graph engine substitution) (component : Component graph.Edge members)
    (present : ∀ member ∈ members, engine.picture.Present member.var)
    (extends_ : Extends engine representative members substitution after gone)
    (marked : ∀ member ∈ members, after.handled[member.var]? = some true) {a b : Literal}
    (positive : 0 < a.var) (there : Relation.ReflTransGen graph.Edge a b)
    (back : Relation.ReflTransGen graph.Edge b a) (isHandled : after.handled[a.var]? = some true) :
    after.handled[b.var]? = some true := by
  rcases (extends_.handled a.var).1 isHandled with old | ⟨_, member, inComponent, sameVar⟩
  · exact (extends_.handled b.var).2 (.inl (chosen.closed a b positive there back old))
  · rcases Literal.eq_or_eq_complement (present member inComponent).1 sameVar.symm with rfl | rfl
    · exact marked b (component.full a inComponent b there back)
    · obtain ⟨inside, sameAsB⟩ := complement_mem_component reflects component inComponent
        (present member inComponent).1 there back
      rw [← sameAsB]
      exact marked _ inside

/-- Members that may go and are no targets stand for the component. -/
theorem Chosen.complete_extend [Realm] (reflects : graph.Reflects engine.picture)
    (chosen : Chosen graph engine substitution) (component : Component graph.Edge members)
    (present : ∀ member ∈ members, engine.picture.Present member.var)
    (distinct : members.Pairwise fun a b => a.var < b.var)
    (represents : ∀ member ∈ members,
      Represents engine.trail.Frozen graph.Edge member representative)
    (extends_ : Extends engine representative members substitution after gone) {a : Literal}
    (positive : 0 < a.var) (isHandled : after.handled[a.var]? = some true)
    (removable : engine.isRemovable? a.var = some true) :
    Represents engine.trail.Frozen graph.Edge a a ∨ ∃ pair ∈ after.targets, pair.1.var = a.var := by
  rw [extends_.targets]
  rcases (extends_.handled a.var).1 isHandled with old | ⟨_, member, inComponent, sameVar⟩
  · refine (chosen.complete a positive old removable).imp_right ?_
    rintro ⟨pair, isTarget, same⟩
    exact ⟨pair, List.mem_append_left _ isTarget, same⟩
  by_cases isGone : member ∈ gone
  · exact .inr ⟨(member, representative),
      List.mem_append_right _ (List.mem_map_of_mem isGone), sameVar⟩
  · have stands : member = representative := by_contra fun different =>
      isGone (extends_.all member inComponent different (sameVar ▸ removable))
    have own : Represents engine.trail.Frozen graph.Edge member member := by
      have := represents member inComponent
      rwa [← stands] at this
    have memberPositive := (present member inComponent).1
    rcases Literal.eq_or_eq_complement memberPositive sameVar.symm with rfl | rfl
    · exact .inl own
    · exact .inl (own.complement (skew_of_reflects reflects) memberPositive
        (not_equivalent_complement component (fun other inside => complement_not_mem distinct
          (fun _ inside => (present _ inside).1) inside) inComponent))

/-- Dealing with a component keeps what is known of the choice. -/
theorem Chosen.extend [Realm] (reflects : graph.Reflects engine.picture)
    (chosen : Chosen graph engine substitution) (component : Component graph.Edge members)
    (large : 1 < members.length) (distinct : members.Pairwise fun a b => a.var < b.var)
    (inside : representative ∈ members)
    (represents : ∀ member ∈ members,
      Represents engine.trail.Frozen graph.Edge member representative)
    (fresh : ∀ member ∈ members, substitution.handled[member.var]? ≠ some true)
    (extends_ : Extends engine representative members substitution after gone) :
    Chosen graph engine after := by
  have present : ∀ member ∈ members, engine.picture.Present member.var := fun member inside =>
    present_of_component reflects component large inside
  have marked := extends_.marked fun member inside =>
    chosen.size ▸ Nat.lt_succ_of_le (present member inside).2.1
  have inMembers : ∀ {literal}, literal ∈ gone → literal ∈ members := fun isGone =>
    extends_.within.subset isGone
  exact {
    targets := chosen.targets_extend reflects component large distinct inside fresh extends_
    image := by rw [extends_.image, extends_.targets, List.foldl_append, chosen.image]
    size := extends_.size.trans chosen.size
    handled := by
      intro pair target
      rcases extends_.mem_targets target with old | ⟨isGone, isRepresentative⟩
      · obtain ⟨first, second⟩ := chosen.handled pair old
        exact ⟨(extends_.handled _).2 (.inl first), (extends_.handled _).2 (.inl second)⟩
      · rw [isRepresentative]
        exact ⟨marked _ (inMembers isGone), marked _ inside⟩
    closed := fun a b => chosen.closed_extend reflects component present extends_ marked
    represents := by
      intro pair target
      rcases extends_.mem_targets target with old | ⟨isGone, isRepresentative⟩
      · exact chosen.represents pair old
      · rw [isRepresentative]
        exact represents _ (inMembers isGone)
    complete := fun a => chosen.complete_extend reflects component present distinct represents
      extends_ }

end Extending

/-- A component with a complementary pair refutes the formula. -/
theorem works_refuteBy [Realm] {α : Type} {literal : Literal} {post : α → Engine → Prop}
    (present : engine.picture.Present literal.var)
    (there : engine.picture.Reaches literal literal.complement)
    (back : engine.picture.Reaches literal.complement literal) :
    Works .propagation (do
      Engine.assignUnit literal.complement
      Run.fail .inconsistent) engine post := by
  refine .of_sound fun (sound : engine.Sound) => ?_
  have sameVar := Literal.var_complement present.1
  refine .bind (Engine.works_assignUnit (by rwa [sameVar]) (there.rup_complement present.1))
    fun _ after leads assigns => ?_
  refine .fail rfl (Engine.refuted_of_root assigns.atRoot (by rw [sameVar]; exact present.1) ?_)
  rw [Literal.complement_complement present.1]
  exact back.of_steps (by decide) sound.wellFormed leads.steps

/-- What was dealt with before, and all the given components, were dealt with; none of
them has a complementary pair. -/
structure Deals (substitution : Substitution) (components : List (List Literal))
    (after : Substitution) : Prop where
  earlier : ∀ name : Nat, substitution.handled[name]? = some true → after.handled[name]? = some true
  all : ∀ members ∈ components, ∀ a ∈ members, after.handled[a.var]? = some true
  proper : ∀ members ∈ components, ∀ a ∈ members, a.complement ∉ members

/-- Choosing representatives leaves the formula as it is, or refutes it. -/
theorem works_chooseAll [Realm] {components : List (List Literal)} {substitution : Substitution}
    (reflects : graph.Reflects engine.picture)
    (found : ∀ members ∈ components, 1 < members.length ∧ Component graph.Edge members)
    (chosen : Chosen graph engine substitution) :
    Works .propagation (chooseAll components substitution) engine fun result after =>
      after = engine ∧ Chosen graph engine result ∧ Deals substitution components result := by
  induction components generalizing substitution with
  | nil => exact .pure ⟨rfl, chosen, fun _ => id, by simp, by simp⟩
  | cons component rest ih =>
    obtain ⟨large, isComponent⟩ := found component List.mem_cons_self
    have others := fun members inRest => found members (List.mem_cons_of_mem _ inRest)
    have perm : (sortBy (fun a b => decide (a ≤ b)) component).Perm component := sortBy_perm _
    have ascending := ascending_of_nodup isComponent.nodup
    rw [← perm.length_eq] at large
    replace isComponent := isComponent.of_perm perm
    unfold chooseAll
    dsimp only
    generalize sortBy (fun a b => decide (a ≤ b)) component = members at *
    split
    next literal paired =>
      obtain ⟨inside, other, otherInside, different, sameVar⟩ :=
        mem_of_complementaryPair? ascending paired
      have present := present_of_component reflects isComponent large inside
      obtain rfl : other = literal.complement :=
        (Literal.eq_or_eq_complement present.1 sameVar).resolve_left different
      exact works_refuteBy present
        (reflects.reaches (isComponent.reaches _ inside _ otherInside))
        (reflects.reaches (isComponent.reaches _ otherInside _ inside))
    next unpaired =>
      have distinct := distinct_of_complementaryPair? ascending unpaired
      match members, large with
      | least :: later, large =>
        have present : ∀ member ∈ least :: later, engine.picture.Present member.var :=
          fun member inside => present_of_component reflects isComponent large inside
        have shared : ∀ a ∈ least :: later, ∀ b ∈ least :: later,
            substitution.handled[a.var]? = some true → substitution.handled[b.var]? = some true :=
          fun a inA b inB => chosen.closed a b (present a inA).1 (isComponent.reaches a inA b inB)
            (isComponent.reaches b inB a inA)
        -- Once the component is dealt with, the others are.
        have continue_ : ∀ next : Substitution, Chosen graph engine next →
            (∀ name : Nat, substitution.handled[name]? = some true → next.handled[name]? = some true) →
            (∀ member ∈ least :: later, next.handled[member.var]? = some true) →
            Works .propagation (chooseAll rest next) engine fun result after => after = engine ∧
              Chosen graph engine result ∧ Deals substitution (component :: rest) result := by
          intro next chosenNext earlier marked
          refine (ih others chosenNext).imp fun result after ⟨same, chosenAfter, deals⟩ =>
            ⟨same, chosenAfter, fun name isHandled => deals.earlier name (earlier name isHandled),
              List.forall_mem_cons.2 ⟨fun a inside => ?_, deals.all⟩,
              List.forall_mem_cons.2 ⟨fun a inside opposite => ?_, deals.proper⟩⟩
          · exact deals.earlier _ (marked a (perm.mem_iff.2 inside))
          · exact complement_not_mem distinct (fun member inside => (present member inside).1)
              (perm.mem_iff.2 inside) (perm.mem_iff.2 opposite)
        refine .look .access fun isHandled known => ?_
        split
        next already =>
          refine continue_ substitution chosen (fun _ => id) fun member inside => ?_
          exact shared least List.mem_cons_self member inside (by simpa [already] using known)
        next notHandled =>
          have fresh : ∀ member ∈ least :: later,
              substitution.handled[member.var]? ≠ some true := by
            intro member inside marked
            have all := shared member inside least List.mem_cons_self marked
            rw [known] at all
            exact notHandled (by simpa using all)
          refine .look .read fun frozen looked => ?_
          obtain ⟨inside, represents⟩ := represents_of_chosen isComponent ascending looked
          refine .look .read fun extended assigned => ?_
          obtain ⟨gone, extends_⟩ := extends_of_assignMembers? assigned
          refine continue_ extended
            (chosen.extend reflects isComponent large distinct inside represents fresh extends_)
            (fun name isHandled => (extends_.handled name).2 (.inl isHandled)) ?_
          exact extends_.marked fun member inMembers =>
            chosen.size ▸ Nat.lt_succ_of_le (present member inMembers).2.1

/-- At first every literal stands for itself. -/
theorem chosen_ofVars [Realm] : Chosen graph engine (Substitution.ofVars engine.numVars) where
  targets := ⟨by simp [Substitution.ofVars], by simp [Substitution.ofVars],
    by simp [Substitution.ofVars], by simp [Substitution.ofVars], by simp [Substitution.ofVars],
    by simp [Substitution.ofVars], by simp [Substitution.ofVars]⟩
  image := rfl
  size := by simp [Substitution.ofVars]
  handled := by simp [Substitution.ofVars]
  closed := by
    intro a b _ _ _ isHandled
    simp [Substitution.ofVars, Array.getElem?_replicate] at isHandled
  represents := by simp [Substitution.ofVars]
  complete := by
    intro a _ isHandled
    simp [Substitution.ofVars, Array.getElem?_replicate] at isHandled

/-! ## What the image does -/

/-- A pair bends the image of its own variable only. -/
theorem bend_of_ne {literal : Literal} (present : 0 < pair.1.var)
    (different : pair.1.var ≠ literal.var) :
    (bend image pair)[literal.index]? = image[literal.index]? := by
  have first : pair.1.index ≠ literal.index := fun same =>
    different (congrArg Literal.var (Literal.index_inj.1 same))
  have second : pair.1.complement.index ≠ literal.index := by
    intro same
    refine different ?_
    rw [← Literal.index_inj.1 same, Literal.var_complement present]
  unfold bend
  rw [Array.getElem?_setIfInBounds_ne second, Array.getElem?_setIfInBounds_ne first]

/-- Both literals of the variable are bent. -/
theorem bend_self (present : 0 < pair.1.var) (small : 2 * pair.1.var + 1 < image.size) :
    (bend image pair)[pair.1.index]? = some (some pair.2) ∧
      (bend image pair)[pair.1.complement.index]? = some (some pair.2.complement) := by
  have sameVar := Literal.var_complement present
  have inside : pair.1.index < image.size := by
    unfold Literal.var Literal.index at *
    omega
  have complementInside : pair.1.complement.index < image.size := by
    unfold Literal.var Literal.index at *
    omega
  have different : pair.1.complement.index ≠ pair.1.index := fun same =>
    Literal.complement_ne present (Literal.index_inj.1 same)
  unfold bend
  rw [Array.getElem?_setIfInBounds_ne different]
  simp [inside, complementInside]

/-- Pairs bend the images of their variables only. -/
theorem foldl_bend_of_ne {literal : Literal} (present : ∀ pair ∈ targets, 0 < pair.1.var)
    (different : ∀ pair ∈ targets, pair.1.var ≠ literal.var) :
    (targets.foldl bend image)[literal.index]? = image[literal.index]? := by
  induction targets generalizing image with
  | nil => rfl
  | cons pair rest ih =>
    obtain ⟨presentPair, presentRest⟩ := List.forall_mem_cons.1 present
    obtain ⟨differentPair, differentRest⟩ := List.forall_mem_cons.1 different
    rw [List.foldl_cons, ih presentRest differentRest, bend_of_ne presentPair differentPair]

/-- Every pair bends the images of its variable. -/
theorem foldl_bend_of_mem (present : ∀ pair ∈ targets, 0 < pair.1.var)
    (small : ∀ pair ∈ targets, 2 * pair.1.var + 1 < image.size)
    (distinct : (targets.map fun pair => pair.1.var).Nodup) (member : pair ∈ targets) :
    (targets.foldl bend image)[pair.1.index]? = some (some pair.2) ∧
      (targets.foldl bend image)[pair.1.complement.index]? = some (some pair.2.complement) := by
  induction targets generalizing image with
  | nil => cases member
  | cons first rest ih =>
    obtain ⟨presentFirst, presentRest⟩ := List.forall_mem_cons.1 present
    obtain ⟨smallFirst, smallRest⟩ := List.forall_mem_cons.1 small
    obtain ⟨new, distinctRest⟩ := List.nodup_cons.1 distinct
    rw [List.foldl_cons]
    rcases List.mem_cons.1 member with rfl | later
    · have apart : ∀ other ∈ rest, other.1.var ≠ pair.1.var := by
        intro other inRest same
        exact new (List.mem_map.2 ⟨other, inRest, same⟩)
      rw [foldl_bend_of_ne presentRest apart, foldl_bend_of_ne presentRest fun other inRest => by
        rw [Literal.var_complement presentFirst]
        exact apart other inRest]
      exact bend_self presentFirst smallFirst
    · refine ih presentRest (fun other inRest => ?_) distinctRest later
      unfold bend
      simpa using smallRest other inRest

/-- No target has the variable of a literal. -/
def Spared (targets : List (Literal × Literal)) (literal : Literal) : Prop :=
  ∀ pair ∈ targets, pair.1.var ≠ literal.var

variable {substitution : Substitution} {literal : Literal}

/-- A chosen pair is what the substitution does. -/
theorem Chosen.apply_of_mem [Realm] (chosen : Chosen graph engine substitution)
    (member : pair ∈ substitution.targets) :
    substitution.apply pair.1 = pair.2 ∧
      substitution.apply pair.1.complement = pair.2.complement := by
  have small : ∀ pair ∈ substitution.targets, 2 * pair.1.var + 1 <
      (Array.replicate (2 * (engine.numVars + 1)) (none : Option Literal)).size := by
    intro pair member
    have bound := (chosen.targets.source pair member).2.1
    change pair.1.var ≤ engine.numVars at bound
    rw [Array.size_replicate]
    omega
  obtain ⟨first, second⟩ := foldl_bend_of_mem
    (fun pair member => (chosen.targets.source pair member).1) small chosen.targets.distinct member
  unfold Substitution.apply
  rw [chosen.image, first, second]
  exact ⟨rfl, rfl⟩

/-- Spared literals are left as they are. -/
theorem Chosen.apply_of_spared [Realm] (chosen : Chosen graph engine substitution)
    (spared : Spared substitution.targets literal) : substitution.apply literal = literal := by
  unfold Substitution.apply
  rw [chosen.image, foldl_bend_of_ne
    (fun pair member => (chosen.targets.source pair member).1) spared, Array.getElem?_replicate]
  split <;> rfl

/-- A literal is a target, the complement of one, or stands for itself. -/
theorem Chosen.apply_cases [Realm] (chosen : Chosen graph engine substitution) (literal : Literal) :
    (∃ pair ∈ substitution.targets, literal = pair.1 ∧ substitution.apply literal = pair.2) ∨
    (∃ pair ∈ substitution.targets, literal = pair.1.complement ∧
      substitution.apply literal = pair.2.complement) ∨
    (Spared substitution.targets literal ∧ substitution.apply literal = literal) := by
  by_cases spared : Spared substitution.targets literal
  · exact .inr (.inr ⟨spared, chosen.apply_of_spared spared⟩)
  · unfold Spared at spared
    push Not at spared
    obtain ⟨pair, member, same⟩ := spared
    obtain ⟨first, second⟩ := chosen.apply_of_mem member
    rcases Literal.eq_or_eq_complement (chosen.targets.source pair member).1 same.symm
      with rfl | rfl
    · exact .inl ⟨pair, member, rfl, first⟩
    · exact .inr (.inl ⟨pair, member, rfl, second⟩)

/-- A literal implies the one that stands for it. -/
theorem Chosen.reaches_apply [Realm] (chosen : Chosen graph engine substitution) (literal : Literal) :
    engine.picture.Reaches literal (substitution.apply literal) := by
  rcases chosen.apply_cases literal with ⟨pair, member, rfl, same⟩ | ⟨pair, member, rfl, same⟩ |
    ⟨_, same⟩
  · rw [same]
    exact chosen.targets.there pair member
  · rw [same]
    exact (chosen.targets.back pair member).contrapose
  · rw [same]

/-- Images are spared. -/
theorem Chosen.spared_apply [Realm] (chosen : Chosen graph engine substitution) (literal : Literal) :
    Spared substitution.targets (substitution.apply literal) := by
  rcases chosen.apply_cases literal with ⟨pair, member, _, same⟩ | ⟨pair, member, _, same⟩ |
    ⟨spared, same⟩
  · rw [same]
    exact chosen.targets.stays pair member
  · rw [same]
    intro other otherMember
    rw [Literal.var_complement (chosen.targets.stands pair member).1]
    exact chosen.targets.stays pair member other otherMember
  · rw [same]
    exact spared

/-- Images of literals are over the same variables. -/
theorem Chosen.present_apply [Realm] (chosen : Chosen graph engine substitution)
    (present : engine.picture.Present literal.var) :
    engine.picture.Present (substitution.apply literal).var := by
  rcases chosen.apply_cases literal with ⟨pair, member, _, same⟩ | ⟨pair, member, _, same⟩ |
    ⟨_, same⟩
  · rw [same]
    exact chosen.targets.stands pair member
  · have stands := chosen.targets.stands pair member
    rw [same, Literal.var_complement stands.1]
    exact stands
  · rwa [same]

/-- Where targets have the value of their representatives, literals have the value
of their images. -/
theorem Chosen.holds_apply [Realm] (chosen : Chosen graph engine substitution)
    (equal : ∀ pair ∈ substitution.targets, pair.1.Holds values ↔ pair.2.Holds values) :
    (substitution.apply literal).Holds values ↔ literal.Holds values := by
  rcases chosen.apply_cases literal with ⟨pair, member, rfl, same⟩ | ⟨pair, member, rfl, same⟩ |
    ⟨_, same⟩
  · rw [same]
    exact (equal pair member).symm
  · rw [same, Literal.holds_complement (chosen.targets.stands pair member).1,
      Literal.holds_complement (chosen.targets.source pair member).1]
    exact not_congr (equal pair member).symm
  · rw [same]

/-! ## Adding the images -/

variable {base middle after : Engine} {allowed : Literal → Prop}

/-- The image of a clause follows by unit propagation. -/
theorem Chosen.rup_image [Realm] {clause : Clause} {handle : Handle} {scope : Scope}
    (chosen : Chosen graph base substitution) (sound : base.Sound) (narrow : scope ≠ .removal)
    (leads : base.Leads scope engine) (live : engine.arena.live? handle = some clause) :
    Rup engine.picture.formula (clause.literals.map substitution.apply) := by
  have inFormula : clause.literals ∈ engine.picture.formula := .inl (Arena.contents_of_live live)
  -- Either the complements of all literals follow, and the clause is falsified, or
  -- there is a conflict on the way.
  by_cases conflict : Conflicts engine.picture.formula
      (negations (clause.literals.map substitution.apply))
  · exact conflict
  · refine ⟨clause.literals, inFormula, fun literal member => ?_⟩
    have reaches := ((chosen.reaches_apply literal).of_steps narrow sound.wellFormed
      leads.steps).contrapose
    have assumed : Propagates engine.picture.formula
        (negations (clause.literals.map substitution.apply))
        (substitution.apply literal).complement :=
      .assumption (mem_negations (List.mem_map_of_mem member))
    exact (reaches.propagates assumed).resolve_right conflict

/-- A duplicate is a live clause with the literals. -/
theorem live_of_duplicate? {literals : List Literal} {twin : Handle}
    (found : duplicate? engine literals = some (some twin)) :
    ∃ clause, engine.arena.live? twin = some clause ∧ clause.literals = literals := by
  unfold duplicate? at found
  obtain ⟨counts, _, chosen⟩ := Option.bind_eq_some_iff.1 found
  split at chosen
  next => simp at chosen
  next literal =>
    obtain ⟨handles, _, search⟩ := Option.bind_eq_some_iff.1 chosen
    have matched := List.find?_some (by simpa using search : handles.toList.find? _ = some twin)
    split at matched
    next clause live => exact ⟨clause, live, eq_of_beq matched⟩
    next => cases matched

/-- The image of a clause that was there from the start is added. -/
theorem Chosen.works_addImage [Realm] {original copy : Clause} {handle : Handle}
    (chosen : Chosen graph base substitution) (sound : base.Sound)
    (leads : base.Leads .propagation engine)
    (liveBase : base.arena.live? handle = some original)
    (live : engine.arena.live? handle = some copy) (same : copy.literals = original.literals) :
    Works .propagation
      (Engine.addClause (sortedLiterals (copy.literals.map substitution.apply)) copy.isRedundant)
      engine fun _ stored => Engine.Adds engine (Spared substitution.targets) stored ∧
        Engine.Covered stored (copy.literals.map substitution.apply) := by
  have present : ∀ literal ∈ sortedLiterals (copy.literals.map substitution.apply),
      engine.picture.Present literal.var := by
    intro literal member
    obtain ⟨source, inside, rfl⟩ := List.mem_map.1 (mem_sortedLiterals.1 member)
    refine Steps.present leads.steps (by decide) (chosen.present_apply ?_)
    exact (sound.wellFormed.admits _ (Arena.contents_of_live liveBase)).present source (same ▸ inside)
  have follows : Rup engine.picture.formula
      (sortedLiterals (copy.literals.map substitution.apply)) :=
    (chosen.rup_image sound (by decide) leads live).weaken
      fun literal member => mem_sortedLiterals.2 member
  have own : engine.arena.Irredundant → copy.isRedundant = false := by
    intro pure
    obtain ⟨found, alive⟩ := Arena.live?_eq_some.1 live
    obtain ⟨_, atSlot⟩ := Arena.get?_eq_some.1 found
    exact pure _ copy atSlot alive
  have allowed : ∀ literal ∈ sortedLiterals (copy.literals.map substitution.apply),
      Spared substitution.targets literal := by
    intro literal member
    obtain ⟨source, _, rfl⟩ := List.mem_map.1 (mem_sortedLiterals.1 member)
    exact chosen.spared_apply source
  refine (Engine.works_addClause present follows own).imp fun _ stored ⟨grows, covered⟩ =>
    ⟨.of_grows (grows.mono allowed), ?_⟩
  rcases covered with tautology | ⟨part, clause, small⟩
  · rw [sortedLiterals_of_pairwise (pairwise_sortedLiterals _)] at tautology
    exact .inl tautology
  · exact .inr ⟨part, clause, fun literal member => mem_sortedLiterals.1 (small member)⟩

/-- All images are added, those excepted that hold anyway. -/
theorem works_addImages [Realm] {handles : List Handle} (chosen : Chosen graph base substitution)
    (sound : base.Sound)
    (listed : ∀ handle ∈ handles, ∃ clause, base.arena.live? handle = some clause)
    (leads : base.Leads .propagation state.2)
    (adds : Engine.Adds base (Spared substitution.targets) state.2) :
    Works .propagation (addImages substitution handles) state fun _ after =>
      Engine.Adds state.2 (Spared substitution.targets) after.2 ∧ ∀ handle ∈ handles, ∀ clause,
        base.arena.live? handle = some clause →
        Engine.Covered after.2 (clause.literals.map substitution.apply) := by
  induction handles generalizing state with
  | nil => exact .pure ⟨.refl, by simp⟩
  | cons handle rest ih =>
    obtain ⟨original, liveBase⟩ := listed handle List.mem_cons_self
    obtain ⟨copy, live, sameLiterals⟩ := adds.older handle original liveBase
    have listedRest := fun other inRest => listed other (List.mem_cons_of_mem _ inRest)
    -- What is left once the image of the first clause is covered.
    have continue_ : ∀ next : Tool Unit × Engine, state.2.Leads .propagation next.2 →
        Engine.Adds state.2 (Spared substitution.targets) next.2 →
        Engine.Covered next.2 (copy.literals.map substitution.apply) →
        Works .propagation (addImages substitution rest) next fun _ after =>
          Engine.Adds state.2 (Spared substitution.targets) after.2 ∧ ∀ other ∈ handle :: rest, ∀ clause,
            base.arena.live? other = some clause →
            Engine.Covered after.2 (clause.literals.map substitution.apply) := by
      intro next leadsNext addsNext covered
      have others := ih listedRest (leads.trans leadsNext) (adds.trans addsNext)
      refine others.leads.imp fun _ after ⟨leadsAfter, addsAfter, coveredRest⟩ => ?_
      refine ⟨addsNext.trans addsAfter, List.forall_mem_cons.2 ⟨fun clause liveClause => ?_,
        coveredRest⟩⟩
      rw [liveBase] at liveClause
      cases liveClause
      rw [← sameLiterals]
      exact covered.of_adds addsAfter leadsNext.inStep leadsAfter
    obtain ⟨found, alive⟩ := Arena.live?_eq_some.1 live
    unfold addImages
    refine .look Engine.looks_clause.lift fun clause known => ?_
    obtain rfl : copy = clause := by
      rw [found] at known
      exact Option.some.inj known
    refine .bind Work.works_spend ?_
    rintro _ ⟨tool, _⟩ _ ⟨rfl, _⟩
    refine .of_sound fun (soundNow : state.2.Sound) => ?_
    dsimp only
    split
    next tautology => exact continue_ (tool, state.2) (.refl soundNow) .refl (.inl tautology)
    next plain =>
    refine .look .read fun twin searched => ?_
    split
    next twin =>
      obtain ⟨twinClause, liveTwin, sameTwin⟩ := live_of_duplicate? searched
      have covered : Engine.Covered state.2 (copy.literals.map substitution.apply) := by
        refine .inr ⟨twinClause.literals, .inl (Arena.contents_of_live liveTwin), ?_⟩
        rw [sameTwin]
        exact fun literal member => mem_sortedLiterals.1 member
      refine .look Engine.looks_clause.lift fun other _ => ?_
      split
      next =>
        refine .bind (Works.lift (Engine.works_makeIrredundant liveTwin)) fun _ marked
          leadsMarked ⟨_, sameClauses, trail, _⟩ => ?_
        have addsMarked : Engine.Adds state.2 (Spared substitution.targets) marked.2 :=
          .of_sameClauses sameClauses trail
        exact continue_ marked leadsMarked addsMarked
          (covered.of_adds addsMarked soundNow.toInStep leadsMarked)
      next => exact continue_ (tool, state.2) (.refl soundNow) .refl covered
    next =>
      refine .bind (Works.lift (chosen.works_addImage sound leads liveBase live sameLiterals))
        fun _ stored leadsStored ⟨_, addsStored, covered⟩ => ?_
      exact continue_ stored leadsStored addsStored covered

/-! ## Records of a substitution -/

/-- The two records that give a variable the value of its representative. -/
def recordsOf (pair : Literal × Literal) : List Record :=
  [Record.ofClause pair.1 [pair.1, pair.2.complement],
    Record.ofClause pair.1.complement [pair.1.complement, pair.2]]

theorem chosen_of_recordsOf (present : 0 < pair.1.var) {record : Record}
    (member : record ∈ recordsOf pair) : record.chosen.var = pair.1.var := by
  rcases List.mem_cons.1 member with rfl | last
  · rfl
  · rw [List.mem_singleton.1 last]
    exact Literal.var_complement present

/-- The records of a pair are about its two variables. -/
theorem var_of_recordsOf (source : 0 < pair.1.var) (stands : 0 < pair.2.var) {record : Record}
    (member : record ∈ recordsOf pair) {literal : Literal} (inside : literal ∈ record.literals) :
    literal.var = pair.1.var ∨ literal.var = pair.2.var := by
  rcases List.mem_cons.1 member with rfl | last
  · rw [Record.mem_ofClause List.mem_cons_self] at inside
    rcases List.mem_cons.1 inside with rfl | last
    · exact .inl rfl
    · rw [List.mem_singleton.1 last]
      exact .inr (Literal.var_complement stands)
  · rw [List.mem_singleton.1 last, Record.mem_ofClause List.mem_cons_self] at inside
    rcases List.mem_cons.1 inside with rfl | last
    · exact .inl (Literal.var_complement source)
    · rw [List.mem_singleton.1 last]
      exact .inr rfl

theorem clauseHolds_pair {a b : Literal} :
    ClauseHolds values [a, b] ↔ a.Holds values ∨ b.Holds values := by
  simp [ClauseHolds]

/-- The records make a literal equal to its representative. -/
theorem holds_unwind_recordsOf (source : 0 < pair.1.var) (stands : 0 < pair.2.var)
    (different : pair.1.var ≠ pair.2.var) (values : Assignment) :
    pair.1.Holds (unwind (recordsOf pair) values) ↔
      pair.2.Holds (unwind (recordsOf pair) values) := by
  let first := Record.ofClause pair.1 [pair.1, pair.2.complement]
  let second := Record.ofClause pair.1.complement [pair.1.complement, pair.2]
  have secondHolds : ClauseHolds (second.repair values) [pair.1.complement, pair.2] :=
    (Record.clauseHolds_ofClause List.mem_cons_self).1 (second.clauseHolds_repair values)
  have firstHolds : ClauseHolds (first.repair (second.repair values))
      [pair.1, pair.2.complement] :=
    (Record.clauseHolds_ofClause List.mem_cons_self).1 (first.clauseHolds_repair _)
  change pair.1.Holds (first.repair (second.repair values)) ↔
    pair.2.Holds (first.repair (second.repair values))
  have sameStands : pair.2.Holds (first.repair (second.repair values)) ↔
      pair.2.Holds (second.repair values) := by
    unfold Literal.Holds
    rw [Record.repair_of_ne different]
  rw [clauseHolds_pair, Literal.holds_complement source] at secondHolds
  rw [clauseHolds_pair, Literal.holds_complement stands] at firstHolds
  constructor
  · intro holds
    by_cases already : ClauseHolds (second.repair values) first.literals
    · have unchanged : first.repair (second.repair values) = second.repair values := if_pos already
      rw [unchanged] at holds ⊢
      exact secondHolds.resolve_left (not_not_intro holds)
    · have falsified := fun holds => already ((Record.clauseHolds_ofClause List.mem_cons_self).2 holds)
      rw [clauseHolds_pair, Literal.holds_complement stands] at falsified
      exact sameStands.2 (by_contra fun not => falsified (.inr not))
  · exact fun holds => firstHolds.resolve_right (not_not_intro holds)

/-- All records together make all targets equal to their representatives. -/
theorem holds_unwind_targets (source : ∀ pair ∈ targets, 0 < pair.1.var)
    (stands : ∀ pair ∈ targets, 0 < pair.2.var)
    (distinct : (targets.map fun pair => pair.1.var).Nodup)
    (stays : ∀ pair ∈ targets, ∀ other ∈ targets, other.1.var ≠ pair.2.var) (values : Assignment) :
    ∀ pair ∈ targets,
      (pair.1.Holds (unwind (targets.flatMap recordsOf) values) ↔
        pair.2.Holds (unwind (targets.flatMap recordsOf) values)) := by
  induction targets with
  | nil => simp
  | cons first rest ih =>
    obtain ⟨sourceFirst, sourceRest⟩ := List.forall_mem_cons.1 source
    obtain ⟨standsFirst, standsRest⟩ := List.forall_mem_cons.1 stands
    obtain ⟨new, distinctRest⟩ := List.nodup_cons.1 distinct
    have restEqual := ih sourceRest standsRest distinctRest fun pair inRest other otherInRest =>
      stays pair (List.mem_cons_of_mem _ inRest) other (List.mem_cons_of_mem _ otherInRest)
    rw [List.flatMap_cons, unwind_append]
    refine List.forall_mem_cons.2 ⟨?_, fun pair inRest => ?_⟩
    · exact holds_unwind_recordsOf sourceFirst standsFirst
        (stays first List.mem_cons_self first List.mem_cons_self) _
    · -- The first pair's records do not touch the other pairs.
      have untouched : ∀ literal : Literal, first.1.var ≠ literal.var →
          (literal.Holds (unwind (recordsOf first) (unwind (rest.flatMap recordsOf) values)) ↔
            literal.Holds (unwind (rest.flatMap recordsOf) values)) := by
        intro literal apart
        unfold Literal.Holds
        rw [unwind_of_not_chosen fun record member => by
          rw [chosen_of_recordsOf sourceFirst member]
          exact apart]
      rw [untouched pair.1 fun same => new (List.mem_map.2 ⟨pair, inRest, same.symm⟩),
        untouched pair.2 (stays pair (List.mem_cons_of_mem _ inRest) first List.mem_cons_self)]
      exact restEqual pair inRest

/-- The records of a substitution leave spared literals alone. -/
theorem holds_unwind_of_spared {literal : Literal} (source : ∀ pair ∈ targets, 0 < pair.1.var)
    (spared : Spared targets literal) :
    literal.Holds (unwind (targets.flatMap recordsOf) values) ↔ literal.Holds values := by
  unfold Literal.Holds
  rw [unwind_of_not_chosen fun record member => ?_]
  obtain ⟨pair, inTargets, own⟩ := List.mem_flatMap.1 member
  rw [chosen_of_recordsOf (source pair inTargets) own]
  exact spared pair inTargets

/-! ## Replacing the clauses -/

/-- The clauses that were gathered are those with a target or its complement. -/
theorem affected_looks (inStep : engine.InStep) (source : ∀ pair ∈ targets, 0 < pair.1.var) :
    (affected targets).Looks engine fun handles => ∀ handle clause,
      engine.arena.live? handle = some clause →
      (handle ∈ handles ↔ ∃ literal ∈ clause.literals, ¬ Spared targets literal) := by
  induction targets with
  | nil => exact .of_done rfl (by simp [Spared])
  | cons pair rest ih =>
    obtain ⟨sourcePair, sourceRest⟩ := List.forall_mem_cons.1 source
    unfold affected
    refine Engine.looks_occurrences.bind ?_
    rintro _ ⟨same, listSame, rfl⟩
    refine Engine.looks_occurrences.bind ?_
    rintro _ ⟨opposite, listOpposite, rfl⟩
    refine (ih sourceRest).bind fun others known => ?_
    refine .pure ⟨rfl, fun handle clause live => ?_⟩
    have mem_iff : ∀ {literal : Literal} {handles : Array Handle},
        engine.index.list? literal = some handles →
        (handle ∈ handles.toList ↔ literal ∈ clause.literals) := fun list =>
      ⟨fun member => inStep.listed.sound _ _ list handle member clause live,
        fun member => inStep.listed.mem_of_live live member list⟩
    rw [List.mem_append, List.mem_append, mem_iff listSame, mem_iff listOpposite,
      known handle clause live]
    constructor
    · rintro ((isTarget | isComplement) | ⟨literal, member, notSpared⟩)
      · exact ⟨pair.1, isTarget, fun spared => spared pair List.mem_cons_self rfl⟩
      · refine ⟨pair.1.complement, isComplement, fun spared => ?_⟩
        exact spared pair List.mem_cons_self (Literal.var_complement sourcePair).symm
      · exact ⟨literal, member, fun spared => notSpared fun other inRest =>
          spared other (List.mem_cons_of_mem _ inRest)⟩
    · rintro ⟨literal, member, notSpared⟩
      by_cases own : pair.1.var = literal.var
      · rcases Literal.eq_or_eq_complement sourcePair own.symm with rfl | rfl
        · exact .inl (.inl member)
        · exact .inl (.inr member)
      · exact .inr ⟨literal, member, fun spared => notSpared
          (List.forall_mem_cons.2 ⟨own, spared⟩)⟩

/-- A literal is retired with two records. -/
theorem retire_ends (inStep : engine.InStep) {failed : Error → Engine → Prop} :
    (retire pair.1 pair.2).Ends engine
      (fun _ after => engine.Takes [] (recordsOf pair) [pair.1.var] after ∧
        after.trail.Substituted pair.1.var) failed := by
  unfold retire
  let recorded := { engine with records := engine.records.pushAll (recordsOf pair) }
  have pushed : (engine.records.push pair.1 [pair.1, pair.2.complement]).push pair.1.complement
      [pair.1.complement, pair.2] = engine.records.pushAll (recordsOf pair) := by
    rw [Reconstruction.push_eq_pushAll, Reconstruction.push_eq_pushAll,
      ← Reconstruction.pushAll_append]
    rfl
  have takes : engine.Takes [] (recordsOf pair) [] recorded := .of_records inStep _
  refine .step rfl (.step rfl ?_)
  dsimp only
  rw [pushed]
  change (do
    Engine.handle (.substituted pair.1.var)
    Engine.count fun tally => { tally with substituted := tally.substituted + 1 }).Ends
      recorded _ _
  refine (Engine.handle_removed_ends takes.inStep (.inr rfl)).bind
    fun _ middle ⟨removed, _, substituted⟩ => ?_
  exact .of_done rfl ⟨(takes.trans removed).then_same rfl rfl rfl rfl rfl rfl rfl rfl rfl,
    substituted rfl⟩

/-- All pairs are retired. -/
theorem retireAll_ends (inStep : engine.InStep)
    (distinct : (targets.map fun pair => pair.1.var).Nodup) {failed : Error → Engine → Prop} :
    (targets.forM fun (literal, representative) => retire literal representative).Ends engine
      (fun _ after => engine.Takes [] (targets.flatMap recordsOf)
          (targets.map fun pair : Literal × Literal => pair.1.var) after ∧
        ∀ pair ∈ targets, after.trail.Substituted pair.1.var) failed := by
  induction targets generalizing engine with
  | nil => exact .pure ⟨.refl inStep, by simp⟩
  | cons pair rest ih =>
    obtain ⟨new, distinctRest⟩ := List.nodup_cons.1 distinct
    refine (retire_ends inStep).bind fun _ middle ⟨first, substituted⟩ => ?_
    refine (ih first.inStep distinctRest).imp ?_ fun _ _ failed => failed
    rintro _ after ⟨others, substitutedRest⟩
    refine ⟨by simpa using first.trans others, List.forall_mem_cons.2 ⟨?_, substitutedRest⟩⟩
    exact (Trail.substituted_congr (others.others _ new)).2 substituted

/-- The clauses with targets went after their images had come, and the targets with
them. -/
structure Replaces [Realm] (substitution : Substitution) (base engine : Engine)
    (handles : List Handle) (gone : List (List Literal)) (after : Engine) : Prop where
  adds : Engine.Adds base (Spared substitution.targets) engine
  affected : ∀ handle clause, base.arena.live? handle = some clause →
    (handle ∈ handles ↔ ∃ literal ∈ clause.literals, ¬ Spared substitution.targets literal)
  covered : ∀ handle ∈ handles, ∀ clause, base.arena.live? handle = some clause →
    Engine.Covered engine (clause.literals.map substitution.apply)
  listed : ∀ handle ∈ handles, ∃ clause, base.arena.live? handle = some clause
  own : ∀ literals ∈ gone, ∃ handle ∈ handles, ∃ clause,
    engine.arena.live? handle = some clause ∧ clause.literals = literals
  dead : ∀ handle ∈ handles, after.arena.live? handle = none
  takes : engine.Takes gone (substitution.targets.flatMap recordsOf)
    (substitution.targets.map fun pair => pair.1.var) after

namespace Replaces

variable [Realm] {handles : List Handle} {gone : List (List Literal)} {literals : List Literal}

/-- A clause that went has a target, and an image that is there. -/
theorem covered_of_gone (replaces : Replaces substitution base engine handles gone after)
    (sound : base.Sound) (isGone : literals ∈ gone) :
    (∃ literal ∈ literals, ¬ Spared substitution.targets literal) ∧
      (∀ literal ∈ literals, base.picture.Present literal.var) ∧
      Engine.Covered engine (literals.map substitution.apply) := by
  obtain ⟨handle, member, copy, live, rfl⟩ := replaces.own literals isGone
  obtain ⟨clause, liveBase⟩ := replaces.listed handle member
  obtain ⟨again, liveAgain, same⟩ := replaces.adds.older handle clause liveBase
  obtain rfl : again = copy := by
    rw [live] at liveAgain
    exact (Option.some.inj liveAgain).symm
  rw [same]
  exact ⟨(replaces.affected handle clause liveBase).1 member,
    (sound.wellFormed.admits _ (Arena.contents_of_live liveBase)).present,
    replaces.covered handle member clause liveBase⟩

/-- Root literals are spared. -/
theorem spared_of_root (replaces : Replaces substitution base engine handles gone after)
    (chosen : Chosen graph base substitution) (atRoot : literal ∈ engine.trail.facts) :
    Spared substitution.targets literal := by
  rcases replaces.adds.root literal atRoot with old | spared
  · intro pair member
    have removable := Engine.removable_of_isRemovable? (chosen.targets.removable pair member)
    exact (removable.isOpen literal old).symm
  · exact spared

/-- What is left is spared. -/
theorem spared_of_clause (replaces : Replaces substitution base engine handles gone after)
    (clause : literals ∈ after.arena.contents) (member : literal ∈ literals) :
    Spared substitution.targets literal := by
  obtain ⟨slot, copy, atSlot, alive, rfl⟩ := Arena.mem_contents.1 clause
  have live := Arena.live?_handleAt replaces.takes.inStep.space.le atSlot alive
  rcases replaces.adds.newer _ copy (replaces.takes.older _ copy live)
    with ⟨original, liveBase, same⟩ | spared
  · by_contra notSpared
    have isAffected := (replaces.affected _ original liveBase).2 ⟨literal, same ▸ member, notSpared⟩
    rw [replaces.dead _ isAffected] at live
    cases live
  · exact spared literal member

/-- No target is left in the formula. -/
theorem spared (replaces : Replaces substitution base engine handles gone after)
    (chosen : Chosen graph base substitution) (clause : literals ∈ after.picture.formula)
    (member : literal ∈ literals) : Spared substitution.targets literal := by
  rcases clause with clause | ⟨unit, atRoot, rfl⟩
  · exact replaces.spared_of_clause clause member
  · rw [List.mem_singleton.1 member]
    have sameRoot : after.trail.facts = engine.trail.facts := replaces.takes.root
    exact replaces.spared_of_root chosen (sameRoot ▸ atRoot)

/-- The records bring back a model of what was there, redundant clauses included. -/
theorem holds_unwind (replaces : Replaces substitution base engine handles gone after)
    (chosen : Chosen graph base substitution) (sound : base.Sound) {values : Assignment}
    (holds : Picture.Holds { engine.picture with clauses := after.arena.contents } values) :
    engine.picture.Holds (unwind (substitution.targets.flatMap recordsOf) values) := by
  have source := fun pair member => (chosen.targets.source pair member).1
  have stands := fun pair member => (chosen.targets.stands pair member).1
  have equal := holds_unwind_targets source stands chosen.targets.distinct chosen.targets.stays
    values
  have stays : ∀ literals ∈ engine.picture.formula, literals ∉ gone →
      ClauseHolds (unwind (substitution.targets.flatMap recordsOf) values) literals := by
    rintro literals (clause | ⟨unit, atRoot, rfl⟩) notGone
    · rw [show engine.picture.clauses = _ from replaces.takes.contents] at clause
      have kept := (Multiset.mem_add.1 clause).resolve_left notGone
      obtain ⟨literal, member, literalHolds⟩ := holds literals (.inl kept)
      have spared := replaces.spared_of_clause kept member
      exact ⟨literal, member, (holds_unwind_of_spared source spared).2 literalHolds⟩
    · obtain ⟨literal, member, literalHolds⟩ := holds [unit] (.inr ⟨unit, atRoot, rfl⟩)
      obtain rfl := List.mem_singleton.1 member
      exact ⟨literal, member, (holds_unwind_of_spared source
        (replaces.spared_of_root chosen atRoot)).2 literalHolds⟩
  intro literals clause
  by_cases isGone : literals ∈ gone
  · obtain ⟨_, present, isCovered⟩ := replaces.covered_of_gone sound isGone
    -- The image holds, and targets have the value of their images.
    have image : ClauseHolds (unwind (substitution.targets.flatMap recordsOf) values)
        (literals.map substitution.apply) := by
      refine isCovered.clauseHolds (fun literal member => ?_) fun part inFormula small => ?_
      · obtain ⟨origin, inside, rfl⟩ := List.mem_map.1 member
        exact (chosen.present_apply (present origin inside)).1
      · refine stays part inFormula fun partGone => ?_
        obtain ⟨⟨literal, member, notSpared⟩, _⟩ := replaces.covered_of_gone sound partGone
        obtain ⟨origin, _, rfl⟩ := List.mem_map.1 (small member)
        exact notSpared (chosen.spared_apply origin)
    obtain ⟨_, member, imageHolds⟩ := image
    obtain ⟨origin, inside, rfl⟩ := List.mem_map.1 member
    exact ⟨origin, inside, (chosen.holds_apply equal).1 imageHolds⟩
  · exact stays literals clause isGone

/-- Adding images and removing the old clauses is a removal. -/
theorem leads (replaces : Replaces substitution base engine handles gone after)
    (chosen : Chosen graph base substitution) (sound : base.Sound) :
    engine.Leads .removal after := by
  have source := fun pair member => (chosen.targets.source pair member).1
  have stands := fun pair member => (chosen.targets.stands pair member).1
  have removable : ∀ pair ∈ substitution.targets, base.Removable pair.1.var := fun pair member =>
    Engine.removable_of_isRemovable? (chosen.targets.removable pair member)
  have unprotected : ∀ pair ∈ substitution.targets, ¬ engine.trail.Frozen pair.1.var := by
    intro pair member
    rw [replaces.adds.flags.frozen]
    exact (removable pair member).unprotected
  have notRemoved : ∀ pair ∈ substitution.targets, ¬ engine.trail.Removed pair.1.var := by
    intro pair member
    rw [replaces.adds.flags.removed]
    exact (removable pair member).kept
  refine replaces.takes.leads ?_ ?_ (fun _ values holds => replaces.holds_unwind chosen sound holds)
    chosen.targets.distinct (List.forall_mem_map.2 source)
    (List.forall_mem_map.2 notRemoved) ?_
  · intro record member literal inRecord
    obtain ⟨pair, inTargets, own⟩ := List.mem_flatMap.1 member
    refine Engine.present_of_sameFlags replaces.adds.flags ?_
    rcases var_of_recordsOf (source pair inTargets) (stands pair inTargets) own inRecord
      with same | same
    · rw [same]
      exact chosen.targets.source pair inTargets
    · rw [same]
      exact chosen.targets.stands pair inTargets
  · intro record member
    obtain ⟨pair, inTargets, own⟩ := List.mem_flatMap.1 member
    rw [chosen_of_recordsOf (source pair inTargets) own]
    exact unprotected pair inTargets
  · intro name member
    obtain ⟨pair, inTargets, rfl⟩ := List.mem_map.1 member
    exact ⟨unprotected pair inTargets, fun literals clause literal inside =>
      (replaces.spared chosen clause inside pair inTargets).symm⟩

end Replaces

/-- Some literals gave way to others: the formula says the same of an assignment as it
said before of the one in which they have the values of the others. -/
structure Substitutes (targets : List (Literal × Literal)) (before after : Engine) : Prop where
  records : after.records = before.records.pushAll (targets.flatMap recordsOf)
  holds_iff : ∀ values, after.picture.Holds values ↔
    before.picture.Holds (unwind (targets.flatMap recordsOf) values)
  substituted : ∀ name, after.trail.Substituted name ↔
    (∃ pair ∈ targets, pair.1.var = name) ∨ before.trail.Substituted name

namespace Substitutes

theorem refl : Substitutes [] engine engine := ⟨rfl, fun _ => Iff.rfl, by simp⟩

/-- Applying root literals afterwards changes nothing of this. -/
theorem then_propagated [Realm] (substitutes : Substitutes targets base middle)
    (sound : middle.Sound) (leads : middle.Leads .propagation after) :
    Substitutes targets base after where
  records := (leads.retains (by decide)).records.trans substitutes.records
  holds_iff values := by
    rw [← substitutes.holds_iff]
    exact ⟨Steps.back leads.steps (by decide), Steps.holds leads.steps sound.wellFormed⟩
  substituted name := by
    rw [← substitutes.substituted]
    exact Trail.substituted_congr ((leads.retains (by decide)).flags.flags name)

end Substitutes

/-- Replacing all clauses with targets by their images works. -/
theorem works_substitute [Realm] (chosen : Chosen graph state.2 substitution) :
    Works .removal (substitute substitution) state fun _ after =>
      Substitutes substitution.targets state.2 after.2 := by
  refine .of_sound fun (sound : state.2.Sound) => ?_
  have source := fun pair member => (chosen.targets.source pair member).1
  unfold substitute
  refine .look (affected_looks sound.toInStep source).lift fun found affected => ?_
  refine .look Engine.looks_look.lift ?_
  rintro _ rfl
  dsimp only
  generalize collected : dropRepeats (sortBy Handle.le (found.filter fun handle =>
    (state.2.arena.live? handle).isSome)) = handles
  have mem_handles : ∀ handle, handle ∈ handles ↔
      handle ∈ found ∧ ∃ clause, state.2.arena.live? handle = some clause := by
    intro handle
    rw [← collected, mem_dropRepeats, mem_sortBy, List.mem_filter, Option.isSome_iff_exists]
  have listed := fun handle member => ((mem_handles handle).1 member).2
  have added := works_addImages chosen sound listed (.refl sound) .refl
  intro _
  refine .bind ((added sound).imp (fun _ _ => id) fun _ _ fails => fails.widen) ?_
  rintro _ images ⟨leads, adds, covered⟩
  rw [forM_lift, forM_lift]
  refine .bind (Run.Ends.lift (Engine.removeAllLive_ends handles leads.inStep)) ?_
  rintro _ removed ⟨_, gone, takes, dead, own, _⟩
  refine (Run.Ends.lift (retireAll_ends takes.inStep chosen.targets.distinct)).imp ?_
    fun _ _ fails => fails
  rintro _ after ⟨_, retired, substituted⟩
  have replaces : Replaces substitution state.2 images.2 handles gone after.2 := by
    refine ⟨adds, fun handle clause live => ?_, covered, listed, own,
      fun handle member => retired.dead (dead handle member), by simpa using takes.trans retired⟩
    rw [← affected handle clause live, mem_handles]
    exact and_iff_left ⟨clause, live⟩
  have both := leads.widen.trans (replaces.leads chosen sound)
  refine ⟨both, ?_, fun values => ⟨fun holds => ?_, fun holds => ?_⟩, fun name => ?_⟩
  · have sameRecords : images.2.records = state.2.records := (leads.retains (by decide)).records
    rw [replaces.takes.pushed, sameRecords]
  · refine Steps.back leads.steps (by decide) (replaces.holds_unwind chosen sound ?_)
    rintro literals (clause | ⟨unit, atRoot, rfl⟩)
    · exact holds literals (.inl clause)
    · have stays : unit ∈ after.2.picture.root := by
        rw [show after.2.picture.root = images.2.trail.facts from replaces.takes.root]
        exact atRoot
      exact holds _ (.inr ⟨unit, stays, rfl⟩)
  · intro literals clause
    obtain ⟨literal, member, isTrue⟩ := Steps.holds both.steps sound.wellFormed holds literals clause
    exact ⟨literal, member,
      (holds_unwind_of_spared source (replaces.spared chosen clause member)).1 isTrue⟩
  · by_cases isTarget : ∃ pair ∈ substitution.targets, pair.1.var = name
    · obtain ⟨pair, member, rfl⟩ := isTarget
      exact iff_of_true (substituted pair member) (.inl ⟨pair, member, rfl⟩)
    · have absent : name ∉ substitution.targets.map fun pair => pair.1.var := by
        simpa using isTarget
      rw [or_iff_right isTarget, Trail.substituted_congr (replaces.takes.others name absent)]
      exact Trail.substituted_congr (adds.flags.flags name)

/-- Components are found within the budget. -/
theorem works_findComponents [Realm] {scope : Scope} :
    Works scope (findComponents graph) state fun found after => after.2 = state.2 ∧
      ∀ components, found = some components → graph.Components components := by
  intro sound
  obtain ⟨tool, engine⟩ := state
  have ends : (graph.components engine.interrupted).Ends tool.budget _ _ :=
    Implications.components_ends
  unfold Run.Ends at ends ⊢
  unfold findComponents
  dsimp only
  split at ends
  next found budget ended =>
    rw [ended]
    exact ⟨.refl sound, rfl, ends⟩
  next cause budget ended => exact ends.elim
  next why ended =>
    rw [ended]
    trivial

/-- The literals of a graph that give way, each with the one that stands for it. -/
structure Gives (graph : Implications) (engine : Engine) (targets : List (Literal × Literal)) :
    Prop where
  source : ∀ pair ∈ targets, 0 < pair.1.var
  stands : ∀ pair ∈ targets, 0 < pair.2.var
  inRange : ∀ pair ∈ targets, pair.1.var ≤ engine.numVars ∧ pair.2.var ≤ engine.numVars
  distinct : (targets.map fun pair => pair.1.var).Nodup
  stays : ∀ pair ∈ targets, ∀ other ∈ targets, other.1.var ≠ pair.2.var
  removable : ∀ pair ∈ targets, engine.isRemovable? pair.1.var = some true
  represents : ∀ pair ∈ targets, Represents engine.trail.Frozen graph.Edge pair.1 pair.2
  complete : ∀ a b, a ≠ b → Equivalent graph.Edge a b → engine.isRemovable? a.var = some true →
    Represents engine.trail.Frozen graph.Edge a a ∨ ∃ pair ∈ targets, pair.1.var = a.var
  proper : ∀ a b, a ≠ b → Equivalent graph.Edge a b →
    ∀ other, Equivalent graph.Edge a other → ¬ Equivalent graph.Edge a other.complement

/-- Where there is no edge none gives way. -/
theorem gives_nil (none : ∀ a b, ¬ graph.Edge a b) : Gives graph engine [] := by
  have alone : ∀ a b, a ≠ b → ¬ Equivalent graph.Edge a b := by
    rintro a b different ⟨there, _⟩
    rcases Relation.ReflTransGen.cases_head there with same | ⟨target, edge, _⟩
    · exact different same
    · exact none a target edge
  constructor
  case complete => exact fun a b different equivalent => absurd equivalent (alone a b different)
  case proper => exact fun a b different equivalent => absurd equivalent (alone a b different)
  all_goals simp

/-- The targets that were chosen for all components. -/
theorem Chosen.gives [Realm] {components : List (List Literal)} {start : Substitution}
    (chosen : Chosen graph engine substitution) (reflects : graph.Reflects engine.picture)
    (found : graph.Components components) (deals : Deals start components substitution) :
    Gives graph engine substitution.targets where
  source pair member := (chosen.targets.source pair member).1
  stands pair member := (chosen.targets.stands pair member).1
  inRange pair member :=
    ⟨(chosen.targets.source pair member).2.1, (chosen.targets.stands pair member).2.1⟩
  distinct := chosen.targets.distinct
  stays := chosen.targets.stays
  removable := chosen.targets.removable
  represents := chosen.represents
  complete a b different equivalent removable := by
    have present := reflects.present_of_path equivalent.2 different.symm
    obtain ⟨members, isFound, inside⟩ := found.complete a b present.1
      (reflects.numVars ▸ present.2.1) different equivalent
    exact chosen.complete a present.1 (deals.all members isFound a inside) removable
  proper a b different equivalent := by
    have present := reflects.present_of_path equivalent.2 different.symm
    obtain ⟨members, isFound, inside⟩ := found.complete a b present.1
      (reflects.numVars ▸ present.2.1) different equivalent
    exact not_equivalent_complement (found.component members isFound) (deals.proper members isFound)
      inside

/-- What a run of the substitution comes to. Once the root literals are applied, either
the search for components is given up, or all literals that may go give way. -/
def Runs (state after : Tool Unit × Engine) : Prop :=
  ∃ applied graph built, Engine.propagateUnits state.2 = .done () applied ∧
    Engine.implications applied = .done graph built ∧
    ((graph.numEdges ≠ 0 ∧ ∃ later, findComponents graph (state.1, built) = .done none later) ∨
      ∃ targets, Gives graph built targets ∧ Substitutes targets built after.2)

/-- Substituting all equivalent literals works. -/
theorem works_run [Realm] : Works .removal run state fun _ after => Runs state after := by
  unfold run
  refine .bind (Works.lift (Engine.works_propagateUnits.and_ends .self)) ?_
  rintro _ ⟨_, applied⟩ _ ⟨rfl, _, isApplied⟩
  refine .bind (Works.lift (Engine.works_implications.and_ends
    (Engine.implications_ends.and .self))) ?_
  rintro graph ⟨_, built⟩ _ ⟨rfl, ⟨_, reflects, _⟩, ⟨_, pairs, _, edges, _, _, count⟩, isBuilt⟩
  -- How the run ends depends on what was found in this graph.
  have ends : ∀ {after : Tool Unit × Engine},
      ((graph.numEdges ≠ 0 ∧ ∃ later, findComponents graph (state.1, built) = .done none later) ∨
        ∃ targets, Gives graph built targets ∧ Substitutes targets built after.2) →
      Runs state after := fun how => ⟨applied, graph, built, isApplied, isBuilt, how⟩
  dsimp only
  split
  next isEmpty =>
    refine .pure (ends (.inr ⟨[], gives_nil fun a b edge => ?_, .refl⟩))
    have nothing : pairs = [] := List.length_eq_zero_iff.1 (by omega)
    simp [edges, nothing] at edge
  next hasEdges =>
  refine .bind (works_findComponents.and_ends .self) ?_
  rintro found ⟨tool, _⟩ _ ⟨⟨rfl, areComponents⟩, searched⟩
  split
  next => exact .pure (ends (.inl ⟨hasEdges, _, searched⟩))
  next components =>
  refine .look Engine.looks_look.lift ?_
  rintro _ rfl
  have found := areComponents components rfl
  refine .bind (Works.lift (Works.widen (works_chooseAll reflects
    (fun members inside => ⟨found.large members inside, found.component members inside⟩)
    chosen_ofVars))) ?_
  rintro substitution ⟨tool, _⟩ _ ⟨_, rfl, chosen, deals⟩
  have gives := chosen.gives reflects found deals
  split
  next none =>
    rw [List.isEmpty_iff.1 none] at gives
    exact .pure (ends (.inr ⟨[], gives, .refl⟩))
  next =>
    refine .bind (works_substitute chosen) fun _ replaced _ substitutes => ?_
    refine .of_sound fun (sound : replaced.2.Sound) => ?_
    have propagates : Works .propagation Engine.propagateUnits replaced.2 _ :=
      Engine.works_propagateUnits.leads
    refine (Works.widen (Works.lift propagates)).imp fun _ after ⟨_, leads, _⟩ => ?_
    exact ends (.inr ⟨_, gives, substitutes.then_propagated sound leads⟩)

/-- A run of the substitution comes to a conclusion. -/
theorem process_ends [Realm] (sound : state.2.Sound) :
    process.Ends state (fun status after => state.2.Concludes .removal status after.2)
      fun _ _ => False :=
  Work.process_ends sound fun _ => works_run.imp fun _ _ _ => trivial

end CnfSimplifier.Equivalence
