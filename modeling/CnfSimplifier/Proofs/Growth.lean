import CnfSimplifier.Proofs.ComposedTechniques
import CnfSimplifier.Proofs.Safety

/-!
# How many clauses are added

The formula grows when clauses are stored. What is kept track of here is how many
clauses a computation adds on balance and how long they are: `Arena.GrowsBy` for any
computation, and `Engine.OnlyAdds` for one that adds clauses and takes none away. From a
list of different live clauses each removal takes one off the balance.
-/
namespace CnfSimplifier

/-- A length is within a limit. There is none if it is zero. -/
def WithinLimit (limit : UInt64) (length : Nat) : Prop := limit ≠ 0 → length ≤ limit.toNat

/-- A shorter clause is within the limit too. -/
theorem WithinLimit.mono {limit : UInt64} {length shorter : Nat} (within : WithinLimit limit length)
    (short : shorter ≤ length) : WithinLimit limit shorter := fun limited =>
  short.trans (within limited)

/-- What is not too long is within the limit. -/
theorem Settings.withinLimit {settings : Settings} {length : Nat}
    (fits : settings.tooLong length = false) (small : length < UInt64.size) :
    WithinLimit settings.resolventLength length := by
  intro limited
  unfold tooLong at fits
  have notLess : ¬ settings.resolventLength < UInt64.ofNat length := by simpa [limited] using fits
  rw [UInt64.lt_iff_toNat_lt, UInt64.toNat_ofNat_of_lt' small] at notLess
  omega

/-- Sorting makes a clause no longer. -/
theorem length_sortedLiterals_le (literals : List Literal) :
    (sortedLiterals literals).length ≤ literals.length := by
  have nodup : (sortedLiterals literals).Nodup := by
    refine (pairwise_sortedLiterals literals).imp fun {a b} below => ?_
    rintro rfl
    exact UInt32.lt_irrefl a.code below
  exact (List.subperm_of_subset nodup fun _ => mem_sortedLiterals.1).length_le

/-! ## Arenas -/

namespace Arena

variable {limit : UInt64} {count more : Nat} {arena middle after : Arena} {handle : Handle}
  {clause : Clause} {handles : List Handle}

/-- On balance no more than a number of clauses were added. Every clause was there
before, no shorter, or is within the limit. -/
structure GrowsBy (limit : UInt64) (count : Nat) (arena after : Arena) : Prop where
  older : ∀ handle clause, after.get? handle = some clause →
    (∃ old, arena.get? handle = some old ∧ clause.size ≤ old.size) ∨ WithinLimit limit clause.size
  few : after.contents.card ≤ arena.contents.card + count
  space : arena.slots.size < UInt32.size → after.slots.size < UInt32.size

theorem Shrinks.grows (shrinks : arena.Shrinks after) : arena.GrowsBy limit 0 after :=
  ⟨fun handle clause found => .inl (shrinks.older handle clause found), shrinks.fewer,
    fun space => shrinks.slots ▸ space⟩

theorem GrowsBy.refl : arena.GrowsBy limit 0 arena := (Shrinks.refl arena).grows

/-- Growth adds up. -/
theorem GrowsBy.trans (first : arena.GrowsBy limit count middle) (second : middle.GrowsBy limit more after) :
    arena.GrowsBy limit (count + more) after := by
  refine ⟨fun handle clause found => ?_, by have := first.few; have := second.few; omega,
    fun space => second.space (first.space space)⟩
  rcases second.older handle clause found with ⟨between, foundBetween, shorter⟩ | within
  · rcases first.older handle between foundBetween with ⟨old, foundOld, short⟩ | within
    · exact .inl ⟨old, foundOld, shorter.trans short⟩
    · exact .inr (within.mono shorter)
  · exact .inr within

theorem GrowsBy.mono (grows : arena.GrowsBy limit count after) (small : count ≤ more) :
    arena.GrowsBy limit more after := ⟨grows.older, grows.few.trans (by omega), grows.space⟩

/-- There are as many contents as live clauses. -/
theorem card_contents_eq_length (arena : Arena) : arena.contents.card = arena.liveClauses.length := by
  rw [contents_eq_liveClauses, Multiset.coe_card, List.length_map]

/-- The clauses of before are still there, none of them gone or changed. -/
def Keeps (arena after : Arena) : Prop :=
  ∀ handle clause, arena.get? handle = some clause → ∃ copy, after.get? handle = some copy ∧
    copy.literals = clause.literals ∧ copy.isDead = clause.isDead

theorem Keeps.refl (arena : Arena) : arena.Keeps arena :=
  fun _ clause found => ⟨clause, found, rfl, rfl⟩

/-- What is kept twice is kept. -/
theorem Keeps.trans (first : arena.Keeps middle) (second : middle.Keeps after) :
    arena.Keeps after := by
  intro handle clause found
  obtain ⟨between, foundBetween, literals, dead⟩ := first handle clause found
  obtain ⟨copy, foundAfter, again, same⟩ := second handle between foundBetween
  exact ⟨copy, foundAfter, again.trans literals, same.trans dead⟩

/-- The same clauses are kept. -/
theorem SameClauses.keeps (same : SameClauses arena after) : arena.Keeps after := by
  intro handle clause found
  obtain ⟨current, inSlot⟩ := get?_eq_some.1 found
  obtain ⟨copy, foundAfter, literals, dead, _⟩ := same.slot_back inSlot
  exact ⟨copy, get?_eq_some.2 ⟨current.trans same.epoch.symm, foundAfter⟩, literals, dead⟩

/-- A new clause is put behind the others. -/
theorem keeps_insert (literals : List Literal) (redundant : Bool) :
    arena.Keeps (arena.insert literals redundant).2 := by
  intro handle clause found
  obtain ⟨current, inSlot⟩ := get?_eq_some.1 found
  have inside := (Array.getElem?_eq_some_iff.1 inSlot).1
  refine ⟨clause, get?_eq_some.2 ⟨current, ?_⟩, rfl, rfl⟩
  change (arena.slots.push _)[handle.index]? = some clause
  rw [Array.getElem?_push_lt inside, ← Array.getElem?_eq_getElem inside, inSlot]

/-- An arena grows by a clause that is inserted. -/
theorem growsBy_insert {literals : List Literal} (redundant : Bool)
    (within : WithinLimit limit literals.length) (room : arena.slots.size + 1 < UInt32.size) :
    arena.GrowsBy limit 1 (arena.insert literals redundant).2 := by
  refine ⟨fun handle clause found => ?_, ?_, fun _ => ?_⟩
  · obtain ⟨current, inSlot⟩ := get?_eq_some.1 found
    change (arena.slots.push _)[handle.index]? = some clause at inSlot
    rw [Array.getElem?_push] at inSlot
    split at inSlot
    · cases inSlot
      exact .inr (within.mono (length_sortedLiterals_le literals))
    · exact .inl ⟨clause, get?_eq_some.2 ⟨current, inSlot⟩, le_rfl⟩
  · unfold contents
    change (((arena.slots.push (Clause.ofLiterals literals redundant)).toList.map
      Clause.content).sum).card ≤ _
    rw [Array.toList_push, List.map_append, List.sum_append, Multiset.card_add]
    exact Nat.le_refl _
  · change (arena.slots.push _).size < UInt32.size
    rwa [Array.size_push]

/-- The handles of a list are different, and each names a live clause. -/
structure Distinct (arena : Arena) (handles : List Handle) : Prop where
  nodup : handles.Nodup
  live : ∀ handle ∈ handles, ∃ clause, arena.live? handle = some clause

/-- The order of handles does not matter. -/
theorem Distinct.of_perm {handles others : List Handle} (distinct : arena.Distinct handles)
    (perm : others.Perm handles) : arena.Distinct others :=
  ⟨perm.nodup_iff.2 distinct.nodup, fun handle member => distinct.live handle (perm.mem_iff.1 member)⟩

/-- Fewer handles are distinct, too. -/
theorem Distinct.of_sublist {handles others : List Handle} (distinct : arena.Distinct handles)
    (fewer : others.Sublist handles) : arena.Distinct others :=
  ⟨distinct.nodup.sublist fewer, fun handle member => distinct.live handle (fewer.subset member)⟩

/-- Distinct handles stay so as long as clauses are kept. -/
theorem Distinct.of_keeps (distinct : arena.Distinct handles) (keeps : arena.Keeps after) :
    after.Distinct handles := by
  refine ⟨distinct.nodup, fun handle member => ?_⟩
  obtain ⟨clause, live⟩ := distinct.live handle member
  obtain ⟨found, alive⟩ := live?_eq_some.1 live
  obtain ⟨copy, foundAfter, _, dead⟩ := keeps handle clause found
  exact ⟨copy, live?_eq_some.2 ⟨foundAfter, dead.trans alive⟩⟩

/-- Other clauses are not affected by what happens to one. -/
theorem Distinct.of_others (distinct : arena.Distinct (handle :: handles))
    (others : ∀ other, other ≠ handle → after.get? other = arena.get? other) :
    after.Distinct handles := by
  refine ⟨distinct.nodup.of_cons, fun other member => ?_⟩
  obtain ⟨clause, live⟩ := distinct.live other (List.mem_cons_of_mem _ member)
  have different : other ≠ handle := fun same =>
    (List.nodup_cons.1 distinct.nodup).1 (same ▸ member)
  exact ⟨clause, by rw [live?, others other different]; exact live⟩

/-- There are no more different clauses than slots. -/
theorem Distinct.length_le (distinct : arena.Distinct handles)
    (space : arena.slots.size ≤ UInt32.size) : handles.length ≤ arena.slots.size := by
  obtain ⟨rest, split, _⟩ := exists_without space distinct.nodup distinct.live
  have counted := congrArg Multiset.card split
  rw [card_contents_eq_length, Multiset.card_add, Multiset.coe_card, List.length_map] at counted
  have below : arena.liveClauses.length ≤ arena.slots.size := by
    rw [← Array.length_toList]
    exact List.length_filter_le _ _
  omega

end Arena

/-! ## The engine -/

/-- An assignment at the root, accepted or refused, leaves the marks of the variables. -/
theorem Trail.assignAtRoot_sameFlags (literal : Literal) (trail : Trail) :
    (assignAtRoot literal).Ends trail (fun _ after => trail.SameFlags after)
      fun _ after => trail.SameFlags after := by
  have unassigned : ∀ (literals : List Literal) {trail after : Trail},
      trail.unassign literals = some after → trail.SameFlags after := by
    intro literals
    induction literals with
    | nil =>
      rintro trail after ⟨⟩
      exact .refl _
    | cons literal rest ih =>
      intro trail after unassigns
      obtain ⟨middle, changed, further⟩ := Option.bind_eq_some_iff.1 unassigns
      obtain ⟨isMiddle, _⟩ := vars_modify? changed
      have vars : middle.vars = trail.vars.modify literal.var fun state =>
          { state with value := none } := by rw [isMiddle]
      have same : trail.SameFlags middle :=
        sameFlags_modify vars (fun _ => rfl) (by rw [isMiddle]) (by rw [isMiddle])
      exact same.trans (ih further)
  unfold assignAtRoot
  refine .seq (.update fun cancelled closes => .step rfl ?_)
  have same : trail.SameFlags cancelled := by
    unfold cancelUntil at closes
    split at closes
    · cases closes
      exact .refl _
    · obtain ⟨middle, unassigns, closed⟩ := Option.bind_eq_some_iff.1 closes
      cases closed
      obtain ⟨size, flags, eliminated, substituted⟩ := unassigned _ unassigns
      exact ⟨size, flags, eliminated, substituted⟩
  split
  · exact .fail same
  refine Run.Looks.access.bind fun value _ => ?_
  split
  · exact .update fun after pushed => same.trans (sameFlags_push pushed)
  · split
    · exact .pure same
    · exact .fail same

namespace Engine

variable {limit : UInt64} {count more : Nat} {engine before middle after : Engine}
  {handle : Handle} {clause : Clause} {literal : Literal}

/-- Clauses went or became shorter, and no variable was eliminated. -/
structure Wanes (before after : Engine) : Prop where
  arena : before.arena.Shrinks after.arena
  settings : after.settings = before.settings
  flags : before.trail.SameFlags after.trail

theorem Wanes.refl (engine : Engine) : engine.Wanes engine := ⟨.refl _, rfl, .refl _⟩

theorem Wanes.trans (first : before.Wanes middle) (second : middle.Wanes after) :
    before.Wanes after :=
  ⟨first.arena.trans second.arena, second.settings.trans first.settings,
    first.flags.trans second.flags⟩

theorem Wanes.of_aside (arena : after.arena = before.arena) (trail : after.trail = before.trail)
    (settings : after.settings = before.settings) : before.Wanes after :=
  ⟨arena ▸ .refl _, settings, trail ▸ .refl _⟩

/-- Fewer clauses are a waning. -/
theorem Wanes.of_shrinks {arena : Arena} (shrinks : engine.arena.Shrinks arena) :
    engine.Wanes { engine with arena := arena } := ⟨shrinks, rfl, .refl _⟩

/-- An assignment takes no clause. -/
theorem Wanes.assigns (engine : Engine) (literal : Literal) :
    (Trail.assignAtRoot literal).Ends engine.trail
      (fun _ trail => engine.Wanes { engine with trail := trail })
      fun _ trail => engine.Wanes { engine with trail := trail } :=
  (Trail.assignAtRoot_sameFlags literal engine.trail).imp
    (fun _ _ same => ⟨.refl _, rfl, same⟩) fun _ _ same => ⟨.refl _, rfl, same⟩

instance : TolerantOfMarks Wanes := .of_shrinks .refl .trans .of_aside .of_shrinks Wanes.assigns

/-- On balance no more than a number of clauses were added, by whatever came between. -/
structure GrowsBy (limit : UInt64) (count : Nat) (before after : Engine) : Prop where
  arena : before.arena.GrowsBy limit count after.arena
  settings : after.settings = before.settings

theorem GrowsBy.trans (first : before.GrowsBy limit count middle)
    (second : middle.GrowsBy limit more after) : before.GrowsBy limit (count + more) after :=
  ⟨first.arena.trans second.arena, second.settings.trans first.settings⟩

theorem GrowsBy.mono (grows : before.GrowsBy limit count after) (small : count ≤ more) :
    before.GrowsBy limit more after := ⟨grows.arena.mono small, grows.settings⟩

/-- What wanes grows by nothing. -/
theorem Wanes.grows (wanes : before.Wanes after) : before.GrowsBy limit 0 after :=
  ⟨wanes.arena.grows, wanes.settings⟩

/-- Growth may come after a waning. -/
theorem Wanes.trans_grows (first : before.Wanes middle) (second : middle.GrowsBy limit count after) :
    before.GrowsBy limit count after := by
  simpa using first.grows.trans second

/-- A waning may come after growth. -/
theorem GrowsBy.wanes (grows : before.GrowsBy limit count middle) (wanes : middle.Wanes after) :
    before.GrowsBy limit count after := grows.trans wanes.grows

/-- Clauses were added, each within the limit, by whatever came between. -/
def Enlarges (limit : UInt64) (before after : Engine) : Prop :=
  ∃ count, before.GrowsBy limit count after

/-- Growth enlarges. -/
theorem GrowsBy.enlarges (grows : before.GrowsBy limit count after) : before.Enlarges limit after :=
  ⟨count, grows⟩

theorem Enlarges.trans (first : before.Enlarges limit middle) (second : middle.Enlarges limit after) :
    before.Enlarges limit after := by
  obtain ⟨count, grows⟩ := first
  obtain ⟨more, further⟩ := second
  exact ⟨count + more, grows.trans further⟩

/-- A waning may follow. -/
theorem Enlarges.wanes (enlarges : before.Enlarges limit middle) (wanes : middle.Wanes after) :
    before.Enlarges limit after := enlarges.trans wanes.grows.enlarges

theorem Wanes.enlarges (wanes : before.Wanes after) : before.Enlarges limit after :=
  wanes.grows.enlarges

theorem Enlarges.settings (enlarges : before.Enlarges limit after) :
    after.settings = before.settings := by
  obtain ⟨_, grows⟩ := enlarges
  exact grows.settings

/-- There is still room for handles. -/
theorem Enlarges.space (enlarges : before.Enlarges limit after)
    (space : before.arena.slots.size < UInt32.size) : after.arena.slots.size < UInt32.size := by
  obtain ⟨_, grows⟩ := enlarges
  exact grows.arena.space space

instance : TolerantOfMarks (Enlarges limit) :=
  .of_shrinks (fun engine => (Wanes.refl engine).enlarges) (fun first second => first.trans second)
    (fun arena trail settings => (Wanes.of_aside arena trail settings).enlarges)
    (fun shrinks => (Wanes.of_shrinks shrinks).enlarges) fun engine literal =>
      (Wanes.assigns engine literal).imp (fun _ _ wanes => wanes.enlarges)
        fun _ _ wanes => wanes.enlarges

/-- No more than a number of clauses were added, and none was taken away or changed. -/
structure OnlyAdds (limit : UInt64) (count : Nat) (before after : Engine) : Prop
    extends GrowsBy limit count before after where
  keeps : before.arena.Keeps after.arena
  flags : before.trail.SameFlags after.trail

theorem OnlyAdds.trans (first : before.OnlyAdds limit count middle)
    (second : middle.OnlyAdds limit more after) : before.OnlyAdds limit (count + more) after :=
  ⟨first.toGrowsBy.trans second.toGrowsBy, first.keeps.trans second.keeps,
    first.flags.trans second.flags⟩

theorem OnlyAdds.mono (gains : before.OnlyAdds limit count after) (small : count ≤ more) :
    before.OnlyAdds limit more after := ⟨gains.toGrowsBy.mono small, gains.keeps, gains.flags⟩

/-- The same clauses add nothing. -/
theorem OnlyAdds.of_sameClauses (same : before.arena.SameClauses after.arena)
    (settings : after.settings = before.settings) (trail : after.trail = before.trail) :
    before.OnlyAdds limit 0 after :=
  ⟨⟨same.shrinks.grows, settings⟩, same.keeps, trail ▸ .refl _⟩

theorem OnlyAdds.refl (engine : Engine) : engine.OnlyAdds limit 0 engine :=
  .of_sameClauses (.refl _) rfl rfl

/-- Marks other than those for dead and redundant clauses change nothing. -/
theorem markClause_onlyAdds {change : ClauseFlags → ClauseFlags}
    (dead : ∀ flags, (change flags).dead = flags.dead)
    (redundant : ∀ flags, (change flags).redundant = flags.redundant)
    {failed : Error → Engine → Prop} :
    (markClause handle change).Ends engine (fun _ after => engine.OnlyAdds limit 0 after)
      failed := by
  cases marked : engine.arena.mark handle change with
  | none => exact .of_done (markClause_of_none marked) (.refl _)
  | some arena =>
    exact .of_done (markClause_of_mark marked)
      (.of_sameClauses (Arena.sameClauses_mark dead redundant marked) rfl rfl)

/-- A clause within the limit is one clause more. -/
theorem insertClause_onlyAdds {literals : List Literal} {redundant : Bool}
    (within : WithinLimit limit literals.length) {failed : Error → Engine → Prop} :
    (insertClause literals redundant).Ends engine (fun _ after => engine.OnlyAdds limit 1 after)
      failed := by
  by_cases room : engine.arena.slots.size + 1 < UInt32.size
  · have inserted : insertClause literals redundant engine = .done
        (engine.arena.insert literals redundant).1
        { engine with arena := (engine.arena.insert literals redundant).2 } := if_pos room
    exact .of_done inserted
      ⟨⟨Arena.growsBy_insert redundant within room, rfl⟩, Arena.keeps_insert _ _, .refl _⟩
  · exact .of_stuck (if_neg room)

/-- A clause that follows is stored, unless there is no need to. -/
theorem addClause_onlyAdds {literals : List Literal} {redundant : Bool}
    (within : WithinLimit limit literals.length) :
    (addClause literals redundant).Ends engine (fun _ after => engine.OnlyAdds limit 1 after)
      fun _ after => engine.Wanes after := by
  have unchanged : engine.OnlyAdds limit 1 engine := (OnlyAdds.refl engine).mono (by omega)
  unfold addClause storeClause
  refine .step rfl ?_
  split
  · exact .fail (.refl engine)
  dsimp only
  split
  · exact .pure unchanged
  refine Run.Looks.access.bind fun satisfied _ => ?_
  split
  · exact .pure unchanged
  refine Run.Looks.access.bind fun remaining opened => ?_
  match remaining, opened with
  | [], _ => exact .fail (.refl engine)
  | [unit], _ =>
    refine .bind ((assignUnit_keepsFiles.and ((Upheld.assignUnit : Tracks Wanes _) engine)).imp
      (fun _ _ => id) fun _ _ => And.right) fun _ after kept => ?_
    obtain ⟨⟨arena, _⟩, wanes⟩ := kept
    refine .pure ⟨⟨?_, wanes.settings⟩, ?_, wanes.flags⟩
    · rw [arena]
      exact unchanged.arena
    · rw [arena]
      exact .refl _
  | first :: second :: rest, opened =>
    have short : WithinLimit limit (first :: second :: rest).length :=
      within.mono ((openLiterals?_spec opened).1.length_le.trans (length_sortedLiterals_le literals))
    dsimp only
    rw [if_pos (Bool.true_or _)]
    refine .step rfl (.bind (insertClause_onlyAdds short) fun handle after adds => ?_)
    refine looks_clause.bind fun stored _ => ?_
    exact .seq (updateIndex_ends fun index _ => .step rfl (.pure
      ⟨⟨adds.arena, adds.settings⟩, adds.keeps, adds.flags⟩))

/-- A removed clause is one less, and the others stay. -/
theorem removeClause_takes (live : engine.arena.live? handle = some clause) :
    (removeClause handle).Ends engine
      (fun _ after => engine.Wanes after ∧
        after.arena.contents.card + 1 = engine.arena.contents.card ∧
        ∀ other, other ≠ handle → after.arena.get? other = engine.arena.get? other)
      fun _ after => engine.Wanes after := by
  obtain ⟨found, alive⟩ := Arena.live?_eq_some.1 live
  have takes : (removeClause handle).Ends engine
      (fun _ after => after.arena.contents.card + 1 = engine.arena.contents.card ∧
        ∀ other, other ≠ handle → after.arena.get? other = engine.arena.get? other)
      fun _ _ => True := by
    unfold removeClause
    refine looks_clause.bind fun removed _ => .step rfl ?_
    refine .seq (updateIndex_ends fun index _ => .seq (updateArena_ends fun arena gone => ?_))
    obtain ⟨slots, epoch, _⟩ := Arena.slots_remove found gone
    refine .of_done rfl ⟨?_, fun other different => ?_⟩
    · have exchanged := congrArg Multiset.card
        (Arena.contents_setSlot (Arena.get?_eq_some.1 found).2 slots)
      rw [Multiset.card_add, Multiset.card_add, Clause.content_of_live alive,
        Clause.content_of_dead rfl] at exchanged
      exact exchanged
    · exact Arena.get?_of_slots found slots epoch different
  exact (((UpheldByRemovals.removeClause : Tracks Wanes _) engine).and takes).imp (fun _ _ => id) fun _ _ => And.left

/-- A clause is taken away, and no other. -/
theorem removeWithRecord_takes (live : engine.arena.live? handle = some clause) :
    (removeWithRecord handle literal).Ends engine
      (fun _ after => engine.Wanes after ∧
        after.arena.contents.card + 1 = engine.arena.contents.card ∧
        ∀ other, other ≠ handle → after.arena.get? other = engine.arena.get? other)
      fun _ after => engine.Wanes after := by
  unfold removeWithRecord
  refine looks_clause.bind fun removed _ => ?_
  split
  · exact removeClause_takes live
  · refine .step rfl (.imp (removeClause_takes (by exact live)) ?_ fun _ _ wanes =>
      ⟨wanes.arena, wanes.settings, wanes.flags⟩)
    rintro _ after ⟨wanes, rest⟩
    exact ⟨⟨wanes.arena, wanes.settings, wanes.flags⟩, rest⟩

end Engine

end CnfSimplifier
