import CnfSimplifier.Proofs.IdleTools
import CnfSimplifier.Proofs.Safety

/-!
# Giving up all clauses

A simplifier that is standing with idle tools can always give up its clauses and
close the gaps that they leave: every clause is listed where it is to be taken out,
and no list holds a handle that is stale. Afterwards no slot of the arena is taken.
-/
namespace CnfSimplifier

/-! ## Lists of handles -/

namespace Relocation

variable {relocation : Relocation}

/-- A list without stale handles is carried over. -/
theorem exists_carry {handles : List Handle}
    (current : ∀ handle ∈ handles, handle.epoch = relocation.fromEpoch) :
    ∃ carried, relocation.carry handles = some carried := by
  induction handles with
  | nil => exact ⟨[], rfl⟩
  | cons handle rest ih =>
    obtain ⟨carried, carries⟩ := ih fun other member => current other (List.mem_cons_of_mem _ member)
    have fresh := current handle List.mem_cons_self
    unfold carry
    cases fate : relocation.fate handle with
    | moved new => exact ⟨new :: carried, by simp [carries]⟩
    | reclaimed => exact ⟨carried, carries⟩
    | stale =>
      unfold Relocation.fate at fate
      rw [if_pos fresh] at fate
      split at fate
      · split at fate <;> cases fate
      · cases fate

end Relocation

namespace Occurrences

variable {index : Occurrences}

/-- Lists of current handles can be carried over. -/
theorem exists_carryEntries {relocation : Relocation} {entries : List Occurrence}
    (current : ∀ entry ∈ entries, ∀ handle ∈ entry.handles.toList,
      handle.epoch = relocation.fromEpoch) :
    ∃ carried, carryEntries relocation entries = some carried := by
  induction entries with
  | nil => exact ⟨[], rfl⟩
  | cons entry rest ih =>
    obtain ⟨first, others⟩ := List.forall_mem_cons.1 current
    obtain ⟨handles, carried⟩ := Relocation.exists_carry first
    obtain ⟨after, carries⟩ := ih others
    refine ⟨{ entry with handles := handles.toArray } :: after, ?_⟩
    simp [carryEntries, Relocation.carryArray_eq, carried, carries]

/-- An index without stale handles is carried over. -/
theorem exists_relocate {relocation : Relocation}
    (current : ∀ entry ∈ index.entries.toList, ∀ handle ∈ entry.handles.toList,
      handle.epoch = relocation.fromEpoch) :
    ∃ after, index.relocate relocation = some after := by
  obtain ⟨carried, carries⟩ := exists_carryEntries current
  exact ⟨_, relocate_eq_some.2 ⟨carried, carries, rfl⟩⟩

end Occurrences

/-- Whatever an index that is right lists is of the current epoch: an entry belongs to
a literal or is the first one, which has nothing. -/
theorem Listed.epoch_of_mem {index : Occurrences} {arena : Arena} (listed : Listed index arena)
    (small : index.entries.size ≤ UInt32.size) {entry : Occurrence}
    (member : entry ∈ index.entries.toList) {handle : Handle}
    (inside : handle ∈ entry.handles.toList) : handle.epoch = arena.epoch := by
  obtain ⟨code, below, found⟩ := List.mem_iff_getElem.1 member
  rw [Array.length_toList] at below
  rw [Array.getElem_toList] at found
  have place : index.entries[code]? = some entry := by rw [Array.getElem?_eq_getElem below, found]
  by_cases first : code = 0
  · subst first
    rw [index.unlisted entry place] at inside
    cases inside
  · have lit : (Literal.ofNat code).index = code :=
      Literal.toNat_code_ofNat (Nat.pos_of_ne_zero first) (by omega)
    have list : index.list? (Literal.ofNat code) = some entry.handles := by
      rw [Occurrences.list?_eq, lit, place]
      rfl
    exact (listed.current _ _ list handle inside).1

/-! ## Giving up the clauses -/

namespace Engine

variable {engine : Engine} {handle : Handle} {clause : Clause}

/-- A live clause can be dropped. -/
theorem releaseClause_returns (inStep : engine.InStep)
    (live : engine.arena.live? handle = some clause) :
    (releaseClause handle).Returns engine fun _ after => Releases engine [handle] after ∧
      ∀ other, other ≠ handle → after.arena.live? other = engine.arena.live? other := by
  obtain ⟨found, _⟩ := Arena.live?_eq_some.1 live
  obtain ⟨index, unlisted, _⟩ := @Occurrences.exists_remove _ handle _ (inStep.listed.index_lt live)
  obtain ⟨arena, removed⟩ : ∃ arena, engine.arena.remove handle = some arena := by
    simp [Arena.remove, found]
  suffices ended : releaseClause handle engine =
      .done () { engine with index := index, arena := arena } from
    ⟨_, _, ended, (releaseClause_ends inStep live).done_of_eq ended⟩
  simp [releaseClause, Engine.clause, Run.read, Run.bind_apply, found, updateIndex, updateArena,
    Run.update, unlisted, removed]

/-- All live clauses can be released. -/
theorem releaseAll_returns {handles : List Handle} (inStep : engine.InStep) (nodup : handles.Nodup)
    (live : ∀ handle ∈ handles, ∃ clause, engine.arena.live? handle = some clause) :
    (handles.forM releaseClause).Returns engine fun _ _ => True := by
  induction handles generalizing engine with
  | nil => exact .pure trivial
  | cons handle rest ih =>
    obtain ⟨absent, nodupRest⟩ := List.nodup_cons.1 nodup
    obtain ⟨⟨clause, liveFirst⟩, liveRest⟩ := List.forall_mem_cons.1 live
    refine (releaseClause_returns inStep liveFirst).bind fun _ middle ⟨first, others⟩ => ?_
    refine ih first.inStep nodupRest fun other member => ?_
    rw [others other fun same => absent (same ▸ member)]
    exact liveRest other member

/-- All clauses can be dropped. -/
theorem releaseClauses_returns (inStep : engine.InStep) :
    releaseClauses.Returns engine fun _ after => Releases engine engine.arena.handles after ∧
      after.arena.contents = 0 := by
  suffices responds : releaseClauses.Returns engine fun _ _ => True from
    (responds.and_ends (releaseClauses_ends inStep)).imp fun _ _ held => held.2
  refine .step rfl ((releaseAll_returns inStep (Arena.nodup_handles inStep.space.le)
    fun handle member => (Arena.mem_handles inStep.space.le).1 member).bind fun _ after _ => ?_)
  exact .of_done rfl trivial

theorem entries_size_le (inStep : engine.InStep) :
    engine.index.entries.size ≤ UInt32.size := by
  have := inStep.trail.small
  rw [inStep.room]
  simp only [UInt32.size]
  omega

/-- An index that is right is carried over by a compaction. -/
theorem compact_returns (inStep : engine.InStep) :
    compact.Returns engine fun relocation after => relocation = engine.arena.compact.1 ∧
      after.arena = engine.arena.compact.2 ∧ after.trail = engine.trail := by
  obtain ⟨index, relocated⟩ : ∃ index, engine.index.relocate engine.arena.compact.1 = some index :=
    Occurrences.exists_relocate fun entry member handle inside =>
      inStep.listed.epoch_of_mem (entries_size_le inStep) member inside
  exact .step rfl (.step (updateIndex_of_eq_some relocated)
    (.step rfl (.step rfl (.pure ⟨rfl, rfl, rfl⟩))))

end Engine

namespace Arena

variable {arena : Arena}

theorem liveClauses_of_contents (empty : arena.contents = 0) : arena.liveClauses = [] := by
  rw [contents_eq_liveClauses] at empty
  simpa using empty

/-- Nothing is left of an arena without live clauses. -/
theorem slots_compact_of_contents (empty : arena.contents = 0) : arena.compact.2.slots = #[] := by
  have none_ := liveClauses_of_contents empty
  change arena.slots.filter (fun clause => !clause.isDead) = #[]
  rw [← Array.toList_inj, Array.toList_filter]
  exact none_

/-- If nothing is live, all slots are garbage. -/
theorem garbage_of_contents (counted : arena.Counted) (space : arena.slots.size < UInt32.size)
    (empty : arena.contents = 0) : arena.garbage = UInt64.ofNat arena.slots.size := by
  have active : arena.active = 0 := by rw [counted.card, empty]; rfl
  simp only [UInt32.size] at space
  unfold garbage wordOf
  congr 1
  omega

end Arena

namespace Simplifier

variable {simplifier : Simplifier} {α : Type}

theorem lift_of_done {body : Run Engine α} {value : α} {engine : Engine}
    (ended : body simplifier.engine = .done value engine) :
    (liftM body : Run Simplifier α) simplifier =
      .done value { simplifier with engine := engine } := by
  rw [lift_apply, ended]
  rfl

/-- A compaction is made when nothing is live, unless there are no slots at all. -/
theorem collectGarbage_returns (inStep : simplifier.engine.InStep) (idle : simplifier.tools.Idle)
    (empty : simplifier.engine.arena.contents = 0) :
    collectGarbage.Returns simplifier fun _ after => after.engine.arena.slots = #[] ∧
      after.engine.trail = simplifier.engine.trail := by
  have space := inStep.space
  have garbage := Arena.garbage_of_contents inStep.counted space empty
  simp only [UInt32.size] at space
  unfold collectGarbage
  refine .step rfl ?_
  dsimp only
  rw [garbage]
  by_cases none_ : simplifier.engine.arena.slots.size = 0
  · rw [none_, if_neg (by decide)]
    exact .pure ⟨Array.eq_empty_of_size_eq_zero none_, rfl⟩
  · have wanted : 0 < UInt64.ofNat simplifier.engine.arena.slots.size ∧
        UInt64.ofNat simplifier.engine.arena.slots.size <
          2 * UInt64.ofNat simplifier.engine.arena.slots.size := by
      simp only [UInt64.lt_iff_toNat_lt, UInt64.toNat_mul, UInt64.toNat_ofNat',
        UInt64.reduceToNat]
      omega
    rw [if_pos (by simpa using wanted)]
    obtain ⟨relocation, engine, compacted, _, arena, trail⟩ := Engine.compact_returns inStep
    have carried : updateTools (fun tools => tools.relocate relocation)
        { simplifier with engine := engine } = .done () { simplifier with engine := engine } := by
      simp [updateTools, Run.update, idle.relocate]
    refine .step (lift_of_done compacted) (.of_done carried ⟨?_, trail⟩)
    rw [arena, Arena.slots_compact_of_contents empty]

/-- The simplifier after all clauses were given up. -/
structure Empties (before after : Simplifier) : Prop where
  inStep : after.engine.InStep
  slots : after.engine.arena.slots = #[]
  trail : after.engine.trail = before.engine.trail
  records : after.engine.records = before.engine.records
  numbering : after.numbering = before.numbering

/-- All clauses can be given up, and no slot is left. -/
theorem exists_emptied (inStep : simplifier.engine.InStep) (idle : simplifier.tools.Idle) :
    ∃ released after, (liftM Engine.releaseClauses : Run Simplifier Unit) simplifier =
      .done () released ∧ collectGarbage released = .done () after ∧ simplifier.Empties after := by
  obtain ⟨_, engine, ended, releases, empty⟩ := Engine.releaseClauses_returns inStep
  obtain ⟨_, after, collected, slots, trail⟩ :=
    @collectGarbage_returns { simplifier with engine := engine } releases.inStep idle empty
  have tidies : Tidies { simplifier with engine := engine } after :=
    (@collectGarbage_ends _ fun _ _ => False).done_of_eq collected
  refine ⟨_, after, lift_of_done ended, collected, (tidies.goes releases.inStep).inStep, slots,
    trail.trans releases.trail, ?_, tidies.numbering⟩
  exact (congrArg Picture.records tidies.picture).trans releases.records

end Simplifier

end CnfSimplifier
