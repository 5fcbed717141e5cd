import CnfSimplifier.Proofs.AppliedTechniques
import CnfSimplifier.Proofs.GraphSearch
import CnfSimplifier.Proofs.Wear

/-!
# The searches of subsumption

The scan of two clauses misses nothing: where it finds neither a subsumed clause nor one
that can be strengthened, the first clause is no part of the second, nor is it with one
literal complemented. This stays so when the second clause loses literals.

Before a clause is used it is searched for hidden literals and checked against others. Both
searches begin again whenever the clause became shorter, so they come to an end. What they
do to the engine is that clauses go and lose literals, and what they do to the budget is
that it may be used up.
-/
namespace CnfSimplifier

/-- A least item is one of the items, and there is one unless there are no items. -/
theorem mem_of_leastBy {α : Type} {key : α → Int} {items : List α} {item : α}
    (least : leastBy key items = some item) : item ∈ items := by
  induction items with
  | nil => cases least
  | cons first rest ih =>
    unfold leastBy at least
    split at least
    next =>
      cases least
      exact List.mem_cons_self
    next other found =>
      split at least
      · exact List.mem_cons_of_mem _ (ih (least ▸ found))
      · cases least
        exact List.mem_cons_self

theorem eq_nil_of_leastBy {α : Type} {key : α → Int} {items : List α}
    (none_ : leastBy key items = none) : items = [] := by
  cases items with
  | nil => rfl
  | cons first rest =>
    unfold leastBy at none_
    split at none_
    · cases none_
    · split at none_ <;> cases none_

namespace Subsumption

/-- A clause with one of its literals complemented. -/
def flip (literals : List Literal) (literal : Literal) : List Literal :=
  literal.complement :: literals.erase literal

/-- The first clause is part of the second one, as it is or with one literal
complemented. -/
def Relates (first second : List Literal) : Prop :=
  first ⊆ second ∨ ∃ literal ∈ first, flip first literal ⊆ second

variable {first second : List Literal} {literal : Literal}

/-- What is related to a part is related to the whole. -/
theorem Relates.mono {more : List Literal} (relates : Relates first second) (part : second ⊆ more) :
    Relates first more := by
  rcases relates with whole | ⟨literal, member, flipped⟩
  · exact .inl (List.Subset.trans whole part)
  · exact .inr ⟨literal, member, List.Subset.trans flipped part⟩

/-- A clause with one literal flipped is contained if the rest is. -/
theorem flip_subset_iff (nodup : first.Nodup) : flip first literal ⊆ second ↔
    literal.complement ∈ second ∧ ∀ other ∈ first, other ≠ literal → other ∈ second := by
  unfold flip
  rw [List.cons_subset]
  refine and_congr_right fun _ => ⟨fun part other member different => ?_, fun part other member => ?_⟩
  · exact part ((List.mem_erase_of_ne different).2 member)
  · obtain ⟨different, inside⟩ := (List.Nodup.mem_erase_iff nodup).1 member
    exact part other inside different

/-- The variables of a clause ascend. -/
def Ascends (literals : List Literal) : Prop :=
  OverVars literals ∧ literals.Pairwise fun a b => a.var < b.var

theorem Ascends.of_cons {literals : List Literal} (ascends : Ascends (literal :: literals)) :
    Ascends literals :=
  ⟨fun other member => ascends.1 other (List.mem_cons_of_mem _ member), ascends.2.of_cons⟩

theorem Ascends.lt {literals : List Literal} (ascends : Ascends (literal :: literals))
    {other : Literal} (member : other ∈ literals) : literal.var < other.var :=
  (List.pairwise_cons.1 ascends.2).1 other member

/-- The first literal has the least variable. -/
theorem Ascends.head_le {literals : List Literal} (ascends : Ascends (literal :: literals))
    {other : Literal} (member : other ∈ literal :: literals) : literal.var ≤ other.var := by
  rcases List.mem_cons.1 member with rfl | later
  · exact le_rfl
  · exact (ascends.lt later).le

/-- Only the first literal has the least variable. -/
theorem Ascends.eq_head {literals : List Literal} (ascends : Ascends (literal :: literals))
    {other : Literal} (member : other ∈ literal :: literals) (least : other.var ≤ literal.var) :
    other = literal :=
  (List.mem_cons.1 member).resolve_right fun later => (ascends.lt later).not_ge least

/-- A literal of another variable than the first one stands behind it. -/
theorem mem_tail_of_var_lt {literals : List Literal} {other : Literal}
    (member : other ∈ literal :: literals) (above : literal.var < other.var) : other ∈ literals :=
  (List.mem_cons.1 member).resolve_left fun same => above.ne (same ▸ rfl)

theorem Ascends.nodup_var (ascends : Ascends first) : (first.map Literal.var).Nodup :=
  List.pairwise_map.2 (ascends.2.imp Nat.ne_of_lt)

theorem Ascends.nodup (ascends : Ascends first) : first.Nodup :=
  ascends.nodup_var.of_map

/-- A clause has one literal of a variable. -/
theorem Ascends.eq_of_var (ascends : Ascends first) {other : Literal} (member : literal ∈ first)
    (inside : other ∈ first) (same : literal.var = other.var) : literal = other :=
  List.inj_on_of_nodup_map ascends.nodup_var member inside same

/-- What a scan without a result has found out: the first clause is no part of the second
one, and if no literal was flipped yet none can be. -/
theorem not_relates_of_scan {flipped : Option Literal} (ascends : Ascends first)
    (ascendsSecond : Ascends second) (unrelated : scan first second flipped = .unrelated) :
    ¬ first ⊆ second ∧ (flipped = none → ∀ literal ∈ first, literal.complement ∈ second →
      ¬ ∀ other ∈ first, other ≠ literal → other ∈ second) := by
  fun_induction scan first second flipped with
  | case1 => cases unrelated
  | case2 => cases unrelated
  | case3 l rest =>
    exact ⟨fun part => absurd (part List.mem_cons_self) List.not_mem_nil, fun _ _ _ inside =>
      absurd inside List.not_mem_nil⟩
  | case4 l first k second flipped before ih =>
    obtain ⟨noPart, noFlip⟩ := ih ascends ascendsSecond.of_cons unrelated
    -- The first literal of the second clause is no literal of the first one.
    have passes : ∀ literal ∈ l :: first, ∀ other, other.var = literal.var → other ∈ k :: second →
        other ∈ second := by
      intro literal member other same inside
      have least := ascends.head_le member
      exact mem_tail_of_var_lt inside (by omega)
    refine ⟨fun part => noPart fun other member => passes other member other rfl (part member),
      fun isNone literal member opposite others => noFlip isNone literal member ?_ ?_⟩
    · exact passes literal member _ (Literal.var_complement (ascends.1 literal member)) opposite
    · exact fun other inside different => passes other inside other rfl (others other inside different)
  | case5 l first k second flipped before after =>
    -- The variable of the first literal is none of the second clause.
    have absent : ∀ other : Literal, other.var = l.var → other ∉ k :: second := by
      intro other same inside
      have least := ascendsSecond.head_le inside
      omega
    refine ⟨fun part => absent l rfl (part List.mem_cons_self), fun _ literal member opposite others => ?_⟩
    by_cases isFirst : l = literal
    · subst isFirst
      exact absent _ (Literal.var_complement (ascends.1 _ member)) opposite
    · exact absent l rfl (others l List.mem_cons_self isFirst)
  | case6 first l second flipped _ _ ih =>
    obtain ⟨noPart, noFlip⟩ := ih ascends.of_cons ascendsSecond.of_cons unrelated
    have passes : ∀ literal ∈ first, ∀ other, other.var = literal.var → other ∈ l :: second →
        other ∈ second := by
      intro literal member other same inside
      exact mem_tail_of_var_lt inside (same ▸ ascends.lt member)
    refine ⟨fun part => noPart fun other member =>
      passes other member other rfl (part (List.mem_cons_of_mem _ member)),
      fun isNone literal member opposite others => ?_⟩
    rcases List.mem_cons.1 member with rfl | later
    · have present := ascends.1 literal List.mem_cons_self
      exact Literal.complement_ne present
        (ascendsSecond.eq_head opposite (Literal.var_complement present).le)
    · refine noFlip isNone literal later ?_ fun other inside different =>
        passes other inside other rfl (others other (List.mem_cons_of_mem _ inside) different)
      exact passes literal later _ (Literal.var_complement (ascends.1 literal member)) opposite
  | case7 l first k second notBefore notAfter different ih =>
    obtain ⟨noPart, _⟩ := ih ascends.of_cons ascendsSecond.of_cons unrelated
    have absent : l ∉ k :: second := fun inside =>
      different (ascendsSecond.eq_head inside (by omega)).symm
    refine ⟨fun part => absent (part List.mem_cons_self), fun _ literal member opposite others => ?_⟩
    by_cases isFirst : l = literal
    · subst isFirst
      refine noPart fun other inside => ?_
      have below := ascends.lt inside
      have apart : other ≠ l := fun same => below.ne (same ▸ rfl)
      exact mem_tail_of_var_lt (others other (List.mem_cons_of_mem _ inside) apart) (by omega)
    · exact absent (others l List.mem_cons_self isFirst)
  | case8 l first k second notBefore notAfter different other =>
    refine ⟨fun part => ?_, fun isNone => absurd isNone (Option.some_ne_none _)⟩
    have inside := part List.mem_cons_self
    exact different (ascendsSecond.eq_head inside (by omega)).symm

/-- A check that finds nothing is right. -/
theorem not_relates_of_check (ascends : Ascends first) (ascendsSecond : Ascends second)
    (unrelated : check first second = .unrelated) : ¬ Relates first second := by
  intro relates
  unfold check at unrelated
  split at unrelated
  next longer =>
    -- Each variable of the first clause is one of the second.
    have vars : first.map Literal.var ⊆ second.map Literal.var := by
      intro name member
      obtain ⟨other, inside, rfl⟩ := List.mem_map.1 member
      rcases relates with part | ⟨literal, isOwn, part⟩
      · exact List.mem_map_of_mem (part inside)
      · obtain ⟨opposite, others⟩ := (flip_subset_iff ascends.nodup).1 part
        by_cases same : other = literal
        · subst same
          exact List.mem_map.2 ⟨_, opposite, Literal.var_complement (ascends.1 other isOwn)⟩
        · exact List.mem_map_of_mem (others other inside same)
    have short := (ascends.nodup_var.subperm vars).length_le
    rw [List.length_map, List.length_map] at short
    omega
  next =>
    obtain ⟨noPart, noFlip⟩ := not_relates_of_scan ascends ascendsSecond unrelated
    rcases relates with part | ⟨literal, member, part⟩
    · exact noPart part
    · obtain ⟨opposite, others⟩ := (flip_subset_iff ascends.nodup).1 part
      exact noFlip rfl literal member opposite others

/-- A clause that lost the complement of a literal is unrelated to the clause with the
literal. -/
theorem not_relates_erase (ascends : Ascends first) (ascendsSecond : Ascends second)
    (member : literal ∈ first) (opposite : literal.complement ∈ second) :
    ¬ Relates first (second.erase literal.complement) := by
  have present := ascends.1 literal member
  -- Nothing of the variable is left.
  have gone : ∀ other, other.var = literal.var → other ∉ second.erase literal.complement := by
    intro other same inside
    obtain ⟨different, inside⟩ := (List.Nodup.mem_erase_iff ascendsSecond.nodup).1 inside
    refine different (ascendsSecond.eq_of_var inside opposite ?_)
    rw [same, Literal.var_complement present]
  rintro (part | ⟨other, isOwn, part⟩)
  · exact gone literal rfl (part member)
  · obtain ⟨flipped, others⟩ := (flip_subset_iff ascends.nodup).1 part
    by_cases same : literal = other
    · subst same
      exact gone _ (Literal.var_complement present) flipped
    · exact gone literal rfl (others literal member same)

/-- A clause has at most one literal for each variable, and there are not so many. -/
theorem Ascends.length_le (ascends : Ascends first) : first.length ≤ 2 ^ 31 := by
  have inside : first.map Literal.var ⊆ List.range (2 ^ 31) := by
    intro name member
    obtain ⟨literal, _, rfl⟩ := List.mem_map.1 member
    have small := literal.code.toNat_lt
    change literal.code.toNat / 2 ∈ _
    exact List.mem_range.2 (by omega)
  have short := (ascends.nodup_var.subperm inside).length_le
  rwa [List.length_map, List.length_range] at short

end Subsumption

/-- The literals of a live clause are scanned in the order of their variables. -/
theorem Engine.Sound.ascends [Realm] {engine : Engine} (sound : engine.Sound) {handle : Handle}
    {clause : Clause} (live : engine.arena.live? handle = some clause) :
    Subsumption.Ascends clause.literals := by
  have admits := sound.wellFormed.admits _ (Arena.contents_of_live live)
  have present : OverVars clause.literals := fun literal member => (admits.present literal member).1
  exact ⟨present, Resolution.pairwise_var admits.sorted present admits.proper⟩

/-! ## Budgets -/

namespace Budget

variable {limit : UInt64} {slack extra : Nat} {steps : UInt64} {budget before middle after : Budget}

/-- The steps reached the limit. The counter may have come round since then. -/
def UsedUp (budget : Budget) : Prop := budget.limit.toNat ≤ budget.spent

/-- Steps were spent, or none, and the limit is the same. -/
structure Pays (before after : Budget) : Prop where
  limit : after.limit = before.limit
  spent : before.spent ≤ after.spent

theorem Pays.refl (budget : Budget) : budget.Pays budget := ⟨rfl, le_rfl⟩

theorem Pays.trans (first : before.Pays middle) (second : middle.Pays after) : before.Pays after :=
  ⟨second.limit.trans first.limit, first.spent.trans second.spent⟩

theorem UsedUp.of_pays (usedUp : before.UsedUp) (pays : before.Pays after) : after.UsedUp := by
  unfold UsedUp
  rw [pays.limit]
  exact usedUp.trans pays.spent

theorem isExhausted_iff : budget.isExhausted = true ↔ budget.limit.toNat ≤ budget.used.toNat := by
  rw [isExhausted, decide_eq_true_iff, UInt64.le_iff_toNat_le]

/-- The counter is never ahead of the steps. -/
theorem toNat_used_le (budget : Budget) : budget.used.toNat ≤ budget.spent := by
  rw [used, UInt64.toNat_ofNat']
  exact Nat.mod_le _ _

theorem UsedUp.of_isExhausted (exhausted : budget.isExhausted = true) : budget.UsedUp :=
  (isExhausted_iff.1 exhausted).trans budget.toNat_used_le

theorem pays_useUp (budget : Budget) : budget.Pays budget.useUp := by
  unfold useUp
  split
  next => exact .refl budget
  next => exact ⟨rfl, Nat.le_add_right _ _⟩

theorem pays_spend (budget : Budget) (interrupted : Bool) (steps : UInt64) :
    budget.Pays (budget.spend interrupted steps).2 := by
  have more : budget.Pays { budget with spent := budget.spent + steps.toNat } :=
    ⟨rfl, Nat.le_add_right _ _⟩
  unfold spend
  dsimp only
  split
  next => exact more.trans (pays_useUp _)
  next => exact more

/-- The budget of a run with a limit. What was spent is not far beyond the limit. Nothing is
said where the limit leaves no room for that in a word. -/
structure Counts (limit : UInt64) (slack : Nat) (budget : Budget) : Prop where
  same : limit.toNat ≤ 2 ^ 63 → budget.limit = limit
  few : limit.toNat ≤ 2 ^ 63 → budget.spent ≤ limit.toNat + slack

theorem Counts.mono (counts : budget.Counts limit slack) (more : slack ≤ extra) :
    budget.Counts limit extra :=
  ⟨counts.same, fun small => (counts.few small).trans (Nat.add_le_add_left more _)⟩

theorem Counts.of_large (large : 2 ^ 63 < limit.toNat) : budget.Counts limit slack :=
  ⟨fun small => absurd small (Nat.not_le.2 large), fun small => absurd small (Nat.not_le.2 large)⟩

/-- Where the limit leaves room for the steps, the counter did not come round. -/
theorem Counts.toNat_used (counts : budget.Counts limit slack) (room : slack < 2 ^ 63)
    (small : limit.toNat ≤ 2 ^ 63) : budget.used.toNat = budget.spent := by
  have few := counts.few small
  rw [used, UInt64.toNat_ofNat', Nat.mod_eq_of_lt (by omega)]

/-- A budget that is not exhausted did not reach its limit. -/
theorem Counts.not_usedUp (counts : budget.Counts limit slack) (room : slack < 2 ^ 63)
    (left : budget.isExhausted = false) (small : limit.toNat ≤ 2 ^ 63) : ¬ budget.UsedUp := by
  intro usedUp
  have exhausted : budget.isExhausted = true := by
    rw [isExhausted_iff, counts.toNat_used room small]
    exact usedUp
  rw [left] at exhausted
  cases exhausted

theorem Counts.of_left (counts : budget.Counts limit slack) (room : slack < 2 ^ 63)
    (left : budget.isExhausted = false) : budget.Counts limit 0 := by
  refine ⟨counts.same, fun small => ?_⟩
  have below : ¬ budget.limit.toNat ≤ budget.spent := counts.not_usedUp room left small
  rw [← counts.same small]
  omega

/-- A budget that is used up still counts. -/
theorem Counts.useUp (counts : budget.Counts limit slack) (room : slack < 2 ^ 63) :
    budget.useUp.Counts limit slack := by
  unfold Budget.useUp
  split
  next => exact counts
  next left =>
    refine ⟨counts.same, fun small => ?_⟩
    have below : ¬ budget.limit.toNat ≤ budget.used.toNat := fun reached =>
      left (isExhausted_iff.2 reached)
    have used := counts.toNat_used room small
    change budget.spent + (budget.limit - budget.used).toNat ≤ limit.toNat + slack
    rw [UInt64.toNat_sub_of_le _ _ (UInt64.le_iff_toNat_le.2 (by omega)), ← counts.same small]
    omega

/-- Steps are granted below the limit only. -/
theorem Counts.spend (counts : budget.Counts limit slack) (bound : steps.toNat ≤ extra)
    (room : slack + extra < 2 ^ 63) (interrupted : Bool) {goOn : Bool}
    (spent : budget.spend interrupted steps = (goOn, after)) :
    (goOn = true → after.Counts limit 0) ∧ after.Counts limit (slack + extra) := by
  have more : Counts limit (slack + extra) { budget with spent := budget.spent + steps.toNat } := by
    refine ⟨counts.same, fun small => ?_⟩
    have few := counts.few small
    dsimp only
    omega
  unfold Budget.spend at spent
  dsimp only at spent
  split at spent
  next =>
    obtain ⟨rfl, rfl⟩ := Prod.mk.inj spent
    exact ⟨nofun, more.useUp room⟩
  next =>
    obtain ⟨rfl, rfl⟩ := Prod.mk.inj spent
    exact ⟨fun granted => more.of_left room (by simpa using granted), more⟩

end Budget

/-! ## Operations of the engine -/

namespace Engine

variable [Realm] {engine before middle after : Engine} {handle : Handle} {clause : Clause}
  {literal : Literal}

/-- The engine stays sound, and its clauses are the old ones but for what went and what
they lost. -/
structure Refines (before after : Engine) : Prop where
  sound : after.Sound
  leads : before.Leads .equivalence after
  wears : before.WearsTo after

theorem Refines.refl (sound : engine.Sound) : engine.Refines engine :=
  ⟨sound, .refl sound, .refl engine⟩

theorem Refines.trans (first : before.Refines middle) (second : middle.Refines after) :
    before.Refines after :=
  ⟨second.sound, first.leads.trans second.leads, first.wears.trans second.wears⟩

/-- A counter was changed. -/
theorem Refines.count (refines : before.Refines after) (tally : Tally) :
    before.Refines { after with tally := tally } :=
  refines.trans ⟨refines.sound.of_same rfl rfl rfl rfl rfl rfl,
    .of_same refines.sound rfl rfl rfl rfl rfl rfl rfl rfl rfl, Tolerant.aside rfl rfl rfl⟩

/-- A computation that works and wears clauses down refines the engine, or it refutes the
formula. -/
theorem finishes_of_works {α : Type} {body : Run Engine α} {post : α → Engine → Prop}
    (works : Works .equivalence body engine post) (sound : engine.Sound) (strict : ¬ Realm.Lenient)
    (tracks : Tracks WearsTo body) (safe : body.Safe (fun _ => False) engine) :
    body.Finishes engine (fun value after => engine.Refines after ∧ post value after)
      fun cause _ => cause.isUnsat = true := by
  refine ⟨(((works sound).and (tracks engine)).and (works.refuses sound strict)).imp ?_ ?_, safe⟩
  · rintro value after ⟨⟨⟨leads, holds⟩, wears⟩, _⟩
    exact ⟨⟨leads.sound sound, leads, wears⟩, holds⟩
  · exact fun _ _ => And.right

/-- A clause goes for whatever reason. -/
theorem removeClause_returns {post : Unit → Engine → Prop}
    (works : Works .equivalence (removeClause handle) engine post) (sound : engine.Sound)
    (live : engine.arena.live? handle = some clause) :
    (removeClause handle).Returns engine fun _ after => engine.Refines after ∧
      KeepsOthers engine handle after ∧ after.arena.live? handle = none := by
  have ends := ((removeClause_ends sound.toInStep live).and (works sound)).and
    ((UpheldByRemovals.removeClause : Tracks WearsTo _) engine)
  refine ((safe_removeClause sound.listed live).returns ends fun _ _ no => no.1.1).imp ?_
  rintro _ after ⟨⟨⟨removes, _⟩, leads, _⟩, wears⟩
  exact ⟨⟨leads.sound sound, leads, wears⟩, removes.keepsOthers live, removes.live?_self live⟩

/-- A clause becomes irredundant. -/
theorem makeIrredundant_returns (sound : engine.Sound)
    (live : engine.arena.live? handle = some clause) :
    (makeIrredundant handle).Returns engine fun _ after => engine.Refines after ∧
      engine.arena.SameClauses after.arena ∧ ∃ copy, after.arena.live? handle = some copy ∧
        copy.literals = clause.literals ∧ copy.isRedundant = false := by
  have works : Works .equivalence (makeIrredundant handle) engine _ :=
    works_makeIrredundant live
  have slot := (Arena.get?_eq_some.1 (Arena.live?_eq_some.1 live).1).2
  obtain ⟨arena, promoted⟩ : ∃ arena, engine.arena.makeIrredundant handle = some arena := by
    unfold Arena.makeIrredundant
    rw [slot]
    dsimp only
    split <;> exact ⟨_, rfl⟩
  have ended : makeIrredundant handle engine = .done () { engine with arena := arena } :=
    updateArena_of_eq_some promoted
  obtain ⟨leads, same, _, copy⟩ := (works sound).done_of_eq ended
  exact .of_done ended ⟨⟨leads.sound sound, leads,
    ((Upheld.makeIrredundant : Tracks WearsTo _) engine).done_of_eq ended⟩, same, copy⟩

/-- A clause loses a literal without which it follows still, and there are fewer literals. -/
theorem strengthen_finishes (sound : engine.Sound) (strict : ¬ Realm.Lenient)
    (live : engine.arena.live? handle = some clause) (inside : literal ∈ clause.literals)
    (follows : Rup engine.picture.formula (clause.literals.erase literal)) :
    (strengthen handle literal).Finishes engine
      (fun _ after => engine.Refines after ∧ Strengthens engine handle clause literal after ∧
        ∃ new, after.arena.get? handle = some new ∧ clause.WearsTo new ∧
          new.weight < clause.weight ∧ (new.isDead = true ∨ new.isCandidate = true))
      fun cause _ => cause.isUnsat = true := by
  have works : Works .equivalence (strengthen handle literal) engine _ :=
    works_strengthen live inside follows
  refine (finishes_of_works works sound strict (Upheld.strengthen : Tracks WearsTo _)
    (safe_strengthen sound live inside)).imp ?_ fun _ _ => id
  rintro _ after ⟨refines, strengthens⟩
  obtain ⟨new, found, wears⟩ := refines.wears.arena.new (Arena.live?_eq_some.1 live).1
  have some_ := List.length_pos_of_mem inside
  have weight : clause.weight = clause.literals.length := Clause.weight_of_live live
  refine ⟨refines, strengthens, new, found, wears, ?_⟩
  cases dead : new.isDead with
  | true =>
    refine ⟨?_, .inl rfl⟩
    rw [weight, Clause.weight, if_pos dead]
    exact some_
  | false =>
    have shorter := strengthens.left new (Arena.live?_eq_some.2 ⟨found, dead⟩)
    have size : new.size < clause.size := by
      unfold Clause.size
      rw [shorter, List.length_erase_of_mem inside]
      omega
    refine ⟨?_, .inr (wears.shorter size)⟩
    rw [weight, Clause.weight, dead]
    exact size

/-- A clause gets other marks. -/
theorem markClause_returns {change : ClauseFlags → ClauseFlags} (sound : engine.Sound)
    (found : engine.arena.get? handle = some clause)
    (dead : ∀ flags, (change flags).dead = flags.dead)
    (redundant : ∀ flags, (change flags).redundant = flags.redundant) :
    (markClause handle change).Returns engine fun _ after =>
      after.Sound ∧ engine.Leads .equivalence after ∧ engine.Marks handle clause change after ∧
        engine.Remarks after := by
  obtain ⟨value, after, ended, marks⟩ :
      (markClause handle change).Returns engine _ := markClause_marks found
  have works : Works .equivalence (markClause handle change) engine _ :=
    works_markClause dead redundant
  obtain ⟨leads, remarks⟩ := (works sound).done_of_eq ended
  exact ⟨value, after, ended, leads.sound sound, leads, marks, remarks⟩

/-- Marks that leave the queue alone and the candidates as well refine the engine. -/
theorem Refines.of_marks {change : ClauseFlags → ClauseFlags} (sound : after.Sound)
    (leads : engine.Leads .equivalence after) (marks : engine.Marks handle clause change after)
    (found : engine.arena.get? handle = some clause)
    (wears : clause.WearsTo { clause with flags := change clause.flags })
    (queued : (change clause.flags).queued = clause.flags.queued) : engine.Refines after := by
  have slot := (Arena.get?_eq_some.1 found).2
  have worn : engine.WearsTo { engine with arena := after.arena } :=
    .of_set slot marks.slots marks.epoch wears queued
  exact ⟨sound, leads, marks.rest ▸ worn⟩

/-- Root literals are applied. -/
theorem propagateUnits_finishes (sound : engine.Sound) (strict : ¬ Realm.Lenient)
    (orderly : engine.trail.Orderly) :
    propagateUnits.Finishes engine (fun _ after => engine.Refines after)
      fun cause _ => cause.isUnsat = true := by
  have works : Works .equivalence propagateUnits engine _ := works_propagateUnits
  exact (finishes_of_works works sound strict (tracks_propagateUnits : Tracks WearsTo _)
    (safe_propagateUnits sound (.inr orderly))).imp (fun _ _ => And.left) fun _ _ => id

end Engine

/-! ## Hidden tautologies and literals -/

namespace Subsumer

variable {graph : Implications} {literals : List Literal}

/-- Whether a target is implied can be told. -/
theorem exists_anyImplied? {source : Literal} {targets : List Literal}
    (told : ∀ target ∈ targets, ∃ answer, graph.implies? source target = some answer) :
    ∃ answer, hasHiddenTautology?.anyImplied? graph source targets = some answer := by
  induction targets with
  | nil => exact ⟨_, rfl⟩
  | cons target rest ih =>
    obtain ⟨⟨answer, known⟩, others⟩ := List.forall_mem_cons.1 told
    obtain ⟨later, knownLater⟩ := ih others
    simp only [hasHiddenTautology?.anyImplied?, known, Option.bind_eq_bind, Option.bind_some]
    split
    · exact ⟨_, rfl⟩
    · exact ⟨later, knownLater⟩

/-- Whether a tautology is hidden can be told. -/
theorem exists_hasHiddenTautology? (told : ∀ source ∈ literals, ∀ target ∈ literals,
      ∃ answer, graph.implies? source.complement target = some answer) :
    ∃ answer, hasHiddenTautology? graph literals = some answer := by
  induction literals with
  | nil => exact ⟨_, rfl⟩
  | cons literal rest ih =>
    obtain ⟨answer, known⟩ := exists_anyImplied? fun target member =>
      told literal List.mem_cons_self target (List.mem_cons_of_mem _ member)
    obtain ⟨later, knownLater⟩ := ih fun source member target inside =>
      told source (List.mem_cons_of_mem _ member) target (List.mem_cons_of_mem _ inside)
    simp only [hasHiddenTautology?, known, Option.bind_eq_bind, Option.bind_some]
    split
    · exact ⟨_, rfl⟩
    · exact ⟨later, knownLater⟩

/-- A hidden literal can be looked for. -/
theorem exists_hiddenLiteral? {candidates : List Literal} (told : ∀ source ∈ candidates,
      ∀ target ∈ literals, ∃ answer, graph.implies? source target = some answer) :
    ∃ hidden, hiddenLiteral? graph literals candidates = some hidden := by
  induction candidates with
  | nil => exact ⟨_, rfl⟩
  | cons literal rest ih =>
    obtain ⟨own, others⟩ := List.forall_mem_cons.1 told
    obtain ⟨answer, known⟩ : ∃ answer, hasHiddenTautology?.anyImplied? graph literal
        (literals.filter (· != literal)) = some answer :=
      exists_anyImplied? fun target member => own target (List.mem_of_mem_filter member)
    obtain ⟨later, knownLater⟩ := ih others
    simp only [hiddenLiteral?, known, Option.bind_eq_bind, Option.bind_some]
    split
    · exact ⟨_, rfl⟩
    · exact ⟨later, knownLater⟩

variable [Realm] {limit : UInt64} {slack : Nat} {before middle after state : Tool Subsumer × Engine}
  {handle : Handle} {clause : Clause} {known : Option Implications}

/-- The graph of a subsumer is right, and it tells of all literals. -/
structure Knows (known : Option Implications) (state : Tool Subsumer × Engine) : Prop where
  ready : Ready known state
  full : ∀ graph, known = some graph → graph.Full

theorem Knows.of_leads (knows : Knows known before) (sound : before.2.Sound)
    (leads : before.2.Leads .equivalence after.2) (graph : after.1.own.graph = before.1.own.graph) :
    Knows known after :=
  ⟨knows.ready.of_leads sound leads (graph.trans knows.ready.uses), knows.full⟩

/-- The graph tells of the literals of live clauses. -/
theorem Knows.exists_implies? (knows : Knows (some graph) state) (sound : state.2.Sound)
    (live : state.2.arena.live? handle = some clause) {a b : Literal} {name : Literal}
    (isA : a.var = name.var) (member : name ∈ clause.literals) (inside : b ∈ clause.literals) :
    ∃ answer, graph.implies? a b = some answer := by
  have admits := sound.wellFormed.admits _ (Arena.contents_of_live live)
  have same : graph.numVars = state.2.picture.numVars := (knows.ready.reflects graph rfl).numVars
  have presentA := admits.present name member
  have presentB := admits.present b inside
  exact (knows.full graph rfl).exists_implies? (isA ▸ presentA.1) (isA ▸ same ▸ presentA.2.1)
    presentB.1 (same ▸ presentB.2.1)

/-- A search through clauses refined the engine, and it spent steps. -/
structure Searches (limit : UInt64) (slack : Nat) (before after : Tool Subsumer × Engine) : Prop where
  own : after.1.own = before.1.own
  refines : before.2.Refines after.2
  counts : after.1.budget.Counts limit slack
  pays : before.1.budget.Pays after.1.budget

theorem Searches.refl (sound : state.2.Sound) (counts : state.1.budget.Counts limit slack) :
    Searches limit slack state state :=
  ⟨rfl, .refl sound, counts, .refl _⟩

theorem Searches.trans {first : Nat} (one : Searches limit first before middle)
    (two : Searches limit slack middle after) : Searches limit slack before after :=
  ⟨two.own.trans one.own, one.refines.trans two.refines, two.counts, one.pays.trans two.pays⟩

omit [Realm] in
/-- Steps are asked for. -/
theorem spend_counts (extra steps : Nat) (counts : state.1.budget.Counts limit slack)
    (bound : steps ≤ extra) (room : slack + extra < 2 ^ 63) :
    ∃ goOn budget, (Work.spend steps : Work Subsumer Bool) state =
        .done goOn ({ state.1 with budget := budget }, state.2) ∧
      (goOn = true → budget.Counts limit 0) ∧ (goOn = false → budget.isExhausted = true) ∧
      budget.Counts limit (slack + extra) ∧ state.1.budget.Pays budget := by
  have word : (UInt64.ofNat steps).toNat ≤ extra := by
    rw [UInt64.toNat_ofNat']
    exact (Nat.mod_le _ _).trans bound
  obtain ⟨granted, counted⟩ := counts.spend word room state.2.interrupted rfl
  exact ⟨_, _, rfl, granted, Budget.isExhausted_of_spend, counted, Budget.pays_spend _ _ _⟩

/-- A clause is searched with the implication graph. -/
theorem hiddenLoop_finishes (strict : ¬ Realm.Lenient) (fuel : Nat) (sound : state.2.Sound)
    (knows : Knows (some graph) state) (live : state.2.arena.live? handle = some clause)
    (counts : state.1.budget.Counts limit 0) (enough : clause.size < fuel) :
    (hiddenLoop graph handle fuel).Finishes state
      (fun gone after => Searches limit (2 ^ 62) state after ∧
        (gone = true → after.2.arena.live? handle = none))
      fun cause _ => cause.isUnsat = true := by
  induction fuel generalizing state clause with
  | zero => exact absurd enough (Nat.not_lt_zero _)
  | succ fuel ih =>
    have done : ∀ budget : Budget, budget.Counts limit (2 ^ 62) → state.1.budget.Pays budget →
        (pure false : Work Subsumer Bool).Finishes ({ state.1 with budget := budget }, state.2)
          (fun gone after => Searches limit (2 ^ 62) state after ∧
            (gone = true → after.2.arena.live? handle = none))
          fun cause _ => cause.isUnsat = true :=
      fun _ counts pays => .pure ⟨⟨rfl, .refl sound, counts, pays⟩, nofun⟩
    unfold hiddenLoop
    refine .step (Run.lift_of_done (Engine.clause_of_get? (Arena.live?_eq_some.1 live).1)) ?_
    split
    next => exact done _ (counts.mono (Nat.zero_le _)) (.refl _)
    next long =>
    have three : 3 ≤ clause.literals.length := Nat.le_of_not_lt long
    have small : clause.size ≤ 2 ^ 31 := (sound.ascends live).length_le
    obtain ⟨goOn, budget, spent, granted, _, counted, pays⟩ := spend_counts (2 ^ 62)
      (clause.size * clause.size) counts (Nat.mul_le_mul small small) (by omega)
    refine .step spent ?_
    cases goOn with
    | false => exact done budget (counted.mono (by omega)) pays
    | true =>
    have admits := sound.wellFormed.admits _ (Arena.contents_of_live live)
    have present : ∀ literal ∈ clause.literals, 0 < literal.var := fun literal member =>
      (admits.present literal member).1
    have reflects := knows.ready.reflects graph rfl
    obtain ⟨isTautology, asked⟩ := exists_hasHiddenTautology? fun source member target inside =>
      knows.exists_implies? sound live (Literal.var_complement (present source member)) member inside
    rw [if_pos rfl]
    refine .step (Run.access_of_eq_some asked) ?_
    split
    next isTrue =>
      rw [isTrue] at asked
      obtain ⟨source, member, target, inside, implied⟩ := implied_of_hasHiddenTautology? asked
      obtain ⟨_, after, ended, refines, _, dead⟩ := Engine.removeClause_returns
        (Engine.works_removeHidden live three member inside reflects (knows.ready.rests graph rfl)
          implied) sound live
      refine .step (Run.lift_of_done ended) (.step rfl (.pure ?_))
      exact ⟨⟨rfl, refines.count _, counted.mono (by omega), pays⟩, fun _ => dead⟩
    next =>
      obtain ⟨hidden, asked⟩ : ∃ hidden, hiddenLiteral? graph clause.literals clause.literals =
          some hidden :=
        exists_hiddenLiteral? fun source member target inside =>
          knows.exists_implies? sound live rfl member inside
      refine .step (Run.access_of_eq_some asked) ?_
      cases hidden with
      | none => exact done budget (counted.mono (by omega)) pays
      | some literal =>
        obtain ⟨member, target, inside, different, implied⟩ := implied_of_hiddenLiteral? asked
        have reaches := reflects.reaches_of_implies? (present literal member)
          (present target inside) implied
        have strengthens : (liftM (Engine.strengthen handle literal) : Work Subsumer Unit).Finishes
            ({ state.1 with budget := budget }, state.2) _ _ :=
          .lift (Engine.strengthen_finishes sound strict live member
            (Engine.rup_of_hidden live inside different reaches))
        refine strengthens.bind ?_
        rintro _ ⟨_, middle⟩ ⟨rfl, refines, shortened, _⟩
        obtain ⟨shorter, liveShorter, literals⟩ := shortened.long three
        have refines := refines.count
          { middle.tally with hiddenLiterals := middle.tally.hiddenLiterals + 1 }
        have knowsNext : Knows (some graph) ({ state.1 with budget := budget }, { middle with
            tally := { middle.tally with hiddenLiterals := middle.tally.hiddenLiterals + 1 } }) :=
          knows.of_leads sound refines.leads rfl
        refine .step rfl ((ih refines.sound knowsNext liveShorter (granted rfl) ?_).imp ?_
          fun _ _ => id)
        · have length : shorter.size < clause.size := by
            unfold Clause.size
            rw [literals, List.length_erase_of_mem member]
            omega
          omega
        · rintro gone after ⟨searches, dead⟩
          exact ⟨⟨searches.own, refines.trans searches.refines, searches.counts,
            pays.trans searches.pays⟩, dead⟩

/-- The treatment of hidden literals comes to its end. -/
theorem hidden_finishes (strict : ¬ Realm.Lenient) (sound : state.2.Sound)
    (knows : Knows known state) (live : state.2.arena.live? handle = some clause)
    (counts : state.1.budget.Counts limit 0) :
    (hidden handle).Finishes state
      (fun gone after => Searches limit (2 ^ 62) state after ∧
        (gone = true → after.2.arena.live? handle = none))
      fun cause _ => cause.isUnsat = true := by
  have uses : state.1.own.graph = known := knows.ready.uses
  unfold hidden
  refine .step (Work.own_apply state.1 state.2) ?_
  split
  next => exact .pure ⟨.refl sound (counts.mono (Nat.zero_le _)), nofun⟩
  next graph isKnown =>
    obtain rfl : known = some graph := uses.symm.trans isKnown
    refine .step (Run.lift_of_done (Engine.clause_of_get? (Arena.live?_eq_some.1 live).1)) ?_
    exact hiddenLoop_finishes strict _ sound knows live counts (Nat.lt_succ_self _)

/-! ## Checking a clause against others -/

/-- A larger clause goes, after the smaller one became irredundant if need be. -/
theorem subsume_finishes {α : Type} {small large : Handle} {smaller larger : Clause}
    {next : Work Subsumer α} {done : α → Tool Subsumer × Engine → Prop}
    {failed : Error → Tool Subsumer × Engine → Prop} (sound : state.2.Sound)
    (different : small ≠ large) (liveSmall : state.2.arena.live? small = some smaller)
    (liveLarge : state.2.arena.live? large = some larger)
    (part : smaller.literals ⊆ larger.literals)
    (rest : ∀ after : Engine, state.2.Refines after → after.arena.live? large = none →
      after.HasLive small smaller.literals → next.Finishes (state.1, after) done failed) :
    (do
      if larger.isRedundant then pure () else Engine.makeIrredundant small
      Engine.removeClause large
      Engine.count fun tally => { tally with subsumed := tally.subsumed + 1 }
      next : Work Subsumer α).Finishes state done failed := by
  have removes : ∀ before : Engine, state.2.Refines before → before.Subsumes small large →
      before.HasLive small smaller.literals → (do
        Engine.removeClause large
        Engine.count fun tally => { tally with subsumed := tally.subsumed + 1 }
        next : Work Subsumer α).Finishes (state.1, before) done failed := by
    intro before refines subsumes has
    obtain ⟨_, _, _, live, _⟩ := id subsumes.clauses
    obtain ⟨_, after, ended, further, keeps, dead⟩ := Engine.removeClause_returns
      (Engine.works_removeSubsumed subsumes) refines.sound live
    refine .step (Run.lift_of_done ended) (.step rfl (rest _ ((refines.trans further).count _) dead ?_))
    exact has.of_keepsOthers keeps different
  split
  next redundant =>
    refine removes state.2 (.refl sound) ⟨different, smaller, larger, liveSmall, liveLarge, part, ?_⟩
      ⟨smaller, liveSmall, rfl⟩
    exact fun irredundant => absurd redundant (by simp [irredundant])
  next =>
    obtain ⟨_, after, ended, refines, same, copy, liveCopy, literals, irredundant⟩ :=
      Engine.makeIrredundant_returns sound liveSmall
    refine .step (Run.lift_of_done ended) (removes after refines ?_ ⟨copy, liveCopy, literals⟩)
    exact Engine.subsumes_of_promoted different liveLarge part same liveCopy literals irredundant

/-- A clause was looked at, and how that ended. Unless the steps are used up the counter is
where it was, and a clause that lost literals has fewer. -/
structure Looked (limit : UInt64) (slack : Nat) (handle : Handle) (clause : Clause)
    (before : Tool Subsumer × Engine) (look : Look) (after : Tool Subsumer × Engine) : Prop where
  searches : Searches limit (slack + 2 ^ 31) before after
  granted : look ≠ .finished → after.1.budget.Counts limit slack
  shorter : look = .shorter → ∃ new, after.2.arena.get? handle = some new ∧
    (new.isDead = true ∨ new.size < clause.size)

/-- A search may go before a look. -/
theorem Looked.of_searches {look : Look} (searches : Searches limit slack before middle)
    {new : Clause} (size : new.size ≤ clause.size)
    (looked : Looked limit slack handle new middle look after) :
    Looked limit slack handle clause before look after := by
  refine ⟨searches.trans looked.searches, looked.granted, fun shorter => ?_⟩
  obtain ⟨last, found, less⟩ := looked.shorter shorter
  exact ⟨last, found, less.imp_right fun less => less.trans_le size⟩

/-- A clause that lost a literal is dead, or it was a candidate before it is marked. -/
theorem markShortened_returns {engine : Engine} {middle : Engine} {new : Clause}
    (refines : engine.Refines middle) (found : middle.arena.get? handle = some new)
    (marked : new.isDead = true ∨ new.isCandidate = true) :
    (Engine.markClause handle fun flags =>
      if flags.dead then flags else { flags with subsume := true, strengthen := true }).Returns
      middle fun _ after => engine.Refines after ∧ ∃ left, after.arena.get? handle = some left ∧
        left.literals = new.literals ∧ left.isDead = new.isDead := by
  let change : ClauseFlags → ClauseFlags := fun flags =>
    if flags.dead then flags else { flags with subsume := true, strengthen := true }
  have wears : new.WearsTo { new with flags := change new.flags } := by
    cases dead : new.flags.dead with
    | true =>
      rw [show change new.flags = new.flags from if_pos dead]
      exact .refl new
    | false =>
      have candidate : new.isCandidate = true :=
        marked.resolve_left (by rw [Clause.isDead, dead]; exact Bool.false_ne_true)
      rw [show change new.flags = { new.flags with subsume := true, strengthen := true } from
        if_neg (by rw [dead]; exact Bool.false_ne_true)]
      exact .of_flags rfl id candidate.symm
  have kept : ∀ flags, (change flags).dead = flags.dead ∧
      (change flags).redundant = flags.redundant ∧ (change flags).queued = flags.queued := by
    intro flags
    unfold change
    split <;> exact ⟨rfl, rfl, rfl⟩
  refine (Engine.markClause_returns refines.sound found (fun flags => (kept flags).1)
    fun flags => (kept flags).2.1).imp fun _ after ⟨soundAfter, leads, marks, _⟩ => ?_
  exact ⟨refines.trans (.of_marks soundAfter leads marks found wears (kept new.flags).2.2), _,
    marks.get?_self found, rfl, (kept new.flags).1⟩

/-- Forward subsumption along a list comes to its end. -/
theorem forwardAgainst_finishes (strict : ¬ Realm.Lenient) (size : Nat) (others : List Handle)
    (sound : state.2.Sound) (found : state.2.arena.get? handle = some clause)
    (counts : state.1.budget.Counts limit slack) (room : slack + 2 ^ 31 < 2 ^ 63) :
    (forwardAgainst handle size others).Finishes state (Looked limit slack handle clause state)
      fun cause _ => cause.isUnsat = true := by
  induction others generalizing state with
  | nil =>
    exact .pure ⟨.refl sound (counts.mono (Nat.le_add_right _ _)), fun _ => counts, by simp⟩
  | cons other rest ih =>
    unfold forwardAgainst
    split
    next => exact ih sound found counts
    next different =>
    refine .step rfl ?_
    split
    next => exact ih sound found counts
    next subsumer liveOther =>
    split
    next => exact ih sound found counts
    next =>
    have small : subsumer.size ≤ 2 ^ 31 := (sound.ascends liveOther).length_le
    obtain ⟨goOn, budget, spent, granted, _, counted, pays⟩ :=
      spend_counts (2 ^ 31) subsumer.size counts small room
    have finished : (pure .finished : Work Subsumer Look).Finishes
        ({ state.1 with budget := budget }, state.2) (Looked limit slack handle clause state)
        fun cause _ => cause.isUnsat = true :=
      .pure ⟨⟨rfl, .refl sound, counted, pays⟩, fun apart => absurd rfl apart, nofun⟩
    refine .step spent ?_
    cases goOn with
    | false => exact finished
    | true =>
    have counts : budget.Counts limit slack := (granted rfl).mono (Nat.zero_le _)
    rw [if_pos rfl]
    refine .step (Run.lift_of_done (Engine.clause_of_get? found)) ?_
    split
    next => exact finished
    next alive =>
    have live := Arena.live?_of_alive found alive
    have inOther := Arena.contents_of_live liveOther
    have present := (sound.ascends liveOther).1
    split
    next subsumes =>
      refine subsume_finishes sound different liveOther live
        (Subsumption.subset_of_check present subsumes) fun after refines dead has => ?_
      exact .pure ⟨⟨rfl, refines, counted, pays⟩, fun apart => absurd rfl apart, nofun⟩
    next literal strengthens =>
      obtain ⟨member, flipped, agree⟩ := Subsumption.resolvable_of_check present strengthens
      have strengthens : (liftM (Engine.strengthen handle literal.complement) :
          Work Subsumer Unit).Finishes ({ state.1 with budget := budget }, state.2) _ _ :=
        .lift (Engine.strengthen_finishes sound strict live flipped
          (Engine.rup_of_resolvable sound inOther (Arena.contents_of_live live) member agree))
      refine strengthens.bind ?_
      rintro _ ⟨_, middle⟩ ⟨rfl, refines, _, new, foundNew, _, lighter, marked⟩
      obtain ⟨_, after, ended, refines, left, foundLeft, literals, sameDead⟩ :=
        markShortened_returns refines foundNew marked
      refine .step (Run.lift_of_done ended) (.pure ⟨⟨rfl, refines, counted, pays⟩, fun _ => counts,
        fun _ => ⟨left, foundLeft, ?_⟩⟩)
      cases dead : new.isDead with
      | true => exact .inl (sameDead.trans dead)
      | false =>
        right
        rw [Clause.weight, dead, Clause.weight_of_live live] at lighter
        rw [Clause.size, literals]
        exact lighter
    next =>
      have same : Searches limit slack state ({ state.1 with budget := budget }, state.2) :=
        ⟨rfl, .refl sound, counts, pays⟩
      have onward : (forwardAgainst handle size rest).Finishes
          ({ state.1 with budget := budget }, state.2) _ _ := ih sound found counts
      exact onward.imp (fun _ _ looked => looked.of_searches same le_rfl) fun _ _ => id

/-- So it does along the lists of all literals. -/
theorem forwardThrough_finishes (strict : ¬ Realm.Lenient) (size : Nat) (literals : List Literal)
    (sound : state.2.Sound) (inside : ∀ literal ∈ literals, literal.var < state.2.trail.vars.size)
    (found : state.2.arena.get? handle = some clause)
    (counts : state.1.budget.Counts limit slack) (room : slack + 2 ^ 31 < 2 ^ 63) :
    (forwardThrough handle size literals).Finishes state (Looked limit slack handle clause state)
      fun cause _ => cause.isUnsat = true := by
  induction literals generalizing state clause with
  | nil =>
    exact .pure ⟨.refl sound (counts.mono (Nat.le_add_right _ _)), fun _ => counts, by simp⟩
  | cons literal rest ih =>
    obtain ⟨first, others⟩ := List.forall_mem_cons.1 inside
    obtain ⟨entry, isEntry⟩ := sound.roomy.exists_entry first
    have list : state.2.index.list? literal = some entry.handles := by
      rw [Occurrences.list?, isEntry, Option.map_some]
    unfold forwardThrough
    refine .step (Run.lift_of_done (Engine.occurrences_of_list? list)) ?_
    refine (forwardAgainst_finishes strict size _ sound found counts room).bind ?_
    intro look middle looked
    cases look with
    | nothing =>
      have refines := looked.searches.refines
      obtain ⟨new, foundNew, wears⟩ := refines.wears.arena.new found
      have counts := looked.granted (by simp)
      refine (ih refines.sound (fun literal member => ?_) foundNew counts).imp
        (fun _ _ => Looked.of_searches ⟨looked.searches.own, refines, counts, looked.searches.pays⟩
          wears.size_le) fun _ _ => id
      rw [refines.leads.vars_size sound]
      exact others literal member
    | finished => exact .pure looked
    | shorter => exact .pure looked

/-- A clause is checked against others, and again whenever it became shorter. -/
theorem forwardLoop_finishes (strict : ¬ Realm.Lenient) (fuel : Nat) (sound : state.2.Sound)
    (found : state.2.arena.get? handle = some clause)
    (counts : state.1.budget.Counts limit slack) (room : slack + 2 ^ 31 < 2 ^ 63)
    (enough : 0 < fuel ∧ (clause.isDead = true ∨ clause.size < fuel)) :
    (forwardLoop handle fuel).Finishes state (fun _ after => Searches limit (slack + 2 ^ 31) state after)
      fun cause _ => cause.isUnsat = true := by
  induction fuel generalizing state clause with
  | zero => exact absurd enough.1 (Nat.lt_irrefl 0)
  | succ fuel ih =>
    unfold forwardLoop
    refine .step (Run.lift_of_done (Engine.clause_of_get? found)) ?_
    split
    next => exact .pure (.refl sound (counts.mono (Nat.le_add_right _ _)))
    next alive =>
    have live := Arena.live?_of_alive found alive
    have two : 2 ≤ clause.size := (sound.wellFormed.admits _ (Arena.contents_of_live live)).two
    have fits := enough.2.resolve_left alive
    have inside : ∀ literal ∈ clause.literals.flatMap fun literal => [literal, literal.complement],
        literal.var < state.2.trail.vars.size := by
      intro literal member
      obtain ⟨own, isOwn, which⟩ := List.mem_flatMap.1 member
      obtain ⟨positive, bound⟩ := sound.var_lt live isOwn
      simp only [List.mem_cons, List.not_mem_nil, or_false] at which
      rcases which with rfl | rfl
      · exact bound
      · rwa [Literal.var_complement positive]
    refine (forwardThrough_finishes strict clause.size _ sound inside found counts room).bind ?_
    intro look middle looked
    cases look with
    | nothing => exact .pure looked.searches
    | finished => exact .pure looked.searches
    | shorter =>
      obtain ⟨new, foundNew, less⟩ := looked.shorter rfl
      refine (ih looked.searches.refines.sound foundNew (looked.granted (by simp))
        ⟨by omega, less.imp_right fun less => by omega⟩).imp (fun _ _ => looked.searches.trans)
          fun _ _ => id

/-- Forward subsumption of a clause comes to its end. -/
theorem forward_finishes (strict : ¬ Realm.Lenient) (sound : state.2.Sound)
    (found : state.2.arena.get? handle = some clause)
    (counts : state.1.budget.Counts limit slack) (room : slack + 2 ^ 31 < 2 ^ 63) :
    (forward handle).Finishes state (fun _ after => Searches limit (slack + 2 ^ 31) state after)
      fun cause _ => cause.isUnsat = true := by
  unfold forward
  refine .step (Run.lift_of_done (Engine.clause_of_get? found)) ?_
  exact forwardLoop_finishes strict _ sound found counts room
    ⟨Nat.succ_pos _, .inr (Nat.lt_succ_self _)⟩

end Subsumer

end CnfSimplifier
