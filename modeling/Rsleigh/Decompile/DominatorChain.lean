import Rsleigh.Decompile.Dominators

namespace Rsleigh.Decompile

open Paths

-- fold.rs. What is above a block in a table of immediate dominators; the entry stands above itself.
def domLoop (dom : List BlockId) (a : BlockId) : Nat → BlockId → Bool
  | 0, _ => false
  | steps + 1, cur =>
    let above := (dom[cur]?).getD cur
    if above = a then true else if above = cur then false else domLoop dom a steps above

def phiDomDominates (dom : List BlockId) (a b : BlockId) : Bool :=
  if a = b then true
  else if dom.length ≤ a ∨ dom.length ≤ b then false
  else domLoop dom a dom.length b

def chainFrom (dom : List BlockId) : Nat → BlockId → List BlockId
  | 0, _ => []
  | steps + 1, cur =>
    cur :: match dom[cur]? with
      | none => []
      | some above => if above = cur then [] else chainFrom dom steps above

def firstIn (dom : List BlockId) (chain : List BlockId) : Nat → BlockId → Option BlockId
  | 0, _ => none
  | steps + 1, cur =>
    if cur ∈ chain then some cur
    else match dom[cur]? with
      | none => none
      | some above => if above = cur then none else firstIn dom chain steps above

def phiCommonDomPair (dom : List BlockId) (a b : BlockId) : Option BlockId :=
  firstIn dom (chainFrom dom dom.length a) dom.length b

def phiNearestCommonDom (dom : List BlockId) : List BlockId → Option BlockId
  | [] => none
  | first :: rest => rest.foldlM (phiCommonDomPair dom) first

section Chains

-- A table whose chains all come to the entry, in fewer steps than it has blocks.
structure Chained (dom : List BlockId) (entry : BlockId) (rank : BlockId → Nat) : Prop where
  root : dom[entry]? = some entry
  short : ∀ b < dom.length, rank b < dom.length
  inside : ∀ b d : BlockId, dom[b]? = some d → d < dom.length
  rises : ∀ b d : BlockId, dom[b]? = some d → b ≠ entry → rank d < rank b

def Above (dom : List BlockId) : BlockId → BlockId → Prop := Relation.ReflTransGen fun b d => dom[b]? = some d

variable {dom : List BlockId} {entry : BlockId} {rank : BlockId → Nat}

theorem above_step (isAbove : dom[b]? = some d) (other : e ≠ b) : Above dom b e ↔ Above dom d e := by
  constructor
  · intro above
    rcases Relation.ReflTransGen.cases_head above with same | ⟨next,isNext,rest⟩
    · exact absurd same.symm other
    · rw [isAbove] at isNext
      exact Option.some.inj isNext ▸ rest
  · exact fun above => .head isAbove above

variable (chained : Chained dom entry rank)

include chained

theorem Chained.above_entry (above : Above dom entry d) : d = entry := by
  induction above with
  | refl => rfl
  | tail _ isAbove ih =>
    rw [ih,chained.root] at isAbove
    exact (Option.some.inj isAbove).symm

theorem Chained.entry_above (inside : b < dom.length) : Above dom b entry := by
  induction bound : rank b using Nat.strongRecOn generalizing b with
  | ind _ ih =>
    by_cases isEntry : b = entry
    · rw [isEntry]
      exact .refl
    · have isAbove : dom[b]? = some dom[b] := List.getElem?_eq_getElem inside
      exact .head isAbove (ih _ (bound ▸ chained.rises b _ isAbove isEntry)
        (chained.inside b _ isAbove) rfl)

theorem Chained.above_inside (above : Above dom b d) (inside : b < dom.length) : d < dom.length := by
  rcases Relation.ReflTransGen.cases_tail above with same | ⟨_,_,isAbove⟩
  · exact same ▸ inside
  · exact chained.inside _ _ isAbove

theorem Chained.fixed (isAbove : dom[b]? = some b) : b = entry := by
  by_contra other
  exact Nat.lt_irrefl _ (chained.rises b b isAbove other)

theorem Chained.domLoop_iff {steps : Nat} (enough : rank b < steps) (inside : b < dom.length) (other : a ≠ b) :
    domLoop dom a steps b = true ↔ Above dom b a := by
  induction steps generalizing b with
  | zero => exact absurd enough (Nat.not_lt_zero _)
  | succ steps ih =>
    have isAbove : dom[b]? = some dom[b] := List.getElem?_eq_getElem inside
    rw [above_step isAbove other]
    unfold domLoop
    rw [isAbove,Option.getD_some]
    dsimp only
    by_cases found : dom[b] = a
    · simp only [found,if_true,true_iff]
      exact .refl
    · rw [if_neg found]
      by_cases fixed : dom[b] = b
      · rw [if_pos fixed,fixed]
        have isEntry := chained.fixed (isAbove.trans (congrArg some fixed))
        constructor
        · intro wrong
          cases wrong
        · intro above
          rw [isEntry] at above other
          exact absurd (chained.above_entry above) other
      · rw [if_neg fixed]
        have notEntry : b ≠ entry := by
          intro isEntry
          subst isEntry
          exact fixed (Option.some.inj (isAbove.symm.trans chained.root))
        have lower := chained.rises b _ isAbove notEntry
        exact ih (Nat.lt_of_lt_of_le lower (Nat.le_of_lt_succ enough)) (chained.inside b _ isAbove)
          (fun same => found same.symm)

theorem Chained.dominates_iff (inside : b < dom.length) : phiDomDominates dom a b = true ↔ Above dom b a := by
  unfold phiDomDominates
  by_cases same : a = b
  · rw [if_pos same,same]
    exact ⟨fun _ => .refl,fun _ => rfl⟩
  · rw [if_neg same]
    split
    · rename_i outside
      constructor
      · intro wrong
        cases wrong
      · intro above
        rcases outside with outside | outside
        · exact absurd (chained.above_inside above inside) (Nat.not_lt_of_le outside)
        · exact absurd inside (Nat.not_lt_of_le outside)
    · exact chained.domLoop_iff (chained.short b inside) inside same

theorem Chained.mem_chainFrom {steps : Nat} (enough : rank b < steps) (inside : b < dom.length) :
    d ∈ chainFrom dom steps b ↔ Above dom b d := by
  induction steps generalizing b with
  | zero => exact absurd enough (Nat.not_lt_zero _)
  | succ steps ih =>
    have isAbove : dom[b]? = some dom[b] := List.getElem?_eq_getElem inside
    unfold chainFrom
    rw [isAbove,List.mem_cons]
    dsimp only
    by_cases same : d = b
    · rw [same]
      exact ⟨fun _ => .refl,fun _ => .inl rfl⟩
    · rw [above_step isAbove same]
      by_cases fixed : dom[b] = b
      · rw [if_pos fixed,fixed]
        have isEntry := chained.fixed (isAbove.trans (congrArg some fixed))
        constructor
        · rintro (here | there)
          · exact absurd here same
          · cases there
        · intro above
          rw [isEntry] at above same
          exact absurd (chained.above_entry above) same
      · rw [if_neg fixed]
        have notEntry : b ≠ entry := by
          intro isEntry
          subst isEntry
          exact fixed (Option.some.inj (isAbove.symm.trans chained.root))
        have lower := chained.rises b _ isAbove notEntry
        rw [ih (Nat.lt_of_lt_of_le lower (Nat.le_of_lt_succ enough)) (chained.inside b _ isAbove)]
        exact ⟨fun found => found.resolve_left same,.inr⟩

theorem Chained.firstIn_spec {chain : List BlockId} {steps : Nat} (found : firstIn dom chain steps b = some c)
    (inside : b < dom.length) : c ∈ chain ∧ Above dom b c ∧ ∀ d ∈ chain, Above dom b d → Above dom c d := by
  induction steps generalizing b with
  | zero => cases found
  | succ steps ih =>
    unfold firstIn at found
    split at found
    · rename_i member
      obtain rfl := Option.some.inj found
      exact ⟨member,.refl,fun d _ above => above⟩
    · rename_i absent
      have isAbove : dom[b]? = some dom[b] := List.getElem?_eq_getElem inside
      rw [isAbove] at found
      dsimp only at found
      split at found
      · cases found
      · obtain ⟨member,above,nearest⟩ := ih found (chained.inside b _ isAbove)
        refine ⟨member,.head isAbove above,fun d isChain fromB => nearest d isChain ?_⟩
        have other : d ≠ b := fun same => absent (same ▸ isChain)
        exact (above_step isAbove other).mp fromB

theorem Chained.pair_spec (found : phiCommonDomPair dom a b = some c) (insideA : a < dom.length)
    (insideB : b < dom.length) :
    Above dom a c ∧ Above dom b c ∧ ∀ d, Above dom a d → Above dom b d → Above dom c d := by
  obtain ⟨member,above,nearest⟩ := chained.firstIn_spec found insideB
  have onChain : ∀ {d}, d ∈ chainFrom dom dom.length a ↔ Above dom a d :=
    chained.mem_chainFrom (chained.short a insideA) insideA
  exact ⟨onChain.mp member,above,fun d fromA fromB => nearest d (onChain.mpr fromA) fromB⟩

theorem Chained.foldlM_spec {rest : List BlockId} (found : rest.foldlM (phiCommonDomPair dom) first = some c)
    (insideFirst : first < dom.length) (insideRest : ∀ b ∈ rest, b < dom.length) :
    (∀ b ∈ first :: rest, Above dom b c) ∧ ∀ d, (∀ b ∈ first :: rest, Above dom b d) → Above dom c d := by
  induction rest generalizing first with
  | nil =>
    obtain rfl := Option.some.inj found
    exact ⟨fun b member => List.mem_singleton.mp member ▸ .refl,fun d above => above _ List.mem_cons_self⟩
  | cons second rest ih =>
    rw [List.foldlM_cons,Option.bind_eq_bind,Option.bind_eq_some_iff] at found
    obtain ⟨middle,isMiddle,found⟩ := found
    obtain ⟨fromFirst,fromSecond,nearest⟩ :=
      chained.pair_spec isMiddle insideFirst (insideRest _ List.mem_cons_self)
    obtain ⟨common,least⟩ := ih found (chained.above_inside fromFirst insideFirst)
      fun b member => insideRest b (List.mem_cons_of_mem _ member)
    have onward := common middle List.mem_cons_self
    constructor
    · intro b member
      rcases List.mem_cons.mp member with rfl | member
      · exact fromFirst.trans onward
      · rcases List.mem_cons.mp member with rfl | member
        · exact fromSecond.trans onward
        · exact common b (List.mem_cons_of_mem _ member)
    · intro d above
      apply least
      intro b member
      rcases List.mem_cons.mp member with rfl | member
      · exact nearest d (above _ List.mem_cons_self) (above _ (List.mem_cons_of_mem _ List.mem_cons_self))
      · exact above b (List.mem_cons_of_mem _ (List.mem_cons_of_mem _ member))

theorem Chained.nearest_spec {blocks : List BlockId} (found : phiNearestCommonDom dom blocks = some c)
    (inside : ∀ b ∈ blocks, b < dom.length) :
    (∀ b ∈ blocks, Above dom b c) ∧ ∀ d, (∀ b ∈ blocks, Above dom b d) → Above dom c d := by
  cases blocks with
  | nil => cases found
  | cons first rest =>
    exact chained.foldlM_spec found (inside _ List.mem_cons_self) fun b member => inside b (List.mem_cons_of_mem _ member)

end Chains

section Table

variable {cfg : RootedCfg} {dom : List BlockId}

open Classical in
-- How many other blocks dominate a block; all do when it is not reached.
noncomputable def strictDominators (cfg : RootedCfg) (b : BlockId) : Finset BlockId :=
  (Finset.range cfg.blocks.length).filter fun d => d ≠ b ∧ Dominates cfg.Edge cfg.entry d b

open Classical in
theorem mem_strict : d ∈ strictDominators cfg b ↔ d < cfg.blocks.length ∧ d ≠ b ∧ Dominates cfg.Edge cfg.entry d b := by
  unfold strictDominators
  rw [Finset.mem_filter,Finset.mem_range]

theorem strict_short (inside : b < cfg.blocks.length) : (strictDominators cfg b).card < cfg.blocks.length := by
  have proper : strictDominators cfg b ⊂ Finset.range cfg.blocks.length := by
    refine Finset.ssubset_iff_subset_ne.mpr ⟨fun d member => Finset.mem_range.mpr (mem_strict.mp member).1,fun same => ?_⟩
    have member : b ∈ strictDominators cfg b := same ▸ Finset.mem_range.mpr inside
    exact (mem_strict.mp member).2.1 rfl
  simpa using Finset.card_lt_card proper

theorem strict_entry : (strictDominators cfg cfg.entry).card = 0 := by
  rw [Finset.card_eq_zero,Finset.eq_empty_iff_forall_notMem]
  intro d member
  obtain ⟨_,other,dominates⟩ := mem_strict.mp member
  exact other (List.mem_singleton.mp (dominates _ .start))

theorem strict_rises (reached : Relation.ReflTransGen cfg.Edge cfg.entry b)
    (isImmediate : ImmediatelyDominates cfg.Edge cfg.entry d b) :
    (strictDominators cfg d).card < (strictDominators cfg b).card := by
  apply Finset.card_lt_card
  have above := dominator_reached reached isImmediate.dominates
  have member : d ∈ strictDominators cfg b :=
    mem_strict.mpr ⟨reached_inside above,isImmediate.strict,isImmediate.dominates⟩
  refine Finset.ssubset_iff_subset_ne.mpr ⟨fun e isStrict => ?_,fun same => ?_⟩
  · obtain ⟨inRange,_,dominates⟩ := mem_strict.mp isStrict
    refine mem_strict.mpr ⟨inRange,fun isB => ?_,dominates_trans dominates isImmediate.dominates⟩
    rw [isB] at dominates
    exact isImmediate.strict (dominates_antisymm reached isImmediate.dominates dominates)
  · rw [← same] at member
    exact (mem_strict.mp member).2.1 rfl

variable (table : DominatorTable cfg dom)

include table

theorem DominatorTable.chained : Chained dom cfg.entry fun b => (strictDominators cfg b).card where
  root := table.root
  short b inside := by
    rw [table.length] at inside ⊢
    exact strict_short inside
  inside b d isAbove := by
    have inside : b < cfg.blocks.length := table.length ▸ (List.getElem?_eq_some_iff.mp isAbove).1
    rw [table.length]
    by_cases reached : Relation.ReflTransGen cfg.Edge cfg.entry b
    · by_cases isEntry : b = cfg.entry
      · rw [isEntry,table.root] at isAbove
        exact Option.some.inj isAbove ▸ cfg.entered
      · obtain ⟨found,isFound,above,_⟩ := table.reached b reached isEntry
        rw [isFound] at isAbove
        exact Option.some.inj isAbove ▸ reached_inside above
    · rw [table.unreached b inside reached] at isAbove
      exact Option.some.inj isAbove ▸ cfg.entered
  rises b d isAbove other := by
    have inside : b < cfg.blocks.length := table.length ▸ (List.getElem?_eq_some_iff.mp isAbove).1
    by_cases reached : Relation.ReflTransGen cfg.Edge cfg.entry b
    · obtain ⟨found,isFound,_,isImmediate⟩ := table.reached b reached other
      rw [isFound] at isAbove
      exact Option.some.inj isAbove ▸ strict_rises reached isImmediate
    · rw [table.unreached b inside reached] at isAbove
      obtain rfl := Option.some.inj isAbove
      rw [strict_entry]
      apply Finset.card_pos.mpr
      refine ⟨cfg.entry,mem_strict.mpr ⟨cfg.entered,Ne.symm other,?_⟩⟩
      exact fun nodes path => absurd (path_reached path) reached

theorem DominatorTable.above_dominates (above : Above dom b d) (reached : Relation.ReflTransGen cfg.Edge cfg.entry b) :
    Dominates cfg.Edge cfg.entry d b := by
  induction above with
  | refl => exact dominates_self b
  | @tail d e rest isAbove ih =>
    have reachedD := dominator_reached reached ih
    by_cases isEntry : d = cfg.entry
    · rw [isEntry,table.root] at isAbove
      rw [← Option.some.inj isAbove]
      exact dominates_root b
    · obtain ⟨found,isFound,_,isImmediate⟩ := table.reached d reachedD isEntry
      rw [isFound] at isAbove
      exact dominates_trans (Option.some.inj isAbove ▸ isImmediate.dominates) ih

theorem DominatorTable.above_iff (reached : Relation.ReflTransGen cfg.Edge cfg.entry b) :
    Above dom b d ↔ Dominates cfg.Edge cfg.entry d b := by
  refine ⟨fun above => table.above_dominates above reached,fun dominates => ?_⟩
  induction bound : (strictDominators cfg b).card using Nat.strongRecOn generalizing b with
  | ind _ ih =>
    by_cases same : d = b
    · rw [same]
      exact .refl
    · by_cases isEntry : b = cfg.entry
      · subst isEntry
        exact absurd (List.mem_singleton.mp (dominates _ .start)) same
      · obtain ⟨found,isFound,above,isImmediate⟩ := table.reached b reached isEntry
        exact .head isFound (ih _ (bound ▸ strict_rises reached isImmediate) above
          (isImmediate.closest d dominates same) rfl)

theorem DominatorTable.above_unreached (inside : b < cfg.blocks.length)
    (unreached : ¬Relation.ReflTransGen cfg.Edge cfg.entry b) : Above dom b d ↔ d = b ∨ d = cfg.entry := by
  have isAbove := table.unreached b inside unreached
  constructor
  · intro above
    rcases Relation.ReflTransGen.cases_head above with same | ⟨next,isNext,rest⟩
    · exact .inl same.symm
    · rw [isAbove] at isNext
      obtain rfl := Option.some.inj isNext
      exact .inr (table.chained.above_entry rest)
  · rintro (rfl | rfl)
    · exact .refl
    · exact .single isAbove

end Table

section Queries

variable {dom : List BlockId} {entry : BlockId} {rank : BlockId → Nat} (chained : Chained dom entry rank)

include chained

theorem Chained.firstIn_found {chain : List BlockId} (onChain : entry ∈ chain) {steps : Nat} (enough : rank b < steps)
    (inside : b < dom.length) : ∃ c, firstIn dom chain steps b = some c := by
  induction steps generalizing b with
  | zero => exact absurd enough (Nat.not_lt_zero _)
  | succ steps ih =>
    unfold firstIn
    by_cases member : b ∈ chain
    · exact ⟨b,if_pos member⟩
    · have isAbove : dom[b]? = some dom[b] := List.getElem?_eq_getElem inside
      have rises := chained.rises b dom[b] isAbove fun isEntry => member (isEntry ▸ onChain)
      have other : dom[b] ≠ b := by
        intro same
        rw [same] at rises
        exact absurd rises (Nat.lt_irrefl _)
      simp only [if_neg member,isAbove,if_neg other]
      exact ih (by omega) (chained.inside b _ isAbove)

theorem Chained.foldlM_found {rest : List BlockId} (insideFirst : first < dom.length)
    (insideRest : ∀ b ∈ rest, b < dom.length) : ∃ c, rest.foldlM (phiCommonDomPair dom) first = some c := by
  induction rest generalizing first with
  | nil => exact ⟨first,rfl⟩
  | cons second rest ih =>
    have insideSecond := insideRest second List.mem_cons_self
    have onChain : entry ∈ chainFrom dom dom.length first :=
      (chained.mem_chainFrom (chained.short first insideFirst) insideFirst).mpr (chained.entry_above insideFirst)
    obtain ⟨middle,isMiddle⟩ := chained.firstIn_found onChain (chained.short second insideSecond) insideSecond
    have above := (chained.pair_spec isMiddle insideFirst insideSecond).1
    rw [List.foldlM_cons,phiCommonDomPair,isMiddle]
    exact ih (chained.above_inside above insideFirst) fun b member => insideRest b (List.mem_cons_of_mem _ member)

end Queries

-- Of the blocks that are reached, the queries of the table tell which dominate one, and the lowest that dominates all
-- of some.
theorem dominator_queries (cfg : RootedCfg) : ∃ bound, ∀ fuel ≥ bound, ∃ dom,
    computeDominators fuel cfg.toCfg = some dom ∧
      (∀ a b, Relation.ReflTransGen cfg.Edge cfg.entry b →
        (phiDomDominates dom a b = true ↔ Dominates cfg.Edge cfg.entry a b)) ∧
      ∀ blocks, blocks ≠ [] → (∀ b ∈ blocks, Relation.ReflTransGen cfg.Edge cfg.entry b) →
        ∃ c, phiNearestCommonDom dom blocks = some c ∧
          ∀ d, Dominates cfg.Edge cfg.entry d c ↔ ∀ b ∈ blocks, Dominates cfg.Edge cfg.entry d b := by
  obtain ⟨bound,isTable⟩ := computeDominators_table cfg
  refine ⟨bound,fun fuel enough => ?_⟩
  obtain ⟨dom,isDom,table⟩ := isTable fuel enough
  have inside {b : BlockId} (reached : Relation.ReflTransGen cfg.Edge cfg.entry b) : b < dom.length :=
    table.length ▸ reached_inside reached
  refine ⟨dom,isDom,fun a b reached => (table.chained.dominates_iff (inside reached)).trans (table.above_iff reached),?_⟩
  intro blocks notEmpty reached
  have insideAll : ∀ b ∈ blocks, b < dom.length := fun b member => inside (reached b member)
  obtain ⟨c,found⟩ : ∃ c, phiNearestCommonDom dom blocks = some c := by
    cases blocks with
    | nil => exact absurd rfl notEmpty
    | cons first rest =>
      exact table.chained.foldlM_found (insideAll first List.mem_cons_self)
        fun b member => insideAll b (List.mem_cons_of_mem _ member)
  obtain ⟨common,nearest⟩ := table.chained.nearest_spec found insideAll
  refine ⟨c,found,fun d => ?_⟩
  obtain ⟨b,member⟩ := List.exists_mem_of_ne_nil blocks notEmpty
  have reachedC := dominator_reached (reached b member) ((table.above_iff (reached b member)).mp (common b member))
  rw [← table.above_iff reachedC]
  constructor
  · intro above b member
    exact (table.above_iff (reached b member)).mp ((common b member).trans above)
  · intro dominates
    exact nearest d fun b member => (table.above_iff (reached b member)).mpr (dominates b member)

end Rsleigh.Decompile
