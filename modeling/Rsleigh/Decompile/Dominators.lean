import Mathlib.Data.Finset.Range
import Rsleigh.Decompile.FlowGraph
import Rsleigh.Lib.Dominators

namespace Rsleigh.Decompile

open Dominators Paths

-- rsleigh-decompile/src/dominators.rs. The recursion of the searches and the rounds of the loops are bounded by fuel.
def reversePostorder (fuel : Nat) (cfg : Cfg) : Option (List Nat) :=
  (Postorder.dfs (Finset.range cfg.blocks.length) cfg.successors fuel ⟨fun _ => false, []⟩ cfg.entry).map (·.out.reverse)

-- What both iterations read: `rpo`, `rpo_number` and the edges backwards.
def rpoFlow (root : Nat) (rpo : List Nat) (preds : Nat → List Nat) : Flow Nat :=
  ⟨root, rpo, Postorder.positions rpo, preds⟩

-- A block is once a predecessor for each of its edges inside the graph.
def dominatorPreds (cfg : Cfg) (b : Nat) : List Nat :=
  cfg.blocks.flatMap fun block =>
    ((cfg.successors block.id).filter fun succ => succ < cfg.blocks.length ∧ succ = b).map fun _ => block.id

-- `idom[entry]` panics without the block.
def computeDominators (fuel : Nat) (cfg : Cfg) : Option (List BlockId) :=
  if cfg.blocks.length = 0 then some []
  else do
    let rpo ← reversePostorder fuel cfg
    if cfg.blocks.length ≤ cfg.entry then none
    let flow := rpoFlow cfg.entry rpo (dominatorPreds cfg)
    let idom ← iterate flow fuel fuel (start flow)
    some ((List.range cfg.blocks.length).map fun b => (idom b).getD cfg.entry)

-- The blocks that follow inside the graph, or the virtual exit.
def exitSuccessors (cfg : Cfg) (b : Nat) : List Nat :=
  if b < cfg.blocks.length then
    let inside := (cfg.successors b).filter fun succ => succ < cfg.blocks.length
    if inside.isEmpty then [cfg.blocks.length] else inside
  else []

def revPreds (cfg : Cfg) (s : Nat) : List Nat :=
  (List.range cfg.blocks.length).flatMap fun b => ((exitSuccessors cfg b).filter fun succ => succ = s).map fun _ => b

def computePostDominators (fuel : Nat) (cfg : Cfg) : Option (List BlockId) :=
  if cfg.blocks.length = 0 then some []
  else do
    let exitNode := cfg.blocks.length
    let search ← Postorder.dfs (Finset.range (exitNode + 1)) (revPreds cfg) fuel ⟨fun _ => false, []⟩ exitNode
    let flow := rpoFlow exitNode search.out.reverse (exitSuccessors cfg)
    let pdom ← iterate flow fuel fuel (start flow)
    some ((List.range exitNode).map fun b => (pdom b).getD exitNode)

theorem mem_dominatorPreds (cfg : IndexedCfg) {a b : Nat} :
    a ∈ dominatorPreds cfg.toCfg b ↔ cfg.Edge a b := by
  unfold dominatorPreds Cfg.Edge
  rw [List.mem_flatMap]
  constructor
  · rintro ⟨block,_,found⟩
    obtain ⟨succ,isSucc,same⟩ := List.mem_map.mp found
    obtain ⟨isSuccessor,inside⟩ := List.mem_filter.mp isSucc
    obtain ⟨inRange,isB⟩ := of_decide_eq_true inside
    subst same isB
    exact ⟨isSuccessor,inRange⟩
  · rintro ⟨isSuccessor,inRange⟩
    have isBlock := List.getElem?_eq_getElem (Cfg.successor_inside isSuccessor)
    have isId := cfg.indexed a _ isBlock
    refine ⟨_,List.getElem_mem (Cfg.successor_inside isSuccessor),List.mem_map.mpr ⟨b,?_,isId⟩⟩
    rw [isId]
    exact List.mem_filter.mpr ⟨isSuccessor,decide_eq_true ⟨inRange,rfl⟩⟩

theorem iterate_postorder {count root fuel : Nat} {next preds : Nat → List Nat} (inside : root < count)
    (isEdge : ∀ a b, b ∈ next a ∧ b < count ↔ a ∈ preds b) (enough : 2 * count + 1 < fuel) :
    ∃ search idom, Postorder.dfs (Finset.range count) next fuel ⟨fun _ => false,[]⟩ root = some search ∧
      iterate (rpoFlow root search.out.reverse preds) fuel fuel (start (rpoFlow root search.out.reverse preds)) =
        some idom ∧ idom root = some root ∧
      (∀ b, Relation.ReflTransGen (fun a b => a ∈ preds b) root b → b ≠ root →
        ∃ d, idom b = some d ∧ ImmediatelyDominates (fun a b => a ∈ preds b) root d b) ∧
      ∀ b, ¬Relation.ReflTransGen (fun a b => a ∈ preds b) root b → idom b = none := by
  have rooted : root ∈ Finset.range count := Finset.mem_range.mpr inside
  obtain ⟨search,isSearch,ordered⟩ := @Postorder.reverse_postorder Nat _ (Finset.range count) next root rooted fuel
    (by rw [Finset.card_range]; omega)
  have sameEdge : Postorder.Edge (Finset.range count) next = fun a b => a ∈ preds b := by
    funext a b
    exact propext (Iff.trans (and_congr_right fun _ => Finset.mem_range) (isEdge a b))
  have short : search.out.reverse.length ≤ count := by
    have listed : search.out.reverse ⊆ List.range count := by
      intro node member
      rw [List.mem_range,← Finset.mem_range]
      rcases (Relation.ReflTransGen.cases_tail ((ordered.reached node).mp member)) with isRoot | ⟨_,_,isEdge⟩
      · rw [isRoot]
        exact rooted
      · exact isEdge.2
    exact List.length_range (n := count) ▸ (ordered.nodup.subperm listed).length_le
  rw [sameEdge] at ordered
  obtain ⟨numbered,low⟩ := @postorder_numbered Nat _ (rpoFlow root search.out.reverse preds) ordered rfl
  obtain ⟨idom,isIterate,isRoot,immediately,unreached⟩ := iterate_immediately numbered
    (Nat.lt_of_le_of_lt (Nat.succ_le_succ (Nat.mul_le_mul_left 2 short)) enough) low
  exact ⟨search,idom,isSearch,isIterate,isRoot,immediately,unreached⟩

-- The table of `compute_dominators`: immediate dominators, and the entry for blocks that are not reached.
structure DominatorTable (cfg : RootedCfg) (dom : List BlockId) : Prop where
  length : dom.length = cfg.blocks.length
  root : dom[cfg.entry]? = some cfg.entry
  reached : ∀ b, Relation.ReflTransGen cfg.Edge cfg.entry b → b ≠ cfg.entry →
    ∃ d, dom[b]? = some d ∧ Relation.ReflTransGen cfg.Edge cfg.entry d ∧ ImmediatelyDominates cfg.Edge cfg.entry d b
  unreached : ∀ b < cfg.blocks.length, ¬Relation.ReflTransGen cfg.Edge cfg.entry b → dom[b]? = some cfg.entry

theorem reached_inside {cfg : RootedCfg} {b : BlockId} (reached : Relation.ReflTransGen cfg.Edge cfg.entry b) :
    b < cfg.blocks.length := by
  rcases Relation.ReflTransGen.cases_tail reached with isEntry | ⟨_,_,isEdge⟩
  · rw [isEntry]
    exact cfg.entered
  · exact isEdge.2

theorem computeDominators_table (cfg : RootedCfg) :
    ∃ bound, ∀ fuel ≥ bound, ∃ dom, computeDominators fuel cfg.toCfg = some dom ∧ DominatorTable cfg dom := by
  refine ⟨2 * cfg.blocks.length + 2,fun fuel enough => ?_⟩
  obtain ⟨search,idom,isSearch,isIterate,isRoot,immediately,unknown⟩ := @iterate_postorder cfg.blocks.length cfg.entry fuel
    cfg.successors (dominatorPreds cfg.toCfg) cfg.entered (fun a b => (mem_dominatorPreds cfg.toIndexedCfg).symm) enough
  have sameEdge : (fun a b => a ∈ dominatorPreds cfg.toCfg b) = cfg.Edge := by
    funext a b
    exact propext (mem_dominatorPreds cfg.toIndexedCfg)
  rw [sameEdge] at immediately unknown
  have notEmpty : ¬cfg.blocks.length = 0 := Nat.ne_of_gt (Nat.zero_lt_of_lt cfg.entered)
  have entered : ¬cfg.blocks.length ≤ cfg.entry := Nat.not_le_of_lt cfg.entered
  have lookup : ∀ {b : BlockId}, b < cfg.blocks.length →
      ((List.range cfg.blocks.length).map fun b => (idom b).getD cfg.entry)[b]? = some ((idom b).getD cfg.entry) := by
    intro b inRange
    rw [List.getElem?_map,List.getElem?_range inRange,Option.map_some]
  refine ⟨(List.range cfg.blocks.length).map fun b => (idom b).getD cfg.entry,?_,?_,?_,?_,?_⟩
  · unfold computeDominators reversePostorder
    rw [if_neg notEmpty,isSearch]
    simp only [Option.map_some,Option.bind_eq_bind,Option.bind_some,if_neg entered]
    rw [isIterate]
    rfl
  · rw [List.length_map,List.length_range]
  · rw [lookup cfg.entered,isRoot,Option.getD_some]
  · intro b reached other
    obtain ⟨d,isAbove,isImmediate⟩ := immediately b reached other
    rw [lookup (reached_inside reached),isAbove,Option.getD_some]
    exact ⟨d,rfl,dominator_reached reached isImmediate.dominates,isImmediate⟩
  · intro b inRange notReached
    rw [lookup inRange,unknown b notReached,Option.getD_none]

-- The immediate dominators, for every block that the entry reaches.
theorem computeDominators_immediate (cfg : RootedCfg) :
    ∃ bound, ∀ fuel ≥ bound, ∃ dom, computeDominators fuel cfg.toCfg = some dom ∧ dom.length = cfg.blocks.length ∧
      dom[cfg.entry]? = some cfg.entry ∧
      ∀ b, Relation.ReflTransGen cfg.Edge cfg.entry b → b ≠ cfg.entry →
        ∃ d, dom[b]? = some d ∧ Relation.ReflTransGen cfg.Edge cfg.entry d ∧
          ImmediatelyDominates cfg.Edge cfg.entry d b := by
  obtain ⟨bound,isTable⟩ := computeDominators_table cfg
  refine ⟨bound,fun fuel enough => ?_⟩
  obtain ⟨dom,isDom,table⟩ := isTable fuel enough
  exact ⟨dom,isDom,table.length,table.root,table.reached⟩

-- From a block to the virtual exit, by the blocks on the way.
abbrev ExitPath (cfg : Cfg) (b : Nat) (nodes : List Nat) : Prop :=
  Path (fun a c => a ∈ exitSuccessors cfg c) cfg.blocks.length b nodes

theorem exitSuccessors_inside {cfg : Cfg} {a s : Nat} (isSuccessor : s ∈ exitSuccessors cfg a) :
    a < cfg.blocks.length := by
  by_contra outside
  unfold exitSuccessors at isSuccessor
  rw [if_neg outside] at isSuccessor
  cases isSuccessor

theorem mem_revPreds {cfg : Cfg} {a s : Nat} : a ∈ revPreds cfg s ↔ s ∈ exitSuccessors cfg a := by
  unfold revPreds
  rw [List.mem_flatMap]
  constructor
  · rintro ⟨b,_,found⟩
    obtain ⟨succ,isSucc,same⟩ := List.mem_map.mp found
    obtain ⟨isSuccessor,isS⟩ := List.mem_filter.mp isSucc
    have isTarget := of_decide_eq_true isS
    subst same isTarget
    exact isSuccessor
  · intro isSuccessor
    exact ⟨a,List.mem_range.mpr (exitSuccessors_inside isSuccessor),
      List.mem_map.mpr ⟨s,List.mem_filter.mpr ⟨isSuccessor,decide_eq_true rfl⟩,rfl⟩⟩

-- A block that nothing in the graph follows.
def IsExit (cfg : Cfg) (e : Nat) : Prop :=
  e < cfg.blocks.length ∧ ∀ succ ∈ cfg.successors e, cfg.blocks.length ≤ succ

theorem exit_exitSuccessors {cfg : Cfg} {e : Nat} (isExit : IsExit cfg e) :
    cfg.blocks.length ∈ exitSuccessors cfg e := by
  have none : (cfg.successors e).filter (fun succ => succ < cfg.blocks.length) = [] := by
    rw [List.filter_eq_nil_iff]
    intro succ member
    simpa using isExit.2 succ member
  unfold exitSuccessors
  rw [if_pos isExit.1,none]
  exact List.mem_singleton_self _

theorem edge_exitSuccessors {cfg : Cfg} {a b : Nat} (isEdge : cfg.Edge a b) : b ∈ exitSuccessors cfg a := by
  have member : b ∈ (cfg.successors a).filter fun succ => succ < cfg.blocks.length :=
    List.mem_filter.mpr ⟨isEdge.1,decide_eq_true isEdge.2⟩
  unfold exitSuccessors
  rw [if_pos (Cfg.successor_inside isEdge.1)]
  dsimp only
  rw [if_neg]
  · exact member
  · intro isEmpty
    rw [List.isEmpty_iff.mp isEmpty] at member
    cases member

theorem path_exitPath {cfg : Cfg} {b e : Nat} {nodes : List Nat} (path : Path cfg.Edge b e nodes) :
    ∀ {rest : List Nat}, ExitPath cfg e (e :: rest) → ExitPath cfg b (nodes.reverse ++ rest) := by
  induction path with
  | start => exact fun exitPath => exitPath
  | step before isEdge ih =>
    intro rest exitPath
    rw [List.reverse_cons,List.append_assoc]
    exact ih (.step exitPath (edge_exitSuccessors isEdge))

theorem immediate_exit {cfg : Cfg} {b d : Nat} (reaches : ∃ nodes, ExitPath cfg b nodes)
    (isImmediate : ImmediatelyDominates (fun a c => a ∈ exitSuccessors cfg c) cfg.blocks.length d b) :
    d = cfg.blocks.length ↔ ∀ real < cfg.blocks.length, real ≠ b → ∃ nodes, ExitPath cfg b nodes ∧ real ∉ nodes := by
  constructor
  · intro isExit real inside other
    by_contra none
    have dominates : Dominates (fun a c => a ∈ exitSuccessors cfg c) cfg.blocks.length real b := by
      intro nodes path
      by_contra missed
      exact none ⟨nodes,path,missed⟩
    have onExit := isImmediate.closest real dominates other
    rw [isExit] at onExit
    have isRoot := List.mem_singleton.mp (onExit _ .start)
    omega
  · intro noReal
    by_contra notExit
    obtain ⟨nodes,path⟩ := reaches
    have inside : d < cfg.blocks.length := by
      obtain ⟨before,beforePath,_⟩ := path_prefix path (isImmediate.dominates nodes path)
      cases beforePath with
      | start => exact absurd rfl notExit
      | step first isEdge => exact exitSuccessors_inside isEdge
    obtain ⟨missing,missingPath,missed⟩ := noReal d inside isImmediate.strict
    exact missed (isImmediate.dominates missing missingPath)

-- The immediate post-dominators, and the exit for the blocks that do not get there.
theorem computePostDominators_immediate (cfg : Cfg) :
    ∃ bound, ∀ fuel ≥ bound, ∃ pdom, computePostDominators fuel cfg = some pdom ∧ pdom.length = cfg.blocks.length ∧
      (∀ b < cfg.blocks.length, (∃ nodes, ExitPath cfg b nodes) → ∃ d, pdom[b]? = some d ∧
        ImmediatelyDominates (fun a c => a ∈ exitSuccessors cfg c) cfg.blocks.length d b ∧
        (d = cfg.blocks.length ↔ ∀ real < cfg.blocks.length, real ≠ b → ∃ nodes, ExitPath cfg b nodes ∧ real ∉ nodes)) ∧
      (∀ b < cfg.blocks.length, (¬∃ nodes, ExitPath cfg b nodes) → pdom[b]? = some cfg.blocks.length) ∧
      ∀ b merge, pdom[b]? = some merge → merge < cfg.blocks.length →
        ∀ e nodes, IsExit cfg e → Path cfg.Edge b e nodes → merge ∈ nodes := by
  refine ⟨2 * (cfg.blocks.length + 1) + 2,fun fuel enough => ?_⟩
  have isEdge : ∀ a b, b ∈ revPreds cfg a ∧ b < cfg.blocks.length + 1 ↔ a ∈ exitSuccessors cfg b := by
    intro a b
    rw [mem_revPreds]
    exact ⟨And.left,fun isSuccessor => ⟨isSuccessor,Nat.lt_succ_of_lt (exitSuccessors_inside isSuccessor)⟩⟩
  obtain ⟨search,idom,isSearch,isIterate,isRoot,immediately,unreached⟩ := @iterate_postorder (cfg.blocks.length + 1)
    cfg.blocks.length fuel (revPreds cfg) (exitSuccessors cfg) (Nat.lt_succ_self _) isEdge enough
  have isResult : computePostDominators fuel cfg =
      some ((List.range cfg.blocks.length).map fun b => (idom b).getD cfg.blocks.length) := by
    unfold computePostDominators
    by_cases isEmpty : cfg.blocks.length = 0
    · rw [if_pos isEmpty,isEmpty]
      rfl
    · rw [if_neg isEmpty]
      dsimp only
      rw [isSearch]
      simp only [Option.bind_eq_bind,Option.bind_some]
      rw [isIterate]
      rfl
  have lookup : ∀ {b : Nat}, b < cfg.blocks.length →
      ((List.range cfg.blocks.length).map fun b => (idom b).getD cfg.blocks.length)[b]? =
        some ((idom b).getD cfg.blocks.length) := by
    intro b inRange
    rw [List.getElem?_map,List.getElem?_range inRange,Option.map_some]
  have exits : ∀ {b : Nat}, b < cfg.blocks.length → (∃ nodes, ExitPath cfg b nodes) → ∃ d, idom b = some d ∧
      ImmediatelyDominates (fun a c => a ∈ exitSuccessors cfg c) cfg.blocks.length d b := by
    intro b inRange ⟨nodes,path⟩
    exact immediately b (path_reached path) (Nat.ne_of_lt inRange)
  refine ⟨_,isResult,?_,?_,?_,?_⟩
  · rw [List.length_map,List.length_range]
  · intro b inRange reaches
    obtain ⟨d,isAbove,isImmediate⟩ := exits inRange reaches
    refine ⟨d,?_,isImmediate,immediate_exit reaches isImmediate⟩
    rw [lookup inRange,isAbove]
    rfl
  · intro b inRange noPath
    have unknown := unreached b fun reached => noPath (reached_path reached)
    rw [lookup inRange,unknown]
    rfl
  · intro b merge isMerge inside e nodes isExit path
    have inRange : b < cfg.blocks.length := by
      have := (List.getElem?_eq_some_iff.mp isMerge).1
      rwa [List.length_map,List.length_range] at this
    have exitPath : ExitPath cfg b (nodes.reverse ++ [cfg.blocks.length]) :=
      path_exitPath path (.step .start (exit_exitSuccessors isExit))
    obtain ⟨d,isAbove,isImmediate⟩ := exits inRange ⟨_,exitPath⟩
    rw [lookup inRange,isAbove] at isMerge
    have isD : d = merge := Option.some.inj isMerge
    rcases List.mem_append.mp (isImmediate.dominates _ exitPath) with passed | isExitNode
    · exact isD ▸ List.mem_reverse.mp passed
    · have := List.mem_singleton.mp isExitNode
      omega

end Rsleigh.Decompile
