import Mathlib.Data.Finset.Range
import Rsleigh.Decompile.FlowGraph
import Rsleigh.Lib.EdgeClasses

namespace Rsleigh.Decompile

open EdgeClasses

-- rsleigh-decompile/src/ir.rs: `CfgEdgeKind` and `CfgEdge`.
abbrev CfgEdgeKind := EdgeKind

abbrev CfgEdge := EdgeClasses.Edge BlockId

-- rsleigh-decompile/src/cfg.rs. The visits are nested as deep as the fuel.
def Cfg.classifiedEdges (fuel : Nat) (cfg : Cfg) : Option (List CfgEdge) := do
  let blocks := Finset.range cfg.blocks.length
  let traversal ← (if cfg.entry < cfg.blocks.length then visit blocks cfg.successors fuel initial cfg.entry
    else some initial)
  let traversal ← cfg.blocks.foldlM (fun traversal block => visitWhite blocks cfg.successors fuel traversal block.id) traversal
  some traversal.edges

-- The entry, where there is one, and then all blocks.
def visitRoots (cfg : Cfg) : List BlockId :=
  (if cfg.entry < cfg.blocks.length then [cfg.entry] else []) ++ cfg.blocks.map BasicBlock.id

theorem mem_visitRoots (cfg : IndexedCfg) {b : BlockId} : b ∈ visitRoots cfg.toCfg ↔ b ∈ Finset.range cfg.blocks.length := by
  unfold visitRoots
  rw [List.mem_append,List.mem_map,Finset.mem_range]
  constructor
  · rintro (isEntry | ⟨block,member,isId⟩)
    · by_cases entered : cfg.entry < cfg.blocks.length
      · rw [if_pos entered,List.mem_singleton] at isEntry
        rw [isEntry]
        exact entered
      · rw [if_neg entered] at isEntry
        cases isEntry
    · obtain ⟨index,inRange,isBlock⟩ := List.mem_iff_getElem.mp member
      rw [← isId,cfg.indexed index block (isBlock ▸ List.getElem?_eq_getElem inRange)]
      exact inRange
  · intro inRange
    exact Or.inr ⟨_,List.getElem_mem inRange,cfg.indexed b _ (List.getElem?_eq_getElem inRange)⟩

theorem classifiedEdges_roots (fuel : Nat) (cfg : Cfg) :
    cfg.classifiedEdges fuel =
      ((visitRoots cfg).foldlM (visitWhite (Finset.range cfg.blocks.length) cfg.successors fuel) initial).map (·.edges) := by
  have isVisit : visitWhite (Finset.range cfg.blocks.length) cfg.successors fuel initial cfg.entry =
      visit (Finset.range cfg.blocks.length) cfg.successors fuel initial cfg.entry := by
    unfold visitWhite
    exact if_pos rfl
  have isFirst : (if cfg.entry < cfg.blocks.length then [cfg.entry] else []).foldlM
      (visitWhite (Finset.range cfg.blocks.length) cfg.successors fuel) initial =
      if cfg.entry < cfg.blocks.length then visit (Finset.range cfg.blocks.length) cfg.successors fuel initial cfg.entry
      else some initial := by
    by_cases entered : cfg.entry < cfg.blocks.length
    · simp [entered,isVisit]
    · rw [if_neg entered,if_neg entered]
      rfl
  unfold Cfg.classifiedEdges visitRoots
  simp only [List.foldlM_append,List.foldlM_map,isFirst,Option.bind_eq_bind,Option.map_eq_bind,Option.bind_assoc]
  rfl

-- The edges of the graph, each as often as it occurs, with kinds that tell the loops.
theorem classifiedEdges_classes (cfg : IndexedCfg) :
    ∃ bound, ∀ fuel ≥ bound, ∃ edges, cfg.classifiedEdges fuel = some edges ∧ Classes edges ∧
      (edges.map EdgeClasses.Edge.ends).Perm ((List.range cfg.blocks.length).flatMap fun a =>
        ((cfg.successors a).filter fun b => b < cfg.blocks.length).map fun b => (a,b)) := by
  refine ⟨cfg.blocks.length,fun fuel enough => ?_⟩
  obtain ⟨after,isAfter,classes,perm⟩ := @traversal_classes BlockId _ (Finset.range cfg.blocks.length) cfg.successors fuel
    (visitRoots cfg.toCfg) (fun b => mem_visitRoots cfg) (by rwa [Finset.card_range]) (List.range cfg.blocks.length)
    List.nodup_range (fun b => by rw [List.mem_range,Finset.mem_range])
  refine ⟨after.edges,?_,classes,?_⟩
  · rw [classifiedEdges_roots,isAfter]
    rfl
  · have isOutgoing : outgoing (Finset.range cfg.blocks.length) cfg.successors = fun a =>
        ((cfg.successors a).filter fun b => b < cfg.blocks.length).map fun b => (a,b) := by
      funext a
      simp [outgoing]
    rw [← isOutgoing]
    exact perm

-- Control can come back to a block exactly where some edge is classified as going back.
theorem classifiedEdges_cycle (cfg : IndexedCfg) : ∃ bound, ∀ fuel ≥ bound, ∃ edges,
    cfg.classifiedEdges fuel = some edges ∧
      ((∃ edge ∈ edges, edge.kind = .back) ↔ ∃ b, Relation.TransGen cfg.Edge b b) := by
  refine ⟨cfg.blocks.length,fun fuel enough => ?_⟩
  obtain ⟨after,isAfter,classes,perm⟩ := @traversal_classes BlockId _ (Finset.range cfg.blocks.length) cfg.successors fuel
    (visitRoots cfg.toCfg) (fun b => mem_visitRoots cfg) (by rwa [Finset.card_range]) (List.range cfg.blocks.length)
    List.nodup_range (fun b => by rw [List.mem_range,Finset.mem_range])
  refine ⟨after.edges,by rw [classifiedEdges_roots,isAfter]; rfl,?_⟩
  have reported (a b : BlockId) : (∃ edge ∈ after.edges, edge.ends = (a,b)) ↔ cfg.Edge a b := by
    rw [← List.mem_map,perm.mem_iff,List.mem_flatMap]
    unfold outgoing Cfg.Edge
    constructor
    · rintro ⟨c,_,member⟩
      obtain ⟨succ,isSucc,same⟩ := List.mem_map.mp member
      obtain ⟨rfl,rfl⟩ := Prod.mk.inj same
      obtain ⟨isSuccessor,inside⟩ := List.mem_filter.mp isSucc
      exact ⟨isSuccessor,Finset.mem_range.mp (of_decide_eq_true inside)⟩
    · intro ⟨isSuccessor,inside⟩
      refine ⟨a,List.mem_range.mpr (Cfg.successor_inside isSuccessor),List.mem_map.mpr ⟨b,?_,rfl⟩⟩
      exact List.mem_filter.mpr ⟨isSuccessor,decide_eq_true (Finset.mem_range.mpr inside)⟩
  constructor
  · rintro ⟨edge,member,isBack⟩
    have down : Relation.ReflTransGen cfg.Edge edge.to_ edge.from_ :=
      Relation.ReflTransGen.mono (fun a b isTree => (reported a b).mp ⟨_,isTree,rfl⟩) _ _ ((classes.back edge member).mp isBack)
    exact ⟨edge.to_,.tail' down ((reported _ _).mp ⟨edge,member,rfl⟩)⟩
  · rintro ⟨b,cycle⟩
    by_contra noBack
    refine classes.acyclic b (Relation.TransGen.mono (fun c d isEdge => ?_) _ _ cycle)
    obtain ⟨edge,member,ends⟩ := (reported c d).mpr isEdge
    exact ⟨edge,member,ends,fun isBack => noBack ⟨edge,member,isBack⟩⟩

end Rsleigh.Decompile
