import Rsleigh.Decompile.FunctionSummary

namespace Rsleigh.Decompile

open CallGraph Pcode

section Calls

variable (resolve : List VarDef → Varnode → List UInt64) (imports : UInt64 → Option String) (funcs : List (FuncId × SsaCfg))

-- A function calls an explored one that is not imported, directly or where an indirect call is found to go.
def CallsInto (f g : FuncId) : Prop :=
  ∃ ssa, (f,ssa) ∈ funcs ∧ ∃ site ∈ callSites ssa, imports g.entry = none ∧ g ∈ funcs.map Prod.fst ∧
    (site.target = .direct g.entry ∨ ∃ varnode, site.target = .indirect varnode ∧ g.entry ∈ resolve ssa.vars varnode)

variable {resolve imports funcs}

theorem classifyAddr_direct {addr : UInt64} {g : FuncId} : classifyAddr imports funcs addr = .direct g ↔
    addr = g.entry ∧ imports addr = none ∧ g ∈ funcs.map Prod.fst := by
  unfold classifyAddr
  cases imports addr with
  | some name => simp
  | none =>
    by_cases known : (⟨addr⟩ : FuncId) ∈ funcs.map Prod.fst
    · simp only [List.contains_iff_mem,known,if_true,CalleeRef.direct.injEq,true_and]
      exact ⟨fun same => same ▸ ⟨rfl,known⟩,fun both => both.1 ▸ rfl⟩
    · simp only [List.contains_iff_mem,known,if_false,reduceCtorEq,false_iff,true_and]
      rintro ⟨rfl,member⟩
      exact known member

theorem classifyEdges_direct {vars : List VarDef} {target : CallTarget} {g : FuncId} :
    (∃ edge ∈ classifyEdges resolve imports funcs vars target, edge.callee = .direct g) ↔
      imports g.entry = none ∧ g ∈ funcs.map Prod.fst ∧
        (target = .direct g.entry ∨ ∃ varnode, target = .indirect varnode ∧ g.entry ∈ resolve vars varnode) := by
  have mapped : ∀ entries : List UInt64, (∃ edge ∈ entries.map fun addr => (⟨classifyAddr imports funcs addr,0⟩ : CallEdge),
      edge.callee = .direct g) ↔ imports g.entry = none ∧ g ∈ funcs.map Prod.fst ∧ g.entry ∈ entries := by
    intro entries
    simp only [List.mem_map,exists_exists_and_eq_and,classifyAddr_direct]
    constructor
    · rintro ⟨addr,member,rfl,free,known⟩
      exact ⟨free,known,member⟩
    · rintro ⟨free,known,member⟩
      exact ⟨g.entry,member,rfl,free,known⟩
  cases target with
  | direct addr => simpa [classifyEdges,@eq_comm _ addr] using mapped [addr]
  | indirect varnode =>
    simp only [reduceCtorEq,false_or,CallTarget.indirect.injEq,exists_eq_left']
    cases found : resolve vars varnode with
    | nil => simp [classifyEdges,found]
    | cons addr entries =>
      simp only [classifyEdges,found]
      exact mapped (addr :: entries)

-- Nothing else is put into the graph.
theorem addUnseen_only (caller : FuncId) (edges : List CallEdge) : ∀ {seen : List (UInt64 × CalleeRef)}
    {graph : CallGraph} {f g : FuncId}, (edges.foldl (addUnseen caller) (seen,graph)).2.Calls f g →
      graph.Calls f g ∨ f = caller ∧ ∃ edge ∈ edges, edge.callee = .direct g := by
  induction edges with
  | nil => exact fun isCall => .inl isCall
  | cons edge edges ih =>
    intro seen graph f g isCall
    rw [List.foldl_cons] at isCall
    have step : ∃ seen', addUnseen caller (seen,graph) edge = (seen',graph) ∨
        addUnseen caller (seen,graph) edge = (seen',graph.addEdge caller edge) := by
      unfold addUnseen
      split
      · exact ⟨_,.inl rfl⟩
      · exact ⟨_,.inr rfl⟩
    obtain ⟨seen',same | same⟩ := step
    · rw [same] at isCall
      exact (ih isCall).imp id fun ⟨isCaller,other,member,callee⟩ => ⟨isCaller,other,List.mem_cons_of_mem _ member,callee⟩
    · rw [same] at isCall
      rcases ih isCall with before | ⟨isCaller,other,member,callee⟩
      · exact (calls_addEdge.mp before).imp id fun ⟨isCaller,callee⟩ => ⟨isCaller,edge,List.mem_cons_self,callee⟩
      · exact .inr ⟨isCaller,other,List.mem_cons_of_mem _ member,callee⟩

theorem addCalls_only (rest : List (FuncId × SsaCfg)) : ∀ {graph : CallGraph} {f g : FuncId},
    (rest.foldl (addCalls resolve imports funcs) graph).Calls f g → graph.Calls f g ∨ ∃ func ∈ rest, f = func.1 ∧
      ∃ site ∈ callSites func.2, ∃ edge ∈ classifyEdges resolve imports funcs func.2.vars site.target,
        edge.callee = .direct g := by
  induction rest with
  | nil => exact fun isCall => .inl isCall
  | cons func rest ih =>
    intro graph f g isCall
    rw [List.foldl_cons] at isCall
    rcases ih isCall with before | ⟨other,member,found⟩
    · rcases addUnseen_only func.1 _ before with before | ⟨isCaller,edge,isEdge,callee⟩
      · exact .inl before
      · obtain ⟨site,isSite,isEdge⟩ := List.mem_flatMap.mp isEdge
        exact .inr ⟨func,List.mem_cons_self,isCaller,site,isSite,edge,isEdge,callee⟩
    · exact .inr ⟨other,List.mem_cons_of_mem _ member,found⟩

theorem addFunctions_calls (rest : List (FuncId × SsaCfg)) : ∀ {graph : CallGraph} {f g : FuncId},
    (rest.foldl (fun graph func => graph.addFunction func.1) graph).Calls f g → graph.Calls f g := by
  induction rest with
  | nil => exact fun isCall => isCall
  | cons func rest ih =>
    intro graph f g isCall
    obtain ⟨edges,isEdges,edge,member,callee⟩ := ih isCall
    refine ⟨edges,?_,edge,member,callee⟩
    unfold edgesOf at isEdges ⊢
    dsimp only [addFunction] at isEdges
    split_ifs at isEdges
    · exact isEdges
    · exact isEdges
    · rw [List.lookup_append,Option.or_eq_some_iff] at isEdges
      rcases isEdges with found | ⟨_,isNew⟩
      · exact found
      · rw [List.lookup_cons,List.lookup_nil] at isNew
        split at isNew
        · cases isNew
          cases member
        · cases isNew

theorem buildCallGraph_calls {f g : FuncId} : (buildCallGraph resolve imports funcs).Calls f g ↔
    CallsInto resolve imports funcs f g := by
  constructor
  · intro isCall
    rcases addCalls_only funcs isCall with before | ⟨func,member,rfl,site,isSite,found⟩
    · obtain ⟨_,isEdges,_⟩ := addFunctions_calls funcs before
      cases isEdges
    · exact ⟨func.2,member,site,isSite,classifyEdges_direct.mp found⟩
  · rintro ⟨ssa,member,site,isSite,found⟩
    obtain ⟨edge,isEdge,callee⟩ := classifyEdges_direct.mpr found
    exact (addCalls_run funcs funcs).2.2 (f,ssa) member site isSite edge isEdge g callee

end Calls

-- The components of the calls of the explored functions: each function once, callees no later than their callers, and
-- as recursive exactly what calls lead back to.
theorem buildCallGraph_bottomUp (resolve : List VarDef → Varnode → List UInt64) (imports : UInt64 → Option String)
    (funcs : List (FuncId × SsaCfg)) : ∃ enough, ∀ fuel ≥ enough, ∃ sccs,
      tarjanSccs fuel (buildCallGraph resolve imports funcs) = some sccs ∧ sccs.components.flatten.Nodup ∧
      (∀ f, f ∈ sccs.components.flatten ↔ f ∈ funcs.map Prod.fst) ∧
      (∀ (i j : Nat) one two f g, sccs.components[i]? = some one → sccs.components[j]? = some two → f ∈ one → g ∈ two →
        CallsInto resolve imports funcs f g → j ≤ i) ∧
      ∀ f, sccs.isRecursive f (buildCallGraph resolve imports funcs) = true ↔
        Relation.TransGen (CallsInto resolve imports funcs) f f := by
  have calls : (buildCallGraph resolve imports funcs).Calls = CallsInto resolve imports funcs := by
    funext f g
    exact propext buildCallGraph_calls
  obtain ⟨sameFuncs,_⟩ := @addCalls_run resolve imports funcs funcs
    (funcs.foldl (fun graph func => graph.addFunction func.1) .new)
  have explored (f : FuncId) : f ∈ (buildCallGraph resolve imports funcs).funcs ↔ f ∈ funcs.map Prod.fst := by
    unfold buildCallGraph
    rw [sameFuncs,mem_addFunctions]
    simp [CallGraph.new]
  have reachable (f : FuncId) : (buildCallGraph resolve imports funcs).Reachable f ↔ f ∈ funcs.map Prod.fst := by
    unfold Reachable
    rw [calls]
    constructor
    · rintro ⟨root,isRoot,path⟩
      rcases Relation.ReflTransGen.cases_tail path with rfl | ⟨_,_,_,_,_,_,_,known,_⟩
      · exact (explored f).mp isRoot
      · exact known
    · exact fun known => ⟨f,(explored f).mpr known,.refl⟩
  obtain ⟨enough,all⟩ := tarjanSccs_emitted (buildCallGraph resolve imports funcs)
  refine ⟨enough,fun fuel isEnough => ?_⟩
  obtain ⟨sccs,isSccs,emitted,reached⟩ := all fuel isEnough
  refine ⟨sccs,isSccs,emitted.nodup,fun f => (reached f).trans (reachable f),?_,?_⟩
  · intro i j one two f g isOne isTwo inOne inTwo isCall
    exact Tarjan.edge_backward emitted isOne isTwo inOne inTwo (mem_directSuccessors.mpr (calls ▸ isCall))
  · intro f
    rw [isRecursive_cycle emitted,reached,reachable,calls]
    refine ⟨fun both => both.2,fun cycle => ⟨?_,cycle⟩⟩
    obtain ⟨_,⟨ssa,member,_⟩,_⟩ := Relation.TransGen.head'_iff.mp cycle
    exact List.mem_map_of_mem member

end Rsleigh.Decompile
