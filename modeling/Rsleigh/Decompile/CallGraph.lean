import Rsleigh.Lib.Tarjan

namespace Rsleigh.Decompile

-- callgraph.rs. A function is named by the address of its entry.
structure FuncId where
  entry : UInt64
  deriving DecidableEq

inductive CalleeRef where
  | direct (target : FuncId)
  | imported (name : String) (addr : UInt64)
  | indirect
  deriving DecidableEq

structure CallEdge where
  callee : CalleeRef
  callSite : UInt64

-- The edges are a map.
structure CallGraph where
  funcs : List FuncId
  edges : List (FuncId × List CallEdge)

namespace CallGraph

def new : CallGraph := ⟨[], []⟩

def edgesOf (graph : CallGraph) (id : FuncId) : Option (List CallEdge) := graph.edges.lookup id

def addFunction (graph : CallGraph) (id : FuncId) : CallGraph :=
  if graph.funcs.contains id then graph
  else
    { funcs := graph.funcs ++ [id]
      edges := if (graph.edgesOf id).isSome then graph.edges else graph.edges ++ [(id, [])] }

def pushEdge (caller : FuncId) (edge : CallEdge) : List (FuncId × List CallEdge) → List (FuncId × List CallEdge)
  | [] => [(caller, [edge])]
  | (id, edges) :: rest => if id = caller then (id, edges ++ [edge]) :: rest else (id, edges) :: pushEdge caller edge rest

def addEdge (graph : CallGraph) (caller : FuncId) (edge : CallEdge) : CallGraph :=
  { graph with edges := pushEdge caller edge graph.edges }

def addSuccessor (out : List FuncId) (edge : CallEdge) : List FuncId :=
  match edge.callee with
  | .direct target => if out.contains target then out else out ++ [target]
  | _ => out

def directSuccessors (graph : CallGraph) (id : FuncId) : List FuncId :=
  match graph.edgesOf id with
  | some edges => edges.foldl addSuccessor []
  | none => []

end CallGraph

structure Sccs where
  components : List (List FuncId)

def isDirectTo (id : FuncId) (edge : CallEdge) : Bool := edge.callee == .direct id

def Sccs.isRecursive (sccs : Sccs) (id : FuncId) (graph : CallGraph) : Bool :=
  match sccs.components.find? fun scc => scc.contains id with
  | some scc =>
    if scc.length > 1 then true
    else
      match graph.edgesOf id with
      | some edges => edges.any (isDirectTo id)
      | none => false
  | none => false

def tarjanSccs (fuel : Nat) (graph : CallGraph) : Option Sccs :=
  (Tarjan.components graph.directSuccessors fuel graph.funcs).map Sccs.mk

namespace CallGraph

-- A direct call, and what the explored functions lead to by direct calls.
def Calls (graph : CallGraph) (caller callee : FuncId) : Prop :=
  ∃ edges, graph.edgesOf caller = some edges ∧ ∃ edge ∈ edges, edge.callee = .direct callee

def Reachable (graph : CallGraph) (id : FuncId) : Prop :=
  ∃ root ∈ graph.funcs, Relation.ReflTransGen graph.Calls root id

variable {id : FuncId}

theorem mem_addSuccessor {out : List FuncId} {edge : CallEdge} :
    id ∈ addSuccessor out edge ↔ id ∈ out ∨ edge.callee = .direct id := by
  unfold addSuccessor
  cases edge.callee with
  | direct target =>
    by_cases known : target ∈ out
    · simp only [List.contains_iff_mem,known,if_true,CalleeRef.direct.injEq]
      exact ⟨.inl,fun either => either.elim (fun member => member) fun same => same ▸ known⟩
    · simp [known,eq_comm]
  | imported name addr => simp
  | indirect => simp

theorem mem_addSuccessors (edges : List CallEdge) : ∀ out : List FuncId,
    id ∈ edges.foldl addSuccessor out ↔ id ∈ out ∨ ∃ edge ∈ edges, edge.callee = .direct id := by
  induction edges with
  | nil => simp
  | cons edge edges ih =>
    intro out
    rw [List.foldl_cons,ih,mem_addSuccessor]
    simp [or_assoc]

theorem mem_directSuccessors {graph : CallGraph} : callee ∈ graph.directSuccessors caller ↔ graph.Calls caller callee := by
  unfold directSuccessors Calls
  cases graph.edgesOf caller with
  | none => simp
  | some edges => simp [mem_addSuccessors]

theorem reach_calls (graph : CallGraph) :
    Tarjan.Reach graph.directSuccessors = Relation.ReflTransGen graph.Calls := by
  have same : (fun a b => b ∈ graph.directSuccessors a) = graph.Calls := by
    funext a b
    exact propext mem_directSuccessors
  unfold Tarjan.Reach
  rw [same]

-- The functions that the graph names.
def targets (graph : CallGraph) : List FuncId :=
  graph.edges.flatMap fun entry => entry.2.foldl addSuccessor []

theorem directSuccessors_targets (graph : CallGraph) (isEdge : callee ∈ graph.directSuccessors caller) :
    callee ∈ graph.targets := by
  unfold directSuccessors at isEdge
  cases found : graph.edgesOf caller with
  | none => simp [found] at isEdge
  | some edges =>
    rw [found] at isEdge
    obtain ⟨before,after,split,_⟩ := List.lookup_eq_some_iff.mp found
    exact List.mem_flatMap.mpr ⟨(caller,edges),by simp [split],isEdge⟩

end CallGraph

open CallGraph

section Recursion

variable {graph : CallGraph} {sccs : Sccs} {id : FuncId}

theorem isRecursive_some (found : sccs.components.find? (fun scc => scc.contains id) = some scc) :
    sccs.isRecursive id graph = true ↔ 1 < scc.length ∨ graph.Calls id id := by
  unfold Sccs.isRecursive Calls
  rw [found]
  dsimp only
  by_cases long : scc.length > 1
  · simp [long]
  · rw [if_neg long]
    cases graph.edgesOf id with
    | none => simp [long]
    | some edges => simp [long,isDirectTo]

theorem isRecursive_none (found : sccs.components.find? (fun scc => scc.contains id) = none) :
    sccs.isRecursive id graph = false := by
  unfold Sccs.isRecursive
  rw [found]

-- A function is called back when its component has another member or it calls itself.
theorem cycle_component (emitted : Tarjan.Emitted graph.directSuccessors sccs.components)
    (member : scc ∈ sccs.components) (inside : id ∈ scc) :
    Relation.TransGen graph.Calls id id ↔ 1 < scc.length ∨ graph.Calls id id := by
  have reach := reach_calls graph
  constructor
  · intro cycle
    obtain ⟨callee,isCall,back⟩ := Relation.TransGen.head'_iff.mp cycle
    by_cases same : callee = id
    · exact .inr (same ▸ isCall)
    · refine .inl ?_
      have here : callee ∈ scc := by
        rw [Tarjan.component_mem emitted member inside,reach]
        exact ⟨.single isCall,back⟩
      have subset : [id,callee] ⊆ scc := by
        simp [inside,here]
      have bound := (List.subperm_of_subset (by simp [Ne.symm same]) subset).length_le
      exact bound
  · rintro (long | isCall)
    · have nodup := (List.nodup_flatten.mp emitted.nodup).1 scc member
      obtain ⟨callee,here,different⟩ : ∃ callee ∈ scc, callee ≠ id := by
        by_contra alone
        have all : ∀ callee ∈ scc, callee = id := by simpa using alone
        have subset : scc ⊆ [id] := fun callee here => by simp [all callee here]
        have bound := (List.subperm_of_subset nodup subset).length_le
        simp only [List.length_singleton] at bound
        omega
      have both := (Tarjan.component_mem emitted member inside).mp here
      rw [reach] at both
      rcases Relation.reflTransGen_iff_eq_or_transGen.mp both.1 with same | onward
      · exact absurd same different
      · exact onward.trans_left both.2
    · exact .single isCall

theorem isRecursive_cycle (emitted : Tarjan.Emitted graph.directSuccessors sccs.components) :
    sccs.isRecursive id graph = true ↔ id ∈ sccs.components.flatten ∧ Relation.TransGen graph.Calls id id := by
  cases found : sccs.components.find? fun scc => scc.contains id with
  | none =>
    rw [isRecursive_none found]
    simp only [List.find?_eq_none,List.contains_iff_mem] at found
    refine ⟨fun isTrue => (Bool.false_ne_true isTrue).elim,fun ⟨isFound,_⟩ => ?_⟩
    obtain ⟨scc,member,inside⟩ := List.mem_flatten.mp isFound
    exact absurd inside (found scc member)
  | some scc =>
    have member := List.mem_of_find?_eq_some found
    have inside : id ∈ scc := by simpa using List.find?_some found
    rw [isRecursive_some found,← cycle_component emitted member inside]
    exact ⟨fun cycle => ⟨List.mem_flatten.mpr ⟨scc,member,inside⟩,cycle⟩,fun both => both.2⟩

end Recursion

theorem tarjanSccs_emitted (graph : CallGraph) : ∃ enough, ∀ fuel ≥ enough, ∃ sccs, tarjanSccs fuel graph = some sccs ∧
    Tarjan.Emitted graph.directSuccessors sccs.components ∧ ∀ f, f ∈ sccs.components.flatten ↔ graph.Reachable f := by
  let within := (graph.funcs ++ graph.targets).toFinset
  refine ⟨within.card,fun fuel enough => ?_⟩
  have closed : ∀ a ∈ within, ∀ b ∈ graph.directSuccessors a, b ∈ within := by
    intro a _ b isEdge
    simp [within,directSuccessors_targets graph isEdge]
  have inside : ∀ a ∈ graph.funcs, a ∈ within := by
    intro a member
    simp [within,member]
  obtain ⟨found,isFound,emitted,reached⟩ := Tarjan.components_emitted closed enough graph.funcs inside
  rw [reach_calls] at reached
  exact ⟨⟨found⟩,by simp [tarjanSccs,isFound],emitted,reached⟩

-- The components of the direct calls, callees first.
theorem tarjanSccs_components (graph : CallGraph) : ∃ enough, ∀ fuel ≥ enough, ∃ sccs, tarjanSccs fuel graph = some sccs ∧
    sccs.components.flatten.Nodup ∧ (∀ scc ∈ sccs.components, scc ≠ []) ∧
    (∀ f, f ∈ sccs.components.flatten ↔ graph.Reachable f) ∧
    (∀ f g, graph.Reachable f → graph.Reachable g →
      ((∃ scc ∈ sccs.components, f ∈ scc ∧ g ∈ scc) ↔
        Relation.ReflTransGen graph.Calls f g ∧ Relation.ReflTransGen graph.Calls g f)) ∧
    (∀ (i j : Nat) one two f g, sccs.components[i]? = some one → sccs.components[j]? = some two → f ∈ one → g ∈ two →
      graph.Calls f g → i ≠ j → j < i) ∧
    ∀ f, sccs.isRecursive f graph = true ↔ graph.Reachable f ∧ Relation.TransGen graph.Calls f f := by
  obtain ⟨enough,all⟩ := tarjanSccs_emitted graph
  refine ⟨enough,fun fuel isEnough => ?_⟩
  obtain ⟨sccs,isSccs,emitted,reached⟩ := all fuel isEnough
  refine ⟨sccs,isSccs,emitted.nodup,emitted.filled,reached,?_,?_,?_⟩
  · intro f g isReachable _
    rw [Tarjan.share_component emitted,reach_calls]
    exact ⟨fun shared => shared.2,fun both => ⟨(reached f).mpr isReachable,both⟩⟩
  · intro i j one two f g isOne isTwo inOne inTwo isCall different
    have backward := Tarjan.edge_backward emitted isOne isTwo inOne inTwo (mem_directSuccessors.mpr isCall)
    omega
  · intro f
    rw [isRecursive_cycle emitted,reached f]

-- A function that calls itself, but is not explored.
def unexplored : CallGraph := CallGraph.new.addEdge ⟨0x1000⟩ ⟨.direct ⟨0x1000⟩, 0x1004⟩

theorem unexplored_cycle : Relation.TransGen unexplored.Calls ⟨0x1000⟩ ⟨0x1000⟩ ∧
    tarjanSccs 1 unexplored = some ⟨[]⟩ ∧ Sccs.isRecursive ⟨[]⟩ ⟨0x1000⟩ unexplored = false := by
  refine ⟨.single ?_,rfl,rfl⟩
  exact ⟨[⟨.direct ⟨0x1000⟩,0x1004⟩],rfl,_,List.mem_singleton_self _,rfl⟩

end Rsleigh.Decompile
