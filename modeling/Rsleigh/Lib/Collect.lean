import Rsleigh.Lib.Exploration

namespace Rsleigh.Collect

open Exploration

section Walk

variable {α β : Type} [DecidableEq α] (bound : Nat) (next : α → List α) (emits : α → List β)

-- A stack of nodes that wait, and what the nodes visited so far have emitted. The walk breaks off when it has visited
-- more nodes than the bound.
def collect (stack visited : List α) (out : List β) : List β :=
  match stack with
  | [] => out
  | current :: rest =>
    if visited.contains current then collect rest visited out
    else if bound < visited.length + 1 then out
    else collect (next current ++ rest) (current :: visited) (out ++ emits current)
termination_by (bound - visited.length, stack.length)
decreasing_by
  all_goals
    simp_wf
    simp only [Prod.lex_def]
  · exact .inr ⟨trivial,Nat.lt_succ_self _⟩
  · omega

end Walk

section Spec

variable {α β : Type} {next : α → List α}

-- The nodes that a start leads to.
def Cone (next : α → List α) (start node : α) : Prop := Relation.ReflTransGen (fun a b => b ∈ next a) start node

def Small (bound : Nat) (next : α → List α) (start : α) : Prop :=
  ∃ nodes : List α, nodes.length ≤ bound ∧ ∀ node, Cone next start node → node ∈ nodes

theorem cone_reached (start node : α) : Cone next start node ↔ Reached (fun _ => true) next start node := by
  have same : Step (fun _ => true) next = fun a b => b ∈ next a := by
    funext a b
    simp [Step]
  unfold Cone Reached
  rw [same]
  simp

theorem cone_start (next : α → List α) (start : α) : Cone next start start := .refl

theorem cone_trans (first : Cone next a b) (second : Cone next b c) : Cone next a c := Relation.ReflTransGen.trans first second

theorem small_within (small : Small bound next start) (cone : Cone next start node) : Small bound next node := by
  obtain ⟨nodes,short,inside⟩ := small
  exact ⟨nodes,short,fun other further => inside other (cone_trans cone further)⟩

variable [DecidableEq α] {bound : Nat} {emits : α → List β}

theorem collect_searching (nodes : List α) (short : nodes.length ≤ bound)
    (inside : ∀ node, Reached (fun _ => true) next start node → node ∈ nodes) (stack visited : List α) (out : List β)
    (searching : Searching (fun _ => true) next start visited stack) (nodup : visited.Nodup)
    (emitted : ∀ item, item ∈ out ↔ ∃ node ∈ visited, item ∈ emits node) (item : β) :
    item ∈ collect bound next emits stack visited out ↔
      ∃ node, Reached (fun _ => true) next start node ∧ item ∈ emits node := by
  fun_induction collect bound next emits stack visited out with
  | case1 visited out =>
    rw [emitted]
    constructor
    · rintro ⟨node,member,isItem⟩
      exact ⟨node,(searching_done searching node).mp member,isItem⟩
    · rintro ⟨node,reached,isItem⟩
      exact ⟨node,(searching_done searching node).mpr reached,isItem⟩
  | case2 visited out current rest seen ih =>
    have known : (!(fun _ => true) current || decide (current ∈ visited)) = true := by simpa using seen
    exact ih (searching_skip searching known) nodup emitted
  | case3 visited out current rest fresh full =>
    -- a node too many would be one more than there are
    have isNew : current ∉ visited := by simpa using fresh
    have all : (current :: visited) ⊆ nodes := by
      intro node member
      rcases List.mem_cons.mp member with isCurrent | member
      · rw [isCurrent]
        exact inside current (searching.waiting current List.mem_cons_self rfl)
      · exact inside node (searching.found node member)
    have bounded := ((List.nodup_cons.mpr ⟨isNew,nodup⟩).subperm all).length_le
    rw [List.length_cons] at bounded
    omega
  | case4 visited out current rest fresh room ih =>
    have isNew : current ∉ visited := by simpa using fresh
    apply ih (searching_visit searching rfl) (List.nodup_cons.mpr ⟨isNew,nodup⟩)
    intro item
    rw [List.mem_append,emitted]
    constructor
    · rintro (⟨node,member,isItem⟩ | isItem)
      · exact ⟨node,List.mem_cons_of_mem _ member,isItem⟩
      · exact ⟨current,List.mem_cons_self,isItem⟩
    · rintro ⟨node,member,isItem⟩
      rcases List.mem_cons.mp member with isCurrent | member
      · exact .inr (isCurrent ▸ isItem)
      · exact .inl ⟨node,member,isItem⟩

theorem collect_cone (small : Small bound next start) (item : β) :
    item ∈ collect bound next emits [start] [] [] ↔ ∃ node, Cone next start node ∧ item ∈ emits node := by
  obtain ⟨nodes,short,inside⟩ := small
  simp only [cone_reached] at inside ⊢
  exact collect_searching nodes short inside [start] [] [] (searching_start start) List.nodup_nil (by simp) item

end Spec

end Rsleigh.Collect
