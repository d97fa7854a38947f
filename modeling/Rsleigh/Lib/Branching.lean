import Mathlib.Data.List.Basic

namespace Rsleigh.Branching

-- What a node of a search turns into: nothing, an end, another node, or one that goes on while another waits.
inductive Expansion (σ ε : Type) where
  | stop (why : ε)
  | finish (last : σ)
  | go (next : σ)
  | fork (now later : σ)

-- The nodes that wait, the ends that were found, and why the last node was given up. Whether a node was dropped is
-- kept for what is said of the search.
structure Pending (σ ε : Type) where
  worklist : List σ
  completed : List σ
  lastReject : Option ε
  dropped : Bool

section Search

variable {σ ε : Type} (expand : σ → Expansion σ ε) (refuse : σ → Option ε) (limit : Nat) (full : ε)

-- A node goes on until it ends, then the node that was put aside last is taken up. At most `limit` nodes wait.
def search : Nat → Option σ → Pending σ ε → Option (Pending σ ε)
  | 0, _, _ => none
  | fuel + 1, none, pending =>
    match pending.worklist with
    | [] => some pending
    | node :: rest =>
      match refuse node with
      | some why => search fuel none { pending with worklist := rest, lastReject := some why }
      | none => search fuel (some node) { pending with worklist := rest }
  | fuel + 1, some node, pending =>
    match expand node with
    | .stop why => search fuel none { pending with lastReject := some why }
    | .finish last => search fuel none { pending with completed := pending.completed ++ [last] }
    | .go next => search fuel (some next) pending
    | .fork now later =>
      if pending.worklist.length < limit then search fuel (some now) { pending with worklist := later :: pending.worklist }
      else search fuel (some now) { pending with lastReject := some full, dropped := true }

-- The ends of a node, from left to right.
inductive Yields : σ → List σ → Prop where
  | stop : expand node = .stop why → Yields node []
  | finish : expand node = .finish last → Yields node [last]
  | go : expand node = .go next → Yields next ends → Yields node ends
  | fork : expand node = .fork now later → refuse later = none → Yields now left → Yields later right →
      Yields node (left ++ right)

variable {expand refuse limit full}

theorem yields_exists (rank : σ → Nat) (goes : ∀ node next, expand node = .go next → rank next < rank node)
    (forks : ∀ node now later, expand node = .fork now later →
      rank now < rank node ∧ rank later < rank node ∧ refuse later = none) (node : σ) :
    ∃ ends, Yields expand refuse node ends := by
  induction height : rank node using Nat.strongRecOn generalizing node with
  | _ height' ih =>
    subst height
    cases expanded : expand node with
    | stop why => exact ⟨[],.stop expanded⟩
    | finish last => exact ⟨[last],.finish expanded⟩
    | go next =>
      obtain ⟨ends,yields⟩ := ih _ (goes node next expanded) next rfl
      exact ⟨ends,.go expanded yields⟩
    | fork now later =>
      obtain ⟨nowLower,laterLower,accepted⟩ := forks node now later expanded
      obtain ⟨left,leftYields⟩ := ih _ nowLower now rfl
      obtain ⟨right,rightYields⟩ := ih _ laterLower later rfl
      exact ⟨left ++ right,.fork expanded accepted leftYields rightYields⟩

-- From a node the search comes back to the nodes that waited, and with all ends of the node if none was dropped.
theorem search_node (yields : Yields expand refuse node ends) :
    ∀ (rest completed : List σ) (lastReject : Option ε) (dropped : Bool), ∃ used completed' lastReject' dropped',
      (∀ fuel, search expand refuse limit full (used + fuel) (some node) ⟨rest,completed,lastReject,dropped⟩ =
        search expand refuse limit full fuel none ⟨rest,completed',lastReject',dropped'⟩) ∧
      (dropped' = false → dropped = false ∧ completed' = completed ++ ends) := by
  induction yields with
  | @stop node why expanded =>
    intro rest completed lastReject dropped
    refine ⟨1,completed,some why,dropped,fun fuel => ?_,fun kept => ⟨kept,(List.append_nil _).symm⟩⟩
    rw [Nat.add_comm,search,expanded]
  | @finish node last expanded =>
    intro rest completed lastReject dropped
    refine ⟨1,completed ++ [last],lastReject,dropped,fun fuel => ?_,fun kept => ⟨kept,rfl⟩⟩
    rw [Nat.add_comm,search,expanded]
  | @go node next ends expanded _ ih =>
    intro rest completed lastReject dropped
    obtain ⟨used,completed',lastReject',dropped',runs,kept⟩ := ih rest completed lastReject dropped
    refine ⟨used + 1,completed',lastReject',dropped',fun fuel => ?_,kept⟩
    rw [Nat.add_right_comm,search,expanded]
    exact runs fuel
  | @fork node now later left right expanded accepted _ _ leftHypothesis rightHypothesis =>
    intro rest completed lastReject dropped
    by_cases room : rest.length < limit
    · obtain ⟨used,completed',lastReject',dropped',runs,kept⟩ :=
        leftHypothesis (later :: rest) completed lastReject dropped
      obtain ⟨usedLater,completed'',lastReject'',dropped'',runsLater,keptLater⟩ :=
        rightHypothesis rest completed' lastReject' dropped'
      refine ⟨used + (usedLater + 1) + 1,completed'',lastReject'',dropped'',fun fuel => ?_,fun isKept => ?_⟩
      · rw [Nat.add_right_comm,search,expanded]
        simp only [room,if_true]
        rw [Nat.add_assoc,runs,Nat.add_right_comm,search]
        simp only [accepted]
        exact runsLater fuel
      · obtain ⟨keptNow,isLater⟩ := keptLater isKept
        obtain ⟨keptBefore,isNow⟩ := kept keptNow
        refine ⟨keptBefore,?_⟩
        rw [isLater,isNow,List.append_assoc]
    · obtain ⟨used,completed',lastReject',dropped',runs,kept⟩ := leftHypothesis rest completed (some full) true
      refine ⟨used + 1,completed',lastReject',dropped',fun fuel => ?_,fun isKept => ?_⟩
      · rw [Nat.add_right_comm,search,expanded]
        simp only [room,if_false]
        exact runs fuel
      · exact absurd (kept isKept).1 (by decide)

theorem search_ends (yields : Yields expand refuse root ends) (accepted : refuse root = none) :
    ∃ enough final, (∀ fuel, search expand refuse limit full (enough + fuel) none ⟨[root],[],none,false⟩ = some final) ∧
      (final.dropped = false → final.completed = ends) := by
  obtain ⟨used,completed,lastReject,dropped,runs,kept⟩ := @search_node _ _ _ _ limit full _ _ yields [] [] none false
  refine ⟨used + 2,⟨[],completed,lastReject,dropped⟩,fun fuel => ?_,fun isKept => (kept isKept).2⟩
  have split : used + 2 + fuel = used + (fuel + 1) + 1 := by omega
  rw [split,search]
  simp only [accepted]
  rw [runs,search]

end Search

end Rsleigh.Branching
