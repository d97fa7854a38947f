import Mathlib.Data.List.Chain
import Mathlib.Data.List.Sort
import Mathlib.Data.List.TakeWhile

namespace Rsleigh.Sorted

variable {key : α → Nat} {entries : List α}

-- The keys are in strict order.
def Strict (key : α → Nat) (entries : List α) : Prop :=
  entries.Pairwise fun first second => key first < key second

theorem strict_lt (strict : Strict key entries) {i j : Nat} (inI : i < entries.length) (inJ : j < entries.length) :
    key entries[i] < key entries[j] ↔ i < j := by
  have byIndex := List.pairwise_iff_getElem.mp strict
  constructor
  · intro less
    rcases Nat.lt_trichotomy i j with before | same | later
    · exact before
    · subst same
      exact absurd less (Nat.lt_irrefl _)
    · exact absurd less (Nat.not_lt.mpr (Nat.le_of_lt (byIndex j i inJ inI later)))
  · exact byIndex i j inI inJ

theorem isChain_iff_between {R : α → α → Prop} (strict : Strict key entries) :
    entries.IsChain R ↔ ∀ first ∈ entries, ∀ second ∈ entries, key first < key second →
      (∀ other ∈ entries, ¬(key first < key other ∧ key other < key second)) → R first second := by
  rw [List.isChain_iff_getElem]
  constructor
  · intro chained first isFirst second isSecond less nothing
    obtain ⟨i,inI,rfl⟩ := List.getElem_of_mem isFirst
    obtain ⟨j,inJ,rfl⟩ := List.getElem_of_mem isSecond
    have before := (strict_lt strict inI inJ).mp less
    have inNext : i + 1 < entries.length := Nat.lt_of_le_of_lt before inJ
    have isNext : j = i + 1 := by
      by_contra notNext
      apply nothing _ (List.getElem_mem inNext)
      exact ⟨(strict_lt strict inI inNext).mpr (Nat.lt_succ_self i),(strict_lt strict inNext inJ).mpr (by omega)⟩
    subst isNext
    exact chained i inJ
  · intro between i inRange
    apply between _ (List.getElem_mem _) _ (List.getElem_mem _)
    · exact (strict_lt strict _ _).mpr (Nat.lt_succ_self i)
    · intro other isOther bounds
      obtain ⟨k,inK,rfl⟩ := List.getElem_of_mem isOther
      have after := (strict_lt strict _ inK).mp bounds.1
      have before := (strict_lt strict inK _).mp bounds.2
      omega

theorem next_some {numbers : List Nat} (strict : Strict id numbers) {bound next : Nat}
    (found : (numbers.dropWhile (· ≤ bound)).head? = some next) :
    next ∈ numbers ∧ bound < next ∧ ∀ other ∈ numbers, bound < other → next ≤ other := by
  induction numbers with
  | nil => cases found
  | cons first rest ih =>
    obtain ⟨isFirst,restStrict⟩ := List.pairwise_cons.mp strict
    by_cases before : first ≤ bound
    · rw [List.dropWhile_cons_of_pos (by simpa using before)] at found
      obtain ⟨isNext,above,least⟩ := ih restStrict found
      refine ⟨List.mem_cons_of_mem _ isNext,above,?_⟩
      intro other isOther isAbove
      rcases List.mem_cons.mp isOther with same | later
      · subst same
        exact absurd isAbove (Nat.not_lt.mpr before)
      · exact least other later isAbove
    · rw [List.dropWhile_cons_of_neg (by simpa using before),List.head?_cons] at found
      cases found
      refine ⟨List.mem_cons_self,Nat.lt_of_not_le before,?_⟩
      intro other isOther _
      rcases List.mem_cons.mp isOther with same | later
      · exact Nat.le_of_eq same.symm
      · exact Nat.le_of_lt (isFirst other later)

theorem next_none {numbers : List Nat} {bound : Nat} (isNone : (numbers.dropWhile (· ≤ bound)).head? = none) :
    ∀ other ∈ numbers, other ≤ bound := by
  have isEmpty := List.head?_eq_none_iff.mp isNone
  exact fun other isOther => of_decide_eq_true (List.dropWhile_eq_nil_iff.mp isEmpty other isOther)

theorem exists_last {numbers : List Nat} {bound : Nat} (exists_ : ∃ other ∈ numbers, other ≤ bound) :
    ∃ last ∈ numbers, last ≤ bound ∧ ∀ other ∈ numbers, other ≤ bound → other ≤ last := by
  induction numbers with
  | nil =>
    obtain ⟨other,isOther,_⟩ := exists_
    cases isOther
  | cons first rest ih =>
    by_cases later : ∃ other ∈ rest, other ≤ bound
    · obtain ⟨last,isLast,within,greatest⟩ := ih later
      by_cases before : first ≤ bound ∧ last < first
      · refine ⟨first,List.mem_cons_self,before.1,?_⟩
        intro other isOther isWithin
        rcases List.mem_cons.mp isOther with same | isRest
        · exact Nat.le_of_eq same
        · exact Nat.le_trans (greatest other isRest isWithin) (Nat.le_of_lt before.2)
      · refine ⟨last,List.mem_cons_of_mem _ isLast,within,?_⟩
        intro other isOther isWithin
        rcases List.mem_cons.mp isOther with same | isRest
        · subst same
          omega
        · exact greatest other isRest isWithin
    · obtain ⟨other,isOther,isWithin⟩ := exists_
      rcases List.mem_cons.mp isOther with same | isRest
      · subst same
        refine ⟨other,List.mem_cons_self,isWithin,?_⟩
        intro another isAnother anotherWithin
        rcases List.mem_cons.mp isAnother with isFirst | isRest
        · exact Nat.le_of_eq isFirst
        · exact absurd ⟨another,isRest,anotherWithin⟩ later
      · exact absurd ⟨other,isRest,isWithin⟩ later

end Rsleigh.Sorted
