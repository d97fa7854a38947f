import Mathlib

namespace Rsleigh.BoundedInsert

section Insert

variable [LinearOrder α]

-- Where an item that is not there belongs.
def place (items : List α) (item : α) : Nat :=
  (items.takeWhile (· < item)).length

-- The items with one more, the smallest ones when these are too many, and whether one was left out.
def insertWithin (capacity : Nat) (items : List α) (item : α) : List α × Bool :=
  if item ∈ items then (items, false)
  else
    let index := place items item
    if index < capacity then
      let items := items.take index ++ item :: items.drop index
      if capacity < items.length then (items.dropLast, true) else (items, false)
    else (items, true)

-- The items are in order, and not too many.
structure Within (capacity : Nat) (items : List α) : Prop where
  sorted : items.Pairwise (· < ·)
  few : items.length ≤ capacity

theorem take_place (items : List α) (item : α) : items.take (place items item) = items.takeWhile (· < item) := by
  unfold place
  induction items with
  | nil => rfl
  | cons first rest ih =>
    by_cases below : first < item
    · simpa [below] using ih
    · simp [below]

theorem drop_place (items : List α) (item : α) : items.drop (place items item) = items.dropWhile (· < item) := by
  unfold place
  induction items with
  | nil => rfl
  | cons first rest ih =>
    by_cases below : first < item
    · simpa [below] using ih
    · simp [below]

theorem above_place {items : List α} {item : α} (sorted : items.Pairwise (· < ·)) (absent : item ∉ items) :
    ∀ other ∈ items.dropWhile (· < item), item < other := by
  induction items with
  | nil => simp
  | cons first rest ih =>
    intro other member
    obtain ⟨smallest,restSorted⟩ := List.pairwise_cons.mp sorted
    by_cases below : first < item
    · rw [List.dropWhile_cons_of_pos (by simpa using below)] at member
      exact ih restSorted (List.not_mem_of_not_mem_cons absent) other member
    · rw [List.dropWhile_cons_of_neg (by simpa using below)] at member
      have above : item < first := lt_of_le_of_ne (not_lt.mp below) (List.ne_of_not_mem_cons absent)
      rcases List.mem_cons.mp member with same | member
      · rw [same]
        exact above
      · exact above.trans (smallest other member)

theorem inserted_sorted {items : List α} {item : α} (sorted : items.Pairwise (· < ·)) (absent : item ∉ items) :
    (items.take (place items item) ++ item :: items.drop (place items item)).Pairwise (· < ·) := by
  have below : ∀ other ∈ items.takeWhile (· < item), other < item := by
    intro other member
    simpa using List.mem_takeWhile_imp member
  have above := above_place sorted absent
  rw [take_place,drop_place]
  refine List.pairwise_append.mpr ⟨sorted.sublist (List.takeWhile_sublist _),List.pairwise_cons.mpr ⟨above,?_⟩,?_⟩
  · exact sorted.sublist (List.dropWhile_sublist _)
  · intro first firstMember second secondMember
    rcases List.mem_cons.mp secondMember with same | later
    · rw [same]
      exact below first firstMember
    · exact (below first firstMember).trans (above second later)

omit [LinearOrder α] in
theorem mem_inserted {items : List α} {item other : α} {index : Nat} :
    other ∈ items.take index ++ item :: items.drop index ↔ other ∈ items ∨ other = item := by
  rw [List.mem_append,List.mem_cons,← or_assoc,or_comm (a := other ∈ _),or_assoc,← List.mem_append,List.take_append_drop,
    or_comm]

theorem insertWithin_within {capacity : Nat} {items : List α} {item : α} (within : Within capacity items) :
    Within capacity (insertWithin capacity items item).1 := by
  unfold insertWithin
  by_cases present : item ∈ items
  · rw [if_pos present]
    exact within
  · rw [if_neg present]
    have sorted := inserted_sorted within.sorted present
    have few := within.few
    dsimp only
    split
    · split
      · refine ⟨sorted.sublist (List.dropLast_sublist _),?_⟩
        simp only [List.length_dropLast,List.length_append,List.length_cons,List.length_take,List.length_drop]
        omega
      · exact ⟨sorted,Nat.le_of_not_lt (by assumption)⟩
    · exact within

theorem insertWithin_kept {capacity : Nat} {items : List α} {item : α}
    (kept : (insertWithin capacity items item).2 = false) (other : α) :
    other ∈ (insertWithin capacity items item).1 ↔ other ∈ items ∨ other = item := by
  unfold insertWithin at kept ⊢
  by_cases present : item ∈ items
  · rw [if_pos present]
    constructor
    · exact Or.inl
    · rintro (member | same)
      · exact member
      · exact same ▸ present
  · rw [if_neg present] at kept ⊢
    dsimp only at kept ⊢
    split at kept
    · rename_i room
      rw [if_pos room]
      split at kept
      · cases kept
      · rename_i fits
        rw [if_neg fits]
        exact mem_inserted
    · cases kept

end Insert

section Smallest

variable {α : Type} [LinearOrder α] {capacity : Nat} {all : Finset α} {items : List α} {item : α}

-- The items are the smallest ones of a set, as many as there may be.
structure Smallest (capacity : Nat) (all : Finset α) (items : List α) : Prop where
  within : Within capacity items
  inside : ∀ kept ∈ items, kept ∈ all
  beyond : ∀ other ∈ all, other ∉ items → items.length = capacity ∧ ∀ kept ∈ items, kept < other

theorem smallest_empty (capacity : Nat) : Smallest capacity (∅ : Finset α) [] :=
  ⟨⟨List.Pairwise.nil,Nat.zero_le _⟩,fun _ member => absurd member List.not_mem_nil,
    fun _ member => absurd member (Finset.notMem_empty _)⟩

theorem dropLast_below {sorted : List α} (isSorted : sorted.Pairwise (· < ·)) {last : α} (member : last ∈ sorted)
    (dropped : last ∉ sorted.dropLast) : ∀ kept ∈ sorted.dropLast, kept < last := by
  intro kept isKept
  have nonempty : sorted ≠ [] := List.ne_nil_of_mem member
  rw [← List.dropLast_append_getLast nonempty] at isSorted member
  have isLast := (List.mem_append.mp member).resolve_left dropped
  exact (List.pairwise_append.mp isSorted).2.2 kept isKept last isLast

theorem place_le (items : List α) (item : α) : place items item ≤ items.length :=
  (List.takeWhile_sublist _).length_le

theorem place_inside (sorted : items.Pairwise (· < ·)) (absent : item ∉ items) (inside : place items item < items.length) :
    ∃ above ∈ items, item < above := by
  have isThere : items[place items item] ∈ items.drop (place items item) := by
    rw [List.drop_eq_getElem_cons inside]
    exact List.mem_cons_self
  refine ⟨items[place items item],List.getElem_mem inside,?_⟩
  rw [drop_place] at isThere
  exact above_place sorted absent _ isThere

theorem place_outside (outside : place items item = items.length) : ∀ kept ∈ items, kept < item := by
  have whole : items.takeWhile (· < item) = items := by
    rw [← take_place,outside,List.take_length]
  intro kept member
  rw [← whole] at member
  simpa using List.mem_takeWhile_imp member

-- The items with one more in its place.
def inserted (items : List α) (item : α) : List α :=
  items.take (place items item) ++ item :: items.drop (place items item)

theorem inserted_length (items : List α) (item : α) : (inserted items item).length = items.length + 1 := by
  have bound := place_le items item
  simp only [inserted,List.length_append,List.length_cons,List.length_take,List.length_drop]
  omega

theorem insertWithin_cases (capacity : Nat) (absent : item ∉ items) :
    insertWithin capacity items item =
      if place items item < capacity then
        if capacity < (inserted items item).length then ((inserted items item).dropLast, true)
        else (inserted items item, false)
      else (items, true) := by
  rw [insertWithin,if_neg absent]
  rfl

theorem insertWithin_dropped (few : items.length ≤ capacity) :
    (insertWithin capacity items item).2 = true ↔ item ∉ items ∧ items.length = capacity := by
  by_cases present : item ∈ items
  · simp [insertWithin,present]
  · have bound := place_le items item
    rw [insertWithin_cases capacity present,inserted_length]
    split
    · split
      · simp only [present,not_false_eq_true,true_and,true_iff]
        omega
      · simp only [present,not_false_eq_true,true_and,Bool.false_eq_true,false_iff]
        omega
    · simp only [present,not_false_eq_true,true_and,true_iff]
      omega

variable [DecidableEq α]

theorem smallest_all (smallest : Smallest capacity all items) (room : items.length < capacity) : items.toFinset = all := by
  ext other
  rw [List.mem_toFinset]
  refine ⟨smallest.inside other,fun member => ?_⟩
  by_contra absent
  have full := (smallest.beyond other member absent).1
  omega

theorem smallest_whole (smallest : Smallest capacity all items) (few : all.card ≤ capacity) : items.toFinset = all := by
  by_cases full : items.length = capacity
  · have distinct : items.Nodup := smallest.within.sorted.imp fun below => below.ne
    refine Finset.eq_of_subset_of_card_le (fun kept member => smallest.inside kept (List.mem_toFinset.mp member)) ?_
    rw [List.toFinset_card_of_nodup distinct,full]
    exact few
  · exact smallest_all smallest (lt_of_le_of_ne smallest.within.few full)

theorem smallest_card (smallest : Smallest capacity all items) : items.length ≤ all.card := by
  have distinct : items.Nodup := smallest.within.sorted.imp fun below => below.ne
  rw [← List.toFinset_card_of_nodup distinct]
  exact Finset.card_le_card fun kept member => smallest.inside kept (List.mem_toFinset.mp member)

theorem inserted_inside (smallest : Smallest capacity all items) : ∀ kept ∈ inserted items item, kept ∈ insert item all := by
  intro kept isKept
  rcases mem_inserted.mp isKept with old | same
  · exact Finset.mem_insert_of_mem (smallest.inside kept old)
  · rw [same]
    exact Finset.mem_insert_self _ _

theorem inserted_beyond (smallest : Smallest capacity all items) {other : α} (isOther : other ∈ insert item all)
    (dropped : other ∉ inserted items item) : items.length = capacity ∧ ∀ kept ∈ items, kept < other := by
  have notItem : other ≠ item := fun same => dropped (mem_inserted.mpr (Or.inr same))
  have notOld : other ∉ items := fun old => dropped (mem_inserted.mpr (Or.inl old))
  exact smallest.beyond other (Finset.mem_of_mem_insert_of_ne isOther notItem) notOld

theorem inserted_smallest (smallest : Smallest capacity all items) (absent : item ∉ items)
    (room : items.length < capacity) : Smallest capacity (insert item all) (inserted items item) := by
  refine ⟨⟨inserted_sorted smallest.within.sorted absent,?_⟩,inserted_inside smallest,fun other isOther dropped => ?_⟩
  · rw [inserted_length]
    exact room
  · have full := (inserted_beyond smallest isOther dropped).1
    omega

theorem dropLast_smallest (smallest : Smallest capacity all items) (absent : item ∉ items)
    (full : items.length = capacity) (inside : place items item < capacity) :
    Smallest capacity (insert item all) (inserted items item).dropLast := by
  have sorted := inserted_sorted smallest.within.sorted absent
  have length : (inserted items item).dropLast.length = capacity := by
    rw [List.length_dropLast,inserted_length,Nat.add_sub_cancel,full]
  refine ⟨⟨sorted.sublist (List.dropLast_sublist _),length.le⟩,
    fun kept isKept => inserted_inside smallest kept (List.dropLast_subset _ isKept),fun other isOther dropped => ⟨length,?_⟩⟩
  by_cases isInserted : other ∈ inserted items item
  · exact dropLast_below sorted isInserted dropped
  · have above := (inserted_beyond smallest isOther isInserted).2
    intro kept isKept
    rcases mem_inserted.mp (List.dropLast_subset _ isKept) with old | same
    · exact above kept old
    · obtain ⟨next,isNext,below⟩ := place_inside smallest.within.sorted absent (full ▸ inside)
      rw [same]
      exact below.trans (above next isNext)

theorem smallest_outside (smallest : Smallest capacity all items) (full : items.length = capacity)
    (outside : place items item = items.length) : Smallest capacity (insert item all) items := by
  refine ⟨smallest.within,fun kept isKept => Finset.mem_insert_of_mem (smallest.inside kept isKept),
    fun other isOther dropped => ?_⟩
  rcases Finset.mem_insert.mp isOther with same | old
  · rw [same]
    exact ⟨full,place_outside outside⟩
  · exact smallest.beyond other old dropped

theorem insertWithin_smallest (smallest : Smallest capacity all items) :
    Smallest capacity (insert item all) (insertWithin capacity items item).1 := by
  by_cases present : item ∈ items
  · rw [Finset.insert_eq_of_mem (smallest.inside item present),insertWithin,if_pos present]
    exact smallest
  · have few := smallest.within.few
    have bound := place_le items item
    rw [insertWithin_cases capacity present,inserted_length]
    by_cases inside : place items item < capacity
    · rw [if_pos inside]
      by_cases full : items.length = capacity
      · rw [if_pos (by omega)]
        exact dropLast_smallest smallest present full inside
      · rw [if_neg (by omega)]
        exact inserted_smallest smallest present (by omega)
    · have outside : place items item = items.length := by omega
      have full : items.length = capacity := by omega
      rw [if_neg inside]
      exact smallest_outside smallest full outside

theorem insertWithin_over (smallest : Smallest capacity all items) :
    capacity < (insert item all).card ↔ capacity < all.card ∨ (insertWithin capacity items item).2 = true := by
  rw [insertWithin_dropped smallest.within.few]
  have most := smallest_card smallest
  by_cases present : item ∈ items
  · rw [Finset.insert_eq_of_mem (smallest.inside item present)]
    simp [present]
  · by_cases full : items.length = capacity
    · have distinct : (item :: items).Nodup :=
        List.nodup_cons.mpr ⟨present,smallest.within.sorted.imp fun below => below.ne⟩
      have enough : (item :: items).toFinset.card ≤ (insert item all).card := by
        apply Finset.card_le_card
        intro kept isKept
        rcases List.mem_cons.mp (List.mem_toFinset.mp isKept) with same | old
        · rw [same]
          exact Finset.mem_insert_self _ _
        · exact Finset.mem_insert_of_mem (smallest.inside kept old)
      rw [List.toFinset_card_of_nodup distinct,List.length_cons] at enough
      simp [present,full]
      omega
    · have room : items.length < capacity := lt_of_le_of_ne smallest.within.few full
      have whole := smallest_all smallest room
      have few := List.toFinset_card_le items
      have more := Finset.card_insert_le item all
      rw [whole] at few
      simp [full]
      omega

theorem smallest_take (smallest : Smallest capacity all items) : items = all.sort.take capacity := by
  have distinct : items.Nodup := smallest.within.sorted.imp fun below => below.ne
  have rest : ∀ other ∈ all \ items.toFinset, ∀ kept ∈ items, kept < other := by
    intro other member
    obtain ⟨isOther,dropped⟩ := Finset.mem_sdiff.mp member
    exact (smallest.beyond other isOther fun present => dropped (List.mem_toFinset.mpr present)).2
  have split : items ++ (all \ items.toFinset).sort = all.sort := by
    apply @List.Perm.eq_of_pairwise _ (· ≤ ·)
    · intro one two _ _
      exact le_antisymm
    · refine List.pairwise_append.mpr ⟨smallest.within.sorted.imp le_of_lt,Finset.pairwise_sort _ _,?_⟩
      intro kept isKept other isOther
      exact (rest other ((Finset.mem_sort _).mp isOther) kept isKept).le
    · exact Finset.pairwise_sort _ _
    · refine (List.perm_ext_iff_of_nodup ?_ (Finset.sort_nodup _ _)).mpr fun other => ?_
      · refine List.nodup_append.mpr ⟨distinct,Finset.sort_nodup _ _,fun kept isKept other isOther same => ?_⟩
        exact absurd (rest other ((Finset.mem_sort _).mp isOther) kept isKept) (same ▸ lt_irrefl _)
      · rw [List.mem_append,Finset.mem_sort,Finset.mem_sort,Finset.mem_sdiff,List.mem_toFinset]
        have inside := smallest.inside other
        tauto
  by_cases full : items.length = capacity
  · rw [← split,← full,List.take_left]
  · have whole := smallest_all smallest (lt_of_le_of_ne smallest.within.few full)
    rw [whole,Finset.sdiff_self,Finset.sort_empty,List.append_nil] at split
    rw [← split,List.take_of_length_le smallest.within.few]

-- The smallest items of a union are found from the smallest ones of a part.
theorem smallest_union {part rest : Finset α} {kept : List α} (smallest : Smallest capacity part kept)
    (merged : Smallest capacity (rest ∪ kept.toFinset) items) : Smallest capacity (rest ∪ part) items := by
  have keptInside : kept.toFinset ⊆ part := fun one isOne => smallest.inside one (List.mem_toFinset.mp isOne)
  have keptDistinct : kept.Nodup := smallest.within.sorted.imp fun below => below.ne
  refine ⟨merged.within,fun one isOne => ?_,fun other isOther dropped => ?_⟩
  · exact Finset.union_subset_union_right keptInside (merged.inside one isOne)
  · by_cases isThere : other ∈ rest ∪ kept.toFinset
    · exact merged.beyond other isThere dropped
    · obtain ⟨notRest,notKept⟩ := Finset.notMem_union.mp isThere
      have isPart := (Finset.mem_union.mp isOther).resolve_left notRest
      obtain ⟨full,below⟩ := smallest.beyond other isPart fun member => notKept (List.mem_toFinset.mpr member)
      constructor
      · by_contra notFull
        have whole := smallest_all merged (lt_of_le_of_ne merged.within.few notFull)
        have more : kept.toFinset.card ≤ items.toFinset.card :=
          Finset.card_le_card (whole ▸ Finset.subset_union_right)
        have fewer := List.toFinset_card_le items
        have few := merged.within.few
        rw [List.toFinset_card_of_nodup keptDistinct,full] at more
        omega
      · intro one isOne
        by_contra notBelow
        have allKept : ∀ two ∈ kept, two ∈ items := by
          intro two isTwo
          by_contra missing
          have above := (merged.beyond two (Finset.mem_union_right _ (List.mem_toFinset.mpr isTwo)) missing).2 one isOne
          exact notBelow (above.trans (below two isTwo))
        have notOne : one ∉ kept := fun member => notBelow (below one member)
        have more : (one :: kept).toFinset.card ≤ items.toFinset.card := by
          apply Finset.card_le_card
          intro two isTwo
          rcases List.mem_cons.mp (List.mem_toFinset.mp isTwo) with same | member
          · exact List.mem_toFinset.mpr (same ▸ isOne)
          · exact List.mem_toFinset.mpr (allKept two member)
        have fewer := List.toFinset_card_le items
        have few := merged.within.few
        rw [List.toFinset_card_of_nodup (List.nodup_cons.mpr ⟨notOne,keptDistinct⟩),List.length_cons,full] at more
        omega

theorem smallest_union_over {part rest : Finset α} {kept : List α} (smallest : Smallest capacity part kept) :
    capacity < (rest ∪ part).card ↔ capacity < (rest ∪ kept.toFinset).card ∨ capacity < part.card := by
  have keptInside : kept.toFinset ⊆ part := fun one isOne => smallest.inside one (List.mem_toFinset.mp isOne)
  constructor
  · intro many
    by_cases few : part.card ≤ capacity
    · rw [smallest_whole smallest few]
      exact Or.inl many
    · exact Or.inr (Nat.lt_of_not_le few)
  · rintro (many | many)
    · exact many.trans_le (Finset.card_le_card (Finset.union_subset_union_right keptInside))
    · exact many.trans_le (Finset.card_le_card Finset.subset_union_right)

end Smallest

end Rsleigh.BoundedInsert
