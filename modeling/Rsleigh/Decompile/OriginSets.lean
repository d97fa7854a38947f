import Rsleigh.Decompile.Provenance

namespace Rsleigh.Decompile

open BoundedInsert

-- `Origins::default`.
def Origins.default : Origins := ⟨[], false, true⟩

-- A sequence of insertions and merges, where what is merged has been built by such a sequence, or is given.
inductive OriginSequence where
  | start
  | insert (before : OriginSequence) (origin : OperationOrigin)
  | merge (before other : OriginSequence)
  | mergeGiven (before : OriginSequence) (given : Origins)

namespace OriginSequence

def result : OriginSequence → Origins
  | start => .default
  | insert before origin => before.result.insert origin
  | merge before other => before.result.merge other.result
  | mergeGiven before given => before.result.merge given

-- The origins of a sequence, with those that are left out on the way.
def involved : OriginSequence → Finset OperationOrigin
  | start => ∅
  | insert before origin => Insert.insert origin before.involved
  | merge before other => before.involved ∪ other.involved
  | mergeGiven before given => before.involved ∪ given.operations.toFinset

-- A given input that is merged was truncated.
def givenTruncated : OriginSequence → Bool
  | start => false
  | insert before _ => before.givenTruncated
  | merge before other => before.givenTruncated || other.givenTruncated
  | mergeGiven before given => before.givenTruncated || given.truncated

end OriginSequence

namespace Origins

-- The origins are what remains of all of them, and tell whether some are missing.
structure Summarizes (origins : Origins) (all : Finset OperationOrigin) (cut : Bool) : Prop where
  smallest : Smallest maxOrigins all origins.operations
  truncated : origins.truncated = true ↔ maxOrigins < all.card ∨ cut = true
  synthetic : origins.synthetic = true

theorem insert_summarizes {origins : Origins} {origin : OperationOrigin} {all : Finset OperationOrigin}
    {cut : Bool} (summarizes : Summarizes origins all cut) :
    Summarizes (origins.insert origin) (Insert.insert origin all) cut where
  smallest := insertWithin_smallest summarizes.smallest
  truncated := by
    rw [insertWithin_over summarizes.smallest,Origins.insert,Bool.or_eq_true,summarizes.truncated]
    exact or_right_comm
  synthetic := summarizes.synthetic

theorem foldl_insert_summarizes {origins : Origins} {all : Finset OperationOrigin} {cut : Bool} (added : List OperationOrigin)
    (summarizes : Summarizes origins all cut) : Summarizes (added.foldl insert origins) (all ∪ added.toFinset) cut := by
  induction added generalizing origins all with
  | nil => simpa using summarizes
  | cons origin rest ih =>
    have inserted : Summarizes (origins.insert origin) _ _ := insert_summarizes summarizes
    have later := ih inserted
    rwa [Finset.insert_union,← Finset.union_insert,← List.toFinset_cons] at later

theorem merge_summarizes {origins other : Origins} {all : Finset OperationOrigin} {cut : Bool}
    (summarizes : Summarizes origins all cut) :
    Summarizes (origins.merge other) (all ∪ other.operations.toFinset) (cut || other.truncated) := by
  have merged := foldl_insert_summarizes other.operations summarizes
  refine ⟨merged.smallest,?_,merged.synthetic⟩
  rw [merge,Bool.or_eq_true,merged.truncated,Bool.or_eq_true,or_assoc]

theorem merge_built_summarizes {origins other : Origins} {all others : Finset OperationOrigin} {cut otherCut : Bool}
    (summarizes : Summarizes origins all cut) (built : Summarizes other others otherCut) : Summarizes (origins.merge other) (all ∪ others) (cut || otherCut) := by
  have merged : Summarizes (origins.merge other) _ _ := merge_summarizes summarizes
  refine ⟨smallest_union built.smallest merged.smallest,?_,merged.synthetic⟩
  rw [merged.truncated,smallest_union_over built.smallest,Bool.or_eq_true,Bool.or_eq_true,built.truncated]
  tauto

end Origins

namespace OriginSequence

theorem result_summarizes (sequence : OriginSequence) :
    sequence.result.Summarizes sequence.involved sequence.givenTruncated := by
  induction sequence with
  | start => exact ⟨smallest_empty _,by simp [result,involved,givenTruncated,Origins.default],rfl⟩
  | insert before origin ih => exact Origins.insert_summarizes ih
  | merge before other ih otherHypothesis =>
    exact Origins.merge_built_summarizes ih otherHypothesis
  | mergeGiven before given ih => exact Origins.merge_summarizes ih

-- What a sequence results in depends on nothing but the origins, and on whether an input was truncated.
theorem origins_order_independent (sequence : OriginSequence) :
    sequence.result.operations = sequence.involved.sort.take maxOrigins ∧
      (sequence.result.truncated = true ↔ maxOrigins < sequence.involved.card ∨ sequence.givenTruncated = true) ∧
      ∀ other : OriginSequence, other.involved = sequence.involved → other.givenTruncated = sequence.givenTruncated →
        other.result = sequence.result := by
  have summarizes := result_summarizes sequence
  refine ⟨smallest_take summarizes.smallest,summarizes.truncated,fun other sameInvolved sameGiven => ?_⟩
  have otherSummarizes := result_summarizes other
  rw [sameInvolved,sameGiven] at otherSummarizes
  have sameOperations := (smallest_take otherSummarizes.smallest).trans (smallest_take summarizes.smallest).symm
  have sameTruncated := Bool.eq_iff_iff.mpr (otherSummarizes.truncated.trans summarizes.truncated.symm)
  have sameSynthetic := otherSummarizes.synthetic.trans summarizes.synthetic.symm
  calc other.result = ⟨other.result.operations, other.result.truncated, other.result.synthetic⟩ := rfl
    _ = ⟨sequence.result.operations, sequence.result.truncated, sequence.result.synthetic⟩ := by
      rw [sameOperations,sameTruncated,sameSynthetic]
    _ = sequence.result := rfl

-- Two origins, one merged into the other, and one after the other in the other order, twice.
def mergedOrigins : OriginSequence := .merge (.insert .start ⟨0x1000, 0⟩) (.insert .start ⟨0x1004, 2⟩)

def repeatedOrigins : OriginSequence := .insert (.insert (.insert .start ⟨0x1004, 2⟩) ⟨0x1000, 0⟩) ⟨0x1004, 2⟩

theorem origins_order_independent_repeated :
    repeatedOrigins.involved = mergedOrigins.involved ∧ repeatedOrigins.result = mergedOrigins.result := by
  have sameInvolved : repeatedOrigins.involved = mergedOrigins.involved := by decide
  exact ⟨sameInvolved,(origins_order_independent mergedOrigins).2.2 repeatedOrigins sameInvolved rfl⟩

end OriginSequence

end Rsleigh.Decompile
