import Rsleigh.Semantic.Pattern

namespace Rsleigh.Semantic.Pattern

open Syntax.Pattern

variable {χ : Type}

-- semantic/inner/with_block.rs: one round of the loop of `WithBlockCurrent::pattern`. The last block
-- so far takes the first block of the next pattern, or the whole pattern in parentheses where the
-- first operators of the two blocks differ.
def mergePattern : List (Syntax.Pattern.Block χ) → List (Syntax.Pattern.Block χ) → List (Syntax.Pattern.Block χ)
  | finalPattern, [] => finalPattern
  | [], pattern => pattern
  | [lastBlock], firstBlock :: blocks =>
    if firstBlock.op ≠ lastBlock.op then [lastBlock.push .and (.subPattern (firstBlock :: blocks))]
    else lastBlock.extend .and firstBlock :: blocks
  | block :: second :: more, pattern => block :: mergePattern (second :: more) pattern

-- The patterns of the with blocks around a constructor, outermost first, and then its own.
def withPattern (withs : List (List (Syntax.Pattern.Block χ)))
    (constructorPattern : List (Syntax.Pattern.Block χ)) : List (Syntax.Pattern.Block χ) :=
  (withs ++ [constructorPattern]).foldl mergePattern []

-- The matcher generated for the constructor.
def constructorMatches (withs : List (List (Syntax.Pattern.Block χ)))
    (constructorPattern : List (Syntax.Pattern.Block χ)) (tokens : List UInt8) (context : χ) : Bool :=
  (patternParse (newPattern (withPattern withs constructorPattern)) tokens context).isSome

-- What it has to match: the constructor's own pattern and every pattern around it, at one position.
def conjunctionReads (withs : List (List (Syntax.Pattern.Block χ))) (constructorPattern : List (Syntax.Pattern.Block χ))
    (tokens : List UInt8) (context : χ) : Prop :=
  (patternReads constructorPattern tokens context).isSome ∧
    ∀ pattern ∈ withs, (patternReads pattern tokens context).isSome

-- Nothing is merged into an or block: the outermost pattern that is not empty starts with an and block,
-- or all patterns inside it are empty.
def AndLed : List (List (Syntax.Pattern.Block χ)) → Prop
  | [] => True
  | [] :: inner => AndLed inner
  | (block :: _) :: inner => block.op = .and ∨ ∀ pattern ∈ inner, pattern = []

-- A with pattern does not reach past the first block of a constructor that goes on behind it.
def Fits (withs : List (List (Syntax.Pattern.Block χ))) (constructorPattern : List (Syntax.Pattern.Block χ))
    (tokens : List UInt8) (context : χ) : Prop :=
  ∀ first second rest, constructorPattern = first :: second :: rest → first.op = .and →
    ∀ pattern ∈ withs, ∀ withLen firstLen, patternReads pattern tokens context = some withLen →
      first.reads tokens context = some firstLen → withLen ≤ firstLen

theorem unmixed_op {block : Syntax.Pattern.Block χ} (unmixed : block.Unmixed expected) :
    block.op = expected ∨ ∃ first, block = .single first := by
  cases block with
  | single first => exact Or.inr ⟨first,rfl⟩
  | link first op rest => exact Or.inl unmixed.1

theorem and_op {block : Syntax.Pattern.Block χ} (ands : block.Unmixed .and) : block.op = .and := by
  rcases unmixed_op ands with same | ⟨first,rfl⟩
  · exact same
  · rfl

theorem patternReads_single (block : Syntax.Pattern.Block χ) (tokens : List UInt8) (context : χ) :
    patternReads [block] tokens context = block.reads tokens context := by
  rw [patternReads_cons]
  cases block.reads tokens context <;> simp [patternReads]

theorem longer_zero (one : Option Nat) : longer one (some 0) = one := by
  cases one <;> simp [longer]

theorem push_unmixed {last : Syntax.Pattern.Block χ} {pattern : List (Syntax.Pattern.Block χ)}
    (ands : last.Unmixed .and) (unmixed : patternUnmixed pattern) : (last.push .and (.subPattern pattern)).Unmixed .and := by
  rw [push_eq_extend]
  exact extend_unmixed ands unmixed

theorem push_reads {last : Syntax.Pattern.Block χ} {pattern : List (Syntax.Pattern.Block χ)} (ands : last.Unmixed .and)
    (unmixed : patternUnmixed pattern) (tokens : List UInt8) (context : χ) :
    (last.push .and (.subPattern pattern)).reads tokens context =
      longer (last.reads tokens context) (patternReads pattern tokens context) := by
  have inner : (Syntax.Pattern.Block.single (.subPattern pattern)).Unmixed .and := unmixed
  rw [push_eq_extend,extend_reads ands inner]
  have same : (Syntax.Pattern.Block.single (.subPattern pattern)).reads tokens context =
      patternReads pattern tokens context := by
    simp [Syntax.Pattern.Block.reads,Syntax.Pattern.Block.firstReads,Syntax.Pattern.Block.othersRead,Field.reads]
  rw [same]

theorem merge_step {last : Syntax.Pattern.Block χ} {pattern : List (Syntax.Pattern.Block χ)} (ands : last.Unmixed .and)
    (oneBlock : pattern.length ≤ 1) (unmixed : patternUnmixed pattern) :
    ∃ merged, mergePattern [last] pattern = [merged] ∧ merged.Unmixed .and ∧
      ∀ tokens context,
        merged.reads tokens context = longer (last.reads tokens context) (patternReads pattern tokens context) := by
  match pattern with
  | [] =>
    refine ⟨last,rfl,ands,?_⟩
    intro tokens context
    simp only [patternReads,longer_zero]
  | [block] =>
    simp only [mergePattern]
    split
    · refine ⟨_,rfl,push_unmixed ands unmixed,?_⟩
      intro tokens context
      exact push_reads ands unmixed tokens context
    · rename_i same
      have blockAnds : block.Unmixed .and := by
        have led : block.op = .and := by
          rw [and_op ands] at same
          exact Decidable.of_not_not same
        have ofBlock := unmixed.1
        rw [led] at ofBlock
        exact ofBlock
      refine ⟨_,rfl,extend_unmixed ands blockAnds,?_⟩
      intro tokens context
      rw [extend_reads ands blockAnds,patternReads_single]

theorem merge_run {withs : List (List (Syntax.Pattern.Block χ))} {last : Syntax.Pattern.Block χ}
    (ands : last.Unmixed .and) (oneBlock : ∀ pattern ∈ withs, pattern.length ≤ 1) (unmixed : ∀ pattern ∈ withs, patternUnmixed pattern) :
    ∃ merged, withs.foldl mergePattern [last] = [merged] ∧ merged.Unmixed .and ∧
      ∀ tokens context,
        merged.reads tokens context =
          withs.foldl (fun read pattern => longer read (patternReads pattern tokens context))
            (last.reads tokens context) := by
  induction withs generalizing last with
  | nil => exact ⟨last,rfl,ands,fun _ _ => rfl⟩
  | cons pattern rest ih =>
    obtain ⟨merged,step,mergedAnds,reads⟩ := merge_step ands (oneBlock pattern (by simp)) (unmixed pattern (by simp))
    obtain ⟨final,run,finalAnds,finalReads⟩ := ih mergedAnds
      (fun other member => oneBlock other (by simp [member])) (fun other member => unmixed other (by simp [member]))
    refine ⟨final,?_,finalAnds,?_⟩
    · rw [List.foldl_cons,step,run]
    · intro tokens context
      rw [finalReads,List.foldl_cons,reads]

theorem longer_run {reads : List (Option Nat)} {start : Option Nat} :
    (reads.foldl longer start).isSome ↔ start.isSome ∧ ∀ read ∈ reads, read.isSome := by
  induction reads generalizing start with
  | nil => simp
  | cons read rest ih =>
    rw [List.foldl_cons,ih]
    cases start <;> cases read <;> simp [longer]

theorem longer_run_le {reads : List (Option Nat)} {start : Option Nat} {bound : Nat}
    (startLe : ∀ len, start = some len → len ≤ bound) (readsLe : ∀ len, some len ∈ reads → len ≤ bound)
    (total : reads.foldl longer start = some len) : len ≤ bound := by
  induction reads generalizing start with
  | nil => exact startLe len total
  | cons read rest ih =>
    apply ih _ (fun other member => readsLe other (by simp [member])) total
    intro joined isJoined
    obtain ⟨one,two,isOne,isTwo,rfl⟩ := longer_some.mp isJoined
    have oneLe := startLe one isOne
    have twoLe := readsLe two (by simp [isTwo])
    omega

-- The last round: the constructor's own pattern, of any number of blocks.
theorem merge_last {last : Syntax.Pattern.Block χ} {pattern : List (Syntax.Pattern.Block χ)} (ands : last.Unmixed .and)
    (unmixed : patternUnmixed pattern) (tokens : List UInt8) (context : χ)
    (fits : ∀ first second rest, pattern = first :: second :: rest → first.op = .and → ∀ lastLen firstLen,
      last.reads tokens context = some lastLen → first.reads tokens context = some firstLen → lastLen ≤ firstLen) :
    patternUnmixed (mergePattern [last] pattern) ∧
      ((patternReads (mergePattern [last] pattern) tokens context).isSome ↔
        (last.reads tokens context).isSome ∧ (patternReads pattern tokens context).isSome) := by
  have lastUnmixed : ∀ block : Syntax.Pattern.Block χ, block.Unmixed .and → patternUnmixed [block] := by
    intro block blockAnds
    rw [←and_op blockAnds] at blockAnds
    exact ⟨blockAnds,trivial⟩
  match pattern with
  | [] =>
    refine ⟨lastUnmixed last ands,?_⟩
    simp only [mergePattern,patternReads_single]
    simp [patternReads]
  | first :: rest =>
    simp only [mergePattern]
    split
    · refine ⟨lastUnmixed _ (push_unmixed ands unmixed),?_⟩
      rw [patternReads_single,push_reads ands unmixed]
      cases last.reads tokens context <;> cases patternReads (first :: rest) tokens context <;> simp [longer]
    · rename_i same
      have led : first.op = .and := by
        rw [and_op ands] at same
        exact Decidable.of_not_not same
      have firstAnds := unmixed.1
      rw [led] at firstAnds
      have mergedAnds := extend_unmixed ands firstAnds
      refine ⟨⟨by rw [and_op mergedAnds]; exact mergedAnds,unmixed.2⟩,?_⟩
      rw [patternReads_cons,patternReads_cons,extend_reads ands firstAnds]
      cases lastRead : last.reads tokens context with
      | none => simp [longer]
      | some lastLen =>
        cases firstRead : first.reads tokens context with
        | none => simp [longer]
        | some firstLen =>
          cases rest with
          | nil => simp [longer,patternReads]
          | cons second more =>
            -- The blocks behind the merged one start where the constructor's first block ends.
            have short := fits first second more rfl led lastLen firstLen lastRead firstRead
            simp [longer,Nat.max_eq_right short]

theorem merge_empties {patterns : List (List (Syntax.Pattern.Block χ))} (empty : ∀ pattern ∈ patterns, pattern = [])
    (finalPattern : List (Syntax.Pattern.Block χ)) : patterns.foldl mergePattern finalPattern = finalPattern := by
  induction patterns with
  | nil => rfl
  | cons pattern rest ih =>
    have nothing := empty pattern (by simp)
    subst nothing
    rw [List.foldl_cons]
    have unchanged : mergePattern finalPattern [] = finalPattern := by
      cases finalPattern <;> rfl
    rw [unchanged]
    exact ih fun other member => empty other (by simp [member])

theorem withPattern_reads {withs : List (List (Syntax.Pattern.Block χ))}
    {constructorPattern : List (Syntax.Pattern.Block χ)}
    {tokens : List UInt8} {context : χ} (oneBlock : ∀ pattern ∈ withs, pattern.length ≤ 1)
    (unmixed : ∀ pattern ∈ withs ++ [constructorPattern], patternUnmixed pattern)
    (andLed : AndLed (withs ++ [constructorPattern])) (fits : Fits withs constructorPattern tokens context) :
    patternUnmixed (withPattern withs constructorPattern) ∧
      ((patternReads (withPattern withs constructorPattern) tokens context).isSome ↔
        conjunctionReads withs constructorPattern tokens context) := by
  induction withs with
  | nil =>
    have alone : withPattern [] constructorPattern = constructorPattern := by
      cases constructorPattern <;> rfl
    rw [alone]
    refine ⟨unmixed constructorPattern (by simp),?_⟩
    simp [conjunctionReads]
  | cons pattern inner ih =>
    have innerOne : ∀ other ∈ inner, other.length ≤ 1 := fun other member => oneBlock other (by simp [member])
    have innerUnmixed : ∀ other ∈ inner ++ [constructorPattern], patternUnmixed other :=
      fun other member => unmixed other (by simp only [List.cons_append,List.mem_cons]; exact Or.inr member)
    rcases pattern with _ | ⟨block,_ | ⟨second,rest⟩⟩
    case nil =>
      have innerFits : Fits inner constructorPattern tokens context := by
        intro first second rest shape led other member
        exact fits first second rest shape led other (by simp [member])
      obtain ⟨ofInner,readsInner⟩ := ih innerOne innerUnmixed andLed innerFits
      have same : withPattern ([] :: inner) constructorPattern = withPattern inner constructorPattern := rfl
      rw [same]
      refine ⟨ofInner,readsInner.trans ?_⟩
      simp [conjunctionReads,patternReads]
    case cons.nil =>
      have blockUnmixed := (unmixed [block] (by simp)).1
      rcases andLed with led | empties
      · rw [led] at blockUnmixed
        obtain ⟨merged,run,mergedAnds,reads⟩ := merge_run blockUnmixed innerOne
          fun other member => innerUnmixed other (by simp [member])
        have whole : withPattern ([block] :: inner) constructorPattern = mergePattern [merged] constructorPattern := by
          simp only [withPattern,List.cons_append,List.foldl_cons,List.foldl_append,List.foldl_nil]
          rw [show mergePattern [] [block] = [block] from rfl,run]
        have listed : merged.reads tokens context =
            (inner.map fun other => patternReads other tokens context).foldl longer (block.reads tokens context) := by
          rw [reads,List.foldl_map]
        have lastFits : ∀ first second rest, constructorPattern = first :: second :: rest → first.op = .and →
            ∀ lastLen firstLen, merged.reads tokens context = some lastLen →
              first.reads tokens context = some firstLen → lastLen ≤ firstLen := by
          intro first second rest shape firstLed lastLen firstLen lastRead firstRead
          rw [listed] at lastRead
          refine longer_run_le ?_ ?_ lastRead
          · intro len blockRead
            rw [←patternReads_single] at blockRead
            exact fits first second rest shape firstLed [block] (by simp) len firstLen blockRead firstRead
          · intro len member
            obtain ⟨other,otherMember,otherRead⟩ := List.mem_map.mp member
            exact fits first second rest shape firstLed other (by simp [otherMember]) len firstLen otherRead firstRead
        obtain ⟨ofLast,readsLast⟩ := merge_last mergedAnds (unmixed constructorPattern (by simp)) tokens context lastFits
        rw [whole]
        refine ⟨ofLast,readsLast.trans ?_⟩
        rw [listed,longer_run]
        simp only [conjunctionReads,List.mem_map,List.forall_mem_cons,patternReads_single]
        constructor
        · rintro ⟨⟨blockSome,innerSome⟩,ownSome⟩
          exact ⟨ownSome,blockSome,fun other member => innerSome _ ⟨other,member,rfl⟩⟩
        · rintro ⟨ownSome,blockSome,innerSome⟩
          refine ⟨⟨blockSome,?_⟩,ownSome⟩
          intro read isRead
          obtain ⟨other,member,rfl⟩ := isRead
          exact innerSome other member
      · have whole : withPattern ([block] :: inner) constructorPattern = [block] := by
          have allEmpty : ∀ other ∈ inner ++ [constructorPattern], other = [] := empties
          simp only [withPattern,List.cons_append,List.foldl_cons]
          rw [merge_empties allEmpty]
          rfl
        rw [whole]
        refine ⟨⟨blockUnmixed,trivial⟩,?_⟩
        have own : constructorPattern = [] := empties constructorPattern (by simp)
        have innerEmpty : ∀ other ∈ inner, other = [] := fun other member => empties other (by simp [member])
        rw [patternReads_single]
        simp only [conjunctionReads,own,List.forall_mem_cons,patternReads_single]
        constructor
        · intro blockSome
          refine ⟨rfl,blockSome,?_⟩
          intro other member
          rw [innerEmpty other member]
          rfl
        · rintro ⟨_,blockSome,_⟩
          exact blockSome
    case cons.cons =>
      have tooLong := oneBlock (block :: second :: rest) (by simp)
      simp at tooLong

-- The matcher of a constructor under with blocks matches exactly where its own pattern and all
-- patterns around it do, when no block mixes its operators, nothing is merged into an or block, and
-- no with pattern reaches past the first of several blocks.
theorem constructorMatches_iff {withs : List (List (Syntax.Pattern.Block χ))}
    {constructorPattern : List (Syntax.Pattern.Block χ)}
    {tokens : List UInt8} {context : χ} (oneBlock : ∀ pattern ∈ withs, pattern.length ≤ 1)
    (unmixed : ∀ pattern ∈ withs ++ [constructorPattern], patternUnmixed pattern)
    (andLed : AndLed (withs ++ [constructorPattern])) (fits : Fits withs constructorPattern tokens context) :
    constructorMatches withs constructorPattern tokens context ↔
      conjunctionReads withs constructorPattern tokens context := by
  obtain ⟨ofWhole,reads⟩ := withPattern_reads oneBlock unmixed andLed fits
  unfold constructorMatches
  rw [newPattern_parse _ tokens context ofWhole]
  exact reads

-- A one-byte token compared with a value, and a two-byte token that is there.
def byteIs (value : UInt8) : Syntax.Pattern.Field Unit :=
  .field {
    width := 1
    holds := fun tokens _ => tokens.head? = some value
    reads := by
      intro tokens _ holds
      cases tokens with
      | nil => exact absurd holds (by simp)
      | cons first rest => exact Nat.succ_le_succ (Nat.zero_le _)
  }

def anyWord : Syntax.Pattern.Field Unit :=
  .field {
    width := 2
    holds := fun tokens _ => 2 ≤ tokens.length
    reads := fun _ _ holds => of_decide_eq_true holds
  }

-- `with : byte = 1 { :c is byte = 1 | byte = 2 ; byte = 3 }`
theorem constructorMatches_iff_with :
    constructorMatches [[.single (byteIs 1)]]
        [.link (byteIs 1) .or (.single (byteIs 2)), .single (byteIs 3)] [1, 3] () ↔
      conjunctionReads [[.single (byteIs 1)]]
        [.link (byteIs 1) .or (.single (byteIs 2)), .single (byteIs 3)] [1, 3] () := by
  apply constructorMatches_iff
  · intro pattern member
    simp only [List.mem_singleton] at member
    rw [member]
    exact Nat.le_refl _
  · intro pattern member
    simp only [List.cons_append,List.nil_append,List.mem_cons,List.not_mem_nil,or_false] at member
    rcases member with rfl | rfl
    · exact ⟨trivial,trivial⟩
    · exact ⟨⟨rfl,trivial,trivial⟩,trivial,trivial⟩
  · exact Or.inl rfl
  · intro first second rest shape led
    cases shape
    exact absurd led (by decide)

-- A block that mixes its operators, an or block merged into an or block, and a with pattern longer
-- than the first block of the constructor: each time all patterns match, and the matcher does not.
theorem constructorMatches_misses :
    (conjunctionReads [] [.link (byteIs 1) .and (.link (byteIs 2) .or (.single (byteIs 3)))] [3] () ∧
      ¬ constructorMatches [] [.link (byteIs 1) .and (.link (byteIs 2) .or (.single (byteIs 3)))] [3] ()) ∧
    (conjunctionReads [[.link (byteIs 1) .or (.single (byteIs 2))]] [.link (byteIs 2) .or (.single (byteIs 3))] [2] () ∧
      ¬ constructorMatches [[.link (byteIs 1) .or (.single (byteIs 2))]]
        [.link (byteIs 2) .or (.single (byteIs 3))] [2] ()) ∧
    (conjunctionReads [[.single anyWord]] [.single (byteIs 1), .single (byteIs 2)] [1, 2] () ∧
      ¬ constructorMatches [[.single anyWord]] [.single (byteIs 1), .single (byteIs 2)] [1, 2] ()) := by
  refine ⟨⟨?_,by decide⟩,⟨?_,by decide⟩,⟨?_,by decide⟩⟩
  · exact ⟨by decide,fun _ member => absurd member (by simp)⟩
  · refine ⟨by decide,?_⟩
    intro pattern member
    simp only [List.mem_singleton] at member
    rw [member]
    decide
  · refine ⟨by decide,?_⟩
    intro pattern member
    simp only [List.mem_singleton] at member
    rw [member]
    decide

end Rsleigh.Semantic.Pattern
