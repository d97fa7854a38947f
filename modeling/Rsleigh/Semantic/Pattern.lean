import Rsleigh.Syntax.Pattern

namespace Rsleigh.Semantic.Pattern

open Syntax.Pattern

-- semantic/inner/pattern/block.rs: what is left of a block is its operator and its verifications.
mutual

inductive Verification (χ : Type) where
  | check (check : Check χ)
  | subPattern (pattern : List (Base χ))

inductive Base (χ : Type) where
  | base (op : Syntax.Pattern.Op) (verifications : List (Verification χ))

end

variable {χ : Type}

-- The operator of a block in `BlockBase::new`: mixed operators make an and.
def dominantOp : List Syntax.Pattern.Op → Syntax.Pattern.Op
  | [] => .and
  | firstOp :: rest => if rest.all (firstOp == ·) then firstOp else .and

mutual

def newVerification : Syntax.Pattern.Field χ → Verification χ
  | .field check => .check check
  | .subPattern pattern => .subPattern (newPattern pattern)

-- All elements of the block, whatever connects them.
def newVerifications : Syntax.Pattern.Block χ → List (Verification χ)
  | .single first => [newVerification first]
  | .link first _ rest => newVerification first :: newVerifications rest

def newPattern : List (Syntax.Pattern.Block χ) → List (Base χ)
  | [] => []
  | block :: rest => .base (dominantOp block.ops) (newVerifications block) :: newPattern rest

end

-- The least length of a solved pattern: an and is as long as its longest part, an or may match its
-- shortest branch.
mutual

def Verification.minLen : Verification χ → Nat
  | .check check => check.width
  | .subPattern pattern => patternMinLen pattern

def greatestLen : List (Verification χ) → Nat
  | [] => 0
  | first :: rest => max first.minLen (greatestLen rest)

def leastLen : List (Verification χ) → Nat
  | [] => 0
  | [last] => last.minLen
  | first :: second :: rest => min first.minLen (leastLen (second :: rest))

def Base.minLen : Base χ → Nat
  | .base .and verifications => greatestLen verifications
  | .base .or verifications => leastLen verifications

def patternMinLen : List (Base χ) → Nat
  | [] => 0
  | block :: rest => block.minLen + patternMinLen rest

end

-- The checks of an and block, which come before its sub-patterns (`body_block_and_pre`).
def checksHold (tokens : List UInt8) (context : χ) : List (Verification χ) → Bool
  | [] => true
  | .check check :: rest => check.holds tokens context && checksHold tokens context rest
  | .subPattern _ :: rest => checksHold tokens context rest

-- codegen/builder/disassembler/constructor/pattern.rs, with every verification made (`part_of_flat`
-- is off). A length is how far the tokens are taken.
mutual

-- The sub-patterns of an and block, each raising the length of the block (`body_block_and_pos`).
def subPatternsParse : List (Verification χ) → List UInt8 → χ → Nat → Option Nat
  | [], _, _, blockLen => some blockLen
  | .check _ :: rest, tokens, context, blockLen => subPatternsParse rest tokens context blockLen
  | .subPattern pattern :: rest, tokens, context, blockLen =>
    (patternParse pattern tokens context).bind fun subLen =>
      subPatternsParse rest tokens context (max blockLen subLen)

-- The branches of an or block, until one returns (`block_or_closure`).
def branchesParse : List (Verification χ) → List UInt8 → χ → Option Nat
  | [], _, _ => none
  | .check check :: rest, tokens, context =>
    if check.holds tokens context then some check.width else branchesParse rest tokens context
  | .subPattern pattern :: rest, tokens, context =>
    (patternParse pattern tokens context).or (branchesParse rest tokens context)

def Base.parse : Base χ → List UInt8 → χ → Option Nat
  | .base .and verifications, tokens, context =>
    if checksHold tokens context verifications then
      subPatternsParse verifications tokens context (greatestLen verifications)
    else none
  | .base .or verifications, tokens, context => branchesParse verifications tokens context

-- After each block the tokens move on: `tokens.get(block_len..)?`.
def patternParse : List (Base χ) → List UInt8 → χ → Option Nat
  | [], _, _ => some 0
  | block :: rest, tokens, context =>
    (block.parse tokens context).bind fun blockLen =>
      if blockLen ≤ tokens.length then (patternParse rest (tokens.drop blockLen) context).map (blockLen + ·) else none

end

-- One verification by itself, and all of them at one position.
def Verification.parse : Verification χ → List UInt8 → χ → Option Nat
  | .check test, tokens, context => if test.holds tokens context then some test.width else none
  | .subPattern pattern, tokens, context => patternParse pattern tokens context

def together (tokens : List UInt8) (context : χ) : List (Verification χ) → Option Nat
  | [] => some 0
  | first :: rest => longer (first.parse tokens context) (together tokens context rest)

theorem branchesParse_cons (first : Verification χ) (rest : List (Verification χ)) (tokens : List UInt8) (context : χ) :
    branchesParse (first :: rest) tokens context =
      (first.parse tokens context).or (branchesParse rest tokens context) := by
  cases first with
  | check check =>
    simp only [branchesParse,Verification.parse]
    split <;> simp
  | subPattern pattern => simp only [branchesParse,Verification.parse]

-- A length that is matched is at least the length that was solved.
mutual

theorem Verification.minLen_le : ∀ (verification : Verification χ) (tokens : List UInt8) (context : χ) (len : Nat),
    verification.parse tokens context = some len → verification.minLen ≤ len
  | .check check, tokens, context, len, parsed => by
    simp only [Verification.parse] at parsed
    split at parsed
    · cases parsed
      exact Nat.le_refl _
    · exact absurd parsed nofun
  | .subPattern pattern, tokens, context, len, parsed => patternMinLen_le pattern tokens context len parsed

theorem subPatternsParse_le : ∀ (verifications : List (Verification χ)) (tokens : List UInt8) (context : χ)
    (blockLen len : Nat), subPatternsParse verifications tokens context blockLen = some len → blockLen ≤ len
  | [], _, _, _, _, parsed => by
    cases parsed
    exact Nat.le_refl _
  | .check _ :: rest, tokens, context, blockLen, len, parsed =>
    subPatternsParse_le rest tokens context blockLen len parsed
  | .subPattern pattern :: rest, tokens, context, blockLen, len, parsed => by
    simp only [subPatternsParse,Option.bind_eq_some_iff] at parsed
    obtain ⟨subLen,_,restParsed⟩ := parsed
    have ofRest := subPatternsParse_le rest tokens context _ len restParsed
    omega

theorem leastLen_le : ∀ (verifications : List (Verification χ)) (tokens : List UInt8) (context : χ) (len : Nat),
    branchesParse verifications tokens context = some len → leastLen verifications ≤ len
  | [], _, _, _, parsed => absurd parsed nofun
  | [last], tokens, context, len, parsed => by
    rw [branchesParse_cons] at parsed
    simp only [branchesParse,Option.or_none] at parsed
    exact Verification.minLen_le last tokens context len parsed
  | first :: second :: rest, tokens, context, len, parsed => by
    rw [branchesParse_cons] at parsed
    simp only [leastLen]
    rcases Option.or_eq_some_iff.mp parsed with parsed | ⟨_,parsed⟩
    · have ofFirst := Verification.minLen_le first tokens context len parsed
      omega
    · have ofRest := leastLen_le (second :: rest) tokens context len parsed
      omega

theorem Base.minLen_le : ∀ (block : Base χ) (tokens : List UInt8) (context : χ) (len : Nat),
    block.parse tokens context = some len → block.minLen ≤ len
  | .base .and verifications, tokens, context, len, parsed => by
    simp only [Base.parse] at parsed
    split at parsed
    · exact subPatternsParse_le verifications tokens context _ len parsed
    · exact absurd parsed nofun
  | .base .or verifications, tokens, context, len, parsed => leastLen_le verifications tokens context len parsed

theorem patternMinLen_le : ∀ (pattern : List (Base χ)) (tokens : List UInt8) (context : χ) (len : Nat),
    patternParse pattern tokens context = some len → patternMinLen pattern ≤ len
  | [], _, _, _, _ => Nat.zero_le _
  | block :: rest, tokens, context, len, parsed => by
    simp only [patternParse,Option.bind_eq_some_iff] at parsed
    obtain ⟨blockLen,blockParsed,restParsed⟩ := parsed
    split at restParsed
    · simp only [Option.map_eq_some_iff] at restParsed
      obtain ⟨restLen,restParsed,rfl⟩ := restParsed
      have ofBlock := Base.minLen_le block tokens context blockLen blockParsed
      have ofRest := patternMinLen_le rest _ context restLen restParsed
      simp only [patternMinLen]
      omega
    · exact absurd restParsed nofun

end

theorem greatestLen_le {verifications : List (Verification χ)}
    (parsed : together tokens context verifications = some len) : greatestLen verifications ≤ len := by
  induction verifications generalizing len with
  | nil => exact Nat.zero_le _
  | cons first rest ih =>
    obtain ⟨firstLen,restLen,firstParsed,restParsed,rfl⟩ := longer_some.mp parsed
    have ofFirst := Verification.minLen_le first tokens context firstLen firstParsed
    have ofRest := ih restParsed
    simp only [greatestLen]
    omega

-- The two passes over an and block: a check that fails leaves nothing to match, and otherwise the
-- second pass starts from a length that the checks do not exceed.
theorem together_refused {verifications : List (Verification χ)}
    (refused : checksHold tokens context verifications = false) : together tokens context verifications = none := by
  induction verifications with
  | nil => exact absurd refused nofun
  | cons first rest ih =>
    cases first with
    | check test =>
      simp only [checksHold,Bool.and_eq_false_iff] at refused
      rcases refused with fails | restRefused
      · simp [together,Verification.parse,fails,longer]
      · cases read : (Verification.check test).parse tokens context <;>
          simp [together,ih restRefused,longer,read]
    | subPattern pattern =>
      simp only [checksHold] at refused
      cases read : (Verification.subPattern pattern).parse tokens context <;>
        simp [together,ih refused,longer,read]

theorem subPatterns_together {verifications : List (Verification χ)} {blockLen : Nat}
    (holds : checksHold tokens context verifications = true) (long : greatestLen verifications ≤ blockLen) :
    subPatternsParse verifications tokens context blockLen =
      (together tokens context verifications).map (max blockLen) := by
  induction verifications generalizing blockLen with
  | nil => simp [subPatternsParse,together]
  | cons first rest ih =>
    simp only [greatestLen] at long
    cases first with
    | check test =>
      simp only [checksHold,Bool.and_eq_true] at holds
      obtain ⟨testHolds,restHolds⟩ := holds
      simp only [Verification.minLen] at long
      simp only [subPatternsParse,together,Verification.parse,testHolds,if_true]
      rw [ih restHolds (by omega)]
      cases together tokens context rest with
      | none => rfl
      | some restLen =>
        simp only [longer,Option.map_some,Option.bind_some,Option.some.injEq]
        omega
    | subPattern pattern =>
      simp only [checksHold] at holds
      simp only [subPatternsParse,together,Verification.parse]
      cases parsed : patternParse pattern tokens context with
      | none => simp [longer]
      | some subLen =>
        simp only [Option.bind_some]
        rw [ih holds (by omega)]
        cases together tokens context rest with
        | none => rfl
        | some restLen =>
          simp only [longer,Option.map_some,Option.bind_some,Option.some.injEq]
          omega

theorem parse_and (verifications : List (Verification χ)) (tokens : List UInt8) (context : χ) :
    (Base.base .and verifications).parse tokens context = together tokens context verifications := by
  simp only [Base.parse]
  cases holds : checksHold tokens context verifications with
  | false => simp [together_refused holds]
  | true =>
    rw [if_pos rfl,subPatterns_together holds (Nat.le_refl _)]
    cases parsed : together tokens context verifications with
    | none => rfl
    | some len =>
      have long := greatestLen_le parsed
      simp only [Option.map_some,Option.some.injEq]
      omega

theorem dominantOp_led {block : Syntax.Pattern.Block χ} (unmixed : block.Unmixed block.op) :
    dominantOp block.ops = block.op := by
  have same : ∀ {rest : Syntax.Pattern.Block χ} {expected : Syntax.Pattern.Op}, rest.Unmixed expected →
      rest.ops.all (expected == ·) = true := by
    intro rest expected ofRest
    induction ops : rest.ops generalizing rest with
    | nil => rfl
    | cons op more ih =>
      cases rest with
      | single first => exact absurd ops nofun
      | link first between behind =>
        obtain ⟨rfl,_,ofBehind⟩ := ofRest
        cases ops
        simp only [List.all_cons,beq_self_eq_true,Bool.true_and]
        exact ih ofBehind rfl
  cases block with
  | single first => rfl
  | link first op rest =>
    obtain ⟨_,_,ofRest⟩ := unmixed
    have all := same ofRest
    simp only [Syntax.Pattern.Block.op] at all
    simp only [Syntax.Pattern.Block.ops,Syntax.Pattern.Block.op,dominantOp,all,if_true]

-- The matcher of a pattern without mixed blocks matches what the pattern reads, over the same bytes.
mutual

theorem newVerification_parse : ∀ (field : Syntax.Pattern.Field χ) (tokens : List UInt8) (context : χ),
    field.Unmixed →
    (newVerification field).parse tokens context = field.reads tokens context
  | .field _, _, _, _ => rfl
  | .subPattern pattern, tokens, context, unmixed => newPattern_parse pattern tokens context unmixed

theorem newVerifications_together : ∀ (block : Syntax.Pattern.Block χ) (tokens : List UInt8) (context : χ),
    block.Unmixed .and →
    together tokens context (newVerifications block) = block.firstReads tokens context
  | .single first, tokens, context, unmixed => by
    simp only [newVerifications,together,Syntax.Pattern.Block.firstReads,
      newVerification_parse first tokens context unmixed]
    cases first.reads tokens context <;> simp [longer]
  | .link first op rest, tokens, context, unmixed => by
    obtain ⟨rfl,ofFirst,ofRest⟩ := unmixed
    simp only [newVerifications,together,Syntax.Pattern.Block.firstReads,newVerification_parse first tokens context ofFirst,
      newVerifications_together rest tokens context ofRest]

theorem newVerifications_branches : ∀ (block : Syntax.Pattern.Block χ) (tokens : List UInt8) (context : χ),
    block.Unmixed .or →
    branchesParse (newVerifications block) tokens context = block.reads tokens context
  | .single first, tokens, context, unmixed => by
    simp only [newVerifications,branchesParse_cons,Syntax.Pattern.Block.reads,Syntax.Pattern.Block.firstReads,
      Syntax.Pattern.Block.othersRead,
      newVerification_parse first tokens context unmixed,branchesParse]
  | .link first op rest, tokens, context, unmixed => by
    obtain ⟨rfl,ofFirst,ofRest⟩ := unmixed
    rw [newVerifications,branchesParse_cons,newVerification_parse first tokens context ofFirst,
      newVerifications_branches rest tokens context ofRest]
    rfl

theorem newPattern_parse : ∀ (pattern : List (Syntax.Pattern.Block χ)) (tokens : List UInt8) (context : χ),
    patternUnmixed pattern →
    patternParse (newPattern pattern) tokens context = patternReads pattern tokens context
  | [], _, _, _ => rfl
  | block :: rest, tokens, context, unmixed => by
    obtain ⟨ofBlock,ofRest⟩ := unmixed
    have blockSame : (Base.base (dominantOp block.ops) (newVerifications block)).parse tokens context =
        block.reads tokens context := by
      rw [dominantOp_led ofBlock]
      cases led : block.op with
      | and =>
        rw [led] at ofBlock
        rw [parse_and,newVerifications_together block tokens context ofBlock,(reads_and ofBlock tokens context).1]
      | or =>
        rw [led] at ofBlock
        exact newVerifications_branches block tokens context ofBlock
    rw [patternReads_cons]
    simp only [newPattern,patternParse,blockSame]
    cases read : block.reads tokens context with
    | none => rfl
    | some len =>
      have there := Syntax.Pattern.Block.reads_le read
      simp only [Option.bind_some,if_pos there]
      rw [newPattern_parse rest (tokens.drop len) context ofRest]

end

end Rsleigh.Semantic.Pattern
