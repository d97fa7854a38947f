import Rsleigh.Decode.Agreement
import Rsleigh.Decode.Bounds
import Rsleigh.Semantic.FlatReads

namespace Rsleigh.Semantic.Variants

open Decode Fallible

-- The context fields that literals are compared with, anywhere in a pattern.
mutual

def Verification.Compares (id : Nat) : Verification φ → Prop
  | .check (.contextCheck own op value) => own = id ∧ (literal op value).isSome
  | .check (.tokenFieldCheck _ _ _) => False
  | .check (.tableBuild _) => False
  | .subPattern pattern => patternCompares id pattern

def anyCompares (id : Nat) : List (Verification φ) → Prop
  | [] => False
  | verification :: rest => verification.Compares id ∨ anyCompares id rest

def Block.Compares (id : Nat) : Block φ → Prop
  | .and _ verifications => anyCompares id verifications
  | .or _ first rest => first.Compares id ∨ anyCompares id rest

def patternCompares (id : Nat) : Pattern φ → Prop
  | [] => False
  | block :: rest => block.Compares id ∨ patternCompares id rest

end

-- Some token field is compared with a literal.
mutual

def Verification.ComparesToken : Verification φ → Prop
  | .check (.tokenFieldCheck _ op value) => (literal op value).isSome
  | .check (.contextCheck _ _ _) => False
  | .check (.tableBuild _) => False
  | .subPattern pattern => patternComparesToken pattern

def anyComparesToken : List (Verification φ) → Prop
  | [] => False
  | verification :: rest => verification.ComparesToken ∨ anyComparesToken rest

def Block.ComparesToken : Block φ → Prop
  | .and _ verifications => anyComparesToken verifications
  | .or _ first rest => first.ComparesToken ∨ anyComparesToken rest

def patternComparesToken : Pattern φ → Prop
  | [] => False
  | block :: rest => block.ComparesToken ∨ patternComparesToken rest

end

-- The checks of an and block itself come before its tables and sub-patterns.
def Verification.SubCompares (id : Nat) : Verification φ → Prop
  | .check _ => False
  | .subPattern pattern => patternCompares id pattern

def subCompares (id : Nat) (verifications : List (Verification φ)) : Prop :=
  ∃ verification ∈ verifications, verification.SubCompares id

-- A block of variable length comes after all literals that are compared with token fields.
mutual

def Verification.Anchored : Verification BlockCode → Prop
  | .check _ => True
  | .subPattern pattern => patternAnchored pattern

def allAnchored : List (Verification BlockCode) → Prop
  | [] => True
  | verification :: rest => verification.Anchored ∧ allAnchored rest

def Block.Anchored : Block BlockCode → Prop
  | .and _ verifications => allAnchored verifications
  | .or _ first rest => first.Anchored ∧ allAnchored rest

def patternAnchored : Pattern BlockCode → Prop
  | [] => True
  | block :: rest =>
    block.Anchored ∧ (patternComparesToken rest → block.phase.len.singleLen.isSome) ∧ patternAnchored rest

end

-- semantic/inner/pattern: the lengths that the solver finds.
def intersection (x y : PatternLen) : PatternLen :=
  match x.greatest, y.greatest with
  | some xMax, some yMax => .new (min x.least y.least) (max xMax yMax)
  | _, _ => .min (min x.least y.least)

def patternLen (pattern : Pattern BlockCode) : PatternLen :=
  (pattern.map fun block => block.phase.len).foldl PatternLen.concat (.defined 0)

section Solver

variable (layout : Layout) (tableLen : Nat → PatternLen)

def Verification.patternLen : Verification BlockCode → PatternLen
  | .check (.contextCheck _ _ _) => .defined 0
  | .check (.tokenFieldCheck field _ _) => .defined (layout.tokenField field).tokenLen
  | .check (.tableBuild table) => tableLen table
  | .subPattern pattern => Variants.patternLen pattern

mutual

def Verification.Solved : Verification BlockCode → Prop
  | .check _ => True
  | .subPattern pattern => patternSolved pattern

def allSolved : List (Verification BlockCode) → Prop
  | [] => True
  | verification :: rest => verification.Solved ∧ allSolved rest

def Block.Solved : Block BlockCode → Prop
  | .and code verifications =>
    code.len = (verifications.map fun verification => verification.patternLen layout tableLen).foldl
        PatternLen.greater (.defined code.own) ∧
      allSolved verifications
  | .or code first rest =>
    code.len = (rest.map fun branch => branch.patternLen layout tableLen).foldl intersection
        (first.patternLen layout tableLen) ∧
      first.Solved ∧ allSolved rest

def patternSolved : Pattern BlockCode → Prop
  | [] => True
  | block :: rest => block.Solved ∧ patternSolved rest

end

end Solver

-- Nothing changes a context field between the start of the pattern and a literal that it is compared with.
section Steady

variable (layout : Layout) (parseTable : Nat → List UInt8 → layout.Context → Except Failure (Nat × τ × layout.Context))

def TableKeeps (kept : Nat → Prop) (table : Nat) : Prop :=
  ∀ tokens context len parsed after, parseTable table tokens context = .ok (len, parsed, after) →
    Keeps layout.sleigh kept context after

mutual

def Verification.Steady (kept : Nat → Prop) : Verification BlockCode → Prop
  | .check (.contextCheck _ _ _) => True
  | .check (.tokenFieldCheck _ _ _) => True
  | .check (.tableBuild table) => TableKeeps layout parseTable kept table
  | .subPattern pattern => patternSteady kept pattern

def allSteady (kept : Nat → Prop) : List (Verification BlockCode) → Prop
  | [] => True
  | verification :: rest =>
    verification.Steady (fun id => kept id ∨ subCompares id rest) ∧ allSteady kept rest

def branchesSteady (kept : Nat → Prop) : List (Verification BlockCode) → Prop
  | [] => True
  | branch :: rest => branch.Steady kept ∧ branchesSteady kept rest

def Block.Steady (kept : Nat → Prop) : Block BlockCode → Prop
  | .and _ verifications => allSteady kept verifications
  | .or _ first rest => first.Steady kept ∧ branchesSteady kept rest

def patternSteady (kept : Nat → Prop) : Pattern BlockCode → Prop
  | [] => True
  | block :: rest => block.Steady (fun id => kept id ∨ patternCompares id rest) ∧ patternSteady kept rest

end

def ActionsKeep (kept : Nat → Prop) (actions : List Assertation) : Prop :=
  ∀ id right, .assignment (.context id) right ∈ actions →
    ∀ value context, Keeps layout.sleigh kept context (layout.sleigh.writeContext id value context)

def Block.subPatterns : Block BlockCode → List (Verification BlockCode)
  | .and _ verifications => verifications
  | .or _ _ _ => []

def rootSteady : List RootBlock → Prop
  | [] => True
  | root :: rest =>
    let later := fun id => patternCompares id (rest.map RootBlock.block)
    ActionsKeep layout (fun id => later id ∨ subCompares id root.block.subPatterns) root.pre ∧
      root.block.Steady layout parseTable later ∧ ActionsKeep layout later root.pos ∧ rootSteady rest

end Steady

section Frame

variable {layout : Layout} {tableLen : Nat → PatternLen} {instStart : Nat}
variable {parseTable : Nat → List UInt8 → layout.Context → Except Failure (Nat × τ × layout.Context)}

theorem keeps_mono {weak strong : Nat → Prop} {context after : layout.Context}
    (keeps : Keeps layout.sleigh strong context after) (weaker : ∀ id, weak id → strong id) :
    Keeps layout.sleigh weak context after :=
  fun id isKept => keeps id (weaker id isKept)

theorem intersection_within {x y : PatternLen} {len : Nat} (within : x.Within len ∨ y.Within len) :
    (intersection x y).Within len := by
  have least : (intersection x y).least = min x.least y.least := by
    unfold intersection
    split
    · exact PatternLen.new_least _ _
    · rfl
  refine ⟨?_,?_⟩
  · rw [least]
    rcases within with within | within
    · exact Nat.le_trans (Nat.min_le_left _ _) within.1
    · exact Nat.le_trans (Nat.min_le_right _ _) within.1
  · intro most bounded
    unfold intersection at bounded
    split at bounded
    · rename_i xMax yMax xBound yBound
      rw [PatternLen.new_greatest] at bounded
      cases bounded
      rcases within with within | within
      · exact Nat.le_trans (within.2 xMax xBound) (Nat.le_max_left _ _)
      · exact Nat.le_trans (within.2 yMax yBound) (Nat.le_max_right _ _)
    · cases bounded

theorem intersection_fold_within {lens : List PatternLen} {len : Nat} :
    ∀ {first : PatternLen}, (∃ own ∈ first :: lens, own.Within len) → (lens.foldl intersection first).Within len := by
  induction lens with
  | nil =>
    intro first within
    obtain ⟨own,member,within⟩ := within
    rw [List.mem_singleton.mp member] at within
    exact within
  | cons next rest ih =>
    intro first within
    obtain ⟨own,member,within⟩ := within
    apply ih
    rcases List.mem_cons.mp member with rfl | member
    · exact ⟨_,List.mem_cons_self ..,intersection_within (Or.inl within)⟩
    · rcases List.mem_cons.mp member with rfl | member
      · exact ⟨_,List.mem_cons_self ..,intersection_within (Or.inr within)⟩
      · exact ⟨own,List.mem_cons_of_mem _ member,within⟩

-- What the tables of a pattern are known to do.
def TablesWithin (parseTable : Nat → List UInt8 → χ → Except Failure (Nat × τ × χ)) (tableLen : Nat → PatternLen) : Prop :=
  ∀ table tokens context len parsed after, parseTable table tokens context = .ok (len, parsed, after) →
    (tableLen table).Within len

theorem and_within {len : PatternLen} {own built : Nat} {verifications : List (Verification BlockCode)}
    (solved : len = (verifications.map fun verification => verification.patternLen layout tableLen).foldl
      PatternLen.greater (.defined own)) (longer : len.least ≤ built)
    (lens : ∀ verification ∈ verifications, ∃ len, (verification.patternLen layout tableLen).Within len)
    (upper : ∀ most, len.least ≤ most → (∀ verification ∈ verifications, ∃ own,
      (verification.patternLen layout tableLen).greatest = some own ∧ own ≤ most) → built ≤ most) : len.Within built := by
  refine ⟨longer,?_⟩
  intro most bounded
  rw [solved] at bounded
  obtain ⟨⟨ownMost,isOwn,ownSmall⟩,others⟩ := PatternLen.greater_fold_greatest _ _ bounded
  have each : ∀ verification ∈ verifications, ∃ own,
      (verification.patternLen layout tableLen).greatest = some own ∧ own ≤ most :=
    fun verification member => others _ (List.mem_map.mpr ⟨verification,member,rfl⟩)
  apply upper most _ each
  rw [solved]
  apply (PatternLen.greater_fold_least _ _).2.2 most
  · cases isOwn
    exact ownSmall
  · intro other member
    obtain ⟨verification,isVerification,rfl⟩ := List.mem_map.mp member
    obtain ⟨len,isWithin⟩ := lens verification isVerification
    obtain ⟨greatest,isGreatest,small⟩ := each verification isVerification
    exact Nat.le_trans isWithin.1 (Nat.le_trans (isWithin.2 greatest isGreatest) small)

-- A match keeps the context fields that it must keep, and is as long as the solver says.
mutual

theorem Verification.build_frame (within : TablesWithin parseTable tableLen) : (verification : Verification BlockCode) →
    {kept : Nat → Prop} → {tokens : List UInt8} → {built built' : Built layout.Context τ} →
    verification.Steady layout parseTable kept → verification.Solved layout tableLen →
    verification.build layout.sleigh parseTable instStart tokens built = .ok built' →
    Keeps layout.sleigh kept built.context built'.context ∧
      ∃ len, (verification.patternLen layout tableLen).Within len ∧
        (built'.len = built.len ∨ built'.len = max built.len len)
  | .check (.contextCheck id op value), kept, tokens, built, built', steady, solved, run => by
    cases run
    exact ⟨keeps_refl _,0,⟨Nat.le_refl _,fun most bounded => Nat.zero_le _⟩,Or.inl rfl⟩
  | .check (.tokenFieldCheck id op value), kept, tokens, built, built', steady, solved, run => by
    cases run
    refine ⟨keeps_refl _,(layout.tokenField id).tokenLen,⟨Nat.le_refl _,?_⟩,Or.inl rfl⟩
    intro most bounded
    cases bounded
    exact Nat.le_refl _
  | .check (.tableBuild table), kept, tokens, built, built', steady, solved, run => by
    obtain ⟨⟨len,parsed,after⟩,found,run⟩ := bind_ok.mp run
    cases run
    exact ⟨steady _ _ _ _ _ found,len,within _ _ _ _ _ _ found,Or.inr rfl⟩
  | .subPattern pattern, kept, tokens, built, built', steady, solved, run => by
    obtain ⟨sub,found,run⟩ := bind_ok.mp run
    cases run
    obtain ⟨keeps,length⟩ := patternParse_frame within pattern steady solved found
    refine ⟨keeps,sub.len,?_,Or.inr rfl⟩
    have isWithin := length (.defined 0) 0 ⟨Nat.le_refl _,fun most bounded => Nat.zero_le _⟩
    rw [Nat.zero_add] at isWithin
    exact isWithin

theorem buildAll_frame (within : TablesWithin parseTable tableLen) : (verifications : List (Verification BlockCode)) →
    {kept : Nat → Prop} → {tokens : List UInt8} → {built built' : Built layout.Context τ} →
    allSteady layout parseTable kept verifications → allSolved layout tableLen verifications →
    buildAll layout.sleigh parseTable instStart tokens built verifications = .ok built' →
    Keeps layout.sleigh kept built.context built'.context ∧ built.len ≤ built'.len ∧
      (∀ verification ∈ verifications, ∃ len, (verification.patternLen layout tableLen).Within len) ∧
      ∀ most, built.len ≤ most → (∀ verification ∈ verifications, ∃ own,
        (verification.patternLen layout tableLen).greatest = some own ∧ own ≤ most) → built'.len ≤ most
  | [], kept, tokens, built, built', steady, solved, run => by
    cases run
    exact ⟨keeps_refl _,Nat.le_refl _,fun _ member => absurd member List.not_mem_nil,fun _ small _ => small⟩
  | verification :: rest, kept, tokens, built, built', steady, solved, run => by
    obtain ⟨middle,found,run⟩ := bind_ok.mp run
    obtain ⟨keeps,len,isWithin,grows⟩ := verification.build_frame within steady.1 solved.1 found
    obtain ⟨keepsRest,longer,lens,upper⟩ := buildAll_frame within rest steady.2 solved.2 run
    refine ⟨keeps_trans (keeps_mono keeps fun _ isKept => Or.inl isKept) keepsRest,?_,?_,?_⟩
    · apply Nat.le_trans _ longer
      rcases grows with same | grown
      · exact Nat.le_of_eq same.symm
      · rw [grown]
        exact Nat.le_max_left _ _
    · intro other member
      rcases List.mem_cons.mp member with rfl | member
      · exact ⟨len,isWithin⟩
      · exact lens other member
    · intro most small bounded
      apply upper most
      · obtain ⟨own,isOwn,ownSmall⟩ := bounded verification (List.mem_cons_self ..)
        rcases grows with same | grown
        · rw [same]
          exact small
        · rw [grown]
          exact Nat.max_le.mpr ⟨small,Nat.le_trans (isWithin.2 own isOwn) ownSmall⟩
      · exact fun other member => bounded other (List.mem_cons_of_mem _ member)

theorem Verification.branch_frame (within : TablesWithin parseTable tableLen) : (branch : Verification BlockCode) →
    {kept : Nat → Prop} → {tokens : List UInt8} → {context : layout.Context} → {code : BlockCode} →
    {built : Built layout.Context τ} → branch.Steady layout parseTable kept → branch.Solved layout tableLen →
    branch.branch layout.sleigh parseTable instStart tokens context code = .ok built →
    Keeps layout.sleigh kept context built.context ∧ (branch.patternLen layout tableLen).Within built.len
  | .check (.contextCheck id op value), kept, tokens, context, code, built, steady, solved, run => by
    obtain ⟨_,_,run⟩ := bind_ok.mp run
    cases run
    exact ⟨keeps_refl _,Nat.le_refl _,fun most bounded => Nat.zero_le _⟩
  | .check (.tokenFieldCheck id op value), kept, tokens, context, code, built, steady, solved, run => by
    obtain ⟨_,_,run⟩ := bind_ok.mp run
    obtain ⟨fields,_,run⟩ := bind_ok.mp run
    cases run
    refine ⟨keeps_refl _,Nat.le_refl _,?_⟩
    intro most bounded
    cases bounded
    exact Nat.le_refl _
  | .check (.tableBuild table), kept, tokens, context, code, built, steady, solved, run => by cases run
  | .subPattern pattern, kept, tokens, context, code, built, steady, solved, run => by
    obtain ⟨sub,found,run⟩ := bind_ok.mp run
    cases run
    obtain ⟨keeps,length⟩ := patternParse_frame within pattern steady solved found
    refine ⟨keeps,?_⟩
    have isWithin := length (.defined 0) 0 ⟨Nat.le_refl _,fun most bounded => Nat.zero_le _⟩
    rw [Nat.zero_add] at isWithin
    exact isWithin

theorem branches_frame (within : TablesWithin parseTable tableLen) : (rest : List (Verification BlockCode)) →
    {kept : Nat → Prop} → {tokens : List UInt8} → {context : layout.Context} → {code : BlockCode} →
    {built : Built layout.Context τ} → branchesSteady layout parseTable kept rest → allSolved layout tableLen rest →
    branches layout.sleigh parseTable instStart tokens context code rest = .ok built →
    Keeps layout.sleigh kept context built.context ∧
      ∃ own ∈ rest.map (fun branch => branch.patternLen layout tableLen), own.Within built.len
  | [], kept, tokens, context, code, built, steady, solved, run => by cases run
  | branch :: rest, kept, tokens, context, code, built, steady, solved, run => by
    simp only [branches] at run
    split at run
    · obtain ⟨keeps,own,member,isWithin⟩ := branches_frame within rest steady.2 solved.2 run
      exact ⟨keeps,own,List.mem_cons_of_mem _ member,isWithin⟩
    · obtain ⟨keeps,isWithin⟩ := branch.branch_frame within steady.1 solved.1 run
      exact ⟨keeps,_,List.mem_cons_self ..,isWithin⟩

theorem Block.parse_frame (within : TablesWithin parseTable tableLen) : (block : Block BlockCode) →
    {kept : Nat → Prop} → {tokens : List UInt8} → {context : layout.Context} → {built : Built layout.Context τ} →
    block.Steady layout parseTable kept → block.Solved layout tableLen →
    block.parse layout.sleigh parseTable instStart tokens context = .ok built →
    Keeps layout.sleigh kept context built.context ∧ block.phase.len.Within built.len
  | .and code verifications, kept, tokens, context, built, steady, solved, run => by
    obtain ⟨_,_,run⟩ := bind_ok.mp run
    obtain ⟨middle,found,run⟩ := bind_ok.mp run
    obtain ⟨fields,_,run⟩ := bind_ok.mp run
    cases run
    obtain ⟨keeps,longer,lens,upper⟩ := buildAll_frame within verifications steady solved.2 found
    exact ⟨keeps,and_within solved.1 longer lens upper⟩
  | .or code first rest, kept, tokens, context, built, steady, solved, run => by
    simp only [Block.parse] at run
    have taken : Keeps layout.sleigh kept context built.context ∧
        ∃ own ∈ (first :: rest).map (fun branch => branch.patternLen layout tableLen), own.Within built.len := by
      split at run
      · obtain ⟨keeps,own,member,isWithin⟩ := branches_frame within rest steady.2 solved.2.2 run
        exact ⟨keeps,own,List.mem_cons_of_mem _ member,isWithin⟩
      · obtain ⟨keeps,isWithin⟩ := first.branch_frame within steady.1 solved.2.1 run
        exact ⟨keeps,_,List.mem_cons_self ..,isWithin⟩
    refine ⟨taken.1,?_⟩
    change code.len.Within built.len
    rw [solved.1]
    exact intersection_fold_within taken.2

theorem patternParse_frame (within : TablesWithin parseTable tableLen) : (pattern : Pattern BlockCode) →
    {kept : Nat → Prop} → {tokens : List UInt8} → {context : layout.Context} → {built : Built layout.Context τ} →
    patternSteady layout parseTable kept pattern → patternSolved layout tableLen pattern →
    patternParse layout.sleigh parseTable instStart tokens context pattern = .ok built →
    Keeps layout.sleigh kept context built.context ∧
      ∀ first len, first.Within len →
        ((pattern.map fun block => block.phase.len).foldl PatternLen.concat first).Within (len + built.len)
  | [], kept, tokens, context, built, steady, solved, run => by
    cases run
    exact ⟨keeps_refl _,fun first len isWithin => isWithin⟩
  | block :: rest, kept, tokens, context, built, steady, solved, run => by
    obtain ⟨own,found,run⟩ := bind_ok.mp run
    obtain ⟨keeps,isWithin⟩ := block.parse_frame within steady.1 solved.1 found
    split at run
    · cases run
    · obtain ⟨later,foundRest,run⟩ := bind_ok.mp run
      cases run
      obtain ⟨keepsRest,lengthRest⟩ := patternParse_frame within rest steady.2 solved.2 foundRest
      refine ⟨keeps_trans (keeps_mono keeps fun _ isKept => Or.inl isKept) keepsRest,?_⟩
      intro first len firstWithin
      have both := lengthRest _ _ (PatternLen.concat_within firstWithin isWithin)
      rw [Nat.add_assoc] at both
      exact both

end

end Frame

end Rsleigh.Semantic.Variants
