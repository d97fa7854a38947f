import Rsleigh.Lib.Exploration
import Rsleigh.Pcode.Op
import Mathlib

namespace Rsleigh.Agent.Compare

open Pcode Exploration

-- compare.rs, the body of a function. `target` is where the local goto at a place of the ops goes.
structure Instruction where
  len : Nat
  ops : List PcodeOp
  target : Nat → Nat

structure Decoded where
  address : Nat
  inst : Instruction

structure Body where
  indices : List Nat
  reachabilityComplete : Bool
  fallsOffEnd : Bool

section Body

variable (instructions : List Decoded) (limit : Nat)

def index (address : Nat) : Option Nat :=
  (instructions.findIdx? fun decoded => decoded.address = address)

def start : Nat := ((instructions.head?).map Decoded.address).getD 0

-- What is known of one instruction while its ops are gone through. The last index that is pushed is the first
-- that is popped.
structure Scan where
  conditional : Bool
  terminates : Bool
  complete : Bool
  pending : List Nat

def branchTarget : PcodeOp → Option Varnode
  | .branch dest | .cbranch dest _ => some dest
  | _ => none

def ramTarget (op : PcodeOp) : Option Nat :=
  ((branchTarget op).filter (·.space = .ram)).map (·.offset.toNat)

def scanFlags (scan : Scan) : PcodeOp → Scan
  | .branch _ => { scan with terminates := true }
  | .cbranch _ _ => { scan with conditional := true }
  | .branchInd _ => { scan with terminates := true, complete := false }
  | .ret _ => { scan with terminates := true }
  | _ => scan

def scanOp (scan : Scan) (op : PcodeOp) : Scan :=
  let scan := scanFlags scan op
  match ramTarget op with
  | none => scan
  | some offset =>
    match index instructions offset with
    | some j => { scan with pending := j :: scan.pending }
    | none => if start instructions ≤ offset && offset < limit then { scan with complete := false } else scan

-- The loop's state: the indices that have been inserted, and the two flags of the result.
structure Search where
  seen : List Nat
  complete : Bool
  fallsOffEnd : Bool

def visit (search : Search) (pending : List Nat) (i : Nat) (decoded : Decoded) : Search × List Nat :=
  let scan := decoded.inst.ops.foldl (scanOp instructions limit) ⟨false, false, search.complete, pending⟩
  let search := { search with seen := i :: search.seen, complete := scan.complete }
  if !scan.terminates || scan.conditional then
    match instructions[i + 1]? with
    | some next =>
      if next.address = decoded.address + decoded.inst.len then (search, (i + 1) :: scan.pending)
      else ({ search with complete := false }, scan.pending)
    | none => ({ search with fallsOffEnd := true }, scan.pending)
  else (search, scan.pending)

def bodyLoop : Nat → Search → List Nat → Option Search
  | 0, _, _ => none
  | _ + 1, search, [] => some search
  | fuel + 1, search, i :: pending =>
    match instructions[i]? with
    | none => bodyLoop fuel search pending
    | some decoded =>
      if i ∈ search.seen then bodyLoop fuel search pending
      else
        let (search, pending) := visit instructions limit search pending i decoded
        bodyLoop fuel search pending

-- Every visit pushes an index for each op and one more at most.
def bound : Nat := (instructions.map fun decoded => decoded.inst.ops.length + 2).sum + 2

def body : Option Body :=
  (bodyLoop instructions limit (bound instructions) ⟨[], true, false⟩ [0]).map fun search =>
    { indices := (List.range instructions.length).filter (· ∈ search.seen)
      reachabilityComplete := search.complete
      fallsOffEnd := search.fallsOffEnd }

end Body

-- What the flags collected over an instruction's ops say.

def terminates : PcodeOp → Bool
  | .branch _ | .branchInd _ | .ret _ => true
  | _ => false

def isConditional : PcodeOp → Bool
  | .cbranch _ _ => true
  | _ => false

def isBranchInd : PcodeOp → Bool
  | .branchInd _ => true
  | _ => false

def Instruction.flagged (inst : Instruction) : Bool := !inst.ops.any terminates || inst.ops.any isConditional

section Flags

variable (instructions : List Decoded) (limit : Nat)

-- A branch to an address of the function at which nothing is decoded.
def undecoded (offset : Nat) : Bool :=
  (index instructions offset).isNone && (start instructions ≤ offset && offset < limit)

def contiguous (i : Nat) (decoded : Decoded) : Bool :=
  (instructions[i + 1]?).any fun next => next.address = decoded.address + decoded.inst.len

def gap (i : Nat) (decoded : Decoded) : Bool :=
  (instructions[i + 1]?).any fun next => next.address ≠ decoded.address + decoded.inst.len

def pushed (i : Nat) : List Nat :=
  match instructions[i]? with
  | none => []
  | some decoded =>
    (if decoded.inst.flagged && contiguous instructions i decoded then [i + 1] else []) ++
      ((decoded.inst.ops.filterMap ramTarget).filterMap (index instructions)).reverse

def marked (i : Nat) : Bool :=
  (instructions[i]?).any fun decoded =>
    decoded.inst.ops.any isBranchInd || (decoded.inst.ops.filterMap ramTarget).any (undecoded instructions limit) ||
      decoded.inst.flagged && gap instructions i decoded

def fallsOff (i : Nat) : Bool :=
  (instructions[i]?).any fun decoded => decoded.inst.flagged && (instructions[i + 1]?).isNone

theorem scan_ops (ops : List PcodeOp) (scan : Scan) :
    ops.foldl (scanOp instructions limit) scan =
      ⟨scan.conditional || ops.any isConditional, scan.terminates || ops.any terminates,
        scan.complete && !(ops.any isBranchInd || (ops.filterMap ramTarget).any (undecoded instructions limit)),
        ((ops.filterMap ramTarget).filterMap (index instructions)).reverse ++ scan.pending⟩ := by
  induction ops generalizing scan with
  | nil => simp
  | cons op ops ih =>
    rw [List.foldl_cons,ih]
    have flags : scanFlags scan op = ⟨scan.conditional || isConditional op, scan.terminates || terminates op,
        scan.complete && !isBranchInd op, scan.pending⟩ := by
      cases op <;> simp [scanFlags,isConditional,terminates,isBranchInd]
    unfold scanOp
    rw [flags]
    cases isTarget : ramTarget op with
    | none => simp [isTarget,Bool.or_assoc,Bool.and_assoc]
    | some offset =>
      cases isIndex : index instructions offset with
      | some j => simp [isTarget,isIndex,undecoded,Bool.or_assoc,Bool.and_assoc]
      | none =>
        cases inRange : (start instructions ≤ offset && offset < limit : Bool) with
        | true => simp [isTarget,isIndex,inRange,undecoded,Bool.or_assoc]
        | false => simp [isTarget,isIndex,inRange,undecoded,Bool.or_assoc,Bool.and_assoc]

theorem visit_eq (search : Search) (pending : List Nat) (i : Nat) (decoded : Decoded) (isDecoded : instructions[i]? = some decoded) :
    visit instructions limit search pending i decoded =
      (⟨i :: search.seen, search.complete && !marked instructions limit i, search.fallsOffEnd || fallsOff instructions i⟩,
        pushed instructions i ++ pending) := by
  unfold visit pushed marked fallsOff
  rw [scan_ops,isDecoded]
  simp only [Bool.false_or,Option.any_some]
  change (if decoded.inst.flagged then _ else _) = _
  cases decoded.inst.flagged with
  | false => simp
  | true =>
    unfold contiguous gap
    cases instructions[i + 1]? with
    | none => simp
    | some next =>
      by_cases isNext : next.address = decoded.address + decoded.inst.len
      · simp [isNext]
      · simp [isNext]

-- What is known of the indices that have been seen.
def known (seen : List Nat) : Search :=
  ⟨seen, seen.all fun i => !marked instructions limit i, seen.any (fallsOff instructions)⟩

theorem bodyLoop_explore (fuel : Nat) (seen pending : List Nat) :
    bodyLoop instructions limit fuel (known instructions limit seen) pending =
      (explore (fun i => decide (i < instructions.length)) (pushed instructions) fuel seen pending).map
        (known instructions limit) := by
  induction fuel generalizing seen pending with
  | zero => rfl
  | succ fuel ih =>
    cases pending with
    | nil => rfl
    | cons i pending =>
      rw [bodyLoop,explore]
      cases isDecoded : instructions[i]? with
      | none =>
        have outside : ¬ i < instructions.length := Nat.not_lt.mpr (List.getElem?_eq_none_iff.mp isDecoded)
        rw [decide_eq_false outside]
        exact ih seen pending
      | some decoded =>
        have isInside : i < instructions.length := (List.getElem?_eq_some_iff.mp isDecoded).1
        rw [decide_eq_true isInside,Bool.not_true,Bool.false_or]
        change (if i ∈ seen then _ else _) = _
        by_cases before : i ∈ seen
        · rw [if_pos before,if_pos (decide_eq_true before)]
          exact ih seen pending
        · rw [if_neg before,if_neg (by rw [decide_eq_false before]; exact Bool.false_ne_true),visit_eq _ _ _ _ i decoded isDecoded]
          have same : (⟨i :: seen, (known instructions limit seen).complete && !marked instructions limit i,
              (known instructions limit seen).fallsOffEnd || fallsOff instructions i⟩ : Search) =
              known instructions limit (i :: seen) := by
            unfold known
            rw [List.all_cons,List.any_cons,Bool.and_comm,Bool.or_comm]
          change bodyLoop instructions limit fuel ⟨i :: seen,_,_⟩ _ = _
          rw [same]
          exact ih _ _

-- What the loop leads to.
def Led (i : Nat) : Prop :=
  Reached (fun i => decide (i < instructions.length)) (pushed instructions) 0 i

theorem pushed_length (i : Nat) (decoded : Decoded) (isDecoded : instructions[i]? = some decoded) :
    (pushed instructions i).length ≤ decoded.inst.ops.length + 1 := by
  unfold pushed
  rw [isDecoded,List.length_append,List.length_reverse]
  have first := List.length_filterMap_le (index instructions) (decoded.inst.ops.filterMap ramTarget)
  have second := List.length_filterMap_le ramTarget decoded.inst.ops
  have third : (if decoded.inst.flagged && contiguous instructions i decoded then [i + 1] else []).length ≤ 1 := by
    split
    · exact Nat.le_refl _
    · exact Nat.zero_le _
  omega

theorem sum_places (items : List α) (weight : α → Nat) : ∀ (cost : Nat → Nat),
    (∀ i item, items[i]? = some item → cost i ≤ weight item) →
    ∑ i ∈ Finset.range items.length, cost i ≤ (items.map weight).sum := by
  induction items with
  | nil =>
    intro cost _
    exact Nat.le_refl _
  | cons item items ih =>
    intro cost below
    rw [List.length_cons,Finset.sum_range_succ',List.map_cons,List.sum_cons,Nat.add_comm]
    exact Nat.add_le_add (below 0 item rfl) (ih (fun i => cost (i + 1)) fun i => below (i + 1))

theorem pushed_sum : ∑ i ∈ Finset.range instructions.length, ((pushed instructions i).length + 1) ≤
    (instructions.map fun decoded => decoded.inst.ops.length + 2).sum := by
  refine sum_places instructions _ _ fun i decoded isDecoded => ?_
  have short := pushed_length instructions i decoded isDecoded
  omega

theorem body_exact : ∃ seen : List Nat, (∀ i, i ∈ seen ↔ Led instructions i) ∧
    body instructions limit = some ⟨(List.range instructions.length).filter (· ∈ seen),
      seen.all fun i => !marked instructions limit i, seen.any (fallsOff instructions)⟩ := by
  have enough := pushed_sum instructions
  obtain ⟨seen,isSeen,exact_⟩ := @explore_exact _ _ (fun i => decide (i < instructions.length)) (pushed instructions)
    (Finset.range instructions.length) (fun i isInside => Finset.mem_range.mpr (of_decide_eq_true isInside)) 0
    (bound instructions) (by unfold bound; omega)
  refine ⟨seen,exact_,?_⟩
  unfold body
  have start_ := bodyLoop_explore instructions limit (bound instructions) [] [0]
  rw [isSeen] at start_
  change bodyLoop instructions limit (bound instructions) ⟨[],true,false⟩ [0] = _ at start_
  rw [start_]
  rfl

end Flags

end Rsleigh.Agent.Compare
