import Rsleigh.Lib.Rewriting
import Rsleigh.Pcode.Analysis
import Rsleigh.Pcode.Fold

namespace Rsleigh.Pcode

-- Passes 0, 1 and 1b.
def simplify (ops : List PcodeOp) : List PcodeOp :=
  ((ops.map foldConstants).map dropIdentitySubpiece).map dropConstSubpiece

-- Pass 1a: two IntAnds with one mask, the first read only by the second.
def collapseAnd (ops : List PcodeOp) (i : Nat) : Option (List PcodeOp) :=
  match ops[i]?,ops[i + 1]? with
  | some (.binary .intAnd out1 left1 mask1),some (.binary .intAnd out2 in2 mask2) =>
    if out1.space = .unique ∧ mask1.space = .const ∧ in2 = out1 ∧ mask2 = mask1 ∧
        ((infoAt ops i).any fun info => info.futureReads == 1) then
      some ((ops.set i (.binary .intAnd out2 left1 mask1)).eraseIdx (i + 1))
    else none
  | _,_ => none

-- Pass 2: a temporary copy read once is read from its source instead.
def forwardCopy (ops : List PcodeOp) (i : Nat) : Option (List PcodeOp) :=
  match ops[i]?,infoAt ops i with
  | some (.copy out input),some ⟨1,some (.read readIdx)⟩ =>
    if out.space = .unique then some ((ops.modify readIdx (replaceReads · out input)).eraseIdx i) else none
  | _,_ => none

def isDead (info : Option UniqueOutputInfo) : Bool :=
  info.any fun info => info.futureReads == 0 || info.nextAccess == some .write

-- Passes 2b and 3, removed in one batch.
def dropDead (ops : List PcodeOp) : List PcodeOp :=
  ((ops.zip (analyzeUniqueOutputs ops)).filter fun entry => !isDead entry.2).map (·.1)

def opsBetween (ops : List PcodeOp) (i j : Nat) : List PcodeOp := (ops.take j).drop (i + 1)

-- Pass 4: the index and destination of the copy an output can be sunk into.
def shouldSink (ops : List PcodeOp) (i : Nat) : Option (Nat × Varnode) :=
  match (ops[i]?).bind getOutput,infoAt ops i with
  | some out,some ⟨1,some (.read copyIdx)⟩ =>
    match ops[copyIdx]? with
    | some (.copy dest src) =>
      if out.space = .unique ∧ src = out ∧
          (opsBetween ops i copyIdx).all (fun op => countReads op dest == 0 && !writesTo op dest) then
        some (copyIdx,dest)
      else none
    | _ => none
  | _,_ => none

def sinkOutput (ops : List PcodeOp) (i : Nat) : Option (List PcodeOp) :=
  (shouldSink ops i).map fun (copyIdx,dest) => (ops.modify i (mapOutput fun _ => dest)).eraseIdx copyIdx

def collapsed (ops : List PcodeOp) : List PcodeOp := Rewriting.pass collapseAnd (simplify ops)

def forwarded (ops : List PcodeOp) : List PcodeOp := Rewriting.pass forwardCopy (collapsed ops)

def optimizeOnce (ops : List PcodeOp) : List PcodeOp := Rewriting.pass sinkOutput (dropDead (forwarded ops))

def optimizeRounds : Nat → List PcodeOp → List PcodeOp
  | 0,ops => ops
  | rounds + 1,ops =>
    let next := optimizeOnce ops
    if next.length = ops.length then next else optimizeRounds rounds next

def optimize (ops : List PcodeOp) : List PcodeOp := optimizeRounds 4 ops

-- The rewrites of passes 2 and 4 that move an access past something that meets it.

-- Between the copy and its use: the temporary is written by a CallOther, or the
-- source of the copy is overwritten.
def forwardSafe (ops : List PcodeOp) (i : Nat) : Bool :=
  match ops[i]?,infoAt ops i with
  | some (.copy out input),some ⟨_,some (.read readIdx)⟩ =>
    (opsBetween ops i readIdx).all fun op => !writesTo op out && (input.space == .const || !clobbers op input)
  | _,_ => true

def mayLeave : PcodeOp → Bool
  | .branch _ | .cbranch _ _ | .branchInd _ | .call _ | .callInd _ | .ret _ => true
  | _ => false

-- The op neither reads nor writes a byte of dest, through a pointer included, and
-- control does not leave over it while dest can be seen.
def ignores (op : PcodeOp) (dest : Varnode) : Bool :=
  !clobbers op dest && (reads op).all (fun v => !overlaps v dest) && loadSpace op != some dest.space &&
    (dest.space == .unique || !mayLeave op)

def sinkSafe (ops : List PcodeOp) (i : Nat) : Bool :=
  match (ops[i]?).bind getOutput,shouldSink ops i with
  | some out,some (copyIdx,dest) => (opsBetween ops i copyIdx).all fun op => !writesTo op out && ignores op dest
  | _,_ => true

-- Every rewrite of one round is one that keeps the meaning.
def safeOnce (ops : List PcodeOp) : Bool :=
  ops.all foldSafe &&
    (Rewriting.passRewrites forwardCopy (collapsed ops)).all (fun visit => forwardSafe visit.1 visit.2) &&
    (Rewriting.passRewrites sinkOutput (dropDead (forwarded ops))).all (fun visit => sinkSafe visit.1 visit.2)

def safeRounds : Nat → List PcodeOp → Bool
  | 0,_ => true
  | rounds + 1,ops =>
    safeOnce ops &&
      let next := optimizeOnce ops
      if next.length = ops.length then true else safeRounds rounds next

-- Temporaries are reached as varnodes only, never through a pointer.
def direct (ops : List PcodeOp) : Bool :=
  ops.all fun op => loadSpace op != some .unique && storeSpace op != some .unique

def safeRun (ops : List PcodeOp) : Bool := direct ops && safeRounds 4 ops

end Rsleigh.Pcode
