import Rsleigh.Pcode.Frame

namespace Rsleigh.Pcode

inductive NextAccess where
  | read (index : Nat)
  | write
deriving DecidableEq, Repr

structure UniqueOutputInfo where
  futureReads : Nat
  nextAccess : Option NextAccess
deriving DecidableEq, Repr

-- `get_output(op)`, kept only when it is a temporary.
def uniqueOutput (op : PcodeOp) : Option Varnode := (getOutput op).filter (·.space == .unique)

def isLocalCBranch : PcodeOp → Bool
  | .cbranch dest _ => dest.space == .const
  | _ => false

-- Temporaries written on both sides of some CBranch inside the instruction.
def cbranchProtected (ops : List PcodeOp) (v : Varnode) : Bool :=
  (List.range ops.length).any fun i =>
    (ops[i]?).any isLocalCBranch &&
      (ops.take i).any (uniqueOutput · == some v) && (ops.drop (i + 1)).any (uniqueOutput · == some v)

-- An indirect transfer through a Ram varnode names a temporary by its offset.
def ramDestUnique (ops : List PcodeOp) (v : Varnode) : Bool :=
  ops.any fun op =>
    match op with
    | .branchInd dest | .callInd dest => dest.space == .ram && dest.offset == v.offset
    | _ => false

-- The two maps of the backward scan.
structure Accesses where
  futureReads : Varnode → Nat
  nextAccess : Varnode → Option NextAccess

def Accesses.read (idx : Nat) (later : Accesses) (v : Varnode) : Accesses :=
  if v.space = .unique then
    ⟨Function.update later.futureReads v (later.futureReads v + 1),
      Function.update later.nextAccess v (some (.read idx))⟩
  else later

def Accesses.write (later : Accesses) (out : Varnode) : Accesses :=
  ⟨Function.update later.futureReads out 0,Function.update later.nextAccess out (some .write)⟩

def scanBack (skip : Varnode → Bool) : Nat → List PcodeOp → Accesses × List (Option UniqueOutputInfo)
  | _,[] => (⟨fun _ => 0,fun _ => none⟩,[])
  | idx,op :: rest =>
    let (later,infos) := scanBack skip (idx + 1) rest
    match uniqueOutput op with
    | some out =>
      if skip out then ((reads op).foldl (.read idx) later,none :: infos)
      else ((reads op).foldl (.read idx) (later.write out),
        some ⟨later.futureReads out,later.nextAccess out⟩ :: infos)
    | none => ((reads op).foldl (.read idx) later,none :: infos)

def analyzeUniqueOutputs (ops : List PcodeOp) : List (Option UniqueOutputInfo) :=
  (scanBack (fun v => cbranchProtected ops v || ramDestUnique ops v) 0 ops).2

def infoAt (ops : List PcodeOp) (i : Nat) : Option UniqueOutputInfo := (analyzeUniqueOutputs ops)[i]?.join

-- What the scan computes, read forwards: reads of v up to its next reported
-- output, and the first op that reads or writes it.
def futureReads (v : Varnode) : List PcodeOp → Nat
  | [] => 0
  | op :: rest => countReads op v + if getOutput op = some v then 0 else futureReads v rest

def nextAccess (v : Varnode) : Nat → List PcodeOp → Option NextAccess
  | _,[] => none
  | idx,op :: rest =>
    if v ∈ reads op then some (.read idx)
    else if getOutput op = some v then some .write
    else nextAccess v (idx + 1) rest

theorem Accesses.read_other {v w : Varnode} (differs : v ≠ w) (later : Accesses) :
    (later.read idx w).futureReads v = later.futureReads v ∧ (later.read idx w).nextAccess v = later.nextAccess v := by
  unfold Accesses.read
  split <;> simp [differs]

theorem foldl_read_futureReads {v : Varnode} (temporary : v.space = .unique) (later : Accesses) (vs : List Varnode) :
    (vs.foldl (.read idx) later).futureReads v = vs.count v + later.futureReads v := by
  induction vs generalizing later with
  | nil => simp
  | cons w ws ih =>
    rw [List.foldl_cons,ih,List.count_cons]
    by_cases same : w = v
    · subst w
      simp [Accesses.read,temporary]
      omega
    · have other : v ≠ w := fun equal => same equal.symm
      simp [same,(Accesses.read_other other later).1]

theorem foldl_read_nextAccess {v : Varnode} (temporary : v.space = .unique) (later : Accesses) (vs : List Varnode) :
    (vs.foldl (.read idx) later).nextAccess v = if v ∈ vs then some (.read idx) else later.nextAccess v := by
  induction vs generalizing later with
  | nil => simp
  | cons w ws ih =>
    rw [List.foldl_cons,ih]
    by_cases same : w = v
    · subst w
      simp [Accesses.read,temporary]
    · have other : v ≠ w := fun equal => same equal.symm
      simp [other,(Accesses.read_other other later).2]

theorem uniqueOutput_eq {v : Varnode} (temporary : v.space = .unique) :
    uniqueOutput op = some v ↔ getOutput op = some v := by
  simp only [uniqueOutput,Option.filter_eq_some_iff,beq_iff_eq]
  exact ⟨fun both => both.1,fun output => ⟨output,temporary⟩⟩

theorem scanBack_accesses {v : Varnode} (temporary : v.space = .unique) (tracked : skip v = false)
    (idx : Nat) (ops : List PcodeOp) :
    (scanBack skip idx ops).1.futureReads v = futureReads v ops ∧
      (scanBack skip idx ops).1.nextAccess v = nextAccess v idx ops := by
  induction ops generalizing idx with
  | nil => exact ⟨rfl,rfl⟩
  | cons op rest ih =>
    obtain ⟨reads,next⟩ := ih (idx + 1)
    simp only [scanBack,futureReads,nextAccess,countReads]
    cases output : uniqueOutput op with
    | none =>
      have silent : getOutput op ≠ some v := fun equal => by simp [(uniqueOutput_eq temporary).mpr equal] at output
      simp only
      rw [foldl_read_futureReads temporary,foldl_read_nextAccess temporary,reads,next,if_neg silent,if_neg silent]
      exact ⟨rfl,rfl⟩
    | some out =>
      by_cases same : out = v
      · subst out
        have reported := (uniqueOutput_eq temporary).mp output
        simp only [tracked,Bool.false_eq_true,if_false]
        rw [foldl_read_futureReads temporary,foldl_read_nextAccess temporary,if_pos reported,if_pos reported]
        simp [Accesses.write]
      · have silent : getOutput op ≠ some v := fun equal => by
          have other := (uniqueOutput_eq temporary).mpr equal
          rw [output] at other
          exact same (Option.some.inj other)
        have differs : v ≠ out := fun equal => same equal.symm
        rw [if_neg silent,if_neg silent]
        cases skipped : skip out with
        | true =>
          simp only [skipped,if_true]
          rw [foldl_read_futureReads temporary,foldl_read_nextAccess temporary,reads,next]
          exact ⟨rfl,rfl⟩
        | false =>
          simp only [skipped,Bool.false_eq_true,if_false]
          rw [foldl_read_futureReads temporary,foldl_read_nextAccess temporary]
          simp [Accesses.write,differs,reads,next]

-- An entry of the analysis speaks about the ops after its own.
theorem scanBack_info (found : (scanBack skip idx ops).2[i]?.join = some info) :
    ∃ before op after out, ops = before ++ op :: after ∧ before.length = i ∧ getOutput op = some out ∧
      out.space = .unique ∧ info = ⟨futureReads out after,nextAccess out (idx + i + 1) after⟩ := by
  induction ops generalizing idx i with
  | nil => simp [scanBack] at found
  | cons op rest ih =>
    cases i with
    | zero =>
      simp only [scanBack] at found
      cases output : uniqueOutput op with
      | none => simp [output] at found
      | some out =>
        have reported : getOutput op = some out ∧ out.space = .unique := by
          simpa [uniqueOutput,Option.filter_eq_some_iff] using output
        cases skipped : skip out with
        | true => simp [output,skipped] at found
        | false =>
          simp only [output,skipped] at found
          obtain ⟨counted,next⟩ := scanBack_accesses reported.2 skipped (idx + 1) rest
          simp only [Bool.false_eq_true,if_false,List.getElem?_cons_zero,Option.join_some,Option.some.injEq,counted,
            next] at found
          exact ⟨[],op,rest,out,rfl,rfl,reported.1,reported.2,found.symm⟩
    | succ i =>
      have tail : (scanBack skip idx (op :: rest)).2[i + 1]? = (scanBack skip (idx + 1) rest).2[i]? := by
        simp only [scanBack]
        split
        · split <;> rfl
        · rfl
      rw [tail] at found
      obtain ⟨before,op',after,out,parts,position,output,temporary,entry⟩ := ih found
      refine ⟨op :: before,op',after,out,by rw [parts,List.cons_append],by simp [position],output,temporary,?_⟩
      rw [entry,show idx + 1 + i + 1 = idx + (i + 1) + 1 by omega]

theorem futureReads_zero (unread : futureReads v ops = 0) : DeadIn v ops := by
  induction ops with
  | nil => trivial
  | cons op rest ih =>
    obtain ⟨here,later⟩ := Nat.add_eq_zero_iff.mp unread
    refine ⟨countReads_zero.mp here,?_⟩
    by_cases output : getOutput op = some v
    · exact .inl (writes_of_output output)
    · rw [if_neg output] at later
      exact .inr (ih later)

theorem nextAccess_write (overwritten : nextAccess v idx ops = some .write) : DeadIn v ops := by
  induction ops generalizing idx with
  | nil => trivial
  | cons op rest ih =>
    simp only [nextAccess] at overwritten
    split at overwritten
    · simp at overwritten
    · rename_i unread
      refine ⟨unread,?_⟩
      split at overwritten
      · rename_i output
        exact .inl (writes_of_output output)
      · exact .inr (ih overwritten)

-- Nothing here reads v or reports it as its output.
def Untouched (v : Varnode) (ops : List PcodeOp) : Prop := ∀ op ∈ ops, v ∉ reads op ∧ getOutput op ≠ some v

theorem nextAccess_read (next : nextAccess v idx ops = some (.read j)) :
    ∃ between use after, ops = between ++ use :: after ∧ j = idx + between.length ∧ Untouched v between ∧
      v ∈ reads use := by
  induction ops generalizing idx with
  | nil => simp [nextAccess] at next
  | cons op rest ih =>
    simp only [nextAccess] at next
    split at next
    · rename_i read
      obtain rfl : idx = j := by simpa using next
      exact ⟨[],op,rest,rfl,rfl,by simp [Untouched],read⟩
    · rename_i unread
      split at next
      · simp at next
      · rename_i silent
        obtain ⟨between,use,after,parts,position,untouched,read⟩ := ih next
        refine ⟨op :: between,use,after,by rw [parts,List.cons_append],?_,?_,read⟩
        · rw [position,List.length_cons]
          omega
        · intro o member
          rcases List.mem_cons.mp member with rfl | member
          · exact ⟨unread,silent⟩
          · exact untouched o member

theorem futureReads_append (untouched : Untouched v between) (rest : List PcodeOp) :
    futureReads v (between ++ rest) = futureReads v rest := by
  induction between with
  | nil => rfl
  | cons op between ih =>
    obtain ⟨unread,silent⟩ := untouched op List.mem_cons_self
    rw [List.cons_append,futureReads,countReads_zero.mpr unread,if_neg silent,
      ih fun o member => untouched o (List.mem_cons_of_mem _ member),Nat.zero_add]

-- What an entry `Some(1, Read(j))` at i means: one op after i reads the output of
-- i, once, and what it held is dead after that op.
structure SingleUse (ops : List PcodeOp) (i j : Nat) (before : List PcodeOp) (op : PcodeOp) (out : Varnode)
    (between : List PcodeOp) (use : PcodeOp) (after : List PcodeOp) : Prop where
  parts : ops = before ++ op :: (between ++ use :: after)
  start : before.length = i
  finish : j = i + 1 + between.length
  output : getOutput op = some out
  temporary : out.space = .unique
  untouched : Untouched out between
  once : countReads use out = 1
  dead : getOutput use = some out ∨ DeadIn out after

theorem infoAt_single (found : infoAt ops i = some ⟨1,some (.read j)⟩) :
    ∃ before op out between use after, SingleUse ops i j before op out between use after := by
  obtain ⟨before,op,rest,out,parts,start,output,temporary,info⟩ := scanBack_info found
  simp only [UniqueOutputInfo.mk.injEq,Nat.zero_add] at info
  obtain ⟨counted,next⟩ := info
  obtain ⟨between,use,after,rfl,finish,untouched,read⟩ := nextAccess_read next.symm
  rw [futureReads_append untouched,futureReads] at counted
  have positive : 0 < countReads use out := List.count_pos_iff.mpr read
  refine ⟨before,op,out,between,use,after,parts,start,finish,output,temporary,untouched,by omega,?_⟩
  by_cases last : getOutput use = some out
  · exact .inl last
  · rw [if_neg last] at counted
    exact .inr (futureReads_zero (by omega))

end Rsleigh.Pcode
