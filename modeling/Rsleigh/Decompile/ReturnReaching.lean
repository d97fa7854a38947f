import Rsleigh.Decompile.ReturnValues

namespace Rsleigh.Decompile.ReturnValues

open Pcode Paths

section Definitions

variable (ssa : SsaCfg) (retRegOffset : UInt64)

-- What a statement assigns to the return register. The result of a call is such a value.
def assignment : Stmt → Option VarId
  | .assign id => if inRetReg ssa.vars retRegOffset id || (varAt ssa.vars id).callReturn then some id else none
  | .call _ _ out => out
  | .store _ _ => none

def callResult : SsaTerminator → Option VarId
  | .call _ _ out _ => out
  | _ => none

-- The last assignment to the return register in a block, and on a path of blocks.
def lastAssignment (bi : BlockId) : Option VarId :=
  match ssa.blocks[bi]? with
  | some block =>
    match callResult block.terminator with
    | some id => some id
    | none => block.stmts.reverse.findSome? (assignment ssa retRegOffset)
  | none => none

def lastOn (nodes : List BlockId) : Option VarId := nodes.findSome? (lastAssignment ssa retRegOffset)

def Flows (pred bi : BlockId) : Prop := (outline ssa).flows pred bi = true

-- An assignment that leaves the value of a variable, or a zero extension of it.
def Leaves (v w : VarId) : Prop := w = v ∨ (varAt ssa.vars w).expr = .unaryOp .zext v

-- The variable is what every path to the block leaves in the return register.
def ReachingDefinition (bi : BlockId) (v : VarId) : Prop :=
  ∀ nodes, Path (Flows ssa) ssa.entry bi nodes → ∃ w, lastOn ssa retRegOffset nodes = some w ∧ Leaves ssa v w

-- The pass gave the block this value by a strategy for an integer register.
structure Attached (isParam : VarId → Bool) (bi : BlockId) (v : VarId) : Prop where
  returns : terminatorAt ssa bi = some (.ret none)
  found : integerReturn (outline ssa) retRegOffset bi ≠ none
  attached : terminatorAt (detectReturnValues isParam (some retRegOffset) ssa).1 bi = some (.ret (some v))

-- The blocks that lead to a block when nothing after them assigns the return register, with the number of edges.
inductive Behind (bi : BlockId) : Nat → BlockId → Prop where
  | here : Behind bi 0 bi
  | back : Behind bi n next → lastAssignment ssa retRegOffset next = none → Flows ssa pred next → Behind bi (n + 1) pred

-- The last assignment of a block is a statement of its own, no call result, and not covered by a value of another
-- kind: where it is no write of the register there is none, and the first Phi of the register is still there, unless
-- the last assignment extends it.
structure Settled (block : SsaBlock) (w : VarId) : Prop where
  noResult : callResult block.terminator = none
  isAssignment : assignment ssa retRegOffset (.assign w) = some w
  isLast : ∃ before after, block.stmts = before ++ .assign w :: after ∧
    ∀ stmt ∈ after, assignment ssa retRegOffset stmt = none
  written : inRetReg ssa.vars retRegOffset w = true ∨
    ∀ id, .assign id ∈ block.stmts → inRetReg ssa.vars retRegOffset id = false
  phi : ∀ before p after, block.stmts = before ++ .assign p :: after → isRetPhi ssa.vars retRegOffset p = true →
    (∀ q, .assign q ∈ before → isRetPhi ssa.vars retRegOffset q = false) → Leaves ssa p w

-- Within three edges of the block, what assigns the return register last is settled and is reached from the entry,
-- and all paths to the block leave one assignment.
structure OneDefinition (bi : BlockId) : Prop where
  settled : ∀ n b block w, n ≤ 3 → Behind ssa retRegOffset bi n b → ssa.blocks[b]? = some block →
    lastAssignment ssa retRegOffset b = some w → Settled ssa retRegOffset block w
  reached : ∀ n b w, n ≤ 3 → Behind ssa retRegOffset bi n b → lastAssignment ssa retRegOffset b = some w →
    Relation.ReflTransGen (Flows ssa) ssa.entry b
  agree : ∀ nodes nodes', Path (Flows ssa) ssa.entry bi nodes → Path (Flows ssa) ssa.entry bi nodes' →
    lastOn ssa retRegOffset nodes = lastOn ssa retRegOffset nodes'

end Definitions

section Blocks

variable {id : VarId}

theorem assigns_some {wanted : VarId → Bool} : assigns wanted stmt = some id ↔ stmt = .assign id ∧ wanted id = true := by
  cases stmt with
  | assign other =>
    simp only [assigns,Stmt.assigned,Option.filter_eq_some_iff,Option.some.injEq,Stmt.assign.injEq]
  | store addr val => simp [assigns,Stmt.assigned]
  | call target args out => simp [assigns,Stmt.assigned]

theorem assigns_none {wanted : VarId → Bool} (absent : ∀ id, stmt = .assign id → wanted id = false) :
    assigns wanted stmt = none := by
  cases found : assigns wanted stmt with
  | none => rfl
  | some id =>
    obtain ⟨isAssign,isWanted⟩ := assigns_some.mp found
    rw [absent id isAssign] at isWanted
    cases isWanted

theorem lastAssign_none {wanted : VarId → Bool} (absent : ∀ id, .assign id ∈ stmts → wanted id = false) :
    lastAssign wanted stmts = none := by
  unfold lastAssign
  rw [List.findSome?_eq_none_iff]
  intro stmt member
  apply assigns_none
  intro id isAssign
  rw [isAssign,List.mem_reverse] at member
  exact absent id member

theorem firstAssign_none {wanted : VarId → Bool} (absent : ∀ id, .assign id ∈ stmts → wanted id = false) :
    firstAssign wanted stmts = none := by
  unfold firstAssign
  rw [List.findSome?_eq_none_iff]
  intro stmt member
  apply assigns_none
  intro id isAssign
  rw [isAssign] at member
  exact absent id member

theorem lastAssign_last {wanted : VarId → Bool} (isWanted : wanted id = true)
    (absent : ∀ other, .assign other ∈ after → wanted other = false) :
    lastAssign wanted (before ++ .assign id :: after) = some id := by
  have here : assigns wanted (.assign id) = some id := assigns_some.mpr ⟨rfl,isWanted⟩
  have none_ : after.reverse.findSome? (assigns wanted) = none := lastAssign_none absent
  unfold lastAssign
  rw [List.reverse_append,List.reverse_cons,List.append_assoc,List.findSome?_append,none_]
  simp [here]

theorem firstAssign_first {wanted : VarId → Bool} (found : firstAssign wanted stmts = some id) :
    wanted id = true ∧ ∃ before after, stmts = before ++ .assign id :: after ∧
      ∀ other, .assign other ∈ before → wanted other = false := by
  unfold firstAssign at found
  obtain ⟨before,stmt,after,split,isFirst,absent⟩ := List.findSome?_eq_some_iff.mp found
  obtain ⟨isAssign,isWanted⟩ := assigns_some.mp isFirst
  refine ⟨isWanted,before,after,isAssign ▸ split,?_⟩
  intro other member
  cases covered : wanted other with
  | false => rfl
  | true =>
    have found : assigns wanted (.assign other) = some other := assigns_some.mpr ⟨rfl,covered⟩
    rw [absent _ member] at found
    cases found

end Blocks

section Reading

variable {ssa : SsaCfg} {retRegOffset : UInt64} {id : VarId}

theorem assigned_not (silent : assignment ssa retRegOffset (.assign id) = none) :
    inRetReg ssa.vars retRegOffset id = false ∧ (varAt ssa.vars id).callReturn = false := by
  unfold assignment at silent
  simpa using silent

theorem outline_stmts (isBlock : ssa.blocks[b]? = some block) : (outline ssa).stmts b = block.stmts := by
  simp [outline,isBlock]

theorem readBlock_silent (silent : lastAssignment ssa retRegOffset b = none) :
    readBlock (outline ssa) retRegOffset b = none := by
  have absent : ∀ id, .assign id ∈ (outline ssa).stmts b →
      inRetReg ssa.vars retRegOffset id = false ∧ (varAt ssa.vars id).callReturn = false := by
    intro id member
    cases isBlock : ssa.blocks[b]? with
    | none => simp [outline,isBlock] at member
    | some block =>
      rw [outline_stmts isBlock] at member
      unfold lastAssignment at silent
      rw [isBlock] at silent
      simp only at silent
      cases result : callResult block.terminator with
      | some out => simp [result] at silent
      | none =>
        simp only [result,List.findSome?_eq_none_iff] at silent
        exact assigned_not (silent _ (List.mem_reverse.mpr member))
  have phis : ∀ id, .assign id ∈ (outline ssa).stmts b → isRetPhi (outline ssa).vars retRegOffset id = false := by
    intro id member
    change (inRetReg ssa.vars retRegOffset id && _) = false
    rw [(absent id member).1,Bool.false_and]
  have regs : lastAssign (inRetReg (outline ssa).vars retRegOffset) ((outline ssa).stmts b) = none :=
    lastAssign_none fun id member => (absent id member).1
  unfold readBlock findRetRegInBlock lastCallReturn
  rw [firstAssign_none phis]
  simp only [regs]
  exact lastAssign_none fun id member => (absent id member).2

theorem settled_read (isBlock : ssa.blocks[b]? = some block) (settled : Settled ssa retRegOffset block w) :
    ∃ v, readBlock (outline ssa) retRegOffset b = some v ∧
      (v = w ∨ isPhi (varAt ssa.vars v).expr = true ∧ Leaves ssa v w) := by
  unfold readBlock findRetRegInBlock
  rw [outline_stmts isBlock]
  cases first : firstAssign (isRetPhi (outline ssa).vars retRegOffset) block.stmts with
  | some p =>
    obtain ⟨isRet,before,after,split,none_⟩ := firstAssign_first first
    exact ⟨p,rfl,.inr ⟨(Bool.and_eq_true_iff.mp isRet).2,settled.phi before p after split isRet none_⟩⟩
  | none =>
    obtain ⟨before,after,split,silent⟩ := settled.isLast
    refine ⟨w,?_,.inl rfl⟩
    rcases settled.written with inReg | noReg
    · have isLast : lastAssign (inRetReg (outline ssa).vars retRegOffset) block.stmts = some w := by
        rw [split]
        exact lastAssign_last inReg fun other member => (assigned_not (silent _ member)).1
      simp only [isLast]
    · have notReg : inRetReg ssa.vars retRegOffset w = false := noReg w (by rw [split]; simp)
      have isReturn : (varAt ssa.vars w).callReturn = true := by
        have isAssignment := settled.isAssignment
        unfold assignment at isAssignment
        simpa [notReg] using isAssignment
      have none_ : lastAssign (inRetReg (outline ssa).vars retRegOffset) block.stmts = none := lastAssign_none noReg
      simp only [none_]
      unfold lastCallReturn
      rw [split]
      exact lastAssign_last isReturn fun other member => (assigned_not (silent _ member)).2

theorem lastAssignment_block (found : lastAssignment ssa retRegOffset b = some w) : ∃ block, ssa.blocks[b]? = some block := by
  cases isBlock : ssa.blocks[b]? with
  | none =>
    unfold lastAssignment at found
    rw [isBlock] at found
    cases found
  | some block => exact ⟨block,rfl⟩

theorem read_silent (one : OneDefinition ssa retRegOffset bi) (near : n ≤ 3) (behind : Behind ssa retRegOffset bi n b)
    (unread : readBlock (outline ssa) retRegOffset b = none) : lastAssignment ssa retRegOffset b = none := by
  cases found : lastAssignment ssa retRegOffset b with
  | none => rfl
  | some w =>
    obtain ⟨block,isBlock⟩ := lastAssignment_block found
    obtain ⟨v,read,_⟩ := settled_read isBlock (one.settled n b block w near behind isBlock found)
    rw [unread] at read
    cases read

theorem trail_behind (one : OneDefinition ssa retRegOffset bi)
    (trail : Hops.Trail (outline ssa).flows (readBlock (outline ssa) retRegOffset) bi n b) (near : n ≤ 3) :
    Behind ssa retRegOffset bi n b := by
  induction trail with
  | here => exact .here
  | back before unread isEdge ih =>
    have behind := ih (by omega)
    exact .back behind (read_silent one (by omega) behind unread) isEdge

theorem readPredecessor_read (found : readPredecessor (outline ssa) retRegOffset bi pred = some v) :
    Flows ssa pred bi ∧ readBlock (outline ssa) retRegOffset pred = some v := by
  unfold readPredecessor at found
  unfold readBlock
  split at found
  · rename_i isPred
    refine ⟨(Bool.and_eq_true_iff.mp isPred).2,?_⟩
    split at found
    · exact found
    · split at found
      · exact found
      · cases found
  · cases found

-- What a strategy finds is read of a block that leads to the return with no assignment after it.
theorem integerReturn_behind (one : OneDefinition ssa retRegOffset bi)
    (found : integerReturn (outline ssa) retRegOffset bi = some (v, stale)) :
    ∃ n ≤ 3, ∃ b, Behind ssa retRegOffset bi n b ∧ readBlock (outline ssa) retRegOffset b = some v := by
  unfold integerReturn at found
  cases inBlock : findRetRegInBlock (outline ssa).vars retRegOffset ((outline ssa).stmts bi) with
  | some id =>
    simp only [inBlock,Option.some.injEq,Prod.mk.injEq] at found
    refine ⟨0,by omega,bi,.here,?_⟩
    unfold readBlock
    simp only [inBlock]
    rw [found.1]
  | none =>
    simp only [inBlock] at found
    cases ofCall : lastCallReturn (outline ssa).vars ((outline ssa).stmts bi) with
    | some id =>
      simp only [ofCall,Option.some.injEq,Prod.mk.injEq] at found
      refine ⟨0,by omega,bi,.here,?_⟩
      unfold readBlock
      simp only [inBlock]
      rw [ofCall,found.1]
    | none =>
      have unread : readBlock (outline ssa) retRegOffset bi = none := by
        unfold readBlock
        simp only [inBlock]
        exact ofCall
      simp only [ofCall] at found
      cases ofPred : (List.range (outline ssa).count).findSome? (readPredecessor (outline ssa) retRegOffset bi) with
      | some id =>
        simp only [ofPred,Option.some.injEq,Prod.mk.injEq] at found
        obtain ⟨pred,_,read⟩ := List.exists_of_findSome?_eq_some ofPred
        obtain ⟨isEdge,readsPred⟩ := readPredecessor_read read
        have silent := read_silent one (Nat.zero_le 3) .here unread
        exact ⟨1,by omega,pred,.back .here silent isEdge,found.1 ▸ readsPred⟩
      | none =>
        simp only [ofPred,Option.map_eq_some_iff,Prod.mk.injEq] at found
        obtain ⟨id,ofHops,same,_⟩ := found
        obtain ⟨n,near,b,trail,read⟩ := Hops.hops_trail _ 3 unread ofHops
        exact ⟨n,near,b,trail_behind one trail near,same ▸ read⟩

theorem behind_path (behind : Behind ssa retRegOffset bi n b) (path : Path (Flows ssa) ssa.entry b nodes)
    (last : lastOn ssa retRegOffset nodes = some w) :
    ∃ nodes', Path (Flows ssa) ssa.entry bi nodes' ∧ lastOn ssa retRegOffset nodes' = some w := by
  induction behind generalizing nodes with
  | here => exact ⟨nodes,path,last⟩
  | back after silent isEdge ih =>
    apply ih (.step path isEdge)
    unfold lastOn
    rw [List.findSome?_cons,silent]
    exact last

theorem returned_leaves (ssa : SsaCfg) (w : VarId) : Leaves ssa (returned ssa.vars w) w := by
  unfold returned unwrapZext Leaves
  split
  · split
    · rename_i inner extends_
      split
      · exact .inr extends_
      · exact .inl rfl
    · exact .inl rfl
  · exact .inl rfl

theorem returned_phi (isPhi_ : isPhi (varAt ssa.vars v).expr = true) : returned ssa.vars v = v := by
  unfold returned unwrapZext
  split
  · split
    · rename_i inner extends_
      rw [extends_] at isPhi_
      cases isPhi_
    · rfl
  · rfl

theorem lastOn_head (path : Path (Flows ssa) ssa.entry b nodes) (found : lastAssignment ssa retRegOffset b = some w) :
    lastOn ssa retRegOffset nodes = some w := by
  unfold lastOn
  cases path with
  | start => simp [found]
  | step before isEdge => simp [found]

theorem returned_reaching (one : OneDefinition ssa retRegOffset bi)
    (found : integerReturn (outline ssa) retRegOffset bi = some (v, stale)) :
    ReachingDefinition ssa retRegOffset bi (returned ssa.vars v) := by
  obtain ⟨n,near,b,behind,read⟩ := integerReturn_behind one found
  cases last : lastAssignment ssa retRegOffset b with
  | none =>
    rw [readBlock_silent last] at read
    cases read
  | some w =>
    obtain ⟨block,isBlock⟩ := lastAssignment_block last
    obtain ⟨v',read',isLast⟩ := settled_read isBlock (one.settled n b block w near behind isBlock last)
    obtain rfl : v' = v := Option.some.inj (read'.symm.trans read)
    have leaves : Leaves ssa (returned ssa.vars v') w := by
      rcases isLast with same | ⟨isPhi_,leaves⟩
      · subst same
        exact returned_leaves ssa v'
      · rw [returned_phi isPhi_]
        exact leaves
    obtain ⟨nodes,path⟩ := reached_path (one.reached n b w near behind last)
    obtain ⟨_,through,leftThere⟩ := behind_path behind path (lastOn_head path last)
    intro nodes' path'
    exact ⟨w,(one.agree _ _ path' through).trans leftThere,leaves⟩

end Reading

section Results

variable (isParam : VarId → Bool) (ssa : SsaCfg) (retRegOffset : UInt64) (bi : BlockId)

theorem attached_found (attached : Attached ssa retRegOffset isParam bi v) :
    ∃ id stale, integerReturn (outline ssa) retRegOffset bi = some (id, stale) ∧ v = returned ssa.vars id := by
  cases found : integerReturn (outline ssa) retRegOffset bi with
  | none => exact absurd found attached.found
  | some value =>
    have result := detectReturnValues_at isParam (some retRegOffset) ssa attached.returns
    rw [attached.attached] at result
    unfold returnValue at result
    simp only [ReturnValues.retRegOffset,found,Option.map_some,Option.some.injEq,SsaTerminator.ret.injEq] at result
    exact ⟨value.1,value.2,rfl,result⟩

-- Two assignments that leave one variable, up to a zero extension.
def Alike (w w' : VarId) : Prop :=
  ∃ v, Leaves ssa v w ∧ Leaves ssa v w'

theorem attached_phi (attached : Attached ssa retRegOffset isParam bi v)
    (phi : firstAssign (isRetPhi ssa.vars retRegOffset) ((outline ssa).stmts bi) = some p) : v = p := by
  obtain ⟨id,stale,found,same⟩ := attached_found isParam ssa retRegOffset bi attached
  have read : findRetRegInBlock (outline ssa).vars retRegOffset ((outline ssa).stmts bi) = some p := by
    unfold findRetRegInBlock
    have phi' : firstAssign (isRetPhi (outline ssa).vars retRegOffset) ((outline ssa).stmts bi) = some p := phi
    rw [phi']
  unfold integerReturn at found
  simp only [read,Option.some.injEq,Prod.mk.injEq] at found
  have isPhi_ := (Bool.and_eq_true_iff.mp (firstAssign_first phi).1).2
  rw [same,← found.1,returned_phi isPhi_]

-- Where the return register has one definition the value that the pass attaches is the one in the register. Where it
-- is the one in the register, no two paths leave values that are not alike, and a Phi of the block has not been
-- written over.
theorem detectReturnValues_reaching (attached : Attached ssa retRegOffset isParam bi v) :
    (OneDefinition ssa retRegOffset bi → ReachingDefinition ssa retRegOffset bi v) ∧
      (ReachingDefinition ssa retRegOffset bi v →
        (∀ nodes nodes', Path (Flows ssa) ssa.entry bi nodes → Path (Flows ssa) ssa.entry bi nodes' →
          ∃ w w', lastOn ssa retRegOffset nodes = some w ∧ lastOn ssa retRegOffset nodes' = some w' ∧ Alike ssa w w') ∧
        ∀ p w, Relation.ReflTransGen (Flows ssa) ssa.entry bi →
          firstAssign (isRetPhi ssa.vars retRegOffset) ((outline ssa).stmts bi) = some p →
          lastAssignment ssa retRegOffset bi = some w → Leaves ssa p w) := by
  constructor
  · intro one
    obtain ⟨id,stale,found,same⟩ := attached_found isParam ssa retRegOffset bi attached
    rw [same]
    exact returned_reaching one found
  · intro reaching
    constructor
    · intro nodes nodes' path path'
      obtain ⟨w,last,leaves⟩ := reaching nodes path
      obtain ⟨w',last',leaves'⟩ := reaching nodes' path'
      exact ⟨w,w',last,last',v,leaves,leaves'⟩
    · intro p w reached phi last
      obtain ⟨nodes,path⟩ := reached_path reached
      obtain ⟨w',last',leaves⟩ := reaching nodes path
      rw [lastOn_head path last,Option.some.injEq] at last'
      rw [← attached_phi isParam ssa retRegOffset bi attached phi,last']
      exact leaves

end Results

section Runs

def wideReg (expr : Expr) : VarDef := ⟨⟨.register,0,8⟩,expr,none,8,false⟩

-- RAX is set and the function returns.
def straight : SsaCfg := ⟨[⟨0,[.assign 0],.ret none⟩],[wideReg (.const 7 8)],0,[]⟩

theorem straight_ends (isEdge : Flows straight pred bi) : False := by
  unfold Flows at isEdge
  cases pred with
  | zero => cases isEdge
  | succ pred => cases isEdge

theorem straight_alone (path : Path (Flows straight) straight.entry b nodes) : nodes = [0] := by
  cases path with
  | start => rfl
  | step before isEdge => exact (straight_ends isEdge).elim

theorem straight_behind (behind : Behind straight 0 0 n b) : b = 0 := by
  cases behind with
  | here => rfl
  | back before silent isEdge => exact (straight_ends isEdge).elim

theorem straight_one : OneDefinition straight 0 0 where
  settled n b block w near behind isBlock last := by
    obtain rfl := straight_behind behind
    obtain rfl : (⟨0,[.assign 0],.ret none⟩ : SsaBlock) = block := Option.some.inj isBlock
    obtain rfl : (0 : VarId) = w := Option.some.inj last
    refine ⟨rfl,by decide,⟨[],[],rfl,by simp⟩,.inl (by decide),?_⟩
    intro before p after split isPhi_ first
    have member : Stmt.assign p ∈ [Stmt.assign 0] := by
      change Stmt.assign p ∈ (⟨0,[.assign 0],.ret none⟩ : SsaBlock).stmts
      rw [split]
      simp
    obtain rfl : p = 0 := by simpa using member
    cases isPhi_
  reached n b w near behind last := by
    obtain rfl := straight_behind behind
    exact .refl
  agree nodes nodes' path path' := by rw [straight_alone path,straight_alone path']

theorem straight_attached : Attached straight 0 (fun _ => false) 0 0 := ⟨rfl,by decide,by decide⟩

theorem detectReturnValues_straight : ReachingDefinition straight 0 0 0 :=
  (detectReturnValues_reaching (fun _ => false) straight 0 0 straight_attached).1 straight_one

-- The two sides of a branch set RAX to different values and join.
def joined : SsaCfg where
  blocks := [⟨0,[],.cbranch 0 1 2⟩,⟨16,[.assign 1],.branch 3⟩,⟨32,[.assign 2],.fallthrough 3⟩,⟨48,[],.ret none⟩]
  vars := [⟨⟨.register,512,1⟩,.unknown,none,1,false⟩,wideReg (.const 1 8),wideReg (.const 2 8)]
  entry := 0
  diagnostics := []

-- RAX is joined by a Phi and set again before the return.
def overridden : SsaCfg where
  blocks := [⟨0,[.assign 0],.fallthrough 1⟩,⟨16,[.assign 1,.assign 2],.ret none⟩]
  vars := [wideReg (.const 1 8),wideReg (.phi [0]),wideReg (.const 2 8)]
  entry := 0
  diagnostics := []

theorem detectReturnValues_first :
    Attached joined 0 (fun _ => false) 3 1 ∧ ¬ ReachingDefinition joined 0 3 1 ∧
      Attached overridden 0 (fun _ => false) 1 1 ∧ ¬ ReachingDefinition overridden 0 1 1 := by
  have other : Path (Flows joined) joined.entry 3 [3,2,0] := .step (.step .start rfl) rfl
  have through : Path (Flows overridden) overridden.entry 1 [1,0] := .step .start rfl
  refine ⟨⟨rfl,by decide,by decide⟩,?_,⟨rfl,by decide,by decide⟩,?_⟩
  · intro reaching
    obtain ⟨w,last,leaves⟩ := reaching _ other
    obtain rfl : (2 : VarId) = w := Option.some.inj last
    rcases leaves with same | extends_
    · exact absurd same (by decide)
    · exact absurd extends_ (by decide)
  · intro reaching
    obtain ⟨w,last,leaves⟩ := reaching _ through
    obtain rfl : (2 : VarId) = w := Option.some.inj last
    rcases leaves with same | extends_
    · exact absurd same (by decide)
    · exact absurd extends_ (by decide)

end Runs

end Rsleigh.Decompile.ReturnValues
