import Rsleigh.Decompile.EliminateDead

namespace Rsleigh.Decompile.CallArguments

open Pcode

section Pass

variable (vars : List VarDef)

def isEspRegister (id : VarId) : Bool := isStackPointer espOffset false (varAt vars id).varnode

def isEspVar (id : VarId) : Bool :=
  isEspRegister vars id ||
    (varAt vars id).varnode.space == .unique &&
      match (varAt vars id).expr with
      | .binOp .sub left _ | .binOp .add left _ | .var left => isEspRegister vars left
      | _ => false

-- What the backward scan makes of a statement: an argument, one to delete, one to pass, or the end of the scan.
inductive Role where
  | argument (val : VarId)
  | consumed
  | passed
  | stop
  deriving DecidableEq

def role : Stmt → Role
  | .store addr val => if isEspVar vars addr then .argument val else .passed
  | .assign id =>
    if (varAt vars id).callReturn then .passed
    else if isEspRegister vars id then .consumed
    else if flagOffsets.contains (varAt vars id).varnode.offset then .passed
    else if (varAt vars id).varnode.space == .unique then .consumed
    else .stop
  | .call _ _ _ => .stop

-- The arguments found before a position, the last store first, and the positions of what they consume.
def collectStackArgs (stmts : List Stmt) : Nat → List VarId × List Nat
  | 0 => ([], [])
  | i + 1 =>
    match (stmts[i]?).map (role vars) with
    | some (.argument val) => (val :: (collectStackArgs stmts i).1, i :: (collectStackArgs stmts i).2)
    | some .consumed => ((collectStackArgs stmts i).1, i :: (collectStackArgs stmts i).2)
    | some .passed => collectStackArgs stmts i
    | some .stop | none => ([], [])

def setArgs (args : List VarId) : Stmt → Stmt
  | .call target _ out => .call target args out
  | stmt => stmt

def isBareCall : Stmt → Bool
  | .call _ args _ => args.isEmpty
  | _ => false

-- One call statement of the block.
def collectAt (done : List Stmt × List Nat) (si : Nat) : List Stmt × List Nat :=
  let found := collectStackArgs vars done.1 si
  if found.1.isEmpty then done else (done.1.modify si (setArgs found.1), done.2 ++ found.2)

def collectTerminator (block : SsaBlock) : SsaTerminator × List Nat :=
  match block.terminator with
  | .call target _ out next =>
    let found := collectStackArgs vars block.stmts block.stmts.length
    if found.1.isEmpty then (block.terminator, []) else (.call target found.1 out next, found.2)
  | terminator => (terminator, [])

def bareCalls (stmts : List Stmt) : List Nat :=
  (List.range stmts.length).filter fun si => (stmts[si]?).any isBareCall

-- The block with the arguments at its calls, and the positions of what is to be deleted.
def attach (block : SsaBlock) : SsaBlock × List Nat :=
  let ends := collectTerminator vars block
  let done := (bareCalls block.stmts).reverse.foldl (collectAt vars) (block.stmts, ends.2)
  ({ block with stmts := done.1, terminator := ends.1 }, done.2)

def removeAt (positions : List Nat) (stmts : List Stmt) : List Stmt :=
  (stmts.zipIdx.filter fun stmt => !positions.contains stmt.2).map Prod.fst

def collectBlock (block : SsaBlock) : SsaBlock :=
  { (attach vars block).1 with stmts := removeAt (attach vars block).2 (attach vars block).1.stmts }

end Pass

-- `collect_call_arguments` where no register carries arguments.
def collectCallArguments (ssa : SsaCfg) : SsaCfg := { ssa with blocks := ssa.blocks.map (collectBlock ssa.vars) }

section Area

variable (vars : List VarDef)

-- The statements that the scan from a call reaches.
def InRegion (stmts : List Stmt) (c k : Nat) : Prop :=
  k < c ∧ ∀ j, k ≤ j → j < c → ∃ stmt, stmts[j]? = some stmt ∧ role vars stmt ≠ .stop

def isPush (stmt : Stmt) : Bool :=
  match role vars stmt with
  | .argument _ => true
  | _ => false

-- The stores through ESP before a position.
def pushes (stmts : List Stmt) (c : Nat) : Nat := (stmts.take c).countP (isPush vars)

-- A call whose arguments are collected.
def Collects (block : SsaBlock) (c : Nat) : Prop :=
  (∃ target out, block.stmts[c]? = some (.call target [] out)) ∨
    c = block.stmts.length ∧ block.terminator.isCall = true

def HasPush (stmts : List Stmt) (c : Nat) : Prop :=
  ∃ k addr val, InRegion vars stmts c k ∧ stmts[k]? = some (.store addr val) ∧ isEspVar vars addr = true

def argumentsAt (block : SsaBlock) (c : Nat) : List VarId :=
  match block.stmts[c]?, block.terminator with
  | some (.call _ args _), _ | none, .call _ args _ _ => args
  | _, _ => []

variable (val : VarId → Nat)

-- The n-th word of the outgoing arguments.
def slot (esp n : Nat) : Nat := (esp + 4 * n) % 2 ^ 32

-- The store at a position is the last before the call to any byte of the word, and it stores the whole word.
structure LastAt (stmts : List Stmt) (c k word : Nat) (v : VarId) : Prop where
  before : k < c
  store : ∃ addr, stmts[k]? = some (.store addr v) ∧ val addr % 2 ^ 32 = word
  size : (varAt vars v).size = 4
  last : ∀ j addr u, k < j → j < c → stmts[j]? = some (.store addr u) →
    ∀ x < (varAt vars u).size.toNat, ∀ y < 4, (val addr + x) % 2 ^ 32 ≠ (word + y) % 2 ^ 32

variable (esp : BlockId → Nat → Nat) (ssa : SsaCfg)

-- The arguments are the words last stored from ESP on, and what is deleted is such a store, an adjustment of ESP or a
-- temporary that nothing refers to.
structure Recovered : Prop where
  arguments : ∀ (bi : BlockId) (block : SsaBlock) c, ssa.blocks[bi]? = some block → Collects block c → HasPush ssa.vars block.stmts c →
    ∀ i v, (argumentsAt (attach ssa.vars block).1 c)[i]? = some v →
      ∃ k, LastAt ssa.vars val block.stmts c k (slot (esp bi c) i) v
  deleted : ∀ (bi : BlockId) (block : SsaBlock) k, ssa.blocks[bi]? = some block → k ∈ (attach ssa.vars block).2 →
    (∃ c i v, Collects block c ∧ (argumentsAt (attach ssa.vars block).1 c)[i]? = some v ∧
      LastAt ssa.vars val block.stmts c k (slot (esp bi c) i) v) ∨
    ∃ v, block.stmts[k]? = some (.assign v) ∧ (isEspRegister ssa.vars v = true ∨
      (varAt ssa.vars v).varnode.space = .unique ∧ ¬ Referenced (collectCallArguments ssa) v)

-- What is deleted for some call of the block.
def Consumed (block : SsaBlock) (k : Nat) : Prop :=
  ∃ c stmt, Collects block c ∧ HasPush ssa.vars block.stmts c ∧ InRegion ssa.vars block.stmts c k ∧
    block.stmts[k]? = some stmt ∧ role ssa.vars stmt ≠ .passed

-- What is referred to without the deleted statements, their values being arguments.
inductive Needed : VarId → Prop where
  | stmt {bi : BlockId} {block : SsaBlock} {k : Nat} {stmt : Stmt} : ssa.blocks[bi]? = some block →
    block.stmts[k]? = some stmt → ¬ Consumed ssa block k → u ∈ stmt.used → Needed u
  | expr {bi : BlockId} {block : SsaBlock} {k : Nat} : ssa.blocks[bi]? = some block →
    block.stmts[k]? = some (.assign v) → ¬ Consumed ssa block k → UsedBy ssa.vars v u → Needed u
  | argument {bi : BlockId} {block : SsaBlock} {c k : Nat} : ssa.blocks[bi]? = some block → Collects block c →
    InRegion ssa.vars block.stmts c k → block.stmts[k]? = some (.store addr u) → isEspVar ssa.vars addr = true → Needed u
  | terminator {bi : BlockId} {block : SsaBlock} : ssa.blocks[bi]? = some block → u ∈ block.terminator.used →
    ¬ (block.terminator.isCall = true ∧ HasPush ssa.vars block.stmts block.stmts.length) → Needed u
  | chain : Needed v → UsedBy ssa.vars v u → Needed u

-- The stores through ESP that the scan reaches fill the words from ESP on, from the last store to the first, and no
-- temporary that it reaches is needed.
structure ArgumentArea : Prop where
  slots : ∀ (bi : BlockId) (block : SsaBlock) c k addr v, ssa.blocks[bi]? = some block → Collects block c → InRegion ssa.vars block.stmts c k →
    block.stmts[k]? = some (.store addr v) → isEspVar ssa.vars addr = true →
    LastAt ssa.vars val block.stmts c k
      (slot (esp bi c) (pushes ssa.vars block.stmts c - pushes ssa.vars block.stmts (k + 1))) v
  temporaries : ∀ (bi : BlockId) (block : SsaBlock) c k v, ssa.blocks[bi]? = some block → Collects block c →
    HasPush ssa.vars block.stmts c → InRegion ssa.vars block.stmts c k → block.stmts[k]? = some (.assign v) →
    role ssa.vars (.assign v) = .consumed → isEspRegister ssa.vars v = false → ¬ Needed ssa v

-- Each store of a block has a value variable of its own.
def ValuesDistinct : Prop :=
  ∀ (bi : BlockId) (block : SsaBlock), ssa.blocks[bi]? = some block → ∀ (j k : Nat) (addr addr' v : VarId), block.stmts[j]? = some (.store addr v) →
    block.stmts[k]? = some (.store addr' v) → j = k

end Area

section Scan

variable {vars : List VarDef} {stmts : List Stmt}

theorem role_argument {stmt : Stmt} (isArgument : role vars stmt = .argument v) :
    ∃ addr, stmt = .store addr v ∧ isEspVar vars addr = true := by
  cases stmt with
  | store addr val =>
    simp only [role] at isArgument
    split_ifs at isArgument with esp
    exact ⟨addr,by rw [Role.argument.inj isArgument],esp⟩
  | assign id =>
    simp only [role] at isArgument
    split_ifs at isArgument
  | call target args out => cases isArgument

theorem role_consumed {stmt : Stmt} (isConsumed : role vars stmt = .consumed) :
    ∃ v, stmt = .assign v ∧ (isEspRegister vars v = true ∨ (varAt vars v).varnode.space = .unique) := by
  cases stmt with
  | store addr val =>
    simp only [role] at isConsumed
    split_ifs at isConsumed
  | assign id =>
    simp only [role] at isConsumed
    split_ifs at isConsumed with _ esp _ temporary
    · exact ⟨id,rfl,.inl esp⟩
    · exact ⟨id,rfl,.inr (beq_iff_eq.mp temporary)⟩
  | call target args out => cases isConsumed

theorem inRegion_succ {c k : Nat} : InRegion vars stmts (c + 1) k ↔
    (∃ stmt, stmts[c]? = some stmt ∧ role vars stmt ≠ .stop) ∧ (k = c ∨ InRegion vars stmts c k) := by
  constructor
  · rintro ⟨before,open_⟩
    refine ⟨open_ c (by omega) (by omega),?_⟩
    by_cases here : k = c
    · exact .inl here
    · exact .inr ⟨by omega,fun j low high => open_ j low (by omega)⟩
  · rintro ⟨here,earlier⟩
    rcases earlier with rfl | ⟨before,open_⟩
    · refine ⟨by omega,fun j low high => ?_⟩
      obtain rfl : j = k := by omega
      exact here
    · refine ⟨by omega,fun j low high => ?_⟩
      by_cases last : j = c
      · rw [last]
        exact here
      · exact open_ j low (by omega)

theorem pushes_succ (c : Nat) :
    pushes vars stmts (c + 1) = pushes vars stmts c + if (stmts[c]?).any (isPush vars) then 1 else 0 := by
  unfold pushes
  rw [List.take_add_one,List.countP_append]
  cases stmts[c]? <;> simp [List.countP_cons]

theorem pushes_mono {c k : Nat} (before : k ≤ c) : pushes vars stmts k ≤ pushes vars stmts c :=
  (List.take_sublist_take_left before).countP_le

theorem mem_consumed (c k : Nat) : k ∈ (collectStackArgs vars stmts c).2 ↔
    InRegion vars stmts c k ∧ ∃ stmt, stmts[k]? = some stmt ∧ role vars stmt ≠ .passed := by
  induction c with
  | zero =>
    simp only [collectStackArgs,List.not_mem_nil,false_iff]
    rintro ⟨⟨before,_⟩,_⟩
    omega
  | succ c ih =>
    rw [inRegion_succ]
    unfold collectStackArgs
    cases here : stmts[c]? with
    | none => simp
    | some stmt =>
      have outside : ¬ InRegion vars stmts c c := fun region => by
        have before := region.1
        omega
      cases isRole : role vars stmt with
      | argument val =>
        simp only [Option.map_some,isRole,List.mem_cons,ih]
        grind
      | consumed =>
        simp only [Option.map_some,isRole,List.mem_cons,ih]
        grind
      | passed =>
        simp only [Option.map_some,isRole,ih]
        grind
      | stop => simp [isRole]

theorem getElem_args (c n : Nat) (v : VarId) : (collectStackArgs vars stmts c).1[n]? = some v ↔
    ∃ k addr, InRegion vars stmts c k ∧ stmts[k]? = some (.store addr v) ∧ isEspVar vars addr = true ∧
      n = pushes vars stmts c - pushes vars stmts (k + 1) := by
  induction c generalizing n with
  | zero =>
    simp only [collectStackArgs,List.getElem?_nil,reduceCtorEq,false_iff]
    rintro ⟨k,addr,⟨before,_⟩,_⟩
    omega
  | succ c ih =>
    unfold collectStackArgs
    cases here : stmts[c]? with
    | none => simp [inRegion_succ,here]
    | some stmt =>
      have pushed (addr : VarId) (isStore : stmt = .store addr v) (esp : isEspVar vars addr = true) :
          role vars stmt = .argument v := by simp [isStore,role,esp]
      have counted := @pushes_succ vars stmts c
      rw [here,Option.any_some] at counted
      cases isRole : role vars stmt with
      | stop => simp [inRegion_succ,here,isRole]
      | argument val =>
        obtain ⟨addr,rfl,esp⟩ := role_argument isRole
        have push : isPush vars (.store addr val) = true := by simp [isPush,isRole]
        rw [push,if_pos rfl] at counted
        simp only [Option.map_some,isRole]
        constructor
        · intro found
          cases n with
          | zero =>
            obtain rfl := Option.some.inj found
            exact ⟨c,addr,inRegion_succ.mpr ⟨⟨_,here,by simp [isRole]⟩,.inl rfl⟩,here,esp,by omega⟩
          | succ n =>
            obtain ⟨k,addr',region,store,esp',count⟩ := (ih n).mp found
            have mono := @pushes_mono vars stmts _ (k + 1) region.1
            exact ⟨k,addr',inRegion_succ.mpr ⟨⟨_,here,by simp [isRole]⟩,.inr region⟩,store,esp',by omega⟩
        · rintro ⟨k,addr',region,store,esp',count⟩
          rcases (inRegion_succ.mp region).2 with rfl | earlier
          · obtain rfl : n = 0 := by omega
            rw [here] at store
            obtain ⟨_,rfl⟩ := Stmt.store.inj (Option.some.inj store)
            rfl
          · have mono := @pushes_mono vars stmts _ (k + 1) earlier.1
            obtain ⟨m,rfl⟩ : ∃ m, n = m + 1 := ⟨n - 1,by omega⟩
            exact (ih m).mpr ⟨k,addr',earlier,store,esp',by omega⟩
      | _ =>
        have noPush : isPush vars stmt = false := by simp [isPush,isRole]
        rw [noPush] at counted
        simp only [Option.map_some,isRole]
        rw [ih,counted]
        refine exists_congr fun k => exists_congr fun addr' => ?_
        rw [inRegion_succ]
        constructor
        · rintro ⟨region,rest⟩
          exact ⟨⟨⟨stmt,here,by simp [isRole]⟩,.inr region⟩,rest⟩
        · rintro ⟨⟨_,rfl | region⟩,store,esp',count⟩
          · rw [here] at store
            have isStore := pushed addr' (Option.some.inj store) esp'
            rw [isRole] at isStore
            cases isStore
          · exact ⟨region,store,esp',count⟩

theorem args_ne_nil (c : Nat) : (collectStackArgs vars stmts c).1 ≠ [] ↔ HasPush vars stmts c := by
  constructor
  · intro some_
    obtain ⟨v,rest,found⟩ := List.exists_cons_of_ne_nil some_
    obtain ⟨k,addr,region,store,esp,_⟩ := (@getElem_args vars stmts c 0 v).mp (by rw [found]; rfl)
    exact ⟨k,addr,v,region,store,esp⟩
  · rintro ⟨k,addr,v,region,store,esp⟩ none_
    have found := (@getElem_args vars stmts c _ v).mpr ⟨k,addr,region,store,esp,rfl⟩
    rw [none_] at found
    cases found

theorem collectStackArgs_congr {stmts stmts' : List Stmt}
    (same : ∀ i : Nat, (stmts[i]?).map (role vars) = (stmts'[i]?).map (role vars)) (c : Nat) :
    collectStackArgs vars stmts c = collectStackArgs vars stmts' c := by
  induction c with
  | zero => rfl
  | succ c ih =>
    unfold collectStackArgs
    rw [same c,ih]

end Scan

section Attach

variable {vars : List VarDef}

theorem role_setArgs (args : List VarId) (stmt : Stmt) : role vars (setArgs args stmt) = role vars stmt := by
  cases stmt <;> rfl

-- Each call of the list gets its own arguments, and what is consumed is consumed for one of them.
theorem collect_calls (vars : List VarDef) (stmts : List Stmt) (calls : List Nat) (distinct : calls.Nodup) (consumed : List Nat)
    (start : List Stmt) (same : ∀ i : Nat, (start[i]?).map (role vars) = (stmts[i]?).map (role vars)) :
    (∀ j : Nat, (calls.foldl (collectAt vars) (start,consumed)).1[j]? =
      if j ∈ calls ∧ (collectStackArgs vars stmts j).1 ≠ [] then (start[j]?).map (setArgs (collectStackArgs vars stmts j).1)
      else start[j]?) ∧
    ∀ k, k ∈ (calls.foldl (collectAt vars) (start,consumed)).2 ↔
      k ∈ consumed ∨ ∃ si ∈ calls, (collectStackArgs vars stmts si).1 ≠ [] ∧ k ∈ (collectStackArgs vars stmts si).2 := by
  induction calls generalizing start consumed with
  | nil => simp
  | cons si calls ih =>
    obtain ⟨fresh,distinct'⟩ := List.nodup_cons.mp distinct
    have found : collectStackArgs vars start si = collectStackArgs vars stmts si := collectStackArgs_congr same si
    rw [List.foldl_cons]
    by_cases empty : (collectStackArgs vars stmts si).1 = []
    · have step : collectAt vars (start,consumed) si = (start,consumed) := by
        simp [collectAt,found,empty]
      rw [step]
      obtain ⟨args,positions⟩ := ih distinct' consumed start same
      constructor
      · intro j
        rw [args j]
        by_cases here : j = si
        · simp [here,empty]
        · simp [here]
      · intro k
        rw [positions k]
        simp [empty]
    · have step : collectAt vars (start,consumed) si = (start.modify si (setArgs (collectStackArgs vars stmts si).1),
          consumed ++ (collectStackArgs vars stmts si).2) := by
        simp [collectAt,found,empty]
      rw [step]
      have same' : ∀ i : Nat, ((start.modify si (setArgs (collectStackArgs vars stmts si).1))[i]?).map (role vars) =
          (stmts[i]?).map (role vars) := by
        intro i
        rw [← same i,List.getElem?_modify]
        by_cases here : si = i
        · simp only [here,if_true]
          cases start[i]? <;> simp [role_setArgs]
        · simp [here]
      obtain ⟨args,positions⟩ := ih distinct' (consumed ++ (collectStackArgs vars stmts si).2) _ same'
      constructor
      · intro j
        rw [args j,List.getElem?_modify]
        by_cases here : j = si
        · subst here
          simp [fresh,empty]
        · have other : si ≠ j := Ne.symm here
          simp [here,other]
      · intro k
        rw [positions k]
        simp [empty,or_assoc]

theorem mem_bareCalls {stmts : List Stmt} {c : Nat} :
    c ∈ bareCalls stmts ↔ ∃ target out, stmts[c]? = some (.call target [] out) := by
  unfold bareCalls
  rw [List.mem_filter,List.mem_range]
  constructor
  · rintro ⟨_,bare⟩
    cases found : stmts[c]? with
    | none =>
      rw [found] at bare
      cases bare
    | some stmt =>
      rw [found,Option.any_some] at bare
      cases stmt with
      | call target args out =>
        have none_ : args = [] := List.isEmpty_iff.mp bare
        exact ⟨target,out,by rw [none_]⟩
      | store addr val => cases bare
      | assign id => cases bare
  · rintro ⟨target,out,found⟩
    exact ⟨(List.getElem?_eq_some_iff.mp found).1,by rw [found]; rfl⟩

theorem attached_stmts (block : SsaBlock) (j : Nat) : (attach vars block).1.stmts[j]? =
    if j ∈ bareCalls block.stmts ∧ (collectStackArgs vars block.stmts j).1 ≠ [] then
      (block.stmts[j]?).map (setArgs (collectStackArgs vars block.stmts j).1)
    else block.stmts[j]? := by
  have calls := collect_calls vars block.stmts (bareCalls block.stmts).reverse
    (List.nodup_reverse.mpr (List.nodup_range.filter _)) (collectTerminator vars block).2 block.stmts fun _ => rfl
  have args := calls.1 j
  simp only [List.mem_reverse] at args
  exact args

theorem collectTerminator_eq (block : SsaBlock) : (collectTerminator vars block) =
    if block.terminator.isCall = true ∧ (collectStackArgs vars block.stmts block.stmts.length).1 ≠ [] then
      (match block.terminator with
        | .call target _ out next => .call target (collectStackArgs vars block.stmts block.stmts.length).1 out next
        | terminator => terminator, (collectStackArgs vars block.stmts block.stmts.length).2)
    else (block.terminator,[]) := by
  unfold collectTerminator
  cases ends : block.terminator with
  | call target args out next =>
    by_cases empty : (collectStackArgs vars block.stmts block.stmts.length).1 = []
    · simp [empty]
    · simp [empty,SsaTerminator.isCall]
  | _ => simp [SsaTerminator.isCall]

theorem mem_deleted (block : SsaBlock) (k : Nat) : k ∈ (attach vars block).2 ↔
    ∃ c, Collects block c ∧ HasPush vars block.stmts c ∧ k ∈ (collectStackArgs vars block.stmts c).2 := by
  have calls := (collect_calls vars block.stmts (bareCalls block.stmts).reverse
    (List.nodup_reverse.mpr (List.nodup_range.filter _)) (collectTerminator vars block).2 block.stmts fun _ => rfl).2 k
  refine calls.trans ?_
  rw [collectTerminator_eq]
  constructor
  · rintro (ends | ⟨si,member,some_,inside⟩)
    · split at ends
      · rename_i isCall
        exact ⟨_,.inr ⟨rfl,isCall.1⟩,(args_ne_nil _).mp isCall.2,ends⟩
      · cases ends
    · exact ⟨si,.inl (mem_bareCalls.mp (List.mem_reverse.mp member)),(args_ne_nil _).mp some_,inside⟩
  · rintro ⟨c,statement | ⟨rfl,isCall⟩,push,inside⟩
    · exact .inr ⟨c,List.mem_reverse.mpr (mem_bareCalls.mpr statement),(args_ne_nil _).mpr push,inside⟩
    · rw [if_pos ⟨isCall,(args_ne_nil _).mpr push⟩]
      exact .inl inside

theorem arguments_at {block : SsaBlock} {c : Nat} (collects : Collects block c) (push : HasPush vars block.stmts c) :
    argumentsAt (attach vars block).1 c = (collectStackArgs vars block.stmts c).1 := by
  have some_ := (args_ne_nil c).mpr push
  unfold argumentsAt
  rw [attached_stmts]
  rcases collects with ⟨target,out,found⟩ | ⟨rfl,isCall⟩
  · rw [if_pos ⟨mem_bareCalls.mpr ⟨target,out,found⟩,some_⟩,found]
    rfl
  · have outside : block.stmts[block.stmts.length]? = none := by simp
    have noCall : ¬ (block.stmts.length ∈ bareCalls block.stmts ∧
        (collectStackArgs vars block.stmts block.stmts.length).1 ≠ []) := by
      rintro ⟨member,_⟩
      obtain ⟨target,out,found⟩ := mem_bareCalls.mp member
      rw [outside] at found
      cases found
    rw [if_neg noCall,outside]
    change (match (none : Option Stmt), (collectTerminator vars block).1 with
      | some (.call _ args _), _ | none, .call _ args _ _ => args
      | _, _ => []) = _
    rw [collectTerminator_eq,if_pos ⟨isCall,some_⟩]
    cases ends : block.terminator with
    | call target args out next => rfl
    | _ => simp [ends,SsaTerminator.isCall] at isCall

theorem mem_removeAt {positions : List Nat} {stmts : List Stmt} {stmt : Stmt} :
    stmt ∈ removeAt positions stmts ↔ ∃ k, stmts[k]? = some stmt ∧ k ∉ positions := by
  unfold removeAt
  simp only [List.mem_map,List.mem_filter,List.mem_zipIdx_iff_getElem?,Prod.exists,exists_and_right,exists_eq_right,
    Bool.not_eq_true',List.contains_eq_mem,decide_eq_false_iff_not]

end Attach

section Needs

variable {ssa : SsaCfg}

theorem consumed_deleted (block : SsaBlock) (k : Nat) : k ∈ (attach ssa.vars block).2 ↔ Consumed ssa block k := by
  rw [mem_deleted]
  constructor
  · rintro ⟨c,collects,push,inside⟩
    obtain ⟨region,stmt,found,isRole⟩ := (mem_consumed c k).mp inside
    exact ⟨c,stmt,collects,push,region,found,isRole⟩
  · rintro ⟨c,stmt,collects,push,region,found,isRole⟩
    exact ⟨c,collects,push,(mem_consumed c k).mpr ⟨region,stmt,found,isRole⟩⟩

theorem passed_used {stmt : Stmt} (args : List VarId) : u ∈ (setArgs args stmt).used → u ∈ stmt.used ∨ u ∈ args := by
  cases stmt with
  | call target old out => exact .inr
  | _ => exact .inl

theorem argument_needed {bi : BlockId} {block : SsaBlock} {c : Nat} (isBlock : ssa.blocks[bi]? = some block)
    (collects : Collects block c) (argument : u ∈ (collectStackArgs ssa.vars block.stmts c).1) : Needed ssa u := by
  obtain ⟨n,found⟩ := List.mem_iff_getElem?.mp argument
  obtain ⟨k,addr,region,store,esp,_⟩ := (getElem_args c n u).mp found
  exact .argument isBlock collects region store esp

theorem remaining {block : SsaBlock} {stmt : Stmt} (member : stmt ∈ (collectBlock ssa.vars block).stmts) :
    ∃ k old, block.stmts[k]? = some old ∧ ¬ Consumed ssa block k ∧ (stmt = old ∨ k ∈ bareCalls block.stmts ∧
      stmt = setArgs (collectStackArgs ssa.vars block.stmts k).1 old) := by
  obtain ⟨k,found,kept⟩ := mem_removeAt.mp member
  rw [consumed_deleted] at kept
  rw [attached_stmts] at found
  split at found
  · rename_i collects
    obtain ⟨old,isOld,rfl⟩ := Option.map_eq_some_iff.mp found
    exact ⟨k,old,isOld,kept,.inr ⟨collects.1,rfl⟩⟩
  · exact ⟨k,stmt,found,kept,.inl rfl⟩

theorem referenced_needed (referenced : Referenced (collectCallArguments ssa) u) : Needed ssa u := by
  have original {block' : SsaBlock} (inside : block' ∈ (collectCallArguments ssa).blocks) :
      ∃ (bi : BlockId) (block : SsaBlock), ssa.blocks[bi]? = some block ∧ block' = collectBlock ssa.vars block := by
    obtain ⟨block,member,rfl⟩ := List.mem_map.mp inside
    obtain ⟨bi,found⟩ := List.mem_iff_getElem?.mp member
    exact ⟨bi,block,found,rfl⟩
  induction referenced with
  | stmt inside member used =>
    obtain ⟨bi,block,isBlock,rfl⟩ := original inside
    obtain ⟨k,old,isOld,kept,rfl | ⟨collects,rfl⟩⟩ := remaining member
    · exact .stmt isBlock isOld kept used
    · rcases passed_used _ used with used | argument
      · exact .stmt isBlock isOld kept used
      · exact argument_needed isBlock (.inl (mem_bareCalls.mp collects)) argument
  | expr inside member used =>
    obtain ⟨bi,block,isBlock,rfl⟩ := original inside
    obtain ⟨k,old,isOld,kept,rfl | ⟨_,isSet⟩⟩ := remaining member
    · exact .expr isBlock isOld kept used
    · cases old with
      | assign id =>
        obtain rfl := Stmt.assign.inj isSet
        exact .expr isBlock isOld kept used
      | _ => cases isSet
  | terminator inside used =>
    obtain ⟨bi,block,isBlock,rfl⟩ := original inside
    change _ ∈ (collectTerminator ssa.vars block).1.used at used
    rw [collectTerminator_eq] at used
    split at used
    · rename_i isCall
      cases ends : block.terminator with
      | call target args out next =>
        rw [ends] at used
        exact argument_needed isBlock (.inr ⟨rfl,isCall.1⟩) used
      | _ => simp [ends,SsaTerminator.isCall] at isCall
    · rename_i noCall
      refine .terminator isBlock used fun isCall => noCall ⟨isCall.1,(args_ne_nil _).mpr isCall.2⟩
  | chain _ used ih => exact .chain ih used

theorem kept_inside {block : SsaBlock} {k : Nat} {stmt : Stmt} (found : block.stmts[k]? = some stmt)
    (kept : ¬ Consumed ssa block k) : ∃ after ∈ (collectBlock ssa.vars block).stmts,
      after = stmt ∨ k ∈ bareCalls block.stmts ∧ after = setArgs (collectStackArgs ssa.vars block.stmts k).1 stmt := by
  have attached := @attached_stmts ssa.vars block k
  rw [found] at attached
  split_ifs at attached with collects
  · exact ⟨_,mem_removeAt.mpr ⟨k,attached,fun gone => kept ((consumed_deleted block k).mp gone)⟩,.inr ⟨collects.1,rfl⟩⟩
  · exact ⟨_,mem_removeAt.mpr ⟨k,attached,fun gone => kept ((consumed_deleted block k).mp gone)⟩,.inl rfl⟩

theorem needed_referenced (needed : Needed ssa u) : Referenced (collectCallArguments ssa) u := by
  have mapped {bi : BlockId} {block : SsaBlock} (isBlock : ssa.blocks[bi]? = some block) :
      collectBlock ssa.vars block ∈ (collectCallArguments ssa).blocks :=
    List.mem_map_of_mem (List.mem_of_getElem? isBlock)
  induction needed with
  | stmt isBlock found kept used =>
    obtain ⟨after,member,rfl | ⟨collects,rfl⟩⟩ := kept_inside found kept
    · exact .stmt (mapped isBlock) member used
    · obtain ⟨target,out,isCall⟩ := mem_bareCalls.mp collects
      rw [found] at isCall
      rw [Option.some.inj isCall] at used
      cases used
  | expr isBlock found kept used =>
    obtain ⟨after,member,rfl | ⟨_,rfl⟩⟩ := kept_inside found kept
    · exact .expr (mapped isBlock) member used
    · exact .expr (mapped isBlock) member used
  | @argument addr u bi block c k isBlock collects region store esp =>
    have argument : u ∈ (collectStackArgs ssa.vars block.stmts c).1 :=
      List.mem_of_getElem? ((getElem_args c _ u).mpr ⟨k,addr,region,store,esp,rfl⟩)
    have some_ : (collectStackArgs ssa.vars block.stmts c).1 ≠ [] := List.ne_nil_of_mem argument
    rcases collects with ⟨target,out,found⟩ | ⟨rfl,isCall⟩
    · have kept : ¬ Consumed ssa block c := by
        rintro ⟨c',stmt,_,_,region',found',_⟩
        obtain ⟨stmt',found'',isOpen⟩ := region'.2 c le_rfl region'.1
        rw [found] at found''
        obtain rfl := Option.some.inj found''
        exact isOpen rfl
      have attached := @attached_stmts ssa.vars block c
      rw [if_pos ⟨mem_bareCalls.mpr ⟨target,out,found⟩,some_⟩,found] at attached
      exact .stmt (mapped isBlock) (mem_removeAt.mpr ⟨c,attached,fun gone => kept ((consumed_deleted block c).mp gone)⟩) argument
    · refine .terminator (mapped isBlock) ?_
      change _ ∈ (collectTerminator ssa.vars block).1.used
      rw [collectTerminator_eq,if_pos ⟨isCall,some_⟩]
      cases ends : block.terminator with
      | call target args out next => exact argument
      | _ => simp [ends,SsaTerminator.isCall] at isCall
  | @terminator bi u block isBlock used noCall =>
    refine .terminator (mapped isBlock) ?_
    change _ ∈ (collectTerminator ssa.vars block).1.used
    rw [collectTerminator_eq,if_neg fun isCall => noCall ⟨isCall.1,(args_ne_nil _).mp isCall.2⟩]
    exact used
  | chain _ used ih => exact .chain ih used

theorem referenced_iff : Referenced (collectCallArguments ssa) u ↔ Needed ssa u :=
  ⟨referenced_needed,needed_referenced⟩

end Needs

section Result

variable {ssa : SsaCfg} {val : VarId → Nat} {esp : BlockId → Nat → Nat}

theorem region_push {block : SsaBlock} {c k : Nat} {addr v : VarId} (region : InRegion ssa.vars block.stmts c k)
    (store : block.stmts[k]? = some (.store addr v)) (isEsp : isEspVar ssa.vars addr = true) :
    HasPush ssa.vars block.stmts c := ⟨k,addr,v,region,store,isEsp⟩

theorem consumed_assign {block : SsaBlock} {v : VarId} {k c : Nat} (collects : Collects block c)
    (push : HasPush ssa.vars block.stmts c) (region : InRegion ssa.vars block.stmts c k)
    (found : block.stmts[k]? = some (.assign v)) (isConsumed : role ssa.vars (.assign v) = .consumed) :
    k ∈ (attach ssa.vars block).2 :=
  (consumed_deleted block k).mpr ⟨c,_,collects,push,region,found,by simp [isConsumed]⟩

theorem recovered_of_area (area : ArgumentArea val esp ssa) : Recovered val esp ssa := by
  constructor
  · intro bi block c isBlock collects push i v found
    rw [arguments_at collects push] at found
    obtain ⟨k,addr,region,store,isEsp,rfl⟩ := (getElem_args c i v).mp found
    exact ⟨k,area.slots bi block c k addr v isBlock collects region store isEsp⟩
  · intro bi block k isBlock deleted
    obtain ⟨c,stmt,collects,push,region,found,consumed⟩ := (consumed_deleted block k).mp deleted
    have isOpen : role ssa.vars stmt ≠ .stop := by
      obtain ⟨stmt',found',isOpen⟩ := region.2 k le_rfl region.1
      rw [found] at found'
      rwa [Option.some.inj found']
    cases isRole : role ssa.vars stmt with
    | argument v =>
      obtain ⟨addr,rfl,isEsp⟩ := role_argument isRole
      refine .inl ⟨c,_,v,collects,?_,area.slots bi block c k addr v isBlock collects region found isEsp⟩
      rw [arguments_at collects push]
      exact (getElem_args c _ v).mpr ⟨k,addr,region,found,isEsp,rfl⟩
    | consumed =>
      obtain ⟨v,rfl,adjusts | temporary⟩ := role_consumed isRole
      · exact .inr ⟨v,found,.inl adjusts⟩
      · refine .inr ⟨v,found,?_⟩
        cases adjusts : isEspRegister ssa.vars v with
        | true => exact .inl rfl
        | false =>
          refine .inr ⟨temporary,fun referenced => ?_⟩
          exact area.temporaries bi block c k v isBlock collects push region found isRole adjusts (referenced_iff.mp referenced)
    | passed => exact absurd isRole consumed
    | stop => exact absurd isRole isOpen

theorem area_of_recovered (distinct : ValuesDistinct ssa) (recovered : Recovered val esp ssa) :
    ArgumentArea val esp ssa := by
  constructor
  · intro bi block c k addr v isBlock collects region store isEsp
    have push := region_push region store isEsp
    obtain ⟨k',last⟩ := recovered.arguments bi block c isBlock collects push _ v (by
      rw [arguments_at collects push]
      exact (getElem_args c _ v).mpr ⟨k,addr,region,store,isEsp,rfl⟩)
    obtain ⟨addr',store',_⟩ := last.store
    obtain rfl := distinct bi block isBlock k k' addr addr' v store store'
    exact last
  · intro bi block c k v isBlock collects push region found isConsumed adjusts needed
    rcases recovered.deleted bi block k isBlock (consumed_assign collects push region found isConsumed) with
      ⟨_,_,_,_,_,last⟩ | ⟨v',found',which⟩
    · obtain ⟨addr,store,_⟩ := last.store
      rw [found] at store
      cases store
    · rw [found] at found'
      obtain rfl := Stmt.assign.inj (Option.some.inj found')
      rcases which with isEsp | ⟨_,unused⟩
      · rw [adjusts] at isEsp
        cases isEsp
      · exact unused (referenced_iff.mpr needed)

-- The arguments are recovered where the stores fill the outgoing area from its end and no temporary is needed any more,
-- and only there.
theorem collectCallArguments_recovers (val : VarId → Nat) (esp : BlockId → Nat → Nat) (ssa : SsaCfg)
    (distinct : ValuesDistinct ssa) : Recovered val esp ssa ↔ ArgumentArea val esp ssa :=
  ⟨area_of_recovered distinct,recovered_of_area⟩

end Result

section Examples

-- ESP and ESP + 4 at the call, and the values to pass.
def areaVars : List VarDef := [⟨⟨.register,16,4⟩,.unknown,none,4,false⟩,plainVar (.const 4 4) 4,
  plainVar (.binOp .add 0 1) 4,plainVar (.const 7 4) 4,plainVar (.const 9 4) 4]

def bareCall : Stmt := .call (.direct 0x402000) [] none

-- Two moves to the area in one block, and a call.
def argumentMoves (first second : Stmt) : SsaCfg where
  blocks := [⟨0x401000,[first,second,bareCall],.ret none⟩]
  vars := areaVars
  entry := 0
  diagnostics := []

def areaValue : VarId → Nat
  | 0 => 4096
  | 2 => 4100
  | _ => 0

def storeBottom : Stmt := .store 0 3

def storeTop : Stmt := .store 2 4

theorem argumentMoves_block {first second : Stmt} {bi : BlockId} {block : SsaBlock}
    (found : (argumentMoves first second).blocks[bi]? = some block) :
    block = ⟨0x401000,[first,second,bareCall],.ret none⟩ := by
  cases bi with
  | zero => exact (Option.some.inj found).symm
  | succ _ => cases found

theorem argumentMoves_store {n : Nat} {addr v : VarId} (found : [storeTop,storeBottom,bareCall][n]? = some (.store addr v)) :
    (n = 0 ∧ addr = 2 ∧ v = 4) ∨ (n = 1 ∧ addr = 0 ∧ v = 3) := by
  match n with
  | 0 =>
    obtain ⟨rfl,rfl⟩ := Stmt.store.inj (Option.some.inj found)
    exact .inl ⟨rfl,rfl,rfl⟩
  | 1 =>
    obtain ⟨rfl,rfl⟩ := Stmt.store.inj (Option.some.inj found)
    exact .inr ⟨rfl,rfl,rfl⟩
  | 2 => cases found
  | n + 3 => cases found

theorem argumentMoves_collects {first second : Stmt} {c : Nat} (firstStore : first.isCall = false)
    (secondStore : second.isCall = false)
    (collects : Collects ⟨0x401000,[first,second,bareCall],.ret none⟩ c) : c = 2 := by
  rcases collects with ⟨target,out,found⟩ | ⟨_,isCall⟩
  · match c with
    | 0 =>
      rw [Option.some.inj found] at firstStore
      cases firstStore
    | 1 =>
      rw [Option.some.inj found] at secondStore
      cases secondStore
    | 2 => rfl
    | c + 3 => cases found
  · cases isCall

theorem argumentMoves_area : ArgumentArea areaValue (fun _ _ => 4096) (argumentMoves storeTop storeBottom) := by
  constructor
  · intro bi block c k addr v isBlock collects region store isEsp
    obtain rfl := argumentMoves_block isBlock
    obtain rfl := argumentMoves_collects rfl rfl collects
    rcases argumentMoves_store store with ⟨rfl,rfl,rfl⟩ | ⟨rfl,rfl,rfl⟩
    · refine ⟨region.1,⟨2,rfl,rfl⟩,rfl,fun j addr u after before other x small y small' => ?_⟩
      obtain rfl : j = 1 := by omega
      obtain ⟨rfl,rfl⟩ := Stmt.store.inj (Option.some.inj other)
      have four : (varAt areaVars 3).size.toNat = 4 := rfl
      change x < (varAt areaVars 3).size.toNat at small
      change (4096 + x) % 2 ^ 32 ≠ (4100 + y) % 2 ^ 32
      omega
    · refine ⟨region.1,⟨0,rfl,rfl⟩,rfl,fun j addr u after before => ?_⟩
      omega
  · intro bi block c k v isBlock collects push region found
    obtain rfl := argumentMoves_block isBlock
    match k with
    | 0 => cases found
    | 1 => cases found
    | 2 => cases found
    | k + 3 => cases found

theorem argumentMoves_distinct : ValuesDistinct (argumentMoves storeTop storeBottom) := by
  intro bi block isBlock j k addr addr' v first second
  obtain rfl := argumentMoves_block isBlock
  rcases argumentMoves_store first with ⟨rfl,_,rfl⟩ | ⟨rfl,_,rfl⟩
  · rcases argumentMoves_store second with ⟨rfl,_,_⟩ | ⟨_,_,same⟩
    · rfl
    · cases same
  · rcases argumentMoves_store second with ⟨_,_,same⟩ | ⟨rfl,_,_⟩
    · cases same
    · rfl

theorem collectCallArguments_recovers_moves : ValuesDistinct (argumentMoves storeTop storeBottom) ∧
    Recovered areaValue (fun _ _ => 4096) (argumentMoves storeTop storeBottom) :=
  ⟨argumentMoves_distinct,(collectCallArguments_recovers _ _ _ argumentMoves_distinct).mpr argumentMoves_area⟩

-- Moves in the order of the slots are passed in the wrong order.
theorem forwardMoves_mismatch : ¬ Recovered areaValue (fun _ _ => 4096) (argumentMoves storeBottom storeTop) := by
  intro recovered
  obtain ⟨k,last⟩ := recovered.arguments 0 _ 2 rfl (.inl ⟨_,_,rfl⟩) ((args_ne_nil 2).mp (by decide)) 0 4 (by decide)
  obtain ⟨addr,store,word⟩ := last.store
  match k with
  | 0 => cases store
  | 1 =>
    obtain ⟨rfl,_⟩ := Stmt.store.inj (Option.some.inj store)
    cases word
  | 2 => cases store
  | k + 3 => cases store

end Examples

end Rsleigh.Decompile.CallArguments
