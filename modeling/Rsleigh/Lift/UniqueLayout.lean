import Mathlib.Algebra.BigOperators.Group.List.Basic
import Rsleigh.Pcode.Op

namespace Rsleigh.Lift

open Rsleigh.Pcode

-- What stands in a constructor body: an op of its own, or an explicit `build`.
inductive Statement where
  | op (op : PcodeOp)
  | build (subtable : Nat)
deriving DecidableEq, Repr

-- A constructor of the decoded instruction. The temporaries of its own ops are
-- numbered from zero.
inductive Constructor where
  | node (body : List Statement) (subtables : List Constructor)

def uniqueBase (instStart : UInt64) (numFields : Nat) : UInt64 :=
  (instStart <<< 16) + (UInt64.ofNat numFields * 2 + 2) * 0x10000

def subtableOffset (idx : Nat) : UInt64 := (UInt64.ofNat idx + 1) * 0x10000

-- Every varnode of an op, the output of a CallOther included.
def mapVarnodes (f : Varnode → Varnode) : PcodeOp → PcodeOp
  | .callOther out funcId inputs => .callOther (out.map f) funcId (inputs.map f)
  | op => mapReads f (mapOutput f op)

-- An emitted op, under the path of the node that created it.
abbrev Emitted := List Nat × PcodeOp

def remap (idx : Nat) (ops : List Emitted) : List Emitted :=
  ops.map fun entry => (idx :: entry.1,offsetUniqueVarnodes entry.2 (subtableOffset idx))

def explicitlyBuilt (body : List Statement) (idx : Nat) : Bool := body.contains (.build idx)

-- The subtables without a `build` run first, then the body.
def assemble (base : UInt64) (body : List Statement) (cache : List (List Emitted)) : List Emitted :=
  (cache.zipIdx.filter fun entry => !explicitlyBuilt body entry.2).flatMap (·.1) ++
    body.flatMap fun statement =>
      match statement with
      | .op op => [([],mapVarnodes (offsetUnique base) op)]
      | .build idx => cache.getD idx []

mutual

def lift (instStart : UInt64) : Constructor → List Emitted
  | .node body subtables =>
    assemble (uniqueBase instStart subtables.length) body (liftSubtables instStart 0 subtables)

def liftSubtables (instStart : UInt64) : Nat → List Constructor → List (List Emitted)
  | _,[] => []
  | idx,t :: ts => remap idx (lift instStart t) :: liftSubtables instStart (idx + 1) ts

end

-- The op is one of the node at this path, which has numFields subtables.
inductive Created : Constructor → List Nat → Nat → PcodeOp → Prop where
  | own (member : .op op ∈ body) : Created (.node body subtables) [] subtables.length op
  | inside (field : subtables[idx]? = some t) (created : Created t path numFields op) :
      Created (.node body subtables) (idx :: path) numFields op

-- The shifts applied on the way to the root, in units of 0x10000 and as offsets.
def pathSlots : List Nat → Nat
  | [] => 0
  | idx :: path => pathSlots path + (idx + 1)

def pathOffset : List Nat → UInt64
  | [] => 0
  | idx :: path => pathOffset path + subtableOffset idx

-- A varnode of an op, and whether the remapping of subtables reaches it.
inductive Occurs : PcodeOp → Varnode → Bool → Prop where
  | read (member : v ∈ reads op) : Occurs op v true
  | output (output : getOutput op = some v) : Occurs op v true
  | callOther : Occurs (.callOther (some v) funcId inputs) v false

-- Where the temporaries of a node start, in units of 0x10000.
def slot (numFields : Nat) (path : List Nat) (remapped : Bool) : Nat :=
  2 * numFields + 2 + if remapped then pathSlots path else 0

-- Temporaries of different nodes have different offsets.
def Separate (ops : List Emitted) : Prop :=
  ∀ entry ∈ ops, ∀ entry' ∈ ops, entry.1 ≠ entry'.1 → ∀ v ∈ varnodes entry.2, ∀ w ∈ varnodes entry'.2,
    v.space = .unique → w.space = .unique → v.offset ≠ w.offset

-- Temporaries of different nodes with one number start in different slots.
def Spread (t : Constructor) : Prop :=
  ∀ path numFields op path' numFields' op', Created t path numFields op → Created t path' numFields' op' →
    path ≠ path' → ∀ v remapped w remapped', Occurs op v remapped → Occurs op' w remapped' →
    v.space = .unique → w.space = .unique → v.offset = w.offset →
    slot numFields path remapped % 2 ^ 48 ≠ slot numFields' path' remapped' % 2 ^ 48

-- Every node uses fewer than 0x8000 bytes of temporaries.
def Small (t : Constructor) : Prop :=
  ∀ path numFields op, Created t path numFields op → ∀ v remapped, Occurs op v remapped →
    v.space = .unique → v.offset.toNat < 0x8000

theorem liftSubtables_get (instStart : UInt64) (start : Nat) (ts : List Constructor) (i : Nat) :
    (liftSubtables instStart start ts)[i]? = (ts[i]?).map fun t => remap (start + i) (lift instStart t) := by
  induction ts generalizing start i with
  | nil => simp [liftSubtables]
  | cons t ts ih =>
    rw [liftSubtables]
    cases i with
    | zero => simp
    | succ i =>
      rw [List.getElem?_cons_succ,List.getElem?_cons_succ,ih,show start + 1 + i = start + (i + 1) by omega]

theorem mem_assemble : entry ∈ assemble base body cache ↔
    (∃ op, .op op ∈ body ∧ entry = ([],mapVarnodes (offsetUnique base) op)) ∨
      ∃ (idx : Nat) (ops : List Emitted), cache[idx]? = some ops ∧ entry ∈ ops := by
  simp only [assemble,List.mem_append,List.mem_flatMap,List.mem_filter]
  constructor
  · rintro (⟨⟨ops,idx⟩,⟨cached,-⟩,member⟩ | ⟨statement,inside,member⟩)
    · exact .inr ⟨idx,ops,List.mk_mem_zipIdx_iff_getElem?.mp cached,member⟩
    · cases statement with
      | op op => exact .inl ⟨op,inside,List.mem_singleton.mp member⟩
      | build idx =>
        cases cached : cache[idx]? with
        | none => simp [List.getD,cached] at member
        | some ops => exact .inr ⟨idx,ops,cached,by simpa [List.getD,cached] using member⟩
  · rintro (⟨op,inside,rfl⟩ | ⟨idx,ops,cached,member⟩)
    · exact .inr ⟨.op op,inside,List.mem_singleton.mpr rfl⟩
    · cases built : explicitlyBuilt body idx with
      | false => exact .inl ⟨(ops,idx),⟨List.mk_mem_zipIdx_iff_getElem?.mpr cached,by simp [built]⟩,member⟩
      | true =>
        refine .inr ⟨.build idx,by simpa [explicitlyBuilt] using built,?_⟩
        simpa [List.getD,cached] using member

theorem mem_lift : entry ∈ lift instStart (.node body subtables) ↔
    (∃ op, .op op ∈ body ∧
      entry = ([],mapVarnodes (offsetUnique (uniqueBase instStart subtables.length)) op)) ∨
      ∃ idx t path op, subtables[idx]? = some t ∧ (path,op) ∈ lift instStart t ∧
        entry = (idx :: path,offsetUniqueVarnodes op (subtableOffset idx)) := by
  rw [lift,mem_assemble]
  refine or_congr Iff.rfl ⟨?_,?_⟩
  · rintro ⟨idx,ops,cached,member⟩
    rw [liftSubtables_get,Option.map_eq_some_iff] at cached
    obtain ⟨t,field,rfl⟩ := cached
    obtain ⟨⟨path,op⟩,inside,rfl⟩ := List.mem_map.mp member
    exact ⟨idx,t,path,op,field,inside,by simp⟩
  · rintro ⟨idx,t,path,op,field,inside,rfl⟩
    refine ⟨idx,remap idx (lift instStart t),?_,List.mem_map.mpr ⟨(path,op),inside,rfl⟩⟩
    rw [liftSubtables_get,field]
    simp

theorem offsetUnique_space (offset : UInt64) (v : Varnode) : (offsetUnique offset v).space = v.space := by
  unfold offsetUnique
  split <;> rfl

theorem offsetUnique_add (a b : UInt64) (v : Varnode) :
    offsetUnique b (offsetUnique a v) = offsetUnique (a + b) v := by
  by_cases temporary : v.space = .unique
  · simp [offsetUnique,temporary,UInt64.add_assoc]
  · simp [offsetUnique,temporary]

theorem offsetUnique_zero (v : Varnode) : offsetUnique 0 v = v := by
  unfold offsetUnique
  split <;> simp

theorem offsetUniqueVarnodes_zero (op : PcodeOp) : offsetUniqueVarnodes op 0 = op := by
  have same : offsetUnique 0 = id := funext offsetUnique_zero
  rw [offsetUniqueVarnodes,same,mapReads_id]
  cases op <;> rfl

theorem offsetUniqueVarnodes_add (op : PcodeOp) (a b : UInt64) :
    offsetUniqueVarnodes (offsetUniqueVarnodes op a) b = offsetUniqueVarnodes op (a + b) := by
  cases op <;> simp [offsetUniqueVarnodes,mapReads,mapOutput,offsetUnique_add]

theorem lift_created (instStart : UInt64) (t : Constructor) (path : List Nat) (op : PcodeOp) :
    (path,op) ∈ lift instStart t ↔ ∃ numFields own, Created t path numFields own ∧
      op = offsetUniqueVarnodes (mapVarnodes (offsetUnique (uniqueBase instStart numFields)) own) (pathOffset path) := by
  induction path generalizing t op with
  | nil =>
    obtain ⟨body,subtables⟩ := t
    rw [mem_lift]
    constructor
    · rintro (⟨own,member,equal⟩ | ⟨_,_,_,_,_,_,equal⟩)
      · obtain ⟨-,rfl⟩ := Prod.mk.inj equal
        exact ⟨_,own,.own member,(offsetUniqueVarnodes_zero _).symm⟩
      · simp at equal
    · rintro ⟨_,own,created,rfl⟩
      cases created with
      | own member => exact .inl ⟨own,member,by rw [pathOffset,offsetUniqueVarnodes_zero]⟩
  | cons idx path ih =>
    obtain ⟨body,subtables⟩ := t
    rw [mem_lift]
    constructor
    · rintro (⟨_,_,equal⟩ | ⟨idx',t,path',op',field,inside,equal⟩)
      · simp at equal
      · obtain ⟨paths,rfl⟩ := Prod.mk.inj equal
        obtain ⟨rfl,rfl⟩ := List.cons.inj paths
        obtain ⟨numFields,own,created,rfl⟩ := (ih t op').mp inside
        exact ⟨numFields,own,.inside field created,by rw [offsetUniqueVarnodes_add,pathOffset]⟩
    · rintro ⟨numFields,own,created,rfl⟩
      cases created with
      | inside field created =>
        refine .inr ⟨idx,_,path,_,field,(ih _ _).mpr ⟨numFields,own,created,rfl⟩,?_⟩
        rw [offsetUniqueVarnodes_add,pathOffset]

def isCallOther : PcodeOp → Bool
  | .callOther _ _ _ => true
  | _ => false

theorem varnodes_direct (direct : isCallOther own = false) (base offset : UInt64) :
    varnodes (offsetUniqueVarnodes (mapVarnodes (offsetUnique base) own) offset) =
      (reads own ++ (getOutput own).toList).map (offsetUnique (base + offset)) := by
  cases own <;> simp_all [isCallOther,varnodes,offsetUniqueVarnodes,mapVarnodes,mapReads,mapOutput,reads,writes,
    getOutput,offsetUnique_add]

theorem occurs_direct (direct : isCallOther own = false) :
    Occurs own v remapped ↔ remapped = true ∧ v ∈ reads own ++ (getOutput own).toList := by
  constructor
  · rintro (member | output | _)
    · exact ⟨rfl,List.mem_append_left _ member⟩
    · exact ⟨rfl,List.mem_append_right _ (by simp [output])⟩
    · cases direct
  · rintro ⟨rfl,member⟩
    rcases List.mem_append.mp member with read | output
    · exact .read read
    · exact .output (by simpa using output)

theorem occurs_callOther : Occurs (.callOther out funcId inputs) v remapped ↔
    (remapped = true ∧ v ∈ inputs) ∨ (remapped = false ∧ out = some v) := by
  constructor
  · rintro (member | output | _)
    · exact .inl ⟨rfl,member⟩
    · cases output
    · exact .inr ⟨rfl,rfl⟩
  · rintro (⟨rfl,member⟩ | ⟨rfl,rfl⟩)
    · exact .read member
    · exact .callOther

-- The varnodes of an op once it has been placed and remapped: the output of a
-- CallOther stays where the node put it.
theorem varnodes_placed (base offset : UInt64) (own : PcodeOp) (w : Varnode) :
    w ∈ varnodes (offsetUniqueVarnodes (mapVarnodes (offsetUnique base) own) offset) ↔
      ∃ v remapped, Occurs own v remapped ∧ w = offsetUnique (base + if remapped then offset else 0) v := by
  cases call : isCallOther own with
  | false =>
    rw [varnodes_direct call,List.mem_map]
    constructor
    · rintro ⟨v,member,rfl⟩
      exact ⟨v,true,(occurs_direct call).mpr ⟨rfl,member⟩,rfl⟩
    · rintro ⟨v,remapped,occurs,rfl⟩
      obtain ⟨rfl,member⟩ := (occurs_direct call).mp occurs
      exact ⟨v,member,rfl⟩
  | true =>
    obtain ⟨out,funcId,inputs,rfl⟩ : ∃ out funcId inputs, own = .callOther out funcId inputs := by
      cases own <;> simp_all [isCallOther]
    have members : w ∈ varnodes (offsetUniqueVarnodes
        (mapVarnodes (offsetUnique base) (.callOther out funcId inputs)) offset) ↔
        (∃ v ∈ inputs, offsetUnique (base + offset) v = w) ∨ ∃ v, out = some v ∧ offsetUnique base v = w := by
      simp [varnodes,offsetUniqueVarnodes,mapVarnodes,mapReads,mapOutput,reads,writes,offsetUnique_add]
    rw [members]
    constructor
    · rintro (⟨v,member,rfl⟩ | ⟨v,output,rfl⟩)
      · exact ⟨v,true,occurs_callOther.mpr (.inl ⟨rfl,member⟩),rfl⟩
      · exact ⟨v,false,occurs_callOther.mpr (.inr ⟨rfl,output⟩),by simp⟩
    · rintro ⟨v,remapped,occurs,rfl⟩
      rcases occurs_callOther.mp occurs with ⟨rfl,member⟩ | ⟨rfl,output⟩
      · exact .inl ⟨v,member,rfl⟩
      · exact .inr ⟨v,output,by simp⟩

theorem subtableOffset_eq (idx : Nat) : subtableOffset idx = UInt64.ofNat ((idx + 1) * 0x10000) := by
  simp [subtableOffset]

theorem pathOffset_eq (path : List Nat) : pathOffset path = UInt64.ofNat (pathSlots path * 0x10000) := by
  induction path with
  | nil => rfl
  | cons idx path ih =>
    rw [pathOffset,pathSlots,ih,subtableOffset_eq,← UInt64.ofNat_add,← Nat.add_mul]

theorem base_slot (instStart : UInt64) (numFields : Nat) (path : List Nat) (remapped : Bool) :
    uniqueBase instStart numFields + (if remapped then pathOffset path else 0) =
      (instStart <<< 16) + UInt64.ofNat (slot numFields path remapped * 0x10000) := by
  have base : uniqueBase instStart numFields = (instStart <<< 16) + UInt64.ofNat ((2 * numFields + 2) * 0x10000) := by
    simp [uniqueBase,Nat.mul_comm]
  cases remapped with
  | false => simp [base,slot]
  | true => rw [if_pos rfl,base,pathOffset_eq,UInt64.add_assoc,← UInt64.ofNat_add,← Nat.add_mul,slot,if_pos rfl]

theorem offsets_meet (start : UInt64) (k l : Nat) (c d : UInt64) (smallC : c.toNat < 0x8000) (smallD : d.toNat < 0x8000) :
    c + (start + UInt64.ofNat (k * 0x10000)) = d + (start + UInt64.ofNat (l * 0x10000)) ↔
      k % 2 ^ 48 = l % 2 ^ 48 ∧ c = d := by
  have bound := start.toNat_lt
  rw [← UInt64.toNat_inj,← UInt64.toNat_inj,UInt64.toNat_add,UInt64.toNat_add,UInt64.toNat_add,UInt64.toNat_add,
    UInt64.toNat_ofNat',UInt64.toNat_ofNat']
  omega

theorem placed_offset {v : Varnode} (temporary : v.space = .unique) (instStart : UInt64) (numFields : Nat)
    (path : List Nat) (remapped : Bool) :
    (offsetUnique (uniqueBase instStart numFields + if remapped then pathOffset path else 0) v).offset =
      v.offset + ((instStart <<< 16) + UInt64.ofNat (slot numFields path remapped * 0x10000)) := by
  rw [base_slot,offsetUnique,if_pos temporary]

-- The layout is free of collisions exactly when the tree keeps its slots apart.
theorem lift_separate_iff (instStart : UInt64) (t : Constructor) (small : Small t) :
    Separate (lift instStart t) ↔ Spread t := by
  constructor
  · intro separate path numFields op path' numFields' op' created created' differ v remapped w remapped' occurs
      occurs' temporary temporary' number slots
    have here := (lift_created instStart t path _).mpr ⟨numFields,op,created,rfl⟩
    have there := (lift_created instStart t path' _).mpr ⟨numFields',op',created',rfl⟩
    have member := (varnodes_placed (uniqueBase instStart numFields) (pathOffset path) op _).mpr
      ⟨v,remapped,occurs,rfl⟩
    have member' := (varnodes_placed (uniqueBase instStart numFields') (pathOffset path') op' _).mpr
      ⟨w,remapped',occurs',rfl⟩
    refine separate _ here _ there differ _ member _ member' ?_ ?_ ?_
    · rw [offsetUnique_space,temporary]
    · rw [offsetUnique_space,temporary']
    · rw [placed_offset temporary,placed_offset temporary',offsets_meet _ _ _ _ _
        (small path numFields op created v remapped occurs temporary)
        (small path' numFields' op' created' w remapped' occurs' temporary')]
      exact ⟨slots,number⟩
  · rintro spread ⟨path,placed⟩ here ⟨path',placed'⟩ there differ v' member w' member' shared shared' meet
    obtain ⟨numFields,op,created,rfl⟩ := (lift_created instStart t path placed).mp here
    obtain ⟨numFields',op',created',rfl⟩ := (lift_created instStart t path' placed').mp there
    obtain ⟨v,remapped,occurs,rfl⟩ := (varnodes_placed _ _ _ _).mp member
    obtain ⟨w,remapped',occurs',rfl⟩ := (varnodes_placed _ _ _ _).mp member'
    have temporary : v.space = .unique := (offsetUnique_space _ v).symm.trans shared
    have temporary' : w.space = .unique := (offsetUnique_space _ w).symm.trans shared'
    rw [placed_offset temporary,placed_offset temporary',offsets_meet _ _ _ _ _
      (small path numFields op created v remapped occurs temporary)
      (small path' numFields' op' created' w remapped' occurs' temporary')] at meet
    exact spread path numFields op path' numFields' op' created created' differ v remapped w remapped' occurs
      occurs' temporary temporary' meet.2 meet.1

theorem occurs_mem (occurs : Occurs op v remapped) : v ∈ varnodes op := by
  cases occurs with
  | read member => exact List.mem_append_left _ member
  | output output => exact List.mem_append_right _ (by simp [writes_of_output output])
  | callOther => simp [varnodes,writes]

def smallBody (body : List Statement) : Bool :=
  body.all fun statement =>
    match statement with
    | .op op => (varnodes op).all fun v => v.space != .unique || v.offset.toNat < 0x8000
    | .build _ => true

theorem Small.node (own : smallBody body = true) (inside : ∀ t ∈ subtables, Small t) : Small (.node body subtables) := by
  intro path numFields op created v remapped occurs temporary
  cases created with
  | own member =>
    have checked := List.all_eq_true.mp own _ member
    simpa [temporary] using List.all_eq_true.mp checked v (occurs_mem occurs)
  | inside field created =>
    exact inside _ (List.mem_of_getElem? field) _ numFields op created v remapped occurs temporary

def leaf (offset : UInt64) : Constructor := .node [.op (.copy (.unique 0 8) (.register offset 8))] []

theorem leaf_small (offset : UInt64) : Small (leaf offset) :=
  .node (by simp [smallBody,varnodes,reads,writes,getOutput,Varnode.unique,Varnode.register]) (by simp)

-- One subtable field and one temporary in each node: the slots are 4 and 3.
def oneField : Constructor := .node [.op (.copy (.unique 0 8) (.register 0 8))] [leaf 8]

theorem oneField_small : Small oneField := .node (by decide) (by simp [leaf_small])

theorem oneField_spread : Spread oneField :=
  (lift_separate_iff 0x1000 oneField oneField_small).mp (by unfold Separate; decide +kernel)

-- Two subtable fields, the second with one subtable field of its own: the parent
-- starts at slot 6 and the second child at slot 4, moved by 2.
def twoFields : Constructor :=
  .node [.op (.copy (.unique 0 8) (.register 0 8))]
    [leaf 8,.node [.op (.copy (.unique 0 8) (.register 16 8))] [leaf 24]]

theorem twoFields_small : Small twoFields := by
  have child : Small (.node [.op (.copy (.unique 0 8) (.register 16 8))] [leaf 24]) :=
    .node (by decide) (by simp [leaf_small])
  exact .node (by decide) (by simp [leaf_small,child])

theorem twoFields_collide : ¬ ∀ (instStart : UInt64) (t : Constructor), Small t → Separate (lift instStart t) := by
  intro claim
  have separate := claim 0x1000 twoFields twoFields_small
  unfold Separate at separate
  revert separate
  decide +kernel

end Rsleigh.Lift
