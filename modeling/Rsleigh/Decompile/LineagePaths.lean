import Rsleigh.Decompile.LineageKeys

namespace Rsleigh.Decompile.Lineage

open Pcode Regions TaintPaths Collect

section Paths

-- The value of the last store to an address of a kind.
def LastIn (events : List TaintEvent) (wanted : VarId → Prop) (val : VarId) : Prop :=
  ∃ before n addr after, events = before ++ ⟨n,.store addr val⟩ :: after ∧ wanted addr ∧
    ∀ n' addr' val', ⟨n',.store addr' val'⟩ ∈ after → ¬ wanted addr'

theorem lastIn_nil : ¬ LastIn [] wanted val := by
  rintro ⟨before,n,addr,after,split,_,_⟩
  cases before <;> cases split

theorem lastIn_append (events : List TaintEvent) (event : TaintEvent) : LastIn (events ++ [event]) wanted val ↔
    (∃ n addr, event = ⟨n,.store addr val⟩ ∧ wanted addr) ∨
      LastIn events wanted val ∧ ∀ n addr val', event = ⟨n,.store addr val'⟩ → ¬ wanted addr := by
  constructor
  · rintro ⟨before,n,addr,after,split,isWanted,last⟩
    rcases List.eq_nil_or_concat after with rfl | ⟨after,final,rfl⟩
    · obtain ⟨_,same⟩ := List.append_inj' split rfl
      exact .inl ⟨n,addr,List.head_eq_of_cons_eq same,isWanted⟩
    · rw [List.concat_eq_append,← List.cons_append,← List.append_assoc] at split
      obtain ⟨rest,same⟩ := List.append_inj' split rfl
      obtain rfl := List.head_eq_of_cons_eq same
      refine .inr ⟨⟨before,n,addr,after,rest,isWanted,?_⟩,?_⟩
      · intro n' addr' val' member
        exact last n' addr' val' (by simp [member])
      · intro n' addr' val' isStore
        exact last n' addr' val' (by simp [isStore])
  · rintro (⟨n,addr,rfl,isWanted⟩ | ⟨⟨before,n,addr,after,rfl,isWanted,last⟩,passed⟩)
    · exact ⟨events,n,addr,[],rfl,isWanted,by simp⟩
    · refine ⟨before,n,addr,after ++ [event],by simp,isWanted,?_⟩
      intro n' addr' val' member
      rcases List.mem_append.mp member with inside | isLast
      · exact last n' addr' val' inside
      · exact passed n' addr' val' (List.mem_singleton.mp isLast).symm

theorem lastIn_congr (same : ∀ n addr val, ⟨n,.store addr val⟩ ∈ events → (wanted addr ↔ wanted' addr)) :
    LastIn events wanted val ↔ LastIn events wanted' val := by
  constructor
  · rintro ⟨before,n,addr,after,rfl,isWanted,last⟩
    refine ⟨before,n,addr,after,rfl,(same n addr val (by simp)).mp isWanted,?_⟩
    intro n' addr' val' member isWanted'
    exact last n' addr' val' member ((same n' addr' val' (by simp [member])).mpr isWanted')
  · rintro ⟨before,n,addr,after,rfl,isWanted,last⟩
    refine ⟨before,n,addr,after,rfl,(same n addr val (by simp)).mpr isWanted,?_⟩
    intro n' addr' val' member isWanted'
    exact last n' addr' val' member ((same n' addr' val' (by simp [member])).mp isWanted')

theorem memMap_last (ssa : SsaCfg) (params : VarId → Option UInt8) (events : List TaintEvent) (key : MemKey) (val : VarId) :
    buildMemMap ssa params events key = some val ↔ LastIn events (fun addr => memKey ssa params addr = key) val := by
  induction events using List.reverseRecOn with
  | nil => simp [buildMemMap,lastIn_nil]
  | append_singleton events event ih =>
    have step : buildMemMap ssa params (events ++ [event]) = insertStore ssa params (buildMemMap ssa params events) event := by
      unfold buildMemMap
      rw [List.foldl_append]
      rfl
    rw [lastIn_append,← ih,step]
    obtain ⟨n,kind⟩ := event
    cases kind with
    | store addr stored =>
      by_cases same : memKey ssa params addr = key
      · simp [insertStore,same]
      · simp [insertStore,same,Function.update_of_ne (Ne.symm same)]
    | _ => simp [insertStore]

variable (ssa : SsaCfg) (params : VarId → Option UInt8) (sp : VarId) (path : TaintPath)

def StoreOn (addr val : VarId) : Prop := ∃ n, ⟨n,.store addr val⟩ ∈ path.events

-- A load is on a path where its variable is assigned.
def LoadAt (place : Nat) (v addr : VarId) : Prop :=
  (∃ n, path.events[place]? = some ⟨n,.assign v⟩) ∧ HasExpr ssa.vars v (.load addr)

def Used (addr : VarId) : Prop := (∃ val, StoreOn path addr val) ∨ ∃ place v, LoadAt ssa path place v addr

-- The value of the last store to a location before a place of the path.
def StoredBefore (place : Nat) (b : Base) (d : UInt64) (val : VarId) : Prop :=
  LastIn (path.events.take place) (fun addr => Address ssa.vars params sp addr b d) val

-- What the walk of the check goes on at.
def next (v : VarId) : List VarId := chainNext ssa params (buildMemMap ssa params path.events) (fun _ => false) v

-- The value that the sink watches was loaded from a slot that held the tainted value of the source.
structure FromSlot (src snk : VarId) : Prop where
  source : sourceVar path = some src
  sink : sinkVar path = some snk
  small : Small 64 (next ssa params path) snk
  loaded : ∃ place addr b d, LoadAt ssa path place snk addr ∧ Address ssa.vars params sp addr b d ∧
    StoredBefore ssa params sp path place b d src

-- The lineage of a path through memory: addresses have one key where they are one location, the walk visits all that a
-- variable comes from, at a load it goes on at the value of the last store to the location before it and at no other
-- one, and no sink of a slot with the tainted value is passed over.
structure Faithful : Prop where
  keyed : ∀ v w b b' d d', Used ssa path v → Used ssa path w → Address ssa.vars params sp v b d →
    Address ssa.vars params sp w b' d' → (memKey ssa params v = memKey ssa params w ↔ b = b' ∧ d = d')
  visits : ∀ start, Small 64 (next ssa params path) start → ∀ key,
    key ∈ chainVarnodes ssa params (buildMemMap ssa params path.events) start ↔
      ∃ node, Cone (next ssa params path) start node ∧ key ∈ aliasKeys ssa params node
  reads : ∀ place v addr b d, LoadAt ssa path place v addr → Address ssa.vars params sp addr b d → ∀ val,
    loadNext ssa params (buildMemMap ssa params path.events) addr = some val ↔ StoredBefore ssa params sp path place b d val
  reported : ∀ src snk, FromSlot ssa params sp path src snk → lineageOk ssa params path src snk = true

-- The addresses of the path are flat.
structure FlatPath (inRam : Bool) : Prop where
  stores : ∀ addr val, StoreOn path addr val → ∃ b d, Flat ssa.vars params sp inRam addr b d
  loads : ∀ place v addr, LoadAt ssa path place v addr → ∃ b d, Flat ssa.vars params sp inRam addr b d

-- What a location holds when it is loaded is what it holds at the end of the path.
def Kept : Prop :=
  ∀ place v addr b d, LoadAt ssa path place v addr → Address ssa.vars params sp addr b d → ∀ val,
    LastIn path.events (fun other => Address ssa.vars params sp other b d) val ↔ StoredBefore ssa params sp path place b d val

-- The tainted value of a source comes from a variable that has an alias key.
def Emits : Prop :=
  ∀ src snk, FromSlot ssa params sp path src snk → src = snk ∨
    ∃ node key, Cone (next ssa params path) src node ∧ key ∈ aliasKeys ssa params node

variable {ssa params sp path} {inRam : Bool}

theorem used_flat (flat : FlatPath ssa params sp path inRam) (used : Used ssa path addr) :
    ∃ b d, Flat ssa.vars params sp inRam addr b d := by
  rcases used with ⟨val,isStore⟩ | ⟨place,v,isLoad⟩
  · exact flat.stores addr val isStore
  · exact flat.loads place v addr isLoad

theorem flat_keyed (flat : FlatPath ssa params sp path inRam) (first : Used ssa path v) (second : Used ssa path w)
    (address : Address ssa.vars params sp v b d) (address' : Address ssa.vars params sp w b' d') :
    memKey ssa params v = memKey ssa params w ↔ b = b' ∧ d = d' := by
  obtain ⟨_,_,isFlat⟩ := used_flat flat first
  obtain ⟨_,_,isFlat'⟩ := used_flat flat second
  obtain ⟨rfl,rfl⟩ := address_unique (flat_address isFlat) address
  obtain ⟨rfl,rfl⟩ := address_unique (flat_address isFlat') address'
  exact flat_keys isFlat isFlat'

theorem flat_loadNext (flat : FlatPath ssa params sp path inRam) (isLoad : LoadAt ssa path place v addr)
    (address : Address ssa.vars params sp addr b d) (val : VarId) :
    loadNext ssa params (buildMemMap ssa params path.events) addr = some val ↔
      LastIn path.events (fun other => Address ssa.vars params sp other b d) val := by
  have usedLoad : Used ssa path addr := .inr ⟨place,v,isLoad⟩
  have sameLast (val : VarId) : LastIn path.events (fun other => memKey ssa params other = memKey ssa params addr) val ↔
      LastIn path.events (fun other => Address ssa.vars params sp other b d) val := by
    apply lastIn_congr
    intro n other stored member
    have usedStore : Used ssa path other := .inl ⟨stored,n,member⟩
    obtain ⟨b',d',isFlat⟩ := used_flat flat usedStore
    rw [flat_keyed flat usedStore usedLoad (flat_address isFlat) address]
    constructor
    · rintro ⟨rfl,rfl⟩
      exact flat_address isFlat
    · exact address_unique (flat_address isFlat)
  rw [← sameLast,← memMap_last]
  unfold loadNext
  cases found : buildMemMap ssa params path.events (memKey ssa params addr) with
  | some stored => rfl
  | none =>
    simp only [reduceCtorEq,iff_false]
    intro symbolic
    -- no flat address has a symbolic offset
    obtain ⟨before,n,other,after,split,sameKey,_⟩ := (memMap_last ssa params path.events _ val).mp symbolic
    have usedStore : Used ssa path other := .inl ⟨val,n,by rw [split]; simp⟩
    obtain ⟨b',d',isFlat⟩ := used_flat flat usedStore
    rw [flat_key isFlat] at sameKey
    exact absurd (Prod.mk.inj sameKey).2 (by simp)

theorem mem_next (isExpr : HasExpr ssa.vars v expr)
    (member : w ∈ exprNext ssa params (buildMemMap ssa params path.events) expr) : w ∈ next ssa params path v := by
  obtain ⟨d,isVar,rfl⟩ := isExpr
  unfold next chainNext
  simp [isVar,member]

theorem chain_visits {start : VarId} (small : Small 64 (next ssa params path) start) (key : AliasKey) :
    key ∈ chainVarnodes ssa params (buildMemMap ssa params path.events) start ↔
      ∃ node, Cone (next ssa params path) start node ∧ key ∈ aliasKeys ssa params node :=
  collect_cone small key

theorem lineageEq_iff (a b : VarId) (mem : MemKey → Option VarId) : varidLineageEq ssa params mem a b = true ↔
    a = b ∨ ∃ key, key ∈ chainVarnodes ssa params mem a ∧ key ∈ chainVarnodes ssa params mem b := by
  unfold varidLineageEq
  by_cases same : a = b
  · simp [same]
  · simp [same]

theorem fromSlot_cone (fromSlot : FromSlot ssa params sp path src snk)
    (reads : ∀ place v addr b d, LoadAt ssa path place v addr → Address ssa.vars params sp addr b d → ∀ val,
      loadNext ssa params (buildMemMap ssa params path.events) addr = some val ↔
        StoredBefore ssa params sp path place b d val) : Cone (next ssa params path) snk src := by
  obtain ⟨place,addr,b,d,isLoad,address,stored⟩ := fromSlot.loaded
  have goesOn := (reads place snk addr b d isLoad address src).mpr stored
  refine Relation.ReflTransGen.single (mem_next isLoad.2 ?_)
  simp [exprNext,goesOn]

-- A region that is no unknown one is an alias key of each variable that lies in it.
theorem region_emitted {site : Option AllocSite} {offset : OffsetClass}
    (isKey : .region site offset ∈ aliasKeys ssa params node) (same : regionOf ssa params src = site) :
    ∃ key, key ∈ aliasKeys ssa params src := by
  have known : ∃ known, site = some known ∧ ∀ other, known ≠ .unknown other := by
    unfold aliasKeys at isKey
    split at isKey
    · rcases List.mem_append.mp isKey with isVarnode | isRegion
      · split at isVarnode
        · cases List.mem_singleton.mp isVarnode
        · cases isVarnode
      · split at isRegion
        · cases isRegion
        · cases isRegion
        · rename_i notUnknown notNone
          obtain ⟨isSite,_⟩ := AliasKey.region.inj (List.mem_singleton.mp isRegion)
          cases found : regionOf ssa params node with
          | none => exact (notNone found).elim
          | some known =>
            refine ⟨known,isSite.trans found,?_⟩
            intro other isOther
            exact notUnknown other (isOther ▸ found)
    · cases isKey
  obtain ⟨known,rfl,notUnknown⟩ := known
  have inRange : src < ssa.vars.length := by
    by_contra outside
    unfold regionOf at same
    rw [if_neg outside] at same
    cases same
  refine ⟨.region (some known) (classifyOffset ssa.vars src),?_⟩
  unfold aliasKeys
  rw [List.getElem?_eq_getElem inRange,same]
  simp only
  apply List.mem_append_right
  cases known with
  | unknown other => exact absurd rfl (notUnknown other)
  | _ => exact List.mem_singleton_self _

theorem emits_ok (reads : ∀ place v addr b d, LoadAt ssa path place v addr → Address ssa.vars params sp addr b d → ∀ val,
      loadNext ssa params (buildMemMap ssa params path.events) addr = some val ↔
        StoredBefore ssa params sp path place b d val) (fromSlot : FromSlot ssa params sp path src snk)
    (emits : src = snk ∨ ∃ node key, Cone (next ssa params path) src node ∧ key ∈ aliasKeys ssa params node) :
    lineageOk ssa params path src snk = true := by
  have cone := fromSlot_cone fromSlot reads
  have related : varidLineageEq ssa params (buildMemMap ssa params path.events) snk src = true := by
    rw [lineageEq_iff]
    rcases emits with same | ⟨node,key,within,isKey⟩
    · exact .inl same.symm
    · refine .inr ⟨key,?_,?_⟩
      · exact (chain_visits fromSlot.small key).mpr ⟨node,cone_trans cone within,isKey⟩
      · exact (chain_visits (small_within fromSlot.small cone) key).mpr ⟨node,within,isKey⟩
  unfold lineageOk
  simp only [related]
  split
  · exact Bool.or_true _
  · rfl

theorem ok_emits (reads : ∀ place v addr b d, LoadAt ssa path place v addr → Address ssa.vars params sp addr b d → ∀ val,
      loadNext ssa params (buildMemMap ssa params path.events) addr = some val ↔
        StoredBefore ssa params sp path place b d val) (fromSlot : FromSlot ssa params sp path src snk)
    (ok : lineageOk ssa params path src snk = true) :
    src = snk ∨ ∃ node key, Cone (next ssa params path) src node ∧ key ∈ aliasKeys ssa params node := by
  have cone := fromSlot_cone fromSlot reads
  have ofRelated (related : varidLineageEq ssa params (buildMemMap ssa params path.events) snk src = true) :
      src = snk ∨ ∃ node key, Cone (next ssa params path) src node ∧ key ∈ aliasKeys ssa params node := by
    rcases (lineageEq_iff snk src _).mp related with same | ⟨key,_,isKey⟩
    · exact .inl same.symm
    · obtain ⟨node,within,isKey⟩ := (chain_visits (small_within fromSlot.small cone) key).mp isKey
      exact .inr ⟨node,key,within,isKey⟩
  unfold lineageOk at ok
  simp only at ok
  split at ok
  · rcases Bool.or_eq_true_iff.mp ok with isRegion | related
    · obtain ⟨key,isKey,inside⟩ := List.any_eq_true.mp isRegion
      obtain ⟨node,_,isKey⟩ := (chain_visits fromSlot.small key).mp isKey
      cases key with
      | varnode v => cases inside
      | region site offset =>
        obtain ⟨key',isKey'⟩ := region_emitted isKey (beq_iff_eq.mp inside).symm
        exact .inr ⟨src,key',cone_start _ _,isKey'⟩
    · exact ofRelated related
  · exact ofRelated ok

end Paths

section Examples

theorem lastIn_other {event : TaintEvent} (noStore : ∀ n addr val, event ≠ ⟨n,.store addr val⟩) :
    LastIn (events ++ [event]) wanted val ↔ LastIn events wanted val := by
  rw [lastIn_append]
  constructor
  · rintro (⟨n,addr,isStore,_⟩ | ⟨last,_⟩)
    · exact absurd isStore (noStore n addr val)
    · exact last
  · intro last
    exact .inr ⟨last,fun n addr val' isStore => absurd isStore (noStore n addr val')⟩

def fromCopy : SourceSpec := ⟨"fgets",.arg 0⟩

def toCopy : SinkSpec := ⟨"strcpy",.arg 1,.stackBuffer⟩

-- Variables 0 and 1 are the incoming stack pointer and 8, and 2 and 3 the addresses 8 and 16 above the stack pointer.
def frame (rest : List VarDef) : SsaCfg where
  blocks := []
  vars := [⟨⟨.register,32,8⟩,.unknown,none,8,false⟩,⟨⟨.const,8,8⟩,.const 8 8,none,8,false⟩,
    ⟨⟨.unique,0,8⟩,.binOp .add 0 1,none,8,false⟩,⟨⟨.unique,8,8⟩,.binOp .add 2 1,none,8,false⟩] ++ rest
  entry := 0
  diagnostics := []

def copyPath (events : List TaintEvent) (sinkEvent : Nat) : TaintPath := ⟨fromCopy,0,toCopy,sinkEvent,events,[]⟩

def noParams : VarId → Option UInt8 := fun _ => none

-- The tainted value is stored 8 above the stack pointer, loaded, and copied.
def spilled : SsaCfg := frame [⟨⟨.const,64,8⟩,.const 64 8,none,8,false⟩,⟨⟨.register,0,8⟩,.load 2,none,8,false⟩]

def spilledPath : TaintPath :=
  copyPath [⟨0,.sourceCall fromCopy [4] none []⟩,⟨1,.store 2 4⟩,⟨2,.assign 5⟩,⟨3,.sinkCall toCopy [0,5] none []⟩] 3

theorem spilled_base : IsBase spilled.vars noParams 0 0 .stack :=
  .stack ⟨_,rfl,rfl⟩ (fun _ isVar => Option.some.inj isVar ▸ rfl) ⟨rfl,fun _ isVar => Option.some.inj isVar ▸ rfl⟩

theorem spilled_slot : Flat spilled.vars noParams 0 false 2 .stack 8 :=
  .add ⟨_,rfl,rfl⟩ ⟨rfl,fun _ isVar => Option.some.inj isVar ▸ rfl⟩ (.base spilled_base) (.inl (by decide))
    (.const ⟨_,rfl,rfl⟩) (by decide)

theorem spilled_load (isLoad : LoadAt spilled spilledPath place v addr) : place = 2 ∧ addr = 2 := by
  obtain ⟨⟨n,isEvent⟩,d,isVar,isExpr⟩ := isLoad
  match place with
  | 0 => cases isEvent
  | 1 => cases isEvent
  | 2 =>
    cases isEvent
    obtain rfl := Option.some.inj isVar
    exact ⟨rfl,(Expr.load.inj isExpr).symm⟩
  | 3 => cases isEvent
  | place + 4 => cases isEvent

theorem spilled_flat : FlatPath spilled noParams 0 spilledPath false where
  stores addr val isStore := by
    obtain ⟨n,member⟩ := isStore
    obtain ⟨_,rfl,_⟩ : n = 1 ∧ addr = 2 ∧ val = 4 := by simpa [spilledPath,copyPath] using member
    exact ⟨_,_,spilled_slot⟩
  loads place v addr isLoad := by
    obtain ⟨_,rfl⟩ := spilled_load isLoad
    exact ⟨_,_,spilled_slot⟩

-- A store 16 above the stack pointer is taken for one 8 above it.
def nestedPath : TaintPath :=
  copyPath [⟨0,.sourceCall fromCopy [4] none []⟩,⟨1,.store 2 4⟩,⟨2,.store 3 4⟩] 0

-- After the load another value is stored.
def laterPath : TaintPath := copyPath [⟨0,.sourceCall fromCopy [4] none []⟩,⟨1,.store 2 4⟩,⟨2,.assign 5⟩,⟨3,.store 2 1⟩] 0

end Examples

end Rsleigh.Decompile.Lineage
