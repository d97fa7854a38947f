import Mathlib

namespace Rsleigh.Semantic

-- A range of bits, not empty.
structure FieldBits where
  start : Nat
  stop : Nat
  nonempty : start < stop
  deriving DecidableEq

def FieldBits.len (bits : FieldBits) : Nat := bits.stop - bits.start

-- A range of the same length from another bit on.
def FieldBits.moved (bits : FieldBits) (start : Nat) : FieldBits :=
  ⟨start,start + bits.len,by have := bits.nonempty; unfold FieldBits.len; omega⟩

-- A context field: the register it is in, and its bits there.
structure Context where
  varnode : Nat
  bits : FieldBits

abbrev ContextId (count : Nat) := Fin count

structure ContextMemoryMapping (count : Nat) where
  mapping : List (ContextId count × FieldBits)
  memoryBits : Nat

section MapAll

variable {count : Nat} (contexts : ContextId count → Context)

-- Steps 1 and 2: the contexts of one varnode follow each other, by their start and then by their length. The varnodes
-- come in the order of a hash map, and equal ranges in the order of an unstable sort: in any order.
structure Arrangement where
  order : List (ContextId count)
  all : order.Perm (List.finRange count)
  grouped : ∀ before last current after, order = before ++ last :: current :: after →
    (contexts last).varnode ≠ (contexts current).varnode → ∀ earlier ∈ before,
      (contexts earlier).varnode ≠ (contexts current).varnode
  sorted : order.Pairwise fun x y => (contexts x).varnode = (contexts y).varnode →
    (contexts x).bits.start < (contexts y).bits.start ∨
      (contexts x).bits.start = (contexts y).bits.start ∧ (contexts x).bits.len ≤ (contexts y).bits.len

-- An unsigned subtraction: nothing below zero.
def checkedSub (value amount : Nat) : Option Nat :=
  if amount ≤ value then some (value - amount) else none

def newStart (lastContext lastBits currentContext : FieldBits) : Option Nat :=
  if lastContext.stop > currentContext.start then
    (checkedSub currentContext.start lastContext.start).map fun offset => lastBits.start + offset
  else some lastBits.stop

-- Step 3, from what is mapped already.
def mapFrom : List (ContextId count) → List (ContextId count × FieldBits) → Option (List (ContextId count × FieldBits))
  | [], mapping => some mapping
  | current :: rest, mapping =>
    match mapping.getLast? with
    | none => mapFrom rest (mapping ++ [(current,(contexts current).bits.moved 0)])
    | some (last, lastBits) =>
      match newStart (contexts last).bits lastBits (contexts current).bits with
      | some start => mapFrom rest (mapping ++ [(current,(contexts current).bits.moved start)])
      | none => none

def mapAll (arrangement : Arrangement contexts) : Option (ContextMemoryMapping count) :=
  (mapFrom contexts arrangement.order []).map fun mapping =>
    ⟨mapping,((mapping.getLast?).map fun last => last.2.stop).getD 0⟩

-- Two fields share mapped bits exactly where they share bits of one varnode.
def Shared (x y : Context) (bits bits' : FieldBits) : Prop :=
  ∀ i < x.bits.len, ∀ j < y.bits.len,
    (bits.start + i = bits'.start + j ↔ x.varnode = y.varnode ∧ x.bits.start + i = y.bits.start + j)

-- The contexts are mapped, each with its length and inside the memory, and no overlap is lost or made.
structure Faithful (result : ContextMemoryMapping count) : Prop where
  mapped : ∀ context, ∃ bits, (context,bits) ∈ result.mapping
  inside : ∀ entry ∈ result.mapping, entry.2.len = (contexts entry.1).bits.len ∧ entry.2.stop ≤ result.memoryBits
  shared : ∀ entry ∈ result.mapping, ∀ other ∈ result.mapping,
    Shared (contexts entry.1) (contexts other.1) entry.2 other.2

-- No field before reaches over the last one.
def Reaches (before : List (ContextId count)) (last : ContextId count) : Prop :=
  ∀ earlier ∈ before, (contexts earlier).varnode = (contexts last).varnode →
    (contexts earlier).bits.stop ≤ (contexts last).bits.stop

-- What the order has to be like: a gap comes only after a field that reaches the furthest, the first field of another
-- varnode starts where the last one has ended, and so does the memory.
structure Packs (order : List (ContextId count)) : Prop where
  same : ∀ before last current after, order = before ++ last :: current :: after →
    (contexts last).varnode = (contexts current).varnode →
    (contexts current).bits.start ≤ (contexts last).bits.stop ∨ Reaches contexts before last
  other : ∀ before last current after, order = before ++ last :: current :: after →
    (contexts last).varnode ≠ (contexts current).varnode →
    (contexts last).bits.stop ≤ (contexts current).bits.start ∧ Reaches contexts before last
  final : ∀ before last, order = before ++ [last] → Reaches contexts before last

end MapAll

section Run

variable {count : Nat} {contexts : ContextId count → Context}

theorem FieldBits.len_pos (bits : FieldBits) : 0 < bits.len := Nat.sub_pos_of_lt bits.nonempty

theorem FieldBits.stop_eq (bits : FieldBits) : bits.stop = bits.start + bits.len := by
  have := bits.nonempty
  unfold FieldBits.len
  omega

@[simp] theorem FieldBits.start_moved (bits : FieldBits) (start : Nat) : (bits.moved start).start = start := rfl

@[simp] theorem FieldBits.stop_moved (bits : FieldBits) (start : Nat) : (bits.moved start).stop = start + bits.len := rfl

@[simp] theorem FieldBits.len_moved (bits : FieldBits) (start : Nat) : (bits.moved start).len = bits.len := by
  simp [FieldBits.len,FieldBits.moved]

-- An earlier field and a later one: either they overlap and keep their distance, or the later one is after it.
def Right (x y : Context) (bits bits' : FieldBits) : Prop :=
  if x.varnode = y.varnode ∧ y.bits.start < x.bits.stop then bits.start + y.bits.start = bits'.start + x.bits.start
  else bits.stop ≤ bits'.start

theorem shared_of_right {x y : Context} {bits bits' : FieldBits} (len : bits.len = x.bits.len)
    (right : Right x y bits bits') :
    Shared x y bits bits' := by
  intro i inX j inY
  have isStop := bits.stop_eq
  have isStop' := x.bits.stop_eq
  unfold Right at right
  split at right
  · rename_i overlap
    constructor
    · exact fun same => ⟨overlap.1,by omega⟩
    · exact fun same => by omega
  · rename_i noOverlap
    constructor
    · intro same
      omega
    · rintro ⟨sameVarnode,same⟩
      exact absurd ⟨sameVarnode,by omega⟩ noOverlap

theorem Shared.symm {x y : Context} {bits bits' : FieldBits} (shared : Shared x y bits bits') : Shared y x bits' bits := by
  intro i inY j inX
  have both := shared j inX i inY
  rw [eq_comm,both,eq_comm,@eq_comm _ (x.bits.start + j)]

theorem Shared.refl {x : Context} {bits : FieldBits} : Shared x x bits bits := by
  intro i _ j _
  constructor
  · exact fun same => ⟨rfl,by omega⟩
  · rintro ⟨_,same⟩
    omega

-- What is mapped so far. Nothing is mapped above the place where the varnode of the last field ends.
structure Mapped (mapping : List (ContextId count × FieldBits)) : Prop where
  lens : ∀ entry ∈ mapping, entry.2.len = (contexts entry.1).bits.len
  right : mapping.Pairwise fun entry later => Right (contexts entry.1) (contexts later.1) entry.2 later.2
  high : ∀ before last, mapping = before ++ [last] → ∀ entry ∈ before, ∃ highest ∈ mapping,
    (contexts highest.1).varnode = (contexts last.1).varnode ∧
    entry.2.stop + (contexts last.1).bits.start ≤ last.2.start + (contexts highest.1).bits.stop

theorem newStart_near {last lastBits current : FieldBits} (sorted : last.start ≤ current.start)
    (near : current.start ≤ last.stop) (len : lastBits.len = last.len) :
    newStart last lastBits current = some (lastBits.start + (current.start - last.start)) := by
  unfold newStart
  split
  · simp [checkedSub,sorted]
  · rename_i after
    have isStop := last.stop_eq
    have isStop' := lastBits.stop_eq
    congr 1
    omega

theorem newStart_after {last lastBits current : FieldBits} (after : last.stop ≤ current.start) :
    newStart last lastBits current = some lastBits.stop := if_neg (Nat.not_lt.mpr after)

theorem Mapped.lens_concat {mapping : List (ContextId count × FieldBits)} (mapped : @Mapped count contexts mapping)
    (current : ContextId count) (start : Nat) :
    ∀ entry ∈ mapping ++ [(current,(contexts current).bits.moved start)], entry.2.len = (contexts entry.1).bits.len := by
  intro entry member
  rcases List.mem_append.mp member with old | new
  · exact mapped.lens entry old
  · rw [List.mem_singleton.mp new]
    exact FieldBits.len_moved _ _

-- A field that starts in the range of the last one: its distances to all that it overlaps are those to the last one.
theorem mapped_near {before : List (ContextId count × FieldBits)} {last current : ContextId count} {lastBits : FieldBits}
    (mapped : @Mapped count contexts (before ++ [(last,lastBits)]))
    (sameVarnode : (contexts last).varnode = (contexts current).varnode)
    (sorted : (contexts last).bits.start ≤ (contexts current).bits.start)
    (near : (contexts current).bits.start ≤ (contexts last).bits.stop) :
    @Mapped count contexts (before ++ [(last,lastBits)] ++ [(current,(contexts current).bits.moved
      (lastBits.start + ((contexts current).bits.start - (contexts last).bits.start)))]) := by
  have lastLen : lastBits.len = (contexts last).bits.len := mapped.lens (last,lastBits) (by simp)
  have lastStop := lastBits.stop_eq
  have lastStop' := (contexts last).bits.stop_eq
  have currentStop := (contexts current).bits.stop_eq
  refine ⟨mapped.lens_concat current _,?_,?_⟩
  · refine List.pairwise_append.mpr ⟨mapped.right,List.pairwise_singleton _ _,?_⟩
    rintro ⟨earlier,bits⟩ isEarlier _ isCurrent
    rw [List.mem_singleton.mp isCurrent]
    have isStop := bits.stop_eq
    have isStop' := (contexts earlier).bits.stop_eq
    have len := mapped.lens (earlier,bits) isEarlier
    dsimp only at len
    rcases List.mem_append.mp isEarlier with isBefore | isLast
    · have right := (List.pairwise_append.mp mapped.right).2.2 (earlier,bits) isBefore (last,lastBits) (by simp)
      unfold Right at right ⊢
      dsimp only at right ⊢
      rw [FieldBits.start_moved]
      split
      · rename_i overlap
        rw [if_pos ⟨overlap.1.trans sameVarnode.symm,by omega⟩] at right
        omega
      · rename_i noOverlap
        split at right
        · rename_i overlapLast
          have before : ¬(contexts current).bits.start < (contexts earlier).bits.stop := fun less =>
            noOverlap ⟨overlapLast.1.trans sameVarnode,less⟩
          omega
        · omega
    · cases List.mem_singleton.mp isLast
      unfold Right
      rw [FieldBits.start_moved]
      dsimp only
      split
      · omega
      · rename_i noOverlap
        have after : ¬(contexts current).bits.start < (contexts last).bits.stop := fun less => noOverlap ⟨sameVarnode,less⟩
        omega
  · intro before' last' isConcat entry isEntry
    obtain ⟨sameBefore,sameLast⟩ := List.append_inj' isConcat rfl
    cases sameBefore
    cases sameLast
    rw [FieldBits.start_moved]
    rcases List.mem_append.mp isEntry with isBefore | isLast
    · obtain ⟨highest,member,isVarnode,high⟩ := mapped.high before _ rfl entry isBefore
      refine ⟨highest,List.mem_append_left _ member,isVarnode.trans sameVarnode,?_⟩
      dsimp only at high ⊢
      omega
    · rw [List.mem_singleton.mp isLast]
      exact ⟨(last,lastBits),by simp,sameVarnode,by dsimp only; omega⟩

-- A field after all that is mapped of its varnode, or the first one of another varnode, goes to the end.
theorem mapped_after {before : List (ContextId count × FieldBits)} {last current : ContextId count} {lastBits : FieldBits}
    (mapped : @Mapped count contexts (before ++ [(last,lastBits)]))
    (reaches : Reaches contexts (before.map Prod.fst) last)
    (after : ∀ entry ∈ before ++ [(last,lastBits)], (contexts entry.1).varnode = (contexts current).varnode →
      (contexts entry.1).bits.stop ≤ (contexts current).bits.start) :
    @Mapped count contexts (before ++ [(last,lastBits)] ++ [(current,(contexts current).bits.moved lastBits.stop)]) := by
  have lastLen : lastBits.len = (contexts last).bits.len := mapped.lens (last,lastBits) (by simp)
  have lastStop := lastBits.stop_eq
  have lastStop' := (contexts last).bits.stop_eq
  have currentStop := (contexts current).bits.stop_eq
  have low : ∀ entry ∈ before ++ [(last,lastBits)], entry.2.stop ≤ lastBits.stop := by
    intro entry member
    rcases List.mem_append.mp member with isBefore | isLast
    · obtain ⟨highest,isMember,isVarnode,high⟩ := mapped.high before _ rfl entry isBefore
      dsimp only at high isVarnode
      have below : (contexts highest.1).bits.stop ≤ (contexts last).bits.stop := by
        rcases List.mem_append.mp isMember with isBefore | isLast
        · exact reaches highest.1 (List.mem_map_of_mem isBefore) isVarnode
        · rw [List.mem_singleton.mp isLast]
      omega
    · rw [List.mem_singleton.mp isLast]
  refine ⟨mapped.lens_concat current _,?_,?_⟩
  · refine List.pairwise_append.mpr ⟨mapped.right,List.pairwise_singleton _ _,?_⟩
    intro entry member _ isCurrent
    rw [List.mem_singleton.mp isCurrent]
    unfold Right
    rw [if_neg fun overlap => absurd (after entry member overlap.1) (Nat.not_le.mpr overlap.2)]
    exact low entry member
  · intro before' last' isConcat entry isEntry
    obtain ⟨sameBefore,sameLast⟩ := List.append_inj' isConcat rfl
    cases sameBefore
    cases sameLast
    refine ⟨_,List.mem_append_right _ (List.mem_singleton_self _),rfl,?_⟩
    have below := low entry isEntry
    rw [FieldBits.start_moved]
    dsimp only
    omega

theorem mapFrom_cons {current : ContextId count} {rest : List (ContextId count)}
    {before : List (ContextId count × FieldBits)} {last : ContextId count} {lastBits : FieldBits} {start : Nat}
    (isStart : newStart (contexts last).bits lastBits (contexts current).bits = some start) :
    mapFrom contexts (current :: rest) (before ++ [(last,lastBits)]) =
      mapFrom contexts rest (before ++ [(last,lastBits)] ++ [(current,(contexts current).bits.moved start)]) := by
  rw [mapFrom,List.getLast?_concat]
  dsimp only
  rw [isStart]

theorem mapped_step {arrangement : Arrangement contexts} (packs : Packs contexts arrangement.order)
    {before : List (ContextId count × FieldBits)} {last current : ContextId count} {lastBits : FieldBits}
    {rest : List (ContextId count)} (isOrder : arrangement.order = before.map Prod.fst ++ last :: current :: rest)
    (mapped : @Mapped count contexts (before ++ [(last,lastBits)])) :
    ∃ start, newStart (contexts last).bits lastBits (contexts current).bits = some start ∧
      @Mapped count contexts (before ++ [(last,lastBits)] ++ [(current,(contexts current).bits.moved start)]) := by
  have lastLen : lastBits.len = (contexts last).bits.len := mapped.lens (last,lastBits) (by simp)
  by_cases sameVarnode : (contexts last).varnode = (contexts current).varnode
  · have sorted : (contexts last).bits.start ≤ (contexts current).bits.start := by
      have pairwise := arrangement.sorted
      rw [isOrder] at pairwise
      have step := (List.pairwise_cons.mp (List.pairwise_append.mp pairwise).2.1).1 current List.mem_cons_self sameVarnode
      omega
    by_cases near : (contexts current).bits.start ≤ (contexts last).bits.stop
    · exact ⟨_,newStart_near sorted near lastLen,mapped_near mapped sameVarnode sorted near⟩
    · have reaches := (packs.same _ last current rest isOrder sameVarnode).resolve_left near
      have after : (contexts last).bits.stop ≤ (contexts current).bits.start := by omega
      refine ⟨_,newStart_after after,mapped_after mapped reaches fun entry member isVarnode => ?_⟩
      rcases List.mem_append.mp member with isBefore | isLast
      · exact (reaches entry.1 (List.mem_map_of_mem isBefore) (isVarnode.trans sameVarnode.symm)).trans after
      · rw [List.mem_singleton.mp isLast]
        exact after
  · obtain ⟨after,reaches⟩ := packs.other _ last current rest isOrder sameVarnode
    refine ⟨_,newStart_after after,mapped_after mapped reaches fun entry member isVarnode => ?_⟩
    rcases List.mem_append.mp member with isBefore | isLast
    · exact absurd isVarnode (arrangement.grouped _ last current rest isOrder sameVarnode entry.1
        (List.mem_map_of_mem isBefore))
    · rw [List.mem_singleton.mp isLast] at isVarnode
      exact absurd isVarnode sameVarnode

theorem mapped_nil : @Mapped count contexts [] := by
  refine ⟨nofun,List.Pairwise.nil,?_⟩
  intro before last isConcat
  exact absurd isConcat (by simp)

theorem mapped_singleton (current : ContextId count) :
    @Mapped count contexts [(current,(contexts current).bits.moved 0)] := by
  refine ⟨by simp,List.pairwise_singleton _ _,?_⟩
  intro before last isConcat entry isEntry
  obtain ⟨sameBefore,_⟩ := List.append_inj' (show [] ++ [_] = before ++ [last] from isConcat) rfl
  subst sameBefore
  cases isEntry

theorem mapFrom_mapped {arrangement : Arrangement contexts} (packs : Packs contexts arrangement.order)
    {rest : List (ContextId count)} {mapping : List (ContextId count × FieldBits)}
    (isOrder : arrangement.order = mapping.map Prod.fst ++ rest) (mapped : @Mapped count contexts mapping) :
    ∃ result, mapFrom contexts rest mapping = some result ∧ result.map Prod.fst = arrangement.order ∧
      @Mapped count contexts result := by
  induction rest generalizing mapping with
  | nil => exact ⟨mapping,rfl,by simpa using isOrder.symm,mapped⟩
  | cons current rest ih =>
    rcases List.eq_nil_or_concat' mapping with rfl | ⟨before,⟨last,lastBits⟩,rfl⟩
    · exact ih (by simpa using isOrder) (mapped_singleton current)
    · obtain ⟨start,isStart,mapped'⟩ := mapped_step packs (by simpa using isOrder) mapped
      rw [mapFrom_cons isStart]
      exact ih (by simpa using isOrder) mapped'

theorem stop_le_memoryBits {arrangement : Arrangement contexts} (packs : Packs contexts arrangement.order)
    {result : List (ContextId count × FieldBits)} (isOrder : result.map Prod.fst = arrangement.order)
    (mapped : @Mapped count contexts result) :
    ∀ entry ∈ result, entry.2.stop ≤ ((result.getLast?).map fun last => last.2.stop).getD 0 := by
  intro entry member
  rcases List.eq_nil_or_concat' result with rfl | ⟨before,⟨last,lastBits⟩,rfl⟩
  · cases member
  · rw [List.getLast?_concat]
    have lastLen : lastBits.len = (contexts last).bits.len := mapped.lens (last,lastBits) (by simp)
    have lastStop := lastBits.stop_eq
    have lastStop' := (contexts last).bits.stop_eq
    rcases List.mem_append.mp member with isBefore | isLast
    · obtain ⟨highest,isMember,isVarnode,high⟩ := mapped.high before _ rfl entry isBefore
      have reaches := packs.final (before.map Prod.fst) last (by simpa using isOrder.symm)
      have below : (contexts highest.1).bits.stop ≤ (contexts last).bits.stop := by
        rcases List.mem_append.mp isMember with isBefore | isLast
        · exact reaches highest.1 (List.mem_map_of_mem isBefore) isVarnode
        · rw [List.mem_singleton.mp isLast]
      simp only [Option.map_some,Option.getD_some]
      dsimp only at high
      omega
    · rw [List.mem_singleton.mp isLast]
      exact Nat.le_refl _

theorem faithful_of_packs (arrangement : Arrangement contexts) (packs : Packs contexts arrangement.order) :
    ∃ result, mapAll contexts arrangement = some result ∧ Faithful contexts result := by
  obtain ⟨mapping,isMapping,isOrder,mapped⟩ := mapFrom_mapped packs (List.nil_append _).symm mapped_nil
  refine ⟨_,by rw [mapAll,isMapping,Option.map_some],?_,?_,?_⟩
  · intro context
    have member : context ∈ mapping.map Prod.fst := by
      rw [isOrder]
      exact arrangement.all.mem_iff.mpr (List.mem_finRange context)
    obtain ⟨entry,isEntry,rfl⟩ := List.mem_map.mp member
    exact ⟨entry.2,isEntry⟩
  · exact fun entry member => ⟨mapped.lens entry member,stop_le_memoryBits packs isOrder mapped entry member⟩
  · have pairwise : mapping.Pairwise fun entry other => Shared (contexts entry.1) (contexts other.1) entry.2 other.2 :=
      List.Pairwise.imp_of_mem (fun member _ right => shared_of_right (mapped.lens _ member) right) mapped.right
    have flipped : mapping.Pairwise fun entry other => Shared (contexts other.1) (contexts entry.1) other.2 entry.2 :=
      pairwise.imp fun shared => Shared.symm shared
    intro entry isEntry other isOther
    have reflexive : ∀ entry ∈ mapping, Shared (contexts entry.1) (contexts entry.1) entry.2 entry.2 :=
      fun _ _ => Shared.refl
    exact List.Pairwise.forall_of_forall_of_flip reflexive pairwise flipped isEntry isOther

-- Every start that is mapped after another one is computed from it.
theorem mapFrom_steps {rest : List (ContextId count)} {mapping result : List (ContextId count × FieldBits)}
    (found : mapFrom contexts rest mapping = some result) :
    ∃ new, result = mapping ++ new ∧ new.map Prod.fst = rest ∧
      ∀ before last current after, result = before ++ last :: current :: after → mapping.length ≤ before.length + 1 →
        newStart (contexts last.1).bits last.2 (contexts current.1).bits = some current.2.start := by
  induction rest generalizing mapping with
  | nil =>
    cases found
    refine ⟨[],by simp,rfl,?_⟩
    rintro before last current after rfl short
    simp at short
  | cons next rest ih =>
    rcases List.eq_nil_or_concat' mapping with rfl | ⟨earlier,⟨last,lastBits⟩,rfl⟩
    · obtain ⟨new,isResult,sameIds,steps⟩ := @ih [(next,(contexts next).bits.moved 0)] found
      exact ⟨_ :: new,isResult,by simp [sameIds],fun before last current after isSplit _ =>
        steps before last current after isSplit (by simp)⟩
    · cases isStart : newStart (contexts last).bits lastBits (contexts next).bits with
      | none =>
        rw [mapFrom,List.getLast?_concat] at found
        dsimp only at found
        rw [isStart] at found
        cases found
      | some start =>
        rw [mapFrom_cons isStart] at found
        obtain ⟨new,isResult,sameIds,steps⟩ := ih found
        refine ⟨(next,(contexts next).bits.moved start) :: new,by simp [isResult],by simp [sameIds],?_⟩
        intro before last' current after isSplit short
        rcases Nat.lt_or_ge before.length earlier.length with less | more
        · simp only [List.length_append,List.length_singleton] at short
          omega
        · rcases Nat.eq_or_lt_of_le more with same | longer
          · have split := isResult.symm.trans isSplit
            simp only [List.append_assoc,List.singleton_append] at split
            obtain ⟨_,isRest⟩ := List.append_inj split same
            cases isRest
            simpa using isStart
          · exact steps before last' current after isSplit (by simp; omega)

theorem covered {x y : Context} {bits bits' : FieldBits} (shared : Shared x y bits bits')
    (sameVarnode : x.varnode = y.varnode) (sorted : x.bits.start ≤ y.bits.start) (beyond : y.bits.stop < x.bits.stop)
    (len : bits'.len = y.bits.len) :
    ∃ i < x.bits.len, bits.start + i = bits'.stop ∧ x.bits.start + i = y.bits.stop := by
  have isStop := x.bits.stop_eq
  have isStop' := y.bits.stop_eq
  have isStop'' := bits'.stop_eq
  have some := y.bits.len_pos
  have start := (shared (y.bits.start - x.bits.start) (by omega) 0 some).mpr ⟨sameVarnode,by omega⟩
  exact ⟨y.bits.stop - x.bits.start,by omega,by omega,by omega⟩

theorem sorted_earlier (arrangement : Arrangement contexts) {before after : List (ContextId count)}
    {last earlier : ContextId count} (isOrder : arrangement.order = before ++ last :: after) (isEarlier : earlier ∈ before)
    (sameVarnode : (contexts earlier).varnode = (contexts last).varnode) :
    (contexts earlier).bits.start ≤ (contexts last).bits.start := by
  have pairwise := arrangement.sorted
  rw [isOrder] at pairwise
  have step := (List.pairwise_append.mp pairwise).2.2 earlier isEarlier last List.mem_cons_self sameVarnode
  omega

theorem reaches_of_shared {arrangement : Arrangement contexts} {result : ContextMemoryMapping count}
    (faithful : Faithful contexts result) {before after : List (ContextId count)} {mapped : List (ContextId count × FieldBits)}
    {last : ContextId count} {lastBits : FieldBits} (isOrder : arrangement.order = before ++ last :: after)
    (isBefore : mapped.map Prod.fst = before) (subset : ∀ entry ∈ mapped, entry ∈ result.mapping)
    (isLast : (last,lastBits) ∈ result.mapping)
    (free : ∀ entry ∈ mapped, ∀ i < (contexts entry.1).bits.len, entry.2.start + i = lastBits.stop →
      (contexts entry.1).bits.start + i = (contexts last).bits.stop →
      (contexts entry.1).varnode = (contexts last).varnode → False) :
    Reaches contexts before last := by
  intro earlier isEarlier sameVarnode
  rw [← isBefore] at isEarlier
  obtain ⟨entry,isEntry,rfl⟩ := List.mem_map.mp isEarlier
  by_contra beyond
  obtain ⟨i,inEntry,isStop,isBit⟩ := covered (faithful.shared entry (subset entry isEntry) _ isLast) sameVarnode
    (sorted_earlier arrangement isOrder (isBefore ▸ isEarlier) sameVarnode) (Nat.lt_of_not_le beyond)
    (faithful.inside _ isLast).1
  exact free entry isEntry i inEntry isStop isBit sameVarnode

theorem packs_of_faithful {arrangement : Arrangement contexts} {result : ContextMemoryMapping count}
    (isResult : mapAll contexts arrangement = some result) (faithful : Faithful contexts result) :
    Packs contexts arrangement.order := by
  obtain ⟨mapping,isMapping,rfl⟩ := Option.map_eq_some_iff.mp isResult
  obtain ⟨new,isNew,sameIds,steps⟩ := mapFrom_steps isMapping
  obtain rfl : mapping = new := isNew
  have split : ∀ before last current after, arrangement.order = before ++ last :: current :: after →
      ∃ mapped lastBits currentBits later, mapping = mapped ++ (last,lastBits) :: (current,currentBits) :: later ∧
        mapped.map Prod.fst = before := by
    intro before last current after isOrder
    rw [← sameIds] at isOrder
    obtain ⟨mapped,rest,isSplit,isBefore,isRest⟩ := List.map_eq_append_iff.mp isOrder
    obtain ⟨⟨last',lastBits⟩,rest',rfl,rfl,areLater⟩ := List.map_eq_cons_iff.mp isRest
    obtain ⟨⟨current',currentBits⟩,later,rfl,rfl,_⟩ := List.map_eq_cons_iff.mp areLater
    exact ⟨mapped,lastBits,currentBits,later,isSplit,isBefore⟩
  refine ⟨?_,?_,?_⟩
  · intro before last current after isOrder sameVarnode
    obtain ⟨mapped,lastBits,currentBits,later,isSplit,isBefore⟩ := split before last current after isOrder
    have isStart : newStart (contexts last).bits lastBits (contexts current).bits = some currentBits.start :=
      steps _ _ _ _ isSplit (Nat.zero_le _)
    have isLast : (last,lastBits) ∈ mapping := by simp [isSplit]
    have isCurrent : (current,currentBits) ∈ mapping := by simp [isSplit]
    by_cases near : (contexts current).bits.start ≤ (contexts last).bits.stop
    · exact Or.inl near
    · rw [newStart_after (by omega)] at isStart
      refine Or.inr (reaches_of_shared faithful isOrder isBefore (fun entry member => by simp [isSplit,member]) isLast ?_)
      intro entry member i inEntry isStop isBit _
      have currentLen := (contexts current).bits.len_pos
      have shares := (faithful.shared entry (by simp [isSplit,member]) _ isCurrent i inEntry 0 currentLen).mp
        (by rw [isStop,Nat.add_zero]; exact Option.some.inj isStart)
      have isBit' := shares.2
      dsimp only at isBit'
      omega
  · intro before last current after isOrder otherVarnode
    obtain ⟨mapped,lastBits,currentBits,later,isSplit,isBefore⟩ := split before last current after isOrder
    have isStart : newStart (contexts last).bits lastBits (contexts current).bits = some currentBits.start :=
      steps _ _ _ _ isSplit (Nat.zero_le _)
    have isLast : (last,lastBits) ∈ mapping := by simp [isSplit]
    have isCurrent : (current,currentBits) ∈ mapping := by simp [isSplit]
    have currentLen := (contexts current).bits.len_pos
    have lastStop := (contexts last).bits.stop_eq
    have after : (contexts last).bits.stop ≤ (contexts current).bits.start := by
      by_contra beyond
      unfold newStart at isStart
      rw [if_pos (Nat.lt_of_not_le beyond)] at isStart
      obtain ⟨offset,isOffset,isStart⟩ := Option.map_eq_some_iff.mp isStart
      unfold checkedSub at isOffset
      split at isOffset
      · cases isOffset
        have shares := (faithful.shared _ isLast _ isCurrent ((contexts current).bits.start - (contexts last).bits.start)
          (by dsimp only; omega) 0 currentLen).mp isStart
        exact otherVarnode shares.1
      · cases isOffset
    rw [newStart_after after] at isStart
    refine ⟨after,reaches_of_shared faithful isOrder isBefore (fun entry member => by simp [isSplit,member]) isLast ?_⟩
    intro entry member i inEntry isStop _ sameVarnode
    have shares := (faithful.shared entry (by simp [isSplit,member]) _ isCurrent i inEntry 0 currentLen).mp
      (by rw [isStop,Nat.add_zero]; exact Option.some.inj isStart)
    exact otherVarnode (sameVarnode.symm.trans shares.1)
  · intro before last isOrder
    have isIds := sameIds.trans isOrder
    obtain ⟨mapped,rest,isSplit,isBefore,isRest⟩ := List.map_eq_append_iff.mp isIds
    obtain ⟨⟨last',lastBits⟩,rest',rfl,rfl,isNil⟩ := List.map_eq_cons_iff.mp isRest
    obtain rfl := List.map_eq_nil_iff.mp isNil
    have isLast : (last',lastBits) ∈ mapping := by simp [isSplit]
    refine reaches_of_shared faithful isOrder isBefore (fun entry member => by simp [isSplit,member]) isLast ?_
    intro entry member i inEntry isStop _ _
    have inside := faithful.inside entry (by simp [isSplit,member])
    rw [isSplit,List.getLast?_concat] at inside
    have entryStop := entry.2.stop_eq
    simp only [Option.map_some,Option.getD_some] at inside
    omega

-- The mapping is faithful for exactly the orders that are so packed.
theorem mapAll_faithful_iff {count : Nat} (contexts : ContextId count → Context) (arrangement : Arrangement contexts) :
    (∃ result, mapAll contexts arrangement = some result ∧ Faithful contexts result) ↔
      Packs contexts arrangement.order := by
  constructor
  · rintro ⟨result,isResult,faithful⟩
    exact packs_of_faithful isResult faithful
  · exact faithful_of_packs arrangement

end Run

-- A field, and a part of it.
def nestedContexts : ContextId 2 → Context
  | 0 => ⟨0,⟨0,8,by decide⟩⟩
  | 1 => ⟨0,⟨2,4,by decide⟩⟩

def nestedArrangement : Arrangement nestedContexts where
  order := [0,1]
  all := by decide
  grouped := by
    intro before last current after isOrder other
    exact absurd (by fin_cases last <;> fin_cases current <;> rfl) other
  sorted := by decide

-- The memory ends with the part, so that four bits of the field are outside.
theorem nestedContexts_unfaithful :
    (mapAll nestedContexts nestedArrangement).map (fun result => result.memoryBits) = some 4 ∧
    ¬∃ result, mapAll nestedContexts nestedArrangement = some result ∧ Faithful nestedContexts result := by
  refine ⟨by decide,?_⟩
  rintro ⟨result,isResult,faithful⟩
  have inside := (faithful.inside (0,⟨0,8,by decide⟩) (by cases isResult; decide)).2
  cases isResult
  exact absurd inside (by decide)

end Rsleigh.Semantic
