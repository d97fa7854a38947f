import Mathlib
import Rsleigh.Pcode.Frame
import Rsleigh.Decompile.BuildCfg

namespace Rsleigh.Decompile

open Pcode

section Follow

variable (env : Env)

-- Where control goes inside the function; what a callee leaves is not known here.
def Terminator.next (s : Pcode.Machine) : Terminator → Option BlockId
  | .fallthrough next | .branch next => some next
  | .cbranch cond taken next => some (if s.read env cond != 0 then taken else next)
  | .call _ _ | .ret | .indirect _ => none

theorem next_cbranch {s : Pcode.Machine} {cond : Varnode} {taken next : BlockId} {holds : Bool}
    (tells : (s.read env cond != 0) = holds) :
    (Terminator.cbranch cond taken next).next env s = some (if holds then taken else next) := by
  rw [Terminator.next,tells]

def runOps (ops : List Op) (s : Pcode.Machine) : Pcode.Machine := exec env (ops.map Prod.snd) s

-- The synthetic blocks as they are stored, after all others.
def stored (firstSynthetic : Nat) (synthetic : List Synthetic) (block : BlockId) : Option Synthetic :=
  if firstSynthetic ≤ block then synthetic[block - firstSynthetic]? else none

-- The block that control enters after it has passed through so many stored ones.
def follow (table : BlockId → Option Synthetic) : Nat → Pcode.Machine → Terminator → Option BlockId
  | 0, s, terminator => terminator.next env s
  | passed + 1, s, terminator =>
    match (terminator.next env s).bind table with
    | some block => follow table passed (runOps env block.ops s) block.terminator
    | none => none

end Follow

-- The index value of an entry: `first + k` at the width of the index.
def caseValue (index : Varnode) (first : Int) (k : Nat) : Nat :=
  ((first + k) % (256 ^ index.size.toNat : Nat)).toNat

-- None of the tests before the last one writes into the index.
def Apart (at_ : Nat) (index : Varnode) (count : Nat) : Prop :=
  ∀ k, k + 2 < count → overlaps (switchTemp at_ k 1) index = false

section Test

variable {env : Env} {at_ : Nat} {index : Varnode} {first : Int} {k : Nat}

theorem caseMask {size : Nat} (least : 1 ≤ size) (most : size ≤ 8) :
    ((0xffffffffffffffff : UInt64) >>> UInt64.ofNat (64 - 8 * min size 8)).toNat = 2 ^ (8 * size) - 1 := by
  interval_cases size <;> rfl

theorem toNat_ofInt (value : Int) : (UInt64.ofInt value).toNat = (value % 2 ^ 64).toNat := by
  unfold UInt64.ofInt
  rw [UInt64.toNat_ofNat_of_lt']
  simp only [UInt64.size]
  omega

theorem test_constant (least : 1 ≤ index.size.toNat) (most : index.size.toNat ≤ 8) :
    (UInt64.ofInt (first + k) &&& (0xffffffffffffffff >>> UInt64.ofNat (64 - 8 * min index.size.toNat 8))).toNat %
      256 ^ index.size.toNat = caseValue index first k := by
  rw [UInt64.toNat_and,caseMask least most,Nat.and_two_pow_sub_one_eq_mod,toNat_ofInt]
  unfold caseValue
  generalize index.size.toNat = size at least most
  interval_cases size <;> simp only [Nat.reducePow,Nat.reduceMul] <;> omega

theorem caseValue_lt : caseValue index first k < 256 ^ index.size.toNat := by
  have positive : (0 : Int) < (256 ^ index.size.toNat : Nat) := by positivity
  have bound := Int.emod_lt_of_pos (first + k) positive
  unfold caseValue
  omega

theorem test_step (least : 1 ≤ index.size.toNat) (most : index.size.toNat ≤ 8) {s : Pcode.Machine} (running : s.left = false) :
    (step env s (switchTest at_ index first k).2.2).left = false ∧
    ((step env s (switchTest at_ index first k).2.2).read env (switchTest at_ index first k).1 != 0) =
      decide (s.read env index = caseValue index first k) := by
  have located : (switchTemp at_ k 1).space ≠ .const := by simp [switchTemp]
  have width : 256 ^ index.size.toNat = 2 ^ (8 * index.size.toNat) := by rw [Nat.pow_mul]
  have small : s.read env index < 2 ^ (8 * index.size.toNat) := width ▸ s.read_lt env index
  have caseSmall : caseValue index first k < 2 ^ (8 * index.size.toNat) := width ▸ caseValue_lt
  have constant : s.read env (.constant (UInt64.ofInt (first + k) &&&
      (0xffffffffffffffff >>> UInt64.ofNat (64 - 8 * min index.size.toNat 8))) index.size) = caseValue index first k := by
    rw [← test_constant least most]
    rfl
  have value : writtenValue env s (switchTest at_ index first k).2.2 =
      (decide (s.read env index = caseValue index first k)).toNat := by
    simp only [switchTest,writtenValue,compute,evalBinary,constant]
    congr 1
    rw [Bool.eq_iff_iff,beq_iff_eq,decide_eq_true_iff,← BitVec.toNat_inj,BitVec.toNat_ofNat,BitVec.toNat_ofNat,
      Nat.mod_eq_of_lt small,Nat.mod_eq_of_lt caseSmall]
  refine ⟨?_,?_⟩
  · simp [step,running,switchTest,leaves]
  · have isRead : (step env s (switchTest at_ index first k).2.2).read env (switchTest at_ index first k).1 =
        (decide (s.read env index = caseValue index first k)).toNat % 256 := by
      rw [← value]
      have same := @readMem_store_same env (switchTemp at_ k 1) located s.mem
        (writtenValue env s (switchTest at_ index first k).2.2)
      simpa [Pcode.Machine.read,step,running,written,writes,getOutput,switchTest,switchTemp] using same
    rw [isRead]
    cases decide (s.read env index = caseValue index first k) <;> rfl

theorem test_hits (least : 1 ≤ index.size.toNat) (most : index.size.toNat ≤ 8) {s : Pcode.Machine} (running : s.left = false)
    (isCase : s.read env index = caseValue index first k) :
    ((step env s (switchTest at_ index first k).2.2).read env (switchTest at_ index first k).1 != 0) = true := by
  rw [(test_step least most running).2,decide_eq_true isCase]

theorem test_fails (least : 1 ≤ index.size.toNat) (most : index.size.toNat ≤ 8) {s : Pcode.Machine} (running : s.left = false)
    (isOther : s.read env index ≠ caseValue index first k) :
    ((step env s (switchTest at_ index first k).2.2).read env (switchTest at_ index first k).1 != 0) = false := by
  rw [(test_step least most running).2,decide_eq_false isOther]

theorem test_keeps {s : Pcode.Machine} (apart : overlaps (switchTemp at_ k 1) index = false) :
    (step env s (switchTest at_ index first k).2.2).read env index = s.read env index := by
  refine step_read (Or.inr ?_)
  simpa [clobbers,writes,getOutput,storeSpace,switchTest] using apart

end Test

section Chain

variable {env : Env} {firstSynthetic at_ : Nat} {index : Varnode} {first : Int} {last : BlockId}

-- The block after a test that fails, with so many blocks stored before.
def elseBlock (firstSynthetic : Nat) (last : BlockId) (rest : List BlockId) (before : Nat) : BlockId :=
  if rest.isEmpty then last else firstSynthetic + before

-- The block of a test after the first one.
def testBlock (firstSynthetic at_ : Nat) (index : Varnode) (first : Int) (last : BlockId) (k : Nat) (case_ : BlockId)
    (rest : List BlockId) (before : Nat) : Synthetic :=
  ⟨at_,[(switchTest at_ index first k).2],
    .cbranch (switchTest at_ index first k).1 case_ (elseBlock firstSynthetic last rest before)⟩

theorem switchTests_cons {rest : List BlockId} {k : Nat} {case_ : BlockId} {synthetic : List Synthetic} :
    switchTests firstSynthetic at_ index first last k (case_ :: rest) synthetic =
      switchTests firstSynthetic at_ index first last (k + 1) rest
        (synthetic ++ [testBlock firstSynthetic at_ index first last k case_ rest (synthetic.length + 1)]) := rfl

theorem switchTests_isPrefix {rest : List BlockId} {k : Nat} {synthetic : List Synthetic} :
    synthetic <+: switchTests firstSynthetic at_ index first last k rest synthetic := by
  induction rest generalizing k synthetic with
  | nil => exact List.prefix_refl synthetic
  | cons case_ rest ih => exact (List.prefix_append synthetic _).trans ih

theorem stored_next {all : List Synthetic} {rest : List BlockId} {k : Nat} {case_ : BlockId} {synthetic : List Synthetic}
    (kept : switchTests firstSynthetic at_ index first last k (case_ :: rest) synthetic <+: all) :
    stored firstSynthetic all (firstSynthetic + synthetic.length) =
      some (testBlock firstSynthetic at_ index first last k case_ rest (synthetic.length + 1)) := by
  rw [switchTests_cons] at kept
  obtain ⟨later,rfl⟩ := switchTests_isPrefix.trans kept
  simp [stored]

theorem follow_else {all : List Synthetic} {rest : List BlockId} {k passed : Nat} {synthetic : List Synthetic}
    {case_ other : BlockId} {s : Pcode.Machine}
    (kept : switchTests firstSynthetic at_ index first last (k + 1) (other :: rest) synthetic <+: all)
    (fails : (s.read env (switchTest at_ index first k).1 != 0) = false) :
    follow env (stored firstSynthetic all) (passed + 1) s
      (.cbranch (switchTest at_ index first k).1 case_ (elseBlock firstSynthetic last (other :: rest) synthetic.length)) =
      follow env (stored firstSynthetic all) passed (step env s (switchTest at_ index first (k + 1)).2.2)
        (.cbranch (switchTest at_ index first (k + 1)).1 other
          (elseBlock firstSynthetic last rest (synthetic.length + 1))) := by
  have isNext : elseBlock firstSynthetic last (other :: rest) synthetic.length = firstSynthetic + synthetic.length := rfl
  simp only [follow,Terminator.next,fails,isNext,Bool.false_eq_true,if_false,Option.bind_some,stored_next kept]
  rfl

-- The first test whose value the index has takes its case. The induction is on the tests that are left, with the
-- machine as it is before the current one.
theorem follow_hit {all : List Synthetic} (least : 1 ≤ index.size.toNat) (most : index.size.toNat ≤ 8)
    {rest : List BlockId} {k : Nat} {synthetic : List Synthetic} {case_ : BlockId} {s : Pcode.Machine}
    (running : s.left = false)
    (kept : switchTests firstSynthetic at_ index first last (k + 1) rest synthetic <+: all)
    (apart : ∀ j < rest.length, overlaps (switchTemp at_ (k + j) 1) index = false)
    {hit : Nat} (inside : hit ≤ rest.length) (isHit : s.read env index = caseValue index first (k + hit))
    (isFirst : ∀ j < hit, s.read env index ≠ caseValue index first (k + j)) :
    follow env (stored firstSynthetic all) hit (step env s (switchTest at_ index first k).2.2)
      (.cbranch (switchTest at_ index first k).1 case_ (elseBlock firstSynthetic last rest synthetic.length)) =
      (case_ :: rest)[hit]? := by
  induction rest generalizing k synthetic case_ s hit with
  | nil =>
    obtain rfl : hit = 0 := Nat.le_zero.mp inside
    exact next_cbranch env (test_hits least most running isHit)
  | cons other rest ih =>
    cases hit with
    | zero => exact next_cbranch env (test_hits least most running isHit)
    | succ hit =>
      have fails := @test_fails env at_ index first k least most s running (isFirst 0 (Nat.succ_pos hit))
      have running' := (@test_step env at_ index first k least most s running).1
      have same := @test_keeps env at_ index first k s (apart 0 (Nat.succ_pos _))
      have isHit' : (step env s (switchTest at_ index first k).2.2).read env index = caseValue index first (k + 1 + hit) := by
        rw [same,isHit,show k + 1 + hit = k + (hit + 1) by omega]
      have isFirst' : ∀ j < hit, (step env s (switchTest at_ index first k).2.2).read env index ≠
          caseValue index first (k + 1 + j) := fun j before => by
        rw [same,show k + 1 + j = k + (j + 1) by omega]
        exact isFirst (j + 1) (Nat.succ_lt_succ before)
      have apart' : ∀ j < rest.length, overlaps (switchTemp at_ (k + 1 + j) 1) index = false := fun j inRest => by
        rw [show k + 1 + j = k + (j + 1) by omega]
        exact apart (j + 1) (Nat.succ_lt_succ inRest)
      rw [follow_else kept fails]
      have later := @ih (k + 1) _ other _ running' kept apart' hit (Nat.le_of_succ_le_succ inside) isHit' isFirst'
      rwa [List.length_append] at later

theorem follow_miss {all : List Synthetic} (least : 1 ≤ index.size.toNat) (most : index.size.toNat ≤ 8)
    {rest : List BlockId} {k : Nat} {synthetic : List Synthetic} {case_ : BlockId} {s : Pcode.Machine}
    (running : s.left = false)
    (kept : switchTests firstSynthetic at_ index first last (k + 1) rest synthetic <+: all)
    (apart : ∀ j < rest.length, overlaps (switchTemp at_ (k + j) 1) index = false)
    (misses : ∀ j ≤ rest.length, s.read env index ≠ caseValue index first (k + j)) :
    follow env (stored firstSynthetic all) rest.length (step env s (switchTest at_ index first k).2.2)
      (.cbranch (switchTest at_ index first k).1 case_ (elseBlock firstSynthetic last rest synthetic.length)) =
      some last := by
  induction rest generalizing k synthetic case_ s with
  | nil => exact next_cbranch env (test_fails least most running (misses 0 (Nat.le_refl 0)))
  | cons other rest ih =>
    have fails := @test_fails env at_ index first k least most s running (misses 0 (Nat.zero_le _))
    have running' := (@test_step env at_ index first k least most s running).1
    have same := @test_keeps env at_ index first k s (apart 0 (Nat.succ_pos _))
    have misses' : ∀ j ≤ rest.length, (step env s (switchTest at_ index first k).2.2).read env index ≠
        caseValue index first (k + 1 + j) := fun j inRest => by
      rw [same,show k + 1 + j = k + (j + 1) by omega]
      exact misses (j + 1) (Nat.succ_le_succ inRest)
    have apart' : ∀ j < rest.length, overlaps (switchTemp at_ (k + 1 + j) 1) index = false := fun j inRest => by
      rw [show k + 1 + j = k + (j + 1) by omega]
      exact apart (j + 1) (Nat.succ_lt_succ inRest)
    rw [List.length_cons,follow_else kept fails]
    have later := @ih (k + 1) _ other _ running' kept apart' misses'
    rwa [List.length_append] at later

theorem switchTests_named {cases_ : List BlockId} {k : Nat} {rest : List BlockId} {synthetic : List Synthetic}
    (areCases : ∀ case_ ∈ rest, case_ ∈ cases_) (isLast : last ∈ cases_) :
    ∃ new, switchTests firstSynthetic at_ index first last k rest synthetic = synthetic ++ new ∧
      new.length = rest.length ∧ ∀ added ∈ new, ∀ next ∈ added.terminator.successors,
        next ∈ cases_ ∨ ∃ place < new.length, next = firstSynthetic + (synthetic.length + place) := by
  induction rest generalizing k synthetic with
  | nil => exact ⟨[],by simp [switchTests],rfl,nofun⟩
  | cons case_ rest ih =>
    obtain ⟨new,isNew,sameLength,named⟩ := @ih (k + 1)
      (synthetic ++ [testBlock firstSynthetic at_ index first last k case_ rest (synthetic.length + 1)])
      (fun other isOther => areCases other (List.mem_cons_of_mem _ isOther))
    refine ⟨testBlock firstSynthetic at_ index first last k case_ rest (synthetic.length + 1) :: new,?_,?_,?_⟩
    · rw [switchTests_cons,isNew,List.append_assoc,List.singleton_append]
    · simp [sameLength]
    · intro added isAdded next isNext
      rcases List.mem_cons.mp isAdded with rfl | later
      · rcases List.mem_cons.mp isNext with rfl | fall
        · exact Or.inl (areCases _ List.mem_cons_self)
        · cases rest with
          | nil => exact Or.inl (List.mem_singleton.mp fall ▸ isLast)
          | cons other rest => exact Or.inr ⟨1,by simp [sameLength],List.mem_singleton.mp fall⟩
      · rcases named added later next isNext with isCase | ⟨place,inNew,isPlace⟩
        · exact Or.inl isCase
        · refine Or.inr ⟨place + 1,Nat.succ_lt_succ inNew,?_⟩
          rw [isPlace,List.length_append,List.length_singleton,Nat.add_assoc,Nat.add_comm 1 place]

end Chain

-- What the tests added to the block of the jump, the new synthetic blocks and the terminator do for the table.
structure Implements (firstSynthetic : Nat) (synthetic : List Synthetic) (index : Varnode) (first : Int)
    (cases_ : List BlockId) (tests : List Op) (new : List Synthetic) (head : Terminator) : Prop where
  hit : ∀ env all s k, synthetic ++ new <+: all → s.left = false → k < cases_.length →
    s.read env index = caseValue index first k → (∀ j < k, s.read env index ≠ caseValue index first j) →
    follow env (stored firstSynthetic all) (min k (cases_.length - 2)) (runOps env tests s) head = cases_[k]?
  miss : ∀ env all s, synthetic ++ new <+: all → s.left = false →
    (∀ k < cases_.length, s.read env index ≠ caseValue index first k) →
    follow env (stored firstSynthetic all) (cases_.length - 2) (runOps env tests s) head = cases_.getLast?
  named : ∀ terminator, (terminator = head ∨ ∃ added ∈ new, terminator = added.terminator) →
    ∀ next ∈ terminator.successors, next ∈ cases_ ∨ ∃ place < new.length, next = firstSynthetic + (synthetic.length + place)
  reachable : cases_.length ≤ 256 ^ index.size.toNat → ∀ k < cases_.length, ∃ value < 256 ^ index.size.toNat,
    (∀ env all s, synthetic ++ new <+: all → s.left = false → s.read env index = value →
      follow env (stored firstSynthetic all) (min k (cases_.length - 2)) (runOps env tests s) head = cases_[k]?) ∧
    (index.space ≠ .const → ∀ env, ∃ s : Pcode.Machine, s.left = false ∧ s.read env index = value)

theorem caseValue_distinct {index : Varnode} {first : Int} {count j k : Nat} (count_le : count ≤ 256 ^ index.size.toNat)
    (before : j < k) (inside : k < count) : caseValue index first k ≠ caseValue index first j := by
  intro same
  have positive : (0 : Int) < (256 ^ index.size.toNat : Nat) := by positivity
  unfold caseValue at same
  have left := Int.emod_nonneg (first + k) (ne_of_gt positive)
  have right := Int.emod_nonneg (first + j) (ne_of_gt positive)
  have congruent : (first + k) % (256 ^ index.size.toNat : Nat) = (first + j) % (256 ^ index.size.toNat : Nat) := by
    omega
  have difference : ((256 ^ index.size.toNat : Nat) : Int) ∣ (k - j : Int) := by
    have divides : ((256 ^ index.size.toNat : Nat) : Int) ∣ first + k - (first + j) := Int.ModEq.dvd congruent.symm
    rwa [show first + (k : Int) - (first + j) = k - j by ring] at divides
  have bounded := Int.le_of_dvd (by omega) difference
  omega

section SwitchChain

variable {ops : List Op} {synthetic : List Synthetic} {firstSynthetic at_ : Nat} {index : Varnode} {first : Int}

theorem switchChain_one (last : BlockId) :
    switchChain ops synthetic firstSynthetic at_ index first [last] = (ops,synthetic,.branch last) := rfl

theorem switchChain_many (case_ : BlockId) (rest : List BlockId) (last : BlockId) :
    switchChain ops synthetic firstSynthetic at_ index first (case_ :: rest ++ [last]) =
      (ops ++ [(switchTest at_ index first 0).2],switchTests firstSynthetic at_ index first last 1 rest synthetic,
        .cbranch (switchTest at_ index first 0).1 case_ (elseBlock firstSynthetic last rest synthetic.length)) := by
  unfold switchChain
  rw [List.getLast?_concat,List.dropLast_concat]
  rfl

theorem reachable_of_hit {cases_ : List BlockId} {goes : Env → List Synthetic → Pcode.Machine → Nat → Prop}
    (hit : ∀ env all s k, synthetic <+: all → s.left = false → k < cases_.length →
      s.read env index = caseValue index first k → (∀ j < k, s.read env index ≠ caseValue index first j) → goes env all s k)
    (few : cases_.length ≤ 256 ^ index.size.toNat) {k : Nat} (inside : k < cases_.length) :
    ∃ value < 256 ^ index.size.toNat,
      (∀ env all s, synthetic <+: all → s.left = false → s.read env index = value → goes env all s k) ∧
      (index.space ≠ .const → ∀ env, ∃ s : Pcode.Machine, s.left = false ∧ s.read env index = value) := by
  refine ⟨caseValue index first k,caseValue_lt,?_,?_⟩
  · intro env all s kept running isValue
    refine hit env all s k kept running inside isValue fun j before => ?_
    rw [isValue]
    exact caseValue_distinct few before inside
  · intro located env
    refine ⟨emptyMachine.write env index (caseValue index first k),rfl,?_⟩
    rw [Pcode.Machine.read_write located,Nat.mod_eq_of_lt caseValue_lt]

theorem implements_one (last : BlockId) :
    Implements firstSynthetic synthetic index first [last] [] [] (.branch last) := by
  have hit : ∀ env (all : List Synthetic) s k, synthetic ++ [] <+: all → s.left = false → k < [last].length →
      s.read env index = caseValue index first k → (∀ j < k, s.read env index ≠ caseValue index first j) →
      follow env (stored firstSynthetic all) (min k ([last].length - 2)) (runOps env [] s) (.branch last) =
        [last][k]? := by
    intro env all s k _ _ inside _ _
    obtain rfl : k = 0 := Nat.lt_one_iff.mp inside
    rfl
  refine ⟨hit,fun _ _ _ _ _ _ => rfl,?_,fun few k inside => reachable_of_hit hit few inside⟩
  rintro terminator (rfl | ⟨added,isAdded,_⟩) next isNext
  · exact Or.inl isNext
  · cases isAdded

theorem implements_many (least : 1 ≤ index.size.toNat) (most : index.size.toNat ≤ 8) {case_ last : BlockId}
    {rest : List BlockId} {new : List Synthetic} (apart : Apart at_ index (case_ :: rest ++ [last]).length)
    (isNew : switchTests firstSynthetic at_ index first last 1 rest synthetic = synthetic ++ new)
    (sameLength : new.length = rest.length)
    (named : ∀ added ∈ new, ∀ next ∈ added.terminator.successors,
      next ∈ case_ :: rest ++ [last] ∨ ∃ place < new.length, next = firstSynthetic + (synthetic.length + place)) :
    Implements firstSynthetic synthetic index first (case_ :: rest ++ [last]) [(switchTest at_ index first 0).2] new
      (.cbranch (switchTest at_ index first 0).1 case_ (elseBlock firstSynthetic last rest synthetic.length)) := by
  have count : (case_ :: rest ++ [last]).length = rest.length + 2 := by simp
  have testsApart : ∀ j < rest.length, overlaps (switchTemp at_ (0 + j) 1) index = false := fun j inRest => by
    rw [Nat.zero_add]
    exact apart j (by omega)
  have miss : ∀ env all (s : Pcode.Machine), synthetic ++ new <+: all → s.left = false →
      (∀ j ≤ rest.length, s.read env index ≠ caseValue index first j) →
      follow env (stored firstSynthetic all) rest.length (runOps env [(switchTest at_ index first 0).2] s)
        (.cbranch (switchTest at_ index first 0).1 case_ (elseBlock firstSynthetic last rest synthetic.length)) =
        some last := fun env all s kept running misses =>
    follow_miss least most running (isNew ▸ kept) testsApart fun j inRest => by
      rw [Nat.zero_add]
      exact misses j inRest
  have hit : ∀ env all (s : Pcode.Machine) k, synthetic ++ new <+: all → s.left = false → k < (case_ :: rest ++ [last]).length →
      s.read env index = caseValue index first k → (∀ j < k, s.read env index ≠ caseValue index first j) →
      follow env (stored firstSynthetic all) (min k ((case_ :: rest ++ [last]).length - 2))
        (runOps env [(switchTest at_ index first 0).2] s)
        (.cbranch (switchTest at_ index first 0).1 case_ (elseBlock firstSynthetic last rest synthetic.length)) =
        (case_ :: rest ++ [last])[k]? := by
    intro env all s k kept running inside isHit isFirst
    rw [count] at inside ⊢
    rcases Nat.lt_or_ge rest.length k with isLast | tested
    · obtain rfl : k = rest.length + 1 := by omega
      rw [Nat.min_eq_right (by omega),Nat.add_sub_cancel,miss env all s kept running fun j inRest => isFirst j (by omega)]
      simp
    · have isCase : (case_ :: rest ++ [last])[k]? = (case_ :: rest)[k]? :=
        List.getElem?_append_left (Nat.lt_succ_of_le tested)
      rw [Nat.min_eq_left (by omega),isCase]
      refine follow_hit least most running (isNew ▸ kept) testsApart tested ?_ fun j before => ?_
      · rwa [Nat.zero_add]
      · rw [Nat.zero_add]
        exact isFirst j before
  refine ⟨hit,?_,?_,fun few k inside => reachable_of_hit hit few inside⟩
  · intro env all s kept running misses
    rw [count,Nat.add_sub_cancel,miss env all s kept running fun j inRest => misses j (by omega),List.getLast?_concat]
  · rintro terminator (rfl | ⟨added,isAdded,rfl⟩) next isNext
    · rcases List.mem_cons.mp isNext with rfl | fall
      · exact Or.inl List.mem_cons_self
      · rw [List.mem_singleton.mp fall]
        cases rest with
        | nil => exact Or.inl (by simp [elseBlock])
        | cons other rest => exact Or.inr ⟨0,by simp [sameLength],rfl⟩
    · exact named added isAdded next isNext

theorem switchChain_implements {cases_ : List BlockId} (some : cases_ ≠ []) (least : 1 ≤ index.size.toNat)
    (most : index.size.toNat ≤ 8) (apart : Apart at_ index cases_.length) :
    ∃ tests new head, switchChain ops synthetic firstSynthetic at_ index first cases_ = (ops ++ tests,synthetic ++ new,head) ∧
      Implements firstSynthetic synthetic index first cases_ tests new head := by
  obtain ⟨tested,last,rfl⟩ : ∃ tested last, cases_ = tested ++ [last] :=
    ⟨cases_.dropLast,cases_.getLast some,(List.dropLast_append_getLast some).symm⟩
  cases tested with
  | nil => exact ⟨[],[],.branch last,by simp [switchChain_one],implements_one last⟩
  | cons case_ rest =>
    obtain ⟨new,isNew,sameLength,named⟩ := @switchTests_named firstSynthetic at_ index first last (case_ :: rest ++ [last]) 1
      rest synthetic (fun other isOther => by simp [isOther]) (by simp)
    exact ⟨_,new,_,by rw [switchChain_many,isNew],implements_many least most apart isNew sameLength named⟩

end SwitchChain

theorem apart_program {at_ count : Nat} {index : Varnode} (least : 1 ≤ index.size.toNat)
    (below : index.space = .unique → index.offset.toNat + index.size.toNat ≤ 3 * 2 ^ 61) : Apart at_ index count := by
  intro k _
  by_cases isUnique : index.space = .unique
  · have reserved : 3 * 2 ^ 61 ≤ (switchTemp at_ k 1).offset.toNat := by
      simp only [switchTemp,UInt64.toNat_or]
      exact (Nat.left_le_or.trans Nat.left_le_or)
    have bound := (switchTemp at_ k 1).offset.toNat_lt
    have first := UInt64.toNat_sub index.offset (switchTemp at_ k 1).offset
    have second := UInt64.toNat_sub (switchTemp at_ k 1).offset index.offset
    have isBelow := below isUnique
    have size : (switchTemp at_ k 1).size.toNat = 1 := rfl
    simp only [overlaps,Bool.and_eq_false_iff,Bool.or_eq_false_iff,decide_eq_false_iff_not,size]
    right
    omega
  · have space : (switchTemp at_ k 1).space = .unique := rfl
    simp [overlaps,space,Ne.symm isUnique]

-- A one byte index with the name of the first test: the test replaces the value that the second one needs.
theorem switchChain_overwritten :
    ¬∃ tests new head, switchChain [] [] 3 0x401000 (switchTemp 0x401000 0 1) 0 [0,1,2] = (tests,new,head) ∧
      Implements 3 [] (switchTemp 0x401000 0 1) 0 [0,1,2] tests new head := by
  rintro ⟨tests,new,head,isChain,implements⟩
  cases isChain
  have second := implements.hit plainEnv _ (emptyMachine.write plainEnv (switchTemp 0x401000 0 1) 1) 1
    (List.prefix_refl _) rfl (by decide) (by decide) (by decide)
  revert second
  decide

theorem switchChain_implements_four :
    ∃ tests new head, switchChain [] [] 4 0x401000 (.register 0 1) 254 [0,1,2,3] = (tests,new,head) ∧
      Implements 4 [] (.register 0 1) 254 [0,1,2,3] tests new head := by
  simpa using @switchChain_implements [] [] 4 0x401000 (.register 0 1) 254 [0,1,2,3] (by decide) (by decide) (by decide)
    (apart_program (by decide) (by decide))

end Rsleigh.Decompile
