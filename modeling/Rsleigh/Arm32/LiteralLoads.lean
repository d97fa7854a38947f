import Rsleigh.Arm32.ConstantSites

namespace Rsleigh.Arm32Raw

open Scanner

section Load

def loadWidth (rest : List Nat) : Nat :=
  ((loadAt rest).map Load.more).getD 0

def Load.literal (base i : Nat) (load : Load) : Nat :=
  wrap (if load.ahead then ((alignedPc base i + load.distance : Nat) : Int)
    else (alignedPc base i : Int) - (load.distance : Nat))

-- A load is read without failing: no address passes the end of the address space where that is checked, and the
-- literal does not lie in the last bytes of the address space, as seen from the base.
def Load.Safe (checked : Bool) (base i : Nat) (load : Load) : Prop :=
  Fits checked base i (if load.ahead then load.distance else 0) ∧
    (base ≤ load.literal base i → load.literal base i - base + 4 < 2 ^ 64)

variable {checked : Bool} {data : List UInt8} {base i : Nat}

theorem loadStep_run (rest : List Nat) : loadStep checked data base i rest =
    ((loadAt rest).elim (some none) (loadRun checked data base i)).map fun found => (found,loadWidth rest) := by
  unfold loadStep loadWidth
  cases loadAt rest <;> rfl

-- The word at an address is read, or the reading fails at the end of the address space.
theorem readU32At_word {va : Nat} (inside : base ≤ va → va - base + 4 < 2 ^ 64) :
    readU32At checked data base va = some (wordAt data base va) := by
  unfold readU32At wordAt
  by_cases before : va < base
  · rw [if_pos before,if_neg fun held => by omega]
  · have fits := inside (by omega)
    rw [if_neg before,plus_small fits,Option.bind_eq_bind,Option.bind_some]
    by_cases short : data.length < va - base + 4
    · rw [if_pos short,if_neg fun held => by omega]
    · rw [if_neg short,if_neg (by omega),if_pos ⟨by omega,by omega⟩]

theorem readU32At_fails {va : Nat} (_small : va < 2 ^ 64) (isAfter : base ≤ va) (past : 2 ^ 64 ≤ va - base + 4) :
    readU32At checked data base va = if checked = false ∧ data.length < (va - base + 4) % 2 ^ 64 then some none
      else none := by
  unfold readU32At
  rw [if_neg (by omega)]
  cases checked with
  | true =>
    rw [plus_none.mpr ⟨rfl,past⟩]
    simp
  | false =>
    rw [plus_unchecked,Option.bind_eq_bind,Option.bind_some]
    by_cases short : data.length < (va - base + 4) % 2 ^ 64
    · rw [if_pos short,if_pos ⟨rfl,short⟩]
    · rw [if_neg short,if_pos (by omega),if_neg fun both => short both.2]

theorem literal_small (load : Load) : load.literal base i < 2 ^ 64 := by
  unfold Load.literal wrap
  omega

-- The load that a value makes.
def Load.reads (base i : Nat) (load : Load) (value : Nat) : PcLiteralLoad :=
  ⟨wrap (base + 2 * i : Nat),load.rt,load.literal base i,value⟩

-- Where the addresses fit, what is read at the literal decides.
theorem loadRun_fits {load : Load} (fits : Fits checked base i (if load.ahead then load.distance else 0)) :
    loadRun checked data base i load =
      (readU32At checked data base (load.literal base i)).map fun read => read.map (load.reads base i) := by
  have run : ∀ address, addressOf checked base i = some (wrap (base + 2 * i : Nat)) →
      address = load.literal base i → loadFrom checked data base i load.rt address =
        (readU32At checked data base (load.literal base i)).map fun read => read.map (load.reads base i) := by
    intro address isAddress same
    rw [same]
    unfold loadFrom
    cases readU32At checked data base (load.literal base i) with
    | none => rfl
    | some read =>
      cases read with
      | none => rfl
      | some value =>
        simp only [Option.bind_eq_bind,Option.bind_some,isAddress]
        rfl
  unfold loadRun
  cases ahead : load.ahead with
  | true =>
    rw [ahead] at fits
    obtain ⟨pc,isPc,isLiteral,isAddress⟩ := forward_some fits
    simp only [if_true] at isLiteral
    simp only [isPc,Option.bind_eq_bind,Option.bind_some,if_true,isLiteral]
    exact run _ isAddress (by rw [Load.literal,ahead,if_pos rfl])
  | false =>
    rw [ahead] at fits
    obtain ⟨isPc,isAddress⟩ := @pcAligned_some checked base i fun isChecked => (fits isChecked).1
    simp only [isPc,Option.bind_eq_bind,Option.bind_some,Bool.false_eq_true,if_false]
    exact run _ isAddress (by rw [Load.literal,ahead,if_neg (by decide),wrap_backward])

theorem literal_none {load : Load} (past : ¬Fits checked base i (if load.ahead then load.distance else 0)) :
    loadRun checked data base i load = none := by
  have fails := forward_none past
  unfold loadRun
  cases isPc : pcAligned checked base i with
  | none => rfl
  | some pc =>
    rw [isPc,Option.bind_some] at fails
    simp only [Option.bind_eq_bind,Option.bind_some]
    cases ahead : load.ahead with
    | true =>
      rw [ahead] at fails
      simp only [if_true] at fails ⊢
      rw [fails]
      rfl
    | false =>
      rw [ahead] at fails past
      exfalso
      have below := plus_none.mp fails
      by_cases first : base + 2 * i + 4 < 2 ^ 64
      · exact past fun _ => ⟨first,by unfold alignedPc; simp; omega⟩
      · rw [pcAligned_none ⟨below.1,by omega⟩] at isPc
        cases isPc

-- The load that is expected, if its literal lies in the blob.
def Load.found (data : List UInt8) (base i : Nat) (load : Load) : Option PcLiteralLoad :=
  (wordAt data base (load.literal base i)).map (load.reads base i)

theorem loadRun_safe {load : Load} (safe : load.Safe checked base i) :
    loadRun checked data base i load = some (load.found data base i) := by
  rw [loadRun_fits safe.1,readU32At_word safe.2]
  rfl

-- A load that is not safe fails, or there is no room for its literal.
theorem loadRun_unsafe {load : Load} (notSafe : ¬load.Safe checked base i) :
    loadRun checked data base i load = none ∨ data.length < 4 ∧ 2 ^ 64 ≤ load.literal base i - base + 4 ∧
      loadRun checked data base i load = some none := by
  by_cases fits : Fits checked base i (if load.ahead then load.distance else 0)
  · obtain ⟨isAfter,past⟩ := Classical.not_imp.mp fun held => notSafe ⟨fits,held⟩
    have small := @literal_small base i load
    have read := @readU32At_fails checked data base _ small isAfter (by omega)
    rw [loadRun_fits fits,read]
    split
    · rename_i short
      exact Or.inr ⟨by omega,by omega,rfl⟩
    · exact Or.inl rfl
  · exact Or.inl (literal_none fits)

-- What is returned is the load that is expected.
theorem loadRun_found {load : Load} {found : Option PcLiteralLoad}
    (ran : loadRun checked data base i load = some found) : found = load.found data base i := by
  by_cases safe : load.Safe checked base i
  · rw [loadRun_safe safe] at ran
    exact (Option.some.inj ran).symm
  · rcases loadRun_unsafe safe with fails | ⟨short,past,isNone⟩
    · rw [fails] at ran
      cases ran
    · have absent : wordAt data base (load.literal base i) = none := if_neg fun held => by omega
      rw [isNone] at ran
      rw [Load.found,absent]
      exact (Option.some.inj ran).symm

-- Where there is room for a load, one that is not safe fails.
theorem loadRun_isSome {load : Load} (room : load.ahead = true ∧ load.distance < 4096 ∧ 2 * i + 2 ≤ data.length ∨
    4 ≤ data.length) : (loadRun checked data base i load).isSome = true ↔ load.Safe checked base i := by
  constructor
  · intro returned
    by_contra notSafe
    rcases loadRun_unsafe notSafe with fails | ⟨short,past,_⟩
    · rw [fails] at returned
      cases returned
    · rcases room with ⟨ahead,near,long⟩ | long
      · have reached : load.literal base i ≤ alignedPc base i + load.distance := by
          unfold Load.literal
          rw [ahead,if_pos rfl,wrap_nat]
          exact Nat.mod_le _ _
        unfold alignedPc at reached
        omega
      · omega
  · intro safe
    rw [loadRun_safe safe]
    rfl

end Load

section LoadProgram

variable (checked : Bool) (base : Nat)

theorem halfwords_length : ∀ data : List UInt8, (halfwords data).length = data.length / 2
  | [] => rfl
  | [_] => by simp [halfwords]
  | _ :: _ :: rest => by
    rw [halfwords,List.length_cons,halfwords_length rest,List.length_cons,List.length_cons]
    omega

theorem loadAt_spec {rest : List Nat} {load : Load} (found : loadAt rest = some load) :
    load.distance < 4096 ∧ load.more < rest.length ∧ (load.more = 0 → load.ahead = true) := by
  cases rest with
  | nil => cases found
  | cons hw1 later =>
    rw [loadAt] at found
    split at found
    · cases found
      have small : hw1 &&& 0xFF ≤ 0xFF := Nat.and_le_right
      exact ⟨by show (hw1 &&& 0xFF) * 4 < 4096; omega,Nat.succ_pos _,fun _ => rfl⟩
    · obtain ⟨hw2,isHead,found⟩ := Option.bind_eq_some_iff.mp found
      obtain ⟨_,same⟩ := Option.ite_none_right_eq_some.mp found
      cases same
      have small : hw2 &&& 0xFFF ≤ 0xFFF := Nat.and_le_right
      obtain ⟨rest,rfl⟩ := List.head?_eq_some_iff.mp isHead
      exact ⟨by show hw2 &&& 0xFFF < 4096; omega,by simp,fun zero => absurd zero Nat.one_ne_zero⟩

-- The scanner fails exactly where it meets a load that is not safe.
theorem findPcLiteralLoads_isSome (data : List UInt8) : (findPcLiteralLoads checked data base).isSome = true ↔
    ∀ place ∈ visited loadWidth 0 0 (halfwords data), ∀ load, loadAt place.2 = some load →
      load.Safe checked base place.1 := by
  have steps : ∀ i x rest found more, loadStep checked data base i (x :: rest) = some (found,more) →
      more = loadWidth (x :: rest) := by
    intro i x rest found more stepped
    rw [loadStep_run] at stepped
    obtain ⟨_,_,same⟩ := Option.map_eq_some_iff.mp stepped
    exact (Prod.mk.inj same).2.symm
  rw [findPcLiteralLoads,scan_isSome steps]
  refine forall₂_congr fun place member => ?_
  obtain ⟨_,long⟩ := visited_bound place member
  rw [halfwords_length] at long
  rw [loadStep_run,Option.isSome_map]
  cases found : loadAt place.2 with
  | none => simp
  | some load =>
    have room : load.ahead = true ∧ load.distance < 4096 ∧ 2 * place.1 + 2 ≤ data.length ∨ 4 ≤ data.length := by
      obtain ⟨near,inside,narrow⟩ := loadAt_spec found
      by_cases zero : load.more = 0
      · exact Or.inl ⟨narrow zero,near,by omega⟩
      · exact Or.inr (by omega)
    rw [Option.elim_some,loadRun_isSome room]
    simp

def LoadInstr.load : LoadInstr → Option Load
  | .nop => none
  | .t1 rt imm8 => some ⟨rt,true,imm8 * 4,0⟩
  | .t2 add rt imm12 => some ⟨rt,add,imm12,1⟩

theorem load_found (blob : List UInt8) (i : Nat) (instr : LoadInstr) :
    (instr.load.bind fun load => load.found blob base i).toList = instr.loads blob base i := by
  cases instr with
  | nop => rfl
  | t1 rt imm8 =>
    unfold LoadInstr.loads LoadInstr.load LoadInstr.literal
    simp only [Option.bind_some,Load.found,Load.literal,if_true,Nat.mul_comm imm8.val 4]
    rfl
  | t2 add rt imm12 => cases add <;> rfl

theorem loadAt_encode (instr : LoadInstr) (rest : List Nat) : loadAt (instr.encode ++ rest) = instr.load ∧
    instr.encode.length = (instr.load.map Load.more).getD 0 + 1 := by
  cases instr with
  | nop => exact ⟨by cases rest <;> rfl,rfl⟩
  | t1 rt imm8 =>
    have opcode : (0x4800 + rt.val * 256 + imm8.val) &&& 0xF800 = 0x4800 := by
      rw [land_top]
      omega
    have low : (0x4800 + rt.val * 256 + imm8.val) &&& 0xFF = imm8 := by
      rw [low_byte]
      omega
    have register : ((0x4800 + rt.val * 256 + imm8.val) >>> 8) &&& 0x7 = rt := by
      rw [field_register]
      omega
    refine ⟨?_,rfl⟩
    show loadAt ((0x4800 + rt.val * 256 + imm8.val) :: rest) = _
    rw [loadAt,if_pos opcode,low,register]
    rfl
  | t2 add rt imm12 =>
    have low : (rt.val * 4096 + imm12.val) &&& 0xFFF = imm12 := by
      rw [show (0xFFF : Nat) = 2 ^ 12 - 1 from rfl,Nat.and_two_pow_sub_one_eq_mod]
      omega
    have register : ((rt.val * 4096 + imm12.val) >>> 12) &&& 0xF = rt := by
      rw [show (0xF : Nat) = 2 ^ 4 - 1 from rfl,field]
      omega
    refine ⟨?_,rfl⟩
    show loadAt ((if add then 0xF8DF else 0xF85F) :: (rt.val * 4096 + imm12.val) :: rest) = _
    unfold loadAt
    cases add with
    | true => simp [low,register,LoadInstr.load]
    | false => simp [low,register,LoadInstr.load]

def loadFound (blob : List UInt8) (i : Nat) (instr : LoadInstr) : Option (List PcLiteralLoad) :=
  (instr.load.elim (some none) (loadRun checked blob base i)).map Option.toList

theorem load_each (blob : List UInt8) (i : Nat) (instr : LoadInstr) (rest : List Nat) :
    scan (loadStep checked blob base) 0 i (instr.encode ++ rest) = (loadFound checked base blob i instr).bind fun found =>
      (scan (loadStep checked blob base) 0 (i + instr.encode.length) rest).map (found ++ ·) := by
  obtain ⟨isLoad,isWidth⟩ := loadAt_encode instr rest
  obtain ⟨x,tail,shape⟩ : ∃ x tail, instr.encode = x :: tail := by cases instr <;> exact ⟨_,_,rfl⟩
  have stepped := @loadStep_run checked blob base i (instr.encode ++ rest)
  have width : loadWidth (instr.encode ++ rest) = tail.length := by
    rw [shape,List.length_cons] at isWidth
    rw [loadWidth,isLoad]
    omega
  rw [isLoad,width,shape] at stepped
  rw [shape,scan_instruction x tail rest i _ stepped,loadFound]
  cases instr.load.elim (some none) (loadRun checked blob base i) <;> rfl

def loadsOf (blob : List UInt8) (program : List LoadInstr) : List PcLiteralLoad :=
  (placed LoadInstr.encode 0 program).flatMap fun place => place.2.loads blob base place.1

theorem load_small (instr : LoadInstr) : ∀ hw ∈ instr.encode, hw < 65536 := by
  cases instr with
  | nop => decide
  | t1 rt imm8 =>
    intro hw member
    rw [List.mem_singleton.mp member]
    omega
  | t2 add rt imm12 =>
    intro hw member
    rcases List.mem_cons.mp member with rfl | member
    · cases add <;> decide
    · rw [List.mem_singleton.mp member]
      omega

theorem gather_expected {blob : List UInt8} {places : List (Nat × LoadInstr)} {found : List PcLiteralLoad}
    (gathered : gather (loadFound checked base blob) places = some found) :
    places.flatMap (fun place => place.2.loads blob base place.1) = found := by
  induction places generalizing found with
  | nil => exact Option.some.inj gathered
  | cons place places ih =>
    obtain ⟨i,instr⟩ := place
    obtain ⟨one,isOne,gathered⟩ := Option.bind_eq_some_iff.mp gathered
    obtain ⟨others,isOthers,gathered⟩ := Option.bind_eq_some_iff.mp gathered
    cases gathered
    obtain ⟨expected,ran,rfl⟩ := Option.map_eq_some_iff.mp isOne
    rw [List.flatMap_cons,ih isOthers,← load_found]
    cases isLoad : instr.load with
    | none =>
      rw [isLoad] at ran
      cases ran
      rfl
    | some load =>
      rw [isLoad] at ran
      rw [loadRun_found ran]
      rfl

-- The loads that are found of a program start with those that are expected.
theorem findPcLiteralLoads_program {program : List LoadInstr} {data : List UInt8} {found : List PcLiteralLoad}
    (returned : findPcLiteralLoads checked (assemble LoadInstr.encode program ++ data) base = some found) :
    loadsOf base (assemble LoadInstr.encode program ++ data) program <+: found := by
  unfold findPcLiteralLoads at returned
  rw [halfwords_assemble load_small program data,
    scan_program (load_each checked base (assemble LoadInstr.encode program ++ data))] at returned
  obtain ⟨first,gathered,returned⟩ := Option.bind_eq_some_iff.mp returned
  obtain ⟨later,_,rfl⟩ := Option.map_eq_some_iff.mp returned
  rw [loadsOf,gather_expected checked base gathered]
  exact ⟨later,rfl⟩

end LoadProgram

section Panics

variable {checked : Bool} {base : Nat}

-- Below the middle of the address space only a load that reads back past the start of it is unsafe.
def Load.Wraps (base i : Nat) (load : Load) : Prop :=
  load.ahead = false ∧ alignedPc base i < load.distance ∧ load.distance + base ≤ alignedPc base i + 4

theorem safe_iff {i length : Nat} {load : Load} (low : base + length < 2 ^ 63) (inside : 2 * i < length)
    (near : load.distance < 4096) : load.Safe checked base i ↔ ¬load.Wraps base i := by
  have pc : alignedPc base i ≤ base + 2 * i + 4 := by
    unfold alignedPc
    omega
  unfold Load.Safe Load.Wraps Load.literal
  cases ahead : load.ahead with
  | true =>
    simp only [if_true,wrap_nat,Bool.true_eq_false,false_and,not_false_eq_true,iff_true]
    exact ⟨fun _ => by omega,fun _ => by omega⟩
  | false =>
    have fits : Fits checked base i 0 := fun _ => by omega
    have wrapped : wrap ((alignedPc base i : Int) - (load.distance : Nat)) =
        if load.distance ≤ alignedPc base i then alignedPc base i - load.distance
        else 2 ^ 64 + alignedPc base i - load.distance := by
      unfold wrap
      split <;> omega
    simp only [Bool.false_eq_true,if_false,true_and,wrapped]
    constructor
    · intro safe wraps
      have bound := safe.2
      rw [if_neg (by omega)] at bound
      omega
    · intro notWraps
      refine ⟨fits,?_⟩
      split <;> omega

theorem adrStep_isSome {i : Nat} (hws : List Nat) (low : base + 2 * i < 2 ^ 63) :
    (adrStep checked base i hws).isSome = true := by
  obtain ⟨isPc,isAddress⟩ := @pcAligned_some checked base i fun _ => by omega
  cases hws with
  | nil => rfl
  | cons hw1 later =>
    by_cases narrow : hw1 &&& 0xF800 = 0xA000
    · have small : hw1 &&& 0xFF ≤ 0xFF := Nat.and_le_right
      have pc : alignedPc base i ≤ base + 2 * i + 4 := by
        unfold alignedPc
        omega
      unfold adrStep
      simp only [if_pos narrow,isPc,isAddress,Option.bind_eq_bind,Option.bind_some]
      rw [plus_small (by omega)]
      rfl
    · rw [adrStep_other narrow]
      rfl

theorem movStep_isSome {i : Nat} (hws : List Nat) (low : base + 2 * i < 2 ^ 63) :
    (movStep checked base i hws).isSome = true := by
  have isAddress : addressOf checked base i = some (base + 2 * i) := plus_small (by omega)
  unfold movStep
  split
  · split
    · rfl
    · split
      · rfl
      · split
        · rfl
        · rw [isAddress]
          rfl
  · rfl

end Panics

section Exact

variable (checked : Bool) (base : Nat) (adrs : List AdrInstr) (movs : List MovInstr) (loads : List LoadInstr)
  (data blob : List UInt8)

-- The scanners invert the assembler, and do not fail on a blob in the lower half of the address space.
def Inverts : Prop :=
  findAdrSites checked (assemble AdrInstr.encode adrs) base = some (sitesOf base adrs) ∧
  findMovwMovtPairs checked (assemble MovInstr.encode movs) base = some (pairsOf base movs) ∧
  (∃ found, findPcLiteralLoads checked (assemble LoadInstr.encode loads ++ data) base = some found ∧
    loadsOf base (assemble LoadInstr.encode loads ++ data) loads <+: found) ∧
  (base + blob.length < 2 ^ 63 → (findAdrSites checked blob base).isSome = true ∧
    (findMovwMovtPairs checked blob base).isSome = true ∧ (findPcLiteralLoads checked blob base).isSome = true)

-- No ADR is wide, no address passes the end of the address space where that is checked, and no load that the
-- scanner meets reads back past the start of the address space to just before the base.
theorem inverts_iff : Inverts checked base adrs movs loads data blob ↔
    (∀ instr ∈ adrs, instr.isWide = false) ∧
    (∀ place ∈ placed AdrInstr.encode 0 adrs, place.2.InRange checked base place.1) ∧
    (∀ place ∈ placed MovInstr.encode 0 movs, place.2.isPair = true → checked = true → base + 2 * place.1 < 2 ^ 64) ∧
    (∀ place ∈ visited loadWidth 0 0 (halfwords (assemble LoadInstr.encode loads ++ data)), ∀ load,
      loadAt place.2 = some load → load.Safe checked base place.1) ∧
    (base + blob.length < 2 ^ 63 → ∀ place ∈ visited loadWidth 0 0 (halfwords blob), ∀ load,
      loadAt place.2 = some load → ¬load.Wraps base place.1) := by
  have returns : (∃ found, findPcLiteralLoads checked (assemble LoadInstr.encode loads ++ data) base = some found ∧
      loadsOf base (assemble LoadInstr.encode loads ++ data) loads <+: found) ↔
      (findPcLiteralLoads checked (assemble LoadInstr.encode loads ++ data) base).isSome = true := by
    constructor
    · intro ⟨found,returned,_⟩
      rw [returned]
      rfl
    · intro isSome
      obtain ⟨found,returned⟩ := Option.isSome_iff_exists.mp isSome
      exact ⟨found,returned,findPcLiteralLoads_program checked base returned⟩
  have panics (low : base + blob.length < 2 ^ 63) : ((findAdrSites checked blob base).isSome = true ∧
      (findMovwMovtPairs checked blob base).isSome = true ∧ (findPcLiteralLoads checked blob base).isSome = true) ↔
      ∀ place ∈ visited loadWidth 0 0 (halfwords blob), ∀ load, loadAt place.2 = some load →
        ¬load.Wraps base place.1 := by
    have length := halfwords_length blob
    have isAdr : (findAdrSites checked blob base).isSome = true :=
      @scan_total _ _ _ (blob.length / 2) (fun i hws inside => adrStep_isSome hws (by omega)) _ 0 0 (by omega)
    have isMov : (findMovwMovtPairs checked blob base).isSome = true :=
      @scan_total _ _ _ (blob.length / 2) (fun i hws inside => movStep_isSome hws (by omega)) _ 0 0 (by omega)
    rw [findPcLiteralLoads_isSome]
    refine ⟨fun all => ?_,fun all => ⟨isAdr,isMov,?_⟩⟩
    · intro place member load found
      have bound := visited_bound place member
      obtain ⟨near,inside,_⟩ := loadAt_spec found
      exact (safe_iff low (by omega) near).mp (all.2.2 place member load found)
    · intro place member load found
      have bound := visited_bound place member
      obtain ⟨near,inside,_⟩ := loadAt_spec found
      exact (safe_iff low (by omega) near).mpr (all place member load found)
  unfold Inverts
  rw [findAdrSites_iff,findMovwMovtPairs_iff,returns,findPcLiteralLoads_isSome,and_assoc]
  refine and_congr_right fun _ => and_congr_right fun _ => and_congr_right fun _ => and_congr_right fun _ => ?_
  exact forall_congr' panics

end Exact

-- A wide ADR is not found.
theorem wide_not_found : ¬∀ (checked : Bool) (base : Nat) (adrs : List AdrInstr) (movs : List MovInstr)
    (loads : List LoadInstr) (data blob : List UInt8), base % 2 = 0 → Inverts checked base adrs movs loads data blob := by
  intro all
  have inverts := all false 0x8000 [.t3 0 4] [] [] [] [] rfl
  exact absurd inverts.1 (by decide +kernel)

end Rsleigh.Arm32Raw
