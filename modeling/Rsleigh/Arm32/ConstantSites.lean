import Rsleigh.Arm32.Scanners

namespace Rsleigh.Arm32Raw

open Scanner

section Adr

variable {checked : Bool} {base i : Nat}

theorem adrStep_t1 (rd : Fin 8) (imm8 : Fin 256) (rest : List Nat) :
    adrStep checked base i ((0xA000 + rd * 256 + imm8) :: rest) =
      if Fits checked base i (4 * imm8) then some (((AdrInstr.t1 rd imm8).sites base i).head?,0) else none := by
  have opcode : (0xA000 + rd.val * 256 + imm8.val) &&& 0xF800 = 0xA000 := by
    rw [land_top]
    omega
  have low : (0xA000 + rd.val * 256 + imm8.val) &&& 0xFF = imm8 := by
    rw [low_byte]
    omega
  have register : ((0xA000 + rd.val * 256 + imm8.val) >>> 8) &&& 0x7 = rd := by
    rw [field_register]
    omega
  unfold adrStep
  simp only [if_pos opcode,low,register,Nat.mul_comm imm8.val 4]
  by_cases fits : Fits checked base i (4 * imm8)
  · obtain ⟨pc,isPc,isTarget,isAddress⟩ := forward_some fits
    simp only [isPc,isTarget,isAddress,Option.bind_eq_bind,Option.bind_some,if_pos fits]
    rfl
  · have fails := forward_none fits
    rw [if_neg fits]
    cases isPc : pcAligned checked base i with
    | none => rfl
    | some pc =>
      rw [isPc,Option.bind_some] at fails
      simp only [Option.bind_eq_bind,Option.bind_some,fails,Option.bind_none]

-- What is no T1 ADR is no site.
theorem adrStep_other {hw : Nat} (other : hw &&& 0xF800 ≠ 0xA000) (rest : List Nat) :
    adrStep checked base i (hw :: rest) = some (none,0) := by
  unfold adrStep
  simp only [if_neg other]
  cases rest with
  | nil => rfl
  | cons hw2 rest =>
    have never : ¬((hw &&& 0xFBF0 = 0xF20F ∨ hw &&& 0xFBF0 = 0xF2AF) ∧ hw2 &&& 0x8000 = 0) := fun isWide =>
      wide_never hw isWide.1
    simp only [if_neg never]

theorem scan_adr_other {hw : Nat} (other : hw &&& 0xF800 ≠ 0xA000) (rest : List Nat) :
    scan (adrStep checked base) 0 i (hw :: rest) = scan (adrStep checked base) 0 (i + 1) rest := by
  have stepped := scan_instruction hw [] rest i (some none) (@adrStep_other checked base i hw other rest)
  rw [List.cons_append,List.nil_append] at stepped
  rw [stepped]
  cases scan (adrStep checked base) 0 (i + 1) rest <;> simp_all

-- What the scanner finds of an instruction.
def adrFound (checked : Bool) (base i : Nat) : AdrInstr → Option (List AdrSite)
  | .t1 rd imm8 => if Fits checked base i (4 * imm8) then some ((AdrInstr.t1 rd imm8).sites base i) else none
  | _ => some []

theorem wide_other {opcode rd imm12 : Nat} (isWide : opcode = 0xF2AF ∨ opcode = 0xF20F) (register : rd < 16)
    (small : imm12 < 4096) (rest : List Nat) : scan (adrStep checked base) 0 i (wide opcode rd imm12 ++ rest) =
      scan (adrStep checked base) 0 (i + 2) rest := by
  have first : (opcode + imm12 / 2048 * 1024) &&& 0xF800 ≠ 0xA000 := by
    rw [land_top]
    omega
  have second : (imm12 / 256 % 8 * 4096 + rd * 256 + imm12 % 256) &&& 0xF800 ≠ 0xA000 := by
    rw [land_top]
    omega
  rw [wide,List.cons_append,List.cons_append,List.nil_append,scan_adr_other first,scan_adr_other second]

theorem adr_each (i : Nat) (instr : AdrInstr) (rest : List Nat) :
    scan (adrStep checked base) 0 i (instr.encode ++ rest) = (adrFound checked base i instr).bind fun found =>
      (scan (adrStep checked base) 0 (i + instr.encode.length) rest).map (found ++ ·) := by
  have nothing (later : Option (List AdrSite)) : later = (some []).bind fun found => later.map (found ++ ·) := by
    cases later <;> rfl
  cases instr with
  | nop =>
    rw [AdrInstr.encode,List.singleton_append,scan_adr_other (by decide)]
    exact nothing _
  | t1 rd imm8 =>
    have stepped := @adrStep_t1 checked base i rd imm8 rest
    have whole := scan_instruction _ [] rest i
      (if Fits checked base i (4 * imm8) then some (((AdrInstr.t1 rd imm8).sites base i).head?) else none)
      (stepped.trans (by split <;> rfl))
    rw [AdrInstr.encode,whole,adrFound]
    split <;> rfl
  | t2 rd imm12 =>
    rw [AdrInstr.encode,wide_other (Or.inl rfl) rd.isLt imm12.isLt]
    exact nothing _
  | t3 rd imm12 =>
    rw [AdrInstr.encode,wide_other (Or.inr rfl) rd.isLt imm12.isLt]
    exact nothing _

end Adr

section AdrProgram

variable (checked : Bool) (base : Nat)

-- The sites of a program, in order.
def sitesOf (program : List AdrInstr) : List AdrSite :=
  (placed AdrInstr.encode 0 program).flatMap fun place => place.2.sites base place.1

def AdrInstr.isWide : AdrInstr → Bool
  | .t2 _ _ => true
  | .t3 _ _ => true
  | _ => false

def AdrInstr.InRange (i : Nat) : AdrInstr → Prop
  | .t1 _ imm8 => Fits checked base i (4 * imm8)
  | _ => True

theorem placed_snd {ι : Type} (encode : ι → List Nat) (program : List ι) (i : Nat) :
    (placed encode i program).map Prod.snd = program := by
  induction program generalizing i with
  | nil => rfl
  | cons instr program ih => rw [placed,List.map_cons,ih]

theorem halfwords_bytes {hws : List Nat} (small : ∀ hw ∈ hws, hw < 65536) (data : List UInt8) :
    halfwords (bytes hws ++ data) = hws ++ halfwords data := by
  induction hws with
  | nil => rfl
  | cons hw hws ih =>
    have below := small hw List.mem_cons_self
    have value : (UInt8.ofNat hw).toNat + 256 * (UInt8.ofNat (hw / 256)).toNat = hw := by
      rw [UInt8.toNat_ofNat',UInt8.toNat_ofNat']
      omega
    have first : bytes (hw :: hws) ++ data = UInt8.ofNat hw :: UInt8.ofNat (hw / 256) :: (bytes hws ++ data) := rfl
    rw [first,halfwords,value,ih fun hw member => small hw (List.mem_cons_of_mem _ member)]
    rfl

theorem halfwords_assemble {ι : Type} {encode : ι → List Nat} (small : ∀ instr, ∀ hw ∈ encode instr, hw < 65536)
    (program : List ι) (data : List UInt8) :
    halfwords (assemble encode program ++ data) = program.flatMap encode ++ halfwords data := by
  refine halfwords_bytes (fun hw member => ?_) data
  obtain ⟨instr,_,member⟩ := List.mem_flatMap.mp member
  exact small instr hw member

-- A scanner that goes over each instruction goes over an assembled program.
theorem scan_assemble {ι β : Type} {encode : ι → List Nat} {step : Nat → List Nat → Option (Option β × Nat)}
    {result : Nat → ι → Option (List β)} (small : ∀ instr, ∀ hw ∈ encode instr, hw < 65536)
    (each : ∀ i instr rest, scan step 0 i (encode instr ++ rest) = (result i instr).bind fun found =>
      (scan step 0 (i + (encode instr).length) rest).map (found ++ ·)) (program : List ι) :
    scan step 0 0 (halfwords (assemble encode program)) = gather result (placed encode 0 program) := by
  have read := halfwords_assemble small program []
  have run := scan_program each program [] 0
  rw [List.append_nil] at read run
  rw [read,show halfwords [] = [] from rfl,List.append_nil,run]
  cases gather result (placed encode 0 program) with
  | none => rfl
  | some found => simp [scan]

theorem wide_small {opcode rd imm12 : Nat} (isWide : opcode < 64000) (register : rd < 16) (small : imm12 < 4096) :
    ∀ hw ∈ wide opcode rd imm12, hw < 65536 := by
  intro hw member
  rcases List.mem_cons.mp member with rfl | member
  · omega
  · rw [List.mem_singleton.mp member]
    omega

theorem adr_small (instr : AdrInstr) : ∀ hw ∈ instr.encode, hw < 65536 := by
  cases instr with
  | nop => decide
  | t1 rd imm8 =>
    intro hw member
    rw [List.mem_singleton.mp member]
    omega
  | t2 rd imm12 => exact wide_small (by decide) rd.isLt imm12.isLt
  | t3 rd imm12 => exact wide_small (by decide) rd.isLt imm12.isLt

theorem findAdrSites_program (program : List AdrInstr) : findAdrSites checked (assemble AdrInstr.encode program) base =
    gather (adrFound checked base) (placed AdrInstr.encode 0 program) :=
  scan_assemble adr_small adr_each program

theorem sites_length (i : Nat) (instr : AdrInstr) : ((if instr.isWide then [] else instr.sites base i).length ≤
    (instr.sites base i).length) ∧ (instr.isWide = true → (instr.sites base i).length = 1) := by
  cases instr <;> simp [AdrInstr.isWide,AdrInstr.sites]

-- Leaving out the wide ones gives the sites exactly where there is no wide one.
theorem narrow_sites {places : List (Nat × AdrInstr)} :
    ((places.flatMap fun place => if place.2.isWide then [] else place.2.sites base place.1) =
      places.flatMap fun place => place.2.sites base place.1) ↔ ∀ place ∈ places, place.2.isWide = false := by
  constructor
  · intro same place member
    by_contra isWide
    have isTrue : place.2.isWide = true := by simpa using isWide
    have fewer : (places.map fun place => (if place.2.isWide then [] else place.2.sites base place.1).length).sum <
        (places.map fun place => (place.2.sites base place.1).length).sum := by
      refine List.sum_lt_sum _ _ (fun place _ => (sites_length base place.1 place.2).1) ⟨place,member,?_⟩
      rw [if_pos isTrue,(sites_length base place.1 place.2).2 isTrue]
      exact Nat.one_pos
    have total := congrArg List.length same
    rw [List.length_flatMap,List.length_flatMap] at total
    exact absurd total (Nat.ne_of_lt fewer)
  · intro narrow
    refine List.flatMap_congr ?_
    intro place member
    rw [narrow place member]
    rfl

theorem adrFound_some {i : Nat} {instr : AdrInstr} (fits : instr.InRange checked base i) :
    adrFound checked base i instr = some (if instr.isWide then [] else instr.sites base i) := by
  cases instr with
  | t1 rd imm8 => exact if_pos fits
  | _ => rfl

theorem adrFound_none {i : Nat} {instr : AdrInstr} (past : ¬instr.InRange checked base i) :
    adrFound checked base i instr = none := by
  cases instr with
  | t1 rd imm8 => exact if_neg past
  | _ => exact absurd trivial past

-- The sites of a program are found exactly where none of its ADRs is wide.
theorem findAdrSites_iff (program : List AdrInstr) :
    findAdrSites checked (assemble AdrInstr.encode program) base = some (sitesOf base program) ↔
      (∀ instr ∈ program, instr.isWide = false) ∧
        ∀ place ∈ placed AdrInstr.encode 0 program, place.2.InRange checked base place.1 := by
  have instructions : (∀ place ∈ placed AdrInstr.encode 0 program, place.2.isWide = false) ↔
      ∀ instr ∈ program, instr.isWide = false := by
    have all : ∀ instr ∈ (placed AdrInstr.encode 0 program).map Prod.snd, instr ∈ program := by
      rw [placed_snd]
      exact fun _ member => member
    constructor
    · intro narrow instr member
      rw [← placed_snd AdrInstr.encode program 0] at member
      obtain ⟨place,isPlace,rfl⟩ := List.mem_map.mp member
      exact narrow place isPlace
    · exact fun narrow place member => narrow place.2 (all _ (List.mem_map_of_mem member))
  rw [findAdrSites_program,← instructions]
  by_cases fits : ∀ place ∈ placed AdrInstr.encode 0 program, place.2.InRange checked base place.1
  · rw [gather_some (fun i instr => if instr.isWide then [] else instr.sites base i)
      fun place member => adrFound_some checked base (fits place member),Option.some_inj]
    exact ⟨fun same => ⟨(narrow_sites base).mp same,fits⟩,fun both => (narrow_sites base).mpr both.1⟩
  · obtain ⟨place,member,past⟩ : ∃ place ∈ placed AdrInstr.encode 0 program, ¬place.2.InRange checked base place.1 := by
      simpa using fits
    rw [gather_none member (adrFound_none checked base past)]
    exact ⟨fun same => absurd same (by simp),fun both => absurd both.2 fits⟩

end AdrProgram

section Mov

variable {checked : Bool} {base i : Nat}

-- The fields of a MOVW or MOVT are what they were assembled from.
theorem decodeMovwMovt_fields {isMovt : Bool} {i four three rd eight : Nat} (bit : i < 2) (isFour : four < 16)
    (isThree : three < 8) (register : rd < 16) (isEight : eight < 256) :
    decodeMovwMovt ((if isMovt then 0xF2C0 else 0xF240) + i * 1024 + four) (three * 4096 + rd * 256 + eight) isMovt =
      some (rd,four * 4096 + i * 2048 + three * 256 + eight) := by
  have sign : (three * 4096 + rd * 256 + eight) &&& 0x8000 = 0 := by
    rw [land_sign]
    omega
  have imm3 : ((three * 4096 + rd * 256 + eight) >>> 12) &&& 0x7 = three := by
    rw [show (0x7 : Nat) = 2 ^ 3 - 1 from rfl,field]
    omega
  have imm8 : (three * 4096 + rd * 256 + eight) &&& 0xFF = eight := by
    rw [low_byte]
    omega
  have isRd : ((three * 4096 + rd * 256 + eight) >>> 8) &&& 0xF = rd := by
    rw [show (0xF : Nat) = 2 ^ 4 - 1 from rfl,field]
    omega
  have opcode : ((if isMovt then 0xF2C0 else 0xF240) + i * 1024 + four) &&& 0xFBF0 =
      if isMovt then 0xF2C0 else 0xF240 := by
    rw [land_opcode]
    cases isMovt with
    | false =>
      have top : (0xF240 + i * 1024 + four) / 2048 % 32 = 30 := by omega
      have middle : (0xF240 + i * 1024 + four) / 16 % 64 = 36 := by omega
      simp [top,middle]
    | true =>
      have top : (0xF2C0 + i * 1024 + four) / 2048 % 32 = 30 := by omega
      have middle : (0xF2C0 + i * 1024 + four) / 16 % 64 = 44 := by omega
      simp [top,middle]
  have imm4 : ((if isMovt then 0xF2C0 else 0xF240) + i * 1024 + four) &&& 0x000F = four := by
    rw [show (0x000F : Nat) = 2 ^ 4 - 1 from rfl,Nat.and_two_pow_sub_one_eq_mod]
    split <;> omega
  have tenth : (((if isMovt then 0xF2C0 else 0xF240) + i * 1024 + four) >>> 10) &&& 1 = i := by
    rw [show (1 : Nat) = 2 ^ 1 - 1 from rfl,field]
    split <;> omega
  unfold decodeMovwMovt
  simp only [opcode,sign,imm4,tenth,imm3,imm8,isRd,ne_eq,not_true_eq_false,if_false]
  rw [joined bit isThree isEight]

theorem decodeMovwMovt_immediate (isMovt : Bool) {rd imm16 : Nat} (register : rd < 16) (small : imm16 < 65536) :
    decodeMovwMovt ((if isMovt then 0xF2C0 else 0xF240) + imm16 / 2048 % 2 * 1024 + imm16 / 4096)
      (imm16 / 256 % 8 * 4096 + rd * 256 + imm16 % 256) isMovt = some (rd,imm16) := by
  rw [decodeMovwMovt_fields (by omega) (by omega) (by omega) register (by omega)]
  congr 2
  omega

-- What the scanner finds of an instruction.
def movFound (checked : Bool) (base i : Nat) : MovInstr → Option (List MovwMovtPair)
  | .nop => some []
  | .pair rd lo hi => if checked = true ∧ 2 ^ 64 ≤ base + 2 * i then none else some ((MovInstr.pair rd lo hi).pairs base i)

theorem movStep_nop (rest : List Nat) : movStep checked base i (nop :: rest) = some (none,0) := by
  have noMovw (hw2 : Nat) : decodeMovwMovt nop hw2 false = none := by
    unfold decodeMovwMovt
    exact if_pos (by decide)
  rcases rest with _ | ⟨hw2,_ | ⟨hw3,_ | ⟨hw4,rest⟩⟩⟩
  · rfl
  · rfl
  · rfl
  · simp only [movStep,noMovw]

theorem mov_each (i : Nat) (instr : MovInstr) (rest : List Nat) :
    scan (movStep checked base) 0 i (instr.encode ++ rest) = (movFound checked base i instr).bind fun found =>
      (scan (movStep checked base) 0 (i + instr.encode.length) rest).map (found ++ ·) := by
  cases instr with
  | nop => exact scan_instruction nop [] rest i (some none) (@movStep_nop checked base i rest)
  | pair rd lo hi =>
    have low := decodeMovwMovt_immediate false rd.isLt lo.isLt
    have high := decodeMovwMovt_immediate true rd.isLt hi.isLt
    simp only [Bool.false_eq_true,if_true,if_false] at low high
    have word : hi.val <<< 16 ||| lo.val = hi * 65536 + lo := by
      rw [← Nat.shiftLeft_add_eq_or_of_lt (show lo.val < 2 ^ 16 from lo.isLt),Nat.shiftLeft_eq]
    have stepped (later : List Nat) : movStep checked base i
        ((0xF240 + lo.val / 2048 % 2 * 1024 + lo / 4096) :: (lo / 256 % 8 * 4096 + rd * 256 + lo % 256) ::
          (0xF2C0 + hi.val / 2048 % 2 * 1024 + hi / 4096) :: (hi / 256 % 8 * 4096 + rd * 256 + hi % 256) :: later) =
        (if checked = true ∧ 2 ^ 64 ≤ base + 2 * i then none
          else some (((MovInstr.pair rd lo hi).pairs base i).head?)).map fun found => (found,3) := by
      simp only [movStep,low,high,ne_eq,not_true_eq_false,if_false,word]
      unfold addressOf plus
      split
      · rfl
      · rw [MovInstr.pairs,wrap_nat]
        rfl
    refine (scan_instruction _ [_,_,_] rest i _ (stepped rest)).trans ?_
    rw [movFound]
    split <;> rfl

end Mov

section MovProgram

variable (checked : Bool) (base : Nat)

def pairsOf (program : List MovInstr) : List MovwMovtPair :=
  (placed MovInstr.encode 0 program).flatMap fun place => place.2.pairs base place.1

def MovInstr.isPair : MovInstr → Bool
  | .nop => false
  | .pair _ _ _ => true

theorem immediate_small {opcode rd imm16 : Nat} (isOpcode : opcode < 64000) (register : rd < 16)
    (small : imm16 < 65536) : ∀ hw ∈ movImmediate opcode rd imm16, hw < 65536 := by
  intro hw member
  rcases List.mem_cons.mp member with rfl | member
  · omega
  · rw [List.mem_singleton.mp member]
    omega

theorem mov_small (instr : MovInstr) : ∀ hw ∈ instr.encode, hw < 65536 := by
  cases instr with
  | nop => decide
  | pair rd lo hi =>
    intro hw member
    rcases List.mem_append.mp member with low | high
    · exact immediate_small (by decide) rd.isLt lo.isLt hw low
    · exact immediate_small (by decide) rd.isLt hi.isLt hw high

-- The pairs of a program are found, unless an address passes the end of the address space and that is checked.
theorem findMovwMovtPairs_iff (program : List MovInstr) :
    findMovwMovtPairs checked (assemble MovInstr.encode program) base = some (pairsOf base program) ↔
      ∀ place ∈ placed MovInstr.encode 0 program, place.2.isPair = true → checked = true → base + 2 * place.1 < 2 ^ 64 := by
  have found : findMovwMovtPairs checked (assemble MovInstr.encode program) base =
      gather (movFound checked base) (placed MovInstr.encode 0 program) := scan_assemble mov_small mov_each program
  rw [found]
  by_cases fits : ∀ place ∈ placed MovInstr.encode 0 program, place.2.isPair = true → checked = true →
      base + 2 * place.1 < 2 ^ 64
  · rw [gather_some (fun i instr => instr.pairs base i) fun place member => ?_]
    · exact ⟨fun _ => fits,fun _ => rfl⟩
    · obtain ⟨i,instr⟩ := place
      cases instr with
      | nop => rfl
      | pair rd lo hi =>
        refine if_neg fun past => ?_
        have below := fits _ member rfl past.1
        exact absurd past.2 (by simpa using below)
  · obtain ⟨⟨i,instr⟩,member,isPair,isChecked,past⟩ : ∃ place ∈ placed MovInstr.encode 0 program,
        place.2.isPair = true ∧ checked = true ∧ ¬base + 2 * place.1 < 2 ^ 64 := by
      simpa using fits
    cases instr with
    | nop => cases isPair
    | pair rd lo hi =>
      have fails : movFound checked base i (.pair rd lo hi) = none := if_pos ⟨isChecked,by simpa using past⟩
      rw [gather_none member fails]
      exact ⟨fun same => absurd same (by simp),fun all => absurd all fits⟩

end MovProgram

end Rsleigh.Arm32Raw
