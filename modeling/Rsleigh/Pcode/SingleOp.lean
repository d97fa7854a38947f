import Mathlib
import Rsleigh.Pcode.Fold

namespace Rsleigh.Pcode

-- What a rewrite of one op has to keep: the output, and the value that the op leaves there on every machine.
def KeepsValue (op op' : PcodeOp) : Prop :=
  ∀ out, getOutput op = some out → getOutput op' = some out ∧
    ∀ env s, compute env s op' % 256 ^ out.size.toNat = compute env s op % 256 ^ out.size.toNat

-- Nothing of the value is left after the shift but its fill: zeros, or the sign.
def ShiftedOut (op : BinaryOp) (size : UInt32) (value amount : Nat) : Prop :=
  match op with
  | .intLsl => 2 ^ (8 * size.toNat) ∣ value * 2 ^ amount
  | .intLsr => value < 2 ^ amount
  | .intAsr =>
    if value < 2 ^ (8 * size.toNat - 1) then value < 2 ^ amount else 2 ^ (8 * size.toNat) ≤ value + 2 ^ amount
  | _ => True

-- Where the rewrites of single ops keep the value. It is `foldSafe`, up to two coincidences: a shift amount
-- that does not fit its constant shifts everything out anyway, and a wide mask meets a constant.
def FoldExact : PcodeOp → Prop
  | .unary .intZext out input =>
    input.space ≠ .const ∨ out.size ≤ 8 ∨ input.offset.toNat < 256 ^ input.size.toNat
  | .unary .intSext out input =>
    input.space ≠ .const ∨ out.size ≤ 8 ∨ 8 < input.size ∨ input.offset.toNat < 2 ^ (8 * input.size.toNat - 1)
  | .binary op out left right =>
    match op with
    | .intLsl | .intLsr | .intAsr =>
      left.space ≠ .const ∨ right.space ≠ .const ∨
        foldableWidth out.size = false ∨ foldableWidth left.size = false ∨ foldableWidth right.size = false ∨
        right.offset.toNat < 256 ^ right.size.toNat ∨
        ShiftedOut op left.size (constValue left) (constValue right)
    | .intAnd =>
      right.space ≠ .const ∨ right.offset ≠ allOnesMask out.size ∨ out.size ≤ 8 ∨ left.space = .const
    | _ => True
  | _ => True

theorem compute_running (env : Env) (s : Machine) (op : PcodeOp) :
    compute env { s with left := false } op = compute env s op := by
  cases op with
  | callOther out funcId inputs => cases out <;> rfl
  | _ => rfl

theorem Simplifies.keepsValue (simplifies : Simplifies op op') : KeepsValue op op' := by
  intro out output
  have output' : getOutput op' = some out := simplifies.output.trans output
  refine ⟨output',?_⟩
  intro env s
  have same := simplifies.step env { s with left := false }
  rw [step_output output rfl,step_output output' rfl,compute_running,compute_running] at same
  have mem := congrArg (fun machine => ByteStore.load machine.mem (out.cells env)) same
  simpa only [Machine.write,ByteStore.load_store _ _ (nodup_cells env out),length_cells] using mem

theorem keepsValue_safe (sized : wellSized op = true) (safe : foldSafe op = true) : KeepsValue op (simplifyOp op) :=
  (simplifyOp_simplifies sized safe).keepsValue

theorem copy_const_value (env : Env) (s : Machine) (out : Varnode) (value : UInt64) :
    compute env s (.copy out (.constant value out.size)) % 256 ^ out.size.toNat =
      value.toNat % 256 ^ out.size.toNat := by
  rw [compute,read_const rfl]
  exact Nat.mod_mod _ _

theorem wide_unfoldable {size : UInt32} (wide : ¬ size ≤ 8) : foldableWidth size = false ∧ 8 < size.toNat := by
  have large : 8 < size.toNat := by
    rw [UInt32.le_iff_toNat_le] at wide
    exact Nat.lt_of_not_le wide
  refine ⟨?_,large⟩
  rw [Bool.eq_false_iff]
  intro foldable
  have narrow := (foldableWidth_iff.mp foldable).2
  omega

theorem offset_lt_wide {size : UInt32} (large : 8 < size.toNat) (offset : UInt64) :
    offset.toNat < 256 ^ size.toNat := by
  rw [pow_bytes]
  exact lt_of_lt_of_le offset.toNat_lt (Nat.pow_le_pow_right (by decide) (by omega))

section Extensions

variable {out input : Varnode}

theorem simplifyOp_zext (located : input.space = .const) (wide : ¬ out.size ≤ 8) :
    simplifyOp (.unary .intZext out input) = .copy out (.constant input.offset out.size) := by
  obtain ⟨unfoldable,large⟩ := wide_unfoldable wide
  have unfolded : constFoldOp (.unary .intZext out input) = none := by
    simp [constFoldOp,foldUnary,foldUnaryConst,located,unfoldable]
  rw [simplifyOp,foldConstants,unfolded]
  simp only [located,if_true,dropIdentitySubpiece,dropConstSubpiece,maskToSize_wide (Nat.le_of_lt large)]

theorem simplifyOp_sext (located : input.space = .const) (wide : ¬ out.size ≤ 8) :
    simplifyOp (.unary .intSext out input) = .copy out (.constant input.offset out.size) := by
  obtain ⟨unfoldable,_⟩ := wide_unfoldable wide
  have unfolded : constFoldOp (.unary .intSext out input) = none := by
    simp [constFoldOp,foldUnary,located,unfoldable]
  rw [simplifyOp,foldConstants,unfolded]
  simp only [located,if_true,dropIdentitySubpiece,dropConstSubpiece,signExtendToSize,unfoldable,Bool.not_false,
    Bool.or_true]

theorem zext_keeps_iff (sized : wellSized (.unary .intZext out input) = true) :
    KeepsValue (.unary .intZext out input) (simplifyOp (.unary .intZext out input)) ↔
      FoldExact (.unary .intZext out input) := by
  constructor
  · intro keeps
    by_contra inexact
    simp only [FoldExact,not_or,not_not] at inexact
    obtain ⟨located,wide,beyond⟩ := inexact
    have large := (wide_unfoldable wide).2
    have same := (keeps out rfl).2 plainEnv emptyMachine
    rw [simplifyOp_zext located wide,copy_const_value,compute,read_const located,evalUnary] at same
    -- the low bytes are kept, what is above the input is not cleared
    have less : (BitVec.ofNat (8 * input.size.toNat) (constValue input)).toNat < 256 ^ input.size.toNat := by
      rw [pow_bytes]
      exact BitVec.isLt _
    have low := Nat.mod_le (BitVec.ofNat (8 * input.size.toNat) (constValue input)).toNat (256 ^ out.size.toNat)
    rw [Nat.mod_eq_of_lt (offset_lt_wide large input.offset)] at same
    omega
  · intro exact
    apply keepsValue_safe sized
    simpa [FoldExact,foldSafe,or_assoc] using exact

theorem sext_keeps_iff (sized : wellSized (.unary .intSext out input) = true) :
    KeepsValue (.unary .intSext out input) (simplifyOp (.unary .intSext out input)) ↔
      FoldExact (.unary .intSext out input) := by
  constructor
  · intro keeps
    by_contra inexact
    simp only [FoldExact,not_or,not_not] at inexact
    obtain ⟨located,wide,short,negative⟩ := inexact
    have large := (wide_unfoldable wide).2
    have small : input.size.toNat ≤ 8 := Nat.le_of_not_lt fun less => short (UInt32.lt_iff_toNat_lt.mpr less)
    have positive : 1 ≤ input.size.toNat := by
      simp only [wellSized,Bool.and_eq_true,decide_eq_true_eq,UInt32.le_iff_toNat_le] at sized
      exact sized.1
    have same := (keeps out rfl).2 plainEnv emptyMachine
    rw [simplifyOp_sext located wide,copy_const_value,compute,read_const located,evalUnary] at same
    rw [Nat.mod_eq_of_lt (offset_lt_wide large input.offset),pow_bytes,Nat.mod_eq_of_lt (BitVec.isLt _),
      BitVec.toNat_signExtend,BitVec.toNat_setWidth] at same
    have offset := input.offset.toNat_lt
    cases sign : (BitVec.ofNat (8 * input.size.toNat) (constValue input)).msb with
    | true =>
      -- the sign fill is above the 64 bits of the constant
      rw [sign,if_pos rfl] at same
      have fill : 2 ^ 64 + 2 ^ (8 * input.size.toNat) ≤ 2 ^ (8 * out.size.toNat) := by
        have narrow : 2 ^ (8 * input.size.toNat) ≤ 2 ^ 64 := Nat.pow_le_pow_right (by decide) (by omega)
        have wider : 2 ^ 65 ≤ 2 ^ (8 * out.size.toNat) := Nat.pow_le_pow_right (by decide) (by omega)
        omega
      omega
    | false =>
      rw [sign,if_neg (by decide),Nat.add_zero] at same
      rw [BitVec.msb_eq_decide,decide_eq_false_iff_not] at sign
      have low := Nat.mod_le (BitVec.ofNat (8 * input.size.toNat) (constValue input)).toNat (2 ^ (8 * out.size.toNat))
      omega
  · intro exact
    apply keepsValue_safe sized
    simpa [FoldExact,foldSafe,or_assoc] using exact

end Extensions

section Shifts

variable {op : BinaryOp} {out left right : Varnode}

theorem foldBinary_shift (env : Env) (shift : op = .intLsl ∨ op = .intLsr ∨ op = .intAsr)
    (outWidth : foldableWidth out.size = true) (leftWidth : foldableWidth left.size = true)
    (rightWidth : foldableWidth right.size = true) : ∃ value, foldBinary op out left right = some value ∧
      FoldsTo out (evalBinary env op left.size out.size (constValue left) right.offset.toNat) value := by
  rcases shift with rfl | rfl | rfl
  · unfold foldBinary
    exact foldShiftConst_offset outWidth leftWidth rightWidth fun _ shift foldable _ => intLsl_exact foldable shift
  · unfold foldBinary
    exact foldShiftConst_offset outWidth leftWidth rightWidth fun _ shift foldable fits =>
      intLsr_exact foldable fits shift
  · unfold foldBinary
    exact foldShiftConst_offset outWidth leftWidth rightWidth fun _ shift foldable fits =>
      intAsr_exact foldable fits shift

-- What is left when the amount reaches the width is the fill; a smaller amount leaves it on the values that
-- are shifted out.
theorem shiftedOut_iff (env : Env) (shift : op = .intLsl ∨ op = .intLsr ∨ op = .intAsr) {size outSize : UInt32}
    {value amount beyond : Nat} (fits : value < 2 ^ (8 * size.toNat))
    (far : 8 * size.toNat ≤ beyond) :
    evalBinary env op size outSize value beyond = evalBinary env op size outSize value amount ↔
      ShiftedOut op size value amount := by
  have whole : (BitVec.ofNat (8 * size.toNat) value).toNat = value := by
    rw [BitVec.toNat_ofNat,Nat.mod_eq_of_lt fits]
  rcases shift with rfl | rfl | rfl
  · simp only [evalBinary,ShiftedOut,if_pos far]
    by_cases reached : 8 * size.toNat ≤ amount
    · rw [if_pos reached]
      exact ⟨fun _ => Dvd.dvd.mul_left (Nat.pow_dvd_pow 2 reached) value,fun _ => rfl⟩
    · rw [if_neg reached,BitVec.toNat_shiftLeft,whole,Nat.shiftLeft_eq,eq_comm]
      exact Nat.dvd_iff_mod_eq_zero.symm
  · simp only [evalBinary,ShiftedOut,if_pos far]
    by_cases reached : 8 * size.toNat ≤ amount
    · rw [if_pos reached]
      exact ⟨fun _ => lt_of_lt_of_le fits (Nat.pow_le_pow_right (by decide) reached),fun _ => rfl⟩
    · rw [if_neg reached,BitVec.toNat_ushiftRight,whole,Nat.shiftRight_eq_div_pow,eq_comm]
      exact Nat.div_eq_zero_iff_lt (by positivity)
  · simp only [evalBinary,ShiftedOut,Nat.min_eq_right far]
    rw [BitVec.toNat_sshiftRight,BitVec.toNat_sshiftRight,whole,BitVec.msb_eq_decide,whole]
    have least : 2 ^ amount ≤ 2 ^ (8 * size.toNat) ∧ min amount (8 * size.toNat) = amount ∨
        2 ^ (8 * size.toNat) ≤ 2 ^ amount ∧ min amount (8 * size.toNat) = 8 * size.toNat := by
      rcases Nat.le_total amount (8 * size.toNat) with below | reached
      · exact Or.inl ⟨Nat.pow_le_pow_right (by decide) below,Nat.min_eq_left below⟩
      · exact Or.inr ⟨Nat.pow_le_pow_right (by decide) reached,Nat.min_eq_right reached⟩
    have gone : ∀ {rest : Nat}, rest < 2 ^ (8 * size.toNat) →
        (rest >>> min amount (8 * size.toNat) = 0 ↔ rest < 2 ^ amount) := by
      intro rest inside
      rw [Nat.shiftRight_eq_div_pow,Nat.div_eq_zero_iff_lt (by positivity)]
      rcases least with ⟨_,isAmount⟩ | ⟨reached,isWidth⟩
      · rw [isAmount]
      · rw [isWidth]
        exact ⟨fun _ => lt_of_lt_of_le inside reached,fun _ => inside⟩
    have none : ∀ {rest : Nat}, rest < 2 ^ (8 * size.toNat) → rest >>> (8 * size.toNat) = 0 := by
      intro rest inside
      rw [Nat.shiftRight_eq_div_pow,Nat.div_eq_of_lt inside]
    by_cases sign : value < 2 ^ (8 * size.toNat - 1)
    · rw [if_pos sign,decide_eq_false (Nat.not_le_of_lt sign),if_neg (by decide),if_neg (by decide),none fits,eq_comm]
      exact gone fits
    · have inside : 2 ^ (8 * size.toNat) - 1 - value < 2 ^ (8 * size.toNat) := by omega
      have shifted := Nat.shiftRight_le (2 ^ (8 * size.toNat) - 1 - value) (min amount (8 * size.toNat))
      have settled := @gone _ inside
      rw [if_neg sign,decide_eq_true (Nat.le_of_not_lt sign),if_pos rfl,if_pos rfl,none inside]
      omega

theorem shift_lt (env : Env) (shift : op = .intLsl ∨ op = .intLsr ∨ op = .intAsr) (size outSize : UInt32)
    (x y : Nat) : evalBinary env op size outSize x y < 256 ^ size.toNat := by
  rw [pow_bytes]
  rcases shift with rfl | rfl | rfl
  · unfold evalBinary
    dsimp only
    split
    · positivity
    · exact BitVec.isLt _
  · unfold evalBinary
    dsimp only
    split
    · positivity
    · exact BitVec.isLt _
  · unfold evalBinary
    exact BitVec.isLt _

theorem simplifyOp_shift (env : Env) (shift : op = .intLsl ∨ op = .intLsr ∨ op = .intAsr)
    (located : left.space = .const ∧ right.space = .const) (outWidth : foldableWidth out.size = true)
    (leftWidth : foldableWidth left.size = true) (rightWidth : foldableWidth right.size = true) :
    ∃ value, simplifyOp (.binary op out left right) = .copy out (.constant value out.size) ∧
      value.toNat % 256 ^ out.size.toNat =
        evalBinary env op left.size out.size (constValue left) right.offset.toNat % 256 ^ out.size.toNat := by
  obtain ⟨⟨out',value⟩,folded,isOut,isValue⟩ := foldBinary_shift env shift outWidth leftWidth rightWidth
  have constant : constFoldOp (.binary op out left right) = some (out',value) := (if_pos located).trans folded
  obtain rfl : out' = out := isOut
  refine ⟨value,?_,isValue⟩
  unfold simplifyOp foldConstants
  rw [constant]
  rfl

theorem foldExact_shift (shift : op = .intLsl ∨ op = .intLsr ∨ op = .intAsr) :
    FoldExact (.binary op out left right) ↔ foldSafe (.binary op out left right) = true ∨
      ShiftedOut op left.size (constValue left) (constValue right) := by
  rcases shift with rfl | rfl | rfl <;> simp [FoldExact,foldSafe,or_assoc]

theorem shift_keeps_iff (shift : op = .intLsl ∨ op = .intLsr ∨ op = .intAsr)
    (sized : wellSized (.binary op out left right) = true) :
    KeepsValue (.binary op out left right) (simplifyOp (.binary op out left right)) ↔
      FoldExact (.binary op out left right) := by
  rw [foldExact_shift shift]
  by_cases safe : foldSafe (.binary op out left right) = true
  · exact ⟨fun _ => Or.inl safe,fun _ => keepsValue_safe sized safe⟩
  · obtain ⟨⟨leftConst,rightConst⟩,⟨⟨outWidth,leftWidth⟩,rightWidth⟩,beyond⟩ :
        (left.space = .const ∧ right.space = .const) ∧
        ((foldableWidth out.size = true ∧ foldableWidth left.size = true) ∧ foldableWidth right.size = true) ∧
        256 ^ right.size.toNat ≤ right.offset.toNat := by
      rcases shift with rfl | rfl | rfl <;> simpa [foldSafe,and_assoc] using safe
    have size : out.size = left.size := by rcases shift with rfl | rfl | rfl <;> simpa [wellSized] using sized
    have leftRange := foldableWidth_iff.mp leftWidth
    have far : 8 * left.size.toNat ≤ right.offset.toNat := by
      have byte : 256 ^ 1 ≤ 256 ^ right.size.toNat :=
        Nat.pow_le_pow_right (by decide) (foldableWidth_iff.mp rightWidth).1
      omega
    have fits : constValue left < 2 ^ (8 * left.size.toNat) := by
      rw [constValue,pow_bytes]
      exact Nat.mod_lt _ (by positivity)
    have values : ∀ env s, getOutput (simplifyOp (.binary op out left right)) = some out ∧
        compute env s (simplifyOp (.binary op out left right)) % 256 ^ out.size.toNat =
          evalBinary env op left.size out.size (constValue left) right.offset.toNat ∧
        compute env s (.binary op out left right) % 256 ^ out.size.toNat =
          evalBinary env op left.size out.size (constValue left) (constValue right) := by
      intro env s
      obtain ⟨value,isCopy,isValue⟩ := simplifyOp_shift env shift ⟨leftConst,rightConst⟩ outWidth leftWidth rightWidth
      refine ⟨by rw [isCopy]; rfl,?_,?_⟩
      · rw [isCopy,copy_const_value,isValue,size,Nat.mod_eq_of_lt (shift_lt env shift _ _ _ _)]
      · rw [compute,read_const leftConst,read_const rightConst,size,Nat.mod_eq_of_lt (shift_lt env shift _ _ _ _)]
    constructor
    · intro keeps
      have same := (keeps out rfl).2 plainEnv emptyMachine
      rw [(values plainEnv _).2.1,(values plainEnv _).2.2] at same
      exact Or.inr ((shiftedOut_iff plainEnv shift fits far).mp same)
    · intro settled
      have settled := settled.resolve_left safe
      intro found isFound
      obtain rfl := Option.some.inj isFound
      refine ⟨(values plainEnv emptyMachine).1,?_⟩
      intro env s
      rw [(values env s).2.1,(values env s).2.2]
      exact (shiftedOut_iff env shift fits far).mpr settled

end Shifts

section Masks

variable {out left right : Varnode}

theorem simplifyOp_mask (wide : ¬ out.size ≤ 8) (located : right.space = .const)
    (ones : right.offset = allOnesMask out.size) : simplifyOp (.binary .intAnd out left right) = .copy out left := by
  obtain ⟨unfoldable,_⟩ := wide_unfoldable wide
  have unfolded : constFoldOp (.binary .intAnd out left right) = none := by
    simp [constFoldOp,foldBinary,foldBinaryConst,unfoldable]
  rw [simplifyOp,foldConstants,unfolded]
  simp only [located,ones,and_self,if_true,dropIdentitySubpiece,dropConstSubpiece]

theorem and_wide_mask (env : Env) {size outSize : UInt32} (large : 8 < size.toNat) {x : Nat}
    (fits : x < 256 ^ size.toNat) : evalBinary env .intAnd size outSize x (2 ^ 64 - 1) = x % 2 ^ 64 := by
  rw [pow_bytes] at fits
  have small : 2 ^ 64 - 1 < 2 ^ (8 * size.toNat) :=
    lt_of_lt_of_le (by decide : 2 ^ 64 - 1 < 2 ^ 64) (Nat.pow_le_pow_right (by decide) (by omega))
  rw [evalBinary,BitVec.toNat_and,BitVec.toNat_ofNat,BitVec.toNat_ofNat,Nat.mod_eq_of_lt fits,Nat.mod_eq_of_lt small,
    Nat.and_two_pow_sub_one_eq_mod]

theorem and_keeps_iff (sized : wellSized (.binary .intAnd out left right) = true) :
    KeepsValue (.binary .intAnd out left right) (simplifyOp (.binary .intAnd out left right)) ↔
      FoldExact (.binary .intAnd out left right) := by
  by_cases safe : foldSafe (.binary .intAnd out left right) = true
  · refine ⟨fun _ => ?_,fun _ => keepsValue_safe sized safe⟩
    simp only [foldSafe,Bool.or_eq_true,bne_iff_ne,decide_eq_true_eq,or_assoc] at safe
    unfold FoldExact
    rcases safe with elsewhere | other | narrow
    · exact Or.inl elsewhere
    · exact Or.inr (Or.inl other)
    · exact Or.inr (Or.inr (Or.inl narrow))
  · obtain ⟨located,ones,wide⟩ : right.space = .const ∧ right.offset = allOnesMask out.size ∧ ¬ out.size ≤ 8 := by
      simpa [foldSafe,and_assoc] using safe
    have sizes : left.size = right.size ∧ out.size = left.size := by simpa [wellSized] using sized
    have large := (wide_unfoldable wide).2
    have mask : constValue right = 2 ^ 64 - 1 := by
      have isMask : (allOnesMask out.size).toNat = 2 ^ 64 - 1 := by
        have bits : 64 ≤ bitsForSize out.size := by
          rw [bitsForSize]
          omega
        rw [allOnesMask,if_pos bits]
        rfl
      rw [constValue,ones,← sizes.1,← sizes.2,isMask]
      exact Nat.mod_eq_of_lt (isMask ▸ offset_lt_wide large (allOnesMask out.size))
    -- the copy keeps all of the value, the mask only 64 bits of it
    have values : ∀ env s, compute env s (.copy out left) % 256 ^ out.size.toNat = s.read env left ∧
        compute env s (.binary .intAnd out left right) % 256 ^ out.size.toNat = s.read env left % 2 ^ 64 := by
      intro env s
      have inside := s.read_lt env left
      have largeLeft : 8 < left.size.toNat := sizes.2 ▸ large
      refine ⟨sizes.2 ▸ Nat.mod_eq_of_lt inside,?_⟩
      rw [compute,read_const located,mask,and_wide_mask env largeLeft inside,sizes.2]
      exact Nat.mod_eq_of_lt (lt_of_le_of_lt (Nat.mod_le _ _) inside)
    have exact_iff : FoldExact (.binary .intAnd out left right) ↔ left.space = .const := by
      simp [FoldExact,located,ones,wide]
    rw [exact_iff,simplifyOp_mask wide located ones]
    constructor
    · intro keeps
      by_contra stored
      let s : Machine := emptyMachine.write plainEnv left (2 ^ 64)
      have same := (keeps out rfl).2 plainEnv s
      have isRead : s.read plainEnv left = 2 ^ 64 := by
        rw [Machine.read_write stored,pow_bytes,← sizes.2]
        apply Nat.mod_eq_of_lt
        exact Nat.pow_lt_pow_right (by decide) (by omega)
      rw [(values plainEnv s).1,(values plainEnv s).2,isRead] at same
      exact absurd same (by decide)
    · intro isConst found isFound
      obtain rfl := Option.some.inj isFound
      refine ⟨rfl,?_⟩
      intro env s
      have small : constValue left < 2 ^ 64 := lt_of_le_of_lt (Nat.mod_le _ _) left.offset.toNat_lt
      rw [(values env s).1,(values env s).2,read_const isConst,Nat.mod_eq_of_lt small]

end Masks

-- The rewrites of passes 0, 1 and 1b keep the value of a well-sized op exactly where the condition says so.
theorem simplifyOp_keeps_iff (sized : wellSized op = true) : KeepsValue op (simplifyOp op) ↔ FoldExact op := by
  have always : FoldExact op → foldSafe op = true → (KeepsValue op (simplifyOp op) ↔ FoldExact op) :=
    fun exact safe => ⟨fun _ => exact,fun _ => keepsValue_safe sized safe⟩
  cases op with
  | unary op out input =>
    cases op with
    | intZext => exact zext_keeps_iff sized
    | intSext => exact sext_keeps_iff sized
    | _ => exact always trivial rfl
  | binary op out left right =>
    cases op with
    | intLsl => exact shift_keeps_iff (Or.inl rfl) sized
    | intLsr => exact shift_keeps_iff (Or.inr (Or.inl rfl)) sized
    | intAsr => exact shift_keeps_iff (Or.inr (Or.inr rfl)) sized
    | intAnd => exact and_keeps_iff sized
    | _ => exact always trivial rfl
  | _ => exact always trivial rfl

-- A sum of two constants, wrapped at one byte.
theorem simplifyOp_keeps_iff_sum :
    simplifyOp (.binary .intAdd (.unique 0 1) (.constant 200 1) (.constant 100 1)) =
        .copy (.unique 0 1) (.constant 44 1) ∧
      KeepsValue (.binary .intAdd (.unique 0 1) (.constant 200 1) (.constant 100 1))
        (simplifyOp (.binary .intAdd (.unique 0 1) (.constant 200 1) (.constant 100 1))) :=
  ⟨by decide,(simplifyOp_keeps_iff (by decide)).mpr trivial⟩

-- The byte 0x80 sign-extended to 16 bytes is left positive.
theorem simplifyOp_sext_wide : ¬ ∀ op, wellSized op = true → KeepsValue op (simplifyOp op) := by
  intro claim
  have keeps := claim (.unary .intSext (.unique 0 16) (.constant 0x80 1)) (by decide)
  have same := (keeps _ rfl).2 plainEnv emptyMachine
  revert same
  decide +kernel

end Rsleigh.Pcode
