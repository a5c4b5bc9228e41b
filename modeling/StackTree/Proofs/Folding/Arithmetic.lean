import StackTree.Folding
import StackTree.Machine.Arithmetic

/-!
# Folding computes what the machine computes

The folder computes on 32-bit words, and the machine is described by the integers that the words
stand for (`StackTree.Machine.Arithmetic`). Both come to the same for every operator and all
operands: sums, differences and products wrap around, quotients and remainders go toward zero and
trap on the same operands, and shifts count modulo 32.

## Main results

* `divisionFaults_iff`: the divisions that stay are those that trap.
* `UnaryOp.apply_eq`, `BinaryOp.apply?_eq`: the two descriptions agree.
-/

namespace StackTree

/-! ## Division -/

theorem divisionFaults_iff (left right : Int32) :
    divisionFaults left right = true ↔ Traps left right := by
  have hzero : right = 0 ↔ right.toInt = 0 := Int32.toInt_inj.symm
  have hleast : left = Int32.minValue ↔ left.toInt = -2 ^ 31 := Int32.toInt_inj.symm
  have hminus : right = -1 ↔ right.toInt = -1 := Int32.toInt_inj.symm
  rw [divisionFaults, Bool.or_eq_true, Bool.and_eq_true, beq_iff_eq, beq_iff_eq, beq_iff_eq, hzero,
    hleast, hminus]
  exact Iff.rfl

/-- A word is within its bounds. -/
theorem toInt_bounds (v : Int32) : Int32.minValue.toInt ≤ v.toInt ∧ v.toInt ≤ Int32.maxValue.toInt :=
  ⟨Int32.minValue_le_toInt v, Int32.toInt_le v⟩

theorem ofInt_tdiv_toInt (left right : Int32) :
    Int32.ofInt (left.toInt.tdiv right.toInt) = left / right := by
  obtain ⟨hleft, hleft'⟩ := toInt_bounds left
  obtain ⟨hright, hright'⟩ := toInt_bounds right
  rw [Int32.ofInt_tdiv hleft hleft' hright hright', Int32.ofInt_toInt, Int32.ofInt_toInt]

theorem ofInt_tmod_toInt (left right : Int32) :
    Int32.ofInt (left.toInt.tmod right.toInt) = left % right := by
  obtain ⟨hleft, hleft'⟩ := toInt_bounds left
  obtain ⟨hright, hright'⟩ := toInt_bounds right
  rw [Int32.ofInt_tmod hleft hleft' hright hright', Int32.ofInt_toInt, Int32.ofInt_toInt]

/-! ## Shifts -/

/-- The count of a shift is read off the word modulo 32. -/
theorem toNat_shiftCount (v : Int32) : (v.toBitVec.smod 32).toNat = shiftCount v := by
  have hcount : (v.toBitVec.smod 32).toInt = v.toInt % 32 := by
    rw [BitVec.toInt_smod]
    exact Int.fmod_eq_emod_of_nonneg _ (by decide)
  have hsmall : 0 ≤ (v.toBitVec.smod 32).toInt := by omega
  have hmsb : (v.toBitVec.smod 32).msb = false := by
    rw [BitVec.msb_eq_toInt]
    simpa using hsmall
  rw [shiftCount, ← hcount, BitVec.toNat_toInt_of_msb _ hmsb]

theorem ofInt_two_pow (count : Nat) : BitVec.ofInt 32 (2 ^ count) = BitVec.twoPow 32 count := by
  have hcast : (2 : Int) ^ count = ((2 ^ count : Nat) : Int) := by norm_cast
  rw [← BitVec.toNat_inj, BitVec.toNat_twoPow, hcast, BitVec.ofInt_natCast, BitVec.toNat_ofNat]

theorem ofInt_mul_two_pow (left right : Int32) :
    Int32.ofInt (left.toInt * 2 ^ shiftCount right) = left <<< right := by
  apply Int32.toBitVec_inj.mp
  show BitVec.ofInt 32 (left.toInt * 2 ^ shiftCount right) =
    left.toBitVec <<< (right.toBitVec.smod 32)
  rw [BitVec.shiftLeft_eq', toNat_shiftCount, BitVec.shiftLeft_eq_mul_twoPow, BitVec.ofInt_mul,
    ofInt_two_pow]
  exact congrArg (· * _) BitVec.ofInt_toInt

theorem ofInt_div_two_pow (left right : Int32) :
    Int32.ofInt (left.toInt / 2 ^ shiftCount right) = left >>> right := by
  have hshift : (left >>> right).toInt = left.toInt / 2 ^ shiftCount right := by
    show (BitVec.sshiftRight' left.toBitVec (right.toBitVec.smod 32)).toInt = _
    rw [BitVec.toInt_sshiftRight', toNat_shiftCount, Int.shiftRight_eq_div_pow]
    norm_cast
  rw [← hshift, Int32.ofInt_toInt]

/-! ## Operators -/

theorem UnaryOp.apply_eq (op : UnaryOp) (v : Int32) : op.apply v = op.denote v := by
  cases op with
  | neg =>
    show -v = Int32.ofInt (-v.toInt)
    rw [Int32.ofInt_neg, Int32.ofInt_toInt]
  | not =>
    show ~~~v = Int32.ofInt (-v.toInt - 1)
    rw [Int32.ofInt_sub, Int32.ofInt_neg, Int32.ofInt_toInt, Int32.not_eq_neg_sub]
    rfl

/-- A truth value is an indicator. -/
theorem truth_eq_indicator {condition : Bool} {p : Prop} [Decidable p]
    (h : condition = true ↔ p) : truth condition = indicator p := by
  cases condition with
  | true =>
    rw [indicator, if_pos (h.mp rfl)]
    rfl
  | false =>
    rw [indicator, if_neg (mt h.mpr Bool.false_ne_true)]
    rfl

theorem BinaryOp.apply?_eq (op : BinaryOp) (left right : Int32) :
    op.apply? left right = op.denote? left right := by
  cases op with
  | add =>
    show some (left + right) = some (Int32.ofInt (left.toInt + right.toInt))
    rw [Int32.ofInt_add, Int32.ofInt_toInt, Int32.ofInt_toInt]
  | sub =>
    show some (left - right) = some (Int32.ofInt (left.toInt - right.toInt))
    rw [Int32.ofInt_sub, Int32.ofInt_toInt, Int32.ofInt_toInt]
  | mul =>
    show some (left * right) = some (Int32.ofInt (left.toInt * right.toInt))
    rw [Int32.ofInt_mul, Int32.ofInt_toInt, Int32.ofInt_toInt]
  | div =>
    show (if divisionFaults left right then none else some (left / right)) =
      if Traps left right then none else some (Int32.ofInt (left.toInt.tdiv right.toInt))
    simp only [ofInt_tdiv_toInt, divisionFaults_iff]
  | rem =>
    show (if divisionFaults left right then none else some (left % right)) =
      if Traps left right then none else some (Int32.ofInt (left.toInt.tmod right.toInt))
    simp only [ofInt_tmod_toInt, divisionFaults_iff]
  | and => rfl
  | or => rfl
  | xor => rfl
  | shl => exact congrArg some (ofInt_mul_two_pow left right).symm
  | shr => exact congrArg some (ofInt_div_two_pow left right).symm
  | ceq =>
    refine congrArg some (truth_eq_indicator ?_)
    rw [beq_iff_eq, Int32.toInt_inj]
  | clt =>
    refine congrArg some (truth_eq_indicator ?_)
    rw [decide_eq_true_iff, Int32.lt_iff_toInt_lt]
  | cgt =>
    refine congrArg some (truth_eq_indicator ?_)
    rw [decide_eq_true_iff, Int32.lt_iff_toInt_lt]

end StackTree
