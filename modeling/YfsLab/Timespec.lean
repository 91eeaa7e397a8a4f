import Mathlib.Tactic.Ring
import Mathlib.Algebra.Order.Ring.Int

namespace YfsLab

-- struct timespec. The fields are the numbers that the time_t and the long
-- hold; `Fits` says which numbers they can hold.
structure Timespec where
  tvSec : Int
  tvNsec : Int
  deriving DecidableEq, Repr

namespace Timespec

def second : Int := 1000000000

def Fits (x : Int) : Prop := -2^63 ≤ x ∧ x < 2^63

def Normalised (a : Timespec) : Prop := 0 ≤ a.tvNsec ∧ a.tvNsec < second

instance : DecidablePred Fits := fun _ => inferInstanceAs (Decidable (_ ∧ _))
instance : DecidablePred Normalised := fun _ => inferInstanceAs (Decidable (_ ∧ _))

def nanos (a : Timespec) : Int := a.tvSec*second + a.tvNsec

end Timespec

def cmpTimespec (a b : Timespec) : Int32 :=
  if a.tvSec > b.tvSec then 1
  else if a.tvSec < b.tvSec then -1
  else if a.tvNsec > b.tvNsec then 1
  else if a.tvNsec < b.tvNsec then -1
  else 0

def carry (result : Timespec) : Timespec :=
  if result.tvNsec > 1000000000 then carry ⟨result.tvSec+1,result.tvNsec-1000000000⟩ else result
termination_by result.tvNsec.toNat

-- Without a result where the assertion fails.
def addTimespec (a : Timespec) (b : Int32) : Option Timespec :=
  let result : Timespec := ⟨a.tvSec + (b/1000).toInt,a.tvNsec + ((b%1000)*1000000).toInt⟩
  if result.tvNsec ≥ 0 then some (carry result) else none

namespace Timespec

theorem shifted_toInt {c : Int32} (low : 0 ≤ c.toInt) (high : c.toInt < 2^30) : (c <<< 1).toInt = 2*c.toInt := by
  have same : c <<< 1 = c*2 := by
    apply Int32.toBitVec_inj.mp
    change c.toBitVec <<< 1 = c.toBitVec*2#32
    exact (BitVec.mul_twoPow_eq_shiftLeft c.toBitVec 1).symm
  have two : (2 : Int32).toInt = 2 := rfl
  rw [same,Int32.toInt_mul,two,Int.bmod_eq_of_le (by omega) (by omega)]
  omega

section Products
variable {b : Int32}

theorem seconds_toInt (positive : 0 ≤ b) : (b/1000).toInt = b.toInt/1000 := by
  have nonneg : 0 ≤ b.toInt := Int32.le_iff_toInt_le.mp positive
  rw [Int32.toInt_div_of_ne_right _ _ (by decide),Int.tdiv_eq_ediv_of_nonneg nonneg]
  rfl

theorem rest_toInt (positive : 0 ≤ b) : (b%1000).toInt = b.toInt%1000 := by
  have nonneg : 0 ≤ b.toInt := Int32.le_iff_toInt_le.mp positive
  rw [Int32.toInt_mod,Int.tmod_eq_emod_of_nonneg nonneg]
  rfl

theorem product_toInt (positive : 0 ≤ b) : ((b%1000)*1000000).toInt = (b.toInt%1000)*1000000 := by
  have literal : (1000000 : Int32).toInt = 1000000 := rfl
  rw [Int32.toInt_mul,rest_toInt positive,literal]
  have low := Int.emod_nonneg b.toInt (by decide : (1000 : Int) ≠ 0)
  have high := Int.emod_lt_of_pos b.toInt (by decide : (0 : Int) < 1000)
  rw [Int.bmod_eq_of_le (by omega) (by omega)]

end Products

theorem carry_small (small : ¬ a.tvNsec > 1000000000) : carry a = a := by
  rw [carry,if_neg small]

theorem carry_once (large : a.tvNsec > 1000000000) (bounded : a.tvNsec < 2*second) :
    carry a = ⟨a.tvSec+1,a.tvNsec-1000000000⟩ := by
  rw [carry,if_pos large,carry_small]
  simp only [second] at bounded
  dsimp only
  omega

theorem carry_nanos (a : Timespec) : (carry a).nanos = a.nanos := by
  fun_induction carry a with
  | case1 a large ih => rw [ih]; simp only [nanos,second]; ring
  | case2 a small => rfl

def sum (a : Timespec) (b : Int32) : Int := a.tvNsec + (b.toInt%1000)*1000000

theorem sum_bounded (valid : a.Normalised) : 0 ≤ sum a b ∧ sum a b < 2*second := by
  obtain ⟨low,high⟩ := valid
  simp only [second] at high ⊢
  have rest := Int.emod_nonneg b.toInt (by decide : (1000 : Int) ≠ 0)
  have small := Int.emod_lt_of_pos b.toInt (by decide : (0 : Int) < 1000)
  simp only [sum]
  omega

theorem addTimespec_eq (valid : a.Normalised) (positive : 0 ≤ b) :
    addTimespec a b = some (carry ⟨a.tvSec + b.toInt/1000,sum a b⟩) := by
  have whole : 0 ≤ sum a b := (sum_bounded valid).1
  simp only [addTimespec,seconds_toInt positive,product_toInt positive]
  exact if_pos whole

theorem addTimespec_nanos (valid : a.Normalised) (positive : 0 ≤ b) :
    ∃ r, addTimespec a b = some r ∧ r.nanos = a.nanos + b.toInt*1000000 := by
  refine ⟨_,addTimespec_eq valid positive,?_⟩
  rw [carry_nanos]
  have split := Int.mul_ediv_add_emod b.toInt 1000
  simp only [nanos,sum,second]
  omega

-- What an addition is to give: the product and the seconds can be held, and the
-- result is normalised and stands for the sum.
def Exact (a : Timespec) (b : Int32) : Prop :=
  ((b%1000)*1000000).toInt = (b%1000).toInt*1000000 ∧
    ∃ r, addTimespec a b = some r ∧ r.Normalised ∧ Fits r.tvSec ∧ r.nanos = a.nanos + b.toInt*1000000

-- The sum is not a whole second that the loop leaves in the nanoseconds, and
-- the seconds do not leave a time_t.
def Carries (a : Timespec) (b : Int32) : Prop := sum a b ≠ second ∧ Fits (a.tvSec + b.toInt/1000 + sum a b/second)

instance (a : Timespec) (b : Int32) : Decidable (Carries a b) := inferInstanceAs (Decidable (_ ∧ _))

theorem carry_normalised_iff (low : 0 ≤ a.tvNsec) (high : a.tvNsec < 2*second) :
    (carry a).Normalised ↔ a.tvNsec ≠ second := by
  by_cases large : a.tvNsec > 1000000000
  · rw [carry_once large high]
    simp only [Normalised,second] at high ⊢
    omega
  · rw [carry_small large]
    simp only [Normalised,second]
    omega

theorem carry_seconds (low : 0 ≤ a.tvNsec) (high : a.tvNsec < 2*second) (whole : a.tvNsec ≠ second) :
    (carry a).tvSec = a.tvSec + a.tvNsec/second := by
  by_cases large : a.tvNsec > 1000000000
  · rw [carry_once large high]
    simp only [second] at high ⊢
    omega
  · rw [carry_small large]
    simp only [second] at whole ⊢
    omega

theorem addTimespec_normalised_iff (valid : a.Normalised) (positive : 0 ≤ b) (added : addTimespec a b = some r) :
    r.Normalised ↔ sum a b ≠ second := by
  rw [addTimespec_eq valid positive] at added
  obtain ⟨low,high⟩ := sum_bounded (b:=b) valid
  cases added
  exact carry_normalised_iff low high

theorem exact_iff (valid : a.Normalised) (positive : 0 ≤ b) : Exact a b ↔ Carries a b := by
  obtain ⟨low,high⟩ := sum_bounded (b:=b) valid
  obtain ⟨r,added,value⟩ := addTimespec_nanos valid positive
  have normal := addTimespec_normalised_iff valid positive added
  have seconds : sum a b ≠ second → r.tvSec = a.tvSec + b.toInt/1000 + sum a b/second := by
    intro whole
    rw [addTimespec_eq valid positive] at added
    cases added
    exact carry_seconds low high whole
  constructor
  · intro exact_
    obtain ⟨_,other,again,normalised,fits,_⟩ := exact_
    cases Option.some.inj (added.symm.trans again)
    have whole := normal.mp normalised
    exact ⟨whole,seconds whole ▸ fits⟩
  · intro carries
    obtain ⟨whole,fits⟩ := carries
    refine ⟨?_,r,added,normal.mpr whole,seconds whole ▸ fits,value⟩
    rw [product_toInt positive,rest_toInt positive]

def Ordered (a b : Timespec) : Prop :=
  (cmpTimespec a b = 1 ↔ b.nanos < a.nanos) ∧ (cmpTimespec a b = -1 ↔ a.nanos < b.nanos) ∧
    (cmpTimespec a b = 0 ↔ a.nanos = b.nanos)

theorem normalised_ordered (one : a.Normalised) (two : b.Normalised) : Ordered a b := by
  obtain ⟨low,high⟩ := one
  obtain ⟨low',high'⟩ := two
  simp only [second] at high high'
  have apart : ((1 : Int32) = -1) = False ∧ ((1 : Int32) = 0) = False ∧ ((-1 : Int32) = 1) = False ∧
      ((-1 : Int32) = 0) = False ∧ ((0 : Int32) = 1) = False ∧ ((0 : Int32) = -1) = False := by decide
  obtain ⟨h1,h2,h3,h4,h5,h6⟩ := apart
  unfold Ordered cmpTimespec
  simp only [nanos,second]
  split
  · simp only [h1,h2,true_iff,false_iff]; omega
  · split
    · simp only [h3,h4,true_iff,false_iff]; omega
    · split
      · simp only [h1,h2,true_iff,false_iff]; omega
      · split
        · simp only [h3,h4,true_iff,false_iff]; omega
        · simp only [h5,h6,true_iff,false_iff]; omega

theorem cmpTimespec_positive : cmpTimespec a b > 0 ↔ b.tvSec < a.tvSec ∨ (a.tvSec = b.tvSec ∧ b.tvNsec < a.tvNsec) := by
  have signs : ((1 : Int32) > 0) ∧ ¬ ((-1 : Int32) > 0) ∧ ¬ ((0 : Int32) > 0) := by decide
  obtain ⟨h1,h2,h3⟩ := signs
  unfold cmpTimespec
  split
  · exact iff_of_true h1 (by omega)
  · split
    · exact iff_of_false h2 (by omega)
    · split
      · exact iff_of_true h1 (by omega)
      · split
        · exact iff_of_false h2 (by omega)
        · exact iff_of_false h3 (by omega)

theorem addTimespec_bounded (valid : a.Normalised) (positive : 0 ≤ b) (added : addTimespec a b = some r) :
    0 ≤ r.tvNsec ∧ r.tvNsec ≤ second ∧ a.tvSec ≤ r.tvSec := by
  obtain ⟨low,high⟩ := sum_bounded (b:=b) valid
  have nonneg : 0 ≤ b.toInt := Int32.le_iff_toInt_le.mp positive
  have later : 0 ≤ b.toInt/1000 := Int.ediv_nonneg nonneg (by decide)
  rw [addTimespec_eq valid positive] at added
  cases added
  by_cases large : sum a b > 1000000000
  · rw [carry_once large high]
    simp only [second] at high ⊢
    omega
  · rw [carry_small large]
    simp only [second]
    omega

theorem not_later (valid : a.Normalised) (low : 0 ≤ b.tvNsec) (earlier : ¬ cmpTimespec a b > 0) : a.nanos ≤ b.nanos := by
  rw [cmpTimespec_positive] at earlier
  obtain ⟨_,high⟩ := valid
  simp only [nanos,second] at high ⊢
  omega

theorem pair_exact_iff (valid : a.Normalised) (valid' : a'.Normalised) (positive : 0 ≤ b) (positive' : 0 ≤ b') :
    (Exact a b ∧ Exact a' b' ∧ ∀ r r', addTimespec a b = some r → addTimespec a' b' = some r' → Ordered r r') ↔
      Carries a b ∧ Carries a' b' := by
  rw [← exact_iff valid positive,← exact_iff valid' positive']
  constructor
  · intro all
    exact ⟨all.1,all.2.1⟩
  · intro both
    refine ⟨both.1,both.2,?_⟩
    obtain ⟨⟨_,r,added,normal,_⟩,⟨_,r',added',normal',_⟩⟩ := both
    intro one two got got'
    cases Option.some.inj (added.symm.trans got)
    cases Option.some.inj (added'.symm.trans got')
    exact normalised_ordered normal normal'

end Timespec
end YfsLab
