import Mathlib.Data.Nat.Bitwise
import Mathlib.Tactic.Common

namespace Words

-- One byte of a machine word, and words put together from bytes with shifts
-- and ors. Every fact is reduced to division and remainder of naturals.
def byte16 (x shift : UInt16) : UInt8 := ((x >>> shift) &&& 0xff).toUInt8
def byte32 (x shift : UInt32) : UInt8 := ((x >>> shift) &&& 0xff).toUInt8

def join16 (a b : UInt8) : UInt16 := (a.toUInt16 <<< 8) ||| b.toUInt16
def join32 (a b c d : UInt8) : UInt32 :=
  (a.toUInt32 <<< 24) ||| (b.toUInt32 <<< 16) ||| (c.toUInt32 <<< 8) ||| d.toUInt32
def join64 (high low : UInt32) : UInt64 := low.toUInt64 ||| (high.toUInt64 <<< 32)

def be32 (x : UInt32) : List UInt8 := [byte32 x 24,byte32 x 16,byte32 x 8,byte32 x 0]

theorem or_eq_add (high low width : Nat) (small : low < 2^width) :
    (high * 2^width) ||| low = high * 2^width + low := by
  rw [Nat.mul_comm,Nat.two_pow_add_eq_or_of_lt small]

theorem byte16_toNat (x shift : UInt16) (small : shift.toNat < 16) :
    (byte16 x shift).toNat = x.toNat / 2^shift.toNat % 256 := by
  have masked : ∀ n, n &&& 255 = n % 256 := fun n => Nat.and_two_pow_sub_one_eq_mod n 8
  simp [byte16,UInt16.toNat_shiftRight,Nat.shiftRight_eq_div_pow,Nat.mod_eq_of_lt small,masked]

theorem byte32_toNat (x shift : UInt32) (small : shift.toNat < 32) :
    (byte32 x shift).toNat = x.toNat / 2^shift.toNat % 256 := by
  have masked : ∀ n, n &&& 255 = n % 256 := fun n => Nat.and_two_pow_sub_one_eq_mod n 8
  simp [byte32,UInt32.toNat_shiftRight,Nat.shiftRight_eq_div_pow,Nat.mod_eq_of_lt small,masked]

theorem join16_toNat (a b : UInt8) : (join16 a b).toNat = a.toNat*2^8 + b.toNat := by
  have smallA := a.toNat_lt
  have smallB := b.toNat_lt
  simp only [join16,UInt16.toNat_or,UInt16.toNat_shiftLeft,UInt8.toNat_toUInt16,Nat.shiftLeft_eq,
    UInt16.reduceToNat,Nat.reduceMod]
  rw [Nat.mod_eq_of_lt (by omega),or_eq_add _ _ 8 smallB]

theorem join32_toNat (a b c d : UInt8) :
    (join32 a b c d).toNat = a.toNat*2^24 + b.toNat*2^16 + c.toNat*2^8 + d.toNat := by
  have smallA := a.toNat_lt
  have smallB := b.toNat_lt
  have smallC := c.toNat_lt
  have smallD := d.toNat_lt
  simp only [join32,UInt32.toNat_or,UInt32.toNat_shiftLeft,UInt8.toNat_toUInt32,Nat.shiftLeft_eq,
    UInt32.reduceToNat,Nat.reduceMod]
  rw [Nat.mod_eq_of_lt (by omega),Nat.mod_eq_of_lt (by omega),Nat.mod_eq_of_lt (by omega)]
  have two : a.toNat*2^24 ||| b.toNat*2^16 = (a.toNat*2^8 + b.toNat)*2^16 := by
    rw [or_eq_add _ _ 24 (by omega)]; omega
  have three : (a.toNat*2^8 + b.toNat)*2^16 ||| c.toNat*2^8 = (a.toNat*2^16 + b.toNat*2^8 + c.toNat)*2^8 := by
    rw [or_eq_add _ _ 16 (by omega)]; omega
  rw [two,three,or_eq_add _ _ 8 smallD]
  omega

theorem join64_toNat (high low : UInt32) : (join64 high low).toNat = high.toNat*2^32 + low.toNat := by
  have smallHigh := high.toNat_lt
  have smallLow := low.toNat_lt
  simp only [join64,UInt64.toNat_or,UInt64.toNat_shiftLeft,UInt32.toNat_toUInt64,Nat.shiftLeft_eq,
    UInt64.reduceToNat,Nat.reduceMod]
  rw [Nat.mod_eq_of_lt (by omega),Nat.lor_comm,or_eq_add _ _ 32 smallLow]

theorem join16_wide (a b : UInt8) : (a.toUInt32 <<< 8).toUInt16 ||| b.toUInt32.toUInt16 = join16 a b := by
  apply UInt16.toNat_inj.mp
  have smallA := a.toNat_lt
  have smallB := b.toNat_lt
  simp only [join16,UInt16.toNat_or,UInt32.toNat_toUInt16,UInt32.toNat_shiftLeft,UInt16.toNat_shiftLeft,
    UInt8.toNat_toUInt32,UInt8.toNat_toUInt16,Nat.shiftLeft_eq,UInt32.reduceToNat,UInt16.reduceToNat,Nat.reduceMod]
  congr 1 <;> omega

theorem join16_bytes (x : UInt16) : join16 (byte16 x 8) (byte16 x 0) = x := by
  apply UInt16.toNat_inj.mp
  have small := x.toNat_lt
  rw [join16_toNat,byte16_toNat x 8 (by decide),byte16_toNat x 0 (by decide)]
  simp only [UInt16.reduceToNat]
  omega

theorem join32_bytes (x : UInt32) : join32 (byte32 x 24) (byte32 x 16) (byte32 x 8) (byte32 x 0) = x := by
  apply UInt32.toNat_inj.mp
  have small := x.toNat_lt
  rw [join32_toNat,byte32_toNat x 24 (by decide),byte32_toNat x 16 (by decide),
    byte32_toNat x 8 (by decide),byte32_toNat x 0 (by decide)]
  simp only [UInt32.reduceToNat]
  omega

theorem join64_words (x : UInt64) : join64 (x >>> 32).toUInt32 x.toUInt32 = x := by
  apply UInt64.toNat_inj.mp
  have small := x.toNat_lt
  rw [join64_toNat]
  simp only [UInt64.toNat_toUInt32,UInt64.toNat_shiftRight,Nat.shiftRight_eq_div_pow,
    UInt64.reduceToNat,Nat.reduceMod]
  omega

theorem bytes_join16 (a b : UInt8) : byte16 (join16 a b) 8 = a ∧ byte16 (join16 a b) 0 = b := by
  have smallA := a.toNat_lt
  have smallB := b.toNat_lt
  constructor <;> apply UInt8.toNat_inj.mp
  · rw [byte16_toNat _ 8 (by decide),join16_toNat]
    simp only [UInt16.reduceToNat]
    omega
  · rw [byte16_toNat _ 0 (by decide),join16_toNat]
    simp only [UInt16.reduceToNat]
    omega

theorem be32_join32 (a b c d : UInt8) : be32 (join32 a b c d) = [a,b,c,d] := by
  have smallA := a.toNat_lt
  have smallB := b.toNat_lt
  have smallC := c.toNat_lt
  have smallD := d.toNat_lt
  have part : ∀ (shift : UInt32) (x : UInt8), shift.toNat < 32 →
      (a.toNat*2^24 + b.toNat*2^16 + c.toNat*2^8 + d.toNat) / 2^shift.toNat % 256 = x.toNat →
      byte32 (join32 a b c d) shift = x := by
    intro shift x inside value
    apply UInt8.toNat_inj.mp
    rw [byte32_toNat _ shift inside,join32_toNat,value]
  have first := part 24 a (by decide) (by simp only [UInt32.reduceToNat]; omega)
  have second := part 16 b (by decide) (by simp only [UInt32.reduceToNat]; omega)
  have third := part 8 c (by decide) (by simp only [UInt32.reduceToNat]; omega)
  have fourth := part 0 d (by decide) (by simp only [UInt32.reduceToNat]; omega)
  rw [be32,first,second,third,fourth]

theorem words_join64 (high low : UInt32) :
    (join64 high low >>> 32).toUInt32 = high ∧ (join64 high low).toUInt32 = low := by
  have smallHigh := high.toNat_lt
  have smallLow := low.toNat_lt
  constructor <;> apply UInt32.toNat_inj.mp
  · rw [UInt64.toNat_toUInt32,UInt64.toNat_shiftRight,join64_toNat]
    simp only [Nat.shiftRight_eq_div_pow,UInt64.reduceToNat,Nat.reduceMod]
    omega
  · rw [UInt64.toNat_toUInt32,join64_toNat]
    omega

@[simp] theorem be32_length (x : UInt32) : (be32 x).length = 4 := rfl

theorem signed_masked (b : UInt8) : b.toInt8.toInt32.toUInt32 &&& 0xff = b.toUInt32 := by
  have all : ∀ n : Fin 256, (UInt8.ofNat n).toInt8.toInt32.toUInt32 &&& 0xff = (UInt8.ofNat n).toUInt32 := by
    decide +kernel
  simpa using all ⟨b.toNat,b.toNat_lt⟩

theorem signed_low (b : UInt8) : b.toInt8.toInt32.toUInt32.toUInt8 = b := by
  have all : ∀ n : Fin 256, (UInt8.ofNat n).toInt8.toInt32.toUInt32.toUInt8 = UInt8.ofNat n := by decide +kernel
  simpa using all ⟨b.toNat,b.toNat_lt⟩

-- Host order: the bytes of a little-endian object of the given width.
def leBytes : Nat → Nat → List UInt8
  | 0,_ => []
  | width+1,n => UInt8.ofNat n :: leBytes width (n / 256)

def leValue : List UInt8 → Nat
  | [] => 0
  | b :: rest => b.toNat + 256 * leValue rest

@[simp] theorem leBytes_length (width n : Nat) : (leBytes width n).length = width := by
  induction width generalizing n with
  | zero => rfl
  | succ width ih => simp [leBytes,ih]

theorem leValue_leBytes (width n : Nat) (small : n < 256^width) : leValue (leBytes width n) = n := by
  induction width generalizing n with
  | zero => simp at small; simp [leBytes,leValue,small]
  | succ width ih =>
    have quotient : n / 256 < 256^width := by
      rw [Nat.div_lt_iff_lt_mul (by decide)]
      simpa [Nat.pow_succ] using small
    simp only [leBytes,leValue,ih _ quotient,UInt8.toNat_ofNat']
    omega

theorem leValue_lt (bytes : List UInt8) : leValue bytes < 256^bytes.length := by
  induction bytes with
  | nil => simp [leValue]
  | cons b bytes ih =>
    have low := b.toNat_lt
    simp only [leValue,List.length_cons,Nat.pow_succ]
    omega

theorem leBytes_leValue (bytes : List UInt8) : leBytes bytes.length (leValue bytes) = bytes := by
  induction bytes with
  | nil => rfl
  | cons b bytes ih =>
    have low := b.toNat_lt
    have rest : (b.toNat + 256 * leValue bytes) / 256 = leValue bytes := by omega
    have first : UInt8.ofNat (b.toNat + 256 * leValue bytes) = b := by
      apply UInt8.toNat_inj.mp
      rw [UInt8.toNat_ofNat']
      omega
    simp only [leValue,List.length_cons,leBytes,rest,first,ih]

end Words
