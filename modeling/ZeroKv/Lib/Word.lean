/-
# ZeroKv.Lib.Word — machine words as naturals, and counters kept modulo a word.

A `w`-bit word is a natural below `2 ^ w`; the wrapping operations reduce modulo `2 ^ w`.  The one
recurring pattern in the engine is a *counter kept modulo the word size*: the true count is an
unbounded natural, the program only stores its residue.  The lemmas below recover differences and
masked indices of true counts from the stored residues.  The last two sections round a word up to a
power of two and write it out in bytes.
-/
import Mathlib.Data.Nat.Log
import Mathlib.Data.Nat.ModEq

namespace ZeroKv

/-- Word addition modulo `2 ^ w`. -/
def wrappingAdd (w a b : ℕ) : ℕ := (a + b) % 2 ^ w

/-- Word subtraction modulo `2 ^ w`, for arguments below `2 ^ w`. -/
def wrappingSub (w a b : ℕ) : ℕ := (a + (2 ^ w - b)) % 2 ^ w

/-- Word addition that notices an overflow. -/
def checkedAdd (w a b : ℕ) : Option ℕ := if a + b < 2 ^ w then some (a + b) else none

/-- Word multiplication modulo `2 ^ w`. -/
def wrappingMul (w a b : ℕ) : ℕ := a * b % 2 ^ w

/-- Word multiplication that notices an overflow. -/
def checkedMul (w a b : ℕ) : Option ℕ := if a * b < 2 ^ w then some (a * b) else none

/-- The complement of a word. -/
def wordNot (w a : ℕ) : ℕ := 2 ^ w - 1 - a

/-- The least power of two that is at least `n` (`1` for `n = 0`). -/
def nextPowerOfTwo (n : ℕ) : ℕ := 2 ^ Nat.clog 2 n

/-- Incrementing a stored residue is storing the residue of the incremented count. -/
theorem wrappingAdd_mod (w n k : ℕ) : wrappingAdd w (n % 2 ^ w) k = (n + k) % 2 ^ w := by
  simp [wrappingAdd]

/-- The distance of two counts can be read off their residues as long as it fits in a word. -/
theorem wrappingSub_mod {w m n : ℕ} (hmn : m ≤ n) (hd : n - m < 2 ^ w) :
    wrappingSub w (n % 2 ^ w) (m % 2 ^ w) = n - m := by
  obtain ⟨d, rfl⟩ := Nat.exists_eq_add_of_le hmn
  have hd' : d < 2 ^ w := by omega
  have hm : m % 2 ^ w < 2 ^ w := Nat.mod_lt _ (Nat.two_pow_pos w)
  have hsum : m % 2 ^ w + (2 ^ w - m % 2 ^ w) = 2 ^ w := by omega
  calc wrappingSub w ((m + d) % 2 ^ w) (m % 2 ^ w)
      = (m % 2 ^ w + d + (2 ^ w - m % 2 ^ w)) % 2 ^ w := by
        simp only [wrappingSub, Nat.add_mod, Nat.mod_mod]
    _ = (d + 2 ^ w) % 2 ^ w := by congr 1; omega
    _ = m + d - m := by rw [Nat.add_mod_right, Nat.mod_eq_of_lt hd']; omega

/-- A subtraction that does not wrap. -/
theorem wrappingSub_of_le {w a b : ℕ} (hba : b ≤ a) (ha : a < 2 ^ w) : wrappingSub w a b = a - b := by
  rw [wrappingSub, show a + (2 ^ w - b) = a - b + 2 ^ w by omega, Nat.add_mod_right]
  exact Nat.mod_eq_of_lt (by omega)

/-- Masking a residue with a smaller power of two reduces the count modulo that power. -/
theorem mod_land_mask {w c : ℕ} (hc : c ≤ w) (n : ℕ) :
    (n % 2 ^ w) &&& (2 ^ c - 1) = n % 2 ^ c := by
  rw [Nat.and_two_pow_sub_one_eq_mod, Nat.mod_mod_of_dvd _ (Nat.pow_dvd_pow 2 hc)]

/-- Two counts less than `k` apart that agree modulo `k` are equal. -/
theorem eq_of_mod_eq_of_lt {k i j : ℕ} (hij : i ≤ j) (hd : j - i < k) (h : i % k = j % k) :
    i = j := by
  have hdvd : k ∣ j - i := (Nat.modEq_iff_dvd' hij).1 h
  have hz : j - i = 0 := Nat.eq_zero_of_dvd_of_lt hdvd hd
  omega

/-! ## Rounding up to a power of two -/

theorem wordNot_two_pow_sub_one {w k : ℕ} (hk : k ≤ w) :
    wordNot w (2 ^ k - 1) = 2 ^ k * (2 ^ (w - k) - 1) := by
  have hpow : 2 ^ w = 2 ^ k * 2 ^ (w - k) := by rw [← pow_add, Nat.add_sub_cancel' hk]
  have hpos := Nat.two_pow_pos k
  rw [wordNot, hpow, Nat.mul_sub_one]
  omega

/-- Clearing the low bits of a word rounds it down. -/
theorem land_wordNot {w k x : ℕ} (hk : k ≤ w) (hx : x < 2 ^ w) :
    x &&& wordNot w (2 ^ k - 1) = 2 ^ k * (x / 2 ^ k) := by
  rw [wordNot_two_pow_sub_one hk]
  refine Nat.eq_of_testBit_eq fun i => ?_
  simp only [Nat.testBit_and, Nat.testBit_two_pow_mul, Nat.testBit_two_pow_sub_one,
    Nat.testBit_div_two_pow]
  rcases Nat.lt_or_ge i k with hi | hi
  · simp [Nat.not_le.mpr hi]
  · rw [Nat.sub_add_cancel hi]
    rcases Nat.lt_or_ge i w with hw | hw
    · simp [hi, show i - k < w - k by omega]
    · have hbit : x.testBit i = false :=
        Nat.testBit_lt_two_pow (hx.trans_le (Nat.pow_le_pow_right (by omega) hw))
      simp [hbit]

/-- `(start + align - 1) & !(align - 1)` in words of `w` bits. -/
def alignUp (w start align : ℕ) : ℕ :=
  wrappingSub w (wrappingAdd w start align) 1 &&& wordNot w (align - 1)

/-- Rounding up, as long as the sum is at most `2 ^ w`.  If it is `2 ^ w` itself, it wraps to zero and the
subtraction wraps back. -/
theorem alignUp_of_le {w k start : ℕ} (hk : k ≤ w) (hsum : start + 2 ^ k ≤ 2 ^ w) :
    alignUp w start (2 ^ k) = 2 ^ k * ((start + 2 ^ k - 1) / 2 ^ k) := by
  have hpos := Nat.two_pow_pos k
  have hsub : wrappingSub w (wrappingAdd w start (2 ^ k)) 1 = start + 2 ^ k - 1 := by
    unfold wrappingSub wrappingAdd
    rcases Nat.lt_or_ge (start + 2 ^ k) (2 ^ w) with h | h
    · rw [Nat.mod_eq_of_lt h, show start + 2 ^ k + (2 ^ w - 1) = start + 2 ^ k - 1 + 2 ^ w by omega,
        Nat.add_mod_right, Nat.mod_eq_of_lt (by omega)]
    · rw [show start + 2 ^ k = 2 ^ w by omega, Nat.mod_self, Nat.zero_add, Nat.mod_eq_of_lt (by omega)]
  rw [alignUp, hsub, land_wordNot hk (by omega)]

/-- A word that is less than `2 ^ k` away from `2 ^ w` is rounded to zero. -/
theorem alignUp_of_lt {w k start : ℕ} (hk : k ≤ w) (hstart : start < 2 ^ w)
    (hsum : 2 ^ w < start + 2 ^ k) : alignUp w start (2 ^ k) = 0 := by
  have hle : 2 ^ k ≤ 2 ^ w := Nat.pow_le_pow_right (by omega) hk
  have hadd : wrappingAdd w start (2 ^ k) = start + 2 ^ k - 2 ^ w := by
    rw [wrappingAdd, Nat.mod_eq_sub_mod (by omega), Nat.mod_eq_of_lt (by omega)]
  rw [alignUp, hadd, wrappingSub_of_le (by omega) (by omega), land_wordNot hk (by omega),
    Nat.div_eq_of_lt (by omega), Nat.mul_zero]

/-- Rounding up gives the next multiple. -/
theorem alignUp_spec {w k start : ℕ} (hk : k ≤ w) (hsum : start + 2 ^ k ≤ 2 ^ w) :
    2 ^ k ∣ alignUp w start (2 ^ k) ∧ start ≤ alignUp w start (2 ^ k) ∧
      alignUp w start (2 ^ k) < start + 2 ^ k := by
  have hpos := Nat.two_pow_pos k
  have hdiv := Nat.div_add_mod (start + 2 ^ k - 1) (2 ^ k)
  have hmod := Nat.mod_lt (start + 2 ^ k - 1) hpos
  rw [alignUp_of_le hk hsum]
  refine ⟨Nat.dvd_mul_right _ _, ?_, ?_⟩ <;> omega

/-- Also when the sum wraps, what comes out is a multiple. -/
theorem dvd_alignUp {w k start : ℕ} (hk : k ≤ w) (hstart : start < 2 ^ w) :
    2 ^ k ∣ alignUp w start (2 ^ k) := by
  rcases Nat.lt_or_ge (2 ^ w) (start + 2 ^ k) with hbig | hsum
  · rw [alignUp_of_lt hk hstart hbig]
    exact dvd_zero _
  · exact (alignUp_spec hk hsum).1

/-- A region of `size` bytes in units of `align` that has room for `request` bytes. -/
structure Covers (align request size : ℕ) : Prop where
  dvd : align ∣ size
  le : request ≤ size
  pos : 0 < size

theorem Covers.mul {align request size : ℕ} (h : Covers align request size) {n : ℕ} (hn : 0 < n) :
    Covers align (n * request) (n * size) where
  dvd := Dvd.dvd.mul_left h.dvd n
  le := Nat.mul_le_mul_left n h.le
  pos := Nat.mul_pos hn h.pos

/-- A region is never empty, so asking for at least one byte changes nothing. -/
theorem covers_max_one {align request size : ℕ} :
    Covers align (max request 1) size ↔ Covers align request size := by
  constructor
  · intro h
    exact ⟨h.dvd, (le_max_left _ _).trans h.le, h.pos⟩
  · intro h
    exact ⟨h.dvd, max_le h.le h.pos, h.pos⟩

/-- Rounding up fails at both ends of the range: zero is a multiple already, and above `2 ^ w - 2 ^ k` the sum
wraps. -/
theorem alignUp_eq_zero {w k request : ℕ} (hk : k ≤ w) (hlt : request < 2 ^ w)
    (hends : ¬(0 < request ∧ request + 2 ^ k ≤ 2 ^ w)) : alignUp w request (2 ^ k) = 0 := by
  rcases Nat.lt_or_ge (2 ^ w) (request + 2 ^ k) with hbig | hsum
  · exact alignUp_of_lt hk hlt hbig
  · obtain rfl : request = 0 := by omega
    obtain ⟨hdvd, -, hsmall⟩ := alignUp_spec hk hsum
    exact Nat.eq_zero_of_dvd_of_lt hdvd (by omega)

theorem covers_alignUp {w k request : ℕ} (hk : k ≤ w) (hpos : 0 < request)
    (hsum : request + 2 ^ k ≤ 2 ^ w) : Covers (2 ^ k) request (alignUp w request (2 ^ k)) := by
  obtain ⟨hdvd, hle, -⟩ := alignUp_spec hk hsum
  exact ⟨hdvd, hle, by omega⟩

/-! ## Little-endian bytes -/

/-- The `w` low bytes of a number, the lowest first. -/
def toLeBytes : ℕ → ℕ → List UInt8
  | 0, _ => []
  | w + 1, n => UInt8.ofNat n :: toLeBytes w (n / 256)

@[simp] theorem length_toLeBytes (w n : ℕ) : (toLeBytes w n).length = w := by
  induction w generalizing n with
  | zero => rfl
  | succ w ih => rw [toLeBytes, List.length_cons, ih]

/-- The number whose bytes these are. -/
def ofLeBytes : List UInt8 → ℕ
  | [] => 0
  | byte :: rest => byte.toNat + 256 * ofLeBytes rest

theorem ofLeBytes_lt (bytes : List UInt8) : ofLeBytes bytes < 256 ^ bytes.length := by
  induction bytes with
  | nil => exact Nat.one_pos
  | cons byte rest ih =>
      have hbyte := byte.toNat_lt
      rw [ofLeBytes, List.length_cons, pow_succ']
      omega

theorem ofLeBytes_toLeBytes {w n : ℕ} (h : n < 256 ^ w) : ofLeBytes (toLeBytes w n) = n := by
  induction w generalizing n with
  | zero => exact (Nat.lt_one_iff.mp h).symm
  | succ w ih =>
      have hrest : n / 256 < 256 ^ w := Nat.div_lt_of_lt_mul (by rwa [pow_succ'] at h)
      rw [toLeBytes, ofLeBytes, ih hrest, UInt8.toNat_ofNat']
      omega

theorem toLeBytes_ofLeBytes (bytes : List UInt8) : toLeBytes bytes.length (ofLeBytes bytes) = bytes := by
  induction bytes with
  | nil => rfl
  | cons byte rest ih =>
      have hbyte := byte.toNat_lt
      have hlow : UInt8.ofNat (byte.toNat + 256 * ofLeBytes rest) = byte := by
        rw [← UInt8.toNat_inj, UInt8.toNat_ofNat']
        omega
      have hhigh : (byte.toNat + 256 * ofLeBytes rest) / 256 = ofLeBytes rest := by omega
      rw [List.length_cons, ofLeBytes, toLeBytes, hlow, hhigh, ih]

/-- The bytes of a word determine it. -/
theorem toLeBytes_inj {w n m : ℕ} (hn : n < 256 ^ w) (hm : m < 256 ^ w)
    (h : toLeBytes w n = toLeBytes w m) : n = m := by
  rw [← ofLeBytes_toLeBytes hn, h, ofLeBytes_toLeBytes hm]

end ZeroKv
