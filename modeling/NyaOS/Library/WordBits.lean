import Mathlib.Data.Nat.Bitwise
import Mathlib.Logic.Function.Basic
import Mathlib.Tactic.Common

/-! A row of bits stored in machine words of a fixed width. Bit `k` of the row is
bit `k % n` of word `k / n`; nothing here depends on what the bits stand for. -/
namespace NyaOS.Library.WordBits
variable {n : Nat}

abbrev Row (n : Nat) := Nat → BitVec n

def bit (w : Row n) (k : Nat) : Bool := (w (k / n)).getLsbD (k % n)

/-- Every bit of the half-open range is clear; an empty range is clear. -/
def Clear (w : Row n) (lo hi : Nat) : Prop := ∀ k, lo ≤ k → k < hi → bit w k = false

/-- Every bit of the half-open range is set. -/
def Full (w : Row n) (lo hi : Nat) : Prop := ∀ k, lo ≤ k → k < hi → bit w k = true

theorem bit_update (w : Row n) (a : Nat) (v : BitVec n) (k : Nat) :
    bit (Function.update w a v) k = if k / n = a then v.getLsbD (k % n) else bit w k := by
  unfold bit
  by_cases h : k / n = a
  · simp [h]
  · simp [h]

/-- The row is determined by its bits, word by word. -/
theorem row_ext {w w' : Row n} (h : ∀ k, bit w k = bit w' k) : w = w' := by
  funext a
  apply BitVec.eq_of_getLsbD_eq
  intro j hj
  have hk := h (n * a + j)
  have hd : (n * a + j) / n = a := by
    rw [Nat.mul_add_div (by omega), Nat.div_eq_of_lt hj, Nat.add_zero]
  have hm : (n * a + j) % n = j := by
    rw [Nat.mul_add_mod, Nat.mod_eq_of_lt hj]
  simpa only [bit, hd, hm] using hk

/-- The mask of the positions below `e`. -/
theorem lowMask_getLsbD {e i : Nat} (he : e < n) (hi : i < n) :
    ((1#n <<< e) - 1#n).getLsbD i = decide (i < e) := by
  have hn : 0 < n := by omega
  have hp : 2 ^ e < 2 ^ n := Nat.pow_lt_pow_right (by decide) he
  have h1 : 1 < 2 ^ n := Nat.one_lt_two_pow (by omega)
  have hs : ((1#n <<< e) - 1#n).toNat = 2 ^ e - 1 := by
    have hpos : 1 ≤ 2 ^ e := Nat.one_le_two_pow
    rw [BitVec.toNat_sub_of_le]
    · simp [BitVec.toNat_shiftLeft, Nat.shiftLeft_eq, Nat.mod_eq_of_lt h1, Nat.mod_eq_of_lt hp]
    · rw [BitVec.le_def]
      simp [BitVec.toNat_shiftLeft, Nat.shiftLeft_eq, Nat.mod_eq_of_lt h1, Nat.mod_eq_of_lt hp, hpos]
  rw [← BitVec.testBit_toNat, hs, Nat.testBit_two_pow_sub_one]

/-- A masked word is zero exactly when the word is clear wherever the mask is set. -/
theorem and_eq_zero_iff (v mask : BitVec n) :
    v &&& mask = 0#n ↔ ∀ i < n, mask.getLsbD i = true → v.getLsbD i = false := by
  constructor
  · intro h i _ hm
    have := congrArg (fun x => x.getLsbD i) h
    simpa [hm] using this
  · intro h
    apply BitVec.eq_of_getLsbD_eq
    intro i hi
    cases hm : mask.getLsbD i with
    | false => simp [hm]
    | true => simp [hm, h i hi hm]

/-- Masking off the low `k` bits rounds down to a multiple of `2 ^ k`. -/
theorem toNat_and_not_lowMask (v : BitVec n) {k : Nat} (hk : k ≤ n) :
    (v &&& ~~~BitVec.ofNat n (2 ^ k - 1)).toNat = v.toNat / 2 ^ k * 2 ^ k := by
  rw [← Nat.shiftRight_eq_div_pow, ← Nat.shiftLeft_eq]
  apply Nat.eq_of_testBit_eq
  intro i
  rw [BitVec.testBit_toNat, BitVec.getLsbD_and, BitVec.getLsbD_not, BitVec.getLsbD_ofNat,
    Nat.testBit_two_pow_sub_one, Nat.testBit_shiftLeft, Nat.testBit_shiftRight,
    BitVec.testBit_toNat]
  by_cases hi : k ≤ i
  · rw [Nat.add_sub_cancel' hi]
    by_cases hn : i < n
    · simp [hi, hn]
    · simp [BitVec.getLsbD_of_ge v i (by omega)]
  · have hin : i < n := by omega
    simp [hi, hin]
    omega

theorem bit_mul_add (w : Row n) (a : Nat) {j : Nat} (hj : j < n) :
    bit w (n * a + j) = (w a).getLsbD j := by
  rw [bit, Nat.mul_add_div (by omega), Nat.div_eq_of_lt hj, Nat.add_zero,
    Nat.mul_add_mod, Nat.mod_eq_of_lt hj]

/-- Testing one word against the mask of `[lo, hi)` tests that stretch of the row. -/
theorem masked_eq_zero_iff (w : Row n) (a : Nat) (mask : BitVec n) (lo hi : Nat) (hn : hi ≤ n)
    (hm : ∀ i < n, mask.getLsbD i = decide (lo ≤ i ∧ i < hi)) :
    w a &&& mask = 0#n ↔ Clear w (n * a + lo) (n * a + hi) := by
  rw [and_eq_zero_iff]
  constructor
  · intro h k hlo hhi
    obtain ⟨i, rfl⟩ := Nat.exists_eq_add_of_le (show n * a ≤ k by omega)
    rw [bit_mul_add w a (by omega)]
    exact h i (by omega) (by rw [hm i (by omega)]; simp; omega)
  · intro h i hi hmask
    rw [hm i hi, decide_eq_true_eq] at hmask
    rw [← bit_mul_add w a hi]
    exact h _ (by omega) (by omega)

/-- A word of the row is zero exactly when its `n` bits are clear. -/
theorem word_eq_zero_iff (w : Row n) (a : Nat) : w a = 0#n ↔ Clear w (n * a) (n * a + n) := by
  have h := masked_eq_zero_iff w a (BitVec.allOnes n) 0 n le_rfl (by intro i hi; simp [hi])
  simpa using h

theorem Clear.mono {w : Row n} {lo hi lo' hi' : Nat} (h : Clear w lo hi) (hl : lo ≤ lo')
    (hh : hi' ≤ hi) : Clear w lo' hi' :=
  fun k hk hk' => h k (hl.trans hk) (lt_of_lt_of_le hk' hh)

theorem clear_append (w : Row n) (lo mid hi : Nat) (hl : lo ≤ mid) (hh : mid ≤ hi) :
    Clear w lo hi ↔ Clear w lo mid ∧ Clear w mid hi := by
  constructor
  · exact fun h => ⟨h.mono le_rfl hh, h.mono hl le_rfl⟩
  · rintro ⟨ha, hb⟩ k hk hk'
    rcases lt_or_ge k mid with hm | hm
    · exact ha k hk hm
    · exact hb k hm hk'

end NyaOS.Library.WordBits
