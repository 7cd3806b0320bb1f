import NyaOS.Frames.Bitmap

/-! Runs of frames: the word-wise range test and the two range updates of `pfa.c`, what each
of them really decides or changes. -/
namespace NyaOS.Frames
open Library.WordBits

/-- The pointer loop of `test_range`: `n` more words after `ptr`. The word at `stop` is read
but not judged. -/
def testWords (w : Row 32) (stop : Nat) : Nat → Nat → Bool
  | 0, _ => true
  | n + 1, ptr => if w (ptr + 1) ≠ 0#32 ∧ ptr + 1 ≠ stop then false else testWords w stop n (ptr + 1)

/-- `test_range` with word pointers as word indices. -/
def testRange (w : Row 32) (start stop sBit eBit : Nat) : Bool :=
  if start = stop then
    w start &&& (~~~((1#32 <<< sBit) - 1#32) &&& ((1#32 <<< eBit) - 1#32)) == 0#32
  else if w start &&& ~~~((1#32 <<< sBit) - 1#32) ≠ 0#32 then false
  else if !testWords w stop (stop - start) start then false
  else w stop &&& ((1#32 <<< eBit) - 1#32) == 0#32

/-- `memset` over whole words. -/
def memsetWords (w : Row 32) (start count : Nat) (v : BitVec 32) : Row 32 :=
  fun k => if start ≤ k ∧ k < start + count then v else w k

/-- The common body of `set_range` and `clear_range`. The shifted constants are 64 bits wide
and are narrowed to the 32-bit word only when stored. -/
def markRange (edit : BitVec 64 → BitVec 64 → BitVec 64) (fill : BitVec 32) (w : Row 32)
    (start stop : Nat) : Row 32 :=
  if start > stop then w else
  let startWord := start >>> 5
  let startBit := start &&& 0x1f
  let endWord := stop >>> 5
  let endBit := stop &&& 0x1f
  if startWord = endWord then
    let mask : BitVec 32 :=
      ((BitVec.allOnes 64 <<< startBit) &&& (BitVec.allOnes 64 >>> (31 - endBit))).setWidth 32
    Function.update w startWord ((edit ((w startWord).setWidth 64) (mask.setWidth 64)).setWidth 32)
  else
    let w := Function.update w startWord
      ((edit ((w startWord).setWidth 64) (BitVec.allOnes 64 <<< startBit)).setWidth 32)
    let w := if endWord > startWord + 1 then
      memsetWords w (startWord + 1) (endWord - startWord - 1) fill else w
    Function.update w endWord
      ((edit ((w endWord).setWidth 64) (BitVec.allOnes 64 >>> (31 - endBit))).setWidth 32)

def setRange : Row 32 → Nat → Nat → Row 32 := markRange (fun x m => x ||| m) 0xffffffff#32

def clearRange : Row 32 → Nat → Nat → Row 32 := markRange (fun x m => x &&& ~~~m) 0#32

private theorem testWords_iff (w : Row 32) (stop : Nat) (n ptr : Nat) (h : ptr + n = stop) :
    testWords w stop n ptr = true ↔ Clear w (32 * (ptr + 1)) (32 * stop) := by
  induction n generalizing ptr with
  | zero =>
    refine iff_of_true rfl (fun k hlo hhi => ?_)
    omega
  | succ n ih =>
    by_cases hend : ptr + 1 = stop
    · obtain rfl : n = 0 := by omega
      refine iff_of_true ?_ (fun k hlo hhi => by omega)
      simp [testWords, hend]
    · have hsplit := clear_append w (32 * (ptr + 1)) (32 * (ptr + 1) + 32) (32 * stop)
        (by omega) (by omega)
      have hnext := ih (ptr + 1) (by omega)
      rw [hsplit, ← word_eq_zero_iff, show 32 * (ptr + 1) + 32 = 32 * (ptr + 1 + 1) by omega,
        ← hnext, testWords]
      by_cases hz : w (ptr + 1) = 0#32
      · simp [hz]
      · simp [hz, hend]

/-- `test_range` decides exactly whether its half-open range of bits is clear. -/
theorem testRange_iff (w : Row 32) {start stop sBit eBit : Nat} (h : start ≤ stop)
    (hs : sBit < 32) (he : eBit < 32) :
    testRange w start stop sBit eBit = true ↔ Clear w (32 * start + sBit) (32 * stop + eBit) := by
  have hlow : ∀ i < 32, ((1#32 <<< eBit) - 1#32).getLsbD i = decide (0 ≤ i ∧ i < eBit) := by
    intro i hi
    simp [lowMask_getLsbD he hi]
  have hhigh : ∀ i < 32, (~~~((1#32 <<< sBit) - 1#32)).getLsbD i = decide (sBit ≤ i ∧ i < 32) := by
    intro i hi
    rw [BitVec.getLsbD_not, lowMask_getLsbD hs hi]
    simp [hi, ← decide_not]
  unfold testRange
  by_cases heq : start = stop
  · subst heq
    rw [if_pos rfl, beq_iff_eq, masked_eq_zero_iff w start _ _ _ he.le]
    intro i hi
    rw [BitVec.getLsbD_and, hhigh i hi, hlow i hi, ← Bool.decide_and]
    apply decide_eq_decide.mpr
    omega
  · have hlt : start < stop := lt_of_le_of_ne h heq
    rw [if_neg heq, ite_eq_iff, ite_eq_iff]
    have h1 := masked_eq_zero_iff w start _ _ _ le_rfl hhigh
    have h2 := testWords_iff w stop (stop - start) start (by omega)
    have h3 := masked_eq_zero_iff w stop _ _ _ he.le hlow
    rw [clear_append w _ (32 * start + 32) _ (by omega) (by omega),
      clear_append w (32 * start + 32) (32 * stop) _ (by omega) (by omega), ← h1]
    rw [show 32 * (start + 1) = 32 * start + 32 by omega] at h2
    rw [Nat.add_zero] at h3
    rw [← h2, ← h3]
    simp

/-- The end of the word that holds bit `k`. -/
def wordEnd (k : Nat) : Nat := 32 * (k / 32 + 1)

theorem lt_wordEnd (k : Nat) : k < wordEnd k := by
  unfold wordEnd
  omega

section Marking
variable {edit : BitVec 64 → BitVec 64 → BitVec 64} {fill : BitVec 32} {f : Bool → Bool → Bool}

private theorem narrow_edit
    (hedit : ∀ x m i, i < 64 → (edit x m).getLsbD i = f (x.getLsbD i) (m.getLsbD i))
    (v : BitVec 32) (m : BitVec 64) {i : Nat} (hi : i < 32) :
    ((edit (v.setWidth 64) m).setWidth 32).getLsbD i = f (v.getLsbD i) (m.getLsbD i) := by
  have h64 : i < 64 := by omega
  rw [BitVec.getLsbD_setWidth, hedit _ _ i h64, BitVec.getLsbD_setWidth]
  simp only [hi, h64, decide_true, Bool.true_and]

private theorem startMask (b : Nat) {i : Nat} (hi : i < 32) :
    (BitVec.allOnes 64 <<< b).getLsbD i = decide (b ≤ i) := by
  rw [BitVec.getLsbD_shiftLeft, BitVec.getLsbD_allOnes]
  by_cases h : i < b
  · simp [h]
  · have h64 : i < 64 := by omega
    have hsub : i - b < 64 := by omega
    simp only [h, h64, hsub, decide_true, decide_false, Bool.not_false, Bool.and_true]
    exact (decide_eq_true (by omega)).symm

/-- Shifting the 64-bit constant by at most 31 leaves every bit of the word covered. -/
private theorem endMask (b : Nat) {i : Nat} (hi : i < 32) :
    (BitVec.allOnes 64 >>> (31 - b)).getLsbD i = true := by
  rw [BitVec.getLsbD_ushiftRight, BitVec.getLsbD_allOnes, decide_eq_true_eq]
  omega

/-- The range updates reach from `start` to the end of the word that holds `stop`. -/
theorem markRange_bit
    (hedit : ∀ x m i, i < 64 → (edit x m).getLsbD i = f (x.getLsbD i) (m.getLsbD i))
    (hkeep : ∀ b, f b false = b) (hfill : ∀ b i, i < 32 → fill.getLsbD i = f b true)
    (w : Row 32) {start stop : Nat} (h : start ≤ stop) (k : Nat) :
    bit (markRange edit fill w start stop) k =
      f (bit w k) (decide (start ≤ k ∧ k < wordEnd stop)) := by
  have hk : k % 32 < 32 := Nat.mod_lt _ (by decide)
  have hin : ∀ {p : Prop} [Decidable p], p → f (bit w k) (decide p) = f (bit w k) true :=
    fun hp => by rw [decide_eq_true hp]
  have hout : ∀ {p : Prop} [Decidable p], ¬ p → f (bit w k) (decide p) = bit w k :=
    fun hp => by rw [decide_eq_false hp, hkeep]
  unfold markRange wordEnd
  simp only [not_lt.mpr h, if_false, shiftRight_five, and_thirtyOne]
  by_cases hsame : start / 32 = stop / 32
  · rw [if_pos hsame, bit_update]
    by_cases hw : k / 32 = start / 32
    · rw [if_pos hw, narrow_edit hedit _ _ hk, ← hw]
      have hmask : ((BitVec.setWidth 32 (BitVec.allOnes 64 <<< (start % 32) &&&
          BitVec.allOnes 64 >>> (31 - stop % 32))).setWidth 64).getLsbD (k % 32) =
            decide (start % 32 ≤ k % 32) := by
        have h64 : k % 32 < 64 := by omega
        simp only [BitVec.getLsbD_setWidth, BitVec.getLsbD_and, startMask _ hk, endMask _ hk, hk, h64]
        simp
      rw [hmask, ← bit]
      congr 1
      apply decide_eq_decide.mpr
      omega
    · rw [if_neg hw, hout (by omega)]
  · rw [if_neg hsame, bit_update]
    generalize hw₁ : Function.update w (start / 32) (BitVec.setWidth 32 (edit
      (BitVec.setWidth 64 (w (start / 32))) (BitVec.allOnes 64 <<< (start % 32)))) = w₁
    have hmiddle : ∀ a, ¬ (start / 32 < a ∧ a < stop / 32) → (if stop / 32 > start / 32 + 1 then
        memsetWords w₁ (start / 32 + 1) (stop / 32 - start / 32 - 1) fill else w₁) a = w₁ a := by
      intro a ha
      split
      · rw [memsetWords, if_neg (by omega)]
      · rfl
    by_cases hend : k / 32 = stop / 32
    · rw [if_pos hend, narrow_edit hedit _ _ hk, endMask _ hk, hin (by omega), hmiddle _ (by omega),
        ← hw₁, Function.update_of_ne (Ne.symm hsame), bit, hend]
    · rw [if_neg hend]
      by_cases hmid : start / 32 < k / 32 ∧ k / 32 < stop / 32
      · rw [if_pos (by omega), bit, memsetWords, if_pos (by omega), hin (by omega)]
        exact hfill _ _ hk
      · rw [bit, hmiddle _ hmid, ← bit, ← hw₁, bit_update]
        by_cases hw : k / 32 = start / 32
        · rw [if_pos hw, narrow_edit hedit _ _ hk, startMask _ hk, ← hw, ← bit]
          congr 1
          apply decide_eq_decide.mpr
          omega
        · rw [if_neg hw, hout (by omega)]

/-- An empty range marks nothing. -/
theorem markRange_of_lt (w : Row 32) {start stop : Nat} (h : stop < start) :
    markRange edit fill w start stop = w := if_pos h

end Marking

theorem bit_setRange (w : Row 32) {start stop : Nat} (h : start ≤ stop) (k : Nat) :
    bit (setRange w start stop) k = (bit w k || decide (start ≤ k ∧ k < wordEnd stop)) :=
  markRange_bit (f := fun b m => b || m) (by simp) (by simp)
    (by
      intro b i hi
      have hall : (0xffffffff#32 : BitVec 32) = BitVec.allOnes 32 := by decide
      rw [hall, BitVec.getLsbD_allOnes]
      simpa using hi) w h k

theorem bit_clearRange (w : Row 32) {start stop : Nat} (h : start ≤ stop) (k : Nat) :
    bit (clearRange w start stop) k = (bit w k && !decide (start ≤ k ∧ k < wordEnd stop)) :=
  markRange_bit (f := fun b m => b && !m) (by intro x m i hi; simp [hi]) (by simp) (by simp) w h k

end NyaOS.Frames
