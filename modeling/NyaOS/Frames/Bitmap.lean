import NyaOS.Library.FirstHit
import NyaOS.Library.WordBits

/-! The frame bitmap of `pfa.c`: one bit a 4 KiB frame, set when the frame is in use.
Words past the last one of the bitmap are the memory that follows it. -/
namespace NyaOS.Frames
open Library.WordBits Library.FirstHit

def pageSize : Nat := 0x1000

/-- `npages` and the words from `bitmap` on. `mem_high` returns a 32-bit value, so
`npages` stays below `2 ^ 20` and every index below fits the code's 32-bit types. -/
structure Pfa where
  npages : Nat
  bitmap : Row 32
  npages_lt : npages < 2 ^ 20

def bmSet (w : Row 32) (i : Nat) : Row 32 :=
  Function.update w (i >>> 5) (w (i >>> 5) ||| (1#32 <<< (i &&& 0b11111)))

def bmClear (w : Row 32) (i : Nat) : Row 32 :=
  Function.update w (i >>> 5) (w (i >>> 5) &&& ~~~(1#32 <<< (i &&& 0b11111)))

def bmTest (w : Row 32) (i : Nat) : BitVec 32 := w (i >>> 5) &&& (1#32 <<< (i &&& 0b11111))

/-- The loop bound `(npages + 31) >> 5`, computed in 32 bits. -/
def Pfa.wordCount (s : Pfa) : Nat := ((s.npages + 31) % 2 ^ 32) >>> 5

/-- The index `(i << 5) | j` of bit `j` of word `i`, computed in 32 bits. -/
def bitIndex (i j : Nat) : Nat := (i <<< 5) % 2 ^ 32 ||| j

/-- What `pfa_init` leaves: frame 0 and the padding bits past `npages` are in use. -/
structure Pfa.Prepared (s : Pfa) : Prop where
  zero : bit s.bitmap 0 = true
  padding : ∀ k, s.npages ≤ k → k < 32 * s.wordCount → bit s.bitmap k = true

/-- A machine of 64 frames of which only frame 0 is in use. -/
def smallPfa : Pfa := ⟨64, fun i => if i = 0 then 1#32 else 0#32, by decide⟩

theorem smallPfa_prepared : smallPfa.Prepared where
  zero := rfl
  padding k hlo hhi := absurd hlo (by
    have h64 : 32 * smallPfa.wordCount = 64 := by decide
    rw [h64] at hhi
    simpa [smallPfa] using hhi)

theorem shiftRight_five (i : Nat) : i >>> 5 = i / 32 := Nat.shiftRight_eq_div_pow i 5

theorem and_thirtyOne (i : Nat) : i &&& 0b11111 = i % 32 := Nat.and_two_pow_sub_one_eq_mod i 5

theorem Pfa.wordCount_eq (s : Pfa) : s.wordCount = (s.npages + 31) / 32 := by
  have := s.npages_lt
  rw [Pfa.wordCount, shiftRight_five, Nat.mod_eq_of_lt (by omega)]

theorem Pfa.npages_le (s : Pfa) : s.npages ≤ 32 * s.wordCount := by
  rw [s.wordCount_eq]
  omega

theorem Pfa.wordCount_lt (s : Pfa) : s.wordCount < 2 ^ 16 := by
  have := s.npages_lt
  rw [s.wordCount_eq]
  omega

theorem bitIndex_eq {i j : Nat} (hi : i < 2 ^ 16) (hj : j < 32) : bitIndex i j = 32 * i + j := by
  have hs : i <<< 5 = 32 * i := by rw [Nat.shiftLeft_eq]; omega
  rw [bitIndex, Nat.mod_eq_of_lt (by omega), ← Nat.shiftLeft_add_eq_or_of_lt hj, hs]

private theorem one_shiftLeft_getLsbD (i k : Nat) :
    (1#32 <<< (i % 32)).getLsbD (k % 32) = decide (k % 32 = i % 32) := by
  have hk : k % 32 < 32 := Nat.mod_lt _ (by decide)
  by_cases h : k % 32 = i % 32
  · simp [BitVec.getLsbD_shiftLeft, h]
    omega
  · simp [BitVec.getLsbD_shiftLeft, h]
    intro _ _
    omega

@[simp] theorem bit_bmSet (w : Row 32) (i k : Nat) :
    bit (bmSet w i) k = (decide (k = i) || bit w k) := by
  rw [bmSet, bit_update, shiftRight_five, and_thirtyOne]
  by_cases hw : k / 32 = i / 32
  · rw [if_pos hw, BitVec.getLsbD_or, one_shiftLeft_getLsbD, bit, hw, Bool.or_comm]
    congr 1
    apply decide_eq_decide.mpr
    constructor <;> intro <;> omega
  · rw [if_neg hw]
    have hne : k ≠ i := fun h => hw (by rw [h])
    simp [hne]

@[simp] theorem bit_bmClear (w : Row 32) (i k : Nat) :
    bit (bmClear w i) k = (!decide (k = i) && bit w k) := by
  rw [bmClear, bit_update, shiftRight_five, and_thirtyOne]
  by_cases hw : k / 32 = i / 32
  · have hk : k % 32 < 32 := Nat.mod_lt _ (by decide)
    rw [if_pos hw, BitVec.getLsbD_and, BitVec.getLsbD_not, one_shiftLeft_getLsbD, bit, hw,
      Bool.and_comm]
    have he : (k % 32 = i % 32) = (k = i) := by
      apply propext
      constructor <;> intro <;> omega
    simp [he, hk]
  · rw [if_neg hw]
    have hne : k ≠ i := fun h => hw (by rw [h])
    simp [hne]

theorem bit_foldl_bmSet (l : List Nat) (w : Row 32) (k : Nat) :
    bit (l.foldl bmSet w) k = (decide (k ∈ l) || bit w k) := by
  induction l generalizing w with
  | nil => simp
  | cons a l ih =>
    rw [List.foldl_cons, ih, bit_bmSet]
    by_cases ha : k = a
    · simp [ha]
    · simp [ha]

theorem bit_foldl_bmClear (l : List Nat) (w : Row 32) (k : Nat) :
    bit (l.foldl bmClear w) k = (!decide (k ∈ l) && bit w k) := by
  induction l generalizing w with
  | nil => simp
  | cons a l ih =>
    rw [List.foldl_cons, ih, bit_bmClear]
    by_cases ha : k = a
    · simp [ha]
    · simp [ha]

theorem bmTest_eq_zero_iff (w : Row 32) (i : Nat) : bmTest w i = 0#32 ↔ bit w i = false := by
  rw [bmTest, shiftRight_five, and_thirtyOne, and_eq_zero_iff]
  constructor
  · intro h
    have := h (i % 32) (Nat.mod_lt _ (by decide))
    rw [one_shiftLeft_getLsbD] at this
    exact this (by simp)
  · intro h j hj hm
    have hji : j = i % 32 := by
      have := one_shiftLeft_getLsbD i j
      rw [Nat.mod_eq_of_lt hj, hm] at this
      simpa using this.symm
    rw [hji]
    exact h

/-- A full word has no clear bit, so skipping it loses nothing. -/
theorem bit_of_full {w : Row 32} {k : Nat} (h : w (k / 32) = 0xffffffff#32) : bit w k = true := by
  have hk : k % 32 < 32 := Nat.mod_lt _ (by decide)
  have hall : (0xffffffff#32 : BitVec 32) = BitVec.allOnes 32 := by decide
  rw [bit, h, hall, BitVec.getLsbD_allOnes]
  simpa using hk

/-- `kalloc_frame_int`: take the first clear bit. The result is a physical address, with
0 for `NULL`. -/
def kallocFrameInt (s : Pfa) : Nat × Pfa :=
  match firstHit s.wordCount 32 (fun i => s.bitmap i == 0xffffffff#32)
      (fun i j => bmTest s.bitmap (bitIndex i j) == 0#32) with
  | none => (0, s)
  | some (i, j) =>
    (bitIndex i j * pageSize, { s with bitmap := bmSet s.bitmap (bitIndex i j) })

/-- `kfree_frame`; the index is narrowed to the 32 bits of `bm_clear`. -/
def kfreeFrame (s : Pfa) (a : Nat) : Pfa :=
  { s with bitmap := bmClear s.bitmap (a / pageSize % 2 ^ 32) }

private theorem hit_clear {s : Pfa} {k : Nat} (hk : k < 32 * s.wordCount) :
    Hit 32 (fun i => s.bitmap i == 0xffffffff#32)
      (fun i j => bmTest s.bitmap (bitIndex i j) == 0#32) k ↔ bit s.bitmap k = false := by
  have hw := s.wordCount_lt
  have hidx : bitIndex (k / 32) (k % 32) = k := by
    rw [bitIndex_eq (by omega) (Nat.mod_lt _ (by decide)), Nat.div_add_mod]
  simp only [Hit, beq_eq_false_iff_ne, beq_iff_eq, hidx, bmTest_eq_zero_iff]
  constructor
  · exact And.right
  · intro h
    refine ⟨fun hfull => ?_, h⟩
    rw [bit_of_full hfull] at h
    cases h

/-- What one call can do: take the first clear bit, or find every bit of the bitmap set. -/
theorem kallocFrameInt_cases (s : Pfa) :
    (∃ k, k < 32 * s.wordCount ∧ bit s.bitmap k = false ∧ (∀ k' < k, bit s.bitmap k' = true) ∧
      kallocFrameInt s = (k * pageSize, { s with bitmap := bmSet s.bitmap k })) ∨
    ((∀ k < 32 * s.wordCount, bit s.bitmap k = true) ∧ kallocFrameInt s = (0, s)) := by
  have hw := s.wordCount_lt
  unfold kallocFrameInt
  split
  · rename_i h
    right
    refine ⟨fun k hk => ?_, rfl⟩
    have hn := firstHit_none (by decide) h k hk
    rw [hit_clear hk] at hn
    simpa using hn
  · rename_i i j h
    obtain ⟨hi, hj, hhit, hfirst⟩ := firstHit_some h
    have hk : 32 * i + j < 32 * s.wordCount := by omega
    left
    rw [bitIndex_eq (by omega) hj]
    refine ⟨32 * i + j, hk, (hit_clear hk).mp hhit, fun k' hk' => ?_, rfl⟩
    have hn := hfirst k' hk'
    rw [hit_clear (by omega)] at hn
    simpa using hn

end NyaOS.Frames
