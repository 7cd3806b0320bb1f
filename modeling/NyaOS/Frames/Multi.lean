import NyaOS.Frames.Ranges

/-! Multi-frame allocation and free: exactly when a granted run is really free, and
exactly which bits the two calls change. -/
namespace NyaOS.Frames
open Library.WordBits Library.FirstHit

/-- `end_bit = (frames - (32 - j)) % 32`, subtracted in `size_t`. -/
def endBit (frames j : Nat) : Nat := (frames + 2 ^ 64 - (32 - j)) % 2 ^ 64 % 32

/-- `kalloc_frames`; the address 0 is `NULL`. -/
def kallocFrames (s : Pfa) (frames : Nat) : Nat × Pfa :=
  match firstHit s.wordCount 32 (fun i => s.bitmap i == 0xffffffff#32)
      (fun i j => testRange s.bitmap i (i + (frames >>> 5)) j (endBit frames j)) with
  | none => (0, s)
  | some (i, j) =>
    (bitIndex i j * pageSize,
      { s with bitmap := setRange s.bitmap (bitIndex i j) ((bitIndex i j + frames) % 2 ^ 64) })

/-- `kfree_frames`; the frame index passes through an `int`. -/
def kfreeFrames (s : Pfa) (a frames : Nat) : Pfa :=
  let idx := ((BitVec.ofNat 32 (a / pageSize)).signExtend 64).toNat
  { s with bitmap := clearRange s.bitmap idx ((idx + frames) % 2 ^ 64) }

theorem endBit_eq (frames : Nat) {j : Nat} (hj : j < 32) : endBit frames j = (frames + j) % 32 := by
  rw [endBit, Nat.mod_mod_of_dvd _ (by decide : 32 ∣ 2 ^ 64)]
  omega

/-- Where the test for a run of `n` frames at `k` really ends. The end word is computed
from `n` alone, so a run that spills over one more word is tested 32 bits short. -/
def testedEnd (n k : Nat) : Nat := if 32 ≤ n % 32 + k % 32 then k + n - 32 else k + n

/-- The search stops at `k`. -/
structure Accepted (s : Pfa) (n k : Nat) : Prop where
  inside : k < 32 * s.wordCount
  notFull : s.bitmap (k / 32) ≠ 0xffffffff#32
  tested : Clear s.bitmap k (testedEnd n k)

/-- A run of `n` frames from `k` on that may be handed out. -/
structure FreeRun (s : Pfa) (n k : Nat) : Prop where
  inside : k + n ≤ s.npages
  clear : Clear s.bitmap k (k + n)

private theorem hit_iff_accepted (s : Pfa) (n : Nat) {k : Nat} (hk : k < 32 * s.wordCount) :
    Hit 32 (fun i => s.bitmap i == 0xffffffff#32)
      (fun i j => testRange s.bitmap i (i + (n >>> 5)) j (endBit n j)) k ↔ Accepted s n k := by
  have hj : k % 32 < 32 := Nat.mod_lt _ (by decide)
  have hend : 32 * (k / 32 + n / 32) + (n + k % 32) % 32 = testedEnd n k := by
    unfold testedEnd
    split <;> omega
  have hstart : 32 * (k / 32) + k % 32 = k := Nat.div_add_mod k 32
  simp only [Hit, beq_eq_false_iff_ne, shiftRight_five, endBit_eq n hj]
  rw [testRange_iff s.bitmap (Nat.le_add_right _ _) hj (Nat.mod_lt _ (by decide)), hend, hstart]
  exact ⟨fun h => ⟨hk, h.1, h.2⟩, fun h => ⟨h.notFull, h.tested⟩⟩

/-- What one call can do: take the first accepted position, or accept none. -/
theorem kallocFrames_cases (s : Pfa) (n : Nat) :
    (∃ k, Accepted s n k ∧ (∀ k' < k, ¬ Accepted s n k') ∧ kallocFrames s n =
      (k * pageSize, { s with bitmap := setRange s.bitmap k ((k + n) % 2 ^ 64) })) ∨
    ((∀ k, ¬ Accepted s n k) ∧ kallocFrames s n = (0, s)) := by
  have hw := s.wordCount_lt
  unfold kallocFrames
  split
  · rename_i h
    refine .inr ⟨fun k hk => ?_, rfl⟩
    exact firstHit_none (by decide) h k hk.inside ((hit_iff_accepted s n hk.inside).mpr hk)
  · rename_i i j h
    obtain ⟨hi, hj, hhit, hfirst⟩ := firstHit_some h
    have hk : 32 * i + j < 32 * s.wordCount := by omega
    rw [bitIndex_eq (by omega) hj]
    refine .inl ⟨32 * i + j, (hit_iff_accepted s n hk).mp hhit, fun k' hk' ha => ?_, rfl⟩
    exact hfirst k' hk' ((hit_iff_accepted s n (by omega)).mpr ha)

/-- A run of `n` clear bits within the words of the bitmap, the padding included. -/
structure ClearRun (s : Pfa) (n k : Nat) : Prop where
  inside : k + n ≤ 32 * ((s.npages + 31) / 32)
  clear : Clear s.bitmap k (k + n)

/-- The range tested for a run is never longer than the run, so a clear one is accepted. -/
theorem ClearRun.accepted {s : Pfa} {n k : Nat} (hn : 1 ≤ n) (h : ClearRun s n k) :
    Accepted s n k where
  inside := by
    have h1 := s.wordCount_eq
    have h2 := h.inside
    omega
  notFull hfull := by
    have := h.clear k le_rfl (by omega)
    rw [bit_of_full hfull] at this
    cases this
  tested := h.clear.mono le_rfl (by unfold testedEnd; split <;> omega)

theorem FreeRun.accepted {s : Pfa} {n k : Nat} (hn : 1 ≤ n) (h : FreeRun s n k) :
    Accepted s n k :=
  ClearRun.accepted hn ⟨by have := h.inside; omega, h.clear⟩

/-- Frame 0 is never accepted, so the address 0 always means failure. -/
theorem Accepted.pos {s : Pfa} {n k : Nat} (hzero : bit s.bitmap 0 = true) (hn : 1 ≤ n)
    (h : Accepted s n k) : 0 < k := by
  rcases Nat.eq_zero_or_pos k with rfl | hpos
  · have := h.tested 0 le_rfl (by unfold testedEnd; split <;> omega)
    rw [hzero] at this
    cases this
  · exact hpos

/-- Every run of clear bits is found: whatever lies behind the bitmap, `NULL` means that there
is none of the length asked for. -/
theorem kallocFrames_finds_run (s : Pfa) (hzero : bit s.bitmap 0 = true) (n : Nat) (hn : 1 ≤ n)
    (hrun : ∃ k, ClearRun s n k) : (kallocFrames s n).1 ≠ 0 := by
  obtain ⟨k, hrun⟩ := hrun
  rcases kallocFrames_cases s n with ⟨k', ha, -, he⟩ | ⟨hnone, -⟩
  · have hpos := ha.pos hzero hn
    rw [he]
    simp [pageSize]
    omega
  · exact (hnone k (hrun.accepted hn)).elim

/-- The last 32 of 64 frames, the first 32 in use. -/
def upperHalf : Pfa := ⟨64, fun i => if i = 0 then 0xffffffff#32 else 0#32, smallPfa.npages_lt⟩

theorem upperHalf_found : ClearRun upperHalf 32 32 ∧ (kallocFrames upperHalf 32).1 ≠ 0 := by
  have hrun : ClearRun upperHalf 32 32 := by
    refine ⟨by decide, fun k hlo hhi => ?_⟩
    have hk : k / 32 = 1 := by omega
    simp [bit, upperHalf, hk]
  exact ⟨hrun, kallocFrames_finds_run upperHalf rfl 32 (by decide) ⟨32, hrun⟩⟩

/-- What `kalloc_frames` promises: a granted run is below `npages` and was clear. -/
def GrantsFree (s : Pfa) (n : Nat) : Prop :=
  (kallocFrames s n).1 ≠ 0 → FreeRun s n ((kallocFrames s n).1 / pageSize)

/-- A start the search takes although no run of `n` frames is free there: in a word that is
not full, either the test looks only at the first `n - 32` bits, or the run leaves the bitmap
and the memory behind it happens to be clear. -/
structure Misjudged (s : Pfa) (n k : Nat) : Prop where
  inside : k < 32 * s.wordCount
  notFull : s.bitmap (k / 32) ≠ 0xffffffff#32
  notFree : ¬ FreeRun s n k
  taken : (32 ≤ n % 32 + k % 32 ∧ Clear s.bitmap k (k + n - 32)) ∨
    (n % 32 + k % 32 < 32 ∧ 32 * s.wordCount < k + n ∧ Clear s.bitmap k (k + n))

theorem misjudged_iff {s : Pfa} {n k : Nat} (hprep : s.Prepared) (hn : 1 ≤ n) :
    Misjudged s n k ↔ Accepted s n k ∧ ¬ FreeRun s n k := by
  constructor
  · intro h
    refine ⟨⟨h.inside, h.notFull, ?_⟩, h.notFree⟩
    unfold testedEnd
    rcases h.taken with ⟨hcut, hc⟩ | ⟨hcut, -, hc⟩
    · rwa [if_pos hcut]
    · rwa [if_neg (by omega)]
  · rintro ⟨ha, hnot⟩
    refine ⟨ha.inside, ha.notFull, hnot, ?_⟩
    have ht := ha.tested
    unfold testedEnd at ht
    split at ht
    · rename_i hcut
      exact .inl ⟨hcut, ht⟩
    · rename_i hcut
      refine .inr ⟨by omega, ?_, ht⟩
      -- inside the bitmap a clear run cannot reach the padding bits
      by_contra hle
      refine hnot ⟨?_, ht⟩
      by_contra hpast
      have hset := hprep.padding (k + n - 1) (by omega) (by omega)
      rw [ht (k + n - 1) (by omega) (by omega)] at hset
      cases hset

/-- `kalloc_frames` hands out only free memory exactly when every misjudged start comes
after the start of a really free run. -/
theorem kallocFrames_free_iff (s : Pfa) (hprep : s.Prepared) (n : Nat) (hn : 1 ≤ n) :
    GrantsFree s n ↔ ∀ k, Misjudged s n k → ∃ k' < k, FreeRun s n k' := by
  have hdiv : ∀ k, k * pageSize / pageSize = k := fun k => Nat.mul_div_cancel _ (by decide)
  rcases kallocFrames_cases s n with ⟨k, ha, hfirst, he⟩ | ⟨hnone, he⟩
  · have hpos := ha.pos hprep.zero hn
    have hne : k * pageSize ≠ 0 := by simp [pageSize]; omega
    rw [GrantsFree, he, hdiv]
    constructor
    · intro h k₁ hm
      have hrun := h hne
      obtain ⟨ha₁, hnot₁⟩ := (misjudged_iff hprep hn).mp hm
      refine ⟨k, ?_, hrun⟩
      rcases lt_trichotomy k k₁ with hlt | rfl | hgt
      · exact hlt
      · exact (hnot₁ hrun).elim
      · exact (hfirst k₁ hgt ha₁).elim
    · intro h _
      by_contra hnot
      obtain ⟨k', hlt, hrun⟩ := h k ((misjudged_iff hprep hn).mpr ⟨ha, hnot⟩)
      exact hfirst k' hlt (hrun.accepted hn)
  · rw [GrantsFree, he]
    refine iff_of_true (fun h => (h rfl).elim) (fun k hm => ?_)
    exact (hnone k ((misjudged_iff hprep hn).mp hm).1).elim

/-- One word of 32 frames in which every other frame is in use. -/
def stripes : Pfa := ⟨32, fun _ => 0x55555555#32, by decide⟩

theorem stripes_prepared : stripes.Prepared where
  zero := rfl
  padding k hlo hhi := absurd hlo (by
    have h32 : 32 * stripes.wordCount = 32 := by decide
    rw [h32] at hhi
    simpa [stripes] using hhi)

theorem kallocFrames_free_iff_stripes : GrantsFree stripes 1 ∧ ∃ k, FreeRun stripes 1 k := by
  have hrun : FreeRun stripes 1 1 := by
    refine ⟨by decide, fun k hlo hhi => ?_⟩
    obtain rfl : k = 1 := by omega
    rfl
  refine ⟨(kallocFrames_free_iff stripes stripes_prepared 1 le_rfl).mpr fun k hm => ?_, 1, hrun⟩
  obtain ⟨ha, hnot⟩ := (misjudged_iff stripes_prepared le_rfl).mp hm
  refine ⟨1, ?_, hrun⟩
  have hpos := ha.pos stripes_prepared.zero le_rfl
  rcases Nat.lt_or_ge 1 k with h | h
  · exact h
  · obtain rfl : k = 1 := by omega
    exact (hnot hrun).elim

/-- Two frames asked of the striped word are granted at frame 30, which is in use. -/
theorem kallocFrames_grants_used : stripes.Prepared ∧ (kallocFrames stripes 2).1 = 30 * pageSize ∧
    bit stripes.bitmap 30 = true ∧ ¬ GrantsFree stripes 2 := by
  have he : (kallocFrames stripes 2).1 = 30 * pageSize := by decide +kernel
  refine ⟨stripes_prepared, he, rfl, fun h => ?_⟩
  rw [GrantsFree, he] at h
  have := (h (by decide)).clear 30 (by decide) (by decide)
  cases this

/-- The call sets the bits of its `n` frames from `k` on and no other bit. -/
def SetsExactly (w w' : Row 32) (k n : Nat) : Prop :=
  ∀ i, bit w' i = (bit w i || decide (k ≤ i ∧ i < k + n))

/-- The call clears the bits of its `n` frames from `k` on and no other bit. -/
def ClearsExactly (w w' : Row 32) (k n : Nat) : Prop :=
  ∀ i, bit w' i = (bit w i && !decide (k ≤ i ∧ i < k + n))

private theorem signExtend_index {k : Nat} (hk : k < 2 ^ 31) :
    ((BitVec.ofNat 32 k).signExtend 64).toNat = k := by
  have hmsb : (BitVec.ofNat 32 k).msb = false := by
    rw [BitVec.msb_eq_false_iff_two_mul_lt, BitVec.toNat_ofNat]
    omega
  rw [BitVec.signExtend_eq_setWidth_of_msb_false hmsb, BitVec.toNat_setWidth, BitVec.toNat_ofNat]
  omega

private theorem kfreeFrames_bitmap (s : Pfa) {k : Nat} (n : Nat) (hk : k < 2 ^ 31) :
    (kfreeFrames s (k * pageSize) n).bitmap = clearRange s.bitmap k ((k + n) % 2 ^ 64) := by
  simp only [kfreeFrames, Nat.mul_div_cancel _ (by decide : 0 < pageSize), signExtend_index hk]

theorem bit_kfreeFrames (s : Pfa) {k n : Nat} (hk : k < 2 ^ 31) (h : k + n < 2 ^ 64) (i : Nat) :
    bit (kfreeFrames s (k * pageSize) n).bitmap i =
      (bit s.bitmap i && !decide (k ≤ i ∧ i < wordEnd (k + n))) := by
  rw [kfreeFrames_bitmap s n hk, Nat.mod_eq_of_lt h]
  exact bit_clearRange _ (Nat.le_add_right _ _) i

/-- Marking past the run is invisible exactly when the rest of the last word was marked. -/
private theorem setsExactly_iff {w w' : Row 32} {k n : Nat}
    (h : ∀ i, bit w' i = (bit w i || decide (k ≤ i ∧ i < wordEnd (k + n)))) :
    SetsExactly w w' k n ↔ Full w (k + n) (wordEnd (k + n)) := by
  have hlt := lt_wordEnd (k + n)
  constructor
  · intro he i hlo hhi
    have hi := (h i).symm.trans (he i)
    have hin : k ≤ i ∧ i < wordEnd (k + n) := ⟨by omega, hhi⟩
    have hout : ¬ (k ≤ i ∧ i < k + n) := by omega
    rw [decide_eq_true hin, decide_eq_false hout] at hi
    simpa using hi.symm
  · intro hfull i
    rw [h i]
    by_cases hin : k + n ≤ i ∧ i < wordEnd (k + n)
    · simp [hfull i hin.1 hin.2]
    · congr 1
      apply decide_eq_decide.mpr
      omega

private theorem clearsExactly_iff {w w' : Row 32} {k n : Nat}
    (h : ∀ i, bit w' i = (bit w i && !decide (k ≤ i ∧ i < wordEnd (k + n)))) :
    ClearsExactly w w' k n ↔ Clear w (k + n) (wordEnd (k + n)) := by
  have hlt := lt_wordEnd (k + n)
  constructor
  · intro he i hlo hhi
    have hi := (h i).symm.trans (he i)
    have hin : k ≤ i ∧ i < wordEnd (k + n) := ⟨by omega, hhi⟩
    have hout : ¬ (k ≤ i ∧ i < k + n) := by omega
    rw [decide_eq_true hin, decide_eq_false hout] at hi
    simpa using hi.symm
  · intro hclear i
    rw [h i]
    by_cases hin : k + n ≤ i ∧ i < wordEnd (k + n)
    · simp [hclear i hin.1 hin.2]
    · congr 2
      apply decide_eq_decide.mpr
      omega

/-- What a successful call did at the position `k` it returned. Without wrap-around the marks
reach the end of the word that holds bit `k + n`; with it nothing is marked. -/
private structure MarksAt (s s' : Pfa) (n k : Nat) : Prop where
  lt : k < 2 ^ 31
  count_lt : n < 2 ^ 64
  accepted : Accepted s n k
  marks : k + n < 2 ^ 64 →
    ∀ i, bit s'.bitmap i = (bit s.bitmap i || decide (k ≤ i ∧ i < wordEnd (k + n)))
  wraps : 2 ^ 64 ≤ k + n → s'.bitmap = s.bitmap

private theorem kallocFrames_marks (s : Pfa) {n a : Nat} {s' : Pfa} (hn : n < 2 ^ 64)
    (h : kallocFrames s n = (a, s')) (ha : a ≠ 0) : ∃ k, a = k * pageSize ∧ MarksAt s s' n k := by
  rcases kallocFrames_cases s n with ⟨k, hacc, -, he⟩ | ⟨-, he⟩
  · rw [h] at he
    cases he
    have hw := s.wordCount_lt
    have hk := hacc.inside
    refine ⟨k, rfl, by omega, hn, hacc, fun hlt => ?_, fun hge => ?_⟩
    · simp only [Nat.mod_eq_of_lt hlt]
      exact bit_setRange _ (Nat.le_add_right _ _)
    · exact markRange_of_lt _ (by omega)
  · rw [h] at he
    cases he
    exact (ha rfl).elim

section Marked
variable {s s' : Pfa} {n k : Nat}

private theorem MarksAt.sets_iff (h : MarksAt s s' n k) (hn : 1 ≤ n) :
    SetsExactly s.bitmap s'.bitmap k n ↔
      k + n < 2 ^ 64 ∧ Full s.bitmap (k + n) (wordEnd (k + n)) := by
  have hk := h.lt
  rcases Nat.lt_or_ge (k + n) (2 ^ 64) with hno | hwrap
  · rw [setsExactly_iff (h.marks hno)]
    exact ⟨fun hf => ⟨hno, hf⟩, And.right⟩
  · refine iff_of_false (fun he => ?_) (fun hc => by omega)
    -- nothing was marked, yet the first tested bit was clear
    have hclear := h.accepted.tested k le_rfl (by unfold testedEnd; split <;> omega)
    have hset := he k
    rw [h.wraps hwrap, hclear] at hset
    simp at hset
    omega

private theorem MarksAt.bit_freed (h : MarksAt s s' n k) (hno : k + n < 2 ^ 64) (i : Nat) :
    bit (kfreeFrames s' (k * pageSize) n).bitmap i =
      (bit s.bitmap i && !decide (k ≤ i ∧ i < wordEnd (k + n))) := by
  rw [bit_kfreeFrames s' h.lt hno, h.marks hno i]
  cases bit s.bitmap i <;> simp

private theorem MarksAt.restores_iff (h : MarksAt s s' n k) :
    (kfreeFrames s' (k * pageSize) n).bitmap = s.bitmap ↔
      (k + n < 2 ^ 64 → Clear s.bitmap k (wordEnd (k + n))) := by
  have hk := h.lt
  have hn := h.count_lt
  rcases Nat.lt_or_ge (k + n) (2 ^ 64) with hno | hwrap
  · constructor
    · intro he _ i hlo hhi
      have hi := h.bit_freed hno i
      rw [he] at hi
      simpa [hlo, hhi] using hi
    · intro hc
      apply row_ext
      intro i
      rw [h.bit_freed hno i]
      by_cases hin : k ≤ i ∧ i < wordEnd (k + n)
      · simp [hc hno i hin.1 hin.2]
      · simp [hin]
  · refine iff_of_true ?_ (fun hc => by omega)
    rw [kfreeFrames_bitmap s' n h.lt, h.wraps hwrap]
    exact markRange_of_lt _ (by omega)

end Marked

/-- Exactly what the multi-frame calls touch. A successful allocation changes only its own
frames exactly when the rest of the word holding bit `k + n` was already set, and freeing it
again restores the bitmap exactly when everything up to there was clear, so the two never hold
together; a free changes only its own frames exactly when the rest of that word was clear. -/
theorem multi_frame_effect (s : Pfa) :
    (∀ n a s', 1 ≤ n → n < 2 ^ 64 → kallocFrames s n = (a, s') → a ≠ 0 →
      (SetsExactly s.bitmap s'.bitmap (a / pageSize) n ↔ a / pageSize + n < 2 ^ 64 ∧
        Full s.bitmap (a / pageSize + n) (wordEnd (a / pageSize + n))) ∧
      ((kfreeFrames s' a n).bitmap = s.bitmap ↔ (a / pageSize + n < 2 ^ 64 →
        Clear s.bitmap (a / pageSize) (wordEnd (a / pageSize + n)))) ∧
      ¬ (SetsExactly s.bitmap s'.bitmap (a / pageSize) n ∧ (kfreeFrames s' a n).bitmap = s.bitmap)) ∧
    ∀ a n, a % pageSize = 0 → 1 ≤ n → a / pageSize + n ≤ s.npages →
      (ClearsExactly s.bitmap (kfreeFrames s a n).bitmap (a / pageSize) n ↔
        Clear s.bitmap (a / pageSize + n) (wordEnd (a / pageSize + n))) := by
  constructor
  · intro n a s' h1 hn h ha
    obtain ⟨k, rfl, hmarks⟩ := kallocFrames_marks s hn h ha
    rw [Nat.mul_div_cancel _ (by decide : 0 < pageSize)]
    have hsets := hmarks.sets_iff h1
    have hrest := hmarks.restores_iff
    refine ⟨hsets, hrest, fun ⟨he, hr⟩ => ?_⟩
    -- bit `k + n` would have to be both set and clear
    obtain ⟨hno, hfull⟩ := hsets.mp he
    have hlt := lt_wordEnd (k + n)
    have hset := hfull (k + n) le_rfl hlt
    rw [hrest.mp hr hno (k + n) (by omega) hlt] at hset
    cases hset
  · intro a n hal h1 hin
    obtain ⟨k, rfl⟩ := Nat.dvd_of_mod_eq_zero hal
    rw [Nat.mul_comm, Nat.mul_div_cancel _ (by decide : 0 < pageSize)] at hin ⊢
    have hp := s.npages_lt
    exact clearsExactly_iff (bit_kfreeFrames s (by omega) (by omega))

/-- One frame asked of the small machine is frame 1, but its whole word gets marked. -/
theorem multi_frame_effect_smallPfa :
    ¬ SetsExactly smallPfa.bitmap (kallocFrames smallPfa 1).2.bitmap 1 1 := by
  have ha : (kallocFrames smallPfa 1).1 = 1 * pageSize := by decide +kernel
  have h := ((multi_frame_effect smallPfa).1 1 (kallocFrames smallPfa 1).1 (kallocFrames smallPfa 1).2
    le_rfl (by decide) rfl (by rw [ha]; decide)).1
  rw [ha, Nat.mul_div_cancel _ (by decide)] at h
  intro he
  have := (h.mp he).2 2 le_rfl (lt_wordEnd _)
  cases this

/-- Asked for one frame, the small machine grants frame 1 and marks frame 2 with it; a free of
frame 1 in a full word takes frame 2 from its owner. -/
theorem multi_frame_effect_fails :
    (∃ a s', kallocFrames smallPfa 1 = (a, s') ∧ a ≠ 0 ∧
      ¬ SetsExactly smallPfa.bitmap s'.bitmap (a / pageSize) 1) ∧
    ∃ s : Pfa, 1 + 1 ≤ s.npages ∧ bit s.bitmap 2 = true ∧
      ¬ ClearsExactly s.bitmap (kfreeFrames s pageSize 1).bitmap 1 1 := by
  refine ⟨⟨_, _, rfl, by decide +kernel, fun h => absurd (h 2) (by decide +kernel)⟩,
    ⟨64, fun _ => 0xffffffff#32, by decide⟩, by decide, rfl, fun h => absurd (h 2) (by decide +kernel)⟩

end NyaOS.Frames
