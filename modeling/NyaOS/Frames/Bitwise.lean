import NyaOS.Frames.Ranges

/-! The range operations of `pfa.c` against what they stand for: `set_range` and `clear_range`
against `bm_set` and `bm_clear` bit by bit, and the words that `test_range` reads. -/
namespace NyaOS.Frames
open Library.WordBits

/-- `op(i)` for every `i` from `start` to `stop`, both included. The index is narrowed to the 32
bits of `bm_set` and `bm_clear`. -/
def eachBit (op : Row 32 → Nat → Row 32) (w : Row 32) (start stop : Nat) : Row 32 :=
  ((List.range' start (stop + 1 - start)).map (· % 2 ^ 32)).foldl op w

private theorem mem_indices {start stop : Nat} (hstop : stop < 2 ^ 32) (k : Nat) :
    k ∈ (List.range' start (stop + 1 - start)).map (· % 2 ^ 32) ↔ start ≤ k ∧ k ≤ stop := by
  rw [List.mem_map]
  constructor
  · rintro ⟨i, hi, rfl⟩
    rw [List.mem_range'_1] at hi
    rw [Nat.mod_eq_of_lt (by omega)]
    omega
  · intro hk
    exact ⟨k, List.mem_range'_1.mpr (by omega), Nat.mod_eq_of_lt (by omega)⟩

section Marks
variable {start stop : Nat}

/-- Rows that both have `v` in a range and are `w` elsewhere, one of them to the end of the word that
holds `stop`. -/
private theorem row_eq_iff {u u' w : Row 32} {v : Bool} (h : start ≤ stop)
    (hu : ∀ k, bit u k = if start ≤ k ∧ k < wordEnd stop then v else bit w k)
    (hu' : ∀ k, bit u' k = if start ≤ k ∧ k ≤ stop then v else bit w k) :
    u = u' ↔ ∀ k, stop + 1 ≤ k → k < wordEnd stop → bit w k = v := by
  have hend := lt_wordEnd stop
  constructor
  · intro he k hlo hhi
    have hk := hu k
    rw [he, hu' k, if_neg (by omega), if_pos (by omega)] at hk
    exact hk
  · intro hrest
    apply row_ext
    intro k
    rw [hu k, hu' k]
    by_cases hk : stop + 1 ≤ k ∧ k < wordEnd stop
    · rw [if_pos (by omega), if_neg (by omega), hrest k hk.1 hk.2]
    · have hiff : start ≤ k ∧ k < wordEnd stop ↔ start ≤ k ∧ k ≤ stop := by omega
      simp only [hiff]

variable (w : Row 32) (h : start ≤ stop) (hstop : stop < 2 ^ 32)
include h hstop

/-- `set_range` goes on to the end of the last word. The loop does the same only if the bits there
are set anyway. -/
theorem setRange_eq_iff :
    setRange w start stop = eachBit bmSet w start stop ↔ Full w (stop + 1) (wordEnd stop) := by
  apply row_eq_iff h
  · intro k
    rw [bit_setRange w h, Bool.or_comm, Bool.if_true_left]
  · intro k
    rw [eachBit, bit_foldl_bmSet, Bool.if_true_left]
    simp only [mem_indices hstop]

theorem clearRange_eq_iff :
    clearRange w start stop = eachBit bmClear w start stop ↔ Clear w (stop + 1) (wordEnd stop) := by
  apply row_eq_iff h
  · intro k
    rw [bit_clearRange w h, Bool.and_comm, Bool.if_false_left]
  · intro k
    rw [eachBit, bit_foldl_bmClear, Bool.if_false_left]
    simp only [mem_indices hstop]

end Marks

/-- No bit follows `stop` in its word exactly if `stop` is the last one. -/
private theorem wordEnd_eq_iff (stop : Nat) : wordEnd stop = stop + 1 ↔ stop % 32 = 31 := by
  unfold wordEnd
  omega

/-- `set_range` is the loop over `bm_set` exactly when the bits behind `stop` in its word are set
already, `clear_range` the loop over `bm_clear` when they are clear already; so both are only
when `stop` is the last bit of a word. -/
theorem range_marks_iff (s : Pfa) {start stop : Nat} (h : start ≤ stop)
    (hin : stop < 32 * s.wordCount) :
    (setRange s.bitmap start stop = eachBit bmSet s.bitmap start stop ↔
      Full s.bitmap (stop + 1) (wordEnd stop)) ∧
    (clearRange s.bitmap start stop = eachBit bmClear s.bitmap start stop ↔
      Clear s.bitmap (stop + 1) (wordEnd stop)) ∧
    ((setRange s.bitmap start stop = eachBit bmSet s.bitmap start stop ∧
      clearRange s.bitmap start stop = eachBit bmClear s.bitmap start stop) ↔ stop % 32 = 31) := by
  have hw := s.wordCount_lt
  have hset := setRange_eq_iff s.bitmap h (by omega)
  have hclear := clearRange_eq_iff s.bitmap h (by omega)
  refine ⟨hset, hclear, ?_⟩
  rw [hset, hclear, ← wordEnd_eq_iff]
  have hend := lt_wordEnd stop
  constructor
  · rintro ⟨hfull, hempty⟩
    by_contra hne
    have hone := hfull (stop + 1) le_rfl (by omega)
    rw [hempty (stop + 1) le_rfl (by omega)] at hone
    cases hone
  · intro he
    exact ⟨fun k hlo hhi => by omega, fun k hlo hhi => by omega⟩

/-- The whole first word of the small machine. -/
theorem smallPfa_first_word :
    setRange smallPfa.bitmap 0 31 = eachBit bmSet smallPfa.bitmap 0 31 ∧
      clearRange smallPfa.bitmap 0 31 = eachBit bmClear smallPfa.bitmap 0 31 :=
  (range_marks_iff smallPfa (by decide) (by decide)).2.2.mpr rfl

/-- Marking frame 1 of the small machine marks frames 2 to 31 as well. -/
theorem smallPfa_marked_beyond :
    setRange smallPfa.bitmap 1 1 ≠ eachBit bmSet smallPfa.bitmap 1 1 ∧
      bit smallPfa.bitmap 2 = false ∧ bit (setRange smallPfa.bitmap 1 1) 2 = true := by
  refine ⟨fun h => ?_, by decide, by decide⟩
  have hword := congrFun h 0
  exact absurd hword (by decide)

/-! `test_range` with the words it reads, latest first. -/

def readWord (w : Row 32) (a : Nat) : StateM (List Nat) (BitVec 32) := fun reads => (w a, a :: reads)

def testWordsRead (w : Row 32) (stop : Nat) : Nat → Nat → StateM (List Nat) Bool
  | 0, _ => pure true
  | n + 1, ptr => do
    if (← readWord w (ptr + 1)) ≠ 0#32 ∧ ptr + 1 ≠ stop then pure false
    else testWordsRead w stop n (ptr + 1)

def testRangeRead (w : Row 32) (start stop sBit eBit : Nat) : StateM (List Nat) Bool := do
  if start = stop then
    return (← readWord w start) &&& (~~~((1#32 <<< sBit) - 1#32) &&& ((1#32 <<< eBit) - 1#32)) == 0#32
  if (← readWord w start) &&& ~~~((1#32 <<< sBit) - 1#32) ≠ 0#32 then return false
  if !(← testWordsRead w stop (stop - start) start) then return false
  return (← readWord w stop) &&& ((1#32 <<< eBit) - 1#32) == 0#32

/-- `x` returns `r`, and every word it reads is one from `start` to `stop`. -/
def Reading {α : Type} (start stop : Nat) (x : StateM (List Nat) α) (r : α) : Prop :=
  ∀ reads, ∃ new, x reads = (r, new ++ reads) ∧ ∀ a ∈ new, start ≤ a ∧ a ≤ stop

section Reads
variable {α β : Type} {start stop : Nat}

theorem reading_pure (r : α) : Reading start stop (pure r : StateM (List Nat) α) r :=
  fun _ => ⟨[], rfl, List.forall_mem_nil _⟩

theorem Reading.bind {x : StateM (List Nat) α} {f : α → StateM (List Nat) β} {r : α} {r' : β}
    (hx : Reading start stop x r) (hf : Reading start stop (f r) r') :
    Reading start stop (x >>= f) r' := by
  intro reads
  obtain ⟨new, hrun, hnew⟩ := hx reads
  obtain ⟨new', hrun', hnew'⟩ := hf (new ++ reads)
  refine ⟨new' ++ new, ?_, List.forall_mem_append.mpr ⟨hnew', hnew⟩⟩
  change f (x reads).1 (x reads).2 = _
  rw [hrun, List.append_assoc]
  exact hrun'

theorem reading_readWord (w : Row 32) {a : Nat} (h : start ≤ a ∧ a ≤ stop) :
    Reading start stop (readWord w a) (w a) :=
  fun _ => ⟨[a], rfl, List.forall_mem_singleton.mpr h⟩

/-- The pointer loop reads the words behind `ptr`, and finds what `testWords` says. -/
theorem reading_testWords (w : Row 32) (n ptr : Nat) (hptr : start ≤ ptr) (hn : ptr + n ≤ stop) :
    Reading start stop (testWordsRead w stop n ptr) (testWords w stop n ptr) := by
  induction n generalizing ptr with
  | zero => exact reading_pure true
  | succ n ih =>
    refine (reading_readWord w ⟨by omega, by omega⟩).bind ?_
    rw [testWords]
    split
    · exact reading_pure false
    · exact ih (ptr + 1) (by omega) (by omega)

theorem reading_testRange (w : Row 32) (h : start ≤ stop) (sBit eBit : Nat) :
    Reading start stop (testRangeRead w start stop sBit eBit)
      (testRange w start stop sBit eBit) := by
  have hstart := reading_readWord w (a := start) ⟨le_rfl, h⟩
  unfold testRangeRead testRange
  split
  · exact hstart.bind (reading_pure _)
  · refine hstart.bind ?_
    split
    · exact reading_pure false
    · refine (reading_testWords w (stop - start) start le_rfl (by omega)).bind ?_
      split
      · exact reading_pure false
      · exact (reading_readWord w ⟨h, le_rfl⟩).bind (reading_pure _)

end Reads

/-- `test_range` decides whether its half-open range of bits is clear, and reads no word before
`start` or behind `stop`. -/
theorem testRange_decides (w : Row 32) {start stop sBit eBit : Nat} (h : start ≤ stop)
    (hs : sBit < 32) (he : eBit < 32) :
    ((testRangeRead w start stop sBit eBit []).1 = true ↔
      ∀ k, 32 * start + sBit ≤ k → k < 32 * stop + eBit → bit w k = false) ∧
    ∀ a ∈ (testRangeRead w start stop sBit eBit []).2, start ≤ a ∧ a ≤ stop := by
  obtain ⟨new, hrun, hnew⟩ := reading_testRange w h sBit eBit []
  rw [hrun, List.append_nil]
  exact ⟨testRange_iff w h hs he, hnew⟩

/-- Frames 5 to 40 of the small machine are clear, as `test_range` finds from its two words. -/
theorem smallPfa_tested : (∀ k, 32 * 0 + 5 ≤ k → k < 32 * 1 + 9 → bit smallPfa.bitmap k = false) ∧
    ∀ a ∈ (testRangeRead smallPfa.bitmap 0 1 5 9 []).2, 0 ≤ a ∧ a ≤ 1 :=
  have h := testRange_decides smallPfa.bitmap (show 0 ≤ 1 by decide) (show 5 < 32 by decide)
    (show 9 < 32 by decide)
  ⟨h.1.mp (by decide), h.2⟩

end NyaOS.Frames
