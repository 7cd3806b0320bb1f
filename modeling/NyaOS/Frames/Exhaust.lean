import Mathlib.Data.Finset.Card
import NyaOS.Frames.Single

/-! What `kalloc_frame` does when the frames run out. The refill takes twenty frames or fails in
the middle, and a failure keeps what it has already taken. -/
namespace NyaOS.Frames
open Library.WordBits

/-- The frames that can still be allocated: the clear bits and the undelivered stock. -/
def Available (s : Allocator) (a : Nat) : Prop :=
  (∃ k < 32 * s.pfa.wordCount, a = k * pageSize ∧ bit s.pfa.bitmap k = false) ∨ InStock s a

/-- The call returns, with `NULL` only when nothing is left, and such a call loses nothing. -/
structure ReportsExactly (s : Allocator) : Prop where
  returns : ∃ a s', kallocFrame s = some (a, s')
  null_only : ∀ s', kallocFrame s = some (0, s') →
    (∀ k < 32 * s.pfa.wordCount, bit s.pfa.bitmap k = true) ∧ ∀ i, ¬ Stocked s i
  keeps : ∀ s', kallocFrame s = some (0, s') → ∀ a, Available s' a ↔ Available s a

/-- How many bits of the bitmap are clear. -/
def freeCount (s : Pfa) : Nat :=
  ((Finset.range (32 * s.wordCount)).filter fun k => bit s.bitmap k = false).card

theorem freeCount_eq_zero_iff (s : Pfa) :
    freeCount s = 0 ↔ ∀ k < 32 * s.wordCount, bit s.bitmap k = true := by
  simp [freeCount, Finset.filter_eq_empty_iff]

theorem freeCount_bmSet {s : Pfa} {k : Nat} (hk : k < 32 * s.wordCount)
    (hclear : bit s.bitmap k = false) :
    freeCount { s with bitmap := bmSet s.bitmap k } + 1 = freeCount s := by
  have herase : ((Finset.range (32 * s.wordCount)).filter fun j => bit (bmSet s.bitmap k) j = false) =
      ((Finset.range (32 * s.wordCount)).filter fun j => bit s.bitmap j = false).erase k := by
    ext j
    simp only [Finset.mem_filter, Finset.mem_erase, Finset.mem_range, bit_bmSet,
      Bool.or_eq_false_iff, decide_eq_false_iff_not]
    exact and_left_comm
  change ((Finset.range (32 * s.wordCount)).filter fun j => bit (bmSet s.bitmap k) j = false).card + 1 = _
  rw [herase]
  exact Finset.card_erase_add_one (Finset.mem_filter.mpr ⟨Finset.mem_range.mpr hk, hclear⟩)

/-- The refill completes exactly when there are enough clear bits, and otherwise takes all. -/
theorem refill_count (is : List (Fin 20)) (s : Allocator) (hzero : bit s.pfa.bitmap 0 = true) :
    (refill is s).1 = decide (is.length ≤ freeCount s.pfa) ∧
      ((refill is s).1 = false → freeCount (refill is s).2.pfa = 0) := by
  induction is generalizing s with
  | nil => simp [refill]
  | cons i rest ih =>
    rcases kallocFrameInt_cases s.pfa with ⟨k, hk, hclear, -, he⟩ | ⟨hfull, he⟩
    · have hk0 : k ≠ 0 := by
        rintro rfl
        rw [hzero] at hclear
        cases hclear
      have hne : ¬ k * pageSize = 0 := by simp [pageSize]; omega
      have hstep : refill (i :: rest) s = refill rest { s with
          pfa := { s.pfa with bitmap := bmSet s.pfa.bitmap k }
          preFrames := Function.update s.preFrames i (k * pageSize) } := by
        simp only [refill, he, hne, if_false]
      have hcount := freeCount_bmSet hk hclear
      rw [hstep, ← hcount, List.length_cons]
      have h := ih { s with
          pfa := { s.pfa with bitmap := bmSet s.pfa.bitmap k }
          preFrames := Function.update s.preFrames i (k * pageSize) } (by simp [hzero])
      simpa using h
    · have hcount := (freeCount_eq_zero_iff s.pfa).mpr hfull
      have hstep : refill (i :: rest) s =
          (false, { s with preFrames := Function.update s.preFrames i 0 }) := by
        simp [refill, he]
      rw [hstep]
      exact ⟨by simp [hcount], fun _ => hcount⟩

/-- The address of a frame of the bitmap other than frame 0. -/
def ProperFrame (s : Pfa) (a : Nat) : Prop := ∃ k, a = k * pageSize ∧ k ≠ 0 ∧ k < 32 * s.wordCount

theorem ProperFrame.ne_zero {s : Pfa} {a : Nat} (h : ProperFrame s a) : a ≠ 0 := by
  obtain ⟨k, rfl, hk, -⟩ := h
  simp [pageSize]
  omega

theorem ProperFrame.congr {s s' : Pfa} {a : Nat} (h : ProperFrame s a) (hn : s'.npages = s.npages) :
    ProperFrame s' a := by
  obtain ⟨k, ha, hk, hlt⟩ := h
  exact ⟨k, ha, hk, by rwa [Pfa.wordCount, hn]⟩

/-- What the statics are like between calls: frame 0 is in use, and the stock has proper frames. -/
structure Steady (s : Allocator) : Prop where
  zero : bit s.pfa.bitmap 0 = true
  statics : s.allocate = 1 ∨ s.allocate = 0 ∧ s.pframe ≤ 20
  stock : ∀ a, InStock s a → ProperFrame s.pfa a

section Steady
variable {s : Allocator}

private theorem not_stocked {t : Allocator} (h : t.allocate = 1) (i : Fin 20) : ¬ Stocked t i :=
  fun hs => hs.1 h

/-- Delivering returns a frame of the stock and drops it from there. -/
private theorem Steady.deliver (h : Steady s) (ha : s.allocate = 0) (hp : s.pframe < 20) :
    ∃ a s', deliver s = some (a, s') ∧ ProperFrame s.pfa a ∧ s'.pfa = s.pfa ∧ Steady s' := by
  have hnext : (s.pframe + 1) % 2 ^ 8 = s.pframe + 1 := Nat.mod_eq_of_lt (by omega)
  have hst : Stocked s ⟨s.pframe, hp⟩ := ⟨by rw [ha]; decide, le_rfl⟩
  refine ⟨_, _, dif_pos hp, h.stock _ ⟨_, hst, rfl⟩, rfl, h.zero, .inr ⟨ha, ?_⟩, ?_⟩
  · change (s.pframe + 1) % 2 ^ 8 ≤ 20
    omega
  · rintro a ⟨i, hi, rfl⟩
    have hi2 : (s.pframe + 1) % 2 ^ 8 ≤ i := hi.2
    exact h.stock _ ⟨i, ⟨hi.1, by omega⟩, rfl⟩

private theorem Steady.refill_failed (h : Steady s) {t s' : Allocator} (ht : t.pfa = s.pfa)
    (ha : t.allocate = 1) (hr : refill (List.finRange 20) t = (false, s')) :
    s'.pfa.npages = s.pfa.npages ∧ s'.allocate = 1 ∧ Steady s' := by
  have hk := refill_kept (List.finRange 20) t
  rw [hr] at hk
  have ha' : s'.allocate = 1 := hk.allocate.trans ha
  exact ⟨hk.npages.trans (congrArg Pfa.npages ht), ha', hk.grown 0 (ht ▸ h.zero), .inl ha',
    fun a ⟨i, hi, _⟩ => (not_stocked ha' i hi).elim⟩

private theorem Steady.refill_filled (h : Steady s) {t s' : Allocator} (ht : t.pfa = s.pfa)
    (hr : refill (List.finRange 20) t = (true, s')) :
    s'.pfa.npages = s.pfa.npages ∧ Steady { s' with pframe := 0, allocate := 0 } := by
  have hk := refill_kept (List.finRange 20) t
  rw [hr] at hk
  have hn : s'.pfa.npages = s.pfa.npages := hk.npages.trans (congrArg Pfa.npages ht)
  have hf := Frames.refill_filled _ (List.nodup_finRange 20) _ _ hr
  refine ⟨hn, hk.grown 0 (ht ▸ h.zero), .inr ⟨rfl, by simp⟩, ?_⟩
  rintro a ⟨i, -, rfl⟩
  obtain ⟨k, he, h0, hlt, -, -⟩ := hf.fresh i (List.mem_finRange i)
  rw [ht] at hlt
  exact ProperFrame.congr (s := s.pfa) ⟨k, he, h0, hlt⟩ hn

/-- Either a proper frame is delivered, from the stock or from a refill of twenty frames, or the
call returns `NULL`: then no stock was left, and the refill has set every bit. -/
theorem Steady.kallocFrame_cases (h : Steady s) :
    (∃ a s', kallocFrame s = some (a, s') ∧ ProperFrame s.pfa a ∧ s'.pfa.npages = s.pfa.npages ∧
      Steady s' ∧ ((∃ i, Stocked s i) ∨ 20 ≤ freeCount s.pfa)) ∨
    ∃ s', kallocFrame s = some (0, s') ∧ s'.pfa.npages = s.pfa.npages ∧ Steady s' ∧
      s'.allocate = 1 ∧ freeCount s'.pfa = 0 ∧ (∀ i, ¬ Stocked s i) ∧ freeCount s.pfa < 20 := by
  by_cases hstock : s.allocate = 0 ∧ s.pframe < 20
  · obtain ⟨a, s', he, ha, hpfa, hs'⟩ := h.deliver hstock.1 hstock.2
    refine .inl ⟨a, s', ?_, ha, congrArg Pfa.npages hpfa, hs',
      .inl ⟨⟨s.pframe, hstock.2⟩, by simp [hstock.1], le_rfl⟩⟩
    have hp : s.pframe ≠ 20 := by omega
    simpa [Frames.kallocFrame, hp, hstock.1] using he
  · -- the stock is used up, so the refill runs
    have hnone : ∀ i, ¬ Stocked s i := by
      rintro i ⟨hi, hle⟩
      have hlt := i.isLt
      rcases h.statics with ha | ⟨ha, -⟩
      · exact hi ha
      · exact hstock ⟨ha, by omega⟩
    have hrun : ∃ t : Allocator, t.pfa = s.pfa ∧ t.allocate = 1 ∧
        (∀ s', refill (List.finRange 20) t = (false, s') → kallocFrame s = some (0, s')) ∧
        ∀ s', refill (List.finRange 20) t = (true, s') →
          kallocFrame s = Frames.deliver { s' with pframe := 0, allocate := 0 } := by
      refine ⟨{ s with allocate := 1 }, rfl, rfl, fun s' hr => ?_, fun s' hr => ?_⟩
      all_goals
        rcases h.statics with ha | ⟨ha, hle⟩
        · have hts : { s with allocate := 1 } = s := by rw [← ha]
          rw [hts] at hr
          simp [Frames.kallocFrame, hts, ha, hr]
        · have hp : s.pframe = 20 := by omega
          simp [Frames.kallocFrame, hp, hp ▸ hr]
    obtain ⟨t, ht, hta, hnull, hdeliver⟩ := hrun
    obtain ⟨hok, hfail⟩ := refill_count (List.finRange 20) t (ht ▸ h.zero)
    rcases hr : refill (List.finRange 20) t with ⟨ok, s'⟩
    rw [hr] at hok hfail
    rw [List.length_finRange, ht] at hok
    cases ok with
    | true =>
      obtain ⟨hn, hs'⟩ := h.refill_filled ht hr
      obtain ⟨a, s'', he, ha, hpfa, hs''⟩ := hs'.deliver rfl (by simp)
      refine .inl ⟨a, s'', (hdeliver s' hr).trans he, ha.congr hn.symm, ?_, hs'', .inr ?_⟩
      · exact (congrArg Pfa.npages hpfa).trans hn
      · simpa using hok.symm
    | false =>
      obtain ⟨hn, ha, hs'⟩ := h.refill_failed ht hta hr
      refine .inr ⟨s', hnull s' hr, hn, hs', ha, hfail rfl, hnone, ?_⟩
      simpa using hok.symm

end Steady

/-- The statics stay steady along every run, and clients hold proper frames. -/
theorem Reach.steady {start : Allocator} {c : Client} (hr : Reach start c) (ha : start.allocate = 1)
    (hzero : bit start.pfa.bitmap 0 = true) :
    Steady c.alloc ∧ ∀ a ∈ c.held, ProperFrame c.alloc.pfa a := by
  induction hr with
  | start =>
    exact ⟨⟨hzero, .inl ha, fun a ⟨i, hi, _⟩ => (not_stocked ha i hi).elim⟩, by simp⟩
  | @alloc c a s _ he ih =>
    obtain ⟨hs, hheld⟩ := ih
    rcases hs.kallocFrame_cases with ⟨a', s', he', ha', hn, hs', -⟩ | ⟨s', he', hn, hs', -⟩
    · rw [he] at he'
      cases he'
      rw [Client.receive, if_neg ha'.ne_zero]
      refine ⟨hs', fun b hb => ?_⟩
      rcases Finset.mem_insert.mp hb with rfl | hb
      · exact ha'.congr hn
      · exact (hheld b hb).congr hn
    · rw [he] at he'
      cases he'
      rw [Client.receive, if_pos rfl]
      exact ⟨hs', fun b hb => (hheld b hb).congr hn⟩
  | @free c a _ hm ih =>
    obtain ⟨hs, hheld⟩ := ih
    obtain ⟨k, rfl, hk0, hk⟩ := hheld a hm
    have hw := c.alloc.pfa.wordCount_lt
    have hidx : k * pageSize / pageSize % 2 ^ 32 = k := by
      rw [Nat.mul_div_cancel _ (by decide), Nat.mod_eq_of_lt (by omega)]
    have hbit : bit (c.release (k * pageSize)).alloc.pfa.bitmap 0 = true := by
      change bit (bmClear _ (k * pageSize / pageSize % 2 ^ 32)) 0 = true
      rw [hidx, bit_bmClear, hs.zero]
      simp [hk0.symm]
    exact ⟨⟨hbit, hs.statics, hs.stock⟩, fun b hb => hheld b (Finset.mem_erase.mp hb).2⟩

/-- Running out of frames is reported exactly as it should be in every state of every run but
those in which the stock is used up and between one and nineteen frames are free. -/
theorem reports_exactly_iff (start : Allocator) (ha : start.allocate = 1)
    (hzero : bit start.pfa.bitmap 0 = true) (c : Client) (hr : Reach start c) :
    ReportsExactly c.alloc ↔
      (∃ i, Stocked c.alloc i) ∨ freeCount c.alloc.pfa = 0 ∨ 20 ≤ freeCount c.alloc.pfa := by
  obtain ⟨hs, -⟩ := hr.steady ha hzero
  rcases hs.kallocFrame_cases with ⟨a, s', he, hpf, -, -, hor⟩ | ⟨s', he, hn, -, ha', h0, hnone, hlt⟩
  · have hnever : ∀ t, kallocFrame c.alloc ≠ some (0, t) := by
      intro t ht
      rw [he] at ht
      cases ht
      exact hpf.ne_zero rfl
    refine iff_of_true ⟨⟨a, s', he⟩, fun t ht => (hnever t ht).elim, fun t ht => (hnever t ht).elim⟩ ?_
    rcases hor with hor | hor
    · exact .inl hor
    · exact .inr (.inr hor)
  · constructor
    · intro h
      exact .inr (.inl ((freeCount_eq_zero_iff _).mpr (h.null_only s' he).1))
    · rintro (⟨i, hi⟩ | hzero' | hge)
      · exact (hnone i hi).elim
      · have hfull := (freeCount_eq_zero_iff _).mp hzero'
        have hfull' := (freeCount_eq_zero_iff _).mp h0
        have hempty : ∀ t : Allocator, (∀ k < 32 * t.pfa.wordCount, bit t.pfa.bitmap k = true) →
            (∀ i, ¬ Stocked t i) → ∀ a, ¬ Available t a := by
          rintro t hset hno a (⟨k, hk, -, hb⟩ | ⟨i, hi, -⟩)
          · rw [hset k hk] at hb
            cases hb
          · exact hno i hi
        refine ⟨⟨0, s', he⟩, fun _ _ => ⟨hfull, hnone⟩, fun t ht a => ?_⟩
        rw [he] at ht
        cases ht
        exact iff_of_false (hempty s' hfull' (not_stocked ha') a) (hempty _ hfull hnone a)
      · omega

/-- A machine with two free frames, 1 and 2. -/
def twoFree : Allocator := ⟨⟨3, fun _ => 0xfffffff9#32, by decide⟩, 1, 0, fun _ => 0⟩

theorem smallMachine_reports : ReportsExactly smallMachine := by
  have hcount : 20 ≤ freeCount smallMachine.pfa := by decide +kernel
  exact (reports_exactly_iff smallMachine rfl rfl _ .start).mpr (.inr (.inr hcount))

/-- With two frames free the first call returns `NULL`, and both are lost. -/
theorem twoFree_lost : Reach twoFree ⟨twoFree, ∅, ∅, false⟩ ∧ bit twoFree.pfa.bitmap 0 = true ∧
    bit twoFree.pfa.bitmap 1 = false ∧ (∃ s', kallocFrame twoFree = some (0, s') ∧
      bit s'.pfa.bitmap 1 = true) ∧ ¬ ReportsExactly twoFree := by
  have hcall : (kallocFrame twoFree).map (fun r => (r.1, bit r.2.pfa.bitmap 1)) = some (0, true) := by
    decide +kernel
  obtain ⟨⟨a, s'⟩, he, hv⟩ := Option.map_eq_some_iff.mp hcall
  obtain ⟨rfl, hb⟩ := Prod.mk.inj hv
  refine ⟨.start, rfl, rfl, ⟨s', he, hb⟩, fun h => ?_⟩
  have hset := (h.null_only s' he).1 1 (by decide)
  cases hset

end NyaOS.Frames
