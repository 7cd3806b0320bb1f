import NyaOS.Frames.Bitmap
import NyaOS.Library.Pool
import Mathlib.Data.Finset.Basic
import Mathlib.Data.List.FinRange

/-! Single-frame allocation through the stock of twenty prepared frames, and what every
run of allocations and frees keeps. -/
namespace NyaOS.Frames
open Library Library.WordBits

/-- The statics of `kalloc_frame` beside the bitmap. -/
structure Allocator where
  pfa : Pfa
  allocate : Nat
  pframe : Nat
  preFrames : Fin 20 → Nat

/-- The refill loop. Each entry is stored before it is tested, so a failed refill keeps
the entries and the bits it has already taken. -/
def refill : List (Fin 20) → Allocator → Bool × Allocator
  | [], s => (true, s)
  | i :: rest, s =>
    let (f, pfa) := kallocFrameInt s.pfa
    let s := { s with pfa := pfa, preFrames := Function.update s.preFrames i f }
    if f = 0 then (false, s) else refill rest s

/-- `ret = pre_frames[pframe]; pframe++`. A read past the array has no result. -/
def deliver (s : Allocator) : Option (Nat × Allocator) :=
  if h : s.pframe < 20 then
    some (s.preFrames ⟨s.pframe, h⟩, { s with pframe := (s.pframe + 1) % 2 ^ 8 })
  else none

/-- `kalloc_frame`; the address 0 is `NULL`. -/
def kallocFrame (s : Allocator) : Option (Nat × Allocator) :=
  let s := if s.pframe = 20 then { s with allocate := 1 } else s
  if s.allocate = 1 then
    match refill (List.finRange 20) s with
    | (false, s) => some (0, s)
    | (true, s) => deliver { s with pframe := 0, allocate := 0 }
  else deliver s

/-- An entry of `pre_frames` that is prepared and not yet delivered. -/
def Stocked (s : Allocator) (i : Fin 20) : Prop := s.allocate ≠ 1 ∧ s.pframe ≤ i

def InStock (s : Allocator) (a : Nat) : Prop := ∃ i, Stocked s i ∧ s.preFrames i = a

/-- The allocator with the clients' view of one run: the frames they hold, the frames freed
since the start, and whether some call has returned `NULL`. -/
structure Client where
  alloc : Allocator
  held : Finset Nat
  freed : Finset Nat
  exhausted : Bool

def Client.receive (c : Client) (a : Nat) (s : Allocator) : Client :=
  if a = 0 then { c with alloc := s, exhausted := true }
  else { c with alloc := s, held := insert a c.held }

def Client.release (c : Client) (a : Nat) : Client :=
  { c with
    alloc := { c.alloc with pfa := kfreeFrame c.alloc.pfa a }
    held := c.held.erase a
    freed := insert a c.freed }

/-- Finite runs of `kalloc_frame` and `kfree_frame` in which clients free what they hold. -/
inductive Reach (start : Allocator) : Client → Prop
  | start : Reach start ⟨start, ∅, ∅, false⟩
  | alloc {c : Client} {a : Nat} {s : Allocator} (hr : Reach start c)
      (h : kallocFrame c.alloc = some (a, s)) : Reach start (c.receive a s)
  | free {c : Client} {a : Nat} (hr : Reach start c) (h : a ∈ c.held) : Reach start (c.release a)

/-- What a refill keeps, whether or not it completes. -/
structure Kept (is : List (Fin 20)) (s s' : Allocator) : Prop where
  npages : s'.pfa.npages = s.pfa.npages
  allocate : s'.allocate = s.allocate
  grown : ∀ k, bit s.pfa.bitmap k = true → bit s'.pfa.bitmap k = true
  others : ∀ i, i ∉ is → s'.preFrames i = s.preFrames i

/-- What a completed refill adds: distinct frames whose bits were clear, and no other bit. -/
structure Filled (is : List (Fin 20)) (s s' : Allocator) : Prop where
  fresh : ∀ i ∈ is, ∃ k, s'.preFrames i = k * pageSize ∧ k ≠ 0 ∧ k < 32 * s.pfa.wordCount ∧
    bit s.pfa.bitmap k = false ∧ bit s'.pfa.bitmap k = true
  inj : ∀ i ∈ is, ∀ j ∈ is, s'.preFrames i = s'.preFrames j → i = j
  only : ∀ k, bit s'.pfa.bitmap k = true →
    bit s.pfa.bitmap k = true ∨ ∃ i ∈ is, s'.preFrames i = k * pageSize

/-- The state after the loop stored the address `a` at entry `i` over the bitmap `w`. -/
private def Allocator.entry (s : Allocator) (i : Fin 20) (a : Nat) (w : Row 32) : Allocator :=
  ⟨⟨s.pfa.npages, w, s.pfa.npages_lt⟩, s.allocate, s.pframe, Function.update s.preFrames i a⟩

private theorem refill_step (i : Fin 20) (rest : List (Fin 20)) (s : Allocator) :
    (∃ k, k ≠ 0 ∧ k < 32 * s.pfa.wordCount ∧ bit s.pfa.bitmap k = false ∧
      refill (i :: rest) s = refill rest (s.entry i (k * pageSize) (bmSet s.pfa.bitmap k))) ∨
    ∃ w, (∀ k, bit s.pfa.bitmap k = true → bit w k = true) ∧
      refill (i :: rest) s = (false, s.entry i 0 w) := by
  rcases kallocFrameInt_cases s.pfa with ⟨k, hk, hclear, -, he⟩ | ⟨-, he⟩
  · rcases Nat.eq_zero_or_pos k with rfl | hpos
    · refine .inr ⟨bmSet s.pfa.bitmap 0, fun k hb => by simp [hb], ?_⟩
      simp [refill, he, Allocator.entry]
    · refine .inl ⟨k, by omega, hk, hclear, ?_⟩
      have hne : ¬ k * pageSize = 0 := by simp [pageSize]; omega
      simp [refill, he, hne, Allocator.entry]
  · exact .inr ⟨s.pfa.bitmap, fun _ h => h, by simp [refill, he, Allocator.entry]⟩

theorem refill_kept (is : List (Fin 20)) (s : Allocator) : Kept is s (refill is s).2 := by
  induction is generalizing s with
  | nil => exact ⟨rfl, rfl, fun _ h => h, fun _ _ => rfl⟩
  | cons i rest ih =>
    rcases refill_step i rest s with ⟨k, -, -, -, he⟩ | ⟨w, hw, he⟩
    · have h := ih (s.entry i (k * pageSize) (bmSet s.pfa.bitmap k))
      rw [he]
      refine ⟨h.npages, h.allocate, fun k' hk' => h.grown k' ?_, fun j hj => ?_⟩
      · simp [Allocator.entry, hk']
      · rw [List.mem_cons, not_or] at hj
        rw [h.others j hj.2]
        exact Function.update_of_ne hj.1 _ _
    · rw [he]
      refine ⟨rfl, rfl, hw, fun j hj => ?_⟩
      rw [List.mem_cons, not_or] at hj
      exact Function.update_of_ne hj.1 _ _

theorem refill_filled (is : List (Fin 20)) (hnd : is.Nodup) (s s' : Allocator)
    (h : refill is s = (true, s')) : Filled is s s' := by
  induction is generalizing s with
  | nil =>
    cases h
    exact ⟨by simp, by simp, fun _ hb => .inl hb⟩
  | cons i rest ih =>
    obtain ⟨hi, hrest⟩ := List.nodup_cons.mp hnd
    rcases refill_step i rest s with ⟨k, hk0, hk, hclear, he⟩ | ⟨w, -, he⟩
    · rw [he] at h
      have hf := ih hrest _ h
      have hkept := refill_kept rest (s.entry i (k * pageSize) (bmSet s.pfa.bitmap k))
      rw [h] at hkept
      have hhead : s'.preFrames i = k * pageSize := by
        simpa [Allocator.entry] using hkept.others i hi
      -- the frame just taken is set from here on, so no later entry repeats it
      have hlater : ∀ j ∈ rest, s'.preFrames j ≠ k * pageSize := by
        intro j hj hej
        obtain ⟨k', hk', -, -, hclear', -⟩ := hf.fresh j hj
        have hkk : k' = k := by
          have := hk'.symm.trans hej
          simpa [pageSize] using this
        simp [Allocator.entry, hkk] at hclear'
      refine ⟨?_, ?_, ?_⟩
      · intro j hj
        rcases List.mem_cons.mp hj with rfl | hj
        · exact ⟨k, hhead, hk0, hk, hclear, hkept.grown k (by simp [Allocator.entry])⟩
        · obtain ⟨k', he', h0', hlt', hc', hs'⟩ := hf.fresh j hj
          refine ⟨k', he', h0', hlt', ?_, hs'⟩
          simp only [Allocator.entry, bit_bmSet, Bool.or_eq_false_iff] at hc'
          exact hc'.2
      · intro a ha b hb hab
        rcases List.mem_cons.mp ha with hai | har <;> rcases List.mem_cons.mp hb with hbi | hbr
        · rw [hai, hbi]
        · exact (hlater b hbr (hab.symm.trans (hai ▸ hhead))).elim
        · exact (hlater a har (hab.trans (hbi ▸ hhead))).elim
        · exact hf.inj a har b hbr hab
      · intro k' hk'
        rcases hf.only k' hk' with hb | ⟨j, hj, hej⟩
        · simp only [Allocator.entry, bit_bmSet, Bool.or_eq_true, decide_eq_true_eq] at hb
          rcases hb with rfl | hb
          · exact .inr ⟨i, List.mem_cons_self, hhead⟩
          · exact .inl hb
        · exact .inr ⟨j, List.mem_cons_of_mem _ hj, hej⟩
    · rw [he] at h
      cases h

/-- A frame that left the free pool during the run: its bit was clear at the start and
is set now. -/
def Taken (start : Allocator) (s : Allocator) (a : Nat) : Prop :=
  ∃ k, a = k * pageSize ∧ k ≠ 0 ∧ k < start.pfa.npages ∧
    bit start.pfa.bitmap k = false ∧ bit s.pfa.bitmap k = true

/-- The invariant of a run. Bits set at the start stay set; held and stocked frames are
taken frames, and no frame is both; until a call fails, no other bit is set. -/
structure Sound (start : Allocator) (c : Client) : Prop where
  npages : c.alloc.pfa.npages = start.pfa.npages
  reserved : ∀ k, bit start.pfa.bitmap k = true → bit c.alloc.pfa.bitmap k = true
  statics : c.alloc.allocate = 1 ∨ c.alloc.allocate = 0 ∧ c.alloc.pframe ≤ 20
  held : ∀ a ∈ c.held, Taken start c.alloc a
  stock : ∀ a, InStock c.alloc a → Taken start c.alloc a ∧ a ∉ c.held
  inj : ∀ i j, Stocked c.alloc i → Stocked c.alloc j →
    c.alloc.preFrames i = c.alloc.preFrames j → i = j
  complete : c.exhausted = false → ∀ k, bit c.alloc.pfa.bitmap k = true →
    bit start.pfa.bitmap k = true ∨ k * pageSize ∈ c.held ∨ InStock c.alloc (k * pageSize)

variable {start : Allocator} {c : Client}

private theorem not_inStock_of_allocate {s : Allocator} (h : s.allocate = 1) (a : Nat) :
    ¬ InStock s a := fun ⟨_, hs, _⟩ => hs.1 h

private theorem taken_mono {s s' : Allocator} {a : Nat} (h : Taken start s a)
    (hg : ∀ k, bit s.pfa.bitmap k = true → bit s'.pfa.bitmap k = true) : Taken start s' a := by
  obtain ⟨k, ha, h0, hk, hc, hb⟩ := h
  exact ⟨k, ha, h0, hk, hc, hg k hb⟩

theorem Sound.init (ha : start.allocate = 1) : Sound start ⟨start, ∅, ∅, false⟩ where
  npages := rfl
  reserved _ h := h
  statics := .inl ha
  held a h := by simp at h
  stock a h := (not_inStock_of_allocate ha a h).elim
  inj _ _ h := (h.1 ha).elim
  complete _ _ h := .inl h

/-- Entering the refill empties the stock, and the stock was already used up. -/
theorem Sound.exhaust (hs : Sound start c) (hp : c.alloc.pframe = 20) :
    Sound start { c with alloc := { c.alloc with allocate := 1 } } where
  npages := hs.npages
  reserved := hs.reserved
  statics := .inl rfl
  held := hs.held
  stock a h := (not_inStock_of_allocate rfl a h).elim
  inj _ _ h := (h.1 rfl).elim
  complete he k hk := by
    rcases hs.complete he k hk with h | h | ⟨i, hi, -⟩
    · exact .inl h
    · exact .inr (.inl h)
    · have h1 := hi.2
      have h2 := i.isLt
      omega

theorem Sound.refill_failed (hs : Sound start c) (ha : c.alloc.allocate = 1) {s : Allocator}
    (h : refill (List.finRange 20) c.alloc = (false, s)) :
    Sound start { c with alloc := s, exhausted := true } := by
  have hk := refill_kept (List.finRange 20) c.alloc
  rw [h] at hk
  have ha' : s.allocate = 1 := hk.allocate.trans ha
  exact {
    npages := hk.npages.trans hs.npages
    reserved := fun k hb => hk.grown k (hs.reserved k hb)
    statics := .inl ha'
    held := fun a hm => taken_mono (hs.held a hm) hk.grown
    stock := fun a hi => (not_inStock_of_allocate ha' a hi).elim
    inj := fun _ _ hi => (hi.1 ha').elim
    complete := fun he => by cases he }

theorem Sound.refill_filled (hs : Sound start c) (hprep : start.pfa.Prepared)
    (ha : c.alloc.allocate = 1) {s : Allocator}
    (h : refill (List.finRange 20) c.alloc = (true, s)) :
    Sound start { c with alloc := { s with pframe := 0, allocate := 0 } } := by
  have hk := refill_kept (List.finRange 20) c.alloc
  rw [h] at hk
  have hf := Frames.refill_filled _ (List.nodup_finRange 20) _ _ h
  have hclear : ∀ k, bit c.alloc.pfa.bitmap k = false → bit start.pfa.bitmap k = false := by
    intro k hb
    by_contra hne
    rw [hs.reserved k (by simpa using hne)] at hb
    cases hb
  have hfresh : ∀ i, ∃ k, s.preFrames i = k * pageSize ∧ bit c.alloc.pfa.bitmap k = false ∧
      Taken start s (s.preFrames i) := by
    intro i
    obtain ⟨k, he, h0, hlt, hb, hb'⟩ := hf.fresh i (List.mem_finRange i)
    have hkn : k < start.pfa.npages := by
      by_contra hge
      rw [Pfa.wordCount_eq, hs.npages, ← Pfa.wordCount_eq] at hlt
      have := hprep.padding k (by omega) hlt
      rw [hclear k hb] at this
      cases this
    exact ⟨k, he, hb, k, he, h0, hkn, hclear k hb, hb'⟩
  exact {
    npages := hk.npages.trans hs.npages
    reserved := fun k hb => hk.grown k (hs.reserved k hb)
    statics := .inr ⟨rfl, by simp⟩
    held := fun a hm => taken_mono (hs.held a hm) hk.grown
    stock := by
      rintro a ⟨i, -, rfl⟩
      obtain ⟨k, he, hb, ht⟩ := hfresh i
      refine ⟨ht, fun hm => ?_⟩
      obtain ⟨k', he', -, -, -, hb'⟩ := hs.held _ hm
      have hkk : k' = k := by
        have hmul : k' * pageSize = k * pageSize := he'.symm.trans he
        simpa [pageSize] using hmul
      rw [hkk, hb] at hb'
      cases hb'
    inj := fun i j _ _ he => hf.inj i (List.mem_finRange i) j (List.mem_finRange j) he
    complete := by
      intro he k hb
      rcases hf.only k hb with hb | ⟨i, -, hi⟩
      · rcases hs.complete he k hb with h | h | h
        · exact .inl h
        · exact .inr (.inl h)
        · exact (not_inStock_of_allocate ha _ h).elim
      · exact .inr (.inr ⟨i, ⟨by simp, by simp⟩, hi⟩) }

/-- Delivering from the stock moves one frame to the clients. -/
theorem Sound.deliver (hs : Sound start c) (ha : c.alloc.allocate = 0)
    (hp : c.alloc.pframe < 20) :
    ∃ a s, deliver c.alloc = some (a, s) ∧ Taken start c.alloc a ∧ a ∉ c.held ∧
      Sound start (c.receive a s) := by
  let i : Fin 20 := ⟨c.alloc.pframe, hp⟩
  let s' : Allocator := { c.alloc with pframe := (c.alloc.pframe + 1) % 2 ^ 8 }
  have hpf : s'.pframe = c.alloc.pframe + 1 := Nat.mod_eq_of_lt (by omega)
  have hst : Stocked c.alloc i := ⟨by rw [ha]; decide, le_rfl⟩
  have hmem : InStock c.alloc (c.alloc.preFrames i) := ⟨i, hst, rfl⟩
  obtain ⟨ht, hnot⟩ := hs.stock _ hmem
  have hne : c.alloc.preFrames i ≠ 0 := by
    obtain ⟨k, he, h0, -⟩ := ht
    rw [he]
    simp [pageSize]
    omega
  -- what remains in the stock was there before, at a later entry
  have hold : ∀ j, Stocked s' j → Stocked c.alloc j ∧ j ≠ i := by
    rintro j ⟨h1, h2⟩
    rw [hpf] at h2
    refine ⟨⟨h1, by omega⟩, fun he => ?_⟩
    have hj : j.val = c.alloc.pframe := congrArg Fin.val he
    omega
  refine ⟨c.alloc.preFrames i, s', by simp [Frames.deliver, hp, i, s'], ht, hnot, ?_⟩
  rw [Client.receive, if_neg hne]
  exact {
    npages := hs.npages
    reserved := hs.reserved
    statics := .inr ⟨ha, by change s'.pframe ≤ 20; omega⟩
    held := by
      intro a hm
      rcases Finset.mem_insert.mp hm with rfl | hm
      · exact ht
      · exact hs.held a hm
    stock := by
      rintro a ⟨j, hj, rfl⟩
      obtain ⟨hjs, hji⟩ := hold j hj
      obtain ⟨htj, hnj⟩ := hs.stock _ ⟨j, hjs, rfl⟩
      refine ⟨htj, fun hm => ?_⟩
      rcases Finset.mem_insert.mp hm with he | hm
      · exact hji (hs.inj j i hjs hst he)
      · exact hnj hm
    inj := fun j j' hj hj' he => hs.inj j j' (hold j hj).1 (hold j' hj').1 he
    complete := by
      intro he k hb
      rcases hs.complete he k hb with h | h | ⟨j, hj, hjk⟩
      · exact .inl h
      · exact .inr (.inl (Finset.mem_insert_of_mem h))
      · by_cases hji : j = i
        · right; left
          rw [← hjk, hji]
          exact Finset.mem_insert_self _ _
        · refine .inr (.inr ⟨j, ⟨hj.1, ?_⟩, hjk⟩)
          have h1 := hj.2
          have h2 : j.val ≠ c.alloc.pframe := fun h => hji (Fin.ext h)
          change s'.pframe ≤ j.val
          omega }

/-- Every call returns, and what it returns was free and is held by nobody. -/
theorem Sound.kallocFrame (hs : Sound start c) (hprep : start.pfa.Prepared) :
    ∃ a s, kallocFrame c.alloc = some (a, s) ∧ Sound start (c.receive a s) ∧
      (a ≠ 0 → Taken start s a ∧ a ∉ c.held) := by
  -- the refill path, from a state whose stock is empty
  have hfill : ∀ t : Allocator, t.allocate = 1 → Sound start { c with alloc := t } →
      ∃ a s, (match refill (List.finRange 20) t with
        | (false, s) => some (0, s)
        | (true, s) => Frames.deliver { s with pframe := 0, allocate := 0 }) = some (a, s) ∧
        Sound start (c.receive a s) ∧ (a ≠ 0 → Taken start s a ∧ a ∉ c.held) := by
    intro t ht hst
    rcases hr : refill (List.finRange 20) t with ⟨ok, s⟩
    cases ok with
    | false =>
      refine ⟨0, s, rfl, ?_, fun h => (h rfl).elim⟩
      rw [Client.receive, if_pos rfl]
      exact hst.refill_failed ht hr
    | true =>
      obtain ⟨a, s', he, htk, hnot, hso⟩ :=
        (hst.refill_filled hprep ht hr).deliver rfl (by simp)
      refine ⟨a, s', he, hso, fun _ => ⟨?_, hnot⟩⟩
      unfold Frames.deliver at he
      split at he
      · cases he
        exact htk
      · cases he
  unfold Frames.kallocFrame
  by_cases hp : c.alloc.pframe = 20
  · simpa [hp] using hfill _ rfl (hs.exhaust hp)
  · rcases hs.statics with ha | ⟨ha, hle⟩
    · simpa [hp, ha] using hfill c.alloc ha hs
    · obtain ⟨a, s, he, htk, hnot, hso⟩ := hs.deliver ha (by omega)
      refine ⟨a, s, by simpa [hp, ha] using he, hso, fun _ => ⟨?_, hnot⟩⟩
      unfold Frames.deliver at he
      split at he
      · cases he
        exact htk
      · cases he

theorem Sound.kfreeFrame (hs : Sound start c) {a : Nat} (h : a ∈ c.held) :
    Sound start (c.release a) := by
  obtain ⟨k, rfl, h0, hk, hclear, hset⟩ := hs.held a h
  have hidx : k * pageSize / pageSize % 2 ^ 32 = k := by
    have := start.pfa.npages_lt
    rw [Nat.mul_div_cancel _ (by decide), Nat.mod_eq_of_lt (by omega)]
  have hbit : ∀ k', bit (c.release (k * pageSize)).alloc.pfa.bitmap k' =
      (!decide (k' = k) && bit c.alloc.pfa.bitmap k') := by
    intro k'
    change bit (bmClear _ (k * pageSize / pageSize % 2 ^ 32)) k' = _
    rw [hidx, bit_bmClear]
  have hother : ∀ {b}, Taken start c.alloc b → b ≠ k * pageSize →
      Taken start (c.release (k * pageSize)).alloc b := by
    rintro b ⟨k', rfl, h0', hk', hc', hb'⟩ hne
    refine ⟨k', rfl, h0', hk', hc', ?_⟩
    have hkk : k' ≠ k := fun he => hne (by rw [he])
    simp [hbit, hkk, hb']
  have hstock : ∀ b, InStock (c.release (k * pageSize)).alloc b → InStock c.alloc b := fun _ h => h
  exact {
    npages := hs.npages
    reserved := by
      intro k' hb
      have hkk : k' ≠ k := by
        rintro rfl
        rw [hclear] at hb
        cases hb
      simp [hbit, hkk, hs.reserved k' hb]
    statics := hs.statics
    held := by
      intro b hb
      obtain ⟨hne, hb⟩ := Finset.mem_erase.mp hb
      exact hother (hs.held b hb) hne
    stock := by
      intro b hb
      obtain ⟨ht, hnot⟩ := hs.stock b (hstock b hb)
      refine ⟨hother ht (fun he => hnot (he ▸ h)), fun hm => hnot (Finset.mem_erase.mp hm).2⟩
    inj := hs.inj
    complete := by
      intro he k' hb
      simp only [hbit, Bool.and_eq_true, Bool.not_eq_true', decide_eq_false_iff_not] at hb
      rcases hs.complete he k' hb.2 with hr | hr | hr
      · exact .inl hr
      · refine .inr (.inl (Finset.mem_erase.mpr ⟨?_, hr⟩))
        intro heq
        exact hb.1 (by simpa [pageSize] using heq)
      · exact .inr (.inr hr) }

/-- The invariant along every run. -/
theorem Reach.sound (ha : start.allocate = 1) (hprep : start.pfa.Prepared) (hr : Reach start c) :
    Sound start c := by
  induction hr with
  | start => exact .init ha
  | alloc _ he ih =>
    obtain ⟨a, s, he', hso, -⟩ := ih.kallocFrame hprep
    rw [he] at he'
    cases he'
    exact hso
  | free _ hm ih => exact ih.kfreeFrame hm

/-- Two frames that do not meet. -/
def FramesApart (a a' : Nat) : Prop := a + pageSize ≤ a' ∨ a' + pageSize ≤ a

/-- Runs of the allocator refine runs of a pool of disjoint frames. -/
theorem Reach.pool (ha : start.allocate = 1) (hprep : start.pfa.Prepared) (hr : Reach start c) :
    Relation.ReflTransGen (Pool.Step FramesApart) ∅ (c.held : Set Nat) := by
  induction hr with
  | start => rw [Finset.coe_empty]
  | @alloc c a s hr he ih =>
    have hs := hr.sound ha hprep
    obtain ⟨a', s', he', -, hret⟩ := hs.kallocFrame hprep
    rw [he] at he'
    cases he'
    rw [Client.receive]
    split
    · exact ih
    · rename_i hne
      obtain ⟨⟨k, rfl, -⟩, hnot⟩ := hret hne
      rw [Finset.coe_insert]
      refine .tail ih (.take fun b hb => ?_)
      obtain ⟨j, rfl, -⟩ := hs.held b (Finset.mem_coe.mp hb)
      have hkj : k * pageSize ≠ j * pageSize := by
        intro he
        rw [he] at hnot
        exact hnot (Finset.mem_coe.mp hb)
      unfold FramesApart pageSize at *
      omega
  | free hr hm ih =>
    rw [Client.release, Finset.coe_erase]
    exact .tail ih (.give (Finset.mem_coe.mpr hm))

/-- Safety and conservation of single-frame allocation. In every state of every run the next
call reads `pre_frames` in bounds, and a frame it returns was free, lies below `npages`, is
not frame 0 and is held by nobody. Until a call fails, the set bits are the ones set at the
start, the held frames and the undelivered stock, without overlap. -/
theorem kallocFrame_run_safe (start : Allocator) (hprep : start.pfa.Prepared)
    (ha : start.allocate = 1) (c : Client) (hr : Reach start c) :
    (∃ a s, kallocFrame c.alloc = some (a, s) ∧
      (a ≠ 0 → a % pageSize = 0 ∧
        (bit start.pfa.bitmap (a / pageSize) = false ∨ a ∈ c.freed) ∧
        a / pageSize < start.pfa.npages ∧ a / pageSize ≠ 0 ∧ a ∉ c.held)) ∧
    (c.exhausted = false →
      (∀ k, bit c.alloc.pfa.bitmap k = true ↔ bit start.pfa.bitmap k = true ∨
        k * pageSize ∈ c.held ∨ InStock c.alloc (k * pageSize)) ∧
      ∀ k, ¬ (bit start.pfa.bitmap k = true ∧ k * pageSize ∈ c.held) ∧
        ¬ (bit start.pfa.bitmap k = true ∧ InStock c.alloc (k * pageSize)) ∧
        ¬ (k * pageSize ∈ c.held ∧ InStock c.alloc (k * pageSize))) := by
  have hs := hr.sound ha hprep
  have htaken : ∀ {s : Allocator} {k : Nat}, Taken start s (k * pageSize) →
      bit start.pfa.bitmap k = false ∧ bit s.pfa.bitmap k = true := by
    rintro s k ⟨k', he, -, -, hc, hb⟩
    obtain rfl : k = k' := by simpa [pageSize] using he
    exact ⟨hc, hb⟩
  constructor
  · obtain ⟨a, s, he, -, hret⟩ := hs.kallocFrame hprep
    refine ⟨a, s, he, fun hne => ?_⟩
    obtain ⟨⟨k, rfl, h0, hk, hc, -⟩, hnot⟩ := hret hne
    rw [Nat.mul_div_cancel _ (by decide : 0 < pageSize)]
    exact ⟨Nat.mul_mod_left _ _, .inl hc, hk, h0, hnot⟩
  · intro hex
    refine ⟨fun k => ⟨hs.complete hex k, ?_⟩, fun k => ⟨?_, ?_, fun h => (hs.stock _ h.2).2 h.1⟩⟩
    · rintro (h | h | h)
      · exact hs.reserved k h
      · exact (htaken (hs.held _ h)).2
      · exact (htaken (hs.stock _ h).1).2
    · rintro ⟨hb, hm⟩
      rw [(htaken (hs.held _ hm)).1] at hb
      cases hb
    · rintro ⟨hb, hm⟩
      rw [(htaken (hs.stock _ hm).1).1] at hb
      cases hb

def smallMachine : Allocator := ⟨smallPfa, 1, 0, fun _ => 0⟩

theorem kallocFrame_run_safe_smallMachine : ∃ c, Reach smallMachine c ∧ c.held = {4096} ∧
    ∃ a s, kallocFrame c.alloc = some (a, s) ∧ (a ≠ 0 → a / pageSize < 64 ∧ a ∉ c.held) := by
  have hfirst : (kallocFrame smallMachine).map Prod.fst = some 4096 := by decide +kernel
  obtain ⟨⟨a, s⟩, he, rfl⟩ := Option.map_eq_some_iff.mp hfirst
  have hr := Reach.alloc Reach.start he
  obtain ⟨⟨b, t, hb, hsafe⟩, -⟩ := kallocFrame_run_safe smallMachine smallPfa_prepared rfl _ hr
  exact ⟨_, hr, rfl, b, t, hb, fun h => ⟨(hsafe h).2.2.1, (hsafe h).2.2.2.2⟩⟩

end NyaOS.Frames
