import NyaOS.Frames.Boot

/-! How much of the memory map the bitmap of `pfa_init` covers: where the 32-bit running maximum
of `mem_high` is right, and which frames the freeing loop leaves out. -/
namespace NyaOS.Frames
open Library.WordBits

/-- The bitmap covers the usable memory: `mem_high` is its highest end, `npages` counts the pages
below it, and `free_available_memory` returns and clears only bits below `npages`. -/
structure CoversUsable (mmap : List MemmapEntry) : Prop where
  high : memHigh mmap = usableEnd mmap
  npages : bootPages mmap = usableEnd mmap / pageSize
  inside : ∃ freed, freeAvailableMemory mmap = some freed ∧ ∀ i ∈ freed, i < bootPages mmap

/-- The bitmap covers the usable memory exactly when that ends below 4 GiB. -/
theorem covers_usable_iff (mmap : List MemmapEntry) :
    CoversUsable mmap ↔ usableEnd mmap < 2 ^ 32 := by
  constructor
  · intro h
    rw [← h.high]
    exact memHigh_lt mmap
  · intro hend
    have hlow : ∀ e ∈ mmap, e.type = .usable → e.base + e.length < 2 ^ 32 := fun e he hu =>
      (le_usableEnd he hu).trans_lt hend
    have hhigh := memHigh_eq hlow
    obtain ⟨freed, hf, hfm⟩ := freeAvailableMemory_low hlow
    refine ⟨hhigh, by rw [bootPages, hhigh], freed, hf, fun k hk => ?_⟩
    obtain ⟨e, he, hu, i, hi, rfl⟩ := (hfm k).mp hk
    have hle := le_usableEnd he hu
    rw [bootPages, hhigh]
    unfold pageSize at *
    omega

/-- A map with a few usable pages at 4 GiB. -/
def highMap : List MemmapEntry := [⟨0x100000, 0x4000, .usable⟩, ⟨0x100000000, 0x3000, .usable⟩]

/-- There the maximum is cut to 0x3000, `npages` is 3, and bit 0x100000 is cleared. -/
theorem high_map_cut : ¬ CoversUsable highMap ∧ usableEnd highMap = 0x100003000 ∧
    memHigh highMap = 0x3000 ∧ bootPages highMap = 3 ∧
    (freeAvailableMemory highMap).any (0x100000 ∈ ·) = true := by
  have hcut : memHigh highMap = 0x3000 := by decide +kernel
  refine ⟨fun h => ?_, by decide, hcut, by decide +kernel, by decide +kernel⟩
  have hhigh := h.high
  rw [hcut] at hhigh
  exact absurd hhigh (by decide)

/-- No usable memory is lost: the bit of every frame inside a usable entry is clear, frame 0 and
the frames with a byte of the bitmap excepted. -/
def LosesNothing (mmap : List MemmapEntry) (b : Boot) : Prop :=
  ∀ e ∈ mmap, e.type = .usable → ∀ k, e.base ≤ pageSize * k →
    pageSize * k + pageSize ≤ e.base + e.length → k ≠ 0 →
    (pageSize * k + pageSize ≤ b.bmPaddr ∨ b.bmPaddr + bitmapSize mmap ≤ pageSize * k) →
    bit b.pfa.bitmap k = false

/-- The last frame of the entry is not to be offered: it is frame 0 or holds the bitmap's end. -/
def MemmapEntry.LastReserved (mmap : List MemmapEntry) (e : MemmapEntry) : Prop :=
  e.base + e.length = pageSize ∨
    bitmapAddr mmap (bitmapSize mmap) = some e.base ∧ e.length < bitmapSize mmap + pageSize

def MemmapEntry.Apart (e e' : MemmapEntry) : Prop :=
  e.base + e.length ≤ e'.base ∨ e'.base + e'.length ≤ e.base

section Complete
variable {mmap : List MemmapEntry}
  (hdisjoint : mmap.Pairwise fun e e' => e.type = .usable → e'.type = .usable → e.Apart e')

include hdisjoint in
/-- A byte lies in one usable entry only. -/
theorem usable_unique {e e' : MemmapEntry} (he : e ∈ mmap) (he' : e' ∈ mmap)
    (hu : e.type = .usable) (hu' : e'.type = .usable) {x : Nat} (hx : e.base ≤ x ∧ x < e.base + e.length)
    (hx' : e'.base ≤ x ∧ x < e'.base + e'.length) : e = e' := by
  by_contra hne
  have hsymm : Std.Symm fun e e' : MemmapEntry => e.type = .usable → e'.type = .usable → e.Apart e' :=
    ⟨fun _ _ h hu hu' => (h hu' hu).symm⟩
  have hapart := hdisjoint.forall he he' hne hu hu'
  unfold MemmapEntry.Apart at hapart
  omega

section LastFrame
variable {e : MemmapEntry} {k : Nat} (he : e ∈ mmap) (hu : e.type = .usable)
  (hlo : e.base ≤ pageSize * k) (hk : pageSize * k + pageSize = e.base + e.length)
include hdisjoint he hu hlo hk

/-- Nobody frees the last frame of an entry: the one entry that has it stops short of it. -/
private theorem last_not_freed : ¬ ∃ x ∈ mmap, x.type = .usable ∧ x.Frees k := by
  rintro ⟨x, hx, hxu, hxlo, hxhi⟩
  have hsame : x = e := usable_unique hdisjoint hx he hxu hu (x := pageSize * k)
    (by unfold pageSize at *; omega) (by unfold pageSize at *; omega)
  rw [hsame] at hxhi
  omega

/-- The bitmap reaches into that frame only from the start of its own entry. -/
private theorem last_off_bitmap {e₀ : MemmapEntry} (he₀ : e₀ ∈ mmap) (hu₀ : e₀.type = .usable)
    (hlen₀ : bitmapSize mmap < e₀.length) (haddr : bitmapAddr mmap (bitmapSize mmap) = some e₀.base)
    (hlast : ¬ (bitmapAddr mmap (bitmapSize mmap) = some e.base ∧
      e.length < bitmapSize mmap + pageSize)) :
    pageSize * k + pageSize ≤ e₀.base ∨ e₀.base + bitmapSize mmap ≤ pageSize * k := by
  by_contra hin
  have hsame : e₀ = e := by
    apply usable_unique hdisjoint he₀ he hu₀ hu (x := max e₀.base (pageSize * k))
    · unfold pageSize at *
      omega
    · unfold pageSize at *
      omega
  rw [hsame] at haddr hin
  exact hlast ⟨haddr, by unfold pageSize at *; omega⟩

end LastFrame

variable (haligned : ∀ e ∈ mmap, e.type = .usable → e.base % pageSize = 0 ∧ e.length % pageSize = 0)
  (hlow : ∀ e ∈ mmap, e.type = .usable → e.base + e.length < 2 ^ 32)
include hdisjoint haligned hlow

/-- The freeing loop stops before the last frame of each entry, so nothing is lost exactly when
all these last frames are reserved anyway. -/
theorem pfaInit_loses_nothing_iff (mem : Row 32)
    (hroom : ∃ e ∈ mmap, e.type = .usable ∧ bitmapSize mmap < e.length) :
    ∃ b, pfaInit mmap mem = some b ∧ (LosesNothing mmap b ↔
      ∀ e ∈ mmap, e.type = .usable → 0 < e.length → e.LastReserved mmap) := by
  obtain ⟨freed, hf, hfm⟩ := freeAvailableMemory_spec haligned hlow
  obtain ⟨e₀, he₀, hu₀, hlen₀, haddr⟩ := bitmapAddr_room hroom
  obtain ⟨b, hb, hbm, hnp, -⟩ := pfaInit_eq mem haddr hf
  obtain ⟨hbase₀, -⟩ := haligned e₀ he₀ hu₀
  have hend₀ := hlow e₀ he₀ hu₀
  have hreserved := mem_reservedFrames mmap hbase₀ (by omega)
  have hbit : ∀ {e : MemmapEntry} {k : Nat}, e ∈ mmap → e.type = .usable →
      pageSize * k + pageSize ≤ e.base + e.length →
      (bit b.pfa.bitmap k = false ↔ k ∈ freed ∧ k ∉ reservedFrames mmap e₀.base) := by
    intro e k he hu hk
    have hlt := frame_lt_bootPages hlow he hu hk
    rw [← hnp] at hlt
    rw [← hbm]
    exact pfaInit_bit hb hf (hlt.trans_le b.pfa.npages_le)
  refine ⟨b, hb, ?_⟩
  constructor
  · intro h e he hu hpos
    obtain ⟨hbase, hmul⟩ := haligned e he hu
    by_contra hlast
    unfold MemmapEntry.LastReserved at hlast
    rw [not_or] at hlast
    obtain ⟨k, hk⟩ : ∃ k, pageSize * k + pageSize = e.base + e.length := by
      unfold pageSize at *
      exact ⟨(e.base + e.length) / 4096 - 1, by omega⟩
    have hlo : e.base ≤ pageSize * k := by
      unfold pageSize at *
      omega
    have hoff := last_off_bitmap hdisjoint he hu hlo hk he₀ hu₀ hlen₀ haddr hlast.2
    rw [← hbm] at hoff
    have hzero : k ≠ 0 := by
      rintro rfl
      exact hlast.1 (by rw [← hk, Nat.mul_zero, Nat.zero_add])
    have hclear := h e he hu k hlo hk.le hzero hoff
    obtain ⟨hfreed, -⟩ := (hbit he hu hk.le).mp hclear
    exact last_not_freed hdisjoint he hu hlo hk ((hfm k).mp hfreed)
  · intro h e he hu k hlo hhi hzero hoff
    obtain ⟨hbase, hmul⟩ := haligned e he hu
    rw [hbm] at hoff
    refine (hbit he hu hhi).mpr ⟨(hfm k).mpr ⟨e, he, hu, hlo, ?_⟩, ?_⟩
    · rcases h e he hu (by unfold pageSize at *; omega) with hpage | ⟨haddr', hshort⟩
      · unfold pageSize at *
        omega
      · rw [haddr, Option.some.injEq] at haddr'
        unfold pageSize at *
        omega
    · rw [hreserved, not_or]
      refine ⟨hzero, ?_⟩
      unfold pageSize at *
      omega

end Complete

/-- A map whose one usable entry is a single page, which the bitmap takes. -/
theorem pfaInit_loses_nothing_one_page :
    ∃ b, pfaInit [⟨0x1000, 0x1000, .usable⟩] (fun _ => 0#32) = some b ∧
      (LosesNothing [⟨0x1000, 0x1000, .usable⟩] b ↔ ∀ e ∈ [(⟨0x1000, 0x1000, .usable⟩ : MemmapEntry)],
        e.type = .usable → 0 < e.length → e.LastReserved [⟨0x1000, 0x1000, .usable⟩]) :=
  pfaInit_loses_nothing_iff (by simp) (by simp [pageSize]) (by simp) (fun _ => 0#32)
    ⟨⟨0x1000, 0x1000, .usable⟩, by simp, rfl, by decide +kernel⟩

/-- One usable megabyte above the first: its last frame is lost. -/
theorem last_frame_lost : ∃ b,
    pfaInit [⟨0x100000, 0x100000, .usable⟩] (fun _ => 0#32) = some b ∧
      bit b.pfa.bitmap 0x1ff = true ∧ ¬ LosesNothing [⟨0x100000, 0x100000, .usable⟩] b := by
  have hrun : (pfaInit [⟨0x100000, 0x100000, .usable⟩] (fun _ => 0#32)).map
      (fun b => (bit b.pfa.bitmap 0x1ff, b.bmPaddr)) = some (true, 0x100000) := by decide +kernel
  obtain ⟨b, hb, hlost⟩ := Option.map_eq_some_iff.mp hrun
  obtain ⟨hbit, hbm⟩ := Prod.mk.inj hlost
  refine ⟨b, hb, hbit, fun h => ?_⟩
  have hclear := h ⟨0x100000, 0x100000, .usable⟩ (by simp) rfl 0x1ff (by decide) (by decide)
    (by decide) (.inr (by rw [hbm]; decide +kernel))
  rw [hbit] at hclear
  cases hclear

end NyaOS.Frames
