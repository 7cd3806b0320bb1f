import NyaOS.Frames.Boot
import NyaOS.Library.CountedLoop
import NyaOS.Paging.Map

/-! `paging_init`: the kernel image in 4 KiB pages, then the direct map in 2 MiB pages. -/
namespace NyaOS.Paging
open Library.RadixTree Library.CountedLoop Library.WordBits
open Frames (pageSize MemmapEntry)

/-- What `paging_init` reads: the memory map, the direct map's offset, the executable's bases
and the linker's `kernel_start_virtual` and `kernel_end_virtual`. All are 64-bit values. -/
structure BootInfo where
  mmap : List MemmapEntry
  offset : Nat
  virtualBase : Nat
  physicalBase : Nat
  kernelStart : Nat
  kernelEnd : Nat

/-- `(uint64_t)p - virtual_base + physical_base`. -/
def BootInfo.kernelPaddr (b : BootInfo) (p : Nat) : Nat :=
  (p + (2 ^ 64 - b.virtualBase) + b.physicalBase) % 2 ^ 64

/-- The loop over the memory map and the rounding after it. -/
def BootInfo.top (b : BootInfo) : Nat :=
  let top := b.mmap.foldl (fun top e => if e.stop > top then e.stop else top) 0
  (BitVec.ofNat 64 (top + 0x1fffff) &&& ~~~0x1fffff#64).toNat

/-- The call the kernel loop makes for `p`. -/
def BootInfo.kernelCall (b : BootInfo) (p : Nat) : Call := ⟨b.kernelPaddr p, p, 0#32⟩

/-- The body of the loop over the direct map. -/
def mapRegions (kalloc : Nat → Nat) (offset : Nat) (s : Pager) (ps : List Nat) : Pager :=
  ps.foldl (fun s p => mapPage2m kalloc s p ((p + offset) % 2 ^ 64) 0) s

/-- The state before the loops: `pml4` in the first frame taken, cleared. -/
def cleared (kalloc : Nat → Nat) (mem : PhysMem) : Pager :=
  zeroTable ⟨mem, kalloc 0 / pageSize, 1, []⟩ (kalloc 0)

/-- `paging_init`; the page table it loads into `cr3` is `pml4`. -/
def pagingInit (kalloc : Nat → Nat) (b : BootInfo) (mem : PhysMem) : Option Pager := do
  let pages ← forValues 64 b.kernelEnd pageSize (2 ^ 64 + 1) b.kernelStart
  let s := mapPages kalloc (cleared kalloc mem) (pages.map b.kernelCall)
  let regions ← forValues 64 b.top 0x200000 (2 ^ 64 + 1) 0
  some (mapRegions kalloc b.offset s regions)

/-- The largest end of an entry, rounded up to 2 MiB. -/
def physTop (mmap : List MemmapEntry) : Nat :=
  ((mmap.map fun e => e.base + e.length).foldr max 0 + 0x1fffff) / 0x200000 * 0x200000

def BootInfo.InDirect (b : BootInfo) (u : Nat) : Prop :=
  b.offset ≤ u ∧ u < b.offset + physTop b.mmap

/-- What Limine and the linker script promise. The kernel's physical addresses are physical
addresses, of 52 bits. -/
structure BootInfo.Valid (b : BootInfo) : Prop where
  ends : ∀ e ∈ b.mmap, e.base + e.length < 2 ^ 47
  virtual_aligned : b.virtualBase % 4096 = 0
  virtual_le : b.virtualBase ≤ 2 ^ 64
  physical_aligned : b.physicalBase % 4096 = 0
  start_aligned : b.kernelStart % 4096 = 0
  offset_aligned : b.offset % 0x200000 = 0
  kernel_no_wrap : b.kernelEnd + 4096 ≤ 2 ^ 64
  kernel_canonical : ∀ v, b.kernelStart ≤ v → v < b.kernelEnd → Canonical v
  kernel_physical : ∀ v, b.kernelStart ≤ v → v < b.kernelEnd → b.kernelPaddr v < 2 ^ 52
  direct_no_wrap : b.offset + physTop b.mmap ≤ 2 ^ 64
  direct_canonical : ∀ v, b.InDirect v → Canonical v
  apart : ∀ v w, b.kernelStart ≤ v → v < b.kernelEnd → b.InDirect w → v / 2 ^ 21 ≠ w / 2 ^ 21

private theorem foldl_stop_eq (mmap : List MemmapEntry) (h : ∀ e ∈ mmap, e.base + e.length < 2 ^ 47)
    (top : Nat) : mmap.foldl (fun top e => if e.stop > top then e.stop else top) top =
      max top ((mmap.map fun e => e.base + e.length).foldr max 0) := by
  induction mmap generalizing top with
  | nil => simp
  | cons e rest ih =>
    have he := h e (by simp)
    have hstop : e.stop = e.base + e.length := Nat.mod_eq_of_lt (by omega)
    rw [List.foldl_cons, ih (fun e he => h e (by simp [he])), hstop, List.map_cons, List.foldr_cons]
    split <;> omega

/-- The code's `top` is the rounded largest end. -/
theorem BootInfo.Valid.top_eq {b : BootInfo} (hb : b.Valid) :
    b.top = physTop b.mmap ∧ physTop b.mmap ≤ 2 ^ 47 := by
  have hlt : ∀ l : List MemmapEntry, (∀ e ∈ l, e.base + e.length < 2 ^ 47) →
      (l.map fun e => e.base + e.length).foldr max 0 < 2 ^ 47 := by
    intro l hl
    induction l with
    | nil => decide
    | cons e rest ih =>
      rw [List.map_cons, List.foldr_cons]
      exact max_lt (hl e (by simp)) (ih fun e he => hl e (by simp [he]))
  have hmax := hlt b.mmap hb.ends
  constructor
  · rw [BootInfo.top, physTop, foldl_stop_eq b.mmap hb.ends, Nat.zero_max,
      show (0x1fffff#64 : BitVec 64) = BitVec.ofNat 64 (2 ^ 21 - 1) by decide]
    simp only [toNat_and_not_lowMask _ (show 21 ≤ 64 by decide)]
    rw [BitVec.toNat_ofNat, Nat.mod_eq_of_lt (by omega)]
    rfl
  · unfold physTop
    omega

section DirectMap
variable {kalloc : Nat → Nat} {m n : Nat} {s : Pager} {offset : Nat}

theorem mapRegions_snoc (kalloc : Nat → Nat) (offset : Nat) (s : Pager) (ps : List Nat) (p : Nat) :
    mapRegions kalloc offset s (ps ++ [p]) =
      mapPage2m kalloc (mapRegions kalloc offset s ps) p ((p + offset) % 2 ^ 64) 0 := by
  rw [mapRegions, List.foldl_append]
  rfl

theorem next_le_mapRegions (kalloc : Nat → Nat) (offset : Nat) (s : Pager) (ps : List Nat) :
    s.next ≤ (mapRegions kalloc offset s ps).next := by
  induction ps using List.reverseRecOn with
  | nil => exact le_rfl
  | append_singleton ps p ih =>
    rw [mapRegions_snoc]
    exact ih.trans (next_le_mapPage2m kalloc _ _ _ _)

/-- Each region gets its own leaf, and addresses in no region keep theirs. -/
theorem mapRegions_leaves (hf : FreshFrames kalloc m n) (hT : Tree kalloc m n s)
    (hoff : offset % 2 ^ 21 = 0) (ps : List Nat)
    (hps : ∀ p ∈ ps, p % 2 ^ 21 = 0 ∧ p + offset < 2 ^ 64 ∧ Canonical (p + offset))
    (hn : (mapRegions kalloc offset s ps).next ≤ n) :
    Tree kalloc m n (mapRegions kalloc offset s ps) ∧ ∀ u, Canonical u →
      (∀ p ∈ ps, u / 2 ^ 21 = (p + offset) / 2 ^ 21 →
        leafAt (mapRegions kalloc offset s ps) (dirPath u) (index 21 u) = some (largeEntry p 0) ∧
        leafAt (mapRegions kalloc offset s ps) (tablePath u) (index 12 u) = none) ∧
      ((∀ p ∈ ps, u / 2 ^ 21 ≠ (p + offset) / 2 ^ 21) →
        leafAt (mapRegions kalloc offset s ps) (dirPath u) (index 21 u) =
          leafAt s (dirPath u) (index 21 u) ∧
        leafAt (mapRegions kalloc offset s ps) (tablePath u) (index 12 u) =
          leafAt s (tablePath u) (index 12 u)) := by
  induction ps using List.reverseRecOn with
  | nil => exact ⟨hT, fun u _ => ⟨fun p hp => (nomatch hp), fun _ => ⟨rfl, rfl⟩⟩⟩
  | append_singleton ps p ih =>
    obtain ⟨hpa, hplt, hpc⟩ := hps p (by simp)
    rw [mapRegions_snoc, Nat.mod_eq_of_lt hplt] at hn ⊢
    obtain ⟨hT₁, hleaves⟩ := ih (fun q hq => hps q (by simp [hq]))
      ((next_le_mapPage2m kalloc _ _ _ _).trans hn)
    refine ⟨(mapPage2m_spec hf hT₁ hn).1, fun u hu => ?_⟩
    obtain ⟨hdir, htab⟩ := mapPage2m_leaves hf hT₁ hpc hn hu
    obtain ⟨hin, hout⟩ := hleaves u hu
    rw [hdir, htab]
    constructor
    · intro q hq hreg
      by_cases hsame : u / 2 ^ 21 = (p + offset) / 2 ^ 21
      · have hqa := (hps q hq).1
        have hqp : q = p := by omega
        rw [if_pos hsame, if_pos hsame, hqp]
        exact ⟨rfl, rfl⟩
      · rw [if_neg hsame, if_neg hsame]
        rcases List.mem_append.mp hq with hq | hq
        · exact hin q hq hreg
        · rw [List.mem_singleton] at hq
          exact absurd (hq ▸ hreg) hsame
    · intro hnone
      have hp := hnone p (by simp)
      rw [if_neg hp, if_neg hp]
      exact hout fun q hq => hnone q (by simp [hq])

end DirectMap

theorem FreshFrames.mono {kalloc : Nat → Nat} {m m' n : Nat} (hf : FreshFrames kalloc m n)
    (hm : m ≤ m') : FreshFrames kalloc m' n where
  aligned k hk := hf.aligned k (hm.trans hk)
  lt k hk := hf.lt k (hm.trans hk)
  distinct j k hj hjn hk := hf.distinct j k (hm.trans hj) hjn (hm.trans hk)

section Boot
variable {b : BootInfo} (hb : b.Valid)
include hb

/-- The loop over the kernel image ends and sees every page that meets it. -/
private theorem kernelPages : ∃ pages,
    forValues 64 b.kernelEnd pageSize (2 ^ 64 + 1) b.kernelStart = some pages ∧
    ∀ x, x ∈ pages ↔ b.kernelStart ≤ x ∧ x < b.kernelEnd ∧ x % 4096 = 0 := by
  have hwrap := hb.kernel_no_wrap
  have hstart := hb.start_aligned
  obtain ⟨pages, hpages, hmem⟩ := forValues_spec 64 b.kernelEnd
    (by decide : 0 < pageSize) (2 ^ 64 + 1) b.kernelStart (by omega) (by
      intro k hk
      unfold pageSize at hk ⊢
      omega)
  refine ⟨pages, hpages, fun x => ?_⟩
  rw [hmem]
  constructor
  · rintro ⟨hx, k, rfl⟩
    unfold pageSize at hx ⊢
    omega
  · rintro ⟨hlo, hhi, ha⟩
    refine ⟨hhi, (x - b.kernelStart) / pageSize, ?_⟩
    unfold pageSize
    omega

/-- The loop over the direct map ends and sees every 2 MiB region below the top. -/
private theorem directRegions : ∃ regions,
    forValues 64 b.top 0x200000 (2 ^ 64 + 1) 0 = some regions ∧
    ∀ x, x ∈ regions ↔ x < physTop b.mmap ∧ x % 2 ^ 21 = 0 := by
  obtain ⟨htop, hle⟩ := hb.top_eq
  rw [htop]
  obtain ⟨regions, hregions, hmem⟩ := forValues_spec 64 (physTop b.mmap)
    (by decide : 0 < 0x200000) (2 ^ 64 + 1) 0 (by omega) (by
      intro k hk
      omega)
  refine ⟨regions, hregions, fun x => ?_⟩
  rw [hmem]
  constructor
  · rintro ⟨hx, k, rfl⟩
    omega
  · rintro ⟨hx, ha⟩
    exact ⟨hx, x / 0x200000, by omega⟩

theorem kernelPaddr_page {u p : Nat} (hp : b.kernelPaddr p < 2 ^ 52) (ha : p % 4096 = 0)
    (hu : p / 4096 = u / 4096) :
    b.kernelPaddr p % 4096 = 0 ∧ b.kernelPaddr p + u % 4096 = b.kernelPaddr u := by
  have hv := hb.virtual_aligned
  have hv' := hb.virtual_le
  have hpb := hb.physical_aligned
  unfold BootInfo.kernelPaddr at hp ⊢
  omega

end Boot

private theorem pagingInit_eq (kalloc : Nat → Nat) (b : BootInfo) (mem : PhysMem) {pages regions : List Nat}
    (hpages : forValues 64 b.kernelEnd pageSize (2 ^ 64 + 1) b.kernelStart = some pages)
    (hregions : forValues 64 b.top 0x200000 (2 ^ 64 + 1) 0 = some regions) :
    pagingInit kalloc b mem = some (mapRegions kalloc b.offset
      (mapPages kalloc (cleared kalloc mem) (pages.map b.kernelCall)) regions) := by
  rw [pagingInit, hpages, hregions]
  rfl

/-- The cleared `pml4` is a tree without leaves, apart from every later frame. -/
theorem cleared_zero (kalloc : Nat → Nat) (mem : PhysMem) (i : Fin 512) :
    (cleared kalloc mem).mem (cleared kalloc mem).pml4 i = 0#64 := by
  rw [cleared, (zeroTable_fields _ _).1, zeroTable_mem]
  simp [blank]

theorem cleared_apart {kalloc : Nat → Nat} {n : Nat} (hf : FreshFrames kalloc 0 n)
    (mem : PhysMem) : ∀ k, (cleared kalloc mem).next ≤ k → k < n →
      kalloc k ≠ pageSize * (cleared kalloc mem).pml4 := by
  intro k hk hkn h
  rw [cleared, (zeroTable_fields _ _).2] at hk
  rw [cleared, (zeroTable_fields _ _).1] at h
  have ha := hf.aligned 0 le_rfl (by omega)
  have h0 : kalloc k = kalloc 0 := by
    rw [h, Nat.mul_div_cancel' (Nat.dvd_of_mod_eq_zero ha)]
  have := hf.distinct k 0 (Nat.zero_le k) hkn le_rfl (by omega) h0
  change 1 ≤ k at hk
  omega

/-- `paging_init` is a run of `map_page` and then of `map_page_2m`, on the direct map's regions. -/
theorem pagingInit_runs {b : BootInfo} (hb : b.Valid) (kalloc : Nat → Nat) (mem : PhysMem) :
    ∃ pages regions : List Nat, pagingInit kalloc b mem = some (mapRegions kalloc b.offset
        (mapPages kalloc (cleared kalloc mem) (pages.map b.kernelCall)) regions) ∧
      (∀ c ∈ pages.map b.kernelCall, c.Valid) ∧
      ∀ p ∈ regions, p % 2 ^ 21 = 0 ∧ p + b.offset < 2 ^ 64 ∧ b.InDirect (p + b.offset) := by
  obtain ⟨pages, hpages, hpmem⟩ := kernelPages hb
  obtain ⟨regions, hregions, hrmem⟩ := directRegions hb
  refine ⟨pages, regions, pagingInit_eq kalloc b mem hpages hregions, fun c hc => ?_, fun p hp => ?_⟩
  · obtain ⟨p, hp, rfl⟩ := List.mem_map.mp hc
    obtain ⟨hlo, hhi, ha⟩ := (hpmem p).mp hp
    have h52 := hb.kernel_physical p hlo hhi
    exact ⟨hb.kernel_canonical p hlo hhi, (kernelPaddr_page hb h52 ha rfl).1, h52⟩
  · obtain ⟨hlt, ha⟩ := (hrmem p).mp hp
    have hw := hb.direct_no_wrap
    exact ⟨ha, by omega, by omega, by omega⟩

/-- Four MiB of memory, the direct map in the upper half and a kernel of a page and a half. -/
def smallBoot : BootInfo where
  mmap := [⟨0, 0x400000, .usable⟩]
  offset := 0xffff800000000000
  virtualBase := 0xffffffff80000000
  physicalBase := 0x200000
  kernelStart := 0xffffffff80000000
  kernelEnd := 0xffffffff80001800

theorem smallBoot_valid : smallBoot.Valid := by
  have htop : physTop smallBoot.mmap = 0x400000 := by decide
  refine ⟨?_, by decide, by decide, by decide, by decide, by decide, by decide, ?_, ?_, ?_, ?_, ?_⟩
  · intro e he
    rw [List.mem_singleton.mp he]
    decide
  · intro v hlo hhi
    simp only [smallBoot] at hlo hhi
    exact .inr ⟨by omega, by omega⟩
  · intro v hlo hhi
    simp only [smallBoot, BootInfo.kernelPaddr] at hlo hhi ⊢
    omega
  · rw [htop]
    decide
  · rintro v ⟨hlo, hhi⟩
    rw [htop] at hhi
    simp only [smallBoot] at hlo hhi
    exact .inr ⟨by omega, by omega⟩
  · rintro v w hvlo hvhi ⟨hlo, hhi⟩
    rw [htop] at hhi
    simp only [smallBoot] at hvlo hvhi hlo hhi
    omega

end NyaOS.Paging
