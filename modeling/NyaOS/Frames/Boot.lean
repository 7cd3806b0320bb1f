import NyaOS.Frames.Bitmap

/-! `pfa_init`: the bitmap is placed in the memory map it describes, filled, cleared for the
usable entries and re-reserved for itself. Every bitmap access is kept in program order. -/
namespace NyaOS.Frames
open Library.WordBits

/-- The Limine memory map entry types. -/
inductive MemmapType
  | usable | reserved | acpiReclaimable | acpiNvs | badMemory | bootloaderReclaimable
  | executableAndModules | framebuffer | reservedMapped
  deriving DecidableEq

/-- Base and length are 64-bit values. -/
structure MemmapEntry where
  base : Nat
  length : Nat
  type : MemmapType

/-- `entry->base + entry->length`, added in 64 bits. -/
def MemmapEntry.stop (e : MemmapEntry) : Nat := (e.base + e.length) % 2 ^ 64

/-- One turn of the loop in `mem_high`; the running maximum is an `unsigned int`. -/
def raiseHigh (high : Nat) (e : MemmapEntry) : Nat :=
  if e.type = .usable ∧ e.stop > high then e.stop % 2 ^ 32 else high

def memHigh (mmap : List MemmapEntry) : Nat := mmap.foldl raiseHigh 0

/-- The inner loop of `free_available_memory`: the indices passed to `bm_clear`. The loop
variable has at most `2 ^ 52` values, so a loop that has not ended by then never ends. -/
def freeLoop (stop : Nat) : Nat → Nat → Option (List Nat)
  | 0, _ => none
  | fuel + 1, m =>
    if (m + pageSize) % 2 ^ 64 < stop then
      (freeLoop stop fuel ((m + pageSize) % 2 ^ 64)).map (m / pageSize % 2 ^ 32 :: ·)
    else some []

def freeAvailableMemory : List MemmapEntry → Option (List Nat)
  | [] => some []
  | e :: rest =>
    if e.type = .usable then do
      let freed ← freeLoop e.stop (2 ^ 52 + 1) e.base
      let others ← freeAvailableMemory rest
      some (freed ++ others)
    else freeAvailableMemory rest

/-- `bitmap_addr`: the physical address it stores in `bm_paddr`. The C function has no result
when no entry is large enough. -/
def bitmapAddr (mmap : List MemmapEntry) (bitmapSize : Nat) : Option Nat :=
  (mmap.find? fun e => e.type = .usable ∧ e.length > bitmapSize).map MemmapEntry.base

/-- One access to the bitmap. -/
inductive Access
  | fill (word : Nat)
  | clear (i : Nat)
  | set (i : Nat)

def Access.word : Access → Nat
  | .fill k => k
  | .clear i => i >>> 5
  | .set i => i >>> 5

def Access.apply (w : Row 32) : Access → Row 32
  | .fill k => Function.update w k 0xffffffff#32
  | .clear i => bmClear w i
  | .set i => bmSet w i

private theorem memHigh_foldl_lt (mmap : List MemmapEntry) (high : Nat) (h : high < 2 ^ 32) :
    mmap.foldl raiseHigh high < 2 ^ 32 := by
  induction mmap generalizing high with
  | nil => exact h
  | cons e rest ih =>
    rw [List.foldl_cons]
    apply ih
    unfold raiseHigh
    split
    · exact Nat.mod_lt _ (by decide)
    · exact h

theorem memHigh_lt (mmap : List MemmapEntry) : memHigh mmap < 2 ^ 32 :=
  memHigh_foldl_lt mmap 0 (by decide)

def bootPages (mmap : List MemmapEntry) : Nat := memHigh mmap / pageSize

theorem bootPages_lt (mmap : List MemmapEntry) : bootPages mmap < 2 ^ 20 := by
  have := memHigh_lt mmap
  unfold bootPages pageSize
  omega

/-- `bitmap_size`, in bytes. -/
def bitmapSize (mmap : List MemmapEntry) : Nat := ((bootPages mmap + 31) % 2 ^ 32 / 32) * 4

/-- The frames of the bitmap itself, then frame 0. -/
def reservedFrames (mmap : List MemmapEntry) (bmPaddr : Nat) : List Nat :=
  (List.range ((bitmapSize mmap + pageSize - 1) / pageSize)).map
    (fun i => (bmPaddr / pageSize + i) % 2 ^ 32) ++ [0]

/-- The allocator after `pfa_init`, the bitmap's address and the accesses made. -/
structure Boot where
  pfa : Pfa
  bmPaddr : Nat
  accesses : List Access

/-- The accesses in program order: the fill, the clears of `free_available_memory`, the
re-reservation of the bitmap's frames and frame 0. -/
def bootAccesses (mmap : List MemmapEntry) (bmPaddr : Nat) (freed : List Nat) : List Access :=
  (List.range (((bootPages mmap + 31) % 2 ^ 32) >>> 5)).map Access.fill ++
    freed.map Access.clear ++ (reservedFrames mmap bmPaddr).map Access.set

/-- `pfa_init` over the words `mem` that the bitmap's storage and what follows it held. -/
def pfaInit (mmap : List MemmapEntry) (mem : Row 32) : Option Boot := do
  let bmPaddr ← bitmapAddr mmap (bitmapSize mmap)
  let freed ← freeAvailableMemory mmap
  some ⟨⟨bootPages mmap, (bootAccesses mmap bmPaddr freed).foldl Access.apply mem, bootPages_lt mmap⟩,
    bmPaddr, bootAccesses mmap bmPaddr freed⟩

private theorem bit_fills (words : List Nat) (w : Row 32) (k : Nat) :
    bit ((words.map Access.fill).foldl Access.apply w) k = (decide (k / 32 ∈ words) || bit w k) := by
  induction words generalizing w with
  | nil => simp
  | cons a rest ih =>
    rw [List.map_cons, List.foldl_cons, ih, Access.apply, bit_update]
    by_cases ha : k / 32 = a
    · have hall : (0xffffffff#32 : BitVec 32) = BitVec.allOnes 32 := by decide
      have hk : k % 32 < 32 := Nat.mod_lt _ (by decide)
      rw [if_pos ha, hall, BitVec.getLsbD_allOnes]
      simp [ha, hk]
    · simp [ha]

private theorem bit_clears (freed : List Nat) (w : Row 32) (k : Nat) :
    bit ((freed.map Access.clear).foldl Access.apply w) k = (!decide (k ∈ freed) && bit w k) := by
  rw [List.foldl_map]
  exact bit_foldl_bmClear freed w k

private theorem bit_sets (used : List Nat) (w : Row 32) (k : Nat) :
    bit ((used.map Access.set).foldl Access.apply w) k = (decide (k ∈ used) || bit w k) := by
  rw [List.foldl_map]
  exact bit_foldl_bmSet used w k

/-- What `pfa_init` leaves in the bitmap proper: a bit is clear exactly when it was freed and
not reserved again. -/
theorem pfaInit_bit {mmap : List MemmapEntry} {mem : Row 32} {b : Boot} {freed : List Nat}
    (h : pfaInit mmap mem = some b) (hf : freeAvailableMemory mmap = some freed) {k : Nat}
    (hk : k < 32 * b.pfa.wordCount) :
    bit b.pfa.bitmap k = false ↔ k ∈ freed ∧ k ∉ reservedFrames mmap b.bmPaddr := by
  obtain ⟨p, hp, h⟩ := Option.bind_eq_some_iff.mp h
  rw [hf] at h
  obtain rfl := Option.some.inj h
  have hw : k / 32 ∈ List.range (((bootPages mmap + 31) % 2 ^ 32) >>> 5) := by
    rw [List.mem_range, Nat.div_lt_iff_lt_mul (by decide), Nat.mul_comm]
    exact hk
  rw [bootAccesses, List.foldl_append, List.foldl_append, bit_sets, bit_clears, bit_fills, decide_eq_true hw]
  simp [and_comm]

/-- Below the wrap the loop ends, and it passes the frames that end strictly before `stop`. -/
theorem freeLoop_spec (stop fuel m : Nat) (hs : stop + pageSize < 2 ^ 64) (hm : m ≤ stop)
    (hf : stop < m + pageSize * fuel) :
    ∃ freed, freeLoop stop fuel m = some freed ∧ ∀ x, x ∈ freed ↔
      ∃ i, m + pageSize * i + pageSize < stop ∧ x = (m / pageSize + i) % 2 ^ 32 := by
  unfold pageSize at *
  induction fuel generalizing m with
  | zero => omega
  | succ fuel ih =>
    rw [freeLoop, pageSize, Nat.mod_eq_of_lt (by omega)]
    by_cases hlt : m + 4096 < stop
    · obtain ⟨freed, he, hmem⟩ := ih (m + 4096) (by omega) (by omega)
      rw [if_pos hlt, he]
      refine ⟨_, rfl, fun x => ?_⟩
      rw [List.mem_cons, hmem]
      constructor
      · rintro (rfl | ⟨i, hi, rfl⟩)
        · exact ⟨0, by omega, by simp⟩
        · exact ⟨i + 1, by omega, by congr 1; omega⟩
      · rintro ⟨i, hi, rfl⟩
        cases i with
        | zero => exact .inl (by simp)
        | succ i => exact .inr ⟨i, by omega, by congr 1; omega⟩
    · rw [if_neg hlt]
      refine ⟨[], rfl, fun x => iff_of_false (by simp) ?_⟩
      rintro ⟨i, hi, -⟩
      omega

/-- Frame `k` lies in entry `e` and ends before its end. -/
def MemmapEntry.Frees (e : MemmapEntry) (k : Nat) : Prop :=
  e.base ≤ pageSize * k ∧ pageSize * k + pageSize < e.base + e.length

/-- The highest end of a usable entry. -/
def usableEnd : List MemmapEntry → Nat
  | [] => 0
  | e :: rest => if e.type = .usable then max (e.base + e.length) (usableEnd rest) else usableEnd rest

theorem le_usableEnd {mmap : List MemmapEntry} {e : MemmapEntry} (he : e ∈ mmap)
    (hu : e.type = .usable) : e.base + e.length ≤ usableEnd mmap := by
  induction mmap with
  | nil => cases he
  | cons x rest ih =>
    rw [usableEnd]
    rcases List.mem_cons.mp he with rfl | he
    · rw [if_pos hu]
      exact le_max_left _ _
    · have hle := ih he
      split
      · exact hle.trans (le_max_right _ _)
      · exact hle

section LowMap
variable {mmap : List MemmapEntry}
  (haligned : ∀ e ∈ mmap, e.type = .usable → e.base % pageSize = 0 ∧ e.length % pageSize = 0)
  (hlow : ∀ e ∈ mmap, e.type = .usable → e.base + e.length < 2 ^ 32)

include hlow in
/-- Over a map below 4 GiB every freeing loop ends; it frees page by page from the entry's base. -/
theorem freeAvailableMemory_low : ∃ freed, freeAvailableMemory mmap = some freed ∧
    ∀ k, k ∈ freed ↔ ∃ e ∈ mmap, e.type = .usable ∧
      ∃ i, e.base + pageSize * i + pageSize < e.base + e.length ∧ k = e.base / pageSize + i := by
  induction mmap with
  | nil => exact ⟨[], rfl, by simp⟩
  | cons e rest ih =>
    obtain ⟨others, ho, hom⟩ := ih fun x hx => hlow x (List.mem_cons_of_mem _ hx)
    rw [freeAvailableMemory]
    by_cases hu : e.type = .usable
    · have hl := hlow e List.mem_cons_self hu
      have hstop : e.stop = e.base + e.length := Nat.mod_eq_of_lt (by omega)
      obtain ⟨freed, hf, hfm⟩ := freeLoop_spec e.stop (2 ^ 52 + 1) e.base
        (by unfold pageSize; omega) (by omega) (by unfold pageSize; omega)
      refine ⟨freed ++ others, by rw [if_pos hu, hf, ho]; rfl, fun k => ?_⟩
      rw [List.mem_append, hfm, hom, List.exists_mem_cons_iff]
      apply or_congr
      · rw [hstop]
        constructor
        · rintro ⟨i, hi, rfl⟩
          refine ⟨hu, i, hi, Nat.mod_eq_of_lt ?_⟩
          unfold pageSize at *
          omega
        · rintro ⟨-, i, hi, rfl⟩
          refine ⟨i, hi, (Nat.mod_eq_of_lt ?_).symm⟩
          unfold pageSize at *
          omega
      · rfl
    · refine ⟨others, by simp [hu, ho], fun k => ?_⟩
      rw [hom, List.exists_mem_cons_iff]
      simp [hu]

include haligned hlow in
/-- Over a page-aligned map the frames freed are those inside. -/
theorem freeAvailableMemory_spec : ∃ freed, freeAvailableMemory mmap = some freed ∧
    ∀ k, k ∈ freed ↔ ∃ e ∈ mmap, e.type = .usable ∧ e.Frees k := by
  obtain ⟨freed, hf, hfm⟩ := freeAvailableMemory_low hlow
  refine ⟨freed, hf, fun k => (hfm k).trans ?_⟩
  refine exists_congr fun e => and_congr_right fun he => and_congr_right fun hu => ?_
  have ha := (haligned e he hu).1
  unfold MemmapEntry.Frees pageSize at *
  constructor
  · rintro ⟨i, hi, rfl⟩
    constructor <;> omega
  · rintro ⟨h1, h2⟩
    exact ⟨k - e.base / 4096, by omega, by omega⟩

private theorem memHigh_foldl_eq (mmap : List MemmapEntry) (high : Nat)
    (hlow : ∀ e ∈ mmap, e.type = .usable → e.base + e.length < 2 ^ 32) :
    mmap.foldl raiseHigh high = max high (usableEnd mmap) := by
  induction mmap generalizing high with
  | nil => simp [usableEnd]
  | cons e rest ih =>
    rw [List.foldl_cons, ih _ fun x hx => hlow x (List.mem_cons_of_mem _ hx), usableEnd]
    by_cases hu : e.type = .usable
    · have hl := hlow e List.mem_cons_self hu
      have hstop : e.stop = e.base + e.length := Nat.mod_eq_of_lt (by omega)
      have hstep : raiseHigh high e = max high (e.base + e.length) := by
        rw [raiseHigh, hstop, Nat.mod_eq_of_lt hl]
        split
        · next h => exact (max_eq_right h.2.le).symm
        · next h => exact (max_eq_left (by simpa [hu] using h)).symm
      rw [hstep, if_pos hu, max_assoc]
    · rw [raiseHigh, if_neg (fun h => hu h.1), if_neg hu]

include hlow in
/-- Below 4 GiB the 32-bit maximum is not cut. -/
theorem memHigh_eq : memHigh mmap = usableEnd mmap := by
  rw [memHigh, memHigh_foldl_eq mmap 0 hlow, Nat.zero_max]

include hlow in
theorem frame_lt_bootPages {e : MemmapEntry} (he : e ∈ mmap) (hu : e.type = .usable) {k : Nat}
    (hk : pageSize * k + pageSize ≤ e.base + e.length) : k < bootPages mmap := by
  have hend := le_usableEnd he hu
  rw [← memHigh_eq hlow] at hend
  unfold bootPages pageSize at *
  omega

end LowMap

/-- With a usable entry longer than the bitmap, `bitmap_addr` finds one. -/
theorem bitmapAddr_room {mmap : List MemmapEntry}
    (hroom : ∃ e ∈ mmap, e.type = .usable ∧ bitmapSize mmap < e.length) :
    ∃ e ∈ mmap, e.type = .usable ∧ bitmapSize mmap < e.length ∧
      bitmapAddr mmap (bitmapSize mmap) = some e.base := by
  obtain ⟨e, hfind⟩ : ∃ e, (mmap.find? fun e => e.type = .usable ∧ e.length > bitmapSize mmap) = some e := by
    obtain ⟨e, he, hu, hl⟩ := hroom
    rw [← Option.isSome_iff_exists, List.find?_isSome]
    exact ⟨e, he, by simp [hu, hl]⟩
  obtain ⟨hu, hlen⟩ : e.type = .usable ∧ e.length > bitmapSize mmap := by
    simpa using List.find?_some hfind
  refine ⟨e, List.mem_of_find?_eq_some hfind, hu, hlen, ?_⟩
  rw [bitmapAddr, hfind]
  rfl

/-- The frames reserved: frame 0 and those with a byte of the bitmap. -/
theorem mem_reservedFrames (mmap : List MemmapEntry) {p : Nat} (ha : p % pageSize = 0)
    (hlt : p + bitmapSize mmap < 2 ^ 32) (k : Nat) : k ∈ reservedFrames mmap p ↔
      k = 0 ∨ p ≤ pageSize * k ∧ pageSize * k < p + bitmapSize mmap := by
  simp only [reservedFrames, List.mem_append, List.mem_map, List.mem_range, List.mem_singleton]
  rw [or_comm]
  apply or_congr Iff.rfl
  unfold pageSize at *
  constructor
  · rintro ⟨i, hi, rfl⟩
    constructor <;> omega
  · rintro ⟨h1, h2⟩
    exact ⟨k - p / 4096, by omega, by omega⟩

/-- `pfa_init` once the bitmap is placed and the loops have ended. -/
theorem pfaInit_eq {mmap : List MemmapEntry} (mem : Row 32) {p : Nat} {freed : List Nat}
    (hp : bitmapAddr mmap (bitmapSize mmap) = some p) (hf : freeAvailableMemory mmap = some freed) :
    ∃ b, pfaInit mmap mem = some b ∧ b.bmPaddr = p ∧ b.pfa.npages = bootPages mmap ∧
      b.accesses = bootAccesses mmap p freed := by
  refine ⟨⟨⟨bootPages mmap, (bootAccesses mmap p freed).foldl Access.apply mem, bootPages_lt mmap⟩,
    p, bootAccesses mmap p freed⟩, ?_, rfl, rfl, rfl⟩
  rw [pfaInit, hp, hf]
  rfl

/-- `pfa_init` never offers unusable memory. Over a page-aligned map below 4 GiB with room for
the bitmap it returns; a clear bit names a frame that lies inside a usable entry, is not
frame 0 and shares no byte with the bitmap; and every access stays in the bitmap's words. -/
theorem pfaInit_offers_usable (mmap : List MemmapEntry) (mem : Row 32)
    (haligned : ∀ e ∈ mmap, e.type = .usable → e.base % pageSize = 0 ∧ e.length % pageSize = 0)
    (hlow : ∀ e ∈ mmap, e.type = .usable → e.base + e.length < 2 ^ 32)
    (hroom : ∃ e ∈ mmap, e.type = .usable ∧ bitmapSize mmap < e.length) :
    ∃ b, pfaInit mmap mem = some b ∧
      (∀ k < 32 * b.pfa.wordCount, bit b.pfa.bitmap k = false →
        (∃ e ∈ mmap, e.type = .usable ∧ e.base ≤ pageSize * k ∧
          pageSize * k + pageSize ≤ e.base + e.length) ∧
        k ≠ 0 ∧
        (pageSize * k + pageSize ≤ b.bmPaddr ∨ b.bmPaddr + bitmapSize mmap ≤ pageSize * k)) ∧
      4 * b.pfa.wordCount = bitmapSize mmap ∧ ∀ x ∈ b.accesses, x.word < b.pfa.wordCount := by
  obtain ⟨freed, hf, hfm⟩ := freeAvailableMemory_spec haligned hlow
  obtain ⟨e, he, hu, hlen, haddr⟩ := bitmapAddr_room hroom
  obtain ⟨hbase, hmul⟩ := haligned e he hu
  have hend := hlow e he hu
  obtain ⟨b, hb, hbm, hnp, hacc⟩ := pfaInit_eq mem haddr hf
  have hwc := b.pfa.wordCount_eq
  rw [hnp] at hwc
  have hlt := bootPages_lt mmap
  have hsize : 4 * b.pfa.wordCount = bitmapSize mmap := by
    rw [bitmapSize, hwc, Nat.mod_eq_of_lt (by omega), Nat.mul_comm]
  have hreserved := mem_reservedFrames mmap hbase (by omega)
  have hin : ∀ {x : MemmapEntry} {k : Nat}, x ∈ mmap → x.type = .usable →
      pageSize * k + pageSize ≤ x.base + x.length → k >>> 5 < b.pfa.wordCount := by
    intro x k hx hxu hk
    have := frame_lt_bootPages hlow hx hxu hk
    rw [shiftRight_five, hwc]
    omega
  refine ⟨b, hb, fun k hk hclear => ?_, hsize, fun x hx => ?_⟩
  · obtain ⟨hfreed, hnot⟩ := (pfaInit_bit hb hf hk).mp hclear
    obtain ⟨x, hx, hxu, h1, h2⟩ := (hfm k).mp hfreed
    rw [hbm, hreserved, not_or] at hnot
    refine ⟨⟨x, hx, hxu, h1, h2.le⟩, hnot.1, ?_⟩
    rw [hbm]
    have := hnot.2
    unfold pageSize at *
    omega
  · rw [hacc, bootAccesses, List.mem_append, List.mem_append] at hx
    rcases hx with (hx | hx) | hx
    · obtain ⟨k, hk, rfl⟩ := List.mem_map.mp hx
      rw [Pfa.wordCount, hnp]
      exact List.mem_range.mp hk
    · obtain ⟨k, hk, rfl⟩ := List.mem_map.mp hx
      obtain ⟨y, hy, hyu, -, h2⟩ := (hfm k).mp hk
      exact hin hy hyu h2.le
    · obtain ⟨k, hk, rfl⟩ := List.mem_map.mp hx
      rcases (hreserved k).mp hk with rfl | ⟨h1, h2⟩
      · exact hin he hu (k := 0) (by unfold pageSize at *; omega)
      · exact hin he hu (by unfold pageSize at *; omega)

/-- One usable megabyte above the first: the bitmap sits at its start. -/
theorem pfaInit_offers_usable_megabyte :
    ∃ b, pfaInit [⟨0, 0x9f000, .reserved⟩, ⟨0x100000, 0x100000, .usable⟩] (fun _ => 0#32) = some b ∧
      ∀ x ∈ b.accesses, x.word < b.pfa.wordCount := by
  obtain ⟨b, hb, -, -, hacc⟩ := pfaInit_offers_usable
    [⟨0, 0x9f000, .reserved⟩, ⟨0x100000, 0x100000, .usable⟩] (fun _ => 0#32)
    (by simp [pageSize]) (by simp) ⟨⟨0x100000, 0x100000, .usable⟩, by simp, rfl, by decide +kernel⟩
  exact ⟨b, hb, hacc⟩

end NyaOS.Frames
