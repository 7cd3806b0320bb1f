import NyaOS.Library.RadixTree
import NyaOS.Library.WordBits
import NyaOS.Frames.Bitmap

/-! The page tables of `pager.c` over physical memory, and the walk the processor makes.
Tables are reached through the direct map, so a table pointer `paddr + offset` is the frame at
`paddr`. Memory is taken as frames of 512 words, which is how the pager reads and writes it. -/
namespace NyaOS.Paging
open Library.RadixTree Library.WordBits
open Frames (pageSize)

abbrev PhysMem := Heap Nat (Fin 512) (BitVec 64)

/-- `(vaddr >> shift) & 0x1ff`. -/
def index (shift vaddr : Nat) : Fin 512 :=
  ⟨(vaddr >>> shift) &&& 0x1ff, Nat.and_lt_two_pow _ (by decide : 0x1ff < 2 ^ 9)⟩

/-- Physical memory, the frame of `pml4`, the number of `kalloc_frame` calls made so far and
the words stored to, latest first. -/
structure Pager where
  mem : PhysMem
  pml4 : Nat
  next : Nat
  stores : List (Nat × Fin 512)

def Pager.store (s : Pager) (t : Nat) (i : Fin 512) (e : BitVec 64) : Pager :=
  { s with mem := put s.mem t i e, stores := (t, i) :: s.stores }

/-- `zero_table`, for a page-aligned address. -/
def zeroTable (s : Pager) (paddr : Nat) : Pager :=
  (List.finRange 512).foldl (fun s i => s.store (paddr / pageSize) i 0#64) s

/-- The leaf `map_page_2m` writes: page size, present and writable are always set. -/
def largeEntry (paddr flags : Nat) : BitVec 64 :=
  (BitVec.ofNat 64 paddr &&& ~~~0x1fffff#64) ||| BitVec.ofNat 64 flags ||| 0x80#64 ||| 0x3#64

/-- The leaf `map_page` writes; `flags` is an `unsigned int`. -/
def pageEntry (paddr : Nat) (flags : BitVec 32) : BitVec 64 :=
  BitVec.ofNat 64 paddr ||| (flags &&& 0xfff#32).setWidth 64 ||| 0x3#64

section Code
variable (kalloc : Nat → Nat)

/-- The step both mapping routines repeat at each level: make the table if its entry is not
present, then read its address out of the entry. `kalloc k` is the result of call `k`. -/
def descend (s : Pager) (table : Nat) (i : Fin 512) : Pager × Nat :=
  let s := if s.mem table i &&& 0x1#64 = 0#64 then
      (zeroTable { s with next := s.next + 1 } (kalloc s.next)).store table i
        (BitVec.ofNat 64 (kalloc s.next) ||| 0x3#64)
    else s
  (s, (s.mem table i &&& ~~~0xfff#64).toNat / pageSize)

def mapPage2m (s : Pager) (paddr vaddr flags : Nat) : Pager :=
  let pdpt := descend kalloc s s.pml4 (index 39 vaddr)
  let pd := descend kalloc pdpt.1 pdpt.2 (index 30 vaddr)
  pd.1.store pd.2 (index 21 vaddr) (largeEntry paddr flags)

def mapPage (s : Pager) (paddr vaddr : Nat) (flags : BitVec 32) : Pager :=
  let pdpt := descend kalloc s s.pml4 (index 39 vaddr)
  let pd := descend kalloc pdpt.1 pdpt.2 (index 30 vaddr)
  let pt := descend kalloc pd.1 pd.2 (index 21 vaddr)
  pt.1.store pt.2 (index 12 vaddr) (pageEntry paddr flags)

end Code

/-! The processor's view of an entry: bit 0 present, bit 1 writable, bit 7 page size, and the
frame in bits 12 to 51. -/

def present (e : BitVec 64) : Bool := e.getLsbD 0
def writable (e : BitVec 64) : Bool := e.getLsbD 1
def large (e : BitVec 64) : Bool := e.getLsbD 7
def frameOf (e : BitVec 64) : Nat := e.toNat / 4096 % 2 ^ 40

/-- The table an entry points to. -/
def child (e : BitVec 64) : Option Nat := if present e && !large e then some (frameOf e) else none

/-- A translation: the physical address, the low twelve bits of the leaf entry, and whether
every level allows writing. -/
structure Translation where
  paddr : Nat
  flags : Nat
  writable : Bool
  deriving DecidableEq

def leaf (e : BitVec 64) (size u : Nat) (rights : Bool) : Option Translation :=
  if present e then
    some ⟨frameOf e * 4096 / size * size + u % size, e.toNat % 4096, rights && writable e⟩
  else none

/-- The four-level walk with 1 GiB, 2 MiB and 4 KiB leaves. -/
def walk (m : PhysMem) (root u : Nat) : Option Translation := do
  let e4 := m root (index 39 u)
  let pdpt ← child e4
  let e3 := m pdpt (index 30 u)
  if large e3 then leaf e3 (2 ^ 30) u (writable e4) else
  let pd ← child e3
  let e2 := m pd (index 21 u)
  if large e2 then leaf e2 (2 ^ 21) u (writable e4 && writable e3) else
  let pt ← child e2
  leaf (m pt (index 12 u)) 4096 u (writable e4 && writable e3 && writable e2)

/-- The sign extension of bit 47. -/
def Canonical (u : Nat) : Prop := u < 2 ^ 47 ∨ 2 ^ 64 - 2 ^ 47 ≤ u ∧ u < 2 ^ 64

/-- The entry for frame `k` with the low bits `x`. -/
def entryOf (k x : Nat) : BitVec 64 := BitVec.ofNat 64 (4096 * k + x)

theorem index_val (shift u : Nat) : (index shift u).val = u / 2 ^ shift % 512 := by
  change (u >>> shift) &&& (2 ^ 9 - 1) = _
  rw [Nat.and_two_pow_sub_one_eq_mod, Nat.shiftRight_eq_div_pow]

/-- Two canonical addresses with the same four indices lie in the same page. -/
theorem index_eq_iff {u v : Nat} (hu : Canonical u) (hv : Canonical v) :
    (index 39 u = index 39 v ∧ index 30 u = index 30 v ∧ index 21 u = index 21 v ∧
      index 12 u = index 12 v) ↔ u / 4096 = v / 4096 := by
  simp only [Fin.ext_iff, index_val]
  unfold Canonical at hu hv
  constructor
  · rintro ⟨h1, h2, h3, h4⟩
    omega
  · intro h
    refine ⟨?_, ?_, ?_, ?_⟩ <;> omega

/-- With the same upper three indices they lie in the same 2 MiB region. -/
theorem index_eq_iff_large {u v : Nat} (hu : Canonical u) (hv : Canonical v) :
    (index 39 u = index 39 v ∧ index 30 u = index 30 v ∧ index 21 u = index 21 v) ↔
      u / 2 ^ 21 = v / 2 ^ 21 := by
  simp only [Fin.ext_iff, index_val]
  unfold Canonical at hu hv
  constructor
  · rintro ⟨h1, h2, h3⟩
    omega
  · intro h
    refine ⟨?_, ?_, ?_⟩ <;> omega

@[simp] theorem Pager.store_mem (s : Pager) (t : Nat) (i : Fin 512) (e : BitVec 64) :
    (s.store t i e).mem = put s.mem t i e := rfl

@[simp] theorem Pager.store_pml4 (s : Pager) (t : Nat) (i : Fin 512) (e : BitVec 64) :
    (s.store t i e).pml4 = s.pml4 := rfl

@[simp] theorem Pager.store_next (s : Pager) (t : Nat) (i : Fin 512) (e : BitVec 64) :
    (s.store t i e).next = s.next := rfl

theorem zeroTable_mem (s : Pager) (paddr : Nat) :
    (zeroTable s paddr).mem = blank s.mem (paddr / pageSize) 0#64 := by
  have hfold : ∀ (l : List (Fin 512)) (s : Pager) (t : Nat) (j : Fin 512),
      (l.foldl (fun s i => s.store (paddr / pageSize) i 0#64) s).mem t j =
        if t = paddr / pageSize ∧ j ∈ l then 0#64 else s.mem t j := by
    intro l
    induction l with
    | nil => intro s t j; simp
    | cons i l ih =>
      intro s t j
      rw [List.foldl_cons, ih, Pager.store_mem, put_apply]
      by_cases ht : t = paddr / pageSize
      · by_cases hj : j = i
        · simp [ht, hj]
        · simp [ht, hj]
      · simp [ht]
  funext t j
  rw [zeroTable, hfold]
  by_cases ht : t = paddr / pageSize
  · simp [blank, ht]
  · simp [blank, ht]

theorem zeroTable_fields (s : Pager) (paddr : Nat) :
    (zeroTable s paddr).pml4 = s.pml4 ∧ (zeroTable s paddr).next = s.next := by
  have hfold : ∀ (l : List (Fin 512)) (s : Pager),
      (l.foldl (fun s i => s.store (paddr / pageSize) i 0#64) s).pml4 = s.pml4 ∧
      (l.foldl (fun s i => s.store (paddr / pageSize) i 0#64) s).next = s.next := by
    intro l
    induction l with
    | nil => intro s; exact ⟨rfl, rfl⟩
    | cons i l ih => intro s; exact ih _
  exact hfold _ s

theorem toNat_mask (e : BitVec 64) : (e &&& ~~~0xfff#64).toNat = e.toNat / 4096 * pageSize := by
  rw [show (0xfff#64 : BitVec 64) = BitVec.ofNat 64 (2 ^ 12 - 1) by decide]
  exact toNat_and_not_lowMask e (by decide)

/-- Masking off the low twelve bits keeps the frame number. -/
theorem frame_mask (e : BitVec 64) : (e &&& ~~~0xfff#64).toNat / pageSize = e.toNat / 4096 := by
  rw [toNat_mask]
  exact Nat.mul_div_cancel _ (by decide)

theorem and_one_eq_zero_iff (e : BitVec 64) : e &&& 0x1#64 = 0#64 ↔ present e = false := by
  have hone : ∀ i, (0x1#64).getLsbD i = decide (i = 0) := by
    intro i
    cases i with
    | zero => rfl
    | succ i => simp [BitVec.getLsbD_one]
  rw [and_eq_zero_iff]
  constructor
  · exact fun h => h 0 (by decide) rfl
  · intro h i _ hm
    rw [hone, decide_eq_true_eq] at hm
    subst hm
    exact h

section EntryOf
variable {k x : Nat} (hk : k < 2 ^ 40) (hx : x < 4096)

include hk hx

theorem entryOf_toNat : (entryOf k x).toNat = 4096 * k + x := by
  rw [entryOf, BitVec.toNat_ofNat, Nat.mod_eq_of_lt (by omega)]

theorem frameOf_entryOf : frameOf (entryOf k x) = k := by
  rw [frameOf, entryOf_toNat hk hx]
  omega

theorem getLsbD_entryOf {j : Nat} (hj : j < 12) : (entryOf k x).getLsbD j = x.testBit j := by
  rw [← BitVec.testBit_toNat, entryOf_toNat hk hx, show 4096 * k = 2 ^ 12 * k from rfl,
    Nat.testBit_two_pow_mul_add k hx, if_pos hj]

theorem or_eq_entryOf : BitVec.ofNat 64 (4096 * k) ||| BitVec.ofNat 64 x = entryOf k x := by
  apply BitVec.eq_of_toNat_eq
  rw [BitVec.toNat_or, BitVec.toNat_ofNat, BitVec.toNat_ofNat, Nat.mod_eq_of_lt (by omega),
    Nat.mod_eq_of_lt (by omega), entryOf_toNat hk hx, show 4096 * k = k <<< 12 by
      rw [Nat.shiftLeft_eq]; omega, Nat.shiftLeft_add_eq_or_of_lt hx]

end EntryOf

end NyaOS.Paging
