import Mathlib.Data.List.Flatten
import NyaOS.Slab.Alloc
import NyaOS.Slab.Large

/-! The invariant of a large-object cache: a slab has one page for its header and bufctls, and
frames of its own for the buffers, where the layer writes nothing. -/
namespace NyaOS.Slab
open Library.ByteMemory Library.LinkedList
open Frames (pageSize)

/-- A `kmem_cache` object of a large-object cache. -/
structure LargeCache where
  addr : Nat
  size : Nat
  addr_ne : addr ≠ 0
  addr_le : addr + 168 ≤ 2 ^ 64
  size_gt : 512 < size

/-- A large slab: where its header and its buffers are, the free buffers in the order of the free
list, and the taken ones, by their numbers. -/
structure LargeSlab where
  hdr : Nat
  start : Nat
  free : List Nat
  taken : List Nat

namespace LargeSlab

def bufctl (s : LargeSlab) (j : Nat) : Nat := s.hdr + 48 + j * 24
def buffer (size : Nat) (s : LargeSlab) (j : Nat) : Nat := s.start + j * size
def held (size : Nat) (s : LargeSlab) : List Nat := s.taken.map (s.buffer size)
def bufPages (size : Nat) (s : LargeSlab) : List Nat :=
  (List.range (largeFrames size)).map fun i => s.start + i * 4096

end LargeSlab

/-- A slab in memory. -/
structure LargeSlabOk (size : Nat) (m : Mem) (s : LargeSlab) : Prop where
  start : load m (s.hdr + 32) 8 = s.start
  count : intAt m (s.hdr + 44) = largeCount size
  refs : intAt m (s.hdr + 40) = s.taken.length
  chain : FreeChain m 16 (load m (s.hdr + 24) 8) (s.free.map s.bufctl)
  bufs : ∀ j < largeCount size, load m (s.bufctl j) 8 = s.buffer size j
  parts : (s.free ++ s.taken).Perm (List.range (largeCount size))

/-- The free list ends with `NULL`. -/
def Ended (m : Mem) (s : LargeSlab) : Prop :=
  match s.free.getLast? with
  | none => load m (s.hdr + 24) 8 = 0
  | some j => load m (s.bufctl j + 16) 8 = 0

theorem ended_of_nil {m : Mem} {s : LargeSlab} (h : s.free = []) :
    Ended m s ↔ load m (s.hdr + 24) 8 = 0 := by
  unfold Ended
  rw [h]
  exact Iff.rfl

theorem ended_of_last {m : Mem} {s : LargeSlab} {j : Nat} (h : s.free.getLast? = some j) :
    Ended m s ↔ load m (s.bufctl j + 16) 8 = 0 := by
  unfold Ended
  rw [h]

/-- A page of the layer: apart from the cache object. -/
structure LargePageOk (c : LargeCache) (p : Nat) : Prop where
  aligned : p % 4096 = 0
  pos : p ≠ 0
  bound : p + 4096 ≤ 2 ^ 64
  apart : p + 4096 ≤ c.addr ∨ c.addr + 168 ≤ p

/-- The list nodes from `head` to `tail`. -/
def largeNodes (c : LargeCache) (slabs : List LargeSlab) : List Nat :=
  (c.addr + 72) :: (slabs.map LargeSlab.hdr ++ [c.addr + 120])

/-- The pages with the layer's own data (`kept` is for more than headers), and those of the
buffers. -/
def ctlPages (kept : List Nat) (slabs : List LargeSlab) : List Nat := kept ++ slabs.map LargeSlab.hdr
def bufPages (size : Nat) (slabs : List LargeSlab) : List Nat := slabs.flatMap (LargeSlab.bufPages size)

/-- The list is full slabs, then slabs with free buffers; `fl_ptr` is at the first of these; the
clients hold the taken buffers. -/
structure LargeShape (c : LargeCache) (m : Mem) (kept held : List Nat) (full part : List LargeSlab) :
    Prop where
  nodup : (ctlPages kept (full ++ part) ++ bufPages c.size (full ++ part)).Nodup
  pages : ∀ p ∈ ctlPages kept (full ++ part) ++ bufPages c.size (full ++ part), LargePageOk c p
  head : load m (c.addr + 24) 8 = c.addr + 72
  tail : load m (c.addr + 32) 8 = c.addr + 120
  size : load m (c.addr + 56) 8 = c.size
  flPtr : load m (c.addr + 40) 8 = (part.map LargeSlab.hdr).headD (c.addr + 120)
  linked : Linked (nextOf m) (prevOf m) (largeNodes c (full ++ part))
  slabs : ∀ s ∈ full ++ part, LargeSlabOk c.size m s
  full_taken : ∀ s ∈ full, s.free = []
  part_free : ∀ s ∈ part, s.free ≠ []
  held_taken : held.Perm ((full ++ part).flatMap (LargeSlab.held c.size))

/-- What the layer reads and writes: the cache object behind its table, and the header pages. -/
def LargeCells (c : LargeCache) (slabs : List LargeSlab) (x : Nat) : Prop :=
  (c.addr + 24 ≤ x ∧ x < c.addr + 168) ∨ ∃ s ∈ slabs, s.hdr ≤ x ∧ x < s.hdr + 4096

section Slab
variable {size : Nat} {m m' : Mem} {s : LargeSlab} (h : LargeSlabOk size m s)
include h

theorem LargeSlabOk.lt_of_free {j : Nat} (hj : j ∈ s.free) : j < largeCount size :=
  List.mem_range.mp (h.parts.subset (List.mem_append_left s.taken hj))

theorem LargeSlabOk.lt_of_taken {j : Nat} (hj : j ∈ s.taken) : j < largeCount size :=
  List.mem_range.mp (h.parts.subset (List.mem_append_right s.free hj))

theorem LargeSlabOk.length_eq : s.free.length + s.taken.length = largeCount size := by
  rw [← List.length_append, h.parts.length_eq, List.length_range]

/-- A slab is read behind its links, in its header page. -/
theorem LargeSlabOk.congr (hlarge : 512 < size)
    (hsame : ∀ x, s.hdr + 16 ≤ x → x < s.hdr + 4096 → m' x = m x) : LargeSlabOk size m' s := by
  have hcount := largeCount_bounds hlarge
  have hbufctl : ∀ j < largeCount size, ∀ x, s.bufctl j ≤ x → x < s.bufctl j + 24 → m' x = m x := by
    intro j hj x hlo hhi
    unfold LargeSlab.bufctl at hlo hhi
    exact hsame x (by omega) (by omega)
  refine ⟨?_, ?_, ?_, ?_, ?_, h.parts⟩
  · rw [load_congr fun x _ _ => hsame x (by omega) (by omega), h.start]
  · rw [intAt_congr fun x _ _ => hsame x (by omega) (by omega), h.count]
  · rw [intAt_congr fun x _ _ => hsame x (by omega) (by omega), h.refs]
  · rw [load_congr fun x _ _ => hsame x (by omega) (by omega)]
    refine h.chain.congr fun b hb x _ _ => ?_
    obtain ⟨j, hj, rfl⟩ := List.mem_map.mp hb
    exact hbufctl j (h.lt_of_free hj) x (by omega) (by omega)
  · intro j hj
    rw [load_congr fun x _ _ => hbufctl j hj x (by omega) (by omega), h.bufs j hj]

theorem LargeSlabOk.ended_congr (hlarge : 512 < size) (he : Ended m s)
    (hsame : ∀ x, s.hdr + 16 ≤ x → x < s.hdr + 4096 → m' x = m x) : Ended m' s := by
  have hcount := largeCount_bounds hlarge
  cases hlast : s.free.getLast? with
  | none =>
    have hnil := List.getLast?_eq_none_iff.mp hlast
    rw [ended_of_nil hnil] at he ⊢
    rw [load_congr fun x _ _ => hsame x (by omega) (by omega), he]
  | some j =>
    have hj := h.lt_of_free (List.mem_of_getLast? hlast)
    have hb : s.bufctl j = s.hdr + 48 + j * 24 := rfl
    rw [ended_of_last hlast] at he ⊢
    rw [load_congr fun x _ _ => hsame x (by omega) (by omega), he]

/-- A taken buffer lies in the slab's frames as a whole. -/
theorem LargeSlabOk.inside {b : Nat} (hb : b ∈ s.held size) :
    s.start ≤ b ∧ b + size ≤ s.start + largeFrames size * 4096 := by
  obtain ⟨j, hj, rfl⟩ := List.mem_map.mp hb
  have hmul := Nat.mul_le_mul_right size (h.lt_of_taken hj)
  have hcount : largeCount size * size ≤ largeFrames size * 4096 := Nat.div_mul_le_self _ _
  rw [Nat.succ_mul] at hmul
  unfold LargeSlab.buffer
  omega

theorem LargeSlabOk.page_of_held {b x : Nat} (hb : b ∈ s.held size) (hx : b ≤ x ∧ x < b + size) :
    ∃ p ∈ s.bufPages size, p ≤ x ∧ x < p + 4096 := by
  have hin := h.inside hb
  refine ⟨s.start + (x - s.start) / 4096 * 4096, List.mem_map.mpr ⟨(x - s.start) / 4096, ?_, rfl⟩, ?_⟩
  · rw [List.mem_range]
    omega
  · omega

end Slab

/-- The links of the list lie in the layer's cells. -/
theorem cells_of_links {c : LargeCache} {slabs : List LargeSlab} {x y : Nat} (hy : y ∈ largeNodes c slabs)
    (hyx : Links y x) : LargeCells c slabs x := by
  unfold Links at hyx
  rw [largeNodes, List.mem_cons, List.mem_append, List.mem_map, List.mem_singleton] at hy
  rcases hy with rfl | ⟨s, hs, rfl⟩ | rfl
  · exact .inl (by omega)
  · exact .inr ⟨s, hs, by omega⟩
  · exact .inl (by omega)

section Shape
variable {c : LargeCache} {m m' : Mem} {kept held : List Nat} {full part : List LargeSlab}
  (h : LargeShape c m kept held full part)
include h

theorem LargeShape.hdr_page {s : LargeSlab} (hs : s ∈ full ++ part) : LargePageOk c s.hdr :=
  h.pages _ (List.mem_append_left _ (List.mem_append_right _ (List.mem_map_of_mem hs)))

theorem LargeShape.hdr_nodup : ((full ++ part).map LargeSlab.hdr).Nodup :=
  h.nodup.of_append_left.of_append_right

theorem LargeShape.hdr_inj {s t : LargeSlab} (hs : s ∈ full ++ part) (ht : t ∈ full ++ part)
    (he : s.hdr = t.hdr) : s = t := List.inj_on_of_nodup_map h.hdr_nodup hs ht he

/-- Two slabs' header pages. -/
theorem LargeShape.hdr_apart {s t : LargeSlab} (hs : s ∈ full ++ part) (ht : t ∈ full ++ part)
    (hne : s ≠ t) : s.hdr + 4096 ≤ t.hdr ∨ t.hdr + 4096 ≤ s.hdr := by
  have hsa := (h.hdr_page hs).aligned
  have hta := (h.hdr_page ht).aligned
  have : s.hdr ≠ t.hdr := fun he => hne (h.hdr_inj hs ht he)
  omega

theorem LargeShape.mem_held {b : Nat} (hb : b ∈ held) :
    ∃ s ∈ full ++ part, b ∈ s.held c.size :=
  List.mem_flatMap.mp (h.held_taken.mem_iff.mp hb)

/-- No byte of a held buffer is in the cache object or a page with the layer's data. -/
theorem LargeShape.held_apart {b x : Nat} (hb : b ∈ held) (hx : b ≤ x ∧ x < b + c.size) :
    ¬ (c.addr ≤ x ∧ x < c.addr + 168) ∧
      ∀ p ∈ ctlPages kept (full ++ part), ¬ (p ≤ x ∧ x < p + 4096) := by
  obtain ⟨s, hs, hbs⟩ := h.mem_held hb
  obtain ⟨q, hq, hqx⟩ := (h.slabs s hs).page_of_held hbs hx
  have hqmem : q ∈ bufPages c.size (full ++ part) := List.mem_flatMap.mpr ⟨s, hs, hq⟩
  have hqok := h.pages q (List.mem_append_right _ hqmem)
  constructor
  · have := hqok.apart
    omega
  · intro p hp hpx
    have hpa := (h.pages p (List.mem_append_left _ hp)).aligned
    have hqa := hqok.aligned
    have hpq : p = q := by omega
    exact List.disjoint_of_nodup_append h.nodup hp (hpq ▸ hqmem)

theorem LargeShape.congr (hsame : ∀ x, LargeCells c (full ++ part) x → m' x = m x) :
    LargeShape c m' kept held full part where
  nodup := h.nodup
  pages := h.pages
  head := by rw [load_congr fun x _ _ => hsame x (.inl (by omega)), h.head]
  tail := by rw [load_congr fun x _ _ => hsame x (.inl (by omega)), h.tail]
  size := by rw [load_congr fun x _ _ => hsame x (.inl (by omega)), h.size]
  flPtr := by rw [load_congr fun x _ _ => hsame x (.inl (by omega)), h.flPtr]
  linked := by
    have honly : OnlyIn (fun x => ¬ LargeCells c (full ++ part) x) m m' :=
      fun x hx => hsame x (not_not.mp hx)
    exact linked_of_onlyIn h.linked honly fun y hy x hyx hn => hn (cells_of_links hy hyx)
  slabs := fun s hs => (h.slabs s hs).congr c.size_gt
    fun x _ _ => hsame x (.inr ⟨s, hs, by omega⟩)
  full_taken := h.full_taken
  part_free := h.part_free
  held_taken := h.held_taken

end Shape

/-- The headers of slabs in distinct pages and the two sentinels do not meet. -/
theorem headers_largeNodes {c : LargeCache} {slabs : List LargeSlab}
    (hnd : (slabs.map LargeSlab.hdr).Nodup) (hok : ∀ s ∈ slabs, LargePageOk c s.hdr) :
    Headers (largeNodes c slabs) := by
  have hpage : ∀ x ∈ slabs.map LargeSlab.hdr, LargePageOk c x := by
    intro x hx
    obtain ⟨s, hs, rfl⟩ := List.mem_map.mp hx
    exact hok s hs
  apply headers_sentinels c.addr_le hnd
  · intro x hx
    have := (hpage x hx).bound
    exact ⟨(hpage x hx).pos, by omega⟩
  · intro x hx
    have := (hpage x hx).apart
    omega
  · intro x hx y hy hne
    have := (hpage x hx).aligned
    have := (hpage y hy).aligned
    omega

/-- No node's links lie among the fields of the cache object before its sentinels. -/
theorem links_not_field {c : LargeCache} {slabs : List LargeSlab} (hok : ∀ s ∈ slabs, LargePageOk c s.hdr)
    {x y : Nat} (hy : y ∈ largeNodes c slabs) (hyx : Links y x) : ¬ (c.addr ≤ x ∧ x < c.addr + 72) := by
  unfold Links at hyx
  rw [largeNodes, List.mem_cons, List.mem_append, List.mem_map, List.mem_singleton] at hy
  rcases hy with rfl | ⟨s, hs, rfl⟩ | rfl
  · omega
  · have := (hok s hs).apart
    omega
  · omega

end NyaOS.Slab
