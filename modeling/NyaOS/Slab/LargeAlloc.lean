import NyaOS.Slab.LargeShape

/-! `kmem_cache_grow` and `kmem_cache_alloc` on a large-object cache. -/
namespace NyaOS.Slab
open Library.ByteMemory Library.LinkedList
open Frames (pageSize)

/-- Fresh frames in a row: page-aligned, not null, not in use, with their place in the direct map
clear of the cache object. Physical addresses have 52 bits, so that a size with room for its
frames has an exact `size * 8.0`. -/
structure FreshRange (k : Machine) (c : LargeCache) (calls : List FrameCall) (a n : Nat) : Prop where
  aligned : a % 4096 = 0
  ne_null : a ≠ 0
  physical : a + n * 4096 ≤ 2 ^ 52
  mapped : a + k.offset + n * 4096 ≤ 2 ^ 64
  unused : ∀ i < n, ¬ Owned calls (a + i * pageSize)
  apart : a + k.offset + n * 4096 ≤ c.addr ∨ c.addr + 168 ≤ a + k.offset

theorem FreshRange.page {k : Machine} {c : LargeCache} {calls : List FrameCall} {a n i : Nat}
    (h : FreshRange k c calls a n) (hi : i < n) : LargePageOk c (a + k.offset + i * 4096) := by
  have ha := h.aligned
  have ho := k.offset_aligned
  have hn := h.ne_null
  have hm := h.mapped
  have hapart := h.apart
  have hmul := Nat.mul_le_mul_right 4096 hi
  rw [Nat.succ_mul] at hmul
  exact ⟨by omega, by omega, by omega, by omega⟩

theorem FreshRange.physToVirt {k : Machine} {c : LargeCache} {calls : List FrameCall} {a n : Nat}
    (h : FreshRange k c calls a n) (hn : 0 < n) : k.physToVirt a = a + k.offset := by
  have hm := h.mapped
  exact Nat.mod_eq_of_lt (by omega)

/-- The slab the next growth makes. -/
def Machine.newSlab (k : Machine) (size : Nat) (calls : List FrameCall) : LargeSlab where
  hdr := k.kalloc (calls.length + 1) + k.offset
  start := k.kalloc calls.length + k.offset
  free := List.range (largeCount size)
  taken := []

/-- The calls it makes for its frames. -/
def Machine.growCalls (k : Machine) (size : Nat) (calls : List FrameCall) : List FrameCall :=
  .alloc (k.kalloc (calls.length + 1)) 1 :: .alloc (k.kalloc calls.length) (largeFrames size) :: calls

/-- The next two frame calls return fresh frames. -/
structure Machine.FreshLarge (k : Machine) (c : LargeCache) (calls : List FrameCall) : Prop where
  buffers : FreshRange k c calls (k.kalloc calls.length) (largeFrames c.size)
  header : FreshRange k c (.alloc (k.kalloc calls.length) (largeFrames c.size) :: calls)
    (k.kalloc (calls.length + 1)) 1

theorem largeFrames_pos {size : Nat} (h : 512 < size) : 0 < largeFrames size := by
  unfold largeFrames pageSize
  omega

/-- List operations write the links of the nodes, and `fl_ptr`. -/
def LargeListCells (c : LargeCache) (slabs : List LargeSlab) (x : Nat) : Prop :=
  (∃ y ∈ largeNodes c slabs, Links y x) ∨ (c.addr + 40 ≤ x ∧ x < c.addr + 48)

section List
variable {c : LargeCache} {m m' : Mem} {slabs : List LargeSlab} (hok : ∀ s ∈ slabs, LargePageOk c s.hdr)
  (honly : OnlyIn (LargeListCells c slabs) m m')
include hok honly

/-- They leave a slab behind its links as it is. -/
theorem slab_of_list {s : LargeSlab} (hs : s ∈ slabs) :
    ∀ x, s.hdr + 16 ≤ x → x < s.hdr + 4096 → m' x = m x := by
  have hapart := (hok s hs).apart
  have haligned := (hok s hs).aligned
  refine fun x hlo hhi => honly x ?_
  rintro (⟨y, hy, hyx⟩ | hx)
  · unfold Links at hyx
    rw [largeNodes, List.mem_cons, List.mem_append, List.mem_map, List.mem_singleton] at hy
    rcases hy with rfl | ⟨t, ht, rfl⟩ | rfl
    · omega
    · have := (hok t ht).aligned
      omega
    · omega
  · omega

theorem field_of_list {off : Nat} (hoff : off + 8 ≤ 40 ∨ 48 ≤ off ∧ off + 8 ≤ 72) :
    load m' (c.addr + off) 8 = load m (c.addr + off) 8 := by
  refine honly.load fun x _ _ => ?_
  rintro (⟨y, hy, hyx⟩ | hx)
  · exact links_not_field hok hy hyx (by omega)
  · omega

end List

/-- The two nodes at the end of the list. -/
theorem largeNodes_end (c : LargeCache) (slabs : List LargeSlab) : ∃ l a,
    largeNodes c slabs = l ++ [a, c.addr + 120] ∧
      ∀ s : LargeSlab, largeNodes c (slabs ++ [s]) = l ++ [a, s.hdr, c.addr + 120] := by
  rcases List.eq_nil_or_concat ((c.addr + 72) :: slabs.map LargeSlab.hdr) with hnil | ⟨l, a, h⟩
  · cases hnil
  · rw [List.concat_eq_append] at h
    refine ⟨l, a, ?_, fun s => ?_⟩
    · rw [largeNodes, ← List.cons_append, h, List.append_assoc]
      rfl
    · rw [largeNodes, List.map_append, List.append_assoc, ← List.cons_append, h, List.append_assoc]
      rfl

section Grow
variable {k : Machine} {c : LargeCache} {m : Mem} {calls : List FrameCall} {kept held : List Nat}
  {full part : List LargeSlab}

/-- The new slab before it is linked: only its header page is written. -/
theorem growLarge_slab (hf : k.FreshLarge c calls) (hsize : load m (c.addr + 56) 8 = c.size) :
    ∃ m', growLarge k c.addr ⟨m, calls⟩ =
        some ((k.newSlab c.size calls).hdr, ⟨m', k.growCalls c.size calls⟩) ∧
      OnlyIn (fun x => (k.newSlab c.size calls).hdr ≤ x ∧ x < (k.newSlab c.size calls).hdr + 4096) m m' ∧
      LargeSlabOk c.size m' (k.newSlab c.size calls) ∧ Ended m' (k.newSlab c.size calls) := by
  have hpos := largeFrames_pos c.size_gt
  have hhdr := hf.header.page Nat.zero_lt_one
  rw [Nat.zero_mul, Nat.add_zero] at hhdr
  have hbufs : largeCount c.size * c.size ≤ largeFrames c.size * 4096 := Nat.div_mul_le_self _ _
  have hmapped := hf.buffers.mapped
  have hapart := hhdr.apart
  obtain ⟨m', hrun, honly, hrefs, hcount, hfree, hstart, hbufctls⟩ := growLarge_run (k := k) calls c.addr_ne
    hsize c.size_gt (hf.buffers.physToVirt hpos) (hf.header.physToVirt Nat.zero_lt_one) hhdr.pos
    hhdr.bound (by omega) (by omega)
  refine ⟨m', hrun, honly, ⟨hstart, hcount, hrefs, ?_, fun j hj => (hbufctls j hj).buf, ?_⟩, ?_⟩
  · rw [show load m' ((k.newSlab c.size calls).hdr + 24) 8 = _ from hfree]
    apply freeChain_of_links
    intro j hj
    have hnext := (hbufctls j (by omega)).next
    rw [if_pos hj] at hnext
    exact hnext
  · exact (List.append_nil _).symm ▸ List.Perm.refl _
  · have hbounds := largeCount_bounds c.size_gt
    have hlast : (k.newSlab c.size calls).free.getLast? = some (largeCount c.size - 1) := by
      rw [Machine.newSlab, List.getLast?_range, if_neg (by omega)]
    have hnext := (hbufctls (largeCount c.size - 1) (by omega)).next
    rw [if_neg (by omega)] at hnext
    exact (ended_of_last hlast).mpr hnext

/-- The shape with a new slab at the end of the list. -/
private theorem LargeShape.append {m' : Mem} {s : LargeSlab} (h : LargeShape c m kept held full part)
    (hnd : (ctlPages kept (full ++ (part ++ [s])) ++ bufPages c.size (full ++ (part ++ [s]))).Nodup)
    (hpages : ∀ p ∈ ctlPages kept (full ++ (part ++ [s])) ++ bufPages c.size (full ++ (part ++ [s])),
      LargePageOk c p)
    (hs : LargeSlabOk c.size m s) (hfree : s.free ≠ []) (htaken : s.taken = [])
    (honly : OnlyIn (LargeListCells c (full ++ (part ++ [s]))) m m')
    (hlinked : Linked (nextOf m') (prevOf m') (largeNodes c (full ++ (part ++ [s]))))
    (hfl : load m' (c.addr + 40) 8 = ((part ++ [s]).map LargeSlab.hdr).headD (c.addr + 120)) :
    LargeShape c m' kept held full (part ++ [s]) := by
  have hok : ∀ t ∈ full ++ (part ++ [s]), LargePageOk c t.hdr := fun t ht =>
    hpages _ (List.mem_append_left _ (List.mem_append_right _ (List.mem_map_of_mem ht)))
  have hfield : ∀ {off v : Nat}, off + 8 ≤ 40 ∨ 48 ≤ off ∧ off + 8 ≤ 72 →
      load m (c.addr + off) 8 = v → load m' (c.addr + off) 8 = v :=
    fun hoff hv => (field_of_list hok honly hoff).trans hv
  refine ⟨hnd, hpages, hfield (by decide) h.head, hfield (by decide) h.tail, hfield (by decide) h.size,
    hfl, hlinked, ?_, h.full_taken, ?_, ?_⟩
  · intro t ht
    have hold : LargeSlabOk c.size m t := by
      rw [← List.append_assoc, List.mem_append, List.mem_singleton] at ht
      rcases ht with ht | rfl
      · exact h.slabs t ht
      · exact hs
    exact hold.congr c.size_gt (slab_of_list hok honly ht)
  · intro t ht
    rcases List.mem_append.mp ht with ht | ht
    · exact h.part_free t ht
    · rw [List.mem_singleton.mp ht]
      exact hfree
  · rw [← List.append_assoc, List.flatMap_append, List.flatMap_singleton, LargeSlab.held, htaken,
      List.map_nil, List.append_nil]
    exact h.held_taken

section New
variable {s : LargeSlab} (h : LargeShape c m kept held full part)
  (hhdrs : ((full ++ (part ++ [s])).map LargeSlab.hdr).Nodup)
  (hok : ∀ t ∈ full ++ (part ++ [s]), LargePageOk c t.hdr)
include h hhdrs hok

/-- The header page of the new slab is not that of another one. -/
private theorem LargeShape.apart_new {t : LargeSlab} (ht : t ∈ full ++ part) :
    t.hdr + 4096 ≤ s.hdr ∨ s.hdr + 4096 ≤ t.hdr := by
  have hsa := (hok s (by simp)).aligned
  have hta := (h.hdr_page ht).aligned
  rw [← List.append_assoc, List.map_append, List.nodup_append] at hhdrs
  have := hhdrs.2.2 t.hdr (List.mem_map_of_mem ht) s.hdr (List.mem_singleton_self _)
  omega

/-- `_append_slab` links it before the tail, and an idle `fl_ptr` then points to it. -/
private theorem LargeShape.appendSlab_run (calls : List FrameCall) :
    ∃ m', appendSlab c.addr s.hdr ⟨m, calls⟩ = some ((), ⟨m', calls⟩) ∧
      OnlyIn (LargeListCells c (full ++ (part ++ [s]))) m m' ∧
      Linked (nextOf m') (prevOf m') (largeNodes c (full ++ (part ++ [s]))) ∧
      load m' (c.addr + 40) 8 = ((part ++ [s]).map LargeSlab.hdr).headD (c.addr + 120) := by
  have hheaders := headers_largeNodes hhdrs hok
  have hfar : ∀ y ∈ largeNodes c (full ++ (part ++ [s])), ∀ x, Links y x →
      ¬ (c.addr ≤ x ∧ x < c.addr + 72) := fun y hy x hyx => links_not_field hok hy hyx
  have hlinked := h.linked
  obtain ⟨l, a, hnodes, hnew⟩ := largeNodes_end c (full ++ part)
  specialize hnew s
  rw [List.append_assoc] at hnew
  rw [hnodes] at hlinked
  rw [hnew] at hheaders hfar
  obtain ⟨m', hrun, honly, hlinked', hfl⟩ := appendSlab_linked calls c.addr_ne hheaders hfar h.tail
    h.flPtr hlinked
  rw [← hnew] at honly hlinked'
  refine ⟨m', hrun, honly, hlinked', ?_⟩
  rw [hfl]
  cases part with
  | nil => exact if_pos rfl
  | cons t part =>
    have ht := (h.hdr_page (s := t) (by simp)).apart
    exact if_neg (show t.hdr ≠ c.addr + 120 by omega)

end New

/-- `kmem_cache_grow` appends the new slab. -/
theorem kmemCacheGrow_large (h : LargeShape c m kept held full part) (hf : k.FreshLarge c calls)
    (hnd : (ctlPages kept (full ++ (part ++ [k.newSlab c.size calls])) ++
      bufPages c.size (full ++ (part ++ [k.newSlab c.size calls]))).Nodup)
    (hpages : ∀ p ∈ ctlPages kept (full ++ (part ++ [k.newSlab c.size calls])) ++
      bufPages c.size (full ++ (part ++ [k.newSlab c.size calls])), LargePageOk c p) :
    ∃ m', kmemCacheGrow k c.addr ⟨m, calls⟩ = some ((), ⟨m', k.growCalls c.size calls⟩) ∧
      OnlyIn (LargeCells c (full ++ (part ++ [k.newSlab c.size calls]))) m m' ∧
      LargeShape c m' kept held full (part ++ [k.newSlab c.size calls]) ∧
      ((∀ t ∈ full ++ part, Ended m t) →
        ∀ t ∈ full ++ (part ++ [k.newSlab c.size calls]), Ended m' t) := by
  have hfree : (k.newSlab c.size calls).free ≠ [] := by
    have := largeCount_bounds c.size_gt
    exact List.ne_nil_of_length_pos (by rw [Machine.newSlab, List.length_range]; omega)
  have htaken : (k.newSlab c.size calls).taken = [] := rfl
  obtain ⟨m₁, hrun₁, honly₁, hs, hends⟩ := growLarge_slab hf h.size
  generalize k.newSlab c.size calls = s at hnd hpages hfree htaken hrun₁ honly₁ hs hends ⊢
  have hok : ∀ t ∈ full ++ (part ++ [s]), LargePageOk c t.hdr := fun t ht =>
    hpages _ (List.mem_append_left _ (List.mem_append_right _ (List.mem_map_of_mem ht)))
  have hhdrs : ((full ++ (part ++ [s])).map LargeSlab.hdr).Nodup := hnd.of_append_left.of_append_right
  have hmem : s ∈ full ++ (part ++ [s]) := by simp
  have hsapart := (hok s hmem).apart
  have hold : LargeShape c m₁ kept held full part := by
    refine h.congr fun x hx => honly₁ x ?_
    rcases hx with hx | ⟨t, ht, hx⟩
    · omega
    · have := h.apart_new hhdrs hok ht
      omega
  obtain ⟨m', hrun, honly, hlinked, hflPtr⟩ := hold.appendSlab_run hhdrs hok (k.growCalls c.size calls)
  refine ⟨m', ?_, ?_, hold.append hnd hpages hs hfree htaken honly hlinked hflPtr, ?_⟩
  · rw [kmemCacheGrow, bind_run (read_eq c.addr_ne h.size),
      if_neg (show ¬ c.size ≤ smallObjSize from Nat.not_le.mpr c.size_gt), bind_run hrun₁, hrun]
  · apply OnlyIn.trans (honly₁.mono fun x hx => .inr ⟨s, hmem, hx⟩) (honly.mono _)
    rintro x (⟨y, hy, hyx⟩ | hx)
    · exact cells_of_links hy hyx
    · exact .inl (by omega)
  · intro hended t ht
    have hsame := slab_of_list hok honly ht
    rw [← List.append_assoc, List.mem_append, List.mem_singleton] at ht
    rcases ht with ht | rfl
    · have hended₁ : Ended m₁ t := (h.slabs t ht).ended_congr c.size_gt (hended t ht)
        fun x _ _ => honly₁ x (by have := h.apart_new hhdrs hok ht; omega)
      exact (hold.slabs t ht).ended_congr c.size_gt hended₁ hsame
    · exact hs.ended_congr c.size_gt hends hsame

end Grow

/-- The slab after its buffer `j` was taken. -/
def LargeSlab.take (s : LargeSlab) (j : Nat) (js : List Nat) : LargeSlab :=
  { s with free := js, taken := j :: s.taken }

section Take
variable {c : LargeCache} {m : Mem} (calls : List FrameCall) {kept held js : List Nat} {j : Nat}
  {full rest : List LargeSlab} {s : LargeSlab}

/-- The slab after its first free buffer was taken: its free list, the buffer's link and the counter
are written. -/
theorem LargeSlabOk.take {m' : Mem} (h : LargeSlabOk c.size m s) (hfree : s.free = j :: js)
    (honly : ∀ x, s.hdr + 16 ≤ x → x < s.hdr + 4096 → ¬ (s.hdr + 24 ≤ x ∧ x < s.hdr + 32) →
      ¬ (s.bufctl j + 16 ≤ x ∧ x < s.bufctl j + 24) → ¬ (s.hdr + 40 ≤ x ∧ x < s.hdr + 44) → m' x = m x)
    (hhead : load m' (s.hdr + 24) 8 = load m (s.bufctl j + 16) 8)
    (hrefs : intAt m' (s.hdr + 40) = s.taken.length + 1) : LargeSlabOk c.size m' (s.take j js) := by
  have hcount := largeCount_bounds c.size_gt
  have hb : s.bufctl j = s.hdr + 48 + j * 24 := rfl
  have hchain := h.chain
  have hparts := h.parts
  rw [hfree] at hchain hparts
  refine ⟨?_, ?_, hrefs, ?_, ?_, List.perm_middle.trans hparts⟩
  · change load m' (s.hdr + 32) 8 = s.start
    rw [load_congr fun x _ _ => honly x (by omega) (by omega) (by omega) (by omega) (by omega), h.start]
  · change intAt m' (s.hdr + 44) = _
    rw [intAt_congr fun x _ _ => honly x (by omega) (by omega) (by omega) (by omega) (by omega), h.count]
  · -- the links of the other free bufctls are as before
    change FreeChain m' 16 (load m' (s.hdr + 24) 8) (js.map s.bufctl)
    rw [hhead]
    refine hchain.2.congr fun b' hb' x _ _ => ?_
    obtain ⟨i, hi, rfl⟩ := List.mem_map.mp hb'
    have hib : s.bufctl i = s.hdr + 48 + i * 24 := rfl
    have hlt : i < largeCount c.size := h.lt_of_free (hfree ▸ List.mem_cons_of_mem _ hi)
    have hne : i ≠ j := by
      rintro rfl
      have hnd := hparts.nodup_iff.mpr List.nodup_range
      exact (List.nodup_cons.mp hnd).1 (List.mem_append_left _ hi)
    exact honly x (by omega) (by omega) (by omega) (by omega) (by omega)
  · intro i hi
    change load m' (s.bufctl i) 8 = s.buffer c.size i
    have hib : s.bufctl i = s.hdr + 48 + i * 24 := rfl
    rw [load_congr fun x _ _ => honly x (by omega) (by omega) (by omega) (by omega) (by omega), h.bufs i hi]

/-- The list that is left ends where it did. -/
theorem LargeSlabOk.ended_take {m' : Mem} (h : LargeSlabOk c.size m s) (hfree : s.free = j :: js)
    (honly : ∀ x, s.hdr + 48 ≤ x → x < s.hdr + 4096 →
      ¬ (s.bufctl j + 16 ≤ x ∧ x < s.bufctl j + 24) → m' x = m x)
    (hhead : load m' (s.hdr + 24) 8 = load m (s.bufctl j + 16) 8) (he : Ended m s) :
    Ended m' (s.take j js) := by
  have hcount := largeCount_bounds c.size_gt
  cases js with
  | nil =>
    have hlast : s.free.getLast? = some j := by
      rw [hfree]
      rfl
    rw [ended_of_last hlast] at he
    rw [ended_of_nil (show (s.take j []).free = [] from rfl)]
    exact hhead.trans he
  | cons i js =>
    obtain ⟨last, hlast⟩ : ∃ last, (i :: js).getLast? = some last :=
      Option.isSome_iff_exists.mp (by simp)
    have hmem := List.mem_of_getLast? hlast
    have hlast' : s.free.getLast? = some last := by
      rw [hfree, List.getLast?_cons_cons, hlast]
    rw [ended_of_last hlast'] at he
    rw [ended_of_last (show (s.take j (i :: js)).free.getLast? = some last from hlast)]
    have hlt : last < largeCount c.size := h.lt_of_free (hfree ▸ List.mem_cons_of_mem _ hmem)
    have hne : last ≠ j := by
      rintro rfl
      have hnd := h.parts.nodup_iff.mpr List.nodup_range
      rw [hfree] at hnd
      exact (List.nodup_cons.mp hnd).1 (List.mem_append_left _ hmem)
    have hb : s.bufctl j = s.hdr + 48 + j * 24 := rfl
    have hlb : s.bufctl last = s.hdr + 48 + last * 24 := rfl
    change load m' (s.bufctl last + 16) 8 = 0
    rw [load_congr fun x _ _ => honly x (by omega) (by omega) (by omega), he]

/-- `takeBuffer` gives out the first free buffer of the slab `fl_ptr` is at. -/
theorem takeBuffer_large (h : LargeShape c m kept held full (s :: rest)) (hfree : s.free = j :: js) :
    ∃ m', takeBuffer c.addr ⟨m, calls⟩ = some (s.buffer c.size j, ⟨m', calls⟩) ∧
      OnlyIn (fun x => (s.hdr + 16 ≤ x ∧ x < s.hdr + 4096) ∨ (c.addr + 40 ≤ x ∧ x < c.addr + 48)) m m' ∧
      LargeSlabOk c.size m' (s.take j js) ∧
      load m' (c.addr + 40) 8 = (if js = [] then nextOf m s.hdr else s.hdr) ∧
      (Ended m s → Ended m' (s.take j js)) := by
  have hmem : s ∈ full ++ s :: rest := by simp
  have hslab := h.slabs s hmem
  have hapart := (h.hdr_page hmem).apart
  have hs₀ := (h.hdr_page hmem).pos
  have hcount := largeCount_bounds c.size_gt
  have hfl : load m (c.addr + 40) 8 = s.hdr := h.flPtr
  have hj : j < largeCount c.size := hslab.lt_of_free (hfree ▸ List.mem_cons_self ..)
  have hchain := hslab.chain
  have hlen := hslab.length_eq
  rw [hfree] at hchain hlen
  rw [List.length_cons] at hlen
  have hb : s.bufctl j = s.hdr + 48 + j * 24 := rfl
  have hb₀ : s.bufctl j ≠ 0 := by omega
  let m₁ := store m (s.hdr + 24) 8 (load m (s.bufctl j + 16) 8)
  let m₂ := store m₁ (s.bufctl j + 16) 8 0xDEADBEEF
  have honly : OnlyIn (fun x => (s.hdr + 24 ≤ x ∧ x < s.hdr + 32) ∨
      (s.bufctl j + 16 ≤ x ∧ x < s.bufctl j + 24)) m m₂ :=
    OnlyIn.trans (onlyIn_store _ fun x _ _ => .inl (by omega))
      (onlyIn_store _ fun x _ _ => .inr (by omega))
  obtain ⟨m', hrun, honly', hrefs, hflPtr⟩ := takeRef_run calls (m := m₂) c.addr_ne hs₀ (by omega)
    (by rw [honly.load fun x _ _ => by omega, hfl])
    (r := s.taken.length) (n := largeCount c.size)
    (by rw [intAt_congr fun x _ _ => honly x (by omega), hslab.refs])
    (by rw [intAt_congr fun x _ _ => honly x (by omega), hslab.count]) (by omega) (by omega)
  have hhead : load m' (s.hdr + 24) 8 = load m (s.bufctl j + 16) 8 := by
    rw [honly'.load fun x _ _ => by omega, load_store_off _ _ _ _ (by omega),
      load_store _ _ (load_lt m _ 8)]
  have hrest : ∀ x, s.hdr + 16 ≤ x → x < s.hdr + 4096 → ¬ (s.hdr + 24 ≤ x ∧ x < s.hdr + 32) →
      ¬ (s.bufctl j + 16 ≤ x ∧ x < s.bufctl j + 24) → ¬ (s.hdr + 40 ≤ x ∧ x < s.hdr + 44) → m' x = m x := by
    intro x _ _ _ _ _
    rw [honly' x (by omega), honly x (by omega)]
  have htaken : LargeSlabOk c.size m' (s.take j js) := hslab.take hfree hrest hhead hrefs
  refine ⟨m', ?_, ?_, htaken, ?_, hslab.ended_take hfree (fun x _ _ hx => hrest x (by omega) (by omega)
    (by omega) hx (by omega)) hhead⟩
  · rw [takeBuffer, bind_run (read_eq c.addr_ne hfl), bind_run (read_eq c.addr_ne h.size),
      if_neg (show ¬ c.size ≤ smallObjSize from Nat.not_le.mpr c.size_gt),
      bind_run (read_eq hs₀ hchain.1), bind_run (read_run hb₀), bind_run (write_run hs₀),
      bind_run (write_run hb₀)]
    change (takeRef c.addr s.hdr >>= _) ⟨m₂, calls⟩ = _
    rw [bind_run hrun]
    exact read_eq hb₀ (htaken.bufs j hj)
  · exact (honly.mono fun x _ => by omega).trans (honly'.mono fun x _ => by omega)
  · have hnext : nextOf m₂ s.hdr = nextOf m s.hdr := by
      unfold nextOf KmemSlab.next
      exact honly.load fun x _ _ => by omega
    rw [hflPtr, hnext]
    by_cases hjs : js = []
    · rw [hjs, List.length_nil] at hlen
      rw [if_pos hjs, if_pos (by omega)]
    · have := List.length_pos_iff.mpr hjs
      rw [if_neg hjs, if_neg (by omega)]

/-- The slab after `s` in the list, or the tail. -/
theorem next_hdr (h : Linked (nextOf m) (prevOf m) (largeNodes c (full ++ s :: rest))) :
    nextOf m s.hdr = (rest.map LargeSlab.hdr).headD (c.addr + 120) := by
  have hsplit : largeNodes c (full ++ s :: rest) = ((c.addr + 72) :: full.map LargeSlab.hdr) ++
      s.hdr :: (rest.map LargeSlab.hdr ++ [c.addr + 120]) := by simp [largeNodes]
  rw [hsplit] at h
  cases rest with
  | nil => exact (linked_append_iff.mp h).2.1.1
  | cons t rest => exact (linked_append_iff.mp h).2.1.1

/-- Giving one slab other free and taken buffers changes no page and no node. -/
theorem pages_replace (c : LargeCache) (kept : List Nat) (full rest : List LargeSlab)
    {s s' : LargeSlab} (hhdr : s'.hdr = s.hdr) (hstart : s'.start = s.start) :
    ctlPages kept (full ++ s' :: rest) = ctlPages kept (full ++ s :: rest) ∧
      bufPages c.size (full ++ s' :: rest) = bufPages c.size (full ++ s :: rest) ∧
      largeNodes c (full ++ s' :: rest) = largeNodes c (full ++ s :: rest) := by
  unfold ctlPages bufPages largeNodes
  refine ⟨?_, ?_, ?_⟩
  · rw [List.map_append, List.map_append, List.map_cons, List.map_cons, hhdr]
  · rw [List.flatMap_append, List.flatMap_append, List.flatMap_cons, List.flatMap_cons,
      LargeSlab.bufPages, LargeSlab.bufPages, hstart]
  · rw [List.map_append, List.map_append, List.map_cons, List.map_cons, hhdr]

/-- A change to `fl_ptr` and to one slab behind its links leaves the other slabs as they were. -/
theorem LargeShape.others {m' : Mem} {s' t : LargeSlab} (h : LargeShape c m kept held full (s :: rest))
    (honly : OnlyIn (fun x => (s.hdr + 16 ≤ x ∧ x < s.hdr + 4096) ∨
      (c.addr + 40 ≤ x ∧ x < c.addr + 48)) m m') (ht : t ∈ full ++ s' :: rest) (hts : t ≠ s') :
    t ∈ full ++ s :: rest ∧ ∀ x, t.hdr + 16 ≤ x → x < t.hdr + 4096 → m' x = m x := by
  have hmem : s ∈ full ++ s :: rest := by simp
  have hpage := h.hdr_page hmem
  have hapart := hpage.apart
  have ht' : t ∈ full ∨ t ∈ rest := by simpa [hts] using ht
  have hold : t ∈ full ++ s :: rest := by
    simp only [List.mem_append, List.mem_cons]
    exact ht'.imp_right .inr
  have hne : t ≠ s := by
    rintro rfl
    have hnd := h.hdr_nodup
    rw [List.map_append, List.map_cons, List.nodup_append, List.nodup_cons] at hnd
    rcases ht' with hf | hr
    · exact hnd.2.2 t.hdr (List.mem_map_of_mem hf) t.hdr (List.mem_cons_self ..) rfl
    · exact hnd.2.1.1 (List.mem_map_of_mem hr)
  have := h.hdr_apart hold hmem hne
  have := (h.hdr_page hold).apart
  exact ⟨hold, fun x _ _ => honly x (by omega)⟩

/-- It leaves the list as it was, too. -/
theorem LargeShape.replace {m' : Mem} {held' : List Nat} {s' : LargeSlab} {full' part' : List LargeSlab}
    (h : LargeShape c m kept held full (s :: rest)) (hhdr : s'.hdr = s.hdr) (hstart : s'.start = s.start)
    (hlist : full' ++ part' = full ++ s' :: rest)
    (honly : OnlyIn (fun x => (s.hdr + 16 ≤ x ∧ x < s.hdr + 4096) ∨
      (c.addr + 40 ≤ x ∧ x < c.addr + 48)) m m')
    (hs : LargeSlabOk c.size m' s')
    (hfl : load m' (c.addr + 40) 8 = (part'.map LargeSlab.hdr).headD (c.addr + 120))
    (hfull : ∀ t ∈ full', t.free = []) (hpart : ∀ t ∈ part', t.free ≠ [])
    (hheld : held'.Perm ((full ++ s' :: rest).flatMap (LargeSlab.held c.size))) :
    LargeShape c m' kept held' full' part' := by
  have hmem : s ∈ full ++ s :: rest := by simp
  have hpage := h.hdr_page hmem
  have hapart := hpage.apart
  obtain ⟨hctl, hbuf, hnodes⟩ := pages_replace c kept full rest hhdr hstart
  have hfield : ∀ off, off + 8 ≤ 40 ∨ 48 ≤ off ∧ off + 8 ≤ 72 →
      load m' (c.addr + off) 8 = load m (c.addr + off) 8 :=
    fun off _ => honly.load fun x _ _ => by omega
  refine ⟨?_, ?_, (hfield 24 (by decide)).trans h.head, (hfield 32 (by decide)).trans h.tail,
    (hfield 56 (by decide)).trans h.size, hfl, ?_, ?_, hfull, hpart, hlist ▸ hheld⟩
  · rw [hlist, hctl, hbuf]
    exact h.nodup
  · rw [hlist, hctl, hbuf]
    exact h.pages
  · rw [hlist, hnodes]
    refine linked_of_onlyIn h.linked honly fun y hy x hyx => ?_
    have hfar := links_not_field (fun t ht => h.hdr_page ht) hy hyx
    rw [largeNodes, List.mem_cons, List.mem_append, List.mem_map, List.mem_singleton] at hy
    unfold Links at hyx
    rcases hy with rfl | ⟨t, ht, rfl⟩ | rfl
    · omega
    · have := hpage.aligned
      have := (h.hdr_page ht).aligned
      omega
    · omega
  · rw [hlist]
    intro t ht
    by_cases hts : t = s'
    · rw [hts]
      exact hs
    · obtain ⟨hold, hsame⟩ := h.others honly ht hts
      exact (h.slabs t hold).congr c.size_gt hsame

/-- The cache after a buffer was taken: a slab that gave its last one is now among the full. -/
theorem takeBuffer_largeShape (h : LargeShape c m kept held full (s :: rest))
    (hfree : s.free = j :: js) : ∃ m', takeBuffer c.addr ⟨m, calls⟩ = some (s.buffer c.size j, ⟨m', calls⟩) ∧
      OnlyIn (LargeCells c (full ++ s :: rest)) m m' ∧
      LargeShape c m' kept (s.buffer c.size j :: held) (if js = [] then full ++ [s.take j js] else full)
        (if js = [] then rest else s.take j js :: rest) ∧
      ((∀ t ∈ full ++ s :: rest, Ended m t) → ∀ t ∈ full ++ s.take j js :: rest, Ended m' t) := by
  obtain ⟨m', hrun, honly, hs, hfl, hends⟩ := takeBuffer_large calls h hfree
  refine ⟨m', hrun, honly.mono ?_, h.replace (show (s.take j js).hdr = s.hdr from rfl)
    rfl ?_ honly hs ?_ ?_ ?_ ?_, ?_⟩
  · rintro x (hx | hx)
    · exact .inr ⟨s, by simp, by omega⟩
    · exact .inl (by omega)
  · exact full_append_part js full rest (s.take j js)
  · rw [hfl]
    split
    · exact next_hdr h.linked
    · rfl
  · intro t ht
    split at ht
    · next hjs =>
      rcases List.mem_append.mp ht with ht | ht
      · exact h.full_taken t ht
      · rw [List.mem_singleton.mp ht]
        exact hjs
    · exact h.full_taken t ht
  · intro t ht
    split at ht
    · exact h.part_free t (List.mem_cons_of_mem _ ht)
    · next hjs =>
      rcases List.mem_cons.mp ht with rfl | ht
      · exact hjs
      · exact h.part_free t (List.mem_cons_of_mem _ ht)
  · have hheld := h.held_taken
    rw [List.flatMap_append, List.flatMap_cons] at hheld ⊢
    exact (hheld.cons _).trans List.perm_middle.symm
  · intro hended t ht
    by_cases hts : t = s.take j js
    · rw [hts]
      exact hends (hended s (by simp))
    · obtain ⟨hold, hsame⟩ := h.others honly ht hts
      exact (h.slabs t hold).ended_congr c.size_gt (hended t hold) hsame

end Take

section Alloc
variable {k : Machine} {c : LargeCache} {m : Mem} {calls : List FrameCall} {kept held : List Nat}
  {full part rest : List LargeSlab} {s : LargeSlab}

/-- With a free buffer at `fl_ptr` the rest of `kmem_cache_alloc` gives it out. -/
private theorem takeBuffer_largePart (calls : List FrameCall) (h : LargeShape c m kept held full (s :: rest)) :
    ∃ (m' : Mem) (j : Nat) (js : List Nat),
      (do growIfFull k c.addr; takeBuffer c.addr : Kernel Nat) ⟨m, calls⟩ =
        some (s.buffer c.size j, ⟨m', calls⟩) ∧
      OnlyIn (LargeCells c (full ++ s :: rest)) m m' ∧
      LargeShape c m' kept (s.buffer c.size j :: held) (if js = [] then full ++ [s.take j js] else full)
        (if js = [] then rest else s.take j js :: rest) ∧
      ((∀ t ∈ full ++ s :: rest, Ended m t) → ∀ t ∈ full ++ s.take j js :: rest, Ended m' t) := by
  have hslab := h.slabs s (by simp)
  have hlen := hslab.length_eq
  have hpos := List.length_pos_iff.mpr (h.part_free s (by simp))
  have hfl : load m (c.addr + 40) 8 = s.hdr := h.flPtr
  have hs₀ := (h.hdr_page (s := s) (by simp)).pos
  obtain ⟨j, js, hfree⟩ := List.exists_cons_of_ne_nil (h.part_free s (by simp))
  obtain ⟨m', hrun, honly, hshape⟩ := takeBuffer_largeShape calls h hfree
  have hfull : growIfFull k c.addr ⟨m, calls⟩ = some ((), ⟨m, calls⟩) := by
    rw [growIfFull, bind_run (read_eq c.addr_ne hfl), bind_run (readInt_eq hs₀ hslab.refs),
      bind_run (readInt_eq hs₀ hslab.count), if_neg (by omega)]
    rfl
  exact ⟨m', j, js, by rw [bind_run hfull, hrun], honly, hshape⟩

/-- `kmem_cache_alloc` gives out a buffer of the first slab with free buffers; only a cache without
free buffers grows for it. -/
theorem kmemCacheAlloc_large (calls : List FrameCall) (h : LargeShape c m kept held full part)
    (hf : part = [] → k.FreshLarge c calls ∧
      (ctlPages kept (full ++ [k.newSlab c.size calls]) ++
        bufPages c.size (full ++ [k.newSlab c.size calls])).Nodup ∧
      ∀ p ∈ ctlPages kept (full ++ [k.newSlab c.size calls]) ++
        bufPages c.size (full ++ [k.newSlab c.size calls]), LargePageOk c p) :
    ∃ (m' : Mem) (s : LargeSlab) (rest : List LargeSlab) (j : Nat) (js : List Nat),
      kmemCacheAlloc k c.addr ⟨m, calls⟩ = some (s.buffer c.size j,
        ⟨m', if part = [] then k.growCalls c.size calls else calls⟩) ∧
      (if part = [] then [k.newSlab c.size calls] else part) = s :: rest ∧
      OnlyIn (LargeCells c (full ++ s :: rest)) m m' ∧
      LargeShape c m' kept (s.buffer c.size j :: held) (if js = [] then full ++ [s.take j js] else full)
        (if js = [] then rest else s.take j js :: rest) ∧
      ((∀ t ∈ full ++ part, Ended m t) → ∀ t ∈ full ++ s.take j js :: rest, Ended m' t) := by
  cases part with
  | nil =>
    obtain ⟨hfresh, hnd, hpages⟩ := hf rfl
    obtain ⟨m₁, hrun₁, honly₁, hshape₁, hends₁⟩ := kmemCacheGrow_large h hfresh hnd hpages
    obtain ⟨m', j, js, hrun, honly, hshape, hends⟩ :=
      takeBuffer_largePart (k := k) (k.growCalls c.size calls) hshape₁
    have hfl : load m (c.addr + 40) 8 = c.addr + 120 := h.flPtr
    have hnone : growIfNone k c.addr ⟨m, calls⟩ = some ((), ⟨m₁, k.growCalls c.size calls⟩) := by
      rw [growIfNone, bind_run (read_eq c.addr_ne hfl), bind_run (read_eq c.addr_ne h.tail),
        if_pos (.inr rfl), hrun₁]
    refine ⟨m', _, [], j, js, ?_, rfl, honly₁.trans honly, hshape, fun h => hends (hends₁ h)⟩
    rw [kmemCacheAlloc, bind_run hnone]
    exact hrun
  | cons s rest =>
    obtain ⟨m', j, js, hrun, honly, hshape, hends⟩ := takeBuffer_largePart (k := k) calls h
    have hpage := h.hdr_page (s := s) (by simp)
    have hpos := hpage.pos
    have hapart := hpage.apart
    have hfl : load m (c.addr + 40) 8 = s.hdr := h.flPtr
    have hnone : growIfNone k c.addr ⟨m, calls⟩ = some ((), ⟨m, calls⟩) := by
      rw [growIfNone, bind_run (read_eq c.addr_ne hfl), bind_run (read_eq c.addr_ne h.tail),
        if_neg (by omega)]
      rfl
    refine ⟨m', s, rest, j, js, ?_, rfl, honly, hshape, hends⟩
    rw [kmemCacheAlloc, bind_run hnone]
    exact hrun

end Alloc

end NyaOS.Slab
