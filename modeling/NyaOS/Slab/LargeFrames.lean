import NyaOS.Slab.Reap

/-! The frames of a large slab: which calls obtained them, how they are carved into buffers, and
which of them `_free_large_slab` gives back. -/
namespace NyaOS.Slab
open Library.ByteMemory Library.LinkedList
open Frames (pageSize)

/-- The growth that made a slab, from a state of the run: it took `n` frames at `a` for the buffers
and `n'` frames at `b` for the header. -/
def GrownFrom (k : Machine) (c : LargeCache) (s₀ s : State) (slab a n b n' : Nat) : Prop :=
  ∃ w w' held, LargeReach k c False s₀ ⟨w, held⟩ ∧ k.FreshLarge c w.calls ∧
    kmemCacheGrow k c.addr w = some ((), w') ∧ w'.calls = .alloc b n' :: .alloc a n :: w.calls ∧
    w'.calls <:+ s.world.calls ∧ slab = k.physToVirt b

def slabCount (m : Mem) (slab : Nat) : Int := intAt m (slab + KmemSlab.bufCnt)

/-- The held buffers in the `n` frames from `start` on. -/
def heldIn (held : List Nat) (start n : Nat) : List Nat :=
  held.filter fun x => start ≤ x ∧ x < start + n * pageSize

/-- One slab: what it has given out, and that its frames have room for its buffers, its header and
its bufctls. -/
structure SlabCarved (k : Machine) (c : LargeCache) (s₀ s : State) (slab a n b n' : Nat) : Prop where
  grown : GrownFrom k c s₀ s slab a n b n'
  start : startOf s.world.mem slab = k.physToVirt a
  count : 8 ≤ slabCount s.world.mem slab ∧ slabCount s.world.mem slab ≤ 15
  header : KmemSlab.size + slabCount s.world.mem slab * KmemBufctl.size ≤ n' * pageSize
  data : slabCount s.world.mem slab * c.size ≤ n * pageSize
  refs : slabRefs s.world.mem slab = (heldIn s.held (k.physToVirt a) n).length
  refs_le : slabRefs s.world.mem slab ≤ slabCount s.world.mem slab
  freelist : load s.world.mem (slab + KmemSlab.freelist) 8 = 0 ↔
    slabRefs s.world.mem slab = slabCount s.world.mem slab

/-- The slabs of the list. -/
def SlabList (c : LargeCache) (m : Mem) (slabs : List Nat) : Prop :=
  Linked (nextOf m) (prevOf m) (load m (c.addr + KmemCache.head) 8 ::
    (slabs ++ [load m (c.addr + KmemCache.tail) 8]))

/-- The buffers given out, against each other, the frames they come from and the headers. -/
structure Carved (k : Machine) (c : LargeCache) (s₀ s : State) : Prop where
  apart : s.held.Pairwise fun x y => x + c.size ≤ y ∨ y + c.size ≤ x
  slabs : ∃ slabs, SlabList c s.world.mem slabs ∧
    (∀ slab ∈ slabs, ∃ a n b n', SlabCarved k c s₀ s slab a n b n') ∧
    ∀ x ∈ s.held,
      (∃ slab ∈ slabs, ∃ a n b n', SlabCarved k c s₀ s slab a n b n' ∧
        k.physToVirt a ≤ x ∧ x + c.size ≤ k.physToVirt a + n * pageSize) ∧
      ∀ slab ∈ slabs, (x + c.size : Int) ≤ slab ∨
        slab + KmemSlab.size + slabCount s.world.mem slab * KmemBufctl.size ≤ (x : Int)
  next : (load s.world.mem (c.addr + KmemCache.flPtr) 8 = load s.world.mem (c.addr + KmemCache.tail) 8 →
    k.FreshLarge c s.world.calls) → ∃ x w', kmemCacheAlloc k c.addr s.world = some (x, w')

section Held
variable {c : LargeCache} {m : Mem} {kept held : List Nat} {full part : List LargeSlab}
  (h : LargeShape c m kept held full part)
include h

/-- Two buffers of one slab have different numbers, and two slabs have different frames. -/
theorem LargeShape.held_pairwise :
    held.Pairwise fun x y => x + c.size ≤ y ∨ y + c.size ≤ x := by
  rw [h.held_taken.pairwise_iff fun hxy => hxy.symm, List.pairwise_flatMap]
  constructor
  · intro s hs
    have hnd : s.taken.Nodup :=
      ((h.slabs s hs).parts.nodup_iff.mpr List.nodup_range).of_append_right
    rw [LargeSlab.held, List.pairwise_map]
    refine hnd.imp fun {i j} hij => ?_
    unfold LargeSlab.buffer
    rcases Nat.lt_or_gt_of_ne hij with hlt | hgt
    · have := Nat.mul_le_mul_right c.size hlt
      rw [Nat.succ_mul] at this
      omega
    · have := Nat.mul_le_mul_right c.size hgt
      rw [Nat.succ_mul] at this
      omega
  · refine (h.hdr_nodup.of_map _).imp_of_mem fun {s t} hs ht hne x hx y hy => ?_
    have hsx := (h.slabs s hs).inside hx
    have hty := (h.slabs t ht).inside hy
    have hsize := c.size_gt
    by_contra hmeet
    exact hne (h.same_slab hs ht (x := max x y) (by omega) (by omega))

/-- The held buffers in a slab's frames are the slab's own. -/
theorem LargeShape.heldIn_length {t : LargeSlab} (ht : t ∈ full ++ part) :
    (heldIn held t.start (largeFrames c.size)).length = t.taken.length := by
  have hsize := c.size_gt
  obtain ⟨l, r, hsplit⟩ := List.append_of_mem ht
  have hnd := h.hdr_nodup.of_map
  rw [hsplit, List.nodup_middle, List.nodup_cons] at hnd
  have hother : ∀ u ∈ l ++ r, ∀ x ∈ u.held c.size,
      ¬ (t.start ≤ x ∧ x < t.start + largeFrames c.size * pageSize) := by
    intro u hu x hx hin
    have hmem : u ∈ full ++ part := by
      rw [hsplit]
      exact (List.perm_middle.mem_iff).mpr (List.mem_cons_of_mem _ hu)
    have hux := (h.slabs u hmem).inside hx
    have htu : t = u := h.same_slab ht hmem hin (by omega)
    exact hnd.1 (htu ▸ hu)
  have hnone : ∀ us : List LargeSlab, (∀ u ∈ us, u ∈ l ++ r) →
      heldIn (us.flatMap (LargeSlab.held c.size)) t.start (largeFrames c.size) = [] := by
    intro us hus
    rw [heldIn, List.filter_eq_nil_iff]
    intro x hx
    obtain ⟨u, hu, hxu⟩ := List.mem_flatMap.mp hx
    simpa using hother u (hus u hu) x hxu
  have hself : heldIn (t.held c.size) t.start (largeFrames c.size) = t.held c.size := by
    rw [heldIn, List.filter_eq_self]
    intro x hx
    have := (h.slabs t ht).inside hx
    exact decide_eq_true ⟨this.1, by unfold pageSize; omega⟩
  have hperm := h.held_taken.filter fun x => t.start ≤ x ∧ x < t.start + largeFrames c.size * pageSize
  rw [heldIn, hperm.length_eq, hsplit, List.flatMap_append, List.flatMap_cons, List.filter_append,
    List.filter_append]
  change (heldIn _ _ _ ++ (heldIn _ _ _ ++ heldIn _ _ _)).length = _
  rw [hnone l fun u hu => List.mem_append_left _ hu, hnone r fun u hu => List.mem_append_right _ hu,
    hself, List.nil_append, List.append_nil, LargeSlab.held, List.length_map]

end Held

/-- The slab of the model with the growth that made it. -/
def Grown (k : Machine) (c : LargeCache) (s₀ s : State) (t : LargeSlab) : Prop :=
  ∃ a b, GrownFrom k c s₀ s t.hdr a (largeFrames c.size) b 1 ∧
    k.physToVirt a = t.start ∧ k.virtToPhys t.start = a ∧ k.virtToPhys t.hdr = b

/-- The invariant of a run without frees: every slab was made by a growth of the run, and its free
list ends with `NULL`. -/
structure GrownInv (k : Machine) (c : LargeCache) (s₀ s : State) (full part : List LargeSlab) :
    Prop where
  inv : LargeInv k c [] full part s
  grown : ∀ t ∈ full ++ part, Grown k c s₀ s t
  ended : ∀ t ∈ full ++ part, Ended s.world.mem t

section Run
variable {k : Machine} {c : LargeCache} {s₀ s s' : State} {full part : List LargeSlab}

theorem Grown.mono {t u : LargeSlab} (h : Grown k c s₀ s u) (hlog : s.world.calls <:+ s'.world.calls)
    (hhdr : t.hdr = u.hdr) (hstart : t.start = u.start) : Grown k c s₀ s' t := by
  obtain ⟨a, b, ⟨w, w', held, hr, hfresh, hgrow, hcalls, hsuffix, hslab⟩, ha, hpa, hpb⟩ := h
  rw [Grown, hhdr, hstart]
  exact ⟨a, b, ⟨w, w', held, hr, hfresh, hgrow, hcalls, hsuffix.trans hlog, hslab⟩, ha, hpa, hpb⟩

/-- The slab a growth makes. -/
theorem LargeInv.grown_new {kept : List Nat} (h : LargeInv k c kept full part s)
    (hr : LargeReach k c False s₀ s) (hf : k.FreshLarge c s.world.calls)
    (hcalls : s'.world.calls = k.growCalls c.size s.world.calls) {t : LargeSlab}
    (hhdr : t.hdr = (k.newSlab c.size s.world.calls).hdr)
    (hstart : t.start = (k.newSlab c.size s.world.calls).start) : Grown k c s₀ s' t := by
  obtain ⟨w', hgrow, hcalls', -⟩ := h.grow hf
  have hbufs := hf.buffers.physToVirt (largeFrames_pos c.size_gt)
  have hheader := hf.header.physToVirt Nat.zero_lt_one
  have hbufs_mapped := hf.buffers.mapped
  have hheader_mapped := hf.header.mapped
  have hframes := largeFrames_pos c.size_gt
  rw [Grown, hhdr, hstart]
  have hlog : w'.calls <:+ s'.world.calls := (hcalls'.trans hcalls.symm) ▸ List.suffix_refl _
  exact ⟨_, _, ⟨s.world, w', s.held, hr, hf, hgrow, hcalls', hlog, hheader.symm⟩, hbufs,
    virtToPhys_frame k (by omega), virtToPhys_frame k (by omega)⟩

theorem LargeStep.grownInv (hstep : LargeStep k c False s s') (hr : LargeReach k c False s₀ s)
    (h : GrownInv k c s₀ s full part) : ∃ full' part', GrownInv k c s₀ s' full' part' := by
  obtain ⟨full', part', hinv, -, -, hdesc⟩ := hstep.inv h.inv False.elim
  refine ⟨full', part', hinv, fun t ht => ?_, hdesc.ended h.ended⟩
  rcases hdesc.source t ht with ⟨u, hu, hhdr, hstart⟩ | ⟨hf, hcalls, hhdr, hstart⟩
  · exact (h.grown u hu).mono hdesc.log hhdr hstart
  · exact h.inv.grown_new hr hf hcalls hhdr hstart

theorem LargeReach.grownInv (hr : LargeReach k c False s₀ s)
    (hinit : Initialised s₀.world.mem c.addr c.size) (hheld : s₀.held = []) :
    ∃ full part, GrownInv k c s₀ s full part := by
  induction hr with
  | refl =>
    obtain ⟨w, held⟩ := s₀
    cases hheld
    exact ⟨[], [], .start hinit, List.forall_mem_nil _, List.forall_mem_nil _⟩
  | tail hr hstep ih =>
    obtain ⟨full, part, h⟩ := ih
    exact hstep.grownInv hr h

end Run

section Carve
variable {k : Machine} {c : LargeCache} {s₀ s : State} {full part : List LargeSlab}
  (h : GrownInv k c s₀ s full part)
include h

theorem GrownInv.slabList : SlabList c s.world.mem ((full ++ part).map LargeSlab.hdr) := by
  have hlinked := h.inv.shape.linked
  rw [largeNodes, ← h.inv.shape.head, ← h.inv.shape.tail] at hlinked
  exact hlinked

/-- A slab is full when the chain of its bufctls has come to its end. -/
theorem GrownInv.freelist_iff {t : LargeSlab} (ht : t ∈ full ++ part) :
    load s.world.mem (t.hdr + 24) 8 = 0 ↔ t.taken.length = largeCount c.size := by
  have hslab := h.inv.shape.slabs t ht
  have hlen := hslab.length_eq
  have hended := h.ended t ht
  cases hfree : t.free with
  | nil =>
    rw [hfree, List.length_nil] at hlen
    exact iff_of_true ((ended_of_nil hfree).mp hended) (by omega)
  | cons j js =>
    have hchain := hslab.chain
    rw [hfree] at hlen hchain
    rw [List.length_cons] at hlen
    have hhead : load s.world.mem (t.hdr + 24) 8 = t.bufctl j := hchain.1
    rw [hhead]
    refine iff_of_false ?_ (by omega)
    unfold LargeSlab.bufctl
    omega

theorem GrownInv.slabCarved {t : LargeSlab} (ht : t ∈ full ++ part) :
    ∃ a b, SlabCarved k c s₀ s t.hdr a (largeFrames c.size) b 1 ∧ k.physToVirt a = t.start := by
  obtain ⟨a, b, hgrown, ha, -, -⟩ := h.grown t ht
  have hslab := h.inv.shape.slabs t ht
  have hcount : slabCount s.world.mem t.hdr = largeCount c.size := hslab.count
  have hrefs : slabRefs s.world.mem t.hdr = t.taken.length := hslab.refs
  have hbounds := largeCount_bounds c.size_gt
  have hlen := hslab.length_eq
  refine ⟨a, b, ⟨hgrown, hslab.start.trans ha.symm, ?_, ?_, ?_, ?_, ?_, ?_⟩, ha⟩
  · rw [hcount]
    omega
  · rw [hcount]
    unfold KmemSlab.size KmemBufctl.size pageSize
    omega
  · have hdata : largeCount c.size * c.size ≤ largeFrames c.size * pageSize := Nat.div_mul_le_self _ _
    rw [hcount]
    exact_mod_cast hdata
  · rw [hrefs, ha, h.inv.shape.heldIn_length ht]
  · rw [hrefs, hcount]
    omega
  · rw [hrefs, hcount, Int.natCast_inj]
    exact h.freelist_iff ht

/-- No buffer meets a header page. -/
theorem GrownInv.off_header {x : Nat} (hx : x ∈ s.held) {t : LargeSlab} (ht : t ∈ full ++ part) :
    x + c.size ≤ t.hdr ∨ t.hdr + 4096 ≤ x := by
  have hsize := c.size_gt
  by_contra hmeet
  obtain ⟨-, hoff⟩ := h.inv.shape.held_apart hx (x := max x t.hdr) (by omega)
  exact hoff t.hdr (List.mem_append_right _ (List.mem_map_of_mem ht)) (by omega)

theorem GrownInv.carved : Carved k c s₀ s := by
  refine ⟨h.inv.shape.held_pairwise, ⟨_, h.slabList, ?_, fun x hx => ⟨?_, ?_⟩⟩, ?_⟩
  · intro slab hslab
    obtain ⟨t, ht, rfl⟩ := List.mem_map.mp hslab
    obtain ⟨a, b, hcarved, -⟩ := h.slabCarved ht
    exact ⟨a, _, b, _, hcarved⟩
  · obtain ⟨t, ht, hxt⟩ := h.inv.shape.mem_held hx
    obtain ⟨a, b, hcarved, ha⟩ := h.slabCarved ht
    obtain ⟨hlo, hhi⟩ := (h.inv.shape.slabs t ht).inside hxt
    refine ⟨t.hdr, List.mem_map_of_mem ht, a, _, b, _, hcarved, ?_⟩
    rw [ha]
    exact ⟨hlo, hhi⟩
  · intro slab hslab
    obtain ⟨t, ht, rfl⟩ := List.mem_map.mp hslab
    have hcount : slabCount s.world.mem t.hdr = largeCount c.size := (h.inv.shape.slabs t ht).count
    have hbounds := largeCount_bounds c.size_gt
    have hoff := h.off_header hx ht
    rw [hcount]
    unfold KmemSlab.size KmemBufctl.size
    omega
  · intro hfresh
    obtain ⟨x, w', -, -, hrun, -⟩ := h.inv.alloc hfresh
    exact ⟨x, w', hrun⟩

end Carve

/-- In every run of allocations from an initialised cache of large objects. -/
theorem large_slabs_carved (k : Machine) (c : LargeCache) (s₀ s : State)
    (hinit : Initialised s₀.world.mem c.addr c.size) (hheld : s₀.held = [])
    (hr : LargeReach k c False s₀ s) : Carved k c s₀ s := by
  obtain ⟨full, part, h⟩ := hr.grownInv hinit hheld
  exact h.carved

theorem cache1024_carved : ∃ s₀ s x, Initialised s₀.world.mem cache1024.addr cache1024.size ∧
    LargeReach bootMachine cache1024 False s₀ s ∧ s.held = [x] ∧ Carved bootMachine cache1024 s₀ s := by
  obtain ⟨s₀, s, x, hinit, hheld, hr, hx⟩ := cache1024_allocated
  exact ⟨s₀, s, x, hinit, hr, hx, large_slabs_carved _ _ _ _ hinit hheld hr⟩

/-- `_free_large_slab` passes exactly the two ranges to `kfree_frames`. -/
def Undoes (k : Machine) (c : LargeCache) (w : World) (slab a n b n' : Nat) : Prop :=
  ∃ w' released, freeLargeSlab k c.addr slab w = some ((), w') ∧ w'.calls = released ++ w.calls ∧
    released.Perm [.free a n, .free b n']

theorem two_le_largeFrames {size : Nat} (h : 512 < size) : 2 ≤ largeFrames size := by
  unfold largeFrames pageSize
  omega

/-- The buffers fill their frames so far that rounding up gives the number of frames again. -/
theorem largeFrames_of_count {size : Nat} (h : 512 < size) :
    (largeCount size * size + pageSize - 1) / pageSize = largeFrames size := by
  have hhi : largeCount size * size ≤ largeFrames size * 4096 := Nat.div_mul_le_self _ _
  have hlo : 8 * size ≤ largeCount size * size := Nat.mul_le_mul_right _ (largeCount_bounds h).1
  have hframes : largeFrames size * 4096 < size * 8 + 4096 := by
    unfold largeFrames pageSize
    omega
  unfold pageSize
  omega

section Release
variable {k : Machine} {c : LargeCache} {s₀ s : State} {full part : List LargeSlab}

/-- The frames of the buffers are given back; of the header's, none: 48 bytes and 24 for each
buffer are less than a page, and the division rounds down. -/
theorem LargeInv.release {kept : List Nat} (h : LargeInv k c kept full part s) {t : LargeSlab}
    (ht : t ∈ full ++ part) : freeLargeSlab k c.addr t.hdr s.world = some ((), ⟨s.world.mem,
      .free (k.virtToPhys t.hdr) 0 :: .free (k.virtToPhys t.start) (largeFrames c.size) ::
        s.world.calls⟩) := by
  have hslab := h.shape.slabs t ht
  have hbounds := largeCount_bounds c.size_gt
  have hcount : intAt s.world.mem (t.hdr + KmemSlab.bufCnt) = largeCount c.size := hslab.count
  have hstart : load s.world.mem (t.hdr + KmemSlab.pstart) 8 = t.start := hslab.start
  have hsize : load s.world.mem (c.addr + KmemCache.size) 8 = c.size := h.shape.size
  have hfirst : t.start ∈ bufPages c.size (full ++ part) := by
    refine List.mem_flatMap.mpr ⟨t, ht, List.mem_map.mpr ⟨0, ?_, by omega⟩⟩
    exact List.mem_range.mpr (largeFrames_pos c.size_gt)
  have haligned := (h.shape.pages _ (List.mem_append_right _ hfirst)).aligned
  have hcnt : ((largeCount c.size : Int) % 2 ^ 64).toNat = largeCount c.size := by omega
  have hnone : (KmemSlab.size + largeCount c.size * KmemBufctl.size) / pageSize = 0 := by
    unfold KmemSlab.size KmemBufctl.size pageSize
    omega
  have hpage : t.start / pageSize * pageSize = t.start := by
    unfold pageSize
    omega
  have hcalls : releaseCalls k s.world.mem c.addr t.hdr =
      [.free (k.virtToPhys t.hdr) 0, .free (k.virtToPhys t.start) (largeFrames c.size)] := by
    simp only [releaseCalls, hcount, hcnt, hnone, hstart, hsize, hpage, largeFrames_of_count c.size_gt]
  rw [show freeLargeSlab k c.addr t.hdr s.world = _ from
    freeLargeSlab_run k s.world.mem s.world.calls c.addr_ne (h.shape.hdr_page ht).pos, hcalls]
  rfl

/-- The growth took one frame for the header. -/
theorem GrownFrom.header {slab a n b n' : Nat} (h : GrownFrom k c s₀ s slab a n b n')
    (hinit : Initialised s₀.world.mem c.addr c.size) (hheld : s₀.held = []) : n' = 1 := by
  obtain ⟨w, w', held, hr, hfresh, hgrow, hcalls, -, -⟩ := h
  obtain ⟨full, part, hinv⟩ := hr.grownInv hinit hheld
  obtain ⟨w'', hgrow', hcalls', -⟩ := hinv.inv.grow hfresh
  rw [hgrow] at hgrow'
  cases hgrow'
  rw [hcalls, Machine.growCalls] at hcalls'
  injection hcalls' with hhead
  injection hhead

/-- So the header's frame is not given back. -/
theorem LargeInv.not_undoes {kept : List Nat} (h : LargeInv k c kept full part s) {t : LargeSlab}
    (ht : t ∈ full ++ part) (a n b : Nat) : ¬ Undoes k c s.world t.hdr a n b 1 := by
  rintro ⟨w', released, hrun, hcalls, hperm⟩
  rw [h.release ht] at hrun
  cases hrun
  have hreleased : released =
      [.free (k.virtToPhys t.hdr) 0, .free (k.virtToPhys t.start) (largeFrames c.size)] :=
    (List.append_cancel_right hcalls).symm
  have hmem : FrameCall.free b 1 ∈ released := hperm.mem_iff.mpr (by simp)
  have htwo := two_le_largeFrames c.size_gt
  rw [hreleased, List.mem_cons, List.mem_singleton] at hmem
  rcases hmem with hheader | hdata
  · injection hheader with _ hzero
    cases hzero
  · injection hdata with _ hone
    omega

end Release

/-- In no run does releasing a slab undo growing it: the data frames match, but of the header's
frame none is given back. -/
theorem release_never_undoes (k : Machine) (c : LargeCache) (s₀ s : State)
    (hinit : Initialised s₀.world.mem c.addr c.size) (hheld : s₀.held = [])
    (hr : LargeReach k c False s₀ s) : ∃ slabs, SlabList c s.world.mem slabs ∧ ∀ slab ∈ slabs,
      (∃ a n b n', GrownFrom k c s₀ s slab a n b n' ∧ freeLargeSlab k c.addr slab s.world =
        some ((), ⟨s.world.mem, .free b 0 :: .free a n :: s.world.calls⟩)) ∧
      ∀ a n b n', GrownFrom k c s₀ s slab a n b n' → ¬ Undoes k c s.world slab a n b n' := by
  obtain ⟨full, part, h⟩ := hr.grownInv hinit hheld
  refine ⟨_, h.slabList, fun slab hslab => ?_⟩
  obtain ⟨t, ht, rfl⟩ := List.mem_map.mp hslab
  constructor
  · obtain ⟨a, b, hgrown, -, hpa, hpb⟩ := h.grown t ht
    refine ⟨a, _, b, _, hgrown, ?_⟩
    rw [h.inv.release ht, hpa, hpb]
  · intro a n b n' hgrown
    rw [hgrown.header hinit hheld]
    exact h.inv.not_undoes ht a n b

/-- One slab of a cache of 1024-byte objects: two frames for the buffers, one for the header. -/
theorem cache1024_grown : ∃ s₀ s, Initialised s₀.world.mem cache1024.addr cache1024.size ∧
    s₀.held = [] ∧ LargeReach bootMachine cache1024 False s₀ s ∧
    LargeInv bootMachine cache1024 [] [] [bootMachine.newSlab 1024 []] s ∧
    GrownFrom bootMachine cache1024 s₀ s 0xffff800000110000 0x100000 2 0x110000 1 := by
  obtain ⟨m, -, hinit⟩ := initialised_of_cacheInit cache1024.addr_ne cache1024.addr_le
    (show cache1024.size < 2 ^ 64 by decide) 0 ⟨fun _ => 0, []⟩
  have hstart : LargeInv bootMachine cache1024 [] [] [] ⟨⟨m, []⟩, []⟩ := .start hinit
  obtain ⟨w, hrun, hcalls, -, hinv, -⟩ := hstart.grow bootMachine_freshLarge
  have hlog : w.calls = [.alloc 0x110000 1, .alloc 0x100000 2] := by
    rw [hcalls]
    simp [Machine.growCalls, bootMachine, cache1024, largeFrames, pageSize]
  exact ⟨_, ⟨w, []⟩, hinit, rfl, .single (.grow bootMachine_freshLarge hrun), hinv,
    ⟨_, w, [], .refl, bootMachine_freshLarge, hrun, hlog, List.suffix_refl _, by decide⟩⟩

theorem cache1024_released : ∃ s₀ s slabs, Initialised s₀.world.mem cache1024.addr cache1024.size ∧
    GrownFrom bootMachine cache1024 s₀ s 0xffff800000110000 0x100000 2 0x110000 1 ∧
    SlabList cache1024 s.world.mem slabs ∧ ∀ slab ∈ slabs, ∀ a n b n',
      GrownFrom bootMachine cache1024 s₀ s slab a n b n' →
        ¬ Undoes bootMachine cache1024 s.world slab a n b n' := by
  obtain ⟨s₀, s, hinit, hheld, hr, -, hgrown⟩ := cache1024_grown
  obtain ⟨slabs, hlist, hall⟩ := release_never_undoes _ _ _ _ hinit hheld hr
  exact ⟨s₀, s, slabs, hinit, hgrown, hlist, fun slab hslab => (hall slab hslab).2⟩

/-- Grown and released: the frame of the header is passed with the count 0. -/
theorem cache1024_header_leaks : ∃ s₀ s, Initialised s₀.world.mem cache1024.addr cache1024.size ∧
    s₀.held = [] ∧ LargeReach bootMachine cache1024 False s₀ s ∧
    GrownFrom bootMachine cache1024 s₀ s 0xffff800000110000 0x100000 2 0x110000 1 ∧
    ¬ Undoes bootMachine cache1024 s.world 0xffff800000110000 0x100000 2 0x110000 1 := by
  obtain ⟨s₀, s, hinit, hheld, hr, hinv, hgrown⟩ := cache1024_grown
  exact ⟨s₀, s, hinit, hheld, hr, hgrown, hinv.not_undoes (List.mem_singleton_self _) _ _ _⟩

end NyaOS.Slab
