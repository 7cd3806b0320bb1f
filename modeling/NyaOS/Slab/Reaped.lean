import NyaOS.Slab.Reap

/-! The cache after `kmem_cache_reap`: the released slabs stay linked, so it is usable exactly when
there was nothing to release. -/
namespace NyaOS.Slab
open Library.ByteMemory Library.LinkedList
open Frames (pageSize)

/-- The bytes, in the direct map, of `n` frames from `a` on. -/
def InFrames (k : Machine) (a n x : Nat) : Prop := ∃ i < n * pageSize, x = k.physToVirt (a + i)

/-- The bytes of the frames that the calls give back, and of those they take. -/
def Released (k : Machine) (calls : List FrameCall) (x : Nat) : Prop :=
  ∃ a n, .free a n ∈ calls ∧ InFrames k a n x

def Obtained (k : Machine) (calls : List FrameCall) (x : Nat) : Prop :=
  ∃ a n, .alloc a n ∈ calls ∧ InFrames k a n x

/-- The slabs between `head` and `tail`, with their links consistent both ways. -/
structure ListOf (m : Mem) (cache : Nat) (slabs : List Nat) : Prop where
  nodup : (load m (cache + KmemCache.head) 8 :: (slabs ++ [load m (cache + KmemCache.tail) 8])).Nodup
  linked : Linked (nextOf m) (prevOf m)
    (load m (cache + KmemCache.head) 8 :: (slabs ++ [load m (cache + KmemCache.tail) 8]))

/-- The calls that `op` makes from `w` on. -/
def Calls {α : Type} (op : Kernel α) (w : World) (new : List FrameCall) : Prop :=
  ∃ a w', op w = some (a, w') ∧ w'.calls = new ++ w.calls

/-- `op` does not touch the bytes of `R`: its result and its frame calls do not depend on them, and
it leaves them as they are. -/
def Avoids {α : Type} (op : Kernel α) (w : World) (R : Nat → Prop) : Prop :=
  ∀ m, OnlyIn R w.mem m →
    (op ⟨m, w.calls⟩).map (fun r => (r.1, r.2.calls)) = (op w).map (fun r => (r.1, r.2.calls)) ∧
    ∀ r, op ⟨m, w.calls⟩ = some r → ∀ x, R x → r.2.mem x = m x

/-- `op` neither touches nor gives back again what the calls `freed` released; a frame that it takes
itself is its own. -/
structure LeavesAlone {α : Type} (k : Machine) (freed : List FrameCall) (op : Kernel α) (w : World) :
    Prop where
  frees : ∀ new, Calls op w new → ∀ x, Released k freed x → ¬ Released k new x
  touches : Avoids op w fun x => Released k freed x ∧ ¬ ∃ new, Calls op w new ∧ Obtained k new x

/-- A usable cache after the calls `freed` of a reap: no slab of the list was released, neither its
header nor its buffers, `fl_ptr` is at one of its slabs or at the tail, and the next calls leave
the released frames alone. -/
structure UsableAfter (k : Machine) (cache : Nat) (freed : List FrameCall) (w : World) : Prop where
  list : ∃ slabs, ListOf w.mem cache slabs ∧
    (∀ h ∈ slabs, ¬ Released k freed h ∧ ¬ Released k freed (startOf w.mem h)) ∧
    (load w.mem (cache + KmemCache.flPtr) 8 ∈ slabs ∨
      load w.mem (cache + KmemCache.flPtr) 8 = load w.mem (cache + KmemCache.tail) 8)
  alloc : LeavesAlone k freed (kmemCacheAlloc k cache) w
  reap : LeavesAlone k freed (kmemCacheReap k cache) w

/-- `kmem_cache_reap` returns and leaves a usable cache. -/
def ReapUsable (k : Machine) (cache : Nat) (w : World) : Prop :=
  ∃ freed m, kmemCacheReap k cache w = some ((), ⟨m, freed ++ w.calls⟩) ∧
    UsableAfter k cache freed ⟨m, freed ++ w.calls⟩

/-- No slab of the list is empty. -/
def NoneEmpty (m : Mem) (cache : Nat) : Prop :=
  ∀ slabs, ListOf m cache slabs → ∀ h ∈ slabs, slabRefs m h ≠ 0

theorem ListOf.unique {m : Mem} {cache : Nat} {slabs slabs' : List Nat} (h : ListOf m cache slabs)
    (h' : ListOf m cache slabs') : slabs = slabs' := by
  have htail : ∀ {l : List Nat}, ListOf m cache l → load m (cache + KmemCache.tail) 8 ∉ l := by
    intro l hl
    have hnd := (List.nodup_cons.mp hl.nodup).2
    exact fun hm => (List.nodup_append.mp hnd).2.2 _ hm _ (List.mem_singleton_self _) rfl
  exact h.linked.unique h'.linked rfl (htail h) (htail h')

theorem not_released_nil (k : Machine) (x : Nat) : ¬ Released k [] x := by
  rintro ⟨a, n, h, -⟩
  cases h

/-- Where nothing was released there is nothing to leave alone. -/
theorem leavesAlone_nil {α : Type} (k : Machine) (op : Kernel α) (w : World) :
    LeavesAlone k [] op w where
  frees _ _ x hx := (not_released_nil k x hx).elim
  touches m hm := by
    have hsame : m = w.mem := funext fun x => hm x fun hx => not_released_nil k x hx.1
    rw [hsame]
    exact ⟨rfl, fun _ _ x hx => (not_released_nil k x hx.1).elim⟩

section Usable
variable {k : Machine} {cache : Nat} {w : World} {slabs released : List Nat}
  {freedBy : Nat → List FrameCall}

/-- Reaping leaves memory as it is, so every released slab is still in the list. -/
theorem reapUsable_iff (hlist : ListOf w.mem cache slabs)
    (hfl : load w.mem (cache + KmemCache.flPtr) 8 ∈ slabs ∨
      load w.mem (cache + KmemCache.flPtr) 8 = load w.mem (cache + KmemCache.tail) 8)
    (hrun : kmemCacheReap k cache w = some ((), ⟨w.mem, released.reverse.flatMap freedBy ++ w.calls⟩))
    (hmem : ∀ h, h ∈ released ↔ h ∈ slabs ∧ slabRefs w.mem h = 0)
    (hrel : ∀ h ∈ released, Released k (freedBy h) h ∨ Released k (freedBy h) (startOf w.mem h)) :
    ReapUsable k cache w ↔ NoneEmpty w.mem cache := by
  constructor
  · rintro ⟨freed, m, hrun', husable⟩ slabs' hslabs' h hh hzero
    rw [hlist.unique hslabs'] at hmem
    rw [hrun, Option.some.injEq, Prod.mk.injEq, World.mk.injEq] at hrun'
    obtain ⟨-, hm, hcalls⟩ := hrun'
    have hfreed := List.append_cancel_right hcalls
    subst hm hfreed
    obtain ⟨slabs'', hlist'', hkept, -⟩ := husable.list
    obtain rfl := hslabs'.unique hlist''
    have hreleased := (hmem h).mpr ⟨hh, hzero⟩
    have hall : ∀ x, Released k (freedBy h) x → Released k (released.reverse.flatMap freedBy) x := by
      rintro x ⟨a, n, hcall, hin⟩
      exact ⟨a, n, List.mem_flatMap.mpr ⟨h, List.mem_reverse.mpr hreleased, hcall⟩, hin⟩
    rcases hrel h hreleased with hx | hx
    · exact (hkept h hh).1 (hall _ hx)
    · exact (hkept h hh).2 (hall _ hx)
  · intro hnone
    have hnil : released = [] := by
      refine List.eq_nil_iff_forall_not_mem.mpr fun h hh => ?_
      obtain ⟨hs, hzero⟩ := (hmem h).mp hh
      exact hnone slabs hlist h hs hzero
    rw [hnil, List.reverse_nil, List.flatMap_nil] at hrun
    refine ⟨[], w.mem, hrun, ⟨slabs, hlist, fun h _ => ?_, hfl⟩, leavesAlone_nil k _ _,
      leavesAlone_nil k _ _⟩
    exact ⟨not_released_nil k _, not_released_nil k _⟩

end Usable

/-- `fl_ptr` is at the first slab with free buffers or at the tail. -/
private theorem headD_mem {l₁ l₂ : List Nat} {p t : Nat} (h : p = l₂.headD t) : p ∈ l₁ ++ l₂ ∨ p = t := by
  cases l₂ with
  | nil => exact .inr h
  | cons x l₂ =>
    rw [h]
    exact .inl (List.mem_append_right _ List.mem_cons_self)

/-- Frame addresses are where the direct map puts them. -/
private theorem physToVirt_add (k : Machine) {p i : Nat} (h : p + i < 2 ^ 64) :
    k.physToVirt (k.virtToPhys p + i) = p + i := by
  have := k.offset_lt
  unfold Machine.physToVirt Machine.virtToPhys
  omega

theorem Tidy.reapUsable_iff {k : Machine} {c : SmallCache} {s : State} (h : Tidy k c s) :
    ReapUsable k c.addr s.world ↔ NoneEmpty s.world.mem c.addr := by
  obtain ⟨full, used, empty, free, hshape, -, hused, hempty⟩ := h
  obtain ⟨hbusy, hidle⟩ := hshape.refs_zero_iff hused hempty
  have hpages : ∀ p ∈ empty, PageOk c p := fun p hp =>
    hshape.pages p (List.mem_append_right _ (List.mem_append_right _ hp))
  have hnodes := hshape.nodes_eq
  rw [headOf, tailOf] at hnodes
  have hlist : ListOf s.world.mem c.addr ((full ++ (used ++ empty)).map header) := by
    constructor
    · rw [hnodes]
      exact (headers_nodes hshape.nodup hshape.pages).nodup
    · rw [hnodes]
      exact hshape.linked
  have hfl : load s.world.mem (c.addr + KmemCache.flPtr) 8 ∈ (full ++ (used ++ empty)).map header ∨
      load s.world.mem (c.addr + KmemCache.flPtr) 8 = load s.world.mem (c.addr + KmemCache.tail) 8 := by
    rw [List.map_append]
    exact headD_mem (hshape.flPtr.trans (by rw [← hshape.tail]))
  have hrun : kmemCacheReap k c.addr s.world = some ((), ⟨s.world.mem,
      (empty.map header).reverse.flatMap (fun h => [.free (k.virtToPhys (pageOf h)) 1]) ++
        s.world.calls⟩) := by
    rw [hshape.reap s.world.calls hused hempty, ← List.map_reverse, ← List.map_reverse,
      List.flatMap_map, List.map_eq_flatMap]
    congr 4
    refine List.flatMap_congr fun p hp => ?_
    rw [pageOf_header (hpages p (List.mem_reverse.mp hp)).aligned]
  refine Slab.reapUsable_iff hlist hfl hrun ?_ ?_
  · intro x
    constructor
    · intro hx
      obtain ⟨p, hp, rfl⟩ := List.mem_map.mp hx
      exact ⟨List.mem_map_of_mem (List.mem_append_right _ (List.mem_append_right _ hp)), hidle p hp⟩
    · rintro ⟨hx, hzero⟩
      obtain ⟨p, hp, rfl⟩ := List.mem_map.mp hx
      rw [← List.append_assoc] at hp
      refine List.mem_map_of_mem ((List.mem_append.mp hp).resolve_left fun hbad => ?_)
      have hpos : 0 < slabRefs s.world.mem (header p) := hbusy p hbad
      omega
  · intro x hx
    obtain ⟨p, hp, rfl⟩ := List.mem_map.mp hx
    have hpage := hpages p hp
    have hbound := hpage.bound
    refine .inl ⟨_, 1, List.mem_singleton_self _, 4048, by decide, ?_⟩
    rw [pageOf_header hpage.aligned, physToVirt_add k (by omega)]
    rfl

theorem LargeTidy.reapUsable_iff {k : Machine} {c : LargeCache} {s : State} (h : LargeTidy k c s) :
    ReapUsable k c.addr s.world ↔ NoneEmpty s.world.mem c.addr := by
  obtain ⟨full, part, hinv, hfirst⟩ := h
  obtain ⟨used, empty, rfl, hused, hempty⟩ := hfirst.split
  obtain ⟨hbusy, hidle⟩ := hinv.refs_zero_iff hused hempty
  have hshape := hinv.shape
  have hmem : ∀ t ∈ empty, t ∈ full ++ (used ++ empty) := fun t ht =>
    List.mem_append_right _ (List.mem_append_right _ ht)
  have hlist : ListOf s.world.mem c.addr ((full ++ (used ++ empty)).map LargeSlab.hdr) := by
    have hlinked := hshape.linked
    have hnodes := (headers_largeNodes hshape.hdr_nodup fun t ht => hshape.hdr_page ht).nodup
    rw [largeNodes, ← hshape.head, ← hshape.tail] at hlinked hnodes
    exact ⟨hnodes, hlinked⟩
  have hfl : load s.world.mem (c.addr + KmemCache.flPtr) 8 ∈
        (full ++ (used ++ empty)).map LargeSlab.hdr ∨
      load s.world.mem (c.addr + KmemCache.flPtr) 8 = load s.world.mem (c.addr + KmemCache.tail) 8 := by
    rw [List.map_append]
    exact headD_mem (hshape.flPtr.trans (by rw [← hshape.tail]))
  refine Slab.reapUsable_iff hlist hfl (hinv.reap_run hused hempty) ?_ ?_
  · intro x
    constructor
    · intro hx
      obtain ⟨t, ht, rfl⟩ := List.mem_map.mp hx
      exact ⟨List.mem_map_of_mem (hmem t ht), hidle t ht⟩
    · rintro ⟨hx, hzero⟩
      obtain ⟨t, ht, rfl⟩ := List.mem_map.mp hx
      rw [← List.append_assoc] at ht
      refine List.mem_map_of_mem ((List.mem_append.mp ht).resolve_left fun hbad => ?_)
      have := hbusy t hbad
      omega
  · intro x hx
    obtain ⟨t, ht, rfl⟩ := List.mem_map.mp hx
    have hslab := hshape.slabs t (hmem t ht)
    have hcount := largeCount_bounds c.size_gt
    have hsize := c.size_gt
    have hfirst : t.start ∈ t.bufPages c.size :=
      List.mem_map.mpr ⟨0, List.mem_range.mpr (largeFrames_pos hsize), by simp⟩
    have hpage : LargePageOk c t.start := hshape.pages _ (List.mem_append_right _
      (List.mem_flatMap.mpr ⟨t, hmem t ht, hfirst⟩))
    have hstart : startOf s.world.mem t.hdr = t.start := hslab.start
    have hbound := hpage.bound
    have haligned := hpage.aligned
    have hcnt : (intAt s.world.mem (t.hdr + KmemSlab.bufCnt) % 2 ^ 64).toNat = largeCount c.size := by
      rw [show intAt s.world.mem (t.hdr + KmemSlab.bufCnt) = _ from hslab.count]
      omega
    have hbytes : 1 ≤ largeCount c.size * c.size := Nat.mul_pos (by omega) (by omega)
    refine .inr ⟨_, _, List.mem_cons_of_mem _ (List.mem_singleton_self _), 0, ?_, ?_⟩
    · rw [hcnt, show load s.world.mem (c.addr + KmemCache.size) 8 = _ from hshape.size]
      unfold pageSize
      omega
    · rw [show load s.world.mem (t.hdr + KmemSlab.pstart) 8 = _ from hslab.start, hstart,
        physToVirt_add k (by unfold pageSize; omega)]
      unfold pageSize
      omega

/-- In every run from an initialised cache, reaping leaves a usable cache exactly when no slab of
the list is empty. -/
theorem reap_usable_iff (k : Machine) :
    (∀ (c : SmallCache) (s₀ s : State), Initialised s₀.world.mem c.addr c.size → s₀.held = [] →
      Reach k c KeepsAlive s₀ s →
      (ReapUsable k c.addr s.world ↔ NoneEmpty s.world.mem c.addr)) ∧
    ∀ (c : LargeCache) (s₀ s : State), Initialised s₀.world.mem c.addr c.size → s₀.held = [] →
      LargeReach k c False s₀ s →
      (ReapUsable k c.addr s.world ↔ NoneEmpty s.world.mem c.addr) := by
  constructor
  · rintro c ⟨w, held⟩ s hinit rfl hr
    exact (hr.tidy (.start hinit)).reapUsable_iff
  · rintro c ⟨w, held⟩ s hinit rfl hr
    have htidy : LargeTidy k c ⟨w, []⟩ := ⟨[], [], .start hinit, List.forall_mem_nil _⟩
    exact (hr.tidy htidy).reapUsable_iff

theorem reap_usable_iff_one :
    (∃ s₀ s b, Initialised s₀.world.mem cache64.addr cache64.size ∧
      Reach bootMachine cache64 KeepsAlive s₀ s ∧ s.held = [b] ∧
      (ReapUsable bootMachine cache64.addr s.world ↔ NoneEmpty s.world.mem cache64.addr)) ∧
    ∃ s₀ s b, Initialised s₀.world.mem cache1024.addr cache1024.size ∧
      LargeReach bootMachine cache1024 False s₀ s ∧ s.held = [b] ∧
      (ReapUsable bootMachine cache1024.addr s.world ↔ NoneEmpty s.world.mem cache1024.addr) := by
  obtain ⟨hsmall, hlarge⟩ := reap_usable_iff bootMachine
  constructor
  · obtain ⟨s₀, s, b, hinit, hheld, hr, hb⟩ := cache64_allocated
    exact ⟨s₀, s, b, hinit, hr, hb, hsmall _ _ _ hinit hheld hr⟩
  · obtain ⟨s₀, s, b, hinit, hheld, hr, hb⟩ := cache1024_allocated
    exact ⟨s₀, s, b, hinit, hr, hb, hlarge _ _ _ hinit hheld hr⟩

/-- A slab that was just made is empty, is released, and stays in the list. -/
theorem grown_unusable {k : Machine} {c : SmallCache} {w : World}
    (hinit : Initialised w.mem c.addr c.size) (hf : k.Fresh c w) :
    ∃ w', kmemCacheGrow k c.addr w = some ((), w') ∧ ¬ ReapUsable k c.addr w' := by
  obtain ⟨m', hrun, -, hshape⟩ := kmemCacheGrow_spec (Shape.start hinit) hf rfl (List.not_mem_nil)
  obtain ⟨w', hrun', htidy⟩ := (Tidy.start hinit).grow hf
  obtain rfl := (Prod.mk.inj (Option.some.inj (hrun.symm.trans hrun'))).2
  refine ⟨_, hrun, fun husable => ?_⟩
  rw [htidy.reapUsable_iff] at husable
  have hnodes := hshape.nodes_eq
  rw [headOf, tailOf] at hnodes
  refine husable [header (k.kalloc w.calls.length + k.offset)] ⟨?_, ?_⟩ _ (List.mem_singleton_self _) ?_
  · exact hnodes ▸ (headers_nodes hshape.nodup hshape.pages).nodup
  · exact hnodes ▸ hshape.linked
  · exact (hshape.slabs _ (List.mem_singleton_self _)).refs

/-- A cache of 64-byte objects grown by one slab, then reaped. -/
theorem reap_keeps_released : ∃ s₀ s, Initialised s₀.world.mem cache64.addr cache64.size ∧
    s₀.held = [] ∧ Reach bootMachine cache64 KeepsAlive s₀ s ∧
    ¬ ReapUsable bootMachine cache64.addr s.world := by
  obtain ⟨m', -, hinit⟩ := initialised_of_cacheInit cache64.addr_ne cache64.addr_le
    (show cache64.size < 2 ^ 64 by decide) 0 ⟨fun _ => 0, []⟩
  have hfresh : FreshFrame bootMachine cache64 [] 0x100000 :=
    ⟨by decide, by decide, by decide, id, .inl (by decide)⟩
  obtain ⟨w, hrun, hbad⟩ := grown_unusable (w := ⟨m', []⟩) hinit hfresh
  exact ⟨⟨⟨m', []⟩, []⟩, ⟨w, []⟩, hinit, rfl, .single (.grow hfresh hrun), hbad⟩

end NyaOS.Slab
