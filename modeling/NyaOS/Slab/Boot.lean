import NyaOS.Slab.Large
import NyaOS.Slab.Safety

/-! The caches that `slab_alloc_init` and `kmem_cache_create` make, and `kmalloc` on them. -/
namespace NyaOS.Slab
open Library.ByteMemory Library.LinkedList
open Frames (pageSize)

/-- A cache of `caches` as `slab_alloc_init` leaves it: nothing links its sentinels and `fl_ptr`
is at the head. -/
structure Unlinked (m : Mem) (cache size : Nat) : Prop where
  size : load m (cache + 56) 8 = size
  head : load m (cache + 24) 8 = cache + 72
  tail : load m (cache + 32) 8 = cache + 120
  flPtr : load m (cache + 40) 8 = cache + 72
  next : nextOf m (cache + 72) = 0
  prev : prevOf m (cache + 120) = 0
  refs : intAt m (cache + 72 + 40) = 0
  count : intAt m (cache + 72 + 44) = 0

theorem Unlinked.congr {m m' : Mem} {cache size : Nat} (h : Unlinked m cache size)
    (hsame : ∀ x, cache ≤ x → x < cache + 168 → m' x = m x) : Unlinked m' cache size where
  size := by rw [load_congr fun x _ _ => hsame x (by omega) (by omega), h.size]
  head := by rw [load_congr fun x _ _ => hsame x (by omega) (by omega), h.head]
  tail := by rw [load_congr fun x _ _ => hsame x (by omega) (by omega), h.tail]
  flPtr := by rw [load_congr fun x _ _ => hsame x (by omega) (by omega), h.flPtr]
  next := (load_congr fun x _ hx => hsame x (by omega) (by unfold KmemSlab.next at hx; omega)).trans h.next
  prev := (load_congr fun x _ hx => hsame x (by omega) (by unfold KmemSlab.prev at hx; omega)).trans h.prev
  refs := by rw [intAt_congr fun x _ _ => hsame x (by omega) (by omega), h.refs]
  count := by rw [intAt_congr fun x _ _ => hsame x (by omega) (by omega), h.count]

theorem cacheSize_bounds {i : Nat} (hi : i < 12) : 2 ≤ 2 <<< i ∧ 2 <<< i ≤ 4096 := by
  have hle : 2 ^ i ≤ 2 ^ 11 := Nat.pow_le_pow_right (by decide) (by omega)
  have hpos : 1 ≤ 2 ^ i := Nat.one_le_two_pow
  rw [Nat.shiftLeft_eq]
  omega

/-- The stores that the loop makes into the cache object at `b`. -/
private def fillCache (m : Mem) (b size name : Nat) : Mem :=
  let m := store (store (store m (b + 56) 8 size) (b + 72) 48 0) (b + 120) 48 0
  let m := store (store m (b + 24) 8 (b + 72)) (b + 32) 8 (b + 120)
  store (store m (b + 40) 8 (b + 72)) (b + 48) 8 name

private theorem fillCache_onlyIn (m : Mem) (b size name : Nat) :
    OnlyIn (fun x => b ≤ x ∧ x < b + 168) m (fillCache m b size name) := by
  intro x hx
  unfold fillCache
  simp (disch := omega) only [store_off]

/-- Both nodes stay zeroed: the fields are written in front of them. -/
private theorem fillCache_unlinked {m : Mem} {b size name : Nat} (hbound : b + 168 ≤ 2 ^ 64)
    (hsize : size < 2 ^ 64) : Unlinked (fillCache m b size name) b size := by
  have hhslab : OnlyIn (fun x => x < b + 72 ∨ b + 120 ≤ x)
      (store (store m (b + 56) 8 size) (b + 72) 48 0) (fillCache m b size name) := by
    intro x hx
    unfold fillCache
    simp (disch := omega) only [store_off]
  have htslab : OnlyIn (fun x => x < b + 120 ∨ b + 168 ≤ x)
      (store (store (store m (b + 56) 8 size) (b + 72) 48 0) (b + 120) 48 0)
      (fillCache m b size name) := by
    intro x hx
    unfold fillCache
    simp (disch := omega) only [store_off]
  have hzero : ∀ a n, b + 72 ≤ a → a + n ≤ b + 120 → load (fillCache m b size name) a n = 0 := by
    intro a n hlo hhi
    rw [hhslab.load fun x _ _ => by omega, load_store_zero _ hlo (by omega)]
  refine ⟨?_, ?_, ?_, ?_, ?_, ?_, ?_, ?_⟩
  · unfold fillCache
    simp (disch := omega) only [load_store, load_store_off]
  · unfold fillCache
    simp (disch := omega) only [load_store, load_store_off]
  · unfold fillCache
    simp (disch := omega) only [load_store, load_store_off]
  · unfold fillCache
    simp (disch := omega) only [load_store, load_store_off]
  · exact hzero (b + 72 + 8) 8 (by omega) (by omega)
  · have hprev : load (fillCache m b size name) (b + 120 + 0) 8 = 0 := by
      rw [htslab.load fun x _ _ => by omega, load_store_zero _ (by omega) (by omega)]
    exact hprev
  · rw [intAt, hzero _ _ (by omega) (by omega)]
    rfl
  · rw [intAt, hzero _ _ (by omega) (by omega)]
    rfl

/-- The body of the loop, once `kmem_cache_alloc` has returned `b`. -/
theorem initCache_run {k : Machine} {st : Statics} {i b : Nat} {w : World} {m : Mem}
    {calls : List FrameCall} (halloc : kmemCacheAlloc k st.cacheCache w = some (b, ⟨m, calls⟩))
    (hst : st.caches ≠ 0) (hb : b ≠ 0) (hbound : b + 168 ≤ 2 ^ 64) (hi : i < 12)
    (hapart : st.caches + 96 ≤ b ∨ b + 168 ≤ st.caches) :
    ∃ m', initCache k st i w = some ((), ⟨m', calls⟩) ∧
      OnlyIn (fun x => (st.caches + 8 * i ≤ x ∧ x < st.caches + 8 * i + 8) ∨
        (b ≤ x ∧ x < b + 168)) m m' ∧
      load m' (st.caches + 8 * i) 8 = b ∧ Unlinked m' b (2 <<< i) := by
  have hsize := cacheSize_bounds hi
  let m₁ := store m (st.caches + 8 * i) 8 b
  have honly := fillCache_onlyIn m₁ b (2 <<< i) st.tmpName
  have hcell : ∀ {m' : Mem}, OnlyIn (fun x => b ≤ x ∧ x < b + 168) m₁ m' →
      load m' (st.caches + 8 * i) 8 = b := by
    intro m' h
    rw [h.load fun x _ _ => by omega, load_store _ _ (by omega)]
  have hread : ∀ {m' : Mem}, OnlyIn (fun x => b ≤ x ∧ x < b + 168) m₁ m' →
      read st.caches (8 * i) ⟨m', calls⟩ = some (b, ⟨m', calls⟩) := fun h => read_eq hst (hcell h)
  refine ⟨fillCache m₁ b (2 <<< i) st.tmpName, ?_, ?_, hcell honly, fillCache_unlinked hbound (by omega)⟩
  · let m₃ := store (store (store (store (store m₁ (b + 56) 8 (2 <<< i)) (b + 72) 48 0) (b + 120) 48 0)
      (b + 24) 8 (b + 72)) (b + 32) 8 (b + 120)
    have hhead : load m₃ (b + 24) 8 = b + 72 := by
      rw [load_store_off _ _ _ _ (by omega), load_store _ _ (by omega)]
    rw [initCache, bind_run halloc, bind_run (write_run hst), bind_run (hread ?_),
      bind_run (write_run hb), bind_run (hread ?_), bind_run (memset_run (by omega)),
      bind_run (hread ?_), bind_run (memset_run (by omega)), bind_run (hread ?_),
      bind_run (hread ?_), bind_run (write_run hb), bind_run (hread ?_), bind_run (hread ?_),
      bind_run (write_run hb), bind_run (hread ?_), bind_run (hread ?_)]
    change (read b KmemCache.head >>= _) ⟨m₃, calls⟩ = _
    rw [bind_run (read_eq hb hhead), bind_run (write_run hb), bind_run (hread ?_), write_run hb]
    · rfl
    all_goals
      intro x hx
      simp (disch := omega) only [KmemCache.size, KmemCache.hslab, KmemCache.tslab, KmemSlab.size,
        KmemCache.head, KmemCache.tail, KmemCache.flPtr, m₃, m₁, store_off]
  · exact (onlyIn_store m fun x _ _ => by omega).trans (honly.mono fun x _ => by omega)

section Fault
variable {k : Machine} {m : Mem} {calls : List FrameCall} {cache size slab : Nat}

/-- Appending to an unlinked cache goes through `tail->prev`, which is null. -/
theorem appendSlab_unlinked (h : Unlinked m cache size) (hc : cache ≠ 0) :
    appendSlab cache slab ⟨m, calls⟩ = none := by
  have hinsert : insertSlab (cache + 120) slab ⟨m, calls⟩ = none := by
    rw [insertSlab, bind_run (read_eq (by omega) h.prev)]
    exact bind_none rfl
  rw [appendSlab, bind_run (read_eq hc h.tail)]
  exact bind_none hinsert

/-- What is mapped at `n` frames from `a` on does not meet the cache object. -/
structure ClearOf (k : Machine) (cache a n : Nat) : Prop where
  mapped : a + k.offset + n * 4096 ≤ 2 ^ 64
  apart : a + k.offset + n * 4096 ≤ cache ∨ cache + 168 ≤ a + k.offset

/-- Growing an unlinked cache faults, whichever way its slab is laid out. -/
theorem kmemCacheGrow_unlinked (h : Unlinked m cache size) (hc : cache ≠ 0)
    (hbound : cache + 168 ≤ 2 ^ 64) (hpos : 1 ≤ size) (hle : size ≤ 4096)
    (hsmall : ∀ c : SmallCache, c.addr = cache → FreshFrame k c calls (k.kalloc calls.length))
    (hbufs : k.kalloc calls.length + k.offset + 8 * 4096 ≤ 2 ^ 64)
    (hslab : ClearOf k cache (k.kalloc (calls.length + 1)) 1) (hslab₀ : k.kalloc (calls.length + 1) ≠ 0) :
    kmemCacheGrow k cache ⟨m, calls⟩ = none := by
  rw [kmemCacheGrow, bind_run (read_eq hc h.size)]
  by_cases hsz : size ≤ 512
  · let c : SmallCache := ⟨cache, size, hc, hbound, hsz⟩
    have hf := hsmall c rfl
    have hapart := hf.apart
    obtain ⟨m', hrun, honly, -⟩ := growSmall_run (m := m) hf h.size rfl
    rw [if_pos (show size ≤ smallObjSize from hsz), bind_run hrun]
    refine appendSlab_unlinked (h.congr fun x _ _ => honly x ?_) hc
    have hcache : c.addr = cache := rfl
    omega
  · have hmapped := hslab.mapped
    have hapart := hslab.apart
    have hframes : largeFrames size ≤ 8 := by
      unfold largeFrames pageSize
      omega
    have hcount : largeCount size * size ≤ largeFrames size * 4096 := Nat.div_mul_le_self _ _
    obtain ⟨m', hrun, honly, -⟩ := growLarge_run (k := k) (m := m) calls hc h.size
      (by omega) (Nat.mod_eq_of_lt (by omega)) (Nat.mod_eq_of_lt (by omega))
      (show k.kalloc (calls.length + 1) + k.offset ≠ 0 by omega) (by omega) (by omega) (by omega)
    rw [if_neg (show ¬ size ≤ smallObjSize from hsz), bind_run hrun]
    exact appendSlab_unlinked (h.congr fun x _ _ => honly x (by omega)) hc

/-- So does allocating from it: the head passes for a full slab. -/
theorem kmemCacheAlloc_unlinked (h : Unlinked m cache size) (hc : cache ≠ 0)
    (hgrow : kmemCacheGrow k cache ⟨m, calls⟩ = none) :
    kmemCacheAlloc k cache ⟨m, calls⟩ = none := by
  have hhead : cache + 72 ≠ 0 := by omega
  have hnone : growIfNone k cache ⟨m, calls⟩ = some ((), ⟨m, calls⟩) := by
    rw [growIfNone, bind_run (read_eq hc h.flPtr), bind_run (read_eq hc h.tail), if_neg (by omega)]
    rfl
  have hfull : growIfFull k cache ⟨m, calls⟩ = none := by
    rw [growIfFull, bind_run (read_eq hc h.flPtr), bind_run (readInt_eq hhead h.refs),
      bind_run (readInt_eq hhead h.count), if_pos rfl, hgrow]
  rw [kmemCacheAlloc, bind_run hnone]
  exact bind_none hfull

end Fault

/-- Fresh frames for the layer: in the direct map, apart from its static objects. -/
structure FreshFrames (k : Machine) (st : Statics) (calls : List FrameCall) (a n : Nat) : Prop where
  aligned : a % 4096 = 0
  ne_null : a ≠ 0
  mapped : a + k.offset + n * 4096 ≤ 2 ^ 64
  unused : ∀ i < n, ¬ Owned calls (a + i * pageSize)
  apart : a + k.offset + n * 4096 ≤ st.cacheCache ∨ st.cacheCache + 168 ≤ a + k.offset
  apart' : a + k.offset + n * 4096 ≤ st.caches ∨ st.caches + 96 ≤ a + k.offset

/-- The static objects do not overlap and are in memory. -/
structure Statics.Valid (st : Statics) : Prop where
  cacheCache : st.cacheCache ≠ 0 ∧ st.cacheCache + 168 ≤ 2 ^ 64
  caches : st.caches ≠ 0 ∧ st.caches + 96 ≤ 2 ^ 64
  apart : st.cacheCache + 168 ≤ st.caches ∨ st.caches + 96 ≤ st.cacheCache

/-- `cache_cache`, whose objects are caches. -/
def Statics.Valid.cache {st : Statics} (h : st.Valid) : SmallCache :=
  ⟨st.cacheCache, 168, h.cacheCache.1, h.cacheCache.2, by decide⟩

/-- The state of `slab_alloc_init` before turn `i`: `caches` has the first `i` of the held
objects, which are all in page `p`. -/
structure Booting (st : Statics) (c : SmallCache) (p i : Nat) (m : Mem) (held : List Nat) : Prop where
  shape : ∃ full part free, full ++ part = [p] ∧ Shape c m held full part free
  length : held.length = i
  caches : ∀ j < i, load m (st.caches + 8 * j) 8 ∈ held ∧
    Unlinked m (load m (st.caches + 8 * j) 8) (2 <<< j)

/-- Held buffers of a cache with one slab. -/
theorem Shape.held_in_page {c : SmallCache} {m : Mem} {held full part : List Nat}
    {free : Nat → List Nat} {p b : Nat} (h : Shape c m held full part free)
    (hlist : full ++ part = [p]) (hb : b ∈ held) : PageOk c p ∧ b ∈ buffers c.size p := by
  have hmem := h.held_pages b hb
  have hbuf := h.mem_held hb
  have hpage := h.pages _ hmem
  rw [hlist, List.mem_singleton] at hmem
  rw [hmem] at hbuf hpage
  exact ⟨hpage, hbuf⟩

section Boot
variable {k : Machine} {st : Statics} (hst : st.Valid) {p i : Nat} {m : Mem}
  (calls : List FrameCall) {held : List Nat}

/-- Twelve objects fit in one page. -/
theorem Booting.alloc (h : Booting st hst.cache p i m held) (hi : i < 12) :
    ∃ b m', kmemCacheAlloc k st.cacheCache ⟨m, calls⟩ = some (b, ⟨m', calls⟩) ∧ b ∉ held ∧
      OnlyIn (Private hst.cache [p] held) m m' ∧
      ∃ full part free, full ++ part = [p] ∧ Shape hst.cache m' (b :: held) full part free := by
  obtain ⟨full, part, free, hlist, hshape⟩ := h.shape
  have hpart : part ≠ [] := by
    rintro rfl
    rw [List.append_nil] at hlist
    have hp : p ∈ full := by simp [hlist]
    have hlen := (hshape.slabs p (List.mem_append_left [] hp)).length_eq
    have htaken : (takenIn held p).length ≤ held.length := List.length_filter_le ..
    have hcount : bufCount hst.cache.size = 21 := by
      change bufCount 168 = 21
      decide
    rw [hshape.full_taken p hp, List.length_nil, hcount] at hlen
    have := h.length
    omega
  obtain ⟨m', b, full', part', free', new, hrun, hnew, hb, hlist', honly, hshape'⟩ :=
    kmemCacheAlloc_spec (k := k) calls hshape fun hp => absurd hp hpart
  rw [if_neg hpart] at hnew
  rw [hnew] at hrun hlist'
  rw [List.map_nil, List.append_nil, hlist] at hlist'
  rw [hlist'] at honly
  exact ⟨b, m', hrun, hb, honly, full', part', free', hlist', hshape'⟩

/-- One turn of the loop. -/
theorem Booting.turn (h : Booting st hst.cache p i m held) (hi : i < 12)
    (hapart : p + 4096 ≤ st.caches ∨ st.caches + 96 ≤ p) :
    ∃ m' held', initCache k st i ⟨m, calls⟩ = some ((), ⟨m', calls⟩) ∧
      Booting st hst.cache p (i + 1) m' held' := by
  obtain ⟨b, m₁, halloc, hb, honly₁, full, part, free, hlist, hshape⟩ := h.alloc (k := k) hst calls hi
  have hcache : hst.cache.addr = st.cacheCache ∧ hst.cache.size = 168 := ⟨rfl, rfl⟩
  have hst_apart := hst.apart
  obtain ⟨hpage, hbuf⟩ := hshape.held_in_page hlist (List.mem_cons_self ..)
  have hbound := buffer_bounds hbuf
  have hpos := hpage.pos
  have hend := hpage.bound
  have hclear := hpage.apart
  obtain ⟨m', hrun, honly, hcell, hunlinked⟩ := initCache_run halloc hst.caches.1 (by omega)
    (by omega) hi (by omega)
  refine ⟨m', b :: held, hrun, ⟨⟨full, part, free, hlist, hshape.congr fun x hx => honly x ?_⟩,
    by rw [List.length_cons, h.length], fun j hj => ?_⟩⟩
  · rcases hx with hx | ⟨q, hq, hqx, hno⟩
    · omega
    · rw [hlist, List.mem_singleton] at hq
      have := hno b (List.mem_cons_self ..)
      omega
  · rcases Nat.lt_succ_iff_lt_or_eq.mp hj with hj | rfl
    · obtain ⟨hmem, hold⟩ := h.caches j hj
      obtain ⟨-, hbuf'⟩ := hshape.held_in_page hlist (List.mem_cons_of_mem b hmem)
      have hne : b ≠ load m (st.caches + 8 * j) 8 := fun he => hb (he ▸ hmem)
      have hdisjoint := buffer_apart hbuf hbuf' hne
      have hbound' := buffer_bounds hbuf'
      have hsame : load m' (st.caches + 8 * j) 8 = load m (st.caches + 8 * j) 8 := by
        rw [honly.load fun x _ _ => by omega]
        refine honly₁.load fun x _ _ => ?_
        rintro (hx | ⟨q, hq, hqx, -⟩)
        · omega
        · rw [List.mem_singleton] at hq
          omega
      rw [hsame]
      refine ⟨List.mem_cons_of_mem b hmem, hold.congr fun x hlo hhi => ?_⟩
      rw [honly x (by omega)]
      refine honly₁ x ?_
      rintro (hx | ⟨q, hq, hqx, hno⟩)
      · omega
      · exact hno _ hmem (by omega)
    · rw [hcell]
      exact ⟨List.mem_cons_self .., hunlinked⟩

/-- The loop from turn `i` on. -/
theorem Booting.turns (hapart : p + 4096 ≤ st.caches ∨ st.caches + 96 ≤ p) (n : Nat)
    (h : Booting st hst.cache p i m held) (hn : i + n ≤ 12) :
    ∃ m' held', initCaches k st (List.range' i n) ⟨m, calls⟩ = some ((), ⟨m', calls⟩) ∧
      Booting st hst.cache p (i + n) m' held' := by
  induction n generalizing i m held with
  | zero => exact ⟨m, held, rfl, h⟩
  | succ n ih =>
    obtain ⟨m₁, held₁, hrun₁, h₁⟩ := h.turn (k := k) hst calls (by omega) hapart
    obtain ⟨m', held', hrun, h'⟩ := ih h₁ (by omega)
    refine ⟨m', held', ?_, by rwa [show i + (n + 1) = i + 1 + n by omega]⟩
    rw [List.range'_succ, initCaches, bind_run hrun₁]
    exact hrun

/-- `slab_alloc_init` runs to its end with one frame. -/
theorem slabAllocInit_run (hf : FreshFrames k st calls (k.kalloc calls.length) 1) :
    ∃ m' held, slabAllocInit k st ⟨m, calls⟩ =
        some ((), ⟨m', .alloc (k.kalloc calls.length) 1 :: calls⟩) ∧
      Booting st hst.cache (k.kalloc calls.length + k.offset) 12 m' held := by
  have hfresh : FreshFrame k hst.cache calls (k.kalloc calls.length) :=
    ⟨hf.aligned, hf.ne_null, hf.mapped, by simpa using hf.unused 0 (by decide), hf.apart⟩
  obtain ⟨m₁, hrun₁, -, hshape₁⟩ := cacheInit_spec hst.cache st.cacheName m calls
  obtain ⟨m₂, hrun₂, -, hshape₂⟩ := kmemCacheGrow_spec hshape₁ hfresh rfl (by simp)
  have hstart : Booting st hst.cache (k.kalloc calls.length + k.offset) 0 m₂ [] :=
    ⟨⟨[], _, _, rfl, hshape₂⟩, rfl, by simp⟩
  obtain ⟨m', held, hrun, hbooting⟩ :=
    hstart.turns (k := k) hst (.alloc (k.kalloc calls.length) 1 :: calls) hf.apart' 12 (by decide)
  refine ⟨m', held, ?_, hbooting⟩
  rw [slabAllocInit]
  change (cacheInit hst.cache.addr hst.cache.size st.cacheName >>= _) ⟨m, calls⟩ = _
  rw [bind_run hrun₁]
  change (kmemCacheGrow k hst.cache.addr >>= _) ⟨m₁, calls⟩ = _
  rw [bind_run hrun₂, initialSlabCnt, List.range_eq_range']
  exact hrun

end Boot

/-- A cache that can be allocated from: its list is linked, and `fl_ptr` is at the tail or at a
linked slab with a free buffer. -/
structure WellFormed (m : Mem) (cache : Nat) : Prop where
  ne_null : cache ≠ 0
  list : ∃ slabs, Linked (nextOf m) (prevOf m)
      (load m (cache + KmemCache.head) 8 :: (slabs ++ [load m (cache + KmemCache.tail) 8])) ∧
    (load m (cache + KmemCache.flPtr) 8 = load m (cache + KmemCache.tail) 8 ∨
      ∃ slab ∈ slabs, load m (cache + KmemCache.flPtr) 8 = slab ∧
        intAt m (slab + KmemSlab.refs) < intAt m (slab + KmemSlab.bufCnt))

theorem Shape.wellFormed {c : SmallCache} {m : Mem} {held full part : List Nat}
    {free : Nat → List Nat} (h : Shape c m held full part free) : WellFormed m c.addr := by
  refine ⟨c.addr_ne, (full ++ part).map header, ?_, ?_⟩
  · exact h.nodes_eq ▸ h.linked
  · cases part with
    | nil => exact .inl (h.flPtr.trans h.tail.symm)
    | cons p rest =>
      have hslab := h.slabs p (by simp)
      have hlen := hslab.length_eq
      have hfree := List.length_pos_iff.mpr (h.part_free p (by simp))
      refine .inr ⟨header p, by simp, h.flPtr, ?_⟩
      change intAt m (header p + 40) < intAt m (header p + 44)
      rw [hslab.refs, hslab.count]
      omega

theorem Unlinked.not_wellFormed {m : Mem} {cache size : Nat} (h : Unlinked m cache size) :
    ¬ WellFormed m cache := by
  rintro ⟨-, slabs, -, hfl | ⟨slab, -, hfl, hlt⟩⟩
  · have := h.flPtr.symm.trans (hfl.trans h.tail)
    omega
  · have hslab : slab = cache + 72 := hfl.symm.trans h.flPtr
    rw [hslab] at hlt
    change intAt m (cache + 72 + 40) < intAt m (cache + 72 + 44) at hlt
    rw [h.refs, h.count] at hlt
    exact Int.lt_irrefl 0 hlt

/-- A sequence of `kmalloc` calls. -/
def kmallocs (k : Machine) (st : Statics) : List Nat → Kernel (List Nat)
  | [] => pure []
  | size :: rest => do
    let block ← kmalloc k st size
    pure (block :: (← kmallocs k st rest))

/-- `kmalloc` is usable: every cache the layer has or makes is well formed, and every sequence of
calls returns disjoint blocks. -/
structure Usable (k : Machine) (st : Statics) (w : World) : Prop where
  cacheCache : WellFormed w.mem st.cacheCache
  caches : ∀ i < initialSlabCnt, WellFormed w.mem (load w.mem (st.caches + 8 * i) 8)
  create : ∀ name size align, ∃ cache w',
    kmemCacheCreate k st.cacheCache name size align w = some (cache, w') ∧ WellFormed w'.mem cache
  blocks : ∀ sizes, (∀ n ∈ sizes, 1 ≤ n ∧ n ≤ 4096) →
    ∃ blocks w', kmallocs k st sizes w = some (blocks, w') ∧ (∀ b ∈ blocks, b ≠ 0) ∧
      (blocks.zip sizes).Pairwise fun x y => x.1 + x.2 ≤ y.1 ∨ y.1 + y.2 ≤ x.1

/-- Fresh frames for `slab_alloc_init` and for what the first `kmalloc` after it can take. -/
structure Machine.FreshBoot (k : Machine) (st : Statics) (calls : List FrameCall) : Prop where
  boot : FreshFrames k st calls (k.kalloc calls.length) 1
  first : FreshFrames k st (.alloc (k.kalloc calls.length) 1 :: calls) (k.kalloc (calls.length + 1)) 8
  second : FreshFrames k st (.alloc (k.kalloc (calls.length + 1)) 8 ::
    .alloc (k.kalloc calls.length) 1 :: calls) (k.kalloc (calls.length + 2)) 1

/-- A computation that, when it returns at all, returns `v`. -/
def Returns {α : Type} (v : α) (x : Kernel α) : Prop := ∀ w a w', x w = some (a, w') → a = v

theorem Returns.bind {α β : Type} {v : β} (x : Kernel α) {f : α → Kernel β} (h : ∀ a, Returns v (f a)) :
    Returns v (x >>= f) := by
  intro w b w' hrun
  change (StateT.bind x f) w = some (b, w') at hrun
  rw [StateT.bind] at hrun
  cases hx : x w with
  | none =>
    rw [hx] at hrun
    cases hrun
  | some y =>
    rw [hx] at hrun
    exact h y.1 y.2 b w' hrun

theorem Returns.pure {α : Type} (v : α) : Returns v (pure v : Kernel α) := by
  intro w a w' hrun
  cases hrun
  rfl

/-- `kmem_cache_create` returns null. -/
theorem kmemCacheCreate_null (k : Machine) (cacheCache name size align : Nat) :
    Returns 0 (kmemCacheCreate k cacheCache name size align) := by
  unfold kmemCacheCreate
  repeat
    apply Returns.bind
    intro
  exact .pure 0

section Kmalloc
variable {k : Machine} {st : Statics} (hst : st.Valid) {m : Mem} {calls : List FrameCall}
  {held : List Nat}

/-- After boot every `kmalloc` of up to 4096 bytes faults. -/
theorem kmalloc_faults (hf : k.FreshBoot st calls)
    (h : Booting st hst.cache (k.kalloc calls.length + k.offset) 12 m held) {size : Nat}
    (hle : size ≤ 4096) :
    kmalloc k st size ⟨m, .alloc (k.kalloc calls.length) 1 :: calls⟩ = none := by
  obtain ⟨idx, hidx, hfind⟩ : ∃ idx < 12,
      (List.range initialSlabCnt).find? (fun idx => size ≤ 2 <<< idx) = some idx := by
    cases hfind : (List.range initialSlabCnt).find? (fun idx => size ≤ 2 <<< idx) with
    | none =>
      have := List.find?_eq_none.mp hfind 11 (by decide)
      exact absurd (decide_eq_true (show size ≤ 2 <<< 11 from hle)) this
    | some idx => exact ⟨idx, List.mem_range.mp (List.mem_of_find?_eq_some hfind), rfl⟩
  obtain ⟨hmem, hunlinked⟩ := h.caches idx hidx
  obtain ⟨full, part, free, hlist, hshape⟩ := h.shape
  obtain ⟨hpage, hbuf⟩ := hshape.held_in_page hlist hmem
  have hsize := cacheSize_bounds hidx
  have hbound := buffer_bounds hbuf
  have hpos := hpage.pos
  have hend := hpage.bound
  have ha₀ := hf.boot.aligned
  have ha₁ := hf.first.aligned
  have ha₂ := hf.second.aligned
  have hm₁ := hf.first.mapped
  have hm₂ := hf.second.mapped
  have hoff := k.offset_aligned
  have hobject : hst.cache.size = 168 := rfl
  have hne₁ : k.kalloc (calls.length + 1) ≠ k.kalloc calls.length := fun he =>
    hf.first.unused 0 (by decide) (by rw [Nat.zero_mul, Nat.add_zero]; exact owned_alloc.mpr (.inl he))
  have hne₂ : k.kalloc (calls.length + 2) ≠ k.kalloc calls.length := fun he =>
    hf.second.unused 0 (by decide)
      (by rw [Nat.zero_mul, Nat.add_zero]; exact .inr (owned_alloc.mpr (.inl he)))
  rw [kmalloc, hfind]
  change (read st.caches (8 * idx) >>= _) _ = none
  rw [bind_run (read_run hst.caches.1)]
  apply kmemCacheAlloc_unlinked hunlinked (by omega)
  apply kmemCacheGrow_unlinked hunlinked (by omega) (by omega) (by omega) hsize.2
  · intro c hc
    refine ⟨ha₁, hf.first.ne_null, ?_, by simpa using hf.first.unused 0 (by decide), ?_⟩
    · rw [List.length_cons]
      omega
    · rw [List.length_cons, hc]
      omega
  · rw [List.length_cons]
    omega
  · change ClearOf k _ (k.kalloc (calls.length + 2)) 1
    exact ⟨hm₂, by omega⟩
  · exact hf.second.ne_null

/-- After boot only `cache_cache` is well formed. -/
theorem slabAllocInit_caches (hst : st.Valid) (hf : k.FreshBoot st calls) : ∃ w, slabAllocInit k st ⟨m, calls⟩ = some ((), w) ∧
    WellFormed w.mem st.cacheCache ∧
    (∀ i < initialSlabCnt, ¬ WellFormed w.mem (load w.mem (st.caches + 8 * i) 8)) ∧
    (∀ name size align cache w', kmemCacheCreate k st.cacheCache name size align w =
      some (cache, w') → ¬ WellFormed w'.mem cache) ∧
    ∀ size ≤ 4096, kmalloc k st size w = none := by
  obtain ⟨m', held, hrun, hbooting⟩ := slabAllocInit_run (m := m) hst calls hf.boot
  refine ⟨_, hrun, ?_, ?_, ?_, fun size hle => kmalloc_faults hst hf hbooting hle⟩
  · obtain ⟨full, part, free, -, hshape⟩ := hbooting.shape
    exact hshape.wellFormed
  · exact fun i hi => (hbooting.caches i hi).2.not_wellFormed
  · intro name size align cache w' hcreate hwf
    exact hwf.ne_null (kmemCacheCreate_null k st.cacheCache name size align _ _ _ hcreate)

end Kmalloc

/-- After every boot `kmalloc` is unusable: none of the caches it allocates from is well formed,
no created cache is returned, and each of its calls faults. -/
theorem kmalloc_never_usable (k : Machine) (st : Statics) (w₀ : World) (hst : st.Valid)
    (hf : k.FreshBoot st w₀.calls) : ∃ w, slabAllocInit k st w₀ = some ((), w) ∧
      ¬ Usable k st w ∧ WellFormed w.mem st.cacheCache ∧
      (∀ i < initialSlabCnt, ¬ WellFormed w.mem (load w.mem (st.caches + 8 * i) 8)) ∧
      (∀ name size align cache w', kmemCacheCreate k st.cacheCache name size align w =
        some (cache, w') → ¬ WellFormed w'.mem cache) ∧
      ∀ size, 1 ≤ size → size ≤ 4096 → kmalloc k st size w = none := by
  obtain ⟨w, hrun, hwf, hcaches, hcreate, hkmalloc⟩ := slabAllocInit_caches (m := w₀.mem) hst hf
  exact ⟨w, hrun, fun hu => hcaches 0 (by decide) (hu.caches 0 (by decide)), hwf, hcaches, hcreate,
    fun size _ hle => hkmalloc size hle⟩

/-- Static objects in the kernel's data. -/
def bootStatics : Statics := ⟨0xffffffff80200000, 0xffffffff80201000, 0xffffffff80202000, 0xffffffff80202010⟩

theorem bootStatics_valid : bootStatics.Valid := ⟨by decide, by decide, by decide⟩

theorem bootMachine_freshBoot : bootMachine.FreshBoot bootStatics [] := by
  refine ⟨⟨by decide, by decide, by decide, ?_, by decide, by decide⟩,
    ⟨by decide, by decide, by decide, ?_, by decide, by decide⟩,
    ⟨by decide, by decide, by decide, ?_, by decide, by decide⟩⟩
  · exact fun i _ => id
  · intro i _ h
    simp [Owned, bootMachine, pageSize] at h
    omega
  · intro i hi h
    simp [Owned, bootMachine, pageSize] at h
    omega

theorem kmalloc_never_usable_bootMachine : ∃ w,
    slabAllocInit bootMachine bootStatics ⟨fun _ => 0, []⟩ = some ((), w) ∧
      ¬ Usable bootMachine bootStatics w ∧ kmalloc bootMachine bootStatics 64 w = none := by
  obtain ⟨w, hrun, husable, -, -, -, hkmalloc⟩ := kmalloc_never_usable bootMachine bootStatics
    ⟨fun _ => 0, []⟩ bootStatics_valid bootMachine_freshBoot
  exact ⟨w, hrun, husable, hkmalloc 64 (by decide) (by decide)⟩

/-- The boot whose first `kmalloc(64)` faults. -/
theorem kmalloc_unusable : ¬ ∀ (k : Machine) (st : Statics) (w₀ w : World), st.Valid →
    k.FreshBoot st w₀.calls → slabAllocInit k st w₀ = some ((), w) → Usable k st w := by
  intro hall
  obtain ⟨w, hrun, -, -, -, hkmalloc⟩ := slabAllocInit_caches (m := fun _ => 0) bootStatics_valid
    bootMachine_freshBoot
  obtain ⟨blocks, w', hblocks, -⟩ := (hall _ _ _ w bootStatics_valid bootMachine_freshBoot hrun).blocks
    [64] (by simp)
  rw [kmallocs, bind_none (hkmalloc 64 (by decide))] at hblocks
  cases hblocks

end NyaOS.Slab
