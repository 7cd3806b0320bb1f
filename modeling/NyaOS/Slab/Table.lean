import NyaOS.Slab.Reap

/-! The table from buffers to bufctls of a large-object cache. `kmem_cache_free` looks a buffer up
in it, but no function enters one. -/
namespace NyaOS.Slab
open Library.ByteMemory Library.LinkedList
open Frames (pageSize)

/-- The buckets a table has in its page. -/
def htBuckets : Nat := pageSize / HashVal.size

/-- A table in which every bucket is empty. -/
structure BlankTable (m : Mem) (ht buckets : Nat) : Prop where
  array : load m (ht + KmemCache.buckets) 8 = buckets
  capacity : load m (ht + KmemCache.capacity) 8 = htBuckets
  empty : ∀ i < htBuckets, intAt m (buckets + i * HashVal.size + HashVal.state) = HashVal.empty

/-- `kmem_cache_free` finds the bufctl of `b`, puts it at the front of its slab's free list and
decrements the slab's counter. -/
def FreesBuffer (k : Machine) (c : LargeCache) (s : State) (b : Nat) : Prop :=
  ∃ bufctl slab w', htGet c.addr b s.world = some (bufctl, s.world) ∧
    load s.world.mem (bufctl + KmemBufctl.buf) 8 = b ∧
    load s.world.mem (bufctl + KmemBufctl.back) 8 = slab ∧
    kmemCacheFree k c.addr b s.world = some ((), w') ∧
    load w'.mem (slab + KmemSlab.freelist) 8 = bufctl ∧
    load w'.mem (bufctl + KmemBufctl.next) 8 = load s.world.mem (slab + KmemSlab.freelist) 8 ∧
    slabRefs w'.mem slab = slabRefs s.world.mem slab - 1

/-- A cache with a well-formed list right after `ht_init` made its table. -/
def TableMade (k : Machine) (c : LargeCache) (s : State) : Prop :=
  ∃ w full part, LargeInv k c [] full part ⟨w, s.held⟩ ∧
    FreshRange k c w.calls (k.kalloc w.calls.length) 1 ∧ htInit k c.addr w = some ((), s.world)

section Table
variable {k : Machine} {c : LargeCache} {m : Mem} {buckets : Nat}

/-- A blank table has no entry for any buffer. -/
theorem BlankTable.htGet {ht : Nat} (h : BlankTable m ht buckets) (hht : ht ≠ 0) (hb : buckets ≠ 0)
    (b : Nat) (calls : List FrameCall) : htGet ht b ⟨m, calls⟩ = some (0, ⟨m, calls⟩) := by
  have hhash : hash b htBuckets = (pure (b % htBuckets) : Kernel Nat) := rfl
  have hempty := h.empty (b % htBuckets) (Nat.mod_lt b (by decide))
  have hslot : buckets + b % htBuckets * HashVal.size ≠ 0 := by omega
  have hi : hashBuf ht b ⟨m, calls⟩ = some (b % htBuckets, ⟨m, calls⟩) := by
    rw [hashBuf, bind_run (read_eq hht h.capacity), hhash]
    rfl
  rw [Slab.htGet, bind_run hi, bind_run (read_eq hht h.capacity), htProbe,
    bind_run (read_eq hht h.array), bind_run (readInt_eq hslot hempty), bind_run (read_run hslot),
    if_pos (.inl (by decide)), if_pos rfl]
  rfl

/-- So every free goes through a null pointer. -/
theorem BlankTable.free_faults (h : BlankTable m c.addr buckets) (hb : buckets ≠ 0)
    (hsize : load m (c.addr + 56) 8 = c.size) (b : Nat) (calls : List FrameCall) :
    kmemCacheFree k c.addr b ⟨m, calls⟩ = none := by
  rw [kmemCacheFree, bind_run (read_eq c.addr_ne hsize),
    if_neg (show ¬ c.size ≤ smallObjSize from Nat.not_le.mpr c.size_gt),
    bind_run (h.htGet c.addr_ne hb b calls)]
  rfl

theorem BlankTable.congr {m' : Mem} (h : BlankTable m c.addr buckets)
    (hsame : SameTable c [buckets] m m') : BlankTable m' c.addr buckets := by
  have hfield : ∀ off, off + 8 ≤ 24 → load m' (c.addr + off) 8 = load m (c.addr + off) 8 :=
    fun off _ => load_congr fun x _ _ => hsame x (.inl (by omega))
  refine ⟨(hfield _ (by decide)).trans h.array, (hfield _ (by decide)).trans h.capacity,
    fun i hi => ?_⟩
  have hi' : i < 170 := hi
  rw [intAt_congr fun x hlo hhi => hsame x (.inr ⟨buckets, List.mem_singleton_self _, ?_⟩), h.empty i hi]
  unfold HashVal.size HashVal.state at hlo hhi
  omega

/-- `ht_init` writes its page and the fields of the table. -/
theorem htInit_run (m : Mem) (calls : List FrameCall) {a : Nat} (ha : k.kalloc calls.length = a)
    (hf : FreshRange k c calls a 1) :
    ∃ m', htInit k c.addr ⟨m, calls⟩ = some ((), ⟨m', .alloc a 1 :: calls⟩) ∧
      OnlyIn (TableCells c [a + k.offset]) m m' ∧ BlankTable m' c.addr (a + k.offset) := by
  have hpage := hf.page Nat.zero_lt_one
  rw [Nat.zero_mul, Nat.add_zero] at hpage
  have hapart := hpage.apart
  have hbound := hpage.bound
  have hcells : ∀ {off v : Nat} (m : Mem), off + 8 ≤ 24 →
      OnlyIn (TableCells c [a + k.offset]) m (store m (c.addr + off) 8 v) :=
    fun m _ => onlyIn_store m fun x _ _ => .inl (by omega)
  let m₀ := store m (a + k.offset) 4096 0
  refine ⟨store (store (store m₀ (c.addr + 0) 8 (a + k.offset)) (c.addr + 8) 8 0) (c.addr + 16) 8 170,
    ?_, ?_, ?_, load_store _ _ (by decide), ?_⟩
  · rw [htInit, Machine.kallocFrame, bind_run (kallocFrames_run k 1 m calls), ha,
      hf.physToVirt Nat.zero_lt_one, bind_run (memset_run hpage.pos), bind_run (write_run c.addr_ne),
      bind_run (write_run c.addr_ne), write_run c.addr_ne]
    rfl
  · have hm₀ : OnlyIn (TableCells c [a + k.offset]) m m₀ :=
      onlyIn_store m fun x hlo hhi => .inr ⟨_, List.mem_singleton_self _, hlo, hhi⟩
    exact ((hm₀.trans (hcells _ (by decide))).trans (hcells _ (by decide))).trans (hcells _ (by decide))
  · unfold KmemCache.buckets
    rw [load_store_off _ _ _ _ (by omega), load_store_off _ _ _ _ (by omega),
      load_store _ _ (by omega)]
  · intro i hi
    have hi' : i < 170 := hi
    have hzero : load m₀ (a + k.offset + i * 24 + 16) 4 = 0 := load_store_zero m (by omega) (by omega)
    rw [intAt, load_store_off _ _ _ _ (by unfold HashVal.size HashVal.state; omega),
      load_store_off _ _ _ _ (by unfold HashVal.size HashVal.state; omega),
      load_store_off _ _ _ _ (by unfold HashVal.size HashVal.state; omega), hzero]
    rfl

/-- The table's page joins the pages of the layer. -/
theorem LargeShape.keep {m' : Mem} {held : List Nat} {full part : List LargeSlab} {p : Nat}
    (h : LargeShape c m [] held full part) (hp : LargePageOk c p)
    (hnew : p ∉ ctlPages [] (full ++ part) ++ bufPages c.size (full ++ part))
    (honly : OnlyIn (TableCells c [p]) m m') : LargeShape c m' [p] held full part := by
  have hnot : ∀ x, LargeCells c (full ++ part) x → ¬ TableCells c [p] x := by
    rintro x hx ht
    have hpa := hp.aligned
    have hapart := hp.apart
    have hsplit : (c.addr ≤ x ∧ x < c.addr + 24) ∨ (p ≤ x ∧ x < p + 4096) := by
      rcases ht with ht | ⟨q, hq, ht⟩
      · exact .inl ht
      · exact .inr (List.mem_singleton.mp hq ▸ ht)
    rcases hx with hx | ⟨s, hs, hx⟩
    · omega
    · have hsp : s.hdr ≠ p := by
        rintro rfl
        exact hnew (List.mem_append_left _ (List.mem_map_of_mem hs))
      have hsa := (h.hdr_page hs).aligned
      have hsapart := (h.hdr_page hs).apart
      omega
  have hshape := h.congr fun x hx => honly x (hnot x hx)
  exact { hshape with
    nodup := List.nodup_cons.mpr ⟨hnew, h.nodup⟩
    pages := List.forall_mem_cons.mpr ⟨hp, h.pages⟩ }

variable {s₀ s : State}

theorem TableMade.inv (h : TableMade k c s) : ∃ p full part, p ≠ 0 ∧
    LargeInv k c [p] full part s ∧ BlankTable s.world.mem c.addr p := by
  obtain ⟨⟨m, calls⟩, full, part, hinv, hf, hrun⟩ := h
  obtain ⟨m', hrun', honly, hblank⟩ := htInit_run m calls rfl hf
  have hpage := hf.page Nat.zero_lt_one
  have hmapped : k.kalloc calls.length + k.offset + 1 * 4096 ≤ 2 ^ 64 := hf.mapped
  have hunused := hf.unused 0 Nat.zero_lt_one
  rw [Nat.zero_mul, Nat.add_zero] at hpage hunused
  obtain ⟨w, held⟩ := s
  rw [hrun] at hrun'
  cases hrun'
  have hvirt := virtToPhys_frame k (show k.kalloc calls.length + k.offset < 2 ^ 64 by omega)
  have hnew : k.kalloc calls.length + k.offset ∉
      ctlPages [] (full ++ part) ++ bufPages c.size (full ++ part) := by
    intro hmem
    have := hinv.owned _ hmem
    rw [hvirt] at this
    exact hunused this
  refine ⟨_, full, part, hpage.pos, ⟨hinv.shape.keep hpage hnew honly, ?_⟩, hblank⟩
  refine List.forall_mem_cons.mpr ⟨?_, fun p hp => owned_alloc.mpr (.inr (hinv.owned p hp))⟩
  rw [hvirt]
  exact owned_alloc.mpr (.inl rfl)

/-- The table stays blank in every run, since no free gets through and nothing else writes it. -/
theorem LargeReach.blank {p : Nat} {full part : List LargeSlab} (hr : LargeReach k c True s₀ s)
    (hp : p ≠ 0) (hinv : LargeInv k c [p] full part s₀) (hblank : BlankTable s₀.world.mem c.addr p) :
    ∃ full' part', LargeInv k c [p] full' part' s ∧ BlankTable s.world.mem c.addr p := by
  induction hr with
  | refl => exact ⟨full, part, hinv, hblank⟩
  | tail _ hstep ih =>
    obtain ⟨full', part', hinv', hblank'⟩ := ih
    obtain ⟨full'', part'', hinv'', hsame, -⟩ := hstep.inv hinv' fun _ b =>
      hblank'.free_faults hp hinv'.shape.size b _
    exact ⟨full'', part'', hinv'', hblank'.congr hsame⟩

end Table

/-- No buffer of a large-object cache can be freed: in every state of every run each free goes
through a null pointer. -/
theorem large_free_faults (k : Machine) (c : LargeCache) (s₀ s : State) (hstart : TableMade k c s₀)
    (hr : LargeReach k c True s₀ s) :
    (∀ b, kmemCacheFree k c.addr b s.world = none) ∧ ∀ b ∈ s.held, ¬ FreesBuffer k c s b := by
  obtain ⟨p, full, part, hp, hinv, hblank⟩ := hstart.inv
  obtain ⟨full', part', hinv', hblank'⟩ := hr.blank hp hinv hblank
  have hnone : ∀ b, kmemCacheFree k c.addr b s.world = none := fun b =>
    hblank'.free_faults hp hinv'.shape.size b s.world.calls
  refine ⟨hnone, fun b _ hfrees => ?_⟩
  obtain ⟨-, -, w', -, -, -, hrun, -⟩ := hfrees
  rw [hnone b] at hrun
  cases hrun

/-- A cache of 1024-byte objects with its table made, and one object allocated from it. -/
theorem cache1024_alloc : ∃ s₀ s b, TableMade bootMachine cache1024 s₀ ∧
    LargeReach bootMachine cache1024 True s₀ s ∧ s.held = [b] := by
  obtain ⟨m, -, hinit⟩ := initialised_of_cacheInit cache1024.addr_ne cache1024.addr_le
    (show cache1024.size < 2 ^ 64 by decide) 0 ⟨fun _ => 0, []⟩
  have hstart : LargeInv bootMachine cache1024 [] [] [] ⟨⟨m, []⟩, []⟩ := .start hinit
  have hf : FreshRange bootMachine cache1024 [] (bootMachine.kalloc ([] : List FrameCall).length) 1 :=
    ⟨by decide, by decide, by decide, by decide, fun i _ h => h, .inl (by decide)⟩
  obtain ⟨m₀, hrun₀, -, -⟩ := htInit_run m [] rfl hf
  have hmade : TableMade bootMachine cache1024
      ⟨⟨m₀, [.alloc (bootMachine.kalloc ([] : List FrameCall).length) 1]⟩, []⟩ :=
    ⟨_, [], [], hstart, hf, hrun₀⟩
  have hfresh : bootMachine.FreshLarge cache1024 [.alloc 0x100000 1] := by
    refine ⟨⟨by decide, by decide, by decide, by decide, ?_, .inl (by decide)⟩,
      ⟨by decide, by decide, by decide, by decide, ?_, .inl (by decide)⟩⟩
    · rintro i hi (⟨j, hj, he⟩ | h)
      · have hj : j < 1 := hj
        have he : 0x110000 + i * 4096 = 0x100000 + j * 4096 := he
        omega
      · exact h
    · rintro i hi (⟨j, hj, he⟩ | ⟨j, hj, he⟩ | h)
      · have hj : j < 2 := hj
        have he : 0x120000 + i * 4096 = 0x110000 + j * 4096 := he
        omega
      · have hj : j < 1 := hj
        have he : 0x120000 + i * 4096 = 0x100000 + j * 4096 := he
        omega
      · exact h
  obtain ⟨p, full, part, -, hinv, -⟩ := hmade.inv
  obtain ⟨b, w, -, -, hrun, -⟩ := hinv.alloc fun _ => hfresh
  exact ⟨_, _, b, hmade, .single (.alloc (fun _ => hfresh) hrun), rfl⟩

theorem large_free_faults_one : ∃ s₀ s b, TableMade bootMachine cache1024 s₀ ∧
    LargeReach bootMachine cache1024 True s₀ s ∧ s.held = [b] ∧
    kmemCacheFree bootMachine cache1024.addr b s.world = none := by
  obtain ⟨s₀, s, b, hmade, hr, hheld⟩ := cache1024_alloc
  exact ⟨s₀, s, b, hmade, hr, hheld, (large_free_faults _ _ s₀ s hmade hr).1 b⟩

/-- The run: allocate one object of 1024 bytes, then free it. -/
theorem large_free_fails : ¬ ∀ (k : Machine) (c : LargeCache) (s₀ s : State), TableMade k c s₀ →
    LargeReach k c True s₀ s → ∀ b ∈ s.held, FreesBuffer k c s b := by
  intro hall
  obtain ⟨s₀, s, b, hmade, hr, hheld⟩ := cache1024_alloc
  have hb : b ∈ s.held := hheld ▸ List.mem_singleton_self b
  obtain ⟨p, full, part, hp, hinv, hblank⟩ := hmade.inv
  obtain ⟨full', part', hinv', hblank'⟩ := hr.blank hp hinv hblank
  obtain ⟨-, -, w', -, -, -, hrun, -⟩ := hall _ _ s₀ s hmade hr b hb
  rw [show kmemCacheFree _ _ b s.world = none from
    hblank'.free_faults hp hinv'.shape.size b s.world.calls] at hrun
  cases hrun

end NyaOS.Slab
