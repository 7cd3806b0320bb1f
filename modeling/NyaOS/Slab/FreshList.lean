import NyaOS.Slab.Safety

/-! The free list of a new small slab, followed to its end. The link of a buffer is the word behind
it, the first of its bufctl; the terminator is written to the last. -/
namespace NyaOS.Slab
open Library.ByteMemory

/-- Following the links from `ptr` visits these buffers, and then the link is `NULL`. -/
def Visits (m : Mem) (size : Nat) : Nat → List Nat → Prop
  | ptr, [] => ptr = 0
  | ptr, b :: bs => ptr = b ∧ b ≠ 0 ∧ Visits m size (load m (b + size) 8) bs

/-- The free list of the slab in page `p` visits every buffer once: as many as `buf_cnt` says, at
their places and in front of the header. -/
def ListsBuffers (size : Nat) (m : Mem) (p : Nat) : Prop :=
  ∃ visited, Visits m size (load m (header p + KmemSlab.freelist) 8) visited ∧ visited.Nodup ∧
    (visited.length : Int) = intAt m (header p + KmemSlab.bufCnt) ∧
    (∀ b, b ∈ visited ↔ ∃ i : Nat, (i : Int) < intAt m (header p + KmemSlab.bufCnt) ∧
      b = p + i * (size + KmemBufctl.size)) ∧
    ∀ b ∈ visited, b + size + KmemBufctl.size ≤ header p

section Chains
variable {m : Mem} {size : Nat}

theorem Visits.chain {ptr : Nat} {l : List Nat} (h : Visits m size ptr l) : FreeChain m size ptr l := by
  induction l generalizing ptr with
  | nil => trivial
  | cons b l ih => exact ⟨h.1, ih h.2.2⟩

/-- The links say which buffers come. -/
theorem FreeChain.unique {ptr : Nat} {l l' : List Nat} (h : FreeChain m size ptr l)
    (h' : FreeChain m size ptr l') (hlen : l.length = l'.length) : l = l' := by
  induction l generalizing ptr l' with
  | nil => exact (List.length_eq_zero_iff.mp hlen.symm).symm
  | cons b l ih =>
    obtain ⟨b', l', rfl⟩ := List.exists_cons_of_length_eq_add_one hlen.symm
    obtain ⟨hb, hl⟩ := h
    obtain ⟨hb', hl'⟩ := h'
    have heq : b = b' := hb.symm.trans hb'
    subst heq
    rw [ih hl hl' (by simpa using hlen)]

/-- A chain is a whole list if the link of its last buffer is `NULL`. -/
theorem visits_iff_last {ptr b : Nat} {l : List Nat} (h : FreeChain m size ptr (l ++ [b]))
    (hne : ∀ x ∈ l ++ [b], x ≠ 0) :
    Visits m size ptr (l ++ [b]) ↔ load m (b + size) 8 = 0 := by
  induction l generalizing ptr with
  | nil => exact ⟨fun hv => hv.2.2, fun hlast => ⟨h.1, hne b (by simp), hlast⟩⟩
  | cons x l ih =>
    have hrest := ih h.2 fun y hy => hne y (List.mem_cons_of_mem x hy)
    exact ⟨fun hv => hrest.mp hv.2.2, fun hlast => ⟨h.1, hne x (by simp), hrest.mpr hlast⟩⟩

end Chains

section Slab
variable {size p : Nat} {m m' : Mem}

theorem buffers_append_last {n : Nat} (hn : bufCount size = n + 1) : buffers size p =
    ((List.range n).map fun i => p + i * (size + 24)) ++ [p + n * (size + 24)] := by
  rw [buffers, hn, List.range_succ, List.map_append, List.map_singleton]

/-- What is listed in a slab can only be its buffers in their order. -/
theorem listsBuffers_iff (h : SlabOk size m p (buffers size p) []) :
    ListsBuffers size m p ↔ Visits m size (load m (header p + 24) 8) (buffers size p) := by
  have hcount : intAt m (header p + KmemSlab.bufCnt) = bufCount size := h.count
  have hmem : ∀ b, b ∈ buffers size p ↔
      ∃ i : Nat, (i : Int) < intAt m (header p + KmemSlab.bufCnt) ∧ b = p + i * (size + KmemBufctl.size) := by
    intro b
    rw [mem_buffers, hcount]
    simp only [Int.ofNat_lt, KmemBufctl.size, eq_comm]
  constructor
  · rintro ⟨visited, hvisits, -, hlen, -, -⟩
    rw [hcount, Int.ofNat_inj] at hlen
    rwa [hvisits.chain.unique h.chain (by rw [hlen, length_buffers])] at hvisits
  · intro hvisits
    refine ⟨buffers size p, hvisits, buffers_nodup size p, ?_, hmem, fun b hb => (buffer_bounds hb).2⟩
    rw [hcount, length_buffers]

/-- The free list of a new slab ends only where the buffers fill the page up to the header and the
frame happens to hold zeros in the last link. -/
theorem FreshSlab.listsBuffers_iff (h : FreshSlab size m m' p) (hsize : size ≤ 512) (hp : p ≠ 0) :
    ListsBuffers size m' p ↔ size + 24 ∣ 4048 ∧ load m (p + 4024) 8 = 0 := by
  have hhp : header p = p + 4048 := rfl
  obtain ⟨n, hn⟩ : ∃ n, bufCount size = n + 1 :=
    ⟨bufCount size - 1, by have := bufCount_bounds hsize; omega⟩
  have htotal := bufCount_mul_le size
  rw [hn] at htotal
  have hslab := h.slabOk
  have hchain := hslab.chain
  have hne : ∀ b ∈ buffers size p, b ≠ 0 := fun b hb => by
    have := buffer_bounds hb
    omega
  rw [Slab.listsBuffers_iff hslab]
  rw [buffers_append_last hn] at hchain hne ⊢
  rw [visits_iff_last hchain hne]
  by_cases hdvd : size + 24 ∣ 4048
  · have hfill : (n + 1) * (size + 24) = 4048 := by
      rw [← hn]
      exact Nat.div_mul_cancel hdvd
    have hend : n * (size + 24) + size = 4024 := by
      rw [Nat.succ_mul] at hfill
      omega
    have hstale : load m' (p + 4024) 8 = load m (p + 4024) 8 :=
      load_congr fun x _ _ => h.stale n x (by omega) (by omega) (by omega)
    rw [and_iff_right hdvd, Nat.add_assoc, hend, hstale]
  · have hlt : (n + 1) * (size + 24) ≠ 4048 := fun hfill => hdvd ⟨n + 1, by rw [← hfill, Nat.mul_comm]⟩
    rw [h.links n (by omega)]
    exact iff_of_false (by omega) fun hboth => hdvd hboth.1

end Slab

section Runs
variable {k : Machine} {c : SmallCache} {s : State}

/-- A growth in a sound state makes a new slab in the page of its frame. -/
theorem Sound.grow_fresh (h : Sound k c s) (hf : k.Fresh c s.world) :
    ∃ w', kmemCacheGrow k c.addr s.world = some ((), w') ∧
      FreshSlab c.size s.world.mem w'.mem (k.kalloc s.world.calls.length + k.offset) := by
  obtain ⟨full, part, free, hshape, hown⟩ := h
  obtain ⟨m', hrun, -, -, hfresh⟩ := kmemCacheGrow_fresh hshape hf rfl (fresh_page_new hown hf)
  exact ⟨_, hrun, hfresh⟩

theorem Sound.grow_lists_iff (h : Sound k c s) (hf : k.Fresh c s.world) :
    ∃ w', kmemCacheGrow k c.addr s.world = some ((), w') ∧
      (ListsBuffers c.size w'.mem (k.kalloc s.world.calls.length + k.offset) ↔
        c.size + 24 ∣ 4048 ∧
          load s.world.mem (k.kalloc s.world.calls.length + k.offset + 4024) 8 = 0) := by
  obtain ⟨w', hrun, hfresh⟩ := h.grow_fresh hf
  exact ⟨w', hrun, hfresh.listsBuffers_iff c.size_le (hf.page.2).pos⟩

end Runs

/-- In every run, the free list of the slab that `kmem_cache_grow` makes lists exactly its buffers
if and only if an object and its bufctl go into the page without a rest, and the frame holds zeros
where the last link is. -/
theorem grown_list_iff (k : Machine) (c : SmallCache) (s₀ s : State) (hstart : Start c s₀)
    (hreach : Reach k c (Spares c) s₀ s) (hf : k.Fresh c s.world) :
    ∃ w', kmemCacheGrow k c.addr s.world = some ((), w') ∧
      (ListsBuffers c.size w'.mem (k.physToVirt (k.kalloc s.world.calls.length)) ↔
        c.size + 24 ∣ 4048 ∧
          load s.world.mem (k.physToVirt (k.kalloc s.world.calls.length) + 4024) 8 = 0) := by
  rw [hf.page.1]
  exact (hreach.sound (fun _ _ hm => hm) (.start hstart)).grow_lists_iff hf

/-- Objects of 64 bytes fill the page, and zeroed memory ends their list. -/
theorem cache64_lists : ∃ s w', Start cache64 s ∧ bootMachine.Fresh cache64 s.world ∧
    kmemCacheGrow bootMachine cache64.addr s.world = some ((), w') ∧
    ListsBuffers cache64.size w'.mem (bootMachine.physToVirt (bootMachine.kalloc 0)) := by
  obtain ⟨s, hstart, hf, hcalls, hzero⟩ := boot_start cache64 (by decide)
  obtain ⟨w', hrun, hiff⟩ := grown_list_iff bootMachine cache64 s s hstart .refl hf
  rw [hcalls] at hiff
  refine ⟨s, w', hstart, hf, hrun, hiff.mpr ⟨by decide, load_of_zero fun x _ hx => hzero x ?_⟩⟩
  exact Nat.lt_trans hx (by decide)

/-- A cache of 32-byte objects. -/
def cache32 : SmallCache := ⟨cache64.addr, 32, cache64.addr_ne, cache64.addr_le, by decide⟩

/-- The list of its first slab goes on behind the last buffer, into the header. -/
theorem cache32_runs_on : ∃ s w', Start cache32 s ∧ bootMachine.Fresh cache32 s.world ∧
    kmemCacheGrow bootMachine cache32.addr s.world = some ((), w') ∧
    ¬ ListsBuffers cache32.size w'.mem (bootMachine.physToVirt (bootMachine.kalloc 0)) := by
  obtain ⟨s, hstart, hf, hcalls, -⟩ := boot_start cache32 (by decide)
  obtain ⟨w', hrun, hiff⟩ := (Sound.start hstart).grow_lists_iff hf
  rw [hcalls] at hiff
  refine ⟨s, w', hstart, hf, hrun, fun hlists => ?_⟩
  exact absurd (hiff.mp hlists).1 (by decide)

end NyaOS.Slab
