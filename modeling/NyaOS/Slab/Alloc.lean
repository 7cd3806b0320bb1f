import NyaOS.Slab.Grow

/-! `kmem_cache_alloc` on a small-object cache. -/
namespace NyaOS.Slab
open Library.ByteMemory Library.LinkedList

section Take
variable {c : SmallCache} {m : Mem} (calls : List FrameCall) {held full rest bs : List Nat}
  {free : Nat → List Nat} {p b : Nat}

/-- `takeRef` at the slab `fl_ptr` points to. -/
theorem takeRef_run {cache slab : Nat} {r n : Int} (hc : cache ≠ 0) (hs : slab ≠ 0)
    (hapart : slab + 48 ≤ cache + 40 ∨ cache + 48 ≤ slab) (hfl : load m (cache + 40) 8 = slab)
    (hr : intAt m (slab + 40) = r) (hn : intAt m (slab + 44) = n) (hr₀ : 0 ≤ r)
    (hr₁ : r + 1 < 2 ^ 31) :
    ∃ m', takeRef cache slab ⟨m, calls⟩ = some ((), ⟨m', calls⟩) ∧
      OnlyIn (fun x => (slab + 40 ≤ x ∧ x < slab + 44) ∨ (cache + 40 ≤ x ∧ x < cache + 48)) m m' ∧
      intAt m' (slab + 40) = r + 1 ∧
      load m' (cache + 40) 8 = if r + 1 ≥ n then nextOf m slab else slab := by
  let m₁ := store m (slab + 40) 4 (BitVec.ofInt 32 (r + 1)).toNat
  have hr' : intAt m₁ (slab + 40) = r + 1 := intAt_store _ _ (by omega) hr₁
  have hn' : intAt m₁ (slab + 44) = n := by
    rw [← hn]
    exact intAt_congr fun x _ _ => store_off _ _ _ _ (by omega)
  have hfl' : load m₁ (cache + 40) 8 = slab := by
    rw [← hfl]
    exact load_store_off _ _ _ _ (by omega)
  have hnext : load m₁ (slab + 8) 8 = nextOf m slab := load_store_off _ _ _ _ (by omega)
  have honly : OnlyIn (fun x => (slab + 40 ≤ x ∧ x < slab + 44) ∨
      (cache + 40 ≤ x ∧ x < cache + 48)) m m₁ := onlyIn_store _ fun x _ _ => .inl (by omega)
  have hrun : takeRef cache slab ⟨m, calls⟩ =
      if r + 1 ≥ n then write cache 40 (nextOf m slab) ⟨m₁, calls⟩
        else some ((), ⟨m₁, calls⟩) := by
    rw [takeRef, bind_run (readInt_eq hs hr), bind_run (writeInt_run hs)]
    change (readInt slab 40 >>= _) ⟨m₁, calls⟩ = _
    rw [bind_run (readInt_eq hs hr'), bind_run (readInt_eq hs hn'), ite_run,
      bind_run (read_eq hc hfl'), bind_run (read_eq hs hnext)]
    rfl
  rw [hrun]
  split
  · rw [write_run hc]
    refine ⟨_, rfl, honly.trans (onlyIn_store _ fun x _ _ => .inr (by omega)), ?_, ?_⟩
    · rw [← hr']
      exact intAt_congr fun x _ _ => store_off _ _ _ _ (by omega)
    · exact load_store _ _ (load_lt m _ 8)
  · exact ⟨m₁, rfl, honly, hr', hfl'⟩

/-- The cells that taking a buffer writes: the slab's free list and counter, the buffer's link and
`fl_ptr`. -/
def TakeCells (c : SmallCache) (p b x : Nat) : Prop :=
  (header p + 24 ≤ x ∧ x < header p + 32) ∨ (b + c.size ≤ x ∧ x < b + c.size + 8) ∨
    (header p + 40 ≤ x ∧ x < header p + 44) ∨ (c.addr + 40 ≤ x ∧ x < c.addr + 48)

/-- `takeBuffer` gives out the first free buffer of the slab `fl_ptr` is at. -/
theorem takeBuffer_run (h : Shape c m held full (p :: rest) free) (hfree : free p = b :: bs) :
    ∃ m', takeBuffer c.addr ⟨m, calls⟩ = some (b, ⟨m', calls⟩) ∧
      OnlyIn (TakeCells c p b) m m' ∧ intAt m' (header p + 40) = (takenIn held p).length + 1 ∧
      load m' (header p + 24) 8 = load m (b + c.size) 8 ∧
      load m' (c.addr + 40) 8 = if bs = [] then nextOf m (header p) else header p := by
  have hmem : p ∈ full ++ p :: rest := by simp
  have hpage := h.pages p hmem
  have hapart := hpage.apart
  have hpos := hpage.pos
  have hslab := h.slabs p hmem
  have hb := hslab.mem_free (b := b) (by simp [hfree])
  have hbound := buffer_bounds hb
  have hlen := hslab.length_eq
  have hcnt := (bufCount_bounds c.size_le).2
  rw [hfree, List.length_cons] at hlen
  have hhp : header p = p + 4048 := rfl
  have hh : header p ≠ 0 := by omega
  have hb₀ : b ≠ 0 := by omega
  have hfl : load m (c.addr + 40) 8 = header p := h.flPtr
  have hres : load m (header p + 24) 8 = b := by
    have := hslab.chain
    rw [hfree] at this
    exact this.1
  let m₁ := store m (header p + 24) 8 (load m (b + c.size) 8)
  let m₂ := store m₁ (b + c.size) 8 0xDEADBEEF
  have honly : OnlyIn (fun x => (header p + 24 ≤ x ∧ x < header p + 32) ∨
      (b + c.size ≤ x ∧ x < b + c.size + 8)) m m₂ :=
    OnlyIn.trans (onlyIn_store _ fun x _ _ => .inl (by omega)) (onlyIn_store _ fun x _ _ => .inr (by omega))
  have hsize₁ : load m₁ (c.addr + 56) 8 = c.size := by
    rw [load_store_off _ _ _ _ (by omega), h.size]
  obtain ⟨m', hrun, honly', hrefs, hflPtr⟩ := takeRef_run calls (m := m₂) c.addr_ne hh (by omega)
    (by rw [honly.load fun x _ _ => by omega, hfl])
    (r := (takenIn held p).length) (n := bufCount c.size)
    (by rw [intAt_congr fun x _ _ => honly x (by omega), hslab.refs])
    (by rw [intAt_congr fun x _ _ => honly x (by omega), hslab.count]) (by omega) (by omega)
  refine ⟨m', ?_, ?_, hrefs, ?_, ?_⟩
  · rw [takeBuffer, bind_run (read_eq c.addr_ne hfl), bind_run (read_eq c.addr_ne h.size),
      if_pos (show c.size ≤ smallObjSize from c.size_le), bind_run (read_eq hh hres),
      bind_run (read_eq c.addr_ne h.size), bind_run (read_run hb₀), bind_run (write_run hh),
      bind_run (read_eq c.addr_ne hsize₁), bind_run (write_run hb₀)]
    change (takeRef c.addr (header p) >>= _) ⟨m₂, calls⟩ = _
    rw [bind_run hrun]
    rfl
  · unfold TakeCells
    exact (honly.mono fun x _ => by omega).trans (honly'.mono fun x _ => by omega)
  · rw [honly'.load fun x _ _ => by omega, load_store_off _ _ _ _ (by omega),
      load_store _ _ (load_lt m _ 8)]
  · have hnext : nextOf m₂ (header p) = nextOf m (header p) := by
      unfold nextOf KmemSlab.next
      exact honly.load fun x _ _ => by omega
    rw [hflPtr, hnext]
    by_cases hbs : bs = []
    · rw [hbs, List.length_nil] at hlen
      rw [if_pos hbs, if_pos (by omega)]
    · have := List.length_pos_iff.mpr hbs
      rw [if_neg hbs, if_neg (by omega)]

/-- The slab a buffer was taken from. -/
private theorem takeBuffer_slab (h : Shape c m held full (p :: rest) free) (hfree : free p = b :: bs)
    {m' : Mem} (honly : OnlyIn (TakeCells c p b) m m')
    (hrefs : intAt m' (header p + 40) = (takenIn held p).length + 1)
    (hhead : load m' (header p + 24) 8 = load m (b + c.size) 8) :
    SlabOk c.size m' p bs (takenIn (b :: held) p) := by
  have hmem : p ∈ full ++ p :: rest := by simp
  have hslab := h.slabs p hmem
  have hpage := h.pages p hmem
  have hapart := hpage.apart
  have hb := hslab.mem_free (b := b) (by simp [hfree])
  have hbound := buffer_bounds hb
  have hhp : header p = p + 4048 := rfl
  have hchain := hslab.chain
  have hparts := hslab.parts
  have hdistinct := hslab.parts_nodup
  rw [hfree] at hchain hparts hdistinct
  unfold TakeCells at honly
  rw [takenIn_cons_self (buffer_page hpage.aligned hb)]
  refine ⟨?_, by rw [hrefs, List.length_cons]; rfl, ?_, List.perm_middle.trans hparts⟩
  · rw [intAt_congr fun x _ _ => honly x (by omega), hslab.count]
  · rw [hhead]
    refine hchain.2.congr fun b' hb' x _ _ => honly x ?_
    have hne : b ≠ b' := by
      rintro rfl
      exact (List.nodup_cons.mp hdistinct).1 (List.mem_append_left _ hb')
    have hb₂ := hslab.mem_free (b := b') (by simp [hfree, hb'])
    have := buffer_apart hb hb₂ hne
    have := buffer_bounds hb₂
    omega

/-- A slab that gave its last free buffer is now among the full ones. -/
private theorem takeBuffer_shape (h : Shape c m held full (p :: rest) free)
    (hfree : free p = b :: bs) {m' : Mem} (honly : OnlyIn (TakeCells c p b) m m')
    (hslab' : SlabOk c.size m' p bs (takenIn (b :: held) p))
    (hfl : load m' (c.addr + 40) 8 = if bs = [] then nextOf m (header p) else header p) :
    Shape c m' (b :: held) (if bs = [] then full ++ [p] else full)
      (if bs = [] then rest else p :: rest) (Function.update free p bs) := by
  have hmem : p ∈ full ++ p :: rest := by simp
  have hpage := h.pages p hmem
  have hb := (h.slabs p hmem).mem_free (b := b) (by simp [hfree])
  have hbpage := buffer_page hpage.aligned hb
  have hbound := buffer_bounds hb
  have hhp : header p = p + 4048 := rfl
  have hnd := h.nodup
  rw [List.nodup_append, List.nodup_cons] at hnd
  apply h.update_slab hmem
  · exact full_append_part bs full rest p
  · exact honly.mono fun x hx => by unfold TakeCells at hx; unfold Links; omega
  · rw [Function.update_self]
    exact hslab'
  · intro q hq
    exact ⟨Function.update_of_ne hq bs free, takenIn_cons_of_ne (by omega)⟩
  · rw [hfl]
    split
    · exact next_header h.linked
    · rfl
  · intro q hq
    have hq' : q = p ∧ bs = [] ∨ q ∈ full := by
      split at hq
      · rename_i hbs
        rcases List.mem_append.mp hq with hq | hq
        · exact .inr hq
        · exact .inl ⟨List.mem_singleton.mp hq, hbs⟩
      · exact .inr hq
    rcases hq' with ⟨rfl, hbs⟩ | hq
    · rw [Function.update_self, hbs]
    · rw [Function.update_of_ne (hnd.2.2 q hq p (by simp)), h.full_taken q hq]
  · intro q hq
    have hq' : q = p ∧ bs ≠ [] ∨ q ∈ rest := by
      split at hq
      · exact .inr hq
      · rename_i hbs
        rcases List.mem_cons.mp hq with hq | hq
        · exact .inl ⟨hq, hbs⟩
        · exact .inr hq
    rcases hq' with ⟨rfl, hbs⟩ | hrest
    · rw [Function.update_self]
      exact hbs
    · have hne : q ≠ p := fun he => hnd.2.1.1 (he ▸ hrest)
      rw [Function.update_of_ne hne]
      exact h.part_free q (by simp [hrest])
  · intro b' hb'
    rcases List.mem_cons.mp hb' with rfl | hb'
    · rw [hbpage]
      exact hmem
    · exact h.held_pages b' hb'

/-- The slabs after a buffer was taken from page `p`. -/
theorem takeBuffer_spec (h : Shape c m held full (p :: rest) free) (hfree : free p = b :: bs) :
    ∃ m', takeBuffer c.addr ⟨m, calls⟩ = some (b, ⟨m', calls⟩) ∧
      OnlyIn (Private c (full ++ p :: rest) (b :: held)) m m' ∧
      Shape c m' (b :: held) (if bs = [] then full ++ [p] else full)
        (if bs = [] then rest else p :: rest) (Function.update free p bs) := by
  obtain ⟨m', hrun, honly, hrefs, hhead, hfl⟩ := takeBuffer_run calls h hfree
  have hshape := takeBuffer_shape h hfree honly (takeBuffer_slab h hfree honly hrefs hhead) hfl
  have hlist := full_append_part bs full rest p
  have hmem : p ∈ (if bs = [] then full ++ [p] else full) ++
      (if bs = [] then rest else p :: rest) := by
    rw [hlist]
    simp
  have hb := (h.slabs p (by simp)).mem_free (b := b) (by simp [hfree])
  refine ⟨m', hrun, ?_, hshape⟩
  rw [← hlist]
  refine honly.mono fun x hx => ?_
  rcases hx with hx | hx | hx | hx
  · exact hshape.private_header hmem (by omega)
  · exact hshape.private_link hmem hb hx
  · exact hshape.private_header hmem (by omega)
  · exact .inl (by omega)

end Take

section Alloc
variable {k : Machine} {c : SmallCache} {m : Mem} {calls : List FrameCall}
  {held full part rest : List Nat} {free : Nat → List Nat} {p : Nat}

theorem growIfFull_skip (h : Shape c m held full (p :: rest) free) :
    growIfFull k c.addr ⟨m, calls⟩ = some ((), ⟨m, calls⟩) := by
  have hslab := h.slabs p (by simp)
  have hlen := hslab.length_eq
  have hfree := List.length_pos_iff.mpr (h.part_free p (by simp))
  have hfl : load m (c.addr + 40) 8 = header p := h.flPtr
  have hh : header p ≠ 0 := by unfold header; omega
  rw [growIfFull, bind_run (read_eq c.addr_ne hfl), bind_run (readInt_eq hh hslab.refs),
    bind_run (readInt_eq hh hslab.count), if_neg (by omega)]
  rfl

theorem growIfNone_skip (h : Shape c m held full (p :: rest) free) :
    growIfNone k c.addr ⟨m, calls⟩ = some ((), ⟨m, calls⟩) := by
  have hapart := (h.pages p (by simp)).apart
  have hhp : header p = p + 4048 := rfl
  have hfl : load m (c.addr + 40) 8 = header p := h.flPtr
  rw [growIfNone, bind_run (read_eq c.addr_ne hfl), bind_run (read_eq c.addr_ne h.tail),
    if_neg (by omega)]
  rfl

/-- With a free buffer at `fl_ptr` the rest of `kmem_cache_alloc` gives it out. -/
private theorem takeBuffer_part (calls : List FrameCall) (h : Shape c m held full (p :: rest) free) :
    ∃ (m' : Mem) (b : Nat) (bs : List Nat) (free' : Nat → List Nat),
      (do growIfFull k c.addr; takeBuffer c.addr : Kernel Nat) ⟨m, calls⟩ = some (b, ⟨m', calls⟩) ∧
      b ∉ held ∧ b / 4096 * 4096 = p ∧ OnlyIn (Private c (full ++ p :: rest) held) m m' ∧
      Shape c m' (b :: held) (if bs = [] then full ++ [p] else full)
        (if bs = [] then rest else p :: rest) free' := by
  have hmem : p ∈ full ++ p :: rest := by simp
  obtain ⟨b, bs, hfree⟩ := List.exists_cons_of_ne_nil (h.part_free p (by simp))
  obtain ⟨m', hrun, honly, hshape⟩ := takeBuffer_spec calls h hfree
  have hb : b ∉ held := h.free_not_held hmem (by simp [hfree])
  have hbuf : b ∈ buffers c.size p := (h.slabs p hmem).mem_free (by simp [hfree])
  refine ⟨m', b, bs, _, ?_, hb, buffer_page (h.pages p hmem).aligned hbuf, ?_, hshape⟩
  · rw [bind_run (growIfFull_skip h), hrun]
  · exact honly.mono fun x hx => hx.imp_right fun ⟨q, hq, hpage, hno⟩ =>
      ⟨q, hq, hpage, fun b' hb' => hno b' (by simp [hb'])⟩

/-- `kmem_cache_alloc` gives out a buffer that nobody holds, from the first slab with free buffers;
only a cache without free buffers takes a frame for it. -/
theorem kmemCacheAlloc_first (calls : List FrameCall) (h : Shape c m held full part free)
    (hf : part = [] → FreshFrame k c calls (k.kalloc calls.length) ∧
      k.kalloc calls.length + k.offset ∉ full) :
    ∃ (m' : Mem) (b : Nat) (bs : List Nat) (p : Nat) (rest : List Nat) (free' : Nat → List Nat)
      (new : List Nat), kmemCacheAlloc k c.addr ⟨m, calls⟩ =
        some (b, ⟨m', (new.map fun a => .alloc a 1) ++ calls⟩) ∧
      new = (if part = [] then [k.kalloc calls.length] else []) ∧ b ∉ held ∧
      part ++ new.map (· + k.offset) = p :: rest ∧ b / 4096 * 4096 = p ∧
      OnlyIn (Private c (full ++ p :: rest) held) m m' ∧
      Shape c m' (b :: held) (if bs = [] then full ++ [p] else full)
        (if bs = [] then rest else p :: rest) free' := by
  cases part with
  | nil =>
    obtain ⟨hfresh, hnew⟩ := hf rfl
    obtain ⟨m₁, hrun₁, honly₁, hshape₁⟩ := kmemCacheGrow_spec h hfresh rfl (by simpa using hnew)
    obtain ⟨m', b, bs, free', hrun, hb, hpage, honly, hshape⟩ :=
      takeBuffer_part (k := k) (.alloc (k.kalloc calls.length) 1 :: calls) hshape₁
    have hfl : load m (c.addr + 40) 8 = c.addr + 120 := h.flPtr
    refine ⟨m', b, bs, _, [], free', _, ?_, rfl, hb, rfl, hpage, honly₁.trans honly, hshape⟩
    have hnone : growIfNone k c.addr ⟨m, calls⟩ =
        some ((), ⟨m₁, .alloc (k.kalloc calls.length) 1 :: calls⟩) := by
      rw [growIfNone, bind_run (read_eq c.addr_ne hfl), bind_run (read_eq c.addr_ne h.tail),
        if_pos (.inr rfl), hrun₁]
    rw [kmemCacheAlloc, bind_run hnone]
    exact hrun
  | cons p rest =>
    obtain ⟨m', b, bs, free', hrun, hb, hpage, honly, hshape⟩ := takeBuffer_part (k := k) calls h
    refine ⟨m', b, bs, p, rest, free', [], ?_, rfl, hb, List.append_nil _, hpage, honly, hshape⟩
    rw [kmemCacheAlloc, bind_run (growIfNone_skip h)]
    exact hrun

/-- The list keeps its order; a new slab comes last. -/
theorem kmemCacheAlloc_spec (calls : List FrameCall) (h : Shape c m held full part free)
    (hf : part = [] → FreshFrame k c calls (k.kalloc calls.length) ∧
      k.kalloc calls.length + k.offset ∉ full) :
    ∃ m' b full' part' free' new, kmemCacheAlloc k c.addr ⟨m, calls⟩ =
        some (b, ⟨m', (new.map fun a => .alloc a 1) ++ calls⟩) ∧
      new = (if part = [] then [k.kalloc calls.length] else []) ∧ b ∉ held ∧
      full' ++ part' = full ++ part ++ new.map (· + k.offset) ∧
      OnlyIn (Private c (full' ++ part') held) m m' ∧ Shape c m' (b :: held) full' part' free' := by
  obtain ⟨m', b, bs, p, rest, free', new, hrun, hnew, hb, hlist, -, honly, hshape⟩ :=
    kmemCacheAlloc_first calls h hf
  have hparts := full_append_part bs full rest p
  refine ⟨m', b, _, _, free', new, hrun, hnew, hb, ?_, ?_, hshape⟩
  · rw [hparts, List.append_assoc, hlist]
  · rw [hparts]
    exact honly

end Alloc

end NyaOS.Slab
