import NyaOS.Slab.Small

/-! `kmem_cache_grow` on a small-object cache: the new page is threaded and appended. -/
namespace NyaOS.Slab
open Library.ByteMemory Library.LinkedList
open Frames (pageSize)

/-- Links from each of `n` evenly spaced buffers to the next make a free list of all of them. -/
theorem freeChain_of_links {m : Mem} {size eff : Nat} (n base : Nat)
    (h : ∀ j, j + 1 < n → load m (base + j * eff + size) 8 = base + (j + 1) * eff) :
    FreeChain m size base ((List.range n).map fun i => base + i * eff) := by
  induction n generalizing base with
  | zero => trivial
  | succ n ih =>
    have hmap : ((List.range n).map fun i => base + (i + 1) * eff) =
        (List.range n).map fun i => base + eff + i * eff := by
      apply List.map_congr_left
      intro i _
      rw [Nat.succ_mul]
      omega
    rw [List.range_succ_eq_map, List.map_cons, List.map_map]
    change base = base + 0 * eff ∧
      FreeChain m size _ ((List.range n).map fun i => base + (i + 1) * eff)
    refine ⟨by omega, ?_⟩
    rw [hmap]
    cases n with
    | zero => trivial
    | succ n =>
      have h₀ := h 0 (by omega)
      rw [Nat.zero_mul, Nat.add_zero, Nat.zero_add, Nat.one_mul] at h₀
      rw [Nat.zero_mul, Nat.add_zero, h₀]
      apply ih
      intro j hj
      have hj := h (j + 1) (by omega)
      rw [Nat.succ_mul, Nat.succ_mul (j + 1)] at hj
      rw [show base + eff + j * eff + size = base + (j * eff + eff) + size by omega, hj,
        Nat.succ_mul]
      omega

section Thread
variable (calls : List FrameCall) {cache slab eff size : Nat}

/-- The threading loop ends at the last place where a buffer could start, having linked every
buffer before it to the next and written nothing from there on. -/
theorem threadBuffers_run (hc : cache ≠ 0) (heff : eff = size + 24) (fuel q : Nat) (m : Mem)
    (hfuel : slab < q + fuel) (hq : q ≠ 0) (hlt : q < slab) (hbound : slab ≤ 2 ^ 64)
    (hsize : load m (cache + 56) 8 = size) (hapart : cache + 64 ≤ q ∨ slab ≤ cache + 56) :
    ∃ m' n, threadBuffers cache slab eff fuel q ⟨m, calls⟩ = some (q + n * eff, ⟨m', calls⟩) ∧
      OnlyIn (fun x => q ≤ x ∧ x < q + n * eff) m m' ∧ q + n * eff < slab ∧ slab ≤ q + (n + 1) * eff ∧
      ∀ j, q + (j + 1) * eff < slab → load m' (q + j * eff + size) 8 = q + (j + 1) * eff := by
  induction fuel generalizing q m with
  | zero => omega
  | succ fuel ih =>
    rw [threadBuffers]
    by_cases hstep : q + eff < slab
    · rw [if_pos hstep, bind_run (read_eq hc hsize), bind_run (write_run hq)]
      have hsize' : load (store m (q + size) 8 (q + eff)) (cache + 56) 8 = size := by
        rw [load_store_off _ _ _ _ (by omega), hsize]
      obtain ⟨m', n, hrun, honly, hend, hlast, hlinks⟩ := ih (q + eff)
        (store m (q + size) 8 (q + eff)) (by omega) (by omega) hstep hsize' (by omega)
      have hsum : q + eff + n * eff = q + (n + 1) * eff := by
        rw [Nat.succ_mul]
        omega
      refine ⟨m', n + 1, by rw [hrun, hsum], ?_, by rw [← hsum]; exact hend, ?_, ?_⟩
      · rw [← hsum]
        exact (onlyIn_store m fun x _ _ => by omega).trans (honly.mono fun x _ => by omega)
      · rw [Nat.succ_mul (n + 1), Nat.succ_mul]
        rw [Nat.succ_mul] at hlast
        omega
      · intro j hj
        cases j with
        | zero =>
          rw [Nat.zero_mul, Nat.add_zero, Nat.zero_add, Nat.one_mul,
            honly.load fun x _ _ => by omega, load_store _ _ (by omega)]
        | succ j =>
          have hshift : q + (j + 1) * eff = q + eff + j * eff := by
            rw [Nat.succ_mul]
            omega
          have hshift' : q + (j + 1 + 1) * eff = q + eff + (j + 1) * eff := by
            rw [Nat.succ_mul (j + 1)]
            omega
          rw [hshift'] at hj
          rw [hshift, hshift']
          exact hlinks j hj
    · rw [if_neg hstep]
      refine ⟨m, 0, by rw [Nat.zero_mul, Nat.add_zero]; rfl, fun x _ => rfl, by omega, by omega, ?_⟩
      intro j hj
      rw [Nat.succ_mul] at hj
      omega

end Thread

/-- The frames the calls left with the slab layer. -/
def Owned : List FrameCall → Nat → Prop
  | [], _ => False
  | .alloc a n :: calls, f => (∃ i < n, f = a + i * pageSize) ∨ Owned calls f
  | .free a n :: calls, f => (¬ ∃ i < n, f = a + i * pageSize) ∧ Owned calls f

/-- A fresh frame: page-aligned, not null, not in use, and with its place in the direct map, clear
of the cache object. -/
structure FreshFrame (k : Machine) (c : SmallCache) (calls : List FrameCall) (a : Nat) : Prop where
  aligned : a % 4096 = 0
  ne_null : a ≠ 0
  mapped : a + k.offset + 4096 ≤ 2 ^ 64
  unused : ¬ Owned calls a
  apart : a + k.offset + 4096 ≤ c.addr ∨ c.addr + 168 ≤ a + k.offset

theorem FreshFrame.page {k : Machine} {c : SmallCache} {calls : List FrameCall} {a : Nat}
    (h : FreshFrame k c calls a) : k.physToVirt a = a + k.offset ∧ PageOk c (a + k.offset) := by
  have ha := h.aligned
  have ho := k.offset_aligned
  have hn := h.ne_null
  have hm := h.mapped
  exact ⟨Nat.mod_eq_of_lt (by omega), by omega, by omega, hm, h.apart⟩

theorem initSlab_run (calls : List FrameCall) (m : Mem) {slab fl : Nat} (pstart : Nat)
    (hs : slab ≠ 0) (hfl : fl < 2 ^ 64) : ∃ m', initSlab slab fl pstart ⟨m, calls⟩ = some ((), ⟨m', calls⟩) ∧
      OnlyIn (fun x => slab ≤ x ∧ x < slab + 44) m m' ∧ intAt m' (slab + 40) = 0 ∧
      load m' (slab + 24) 8 = fl ∧ (pstart < 2 ^ 64 → load m' (slab + 32) 8 = pstart) := by
  refine ⟨store (store (store (store (store m (slab + 0) 8 0) (slab + 8) 8 0) (slab + 40) 4
    (BitVec.ofInt 32 0).toNat) (slab + 24) 8 fl) (slab + 32) 8 pstart, ?_, ?_, ?_, ?_,
    fun hp => load_store _ _ hp⟩
  · rw [initSlab, bind_run (write_run hs), bind_run (write_run hs), bind_run (writeInt_run hs),
      bind_run (write_run hs), write_run hs]
  · refine ((((onlyIn_store _ ?_).trans (onlyIn_store _ ?_)).trans (onlyIn_store _ ?_)).trans
      (onlyIn_store _ ?_)).trans (onlyIn_store _ ?_) <;> omega
  · rw [intAt_congr fun x _ _ => store_off _ _ _ _ (by omega),
      intAt_congr fun x _ _ => store_off _ _ _ _ (by omega), intAt_store _ _ (Int.le_refl 0) (by decide)]
  · rw [load_store_off _ _ _ _ (by omega), load_store _ _ (by omega)]

section Grow
variable {k : Machine} {c : SmallCache} {m : Mem} {calls : List FrameCall}

/-- The new slab in page `p`: the header counts the buffers and points to the first of them, each
buffer that has another one behind it is linked to that, and what lies behind the last place where
a buffer can start is as the frame had it. -/
structure FreshSlab (size : Nat) (m m' : Mem) (p : Nat) : Prop where
  count : intAt m' (header p + 44) = bufCount size
  refs : intAt m' (header p + 40) = 0
  freelist : load m' (header p + 24) 8 = p
  links : ∀ j, p + (j + 1) * (size + 24) < header p →
    load m' (p + j * (size + 24) + size) 8 = p + (j + 1) * (size + 24)
  stale : ∀ j x, header p ≤ p + (j + 1) * (size + 24) → p + j * (size + 24) ≤ x → x < header p →
    m' x = m x

/-- The threading loop and the terminator behind it, which goes to the last word of the last linked
buffer and not to its link. -/
private theorem threadBuffers_terminated {p : Nat} (hpage : PageOk c p)
    (hsize : load m (c.addr + 56) 8 = c.size) :
    ∃ q m₁ m', threadBuffers c.addr (header p) (c.size + 24) 4096 p ⟨m, calls⟩ = some (q, ⟨m₁, calls⟩) ∧
      write (q - 8) 0 0 ⟨m₁, calls⟩ = some ((), ⟨m', calls⟩) ∧
      OnlyIn (fun x => p ≤ x ∧ x < header p) m m' ∧
      (∀ j, p + (j + 1) * (c.size + 24) < header p →
        load m' (p + j * (c.size + 24) + c.size) 8 = p + (j + 1) * (c.size + 24)) ∧
      ∀ j x, header p ≤ p + (j + 1) * (c.size + 24) → p + j * (c.size + 24) ≤ x → x < header p →
        m' x = m x := by
  have hpos := hpage.pos
  have hbound := hpage.bound
  have hapart := hpage.apart
  have hhp : header p = p + 4048 := rfl
  have hsmall := c.size_le
  obtain ⟨m₁, n, hrun, honly, hend, hlast, hlinks⟩ := threadBuffers_run calls c.addr_ne
    (rfl : c.size + 24 = c.size + 24) 4096 p m (show header p < p + 4096 by omega) hpos (by omega)
    (by omega) hsize (by omega)
  have hn : 24 ≤ n * (c.size + 24) := by
    have hn₁ : 1 ≤ n := by
      by_contra hzero
      rw [show n = 0 by omega, Nat.zero_add, Nat.one_mul] at hlast
      omega
    have := Nat.mul_le_mul hn₁ (show 24 ≤ c.size + 24 by omega)
    omega
  let m' := store m₁ (p + n * (c.size + 24) - 8) 8 0
  have hoff : OnlyIn (fun x => p ≤ x ∧ x < p + n * (c.size + 24)) m m' :=
    honly.trans (onlyIn_store _ fun x _ _ => by omega)
  refine ⟨_, m₁, m', hrun, write_run (by omega), hoff.mono fun x _ => by omega, fun j hj => ?_,
    fun j x hj hlo hhi => ?_⟩
  · rw [load_store_off, hlinks j hj]
    rcases Nat.lt_or_ge j n with hjn | hjn
    · have := Nat.mul_le_mul_right (c.size + 24) hjn
      rw [Nat.succ_mul] at this
      omega
    · have := Nat.mul_le_mul_right (c.size + 24) hjn
      omega
  · have hnj : n * (c.size + 24) ≤ j * (c.size + 24) := by
      apply Nat.mul_le_mul_right
      by_contra hjn
      have := Nat.mul_le_mul_right (c.size + 24) (show j + 1 ≤ n by omega)
      omega
    exact hoff x (by omega)

theorem growSmall_fresh (hf : FreshFrame k c calls (k.kalloc calls.length))
    (hsize : load m (c.addr + 56) 8 = c.size) {p : Nat} (hp : p = k.kalloc calls.length + k.offset) :
    ∃ m', growSmall k c.addr ⟨m, calls⟩ =
        some (header p, ⟨m', .alloc (k.kalloc calls.length) 1 :: calls⟩) ∧
      OnlyIn (fun x => p ≤ x ∧ x < p + 4096) m m' ∧ FreshSlab c.size m m' p := by
  obtain ⟨hvirt, hpage⟩ := hf.page
  rw [← hp] at hvirt hpage
  have haligned := hpage.aligned
  have hpos := hpage.pos
  have hbound := hpage.bound
  have hapart := hpage.apart
  have hhp : header p = p + 4048 := rfl
  have hh : header p ≠ 0 := by omega
  have hslab : (p + pageSize - KmemSlab.size) / 8 * 8 = header p := by
    unfold pageSize KmemSlab.size
    omega
  have hcount := bufCount_bounds c.size_le
  let calls' := FrameCall.alloc (k.kalloc calls.length) 1 :: calls
  obtain ⟨m₁, hrun₁, honly₁, hrefs₁, hfree₁, -⟩ := initSlab_run calls' m p hh
    (show p < 2 ^ 64 by omega)
  let m₂ := store m₁ (header p + 44) 4 (BitVec.ofInt 32 (bufCount c.size)).toNat
  have hsize₁ : load m₁ (c.addr + 56) 8 = c.size := by
    rw [honly₁.load fun x _ _ => by omega, hsize]
  have hsize₂ : load m₂ (c.addr + 56) 8 = c.size := by
    rw [load_store_off _ _ _ _ (by omega), hsize₁]
  have hhdr : OnlyIn (fun x => header p ≤ x ∧ x < header p + 48) m m₂ :=
    (honly₁.mono fun x _ => by omega).trans (onlyIn_store _ fun x _ _ => by omega)
  obtain ⟨q, m₃, m₄, hrun₃, hrun₄, honly, hlinks, hstale⟩ := threadBuffers_terminated hpage hsize₂
  refine ⟨m₄, ?_, ?_, ?_, ?_, ?_, hlinks, fun j x hj hlo hhi => ?_⟩
  · rw [growSmall, Machine.kallocFrame, bind_run (kallocFrames_run k 1 m calls)]
    simp only [hvirt, hslab]
    rw [bind_run hrun₁, bind_run (read_eq c.addr_ne hsize₁), bind_run (writeInt_run hh)]
    change (threadBuffers c.addr (header p) (c.size + 24) 4096 p >>= _) ⟨m₂, calls'⟩ = _
    rw [bind_run hrun₃, bind_run hrun₄]
    rfl
  · exact (hhdr.mono fun x _ => by omega).trans (honly.mono fun x _ => by omega)
  · rw [intAt_congr fun x _ _ => honly x (by omega), intAt_store _ _ (by omega) (by omega)]
  · rw [intAt_congr fun x _ _ => honly x (by omega),
      intAt_congr fun x _ _ => store_off _ _ _ _ (by omega), hrefs₁]
  · rw [honly.load fun x _ _ => by omega, load_store_off _ _ _ _ (by omega), hfree₁]
  · rw [hstale j x hj hlo hhi, hhdr x (by omega)]

/-- Writes outside the buffers and the rest of the header leave a new slab as it is. -/
theorem FreshSlab.congr {size p : Nat} {m' m'' : Mem} (h : FreshSlab size m m' p)
    (hbuf : ∀ x, p ≤ x → x < header p → m'' x = m' x)
    (hhdr : ∀ x, header p + 24 ≤ x → x < header p + 48 → m'' x = m' x) :
    FreshSlab size m m'' p where
  count := by rw [intAt_congr fun x _ _ => hhdr x (by omega) (by omega), h.count]
  refs := by rw [intAt_congr fun x _ _ => hhdr x (by omega) (by omega), h.refs]
  freelist := by rw [load_congr fun x _ _ => hhdr x (by omega) (by omega), h.freelist]
  links j hj := by
    have hnext := hj
    rw [Nat.succ_mul] at hnext
    rw [load_congr fun x _ _ => hbuf x (by omega) (by omega), h.links j hj]
  stale j x hj hlo hhi := by rw [hbuf x (by omega) hhi, h.stale j x hj hlo hhi]

/-- All buffers of a new slab are on its free list. -/
theorem FreshSlab.slabOk {size p : Nat} {m' : Mem} (h : FreshSlab size m m' p) :
    SlabOk size m' p (buffers size p) [] := by
  refine ⟨h.count, h.refs, ?_, by rw [List.append_nil]⟩
  rw [h.freelist]
  apply freeChain_of_links
  intro j hj
  have hmul := Nat.mul_le_mul_right (size + 24) hj
  have htotal := bufCount_mul_le size
  rw [Nat.succ_mul] at hmul
  exact h.links j (by unfold header; omega)

/-- A new small slab: only its own page is written, and all its buffers are free. -/
theorem growSmall_run (hf : FreshFrame k c calls (k.kalloc calls.length))
    (hsize : load m (c.addr + 56) 8 = c.size) {p : Nat} (hp : p = k.kalloc calls.length + k.offset) :
    ∃ m', growSmall k c.addr ⟨m, calls⟩ =
        some (header p, ⟨m', .alloc (k.kalloc calls.length) 1 :: calls⟩) ∧
      OnlyIn (fun x => p ≤ x ∧ x < p + 4096) m m' ∧ SlabOk c.size m' p (buffers c.size p) [] := by
  obtain ⟨m', hrun, honly, hfresh⟩ := growSmall_fresh hf hsize hp
  exact ⟨m', hrun, honly, hfresh.slabOk⟩

/-- `_append_slab` links the slab before the tail and points an idle `fl_ptr` at it. -/
theorem appendSlab_linked (calls : List FrameCall) {cache a slab t fl : Nat} {l₁ l₂ : List Nat}
    (hc : cache ≠ 0) (hok : Headers (l₁ ++ a :: slab :: t :: l₂))
    (hfar : ∀ y ∈ l₁ ++ a :: slab :: t :: l₂, ∀ x, Links y x → ¬ (cache ≤ x ∧ x < cache + 72))
    (htail : load m (cache + 32) 8 = t) (hfl : load m (cache + 40) 8 = fl)
    (h : Linked (nextOf m) (prevOf m) (l₁ ++ a :: t :: l₂)) :
    ∃ m', appendSlab cache slab ⟨m, calls⟩ = some ((), ⟨m', calls⟩) ∧
      OnlyIn (fun x => (∃ y ∈ l₁ ++ a :: slab :: t :: l₂, Links y x) ∨
        (cache + 40 ≤ x ∧ x < cache + 48)) m m' ∧
      Linked (nextOf m') (prevOf m') (l₁ ++ a :: slab :: t :: l₂) ∧
      load m' (cache + 40) 8 = if fl = t then slab else fl := by
  have hbound := (hok.bounds slab (by simp)).2
  obtain ⟨m₁, hrun, honly, hlinked₁⟩ := insertSlab_linked calls hok h
  have hlinks : OnlyIn (fun x => ∃ y ∈ l₁ ++ a :: slab :: t :: l₂, Links y x) m m₁ := by
    apply honly.mono
    rintro x (hx | hx | hx)
    · exact ⟨a, by simp, hx⟩
    · exact ⟨slab, by simp, hx⟩
    · exact ⟨t, by simp, hx⟩
  have hfield : ∀ off, off + 8 ≤ 72 → load m₁ (cache + off) 8 = load m (cache + off) 8 := by
    refine fun off _ => hlinks.load fun x _ _ => ?_
    rintro ⟨y, hy, hyx⟩
    exact hfar y hy x hyx (by omega)
  have hfl₁ := (hfield 40 (by decide)).trans hfl
  have htail₁ := (hfield 32 (by decide)).trans htail
  have hcells := hlinks.mono fun x hx => Or.inl (b := cache + 40 ≤ x ∧ x < cache + 48) hx
  rw [appendSlab, bind_run (read_eq hc htail), bind_run hrun, bind_run (read_eq hc hfl₁),
    bind_run (read_eq hc htail₁), ite_run]
  split
  · rw [write_run hc]
    have hstore : OnlyIn (fun x => cache + 40 ≤ x ∧ x < cache + 48) m₁ (store m₁ (cache + 40) 8 slab) :=
      onlyIn_store _ fun x hlo hhi => ⟨hlo, hhi⟩
    refine ⟨_, rfl, hcells.trans (hstore.mono fun x hx => .inr hx), ?_, load_store _ _ (by omega)⟩
    exact linked_of_onlyIn hlinked₁ hstore fun y hy x hyx hx => hfar y hy x hyx (by omega)
  · exact ⟨m₁, rfl, hcells, hlinked₁, hfl₁⟩

theorem appendSlab_run (calls : List FrameCall) {pages : List Nat} {p fl : Nat} (hnd : (pages ++ [p]).Nodup)
    (hpages : ∀ q ∈ pages ++ [p], PageOk c q) (htail : load m (c.addr + 32) 8 = c.addr + 120)
    (hfl : load m (c.addr + 40) 8 = fl) (hlinked : Linked (nextOf m) (prevOf m) (nodes c pages)) :
    ∃ m', appendSlab c.addr (header p) ⟨m, calls⟩ = some ((), ⟨m', calls⟩) ∧
      OnlyIn (ListCells c (pages ++ [p])) m m' ∧
      Linked (nextOf m') (prevOf m') (nodes c (pages ++ [p])) ∧
      load m' (c.addr + 40) 8 = if fl = c.addr + 120 then header p else fl := by
  have hheaders := headers_nodes hnd hpages
  have hfar : ∀ y ∈ nodes c (pages ++ [p]), ∀ x, Links y x → ¬ (c.addr ≤ x ∧ x < c.addr + 72) :=
    fun y hy x hyx hx => not_links_field hpages hy hx hyx
  obtain ⟨l₁, a, l₂, hold, hnew⟩ := nodes_around c pages []
  rw [List.append_nil, List.map_nil, List.headD_nil] at hold
  rw [hold] at hlinked
  unfold ListCells
  rw [hnew p, List.map_nil, List.headD_nil] at hheaders hfar ⊢
  exact appendSlab_linked calls c.addr_ne hheaders hfar htail hfl hlinked

section Append
variable {held full part : List Nat} {free : Nat → List Nat} {p : Nat} {m₁ m' : Mem}
  (h : Shape c m held full part free) (hpage : PageOk c p) (hnew : p ∉ full ++ part)
include h hpage hnew

private theorem page_apart {q : Nat} (hq : q ∈ full ++ part) : q + 4096 ≤ p ∨ p + 4096 ≤ q := by
  have hqp : q ≠ p := fun he => hnew (he ▸ hq)
  have haligned := hpage.aligned
  have := (h.pages q hq).aligned
  omega

private theorem pages_append : (full ++ (part ++ [p])).Nodup ∧
    ∀ q ∈ full ++ (part ++ [p]), PageOk c q := by
  rw [← List.append_assoc]
  constructor
  · rw [List.nodup_append]
    refine ⟨h.nodup, List.nodup_singleton p, ?_⟩
    rintro q hq _ hp' rfl
    exact hnew (List.mem_singleton.mp hp' ▸ hq)
  · intro q hq
    rcases List.mem_append.mp hq with hq | hq
    · exact h.pages q hq
    · exact List.mem_singleton.mp hq ▸ hpage

/-- The shape with a new slab at the end of the list, from `m₁` where only its page is new. -/
private theorem append_shape (honly₁ : OnlyIn (fun x => p ≤ x ∧ x < p + 4096) m m₁)
    (hslab : SlabOk c.size m₁ p (buffers c.size p) [])
    (honly : OnlyIn (ListCells c (full ++ (part ++ [p]))) m₁ m')
    (hlinked : Linked (nextOf m') (prevOf m') (nodes c (full ++ (part ++ [p]))))
    (hfl : load m' (c.addr + 40) 8 = ((part ++ [p]).map header).headD (c.addr + 120)) :
    Shape c m' held full (part ++ [p]) (Function.update free p (buffers c.size p)) := by
  obtain ⟨hnd, hpages⟩ := pages_append h hpage hnew
  have hapart := hpage.apart
  have hcell : ∀ off, off + 8 ≤ 168 → load m₁ (c.addr + off) 8 = load m (c.addr + off) 8 :=
    fun off _ => honly₁.load fun x _ _ => by omega
  have hne : ∀ q ∈ full ++ part, q ≠ p := fun q hq he => hnew (he ▸ hq)
  refine shape_of_edit hpages (fun q hq => hq) hnd ((hcell 24 (by decide)).trans h.head)
    ((hcell 32 (by decide)).trans h.tail) ((hcell 56 (by decide)).trans h.size) ?_ honly hlinked
    hfl ?_ ?_ ?_
  · intro q hq
    rw [← List.append_assoc] at hq
    rcases List.mem_append.mp hq with hq | hq
    · rw [Function.update_of_ne (hne q hq)]
      have := page_apart h hpage hnew hq
      exact (h.slabs q hq).congr_page fun x _ _ _ => honly₁ x (by omega)
    · rw [List.mem_singleton.mp hq, Function.update_self, h.takenIn_new hnew]
      exact hslab
  · intro q hq
    rw [Function.update_of_ne (hne q (List.mem_append_left part hq)), h.full_taken q hq]
  · intro q hq
    rcases List.mem_append.mp hq with hq | hq
    · rw [Function.update_of_ne (hne q (List.mem_append_right full hq))]
      exact h.part_free q hq
    · rw [List.mem_singleton.mp hq, Function.update_self]
      apply List.ne_nil_of_length_pos
      rw [length_buffers]
      have := bufCount_bounds c.size_le
      omega
  · intro b hb
    rw [← List.append_assoc]
    exact List.mem_append_left [p] (h.held_pages b hb)

end Append

/-- `kmem_cache_grow` appends a new slab. -/
theorem kmemCacheGrow_fresh {held full part : List Nat} {free : Nat → List Nat} {p : Nat}
    (h : Shape c m held full part free) (hf : FreshFrame k c calls (k.kalloc calls.length))
    (hp : p = k.kalloc calls.length + k.offset) (hnew : p ∉ full ++ part) :
    ∃ m', kmemCacheGrow k c.addr ⟨m, calls⟩ =
        some ((), ⟨m', .alloc (k.kalloc calls.length) 1 :: calls⟩) ∧
      OnlyIn (Private c (full ++ (part ++ [p])) held) m m' ∧
      Shape c m' held full (part ++ [p]) (Function.update free p (buffers c.size p)) ∧
      FreshSlab c.size m m' p := by
  have hpage : PageOk c p := hp ▸ hf.page.2
  have hapart := hpage.apart
  obtain ⟨hnd, hpages⟩ := pages_append h hpage hnew
  rw [← List.append_assoc] at hnd hpages
  obtain ⟨m₁, hrun₁, honly₁, hfresh⟩ := growSmall_fresh hf h.size hp
  have hcell : ∀ off, off + 8 ≤ 168 → load m₁ (c.addr + off) 8 = load m (c.addr + off) 8 :=
    fun off _ => honly₁.load fun x _ _ => by omega
  have hlinked : Linked (nextOf m₁) (prevOf m₁) (nodes c (full ++ part)) :=
    linked_of_onlyIn h.linked honly₁ fun y hy x hyx hx =>
      hnew (page_of_links h.pages hpage hy hyx hx).1
  obtain ⟨m', hrun, honly, hlinked', hfl⟩ := appendSlab_run
    (.alloc (k.kalloc calls.length) 1 :: calls) hnd hpages ((hcell 32 (by decide)).trans h.tail)
    ((hcell 40 (by decide)).trans h.flPtr) hlinked
  rw [List.append_assoc] at honly hlinked'
  have hflPtr : load m' (c.addr + 40) 8 = ((part ++ [p]).map header).headD (c.addr + 120) := by
    rw [hfl]
    cases part with
    | nil => exact if_pos rfl
    | cons q part =>
      have hq := (h.pages q (by simp)).apart
      exact if_neg (show header q ≠ c.addr + 120 by unfold header; omega)
  have hshape := append_shape h hpage hnew honly₁ hfresh.slabOk honly hlinked' hflPtr
  have hpages' : ∀ q ∈ full ++ (part ++ [p]), PageOk c q := by rwa [← List.append_assoc]
  have hkept : ∀ x, p ≤ x ∧ x < p + 4096 → ¬ Links (header p) x → m' x = m₁ x :=
    fun x hx hlinks => honly x fun hcell => hlinks (links_of_listCells hpages' hpage hx hcell)
  have hhp : header p = p + 4048 := rfl
  unfold Links at hkept
  refine ⟨m', ?_, ?_, hshape, hfresh.congr (fun x _ _ => hkept x (by omega) (by omega))
    fun x _ _ => hkept x (by omega) (by omega)⟩
  · rw [kmemCacheGrow, bind_run (read_eq c.addr_ne h.size),
      if_pos (show c.size ≤ smallObjSize from c.size_le), bind_run hrun₁, hrun]
  · apply OnlyIn.trans (honly₁.mono _) (honly.mono fun x hx => hshape.private_listCells hx)
    intro x hx
    refine .inr ⟨p, by simp, hx, fun b hb hin => ?_⟩
    have := buffer_bounds (h.mem_held hb)
    have := page_apart h hpage hnew (h.held_pages b hb)
    omega

/-- The buffers of the new slab are all free. -/
theorem kmemCacheGrow_spec {held full part : List Nat} {free : Nat → List Nat} {p : Nat}
    (h : Shape c m held full part free) (hf : FreshFrame k c calls (k.kalloc calls.length))
    (hp : p = k.kalloc calls.length + k.offset) (hnew : p ∉ full ++ part) :
    ∃ m', kmemCacheGrow k c.addr ⟨m, calls⟩ =
        some ((), ⟨m', .alloc (k.kalloc calls.length) 1 :: calls⟩) ∧
      OnlyIn (Private c (full ++ (part ++ [p])) held) m m' ∧
      Shape c m' held full (part ++ [p]) (Function.update free p (buffers c.size p)) := by
  obtain ⟨m', hrun, honly, hshape, -⟩ := kmemCacheGrow_fresh h hf hp hnew
  exact ⟨m', hrun, honly, hshape⟩

end Grow

end NyaOS.Slab
