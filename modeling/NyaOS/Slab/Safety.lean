import Mathlib.Data.Set.Pairwise.List
import NyaOS.Library.Pool
import NyaOS.Slab.Run

/-! What holds in every state of a run: `fl_ptr` never dangles while no free releases the slab it
is at, and held buffers are disjoint. -/
namespace NyaOS.Slab
open Library Library.ByteMemory Library.LinkedList
open Frames (pageSize)

def headOf (c : SmallCache) (m : Mem) : Nat := load m (c.addr + KmemCache.head) 8
def tailOf (c : SmallCache) (m : Mem) : Nat := load m (c.addr + KmemCache.tail) 8
def bufCntOf (m : Mem) (p : Nat) : Int := intAt m (header p + KmemSlab.bufCnt)

/-- The slab is linked between `head` and `tail`. -/
def InList (c : SmallCache) (m : Mem) (slab : Nat) : Prop :=
  ∃ l₁ l₂, (headOf c m :: (l₁ ++ slab :: l₂) ++ [tailOf c m]).Nodup ∧
    Linked (nextOf m) (prevOf m) (headOf c m :: (l₁ ++ slab :: l₂) ++ [tailOf c m])

/-- `fl_ptr` is the tail, or a linked slab whose frame was not given back. -/
def FlPtrOk (k : Machine) (c : SmallCache) (s : State) : Prop :=
  flPtrOf c s.world.mem = tailOf c s.world.mem ∨ (InList c s.world.mem (flPtrOf c s.world.mem) ∧
    Owned s.world.calls (k.virtToPhys (pageOf (flPtrOf c s.world.mem))))

section Safety
variable {k : Machine} {c : SmallCache} {s : State}

theorem pageOf_header {p : Nat} (h : p % 4096 = 0) : pageOf (header p) = p := by
  unfold pageOf header pageSize
  omega

theorem Shape.nodes_eq {m : Mem} {held full part : List Nat} {free : Nat → List Nat}
    (h : Shape c m held full part free) :
    headOf c m :: ((full ++ part).map header ++ [tailOf c m]) = nodes c (full ++ part) := by
  rw [headOf, tailOf, h.head, h.tail, nodes]

theorem Sound.flPtrOk (h : Sound k c s) : FlPtrOk k c s := by
  obtain ⟨full, part, free, hshape, hown⟩ := h
  cases part with
  | nil => exact .inl (hshape.flPtr.trans hshape.tail.symm)
  | cons p rest =>
    have hmem : p ∈ full ++ p :: rest := by simp
    have hfl : flPtrOf c s.world.mem = header p := hshape.flPtr
    have hnodes : headOf c s.world.mem :: (full.map header ++ header p :: rest.map header) ++
        [tailOf c s.world.mem] = nodes c (full ++ p :: rest) := by
      rw [← hshape.nodes_eq, List.map_append, List.map_cons, List.cons_append]
    refine .inr ⟨⟨full.map header, rest.map header, ?_, ?_⟩, ?_⟩
    · rw [hfl, hnodes]
      exact (headers_nodes hshape.nodup hshape.pages).nodup
    · rw [hfl, hnodes]
      exact hshape.linked
    · rw [hfl, pageOf_header (hshape.pages p hmem).aligned]
      exact hown p hmem

theorem Sound.held_owned (h : Sound k c s) {b : Nat} (hb : b ∈ s.held) :
    Owned s.world.calls (k.virtToPhys (pageOf b)) := by
  obtain ⟨full, part, free, hshape, hown⟩ := h
  exact hown _ (hshape.held_pages b hb)

/-- Releasing the slab at `fl_ptr` leaves `fl_ptr` in a frame that was given back. -/
theorem Sound.dangles (h : Sound k c s) {b : Nat} (hb : b ∈ s.held)
    (hbad : ¬ Spares c s.world.mem b) : ∃ w', kmemCacheFree k c.addr b s.world = some ((), w') ∧
      ¬ FlPtrOk k c ⟨w', s.held.erase b⟩ := by
  obtain ⟨full, part, free, hshape, hown⟩ := h
  obtain ⟨hone, hfl⟩ : refsOf s.world.mem (pageOf b) = 1 ∧
      flPtrOf c s.world.mem = header (pageOf b) := by
    rw [Spares, Classical.not_imp, not_not] at hbad
    exact hbad
  have hpage : PageOk c (pageOf b) := hshape.pages _ (hshape.held_pages b hb)
  obtain ⟨m', hrun, hcells⟩ := kmemCacheFree_release (k := k) s.world.calls hshape hb rfl hone
  have hfl' : flPtrOf c m' = header (pageOf b) := (hcells 40 (by decide)).trans hfl
  have htail : tailOf c m' = c.addr + 120 := (hcells 32 (by decide)).trans hshape.tail
  refine ⟨_, hrun, ?_⟩
  rintro (heq | ⟨-, howned⟩)
  · rw [hfl', htail] at heq
    have hapart := hpage.apart
    have hheader : header (pageOf b) = pageOf b + 4048 := rfl
    omega
  · rw [hfl', pageOf_header hpage.aligned] at howned
    exact (owned_free.mp howned).1 rfl

/-- `fl_ptr` does not dangle in any run whose frees spare the slab it is at, and the held buffers
and every buffer the next allocation returns lie in frames of the layer. A free that does not
spare that slab leaves `fl_ptr` dangling. -/
theorem flPtr_run_safe (k : Machine) (c : SmallCache) (s₀ s : State) (hstart : Start c s₀)
    (hr : Reach k c (Spares c) s₀ s) :
    FlPtrOk k c s ∧ (∀ b ∈ s.held, Owned s.world.calls (k.virtToPhys (pageOf b))) ∧
    (k.Fresh c s.world → ∃ b w', kmemCacheAlloc k c.addr s.world = some (b, w') ∧
      Owned w'.calls (k.virtToPhys (pageOf b))) ∧
    ∀ b ∈ s.held, ¬ Spares c s.world.mem b → ∃ w', kmemCacheFree k c.addr b s.world = some ((), w') ∧
      ¬ FlPtrOk k c ⟨w', s.held.erase b⟩ := by
  have hs : Sound k c s := Reach.sound (fun m b hm => hm) hr (.start hstart)
  refine ⟨hs.flPtrOk, fun b hb => hs.held_owned hb, fun hfresh => ?_, fun b hb => hs.dangles hb⟩
  obtain ⟨b, w', hrun, -, -, hs'⟩ := Sound.alloc (w := s.world) hs fun _ => hfresh
  exact ⟨b, w', hrun, hs'.held_owned (List.mem_cons_self ..)⟩

/-- After the first allocation the slab at `fl_ptr` is the one the buffer is in. -/
theorem first_alloc (MayFree : Mem → Nat → Prop) (hstart : Start c s) (hf : k.Fresh c s.world) :
    ∃ b w', Step k c MayFree s ⟨w', [b]⟩ ∧ Sound k c ⟨w', [b]⟩ ∧ ¬ Spares c w'.mem b := by
  have hstart' := hstart
  obtain ⟨w, held⟩ := s
  obtain ⟨name, ⟨m, calls⟩, hinit, rfl⟩ := hstart
  obtain ⟨m₀, hinit', -, hshape₀⟩ := cacheInit_spec c name m calls
  rw [hinit] at hinit'
  cases hinit'
  obtain ⟨m', b, full, part, free, new, hrun, hnew, -, hlist, -, hshape⟩ :=
    kmemCacheAlloc_spec (k := k) calls hshape₀ fun _ => ⟨hf, by simp⟩
  obtain ⟨b', w', hrun', -, -, hs⟩ := (Sound.start hstart').alloc fun _ => hf
  rw [hrun] at hrun'
  cases hrun'
  refine ⟨b, _, .alloc (fun _ => hf) hrun, hs, fun hspares => ?_⟩
  have hpages : full ++ part = [k.kalloc calls.length + k.offset] := by
    rw [hlist, hnew]
    rfl
  have hpage : pageOf b = k.kalloc calls.length + k.offset := by
    have := hshape.held_pages b (List.mem_singleton_self b)
    rw [hpages] at this
    exact List.mem_singleton.mp this
  obtain ⟨hiff, hpart⟩ := last_taken hshape (List.mem_singleton_self b) rfl
  have hone : refsOf m' (pageOf b) = 1 := hiff.mpr (by simp [takenIn])
  rcases List.append_eq_singleton_iff.mp hpages with ⟨-, hp⟩ | ⟨-, hp⟩
  · apply hspares hone
    rw [hpage]
    exact hshape.flPtr.trans (by rw [hp]; rfl)
  · have := hpart hone
    rw [hp] at this
    cases this

/-- One allocation and its free, from a fresh cache, already leave `fl_ptr` dangling. -/
theorem alloc_free_dangles (hstart : Start c s) (hf : k.Fresh c s.world) :
    ∃ s', Reach k c (fun _ _ => True) s s' ∧ ¬ FlPtrOk k c s' := by
  obtain ⟨b, w, hstep, hs, hbad⟩ := first_alloc (fun _ _ => True) hstart hf
  obtain ⟨w', hfree, hdangles⟩ := hs.dangles (List.mem_singleton_self b) hbad
  exact ⟨_, .tail (.single hstep) (.free (List.mem_singleton_self b) trivial hfree), hdangles⟩

end Safety

/-- The direct map of the kernel, and frames from 1 MiB on, 64 KiB for each call. -/
def bootMachine : Machine := ⟨0xffff800000000000, fun n => 0x100000 + 0x10000 * n, by decide, by decide⟩

/-- A cache of 64-byte objects in the kernel's data. -/
def cache64 : SmallCache := ⟨0xffffffff80200000, 64, by decide, by decide, by decide⟩

/-- A cache of the kernel's data, set up in zeroed memory. -/
theorem boot_start (c : SmallCache) (hc : 0xffff800000101000 ≤ c.addr) :
    ∃ s, Start c s ∧ bootMachine.Fresh c s.world ∧ s.world.calls = [] ∧
      ∀ x < c.addr, s.world.mem x = 0 := by
  obtain ⟨m', hrun, honly, -⟩ := cacheInit_spec c 0 (fun _ => 0) []
  have hfresh : FreshFrame bootMachine c [] 0x100000 :=
    ⟨by decide, by decide, by decide, id, .inl hc⟩
  exact ⟨⟨⟨m', []⟩, []⟩, ⟨0, _, hrun, rfl⟩, hfresh, rfl, fun x hx => honly x (by omega)⟩

theorem cache64_start : ∃ s, Start cache64 s ∧ bootMachine.Fresh cache64 s.world := by
  obtain ⟨s, hstart, hfresh, -⟩ := boot_start cache64 (by decide)
  exact ⟨s, hstart, hfresh⟩

theorem flPtr_run_safe_one : ∃ s₀ s b, Start cache64 s₀ ∧
    Reach bootMachine cache64 (Spares cache64) s₀ s ∧ s.held = [b] ∧
    FlPtrOk bootMachine cache64 s ∧ Owned s.world.calls (bootMachine.virtToPhys (pageOf b)) := by
  obtain ⟨s₀, hstart, hfresh⟩ := cache64_start
  obtain ⟨b, w, hstep, -⟩ := first_alloc (Spares cache64) hstart hfresh
  obtain ⟨hfl, hown, -⟩ := flPtr_run_safe bootMachine cache64 s₀ _ hstart (.single hstep)
  exact ⟨s₀, _, b, hstart, .single hstep, rfl, hfl, hown b (List.mem_singleton_self b)⟩

/-- The run: allocate one object and free it. -/
theorem flPtr_dangles : ¬ ∀ (k : Machine) (c : SmallCache) (s₀ s : State), Start c s₀ →
    Reach k c (fun _ _ => True) s₀ s → FlPtrOk k c s := by
  intro hall
  obtain ⟨s, hstart, hfresh⟩ := cache64_start
  obtain ⟨s', hr, hbad⟩ := alloc_free_dangles hstart hfresh
  exact hbad (hall _ _ s s' hstart hr)

/-- The list from `head` to `tail`: full slabs, then slabs with free buffers, `fl_ptr` at the first
of these. Each counter is the number of held buffers in the slab's page. -/
structure Ordered (c : SmallCache) (s : State) (full part : List Nat) : Prop where
  nodup : (headOf c s.world.mem :: ((full ++ part).map header ++ [tailOf c s.world.mem])).Nodup
  linked : Linked (nextOf s.world.mem) (prevOf s.world.mem)
    (headOf c s.world.mem :: ((full ++ part).map header ++ [tailOf c s.world.mem]))
  held : ∀ b ∈ s.held, pageOf b ∈ full ++ part
  refs : ∀ p ∈ full ++ part, refsOf s.world.mem p = (s.held.filter fun b => pageOf b = p).length ∧
    refsOf s.world.mem p ≤ bufCntOf s.world.mem p
  full_refs : ∀ p ∈ full, refsOf s.world.mem p = bufCntOf s.world.mem p
  part_refs : ∀ p ∈ part, refsOf s.world.mem p < bufCntOf s.world.mem p
  flPtr : flPtrOf c s.world.mem = (part.map header).headD (tailOf c s.world.mem)

/-- Two buffers that do not meet. -/
def Apart (c : SmallCache) (b b' : Nat) : Prop := b + c.size ≤ b' ∨ b' + c.size ≤ b

section Disjoint
variable {k : Machine} {c : SmallCache} {s : State}

theorem Sound.ordered (h : Sound k c s) : ∃ full part, Ordered c s full part := by
  obtain ⟨full, part, free, hshape, -⟩ := h
  have hcount : ∀ p ∈ full ++ part, refsOf s.world.mem p = (takenIn s.held p).length ∧
      bufCntOf s.world.mem p = (free p).length + (takenIn s.held p).length := by
    intro p hp
    have hslab := hshape.slabs p hp
    have hlen := hslab.length_eq
    exact ⟨hslab.refs, hslab.count.trans (by omega)⟩
  refine ⟨full, part, ?_, ?_, hshape.held_pages, ?_, ?_, ?_, ?_⟩
  · rw [hshape.nodes_eq]
    exact (headers_nodes hshape.nodup hshape.pages).nodup
  · rw [hshape.nodes_eq]
    exact hshape.linked
  · intro p hp
    obtain ⟨hrefs, hcnt⟩ := hcount p hp
    exact ⟨hrefs, by omega⟩
  · intro p hp
    obtain ⟨hrefs, hcnt⟩ := hcount p (List.mem_append_left part hp)
    rw [hshape.full_taken p hp, List.length_nil] at hcnt
    omega
  · intro p hp
    obtain ⟨hrefs, hcnt⟩ := hcount p (List.mem_append_right full hp)
    have := List.length_pos_iff.mpr (hshape.part_free p hp)
    omega
  · rw [tailOf, hshape.tail]
    exact hshape.flPtr

/-- Held buffers end below the header of their page. -/
theorem Sound.below_header (h : Sound k c s) {b : Nat} (hb : b ∈ s.held) :
    pageOf b ≤ b ∧ b + c.size ≤ pageOf b + 4048 := by
  obtain ⟨full, part, free, hshape, -⟩ := h
  have := buffer_bounds (hshape.mem_held hb)
  have hpage : pageOf b = b / 4096 * 4096 := rfl
  omega

theorem Sound.apart (h : Sound k c s) {b b' : Nat} (hb : b ∈ s.held) (hb' : b' ∈ s.held)
    (hne : b ≠ b') : Apart c b b' := by
  obtain ⟨full, part, free, hshape, -⟩ := h
  have hbuf := hshape.mem_held hb
  have hbuf' := hshape.mem_held hb'
  have hbound := buffer_bounds hbuf
  have hbound' := buffer_bounds hbuf'
  unfold Apart
  by_cases hpage : b / 4096 * 4096 = b' / 4096 * 4096
  · rw [← hpage] at hbuf'
    have := buffer_apart hbuf hbuf' hne
    omega
  · omega

theorem Sound.held_nodup (h : Sound k c s) : s.held.Nodup := by
  obtain ⟨full, part, free, hshape, -⟩ := h
  exact hshape.held_nodup

/-- Every step is a step of a pool of disjoint buffers. -/
theorem Step.pool {MayFree : Mem → Nat → Prop} {s s' : State}
    (hmay : ∀ m b, MayFree m b → Spares c m b)
    (h : Sound k c s) (hstep : Step k c MayFree s s') :
    Sound k c s' ∧ Pool.Step (Apart c) {b | b ∈ s.held} {b | b ∈ s'.held} := by
  have h' : Sound k c s' := hstep.sound hmay h
  refine ⟨h', ?_⟩
  cases hstep with
  | grow => exact .stay
  | @alloc w w' held b =>
    have hnew := (List.nodup_cons.mp h'.held_nodup).1
    have hinsert : {x | x ∈ b :: held} = insert b {x | x ∈ held} := by
      ext x
      exact List.mem_cons
    rw [hinsert]
    refine .take fun b' hb' => ?_
    have hne : b ≠ b' := fun he => hnew (he ▸ hb')
    exact ⟨hne, h'.apart (List.mem_cons_self ..) (List.mem_cons_of_mem b hb') hne,
      h'.apart (List.mem_cons_of_mem b hb') (List.mem_cons_self ..) hne.symm⟩
  | @free w w' held b hb =>
    have herase : {x | x ∈ held.erase b} = {x | x ∈ held} \ {b} := by
      ext x
      exact (h.held_nodup.mem_erase_iff).trans and_comm
    rw [herase]
    exact .give hb
  | client => exact .stay

/-- Runs of a cache refine runs of the pool. -/
theorem Reach.pool {MayFree : Mem → Nat → Prop} {s₀ s : State}
    (hmay : ∀ m b, MayFree m b → Spares c m b)
    (hstart : Start c s₀) (hr : Reach k c MayFree s₀ s) :
    Sound k c s ∧ Relation.ReflTransGen (Pool.Step (Apart c)) ∅ {b | b ∈ s.held} := by
  have hempty : {b | b ∈ s₀.held} = (∅ : Set Nat) := by
    obtain ⟨-, -, -, hheld⟩ := hstart
    simp [hheld]
  rw [← hempty]
  exact Pool.run_of_steps (fun s : State => {b | b ∈ s.held}) (fun _ _ h hstep => hstep.pool hmay h) hr
    (.start hstart)

/-- In every state of every run in which no free empties a slab: held buffers are disjoint and
below their slab's header, the next allocation returns none of them, the next free succeeds, and
the list keeps its order. -/
theorem small_cache_run_safe (k : Machine) (c : SmallCache) (s₀ s : State) (hstart : Start c s₀)
    (hr : Reach k c (fun m b => refsOf m (pageOf b) ≠ 1) s₀ s) :
    s.held.Pairwise (Apart c) ∧ (∀ b ∈ s.held, pageOf b ≤ b ∧ b + c.size ≤ pageOf b + 4048) ∧
    ((flPtrOf c s.world.mem = tailOf c s.world.mem → k.Fresh c s.world) →
      ∃ b w', kmemCacheAlloc k c.addr s.world = some (b, w') ∧ b ∉ s.held) ∧
    (∀ b ∈ s.held, refsOf s.world.mem (pageOf b) ≠ 1 →
      ∃ w', kmemCacheFree k c.addr b s.world = some ((), w')) ∧
    ∃ full part, Ordered c s full part := by
  obtain ⟨hs, hpool⟩ := Reach.pool (fun m b hm hone => absurd hone hm) hstart hr
  refine ⟨hs.held_nodup.pairwise_of_set_pairwise (Pool.run_pairwise hpool),
    fun b hb => hs.below_header hb, fun hfresh => ?_, fun b hb hrefs => ?_, hs.ordered⟩
  · obtain ⟨b, w', hrun, hb, -⟩ := Sound.alloc (w := s.world) hs hfresh
    exact ⟨b, w', hrun, hb⟩
  · obtain ⟨w', hrun, -⟩ := Sound.free (w := s.world) hs hb fun hone => absurd hone hrefs
    exact ⟨w', hrun⟩

/-- No call writes into a held buffer, whatever the clients have written there. -/
theorem calls_keep_buffers {s₀ : State} (hstart : Start c s₀) (hr : Reach k c (Spares c) s₀ s) :
    (k.Fresh c s.world → ∃ w', kmemCacheGrow k c.addr s.world = some ((), w') ∧
      SameBuffers c s.held s.world.mem w'.mem) ∧
    (k.Fresh c s.world → ∃ b w', kmemCacheAlloc k c.addr s.world = some (b, w') ∧
      SameBuffers c s.held s.world.mem w'.mem) ∧
    ∀ b ∈ s.held, Spares c s.world.mem b → ∃ w', kmemCacheFree k c.addr b s.world = some ((), w') ∧
      SameBuffers c s.held s.world.mem w'.mem := by
  have hs : Sound k c s := Reach.sound (fun m b hm => hm) hr (.start hstart)
  refine ⟨fun hfresh => ?_, fun hfresh => ?_, fun b hb hspares => ?_⟩
  · obtain ⟨w', hrun, hsame, -⟩ := Sound.grow (w := s.world) hs hfresh
    exact ⟨w', hrun, hsame⟩
  · obtain ⟨b, w', hrun, -, hsame, -⟩ := Sound.alloc (w := s.world) hs fun _ => hfresh
    exact ⟨b, w', hrun, hsame⟩
  · obtain ⟨w', hrun, hsame, -⟩ := Sound.free (w := s.world) hs hb hspares
    exact ⟨w', hrun, hsame⟩

end Disjoint

theorem small_cache_run_safe_one : ∃ s₀ s b, Start cache64 s₀ ∧
    Reach bootMachine cache64 (fun m b => refsOf m (pageOf b) ≠ 1) s₀ s ∧ s.held = [b] ∧
    b + 64 ≤ pageOf b + 4048 ∧ ∃ full part, Ordered cache64 s full part := by
  obtain ⟨s₀, hstart, hfresh⟩ := cache64_start
  obtain ⟨b, w, hstep, -⟩ := first_alloc (fun m b => refsOf m (pageOf b) ≠ 1) hstart hfresh
  obtain ⟨-, hpage, -, -, hordered⟩ :=
    small_cache_run_safe bootMachine cache64 s₀ _ hstart (.single hstep)
  exact ⟨s₀, _, b, hstart, .single hstep, rfl, (hpage b (List.mem_singleton_self b)).2, hordered⟩

end NyaOS.Slab
