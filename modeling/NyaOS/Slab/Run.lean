import Mathlib.Logic.Relation
import NyaOS.Slab.Alloc
import NyaOS.Slab.Free

/-! Runs of calls on a small-object cache that starts as `slab_alloc_init` sets up
`cache_cache`. -/
namespace NyaOS.Slab
open Library.ByteMemory Library.LinkedList
open Frames (pageSize)

/-- What `slab_alloc_init` makes of a cache object: the sentinels point to each other and
`fl_ptr` is at the tail. -/
theorem cacheInit_run {cache size : Nat} (hne : cache ≠ 0) (haddr : cache + 168 ≤ 2 ^ 64)
    (hsize : size < 2 ^ 64) (name : Nat) (m : Mem) (calls : List FrameCall) :
    ∃ m', cacheInit cache size name ⟨m, calls⟩ = some ((), ⟨m', calls⟩) ∧
      OnlyIn (fun x => cache ≤ x ∧ x < cache + 168) m m' ∧
      load m' (cache + 24) 8 = cache + 72 ∧ load m' (cache + 32) 8 = cache + 120 ∧
      load m' (cache + 56) 8 = size ∧ load m' (cache + 40) 8 = cache + 120 ∧
      nextOf m' (cache + 72) = cache + 120 ∧ prevOf m' (cache + 120) = cache + 72 := by
  have hhead : cache + 72 ≠ 0 := by omega
  have htail : cache + 120 ≠ 0 := by omega
  -- the fields, the head node, the tail node, and the last two fields
  let m₁ := store (store (store (store (store m (cache + 56) 8 size) (cache + 72) 48 0)
    (cache + 120) 48 0) (cache + 24) 8 (cache + 72)) (cache + 32) 8 (cache + 120)
  let m₂ := store (store (store (store m₁ (cache + 72 + 0) 8 0) (cache + 72 + 8) 8 (cache + 120))
    (cache + 72 + 24) 8 0) (cache + 72 + 40) 4 (BitVec.ofInt 32 0).toNat
  let m₃ := store (store (store (store m₂ (cache + 120 + 0) 8 (cache + 72))
    (cache + 120 + 0) 8 (cache + 72)) (cache + 120 + 24) 8 0)
    (cache + 120 + 40) 4 (BitVec.ofInt 32 0).toNat
  let m₄ := store (store m₃ (cache + 40) 8 (cache + 120)) (cache + 48) 8 name
  have hhead₁ : load m₁ (cache + 24) 8 = cache + 72 := by
    rw [load_store_off _ _ _ _ (by omega), load_store _ _ (by omega)]
  have htail₁ : load m₁ (cache + 32) 8 = cache + 120 := load_store _ _ (by omega)
  have hread : ∀ {m' : Mem}, OnlyIn (fun x => cache + 72 ≤ x) m₁ m' →
      read cache KmemCache.head ⟨m', calls⟩ = some (cache + 72, ⟨m', calls⟩) ∧
      read cache KmemCache.tail ⟨m', calls⟩ = some (cache + 120, ⟨m', calls⟩) := by
    intro m' h
    constructor
    · exact read_eq hne ((h.load fun x _ hx => by unfold KmemCache.head at hx; omega).trans hhead₁)
    · exact read_eq hne ((h.load fun x _ hx => by unfold KmemCache.tail at hx; omega).trans htail₁)
  refine ⟨m₄, ?_, ?_, ?_⟩
  · rw [cacheInit, bind_run (write_run hne), bind_run (memset_run hhead),
      bind_run (memset_run htail), bind_run (write_run hne), bind_run (write_run hne)]
    change (read cache KmemCache.head >>= _) ⟨m₁, calls⟩ = _
    rw [bind_run (hread ?_).1, bind_run (write_run hhead), bind_run (hread ?_).1,
      bind_run (hread ?_).2, bind_run (write_run hhead), bind_run (hread ?_).1,
      bind_run (write_run hhead), bind_run (hread ?_).1, bind_run (writeInt_run hhead),
      bind_run (hread ?_).2, bind_run (hread ?_).1, bind_run (write_run htail),
      bind_run (hread ?_).2, bind_run (hread ?_).1, bind_run (write_run htail),
      bind_run (hread ?_).2, bind_run (write_run htail), bind_run (hread ?_).2,
      bind_run (writeInt_run htail), bind_run (hread ?_).2, bind_run (write_run hne), write_run hne]
    all_goals
      intro x hx
      simp (disch := omega) only [KmemSlab.prev, KmemSlab.next, KmemSlab.freelist, KmemSlab.refs,
        store_off]
  · intro x hx
    unfold m₄ m₃ m₂ m₁
    simp (disch := omega) only [store_off]
  · unfold m₄ m₃ m₂ m₁ nextOf prevOf KmemSlab.next KmemSlab.prev
    simp (disch := omega) only [load_store, load_store_off, and_self]

/-- An initialised cache has an empty list. -/
theorem cacheInit_spec (c : SmallCache) (name : Nat) (m : Mem) (calls : List FrameCall) :
    ∃ m', cacheInit c.addr c.size name ⟨m, calls⟩ = some ((), ⟨m', calls⟩) ∧
      OnlyIn (fun x => c.addr ≤ x ∧ x < c.addr + 168) m m' ∧ Shape c m' [] [] [] fun _ => [] := by
  have hsize := c.size_le
  obtain ⟨m', hrun, honly, hhead, htail, hsz, hfl, hnext, hprev⟩ :=
    cacheInit_run c.addr_ne c.addr_le (show c.size < 2 ^ 64 by omega) name m calls
  have hlinked : Linked (nextOf m') (prevOf m') (nodes c ([] ++ [])) :=
    List.isChain_pair.mpr ⟨hnext, hprev⟩
  exact ⟨m', hrun, honly, by simp, by simp, hhead, htail, hsz, hfl, hlinked, by simp, by simp,
    by simp, by simp⟩

/-- The kernel and the buffers its clients hold. -/
structure State where
  world : World
  held : List Nat

/-- Bytes of held buffers, and bytes that are neither the cache's nor in a frame the layer has. -/
def Foreign (k : Machine) (c : SmallCache) (s : State) (x : Nat) : Prop :=
  (∃ b ∈ s.held, b ≤ x ∧ x < b + c.size) ∨ (¬ (c.addr ≤ x ∧ x < c.addr + 168) ∧
    ∀ f, Owned s.world.calls f → ¬ (k.physToVirt f ≤ x ∧ x < k.physToVirt f + 4096))

/-- The next `kalloc_frame` returns a fresh frame. -/
def Machine.Fresh (k : Machine) (c : SmallCache) (w : World) : Prop :=
  FreshFrame k c w.calls (k.kalloc w.calls.length)

/-- `fl_ptr`, the page of a buffer, and the counter of the slab in it. -/
def flPtrOf (c : SmallCache) (m : Mem) : Nat := load m (c.addr + KmemCache.flPtr) 8
def pageOf (b : Nat) : Nat := b / pageSize * pageSize
def refsOf (m : Mem) (p : Nat) : Int := intAt m (header p + KmemSlab.refs)

/-- Freeing `b` does not release the slab `fl_ptr` is at. -/
def Spares (c : SmallCache) (m : Mem) (b : Nat) : Prop :=
  refsOf m (pageOf b) = 1 → flPtrOf c m ≠ header (pageOf b)

/-- One call, or writing by anyone else. Frames are fresh where one is taken, and a free is of a
held buffer that `MayFree` admits. -/
inductive Step (k : Machine) (c : SmallCache) (MayFree : Mem → Nat → Prop) : State → State → Prop
  | grow {w w' : World} {held : List Nat} (hfresh : k.Fresh c w)
      (hrun : kmemCacheGrow k c.addr w = some ((), w')) : Step k c MayFree ⟨w, held⟩ ⟨w', held⟩
  | alloc {w w' : World} {held : List Nat} {b : Nat}
      (hfresh : flPtrOf c w.mem = load w.mem (c.addr + KmemCache.tail) 8 → k.Fresh c w)
      (hrun : kmemCacheAlloc k c.addr w = some (b, w')) :
      Step k c MayFree ⟨w, held⟩ ⟨w', b :: held⟩
  | free {w w' : World} {held : List Nat} {b : Nat} (hb : b ∈ held) (hmay : MayFree w.mem b)
      (hrun : kmemCacheFree k c.addr b w = some ((), w')) :
      Step k c MayFree ⟨w, held⟩ ⟨w', held.erase b⟩
  | client {w : World} {held : List Nat} {m' : Mem}
      (h : OnlyIn (Foreign k c ⟨w, held⟩) w.mem m') :
      Step k c MayFree ⟨w, held⟩ ⟨⟨m', w.calls⟩, held⟩

/-- The state after the cache was set up, in any memory and after any frame calls. -/
def Start (c : SmallCache) (s : State) : Prop :=
  ∃ name w, cacheInit c.addr c.size name w = some ((), s.world) ∧ s.held = []

abbrev Reach (k : Machine) (c : SmallCache) (MayFree : Mem → Nat → Prop) :=
  Relation.ReflTransGen (Step k c MayFree)

/-- The invariant of a run: the shape, and every slab's frame belongs to the layer. -/
def Sound (k : Machine) (c : SmallCache) (s : State) : Prop :=
  ∃ full part free, Shape c s.world.mem s.held full part free ∧
    ∀ p ∈ full ++ part, Owned s.world.calls (k.virtToPhys p)

section Frames
variable (k : Machine) {a f p q : Nat} {calls : List FrameCall}

theorem physToVirt_virtToPhys (hp : p < 2 ^ 64) : k.physToVirt (k.virtToPhys p) = p := by
  have := k.offset_lt
  unfold Machine.physToVirt Machine.virtToPhys
  omega

theorem virtToPhys_frame (h : a + k.offset < 2 ^ 64) : k.virtToPhys (a + k.offset) = a := by
  have := k.offset_lt
  unfold Machine.virtToPhys
  omega

theorem owned_alloc : Owned (.alloc a 1 :: calls) f ↔ f = a ∨ Owned calls f := by
  simp [Owned]

theorem owned_free : Owned (.free a 1 :: calls) f ↔ f ≠ a ∧ Owned calls f := by
  simp [Owned]

end Frames

/-- The two memories agree on the buffers. -/
def SameBuffers (c : SmallCache) (held : List Nat) (m m' : Mem) : Prop :=
  ∀ b ∈ held, ∀ x, b ≤ x → x < b + c.size → m' x = m x

section Sound
variable {k : Machine} {c : SmallCache} {w : World} {held : List Nat} {s : State}

theorem Sound.start (h : Start c s) : Sound k c s := by
  obtain ⟨name, ⟨m, calls⟩, hrun, hheld⟩ := h
  obtain ⟨m', hrun', -, hshape⟩ := cacheInit_spec c name m calls
  obtain ⟨w, held⟩ := s
  rw [hrun] at hrun'
  cases hrun'
  exact ⟨[], [], fun _ => [], hheld ▸ hshape, by simp⟩

/-- A held buffer is not the cache's, whatever pages it has. -/
theorem Shape.not_private_held {m : Mem} {full part pages : List Nat} {free : Nat → List Nat}
    (h : Shape c m held full part free) {b x : Nat} (hb : b ∈ held) (hx : b ≤ x ∧ x < b + c.size) :
    ¬ Private c pages held x := by
  rintro (hcache | ⟨p, _, _, hno⟩)
  · have hapart := (h.pages _ (h.held_pages b hb)).apart
    have := buffer_bounds (h.mem_held hb)
    omega
  · exact hno b hb hx

/-- What others may write is not the cache's. -/
theorem not_private_of_foreign {full part : List Nat} {free : Nat → List Nat} {x : Nat}
    (h : Shape c s.world.mem s.held full part free)
    (hown : ∀ p ∈ full ++ part, Owned s.world.calls (k.virtToPhys p)) (hx : Foreign k c s x) :
    ¬ Private c (full ++ part) s.held x := by
  rcases hx with ⟨b, hb, hin⟩ | ⟨hcache, hframes⟩
  · exact h.not_private_held hb hin
  · rintro (hin | ⟨p, hp, hin, _⟩)
    · exact hcache hin
    · have hbound := (h.pages p hp).bound
      have := hframes _ (hown p hp)
      rw [physToVirt_virtToPhys k (by omega)] at this
      exact this hin

theorem Sound.client (h : Sound k c ⟨w, held⟩) {m' : Mem}
    (hm : OnlyIn (Foreign k c ⟨w, held⟩) w.mem m') : Sound k c ⟨⟨m', w.calls⟩, held⟩ := by
  obtain ⟨full, part, free, hshape, hown⟩ := h
  refine ⟨full, part, free, hshape.congr fun x hx => hm x fun hf => ?_, hown⟩
  exact not_private_of_foreign (s := ⟨w, held⟩) hshape hown hf hx

/-- The page of a fresh frame is none of the cache's. -/
theorem fresh_page_new {full part : List Nat} (hown : ∀ p ∈ full ++ part, Owned w.calls (k.virtToPhys p))
    (hf : k.Fresh c w) : k.kalloc w.calls.length + k.offset ∉ full ++ part := by
  intro hp
  have hmapped := hf.mapped
  have := hown _ hp
  rw [virtToPhys_frame k (by omega)] at this
  exact hf.unused this

/-- With the fresh frame, the layer owns the new page too. -/
theorem owned_fresh {p : Nat} {pages : List Nat} (hf : k.Fresh c w)
    (hown : ∀ q ∈ pages, Owned w.calls (k.virtToPhys q))
    (hp : p = k.kalloc w.calls.length + k.offset) :
    ∀ q ∈ pages ++ [p], Owned (.alloc (k.kalloc w.calls.length) 1 :: w.calls) (k.virtToPhys q) := by
  have hmapped := hf.mapped
  intro q hq
  rcases List.mem_append.mp hq with hq | hq
  · exact owned_alloc.mpr (.inr (hown q hq))
  · rw [List.mem_singleton.mp hq, hp, virtToPhys_frame k (by omega)]
    exact owned_alloc.mpr (.inl rfl)

theorem Sound.grow (h : Sound k c ⟨w, held⟩) (hf : k.Fresh c w) :
    ∃ w', kmemCacheGrow k c.addr w = some ((), w') ∧ SameBuffers c held w.mem w'.mem ∧
      Sound k c ⟨w', held⟩ := by
  obtain ⟨full, part, free, hshape, hown⟩ := h
  obtain ⟨m', hrun, honly, hshape'⟩ := kmemCacheGrow_spec hshape hf rfl (fresh_page_new hown hf)
  refine ⟨_, hrun, fun b hb x hlo hhi => honly x (hshape.not_private_held hb ⟨hlo, hhi⟩),
    full, _, _, hshape', ?_⟩
  rw [← List.append_assoc]
  exact owned_fresh hf hown rfl

theorem Sound.alloc (h : Sound k c ⟨w, held⟩)
    (hf : flPtrOf c w.mem = load w.mem (c.addr + KmemCache.tail) 8 → k.Fresh c w) :
    ∃ b w', kmemCacheAlloc k c.addr w = some (b, w') ∧ b ∉ held ∧
      SameBuffers c held w.mem w'.mem ∧ Sound k c ⟨w', b :: held⟩ := by
  obtain ⟨full, part, free, hshape, hown⟩ := h
  have hfresh : part = [] → k.Fresh c w := by
    rintro rfl
    exact hf (hshape.flPtr.trans hshape.tail.symm)
  have hnew : part = [] → k.kalloc w.calls.length + k.offset ∉ full :=
    fun hp hmem => fresh_page_new hown (hfresh hp) (List.mem_append_left part hmem)
  obtain ⟨m', b, full', part', free', new, hrun, hnewEq, hb, hlist, honly, hshape'⟩ :=
    kmemCacheAlloc_spec (k := k) w.calls hshape fun hp => ⟨hfresh hp, hnew hp⟩
  refine ⟨b, _, hrun, hb, fun b' hb' x hlo hhi => honly x (hshape.not_private_held hb' ⟨hlo, hhi⟩),
    full', part', free', hshape', ?_⟩
  rw [hlist, hnewEq]
  split
  · next hp => exact owned_fresh (hfresh hp) hown rfl
  · simpa using hown

theorem Sound.free {b : Nat} (h : Sound k c ⟨w, held⟩) (hb : b ∈ held)
    (hspares : Spares c w.mem b) :
    ∃ w', kmemCacheFree k c.addr b w = some ((), w') ∧ SameBuffers c held w.mem w'.mem ∧
      Sound k c ⟨w', held.erase b⟩ := by
  obtain ⟨full, part, free, hshape, hown⟩ := h
  obtain ⟨m', full', part', free', gone, hrun, hgone, hmem, honly, hshape'⟩ :=
    kmemCacheFree_spec (k := k) w.calls hshape hb rfl hspares
  refine ⟨_, hrun, fun b' hb' x hlo hhi => honly x (hshape.not_private_held hb' ⟨hlo, hhi⟩),
    full', part', free', hshape', fun p hp => ?_⟩
  obtain ⟨hp, hstay⟩ := (hmem p).mp hp
  have howned := hown p hp
  rw [hgone] at hstay ⊢
  split
  · rename_i hone
    rw [if_pos hone, List.mem_singleton] at hstay
    refine owned_free.mpr ⟨fun he => hstay ?_, howned⟩
    have hpb := (hshape.pages p hp).bound
    have hqb := (hshape.pages _ (hshape.held_pages b hb)).bound
    rw [← physToVirt_virtToPhys k (show p < 2 ^ 64 by omega), he, physToVirt_virtToPhys k (by omega)]
  · exact howned

/-- Every step keeps the invariant, given that no free releases the slab at `fl_ptr`. -/
theorem Step.sound {MayFree : Mem → Nat → Prop} {s s' : State}
    (hmay : ∀ m b, MayFree m b → Spares c m b)
    (hstep : Step k c MayFree s s') (h : Sound k c s) : Sound k c s' := by
  cases hstep with
  | grow hfresh hrun =>
    obtain ⟨w', hrun', -, hsound⟩ := h.grow hfresh
    rw [hrun] at hrun'
    cases hrun'
    exact hsound
  | alloc hfresh hrun =>
    obtain ⟨b, w', hrun', -, -, hsound⟩ := h.alloc hfresh
    rw [hrun] at hrun'
    cases hrun'
    exact hsound
  | free hb hm hrun =>
    obtain ⟨w', hrun', -, hsound⟩ := h.free hb (hmay _ _ hm)
    rw [hrun] at hrun'
    cases hrun'
    exact hsound
  | client hm => exact h.client hm

theorem Reach.sound {MayFree : Mem → Nat → Prop} {s₀ s : State}
    (hmay : ∀ m b, MayFree m b → Spares c m b)
    (hr : Reach k c MayFree s₀ s) (h : Sound k c s₀) : Sound k c s := by
  induction hr with
  | refl => exact h
  | tail _ hstep ih => exact hstep.sound hmay ih

end Sound

end NyaOS.Slab
