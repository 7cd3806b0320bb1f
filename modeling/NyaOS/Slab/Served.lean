import NyaOS.Frames.Mixed
import NyaOS.Slab.Safety

/-! A small-object cache whose frames come from the allocator of `pfa.c`, beside its other clients. -/
namespace NyaOS.Slab
open Library Library.ByteMemory
open Library.WordBits (Row bit)
open Frames (pageSize Allocator Tenant MixedStep MixedRun Apportioned BlocksApart LowMap Spare MemmapEntry Boot pfaInit
  bootAllocator megabyteMap megabyteMap_low megabyteMap_first)

/-- The frame calls only get more, and what was logged stays where it is. -/
structure Extends {α : Type} (x : Kernel α) : Prop where
  suffix : ∀ w a w', x w = some (a, w') → w.calls <:+ w'.calls

section Extends
variable {α β : Type} {x y : Kernel α} {f : α → Kernel β} {k : Machine} {w w' : World}

/-- What a call logs in its first part stays. -/
theorem suffix_bind {log : List FrameCall} (hx : ∀ a w₁, x w = some (a, w₁) → log <:+ w₁.calls)
    (hf : ∀ a, Extends (f a)) {b : β} (h : (x >>= f) w = some (b, w')) : log <:+ w'.calls := by
  obtain ⟨⟨a, w₁⟩, h₁, h₂⟩ := Option.bind_eq_some_iff.mp h
  exact (hx a w₁ h₁).trans ((hf a).suffix w₁ b w' h₂)

theorem Extends.bind (hx : Extends x) (hf : ∀ a, Extends (f a)) : Extends (x >>= f) :=
  ⟨fun w _ _ h => suffix_bind (hx.suffix w) hf h⟩

theorem extends_pure (a : α) : Extends (pure a : Kernel α) where
  suffix w a' w' h := by
    cases h
    exact List.suffix_rfl

theorem extends_failure : Extends (failure : Kernel α) where
  suffix w a w' h := by cases h

theorem Extends.ite {P : Prop} [Decidable P] (hx : Extends x) (hy : Extends y) : Extends (if P then x else y) := by
  split
  · exact hx
  · exact hy

/-- An access that fails or keeps the log. -/
theorem extends_access {P : Prop} [Decidable P] {v : World → α} {m : World → Mem} :
    Extends fun w => if P then none else some (v w, { w with mem := m w }) where
  suffix w a w' h := by
    split at h
    · cases h
    · cases h
      exact List.suffix_rfl

theorem extends_read (p off : Nat) : Extends (read p off) := extends_access (m := World.mem)
theorem extends_write (p off v : Nat) : Extends (write p off v) := extends_access
theorem extends_readInt (p off : Nat) : Extends (readInt p off) := extends_access (m := World.mem)
theorem extends_writeInt (p off : Nat) (v : Int) : Extends (writeInt p off v) := extends_access

theorem extends_kallocFrames (n : Nat) : Extends (k.kallocFrames n) where
  suffix w a w' h := by
    cases h
    exact List.suffix_cons _ _

theorem extends_initSlab (slab freelist pstart : Nat) : Extends (initSlab slab freelist pstart) :=
  (extends_write ..).bind fun _ => (extends_write ..).bind fun _ => (extends_writeInt ..).bind fun _ =>
    (extends_write ..).bind fun _ => extends_write ..

theorem extends_threadBuffers (cache slab eff fuel p : Nat) : Extends (threadBuffers cache slab eff fuel p) := by
  induction fuel generalizing p with
  | zero => exact extends_failure
  | succ fuel ih =>
    refine Extends.ite ?_ (extends_pure p)
    exact (extends_read ..).bind fun _ => (extends_write ..).bind fun _ => ih (p + eff)

theorem extends_linkBufctl (slab buf i : Nat) : Extends (linkBufctl slab buf i) :=
  (extends_write ..).bind fun _ => (extends_readInt ..).bind fun _ => (extends_write ..).ite (extends_pure ())

theorem extends_threadBufctls (cache slab bufStart pstart fuel i : Nat) :
    Extends (threadBufctls cache slab bufStart pstart fuel i) := by
  induction fuel generalizing i with
  | zero => exact extends_failure
  | succ fuel ih =>
    refine (extends_readInt ..).bind fun _ => Extends.ite ?_ (extends_pure ())
    exact (extends_read ..).bind fun _ => (extends_write ..).bind fun _ => (extends_linkBufctl ..).bind fun _ =>
      (extends_write ..).bind fun _ => ih (i + 1)

theorem extends_appendSlab (cache slab : Nat) : Extends (appendSlab cache slab) := by
  refine (extends_read ..).bind fun tail => ?_
  have hinsert : Extends (insertSlab tail slab) :=
    (extends_read ..).bind fun _ => (extends_write ..).bind fun _ => (extends_read ..).bind fun _ =>
      (extends_write ..).bind fun _ => (extends_write ..).bind fun _ => extends_write ..
  exact hinsert.bind fun _ => (extends_read ..).bind fun _ => (extends_read ..).bind fun _ =>
    (extends_write ..).ite (extends_pure ())

/-- A new slab's frame is asked for first. -/
theorem growSmall_suffix {cache slab : Nat} (h : growSmall k cache w = some (slab, w')) :
    (.alloc (k.kalloc w.calls.length) 1 :: w.calls) <:+ w'.calls := by
  refine suffix_bind (fun a w₁ h₁ => ?_) (fun a => ?_) h
  · cases h₁
    exact List.suffix_rfl
  · exact (extends_initSlab ..).bind fun _ => (extends_read ..).bind fun _ => (extends_writeInt ..).bind fun _ =>
      (extends_threadBuffers ..).bind fun _ => (extends_write ..).bind fun _ => extends_pure _

theorem extends_kmemCacheGrow (cache : Nat) : Extends (kmemCacheGrow k cache) := by
  have hlarge : Extends (growLarge k cache) :=
    (extends_read ..).bind fun _ => (extends_kallocFrames ..).bind fun _ => (extends_read ..).bind fun _ =>
      (extends_kallocFrames ..).bind fun _ => (extends_initSlab ..).bind fun _ => (extends_writeInt ..).bind fun _ =>
        (extends_threadBufctls ..).bind fun _ => extends_pure _
  have hsmall : Extends (growSmall k cache) := ⟨fun w _ _ h => (List.suffix_cons _ _).trans (growSmall_suffix h)⟩
  exact (extends_read ..).bind fun _ =>
    (hsmall.bind fun _ => extends_appendSlab ..).ite (hlarge.bind fun _ => extends_appendSlab ..)

theorem extends_takeRef (cache slab : Nat) : Extends (takeRef cache slab) := by
  refine (extends_readInt ..).bind fun _ => (extends_writeInt ..).bind fun _ => (extends_readInt ..).bind fun _ =>
    (extends_readInt ..).bind fun _ => Extends.ite ?_ (extends_pure ())
  exact (extends_read ..).bind fun _ => (extends_read ..).bind fun _ => extends_write ..

theorem extends_takeBuffer (cache : Nat) : Extends (takeBuffer cache) := by
  refine (extends_read ..).bind fun _ => (extends_read ..).bind fun _ => Extends.ite ?_ ?_
  · exact (extends_read ..).bind fun _ => (extends_read ..).bind fun _ => (extends_read ..).bind fun _ =>
      (extends_write ..).bind fun _ => (extends_read ..).bind fun _ => (extends_write ..).bind fun _ =>
        (extends_takeRef ..).bind fun _ => extends_pure _
  · exact (extends_read ..).bind fun _ => (extends_read ..).bind fun _ => (extends_write ..).bind fun _ =>
      (extends_write ..).bind fun _ => (extends_takeRef ..).bind fun _ => extends_read ..

end Extends

/-- The frame call that a call of the layer logs, if it does, is made to the allocator of `pfa.c`, which has a frame. -/
inductive Served : List FrameCall → Tenant → List FrameCall → Tenant → Prop
  | quiet {calls : List FrameCall} {t : Tenant} : Served calls t calls t
  | alloc {calls : List FrameCall} {t : Tenant} {a : Nat} {s : Allocator}
      (h : Frames.kallocFrame t.alloc = some (a, s)) (hne : a ≠ 0) :
      Served calls t (.alloc a 1 :: calls) ⟨s, insert (a, 1) t.held⟩
  | free {calls : List FrameCall} {t : Tenant} {a : Nat} :
      Served calls t (.free a 1 :: calls)
        ⟨{ t.alloc with pfa := Frames.kfreeFrame t.alloc.pfa a }, t.held.erase (a, 1)⟩

/-- The cache with its buffers, and the allocator with the blocks held from it, the slabs' frames among them. -/
structure Shared where
  layer : State
  tenant : Tenant

/-- A call of the layer in which no frame is refused, writing by anyone else, or a call of the allocator by another
client, who gives back no frame of the layer. -/
inductive SharedStep (start : Allocator) (k : Machine) (c : SmallCache) : Shared → Shared → Prop
  | grow {w w' : World} {held : List Nat} {t t' : Tenant} (hrun : kmemCacheGrow k c.addr w = some ((), w'))
      (hserve : Served w.calls t w'.calls t') : SharedStep start k c ⟨⟨w, held⟩, t⟩ ⟨⟨w', held⟩, t'⟩
  | alloc {w w' : World} {held : List Nat} {t t' : Tenant} {b : Nat}
      (hrun : kmemCacheAlloc k c.addr w = some (b, w')) (hserve : Served w.calls t w'.calls t') :
      SharedStep start k c ⟨⟨w, held⟩, t⟩ ⟨⟨w', b :: held⟩, t'⟩
  | free {w w' : World} {held : List Nat} {t t' : Tenant} {b : Nat} (hb : b ∈ held) (hspares : Spares c w.mem b)
      (hrun : kmemCacheFree k c.addr b w = some ((), w')) (hserve : Served w.calls t w'.calls t') :
      SharedStep start k c ⟨⟨w, held⟩, t⟩ ⟨⟨w', held.erase b⟩, t'⟩
  | client {w : World} {held : List Nat} {t : Tenant} {m' : Mem} (h : OnlyIn (Foreign k c ⟨w, held⟩) w.mem m') :
      SharedStep start k c ⟨⟨w, held⟩, t⟩ ⟨⟨⟨m', w.calls⟩, held⟩, t⟩
  | other {l : State} {t t' : Tenant} (h : MixedStep start t t')
      (hkeep : ∀ f, Owned l.world.calls f → (f, 1) ∈ t'.held) : SharedStep start k c ⟨l, t⟩ ⟨l, t'⟩

/-- The invariant: both sides keep theirs, and the slabs' frames are held from the allocator. -/
structure Together (start : Allocator) (k : Machine) (c : SmallCache) (s : Shared) : Prop where
  sound : Sound k c s.layer
  frames : Apportioned start s.tenant
  owned : ∀ f, Owned s.layer.world.calls f → (f, 1) ∈ s.tenant.held

section Log
variable {k : Machine} {c : SmallCache} {w w' : World} {held : List Nat} {b : Nat}

theorem Served.asked {calls calls' : List FrameCall} {t t' : Tenant} {a : Nat} (h : Served calls t calls' t')
    (hlog : (.alloc a 1 :: calls) <:+ calls') : calls' = .alloc a 1 :: calls ∧
      ∃ s, Frames.kallocFrame t.alloc = some (a, s) ∧ a ≠ 0 ∧ t' = ⟨s, insert (a, 1) t.held⟩ := by
  cases h with
  | quiet => exact (Nat.not_succ_le_self _ hlog.length_le).elim
  | alloc he hne =>
    cases hlog.eq_of_length rfl
    exact ⟨rfl, _, he, hne, rfl⟩
  | free => cases hlog.eq_of_length rfl

theorem Served.unasked {calls : List FrameCall} {t t' : Tenant} (h : Served calls t calls t') : t' = t := by
  cases h
  rfl

theorem Served.freed {calls : List FrameCall} {t t' : Tenant} {a : Nat} (h : Served calls t (.free a 1 :: calls) t') :
    t' = ⟨{ t.alloc with pfa := Frames.kfreeFrame t.alloc.pfa a }, t.held.erase (a, 1)⟩ := by
  cases h
  rfl

theorem Sound.grow_asks (h : Sound k c ⟨w, held⟩) (hrun : kmemCacheGrow k c.addr w = some ((), w')) :
    (.alloc (k.kalloc w.calls.length) 1 :: w.calls) <:+ w'.calls := by
  obtain ⟨full, part, free, hshape, -⟩ := h
  have hsmall : c.size ≤ smallObjSize := c.size_le
  rw [kmemCacheGrow, bind_run (read_eq c.addr_ne hshape.size), ite_run, if_pos hsmall] at hrun
  exact suffix_bind (fun slab w₁ h₁ => growSmall_suffix h₁) (fun slab => extends_appendSlab ..) hrun

/-- An allocation with `fl_ptr` at the tail asks for a frame. -/
theorem Sound.alloc_asks (h : Sound k c ⟨w, held⟩) (hfl : flPtrOf c w.mem = tailOf c w.mem)
    (hrun : kmemCacheAlloc k c.addr w = some (b, w')) :
    (.alloc (k.kalloc w.calls.length) 1 :: w.calls) <:+ w'.calls := by
  refine suffix_bind (fun u w₁ h₁ => ?_) (fun _ => ?_) hrun
  · rw [growIfNone, bind_run (read_eq c.addr_ne hfl), bind_run (read_run c.addr_ne), ite_run,
      if_pos (.inr rfl)] at h₁
    exact h.grow_asks h₁
  · refine Extends.bind ?_ fun _ => extends_takeBuffer _
    exact (extends_read ..).bind fun _ => (extends_readInt ..).bind fun _ => (extends_readInt ..).bind fun _ =>
      (extends_kmemCacheGrow _).ite (extends_pure ())

/-- No other allocation does. -/
theorem Sound.alloc_calls (h : Sound k c ⟨w, held⟩) (hf : flPtrOf c w.mem = tailOf c w.mem → k.Fresh c w)
    (hrun : kmemCacheAlloc k c.addr w = some (b, w')) : w'.calls =
      if flPtrOf c w.mem = tailOf c w.mem then .alloc (k.kalloc w.calls.length) 1 :: w.calls else w.calls := by
  obtain ⟨full, part, free, hshape, hown⟩ := h
  have hempty : flPtrOf c w.mem = tailOf c w.mem ↔ part = [] := by
    rw [flPtrOf, tailOf, hshape.flPtr, hshape.tail]
    cases part with
    | nil => exact iff_of_true rfl rfl
    | cons p rest =>
      have hpage := (hshape.pages p (by simp)).apart
      refine iff_of_false (fun he => ?_) (List.cons_ne_nil p rest)
      have hhead : p + 4048 = c.addr + 120 := he
      omega
  obtain ⟨m', b', full', part', free', new, hrun', hnew, -⟩ := kmemCacheAlloc_spec (k := k) w.calls hshape fun hp =>
    ⟨hf (hempty.mpr hp), fun hmem => fresh_page_new hown (hf (hempty.mpr hp)) (List.mem_append_left part hmem)⟩
  cases hrun.symm.trans hrun'
  simp only [hempty, hnew]
  split
  · rfl
  · rfl

theorem Sound.free_calls (h : Sound k c ⟨w, held⟩) (hb : b ∈ held) (hspares : Spares c w.mem b)
    (hrun : kmemCacheFree k c.addr b w = some ((), w')) :
    w'.calls = w.calls ∨ w'.calls = .free (k.virtToPhys (pageOf b)) 1 :: w.calls := by
  obtain ⟨full, part, free, hshape, -⟩ := h
  obtain ⟨m', full', part', free', gone, hrun', hgone, -⟩ :=
    kmemCacheFree_spec (k := k) w.calls hshape hb rfl hspares
  cases hrun.symm.trans hrun'
  rw [hgone]
  split
  · exact .inr rfl
  · exact .inl rfl

end Log

section Together
variable {start : Allocator} {k : Machine} {c : SmallCache} {s s' : Shared}

/-- A frame that the allocator returns is fresh for the layer. -/
theorem Together.fresh (h : Together start k c s) (hprep : start.pfa.Prepared)
    (hroom : k.offset + start.pfa.npages * pageSize ≤ c.addr) {a : Allocator}
    (he : Frames.kallocFrame s.tenant.alloc = some (k.kalloc s.layer.world.calls.length, a))
    (hne : k.kalloc s.layer.world.calls.length ≠ 0) : k.Fresh c s.layer.world := by
  obtain ⟨f, a', he', -, hret⟩ := h.frames.sound.kallocFrame hprep
  cases he.symm.trans he'
  obtain ⟨⟨j, hj, -, hlt, -⟩, hnot⟩ := hret hne
  have hmul : j * pageSize + pageSize ≤ start.pfa.npages * pageSize := by
    rw [← Nat.succ_mul]
    exact Nat.mul_le_mul_right _ hlt
  have hend := c.addr_le
  have hpage : pageSize = 4096 := rfl
  refine ⟨?_, hne, ?_, fun hown => hnot (Tenant.block_subset (h.owned _ hown) ?_), .inl ?_⟩
  · rw [hj, hpage]
    exact Nat.mul_mod_left _ _
  · omega
  · rw [Frames.blockFrames_one, Finset.mem_singleton]
  · omega

/-- A frame for a slab is one more block. -/
theorem Together.take (h : Together start k c s) (hprep : start.pfa.Prepared) {w' : World} {held' : List Nat}
    {t' : Tenant} (hsound : Sound k c ⟨w', held'⟩)
    (hserve : Served s.layer.world.calls s.tenant w'.calls t') {a : Nat}
    (hlog : (.alloc a 1 :: s.layer.world.calls) <:+ w'.calls) : Together start k c ⟨⟨w', held'⟩, t'⟩ := by
  obtain ⟨hcalls, A, he, hne, rfl⟩ := hserve.asked hlog
  have hstep : MixedStep start s.tenant _ := .alloc he
  rw [if_neg hne] at hstep
  refine ⟨hsound, h.frames.step hprep hstep, fun f hf => ?_⟩
  rw [hcalls] at hf
  rcases owned_alloc.mp hf with rfl | hf
  · exact Finset.mem_insert_self _ _
  · exact Finset.mem_insert_of_mem (h.owned f hf)

/-- Every step keeps the invariant, and is one of the cache alone. -/
theorem Together.step (h : Together start k c s) (hprep : start.pfa.Prepared)
    (hroom : k.offset + start.pfa.npages * pageSize ≤ c.addr) (hstep : SharedStep start k c s s') :
    Together start k c s' ∧ Relation.ReflGen (Step k c (Spares c)) s.layer s'.layer := by
  cases hstep with
  | @grow w w' held t t' hrun hserve =>
    have hlog := h.sound.grow_asks hrun
    obtain ⟨-, A, he, hne, -⟩ := hserve.asked hlog
    have hcall : Step k c (Spares c) ⟨w, held⟩ _ := .grow (h.fresh hprep hroom he hne) hrun
    exact ⟨h.take hprep (hcall.sound (fun _ _ hm => hm) h.sound) hserve hlog, .single hcall⟩
  | @alloc w w' held t t' b hrun hserve =>
    by_cases hfl : flPtrOf c w.mem = tailOf c w.mem
    · have hlog := h.sound.alloc_asks hfl hrun
      obtain ⟨-, A, he, hne, -⟩ := hserve.asked hlog
      have hcall : Step k c (Spares c) ⟨w, held⟩ _ := .alloc (fun _ => h.fresh hprep hroom he hne) hrun
      exact ⟨h.take hprep (hcall.sound (fun _ _ hm => hm) h.sound) hserve hlog, .single hcall⟩
    · have hcalls := h.sound.alloc_calls (fun hf => (hfl hf).elim) hrun
      rw [if_neg hfl] at hcalls
      have hcall : Step k c (Spares c) ⟨w, held⟩ _ := .alloc (fun hf => (hfl hf).elim) hrun
      rw [hcalls] at hserve
      obtain rfl := hserve.unasked
      refine ⟨⟨hcall.sound (fun _ _ hm => hm) h.sound, h.frames, fun f hf => h.owned f ?_⟩, .single hcall⟩
      exact hcalls ▸ hf
  | @free w w' held t t' b hb hspares hrun hserve =>
    have hcall : Step k c (Spares c) ⟨w, held⟩ _ := .free hb hspares hrun
    have hsound := hcall.sound (fun _ _ hm => hm) h.sound
    refine ⟨?_, .single hcall⟩
    rcases h.sound.free_calls hb hspares hrun with hcalls | hcalls
    · rw [hcalls] at hserve
      obtain rfl := hserve.unasked
      exact ⟨hsound, h.frames, fun f hf => h.owned f (hcalls ▸ hf)⟩
    · rw [hcalls] at hserve
      obtain rfl := hserve.freed
      have hframe := h.owned _ (h.sound.held_owned hb)
      refine ⟨hsound, h.frames.step hprep (.free hframe), fun f hf => ?_⟩
      have hf' : Owned (.free (k.virtToPhys (pageOf b)) 1 :: w.calls) f := hcalls ▸ hf
      obtain ⟨hne, hf⟩ := owned_free.mp hf'
      refine Finset.mem_erase.mpr ⟨fun he => hne (congrArg Prod.fst he), h.owned f hf⟩
  | @client w held t m' hm =>
    have hcall : Step k c (Spares c) ⟨w, held⟩ _ := .client hm
    exact ⟨⟨hcall.sound (fun _ _ hm => hm) h.sound, h.frames, h.owned⟩, .single hcall⟩
  | other hmixed hkeep => exact ⟨⟨h.sound, h.frames.step hprep hmixed, hkeep⟩, .refl⟩

/-- A run of the cache beside others. -/
abbrev SharedRun (start : Allocator) (k : Machine) (c : SmallCache) := Relation.ReflTransGen (SharedStep start k c)

/-- A run beside others is one of the cache, and keeps the invariant. -/
theorem Together.run (h : Together start k c s) (hprep : start.pfa.Prepared)
    (hroom : k.offset + start.pfa.npages * pageSize ≤ c.addr) (hr : SharedRun start k c s s') :
    Together start k c s' ∧ Reach k c (Spares c) s.layer s'.layer := by
  induction hr with
  | refl => exact ⟨h, .refl⟩
  | tail _ hstep ih =>
    obtain ⟨hinv, hreach⟩ := ih
    obtain ⟨hinv', hcall⟩ := hinv.step hprep hroom hstep
    exact ⟨hinv', hreach.trans hcall.to_reflTransGen⟩

/-- A held buffer is in a slab whose frame is a block of the allocator, free at the start. -/
theorem Together.frame (h : Together start k c s) (hroom : k.offset + start.pfa.npages * pageSize ≤ c.addr) {x : Nat}
    (hx : x ∈ s.layer.held) : ∃ j, pageOf x = j * pageSize + k.offset ∧ (j * pageSize, 1) ∈ s.tenant.held ∧
      j < start.pfa.npages ∧ bit start.pfa.bitmap j = false := by
  have hown := h.owned _ (h.sound.held_owned hx)
  obtain ⟨j, hj, -, hlt, hclear⟩ := h.frames.block hown
  dsimp only at hj hlt hclear
  refine ⟨j, ?_, hj ▸ hown, hlt, hclear j le_rfl (Nat.lt_succ_self j)⟩
  obtain ⟨full, part, free, hshape, -⟩ := h.sound
  have hbound : pageOf x + 4096 ≤ 2 ^ 64 := (hshape.pages _ (hshape.held_pages x hx)).bound
  have hmul : j * pageSize + pageSize ≤ start.pfa.npages * pageSize := by
    rw [← Nat.succ_mul]
    exact Nat.mul_le_mul_right _ hlt
  have hend := c.addr_le
  have hvirt := physToVirt_virtToPhys k (show pageOf x < 2 ^ 64 by omega)
  rw [hj, Machine.physToVirt, Nat.mod_eq_of_lt (by omega)] at hvirt
  exact hvirt.symm

/-- An allocation succeeds if the frame it may need is there. -/
theorem Together.alloc (h : Together start k c s) (hprep : start.pfa.Prepared)
    (hroom : k.offset + start.pfa.npages * pageSize ≤ c.addr)
    (hframe : flPtrOf c s.layer.world.mem = tailOf c s.layer.world.mem → ∃ a,
      Frames.kallocFrame s.tenant.alloc = some (k.kalloc s.layer.world.calls.length, a) ∧
      k.kalloc s.layer.world.calls.length ≠ 0) :
    ∃ x w' t', kmemCacheAlloc k c.addr s.layer.world = some (x, w') ∧ x ∉ s.layer.held ∧
      SharedStep start k c s ⟨⟨w', x :: s.layer.held⟩, t'⟩ := by
  have hfresh : flPtrOf c s.layer.world.mem = tailOf c s.layer.world.mem → k.Fresh c s.layer.world := by
    intro hfl
    obtain ⟨a, he, hne⟩ := hframe hfl
    exact h.fresh hprep hroom he hne
  obtain ⟨x, w', hrun, hx, -⟩ := h.sound.alloc hfresh
  have hcalls := h.sound.alloc_calls hfresh hrun
  have hserve : ∃ t', Served s.layer.world.calls s.tenant w'.calls t' := by
    rw [hcalls]
    split
    · next hfl =>
      obtain ⟨a, he, hne⟩ := hframe hfl
      exact ⟨_, .alloc he hne⟩
    · exact ⟨_, .quiet⟩
  obtain ⟨t', hserve⟩ := hserve
  exact ⟨x, w', t', hrun, hx, .alloc hrun hserve⟩

end Together

/-- From `pfa_init` on. In every run of a cache whose calls are not refused a frame and whose frees spare the slab
`fl_ptr` is at, beside any other clients of the frame allocator: held buffers are disjoint, each lies below the header
of a slab in a frame of usable memory that is apart from the bitmap and from every other client's block, and the next
allocation succeeds unless it needs a frame and gets none. -/
theorem boot_cache_run_safe {mmap : List MemmapEntry} {words : Row 32} {b : Boot} (hm : LowMap mmap)
    (hb : pfaInit mmap words = some b) {k : Machine} {c : SmallCache}
    (hroom : k.offset + b.pfa.npages * pageSize ≤ c.addr) {t₀ : Tenant} (ht : MixedRun (bootAllocator b) t₀)
    {s₀ : State} (hstart : Start c s₀) (hnone : s₀.world.calls = []) {s : Shared}
    (hr : SharedRun (bootAllocator b) k c ⟨s₀, t₀⟩ s) :
    s.layer.held.Pairwise (Apart c) ∧ (s.tenant.held : Set (Nat × Nat)).Pairwise BlocksApart ∧
    (∀ x ∈ s.layer.held, ∃ j, pageOf x = j * pageSize + k.offset ∧ pageOf x ≤ x ∧ x + c.size ≤ pageOf x + 4048 ∧
      (j * pageSize, 1) ∈ s.tenant.held ∧ Spare mmap b.bmPaddr j) ∧
    ((flPtrOf c s.layer.world.mem = tailOf c s.layer.world.mem → ∃ a,
        Frames.kallocFrame s.tenant.alloc = some (k.kalloc s.layer.world.calls.length, a) ∧
        k.kalloc s.layer.world.calls.length ≠ 0) →
      ∃ x w' t', kmemCacheAlloc k c.addr s.layer.world = some (x, w') ∧ x ∉ s.layer.held ∧
        SharedStep (bootAllocator b) k c s ⟨⟨w', x :: s.layer.held⟩, t'⟩) := by
  have hprep := hm.prepared hb
  have h₀ : Together (bootAllocator b) k c ⟨s₀, t₀⟩ :=
    ⟨.start hstart, ht.apportioned hprep rfl, fun f hf => by rw [hnone] at hf; exact hf.elim⟩
  obtain ⟨h, hreach⟩ := h₀.run hprep hroom hr
  obtain ⟨-, hpool⟩ := Reach.pool (fun _ _ hm => hm) hstart hreach
  refine ⟨h.sound.held_nodup.pairwise_of_set_pairwise (Pool.run_pairwise hpool), h.frames.apart, fun x hx => ?_,
    h.alloc hprep hroom⟩
  obtain ⟨j, hpage, hblock, hlt, hclear⟩ := h.frame hroom hx
  obtain ⟨hlo, hhi⟩ := h.sound.below_header hx
  have hwords := b.pfa.wordCount_eq
  have hpages : j < b.pfa.npages := hlt
  exact ⟨j, hpage, hlo, hhi, hblock, hm.spare hb (by omega) hclear⟩

/-- The direct map of the kernel, over an allocator that returns one frame. -/
def firstMachine : Machine := { bootMachine with kalloc := fun _ => 257 * pageSize }

/-- The first object of `cache_cache` on a machine of one megabyte. -/
theorem boot_cache_run_safe_megabyte : ∃ (b : Boot) (s₀ : State) (s : Shared) (x j : Nat),
    pfaInit megabyteMap (fun _ => 0#32) = some b ∧ Start cache64 s₀ ∧
    SharedRun (bootAllocator b) firstMachine cache64 ⟨s₀, ⟨bootAllocator b, ∅⟩⟩ s ∧ s.layer.held = [x] ∧
    pageOf x = j * pageSize + firstMachine.offset ∧ (j * pageSize, 1) ∈ s.tenant.held ∧
    Spare megabyteMap b.bmPaddr j := by
  obtain ⟨b, a, hb, he⟩ := megabyteMap_first
  obtain ⟨s₀, hstart, -, hnone, -⟩ := boot_start cache64 (by decide)
  have hroom : firstMachine.offset + b.pfa.npages * pageSize ≤ cache64.addr := by
    have hlt := b.pfa.npages_lt
    have hoffset : firstMachine.offset = 0xffff800000000000 := rfl
    have haddr : cache64.addr = 0xffffffff80200000 := rfl
    rw [hoffset, haddr, show pageSize = 4096 from rfl]
    omega
  have hheld : s₀.held = [] := hstart.choose_spec.choose_spec.2
  obtain ⟨-, -, -, hnext⟩ := boot_cache_run_safe megabyteMap_low hb hroom .refl hstart hnone .refl
  obtain ⟨x, w', t', -, -, hstep⟩ := hnext fun _ => ⟨a, he, (by decide : 257 * pageSize ≠ 0)⟩
  have hr := Relation.ReflTransGen.single hstep
  obtain ⟨-, -, hframes, -⟩ := boot_cache_run_safe megabyteMap_low hb hroom .refl hstart hnone hr
  obtain ⟨j, hpage, -, -, hblock, hspare⟩ := hframes x (List.mem_cons_self ..)
  exact ⟨b, s₀, _, x, j, hb, hstart, hr, by rw [hheld], hpage, hblock, hspare⟩

end NyaOS.Slab
