import NyaOS.Slab.LargeAlloc
import NyaOS.Slab.Run

/-! Runs of calls on a large-object cache. -/
namespace NyaOS.Slab
open Library.ByteMemory Library.LinkedList
open Frames (pageSize)

/-- A cache object whose sentinels point to each other, with `fl_ptr` at the tail. -/
structure Initialised (m : Mem) (cache size : Nat) : Prop where
  head : load m (cache + KmemCache.head) 8 = cache + KmemCache.hslab
  tail : load m (cache + KmemCache.tail) 8 = cache + KmemCache.tslab
  size : load m (cache + KmemCache.size) 8 = size
  flPtr : load m (cache + KmemCache.flPtr) 8 = cache + KmemCache.tslab
  next : nextOf m (cache + KmemCache.hslab) = cache + KmemCache.tslab
  prev : prevOf m (cache + KmemCache.tslab) = cache + KmemCache.hslab

/-- Bytes of held buffers, and bytes that are neither the cache's nor in a frame the layer has. -/
def LargeForeign (k : Machine) (c : LargeCache) (s : State) (x : Nat) : Prop :=
  (∃ b ∈ s.held, b ≤ x ∧ x < b + c.size) ∨ (¬ (c.addr ≤ x ∧ x < c.addr + 168) ∧
    ∀ f, Owned s.world.calls f → ¬ (k.physToVirt f ≤ x ∧ x < k.physToVirt f + 4096))

/-- One call, or writing by anyone else. Frames are fresh where they are taken; a free, where
`Frees` admits them, is of a held buffer. -/
inductive LargeStep (k : Machine) (c : LargeCache) (Frees : Prop) : State → State → Prop
  | grow {w w' : World} {held : List Nat} (hfresh : k.FreshLarge c w.calls)
      (hrun : kmemCacheGrow k c.addr w = some ((), w')) : LargeStep k c Frees ⟨w, held⟩ ⟨w', held⟩
  | alloc {w w' : World} {held : List Nat} {b : Nat}
      (hfresh : load w.mem (c.addr + KmemCache.flPtr) 8 = load w.mem (c.addr + KmemCache.tail) 8 →
        k.FreshLarge c w.calls)
      (hrun : kmemCacheAlloc k c.addr w = some (b, w')) :
      LargeStep k c Frees ⟨w, held⟩ ⟨w', b :: held⟩
  | free {w w' : World} {held : List Nat} {b : Nat} (hfrees : Frees) (hb : b ∈ held)
      (hrun : kmemCacheFree k c.addr b w = some ((), w')) :
      LargeStep k c Frees ⟨w, held⟩ ⟨w', held.erase b⟩
  | client {w : World} {held : List Nat} {m' : Mem}
      (h : OnlyIn (LargeForeign k c ⟨w, held⟩) w.mem m') :
      LargeStep k c Frees ⟨w, held⟩ ⟨⟨m', w.calls⟩, held⟩

abbrev LargeReach (k : Machine) (c : LargeCache) (Frees : Prop) :=
  Relation.ReflTransGen (LargeStep k c Frees)

/-- The invariant of a run: the shape, and all pages belong to the layer. -/
structure LargeInv (k : Machine) (c : LargeCache) (kept : List Nat) (full part : List LargeSlab)
    (s : State) : Prop where
  shape : LargeShape c s.world.mem kept s.held full part
  owned : ∀ p ∈ ctlPages kept (full ++ part) ++ bufPages c.size (full ++ part),
    Owned s.world.calls (k.virtToPhys p)

/-- The fields of the table in the cache object, and the kept pages. -/
def TableCells (c : LargeCache) (kept : List Nat) (x : Nat) : Prop :=
  (c.addr ≤ x ∧ x < c.addr + 24) ∨ ∃ p ∈ kept, p ≤ x ∧ x < p + 4096

def SameTable (c : LargeCache) (kept : List Nat) (m m' : Mem) : Prop :=
  ∀ x, TableCells c kept x → m' x = m x

/-- Only the first slab with free buffers is in use. -/
def FirstOnly (part : List LargeSlab) : Prop := ∀ s ∈ part.tail, s.taken = []

/-- Where the slabs after a call come from: they were there, or the call grew the cache. -/
structure Descends (k : Machine) (c : LargeCache) (w w' : World) (slabs slabs' : List LargeSlab) :
    Prop where
  log : w.calls <:+ w'.calls
  source : ∀ t ∈ slabs', (∃ u ∈ slabs, t.hdr = u.hdr ∧ t.start = u.start) ∨
    (k.FreshLarge c w.calls ∧ w'.calls = k.growCalls c.size w.calls ∧
      t.hdr = (k.newSlab c.size w.calls).hdr ∧ t.start = (k.newSlab c.size w.calls).start)
  ended : (∀ t ∈ slabs, Ended w.mem t) → ∀ t ∈ slabs', Ended w'.mem t

theorem growCalls_suffix (k : Machine) (size : Nat) (calls : List FrameCall) :
    calls <:+ k.growCalls size calls :=
  ⟨[.alloc (k.kalloc (calls.length + 1)) 1, .alloc (k.kalloc calls.length) (largeFrames size)], rfl⟩

section Pages
variable {k : Machine} {c : LargeCache} {kept : List Nat} {slabs : List LargeSlab}
  {calls : List FrameCall}

theorem pages_snoc (size : Nat) (kept : List Nat) (slabs : List LargeSlab) (s : LargeSlab) :
    (ctlPages kept (slabs ++ [s]) ++ bufPages size (slabs ++ [s])).Perm
      ((s.hdr :: s.bufPages size) ++ (ctlPages kept slabs ++ bufPages size slabs)) := by
  unfold ctlPages bufPages
  rw [List.map_append, List.flatMap_append, List.flatMap_singleton, List.map_singleton,
    List.perm_iff_count]
  intro a
  simp only [List.count_append, List.count_cons, List.count_nil]
  omega

theorem owned_growCalls {f : Nat} : Owned (k.growCalls c.size calls) f ↔
    f = k.kalloc (calls.length + 1) ∨
      (∃ i < largeFrames c.size, f = k.kalloc calls.length + i * pageSize) ∨ Owned calls f := by
  rw [Machine.growCalls, owned_alloc]
  rfl

/-- The frame of each page of the new slab. -/
theorem newSlab_frame (hf : k.FreshLarge c calls) {p : Nat}
    (hp : p ∈ (k.newSlab c.size calls).hdr :: (k.newSlab c.size calls).bufPages c.size) :
    LargePageOk c p ∧ ¬ Owned calls (k.virtToPhys p) ∧
      Owned (k.growCalls c.size calls) (k.virtToPhys p) := by
  rcases List.mem_cons.mp hp with rfl | hp
  · have hmapped := hf.header.mapped
    have hpage := hf.header.page Nat.zero_lt_one
    have hunused := hf.header.unused 0 Nat.zero_lt_one
    rw [Nat.zero_mul, Nat.add_zero] at hpage hunused
    rw [show k.virtToPhys (k.newSlab c.size calls).hdr = _ from virtToPhys_frame k (by omega)]
    exact ⟨hpage, fun h => hunused (.inr h), owned_growCalls.mpr (.inl rfl)⟩
  · obtain ⟨i, hi, rfl⟩ := List.mem_map.mp hp
    rw [List.mem_range] at hi
    have hmapped := hf.buffers.mapped
    have hmul := Nat.mul_le_mul_right 4096 hi
    rw [Nat.succ_mul] at hmul
    have hvirt : k.virtToPhys ((k.newSlab c.size calls).start + i * 4096) =
        k.kalloc calls.length + i * pageSize := by
      rw [Machine.newSlab, Nat.add_right_comm]
      exact virtToPhys_frame k (show k.kalloc calls.length + i * 4096 + k.offset < 2 ^ 64 by omega)
    rw [hvirt]
    exact ⟨hf.buffers.page hi, hf.buffers.unused i hi, owned_growCalls.mpr (.inr (.inl ⟨i, hi, rfl⟩))⟩

theorem newSlab_nodup (hf : k.FreshLarge c calls) :
    ((k.newSlab c.size calls).hdr :: (k.newSlab c.size calls).bufPages c.size).Nodup := by
  refine List.nodup_cons.mpr ⟨fun hmem => ?_, ?_⟩
  · obtain ⟨i, hi, he⟩ := List.mem_map.mp hmem
    have hunused := hf.header.unused 0 Nat.zero_lt_one
    have he' : k.kalloc calls.length + k.offset + i * pageSize =
      k.kalloc (calls.length + 1) + k.offset := he
    exact hunused (.inl ⟨i, List.mem_range.mp hi, by omega⟩)
  · apply List.Nodup.map_on _ List.nodup_range
    intro i _ j _ h
    omega

variable (hnd : (ctlPages kept slabs ++ bufPages c.size slabs).Nodup)
  (hok : ∀ p ∈ ctlPages kept slabs ++ bufPages c.size slabs, LargePageOk c p)
  (hown : ∀ p ∈ ctlPages kept slabs ++ bufPages c.size slabs, Owned calls (k.virtToPhys p))
  (hf : k.FreshLarge c calls)
include hnd hok hown hf

/-- The pages of the cache with a new slab. -/
theorem pages_grown : (ctlPages kept (slabs ++ [k.newSlab c.size calls]) ++
      bufPages c.size (slabs ++ [k.newSlab c.size calls])).Nodup ∧
    ∀ p ∈ ctlPages kept (slabs ++ [k.newSlab c.size calls]) ++
      bufPages c.size (slabs ++ [k.newSlab c.size calls]),
      LargePageOk c p ∧ Owned (k.growCalls c.size calls) (k.virtToPhys p) := by
  have hperm := pages_snoc c.size kept slabs (k.newSlab c.size calls)
  constructor
  · rw [hperm.nodup_iff, List.nodup_append]
    refine ⟨newSlab_nodup hf, hnd, ?_⟩
    rintro p hp _ hq rfl
    exact (newSlab_frame hf hp).2.1 (hown p hq)
  · intro p hp
    rcases List.mem_append.mp (hperm.mem_iff.mp hp) with hp | hp
    · have := newSlab_frame hf hp
      exact ⟨this.1, this.2.2⟩
    · exact ⟨hok p hp, owned_growCalls.mpr (.inr (.inr (hown p hp)))⟩

end Pages

section Inv
variable {k : Machine} {c : LargeCache} {kept held : List Nat} {full part : List LargeSlab} {w : World}

/-- What the layer writes is not the table's. -/
theorem LargeShape.not_table {m : Mem} (h : LargeShape c m kept held full part) {x : Nat}
    (hx : LargeCells c (full ++ part) x) : ¬ TableCells c kept x := by
  have hpage : ∀ p ∈ ctlPages kept (full ++ part), LargePageOk c p :=
    fun p hp => h.pages p (List.mem_append_left _ hp)
  rintro (ht | ⟨p, hp, ht⟩)
  · rcases hx with hx | ⟨s, hs, hx⟩
    · omega
    · have := (h.hdr_page hs).apart
      omega
  · have hpok := hpage p (List.mem_append_left _ hp)
    have hapart := hpok.apart
    rcases hx with hx | ⟨s, hs, hx⟩
    · omega
    · have hpa := hpok.aligned
      have hsa := (h.hdr_page hs).aligned
      have hps : p = s.hdr := by omega
      exact List.disjoint_of_nodup_append h.nodup.of_append_left hp (hps ▸ List.mem_map_of_mem hs)

theorem LargeInv.client (h : LargeInv k c kept full part ⟨w, held⟩) {m' : Mem}
    (hm : OnlyIn (LargeForeign k c ⟨w, held⟩) w.mem m') :
    LargeInv k c kept full part ⟨⟨m', w.calls⟩, held⟩ ∧ SameTable c kept w.mem m' ∧
      ((∀ t ∈ full ++ part, Ended w.mem t) → ∀ t ∈ full ++ part, Ended m' t) := by
  -- neither the cache object nor a page with the layer's data is foreign
  have hforeign : ∀ x, (c.addr ≤ x ∧ x < c.addr + 168) ∨
      (∃ p ∈ ctlPages kept (full ++ part), p ≤ x ∧ x < p + 4096) → ¬ LargeForeign k c ⟨w, held⟩ x := by
    rintro x hx (⟨b, hb, hin⟩ | ⟨hcache, hframes⟩)
    · obtain ⟨hno, hnop⟩ := h.shape.held_apart hb hin
      rcases hx with hx | ⟨p, hp, hx⟩
      · exact hno hx
      · exact hnop p hp hx
    · rcases hx with hx | ⟨p, hp, hx⟩
      · exact hcache hx
      · have hbound := (h.shape.pages p (List.mem_append_left _ hp)).bound
        have := hframes _ (h.owned p (List.mem_append_left _ hp))
        rw [physToVirt_virtToPhys k (by omega)] at this
        exact this hx
  have hcells : ∀ x, LargeCells c (full ++ part) x → m' x = w.mem x := by
    intro x hx
    refine hm x (hforeign x ?_)
    rcases hx with hx | ⟨s, hs, hx⟩
    · exact .inl (by omega)
    · exact .inr ⟨s.hdr, List.mem_append_right _ (List.mem_map_of_mem hs), hx⟩
  refine ⟨⟨h.shape.congr hcells, h.owned⟩, fun x hx => hm x (hforeign x ?_), fun hended t ht => ?_⟩
  · rcases hx with hx | ⟨p, hp, hx⟩
    · exact .inl (by omega)
    · exact .inr ⟨p, List.mem_append_left _ hp, hx⟩
  · exact (h.shape.slabs t ht).ended_congr c.size_gt (hended t ht)
      fun x _ _ => hcells x (.inr ⟨t, ht, by omega⟩)

theorem LargeInv.grow (h : LargeInv k c kept full part ⟨w, held⟩) (hf : k.FreshLarge c w.calls) :
    ∃ w', kmemCacheGrow k c.addr w = some ((), w') ∧ w'.calls = k.growCalls c.size w.calls ∧
      SameTable c kept w.mem w'.mem ∧
      LargeInv k c kept full (part ++ [k.newSlab c.size w.calls]) ⟨w', held⟩ ∧
      ((∀ t ∈ full ++ part, Ended w.mem t) →
        ∀ t ∈ full ++ (part ++ [k.newSlab c.size w.calls]), Ended w'.mem t) := by
  obtain ⟨hnd, hpages⟩ := pages_grown h.shape.nodup h.shape.pages h.owned hf
  rw [List.append_assoc] at hnd hpages
  obtain ⟨m', hrun, honly, hshape, hends⟩ :=
    kmemCacheGrow_large h.shape hf hnd fun p hp => (hpages p hp).1
  exact ⟨_, hrun, rfl, fun x hx => honly x fun hc => hshape.not_table hc hx,
    ⟨hshape, fun p hp => (hpages p hp).2⟩, hends⟩

/-- Taking a buffer moves no slab. -/
private theorem mem_taken {s t : LargeSlab} {j : Nat} {js : List Nat} {rest : List LargeSlab}
    (ht : t ∈ full ++ s.take j js :: rest) :
    ∃ u ∈ full ++ s :: rest, t.hdr = u.hdr ∧ t.start = u.start := by
  simp only [List.mem_append, List.mem_cons] at ht ⊢
  rcases ht with ht | rfl | ht
  · exact ⟨t, .inl ht, rfl, rfl⟩
  · exact ⟨s, .inr (.inl rfl), rfl, rfl⟩
  · exact ⟨t, .inr (.inr ht), rfl, rfl⟩

/-- What a call may write for the slabs before it is also what it may write for those after. -/
private theorem cells_taken {s : LargeSlab} {j : Nat} {js : List Nat} {rest : List LargeSlab} {x : Nat}
    (hx : LargeCells c (full ++ s :: rest) x) : LargeCells c (full ++ s.take j js :: rest) x := by
  rcases hx with hx | ⟨t, ht, hx⟩
  · exact .inl hx
  · have hmem : t.hdr ∈ (full ++ s.take j js :: rest).map LargeSlab.hdr := by
      have := List.mem_map_of_mem (f := LargeSlab.hdr) ht
      rw [List.map_append, List.map_cons] at this ⊢
      exact this
    obtain ⟨t', ht', he⟩ := List.mem_map.mp hmem
    exact .inr ⟨t', ht', he ▸ hx⟩

theorem LargeInv.alloc (h : LargeInv k c kept full part ⟨w, held⟩)
    (hf : load w.mem (c.addr + KmemCache.flPtr) 8 = load w.mem (c.addr + KmemCache.tail) 8 →
      k.FreshLarge c w.calls) :
    ∃ b w' full' part', kmemCacheAlloc k c.addr w = some (b, w') ∧ SameTable c kept w.mem w'.mem ∧
      LargeInv k c kept full' part' ⟨w', b :: held⟩ ∧ (FirstOnly part → FirstOnly part') ∧
      Descends k c w w' (full ++ part) (full' ++ part') := by
  have hfresh : part = [] → k.FreshLarge c w.calls := by
    rintro rfl
    exact hf (h.shape.flPtr.trans h.shape.tail.symm)
  have hgrown : part = [] → _ := fun hnil =>
    pages_grown h.shape.nodup h.shape.pages h.owned (hfresh hnil)
  obtain ⟨m', s, rest, j, js, hrun, hlist, honly, hshape, hends⟩ := kmemCacheAlloc_large (k := k)
    w.calls h.shape (by
      intro hnil
      obtain ⟨hnd, hpages⟩ := hgrown hnil
      rw [hnil, List.append_nil] at hnd hpages
      exact ⟨hfresh hnil, hnd, fun p hp => (hpages p hp).1⟩)
  have hparts := full_append_part js full rest (s.take j js)
  obtain ⟨hctl, hbuf, -⟩ := pages_replace c kept full rest
    (show (s.take j js).hdr = s.hdr from rfl) rfl
  refine ⟨_, _, _, _, hrun, fun x hx => honly x fun hc => ?_, ⟨hshape, ?_⟩, ?_, ⟨?_, ?_, hparts.symm ▸ hends⟩⟩
  · refine hshape.not_table ?_ hx
    rw [hparts]
    exact cells_taken hc
  · rw [hparts, hctl, hbuf, ← hlist]
    split
    · next hnil =>
      have hpages := (hgrown hnil).2
      rw [hnil, List.append_nil] at hpages
      exact fun p hp => (hpages p hp).2
    · exact h.owned
  · intro hfirst
    have hrest : ∀ t ∈ rest, t.taken = [] := by
      split at hlist
      · obtain ⟨-, rfl⟩ := List.cons_eq_cons.mp hlist
        exact List.forall_mem_nil _
      · intro t ht
        exact hfirst t (hlist ▸ ht)
    split
    · exact fun t ht => hrest t (List.mem_of_mem_tail ht)
    · exact hrest
  · split
    · exact growCalls_suffix k c.size w.calls
    · exact List.suffix_refl _
  · intro t ht
    rw [hparts] at ht
    obtain ⟨u, hu, hhdr, hstart⟩ := mem_taken ht
    by_cases hnil : part = []
    · rw [if_pos hnil] at hlist
      rw [← hlist, List.mem_append, List.mem_singleton] at hu
      rcases hu with hu | rfl
      · exact .inl ⟨u, List.mem_append_left _ hu, hhdr, hstart⟩
      · exact .inr ⟨hfresh hnil, if_pos hnil, hhdr, hstart⟩
    · rw [if_neg hnil] at hlist
      exact .inl ⟨u, hlist ▸ hu, hhdr, hstart⟩

/-- Every step keeps the invariant and the table, given that no free gets through. -/
theorem LargeStep.inv {Frees : Prop} {s s' : State} (hstep : LargeStep k c Frees s s')
    (h : LargeInv k c kept full part s)
    (hfree : Frees → ∀ b, kmemCacheFree k c.addr b s.world = none) :
    ∃ full' part', LargeInv k c kept full' part' s' ∧ SameTable c kept s.world.mem s'.world.mem ∧
      (FirstOnly part → FirstOnly part') ∧
      Descends k c s.world s'.world (full ++ part) (full' ++ part') := by
  cases hstep with
  | grow hfresh hrun =>
    obtain ⟨w', hrun', hcalls, hsame, hinv, hends⟩ := h.grow hfresh
    rw [hrun] at hrun'
    cases hrun'
    refine ⟨_, _, hinv, hsame, fun hfirst t ht => ?_, 
      ⟨hcalls ▸ growCalls_suffix k c.size _, fun t ht => ?_, hends⟩⟩
    · cases part with
      | nil => cases ht
      | cons u part =>
        rcases List.mem_append.mp ht with ht | ht
        · exact hfirst t ht
        · rw [List.mem_singleton.mp ht]
          rfl
    · rw [← List.append_assoc, List.mem_append, List.mem_singleton] at ht
      rcases ht with ht | rfl
      · exact .inl ⟨t, ht, rfl, rfl⟩
      · exact .inr ⟨hfresh, hcalls, rfl, rfl⟩
  | alloc hfresh hrun =>
    obtain ⟨b, w', full', part', hrun', hsame, hinv, hfirst, hdesc⟩ := h.alloc hfresh
    rw [hrun] at hrun'
    cases hrun'
    exact ⟨full', part', hinv, hsame, hfirst, hdesc⟩
  | free hfrees hb hrun =>
    have := hfree hfrees
    rw [this] at hrun
    cases hrun
  | client hm =>
    obtain ⟨hinv, hsame, hends⟩ := h.client hm
    exact ⟨full, part, hinv, hsame, id, List.suffix_refl _, fun t ht => .inl ⟨t, ht, rfl, rfl⟩, hends⟩

end Inv

end NyaOS.Slab
