import NyaOS.Paging.Map

/-! `map_page` inside a region that `map_page_2m` mapped. The page directory entry is present, so
`map_page` takes the 2 MiB page for a page table and stores into its first frame. -/
namespace NyaOS.Paging
open Library.RadixTree

/-- Frame `t` is one of the page tables. -/
def IsTable (s : Pager) (t : Nat) : Prop :=
  ∃ r, r.length ≤ 3 ∧ follow child s.mem s.pml4 r = some t

/-- Word `i` of frame `t` is an entry that the walk of `v` reads before its page table. -/
def OnWalk (s : Pager) (v t : Nat) (i : Fin 512) : Prop :=
  ∃ r, r ++ [i] <+: tablePath v ∧ follow child s.mem s.pml4 r = some t

/-- The translation that `map_page(p, v, flags)` asks for. -/
def requested (p v : Nat) (flags : BitVec 32) : Translation :=
  ⟨p + v % 4096, ((flags &&& 0xfff#32) ||| 3#32).toNat, true⟩

/-- Over the memory `m'`, `v` translates as requested and the other pages of its region as
before. -/
def Replaces (s : Pager) (m' : PhysMem) (p v : Nat) (flags : BitVec 32) : Prop :=
  walk m' s.pml4 v = some (requested p v flags) ∧
  ∀ u, Canonical u → u / 2 ^ 21 = v / 2 ^ 21 → u / 4096 ≠ v / 4096 →
    walk m' s.pml4 u = walk s.mem s.pml4 u

/-- What `map_page` should do inside the direct map: map the page, keep the other 511 of the
region, and store into page tables only. -/
def MapsInside (s s' : Pager) (p v : Nat) (flags : BitVec 32) : Prop :=
  s'.pml4 = s.pml4 ∧ Replaces s s'.mem p v flags ∧
  ∃ new, s'.stores = new ++ s.stores ∧ ∀ w ∈ new, IsTable s' w.1

section Large
variable {kalloc : Nat → Nat} {m n : Nat} {s : Pager} {v : Nat} {e : BitVec 64}

/-- A leaf in the page directory of `v`: the three entries its walk reads. -/
theorem entries_of_large (hv : leafAt s (dirPath v) (index 21 v) = some e) :
    ∃ pdpt pd, child (s.mem s.pml4 (index 39 v)) = some pdpt ∧
      child (s.mem pdpt (index 30 v)) = some pd ∧ s.mem pd (index 21 v) = e ∧
      present e = true ∧ large e = true := by
  rw [leafAt, Option.filter_eq_some_iff, entryAt, Option.map_eq_some_iff] at hv
  obtain ⟨⟨pd, hpd, he⟩, hleaf⟩ := hv
  rw [dirPath, follow, Option.bind_eq_some_iff] at hpd
  obtain ⟨pdpt, hpdpt, hpd⟩ := hpd
  rw [follow, Option.bind_eq_some_iff] at hpd
  obtain ⟨pd', hpd', heq⟩ := hpd
  cases heq
  rw [Bool.and_eq_true, Bool.or_eq_true] at hleaf
  exact ⟨pdpt, pd, hpdpt, hpd', he, hleaf.1, hleaf.2.resolve_left (by simp [dirPath])⟩

/-- The walk stops at a large page. -/
theorem walk_of_large {h : PhysMem} {root pdpt pd : Nat}
    (h₁ : child (h root (index 39 v)) = some pdpt) (h₂ : child (h pdpt (index 30 v)) = some pd)
    (h₃ : large (h pd (index 21 v)) = true) :
    walk h root v = leaf (h pd (index 21 v)) (2 ^ 21) v
      (writable (h root (index 39 v)) && writable (h pdpt (index 30 v))) := by
  rw [walk_eq_bind, h₁, Option.bind_some, if_neg, h₂, Option.bind_some, if_pos h₃]
  rw [(child_eq_some h₂).2.1]
  decide

/-- `map_page` there makes one store, into the first frame of the 2 MiB page. -/
theorem mapPage_of_large (hT : Tree kalloc m n s)
    (hv : leafAt s (dirPath v) (index 21 v) = some e) (p : Nat) (flags : BitVec 32) :
    mapPage kalloc s p v flags = s.store (e.toNat / 4096) (index 12 v) (pageEntry p flags) := by
  obtain ⟨pdpt, pd, h₁, h₂, h₃, hp, _⟩ := entries_of_large hv
  obtain ⟨h40₁, he₁⟩ := hT.link_of_child (r := []) (by decide) (entryAt_of_follow rfl _) h₁
  have ht₁ : follow child s.mem s.pml4 [index 39 v] = some pdpt := by simp [follow, h₁]
  obtain ⟨h40₂, he₂⟩ := hT.link_of_child (by simp) (entryAt_of_follow ht₁ _) h₂
  have hd₁ : descend kalloc s s.pml4 (index 39 v) = (s, pdpt) := by
    rw [descend_present (child_eq_some h₁).1, he₁, entryOf_toNat h40₁ (by decide)]
    congr 1
    omega
  have hd₂ : descend kalloc s pdpt (index 30 v) = (s, pd) := by
    rw [descend_present (child_eq_some h₂).1, he₂, entryOf_toNat h40₂ (by decide)]
    congr 1
    omega
  have hd₃ : descend kalloc s pd (index 21 v) = (s, e.toNat / 4096) := by
    rw [descend_present (by rw [h₃]; exact hp), h₃]
  simp only [mapPage, hd₁, hd₂, hd₃]

/-- A store to a word the walk of `v` does not read changes no translation of its region. -/
theorem walk_store_off (hv : leafAt s (dirPath v) (index 21 v) = some e) {t : Nat} {i : Fin 512}
    (hoff : ¬ OnWalk s v t i) (x : BitVec 64) {u : Nat} (hu : tablePath u = tablePath v) :
    walk (put s.mem t i x) s.pml4 u = walk s.mem s.pml4 u := by
  obtain ⟨pdpt, pd, h₁, h₂, h₃, _, hl⟩ := entries_of_large hv
  have ht₁ : follow child s.mem s.pml4 [index 39 v] = some pdpt := by simp [follow, h₁]
  have ht₂ : follow child s.mem s.pml4 (dirPath v) = some pd := by simp [dirPath, follow, h₁, h₂]
  have hkeep : ∀ r j t', r ++ [j] <+: tablePath v → follow child s.mem s.pml4 r = some t' →
      put s.mem t i x t' j = s.mem t' j := by
    intro r j t' hr ht'
    rw [put_apply, if_neg]
    rintro ⟨rfl, rfl⟩
    exact hoff ⟨r, hr, ht'⟩
  have hk₁ := hkeep [] (index 39 v) s.pml4 ⟨[index 30 v, index 21 v], rfl⟩ rfl
  have hk₂ := hkeep [index 39 v] (index 30 v) pdpt ⟨[index 21 v], rfl⟩ ht₁
  have hk₃ := hkeep (dirPath v) (index 21 v) pd (List.prefix_refl _) ht₂
  simp only [tablePath, List.cons.injEq, and_true] at hu
  obtain ⟨hu₁, hu₂, hu₃⟩ := hu
  rw [← hu₁] at h₁ hk₁
  rw [← hu₂] at h₂ hk₂
  rw [← hu₃] at h₃ hk₃
  rw [walk_of_large (by rw [hk₁]; exact h₁) (by rw [hk₂]; exact h₂) (by rw [hk₃, h₃]; exact hl),
    walk_of_large h₁ h₂ (by rw [h₃]; exact hl), hk₁, hk₂, hk₃]

/-- A store outside the page tables reaches no table. -/
theorem isTable_store {t t' : Nat} {i : Fin 512} {x : BitVec 64} (ht : ¬ IsTable s t)
    (h : IsTable (s.store t i x) t') : IsTable s t' := by
  obtain ⟨r, hr, hfollow⟩ := h
  rw [Pager.store_mem, Pager.store_pml4, follow_congr] at hfollow
  · exact ⟨r, hr, hfollow⟩
  · intro q j t'' hq hq'
    rw [put_apply, if_neg]
    rintro ⟨rfl, _⟩
    have hlen := hq.length_le
    rw [List.length_append, List.length_singleton] at hlen
    exact ht ⟨q, by omega, hq'⟩

theorem isTable_store_self (hu : Unshared child s.mem s.pml4 3) {t : Nat} (ht : IsTable s t)
    (i : Fin 512) (x : BitVec 64) : IsTable (s.store t i x) t := by
  obtain ⟨r, hr, hfollow⟩ := ht
  refine ⟨r, hr, ?_⟩
  rw [Pager.store_mem, Pager.store_pml4, follow_put_off hu hr hfollow (by omega), hfollow]
  intro hpre
  have := hpre.length_le
  rw [List.length_append, List.length_singleton] at this
  omega

end Large

/-- Inside a region mapped by `map_page_2m`, `map_page` works only if the first frame of the
2 MiB page is itself a page table, and then exactly when the request repeats the translation `v`
has, unless the word it overwrites belongs to the walk of `v`. -/
theorem mapPage_direct_iff (kalloc : Nat → Nat) (m n : Nat) (s : Pager) (hT : Tree kalloc m n s)
    (v q fl : Nat) (hv : Canonical v)
    (hmapped : leafAt s (dirPath v) (index 21 v) = some (largeEntry q fl)) (p : Nat)
    (flags : BitVec 32) :
    MapsInside s (mapPage kalloc s p v flags) p v flags ↔
      IsTable s ((largeEntry q fl).toNat / 4096) ∧
      (¬ OnWalk s v ((largeEntry q fl).toNat / 4096) (index 12 v) ∧
        walk s.mem s.pml4 v = some (requested p v flags) ∨
      OnWalk s v ((largeEntry q fl).toNat / 4096) (index 12 v) ∧
        Replaces s (put s.mem ((largeEntry q fl).toNat / 4096) (index 12 v) (pageEntry p flags))
          p v flags) := by
  have hregion : ∀ u, Canonical u → u / 2 ^ 21 = v / 2 ^ 21 → tablePath u = tablePath v := by
    intro u hu h
    exact (((tablePath_below_iff hu hv).mpr h).eq_of_length rfl).symm
  rw [mapPage_of_large hT hmapped]
  generalize (largeEntry q fl).toNat / 4096 = base
  constructor
  · rintro ⟨_, hrep, new, hnew, htables⟩
    have hself : IsTable (s.store base (index 12 v) (pageEntry p flags)) base := by
      have hone : [(base, index 12 v)] = new := List.append_cancel_right hnew
      exact htables (base, index 12 v) (by rw [← hone]; exact List.mem_singleton_self _)
    have hbase : IsTable s base := by
      by_contra hno
      exact hno (isTable_store hno hself)
    refine ⟨hbase, ?_⟩
    by_cases hon : OnWalk s v base (index 12 v)
    · exact .inr ⟨hon, hrep⟩
    · refine .inl ⟨hon, ?_⟩
      rw [← hrep.1]
      exact (walk_store_off hmapped hon _ rfl).symm
  · rintro ⟨hbase, hcase⟩
    refine ⟨rfl, ?_, [(base, index 12 v)], rfl, ?_⟩
    · rcases hcase with ⟨hoff, hsame⟩ | ⟨_, hrep⟩
      · constructor
        · rw [← hsame]
          exact walk_store_off hmapped hoff _ rfl
        · intro u hu hreg _
          exact walk_store_off hmapped hoff _ (hregion u hu hreg)
      · exact hrep
    · intro w hw
      rw [List.mem_singleton.mp hw]
      exact isTable_store_self hT.unshared hbase _ _

/-- An empty `pml4` with one region mapped by `map_page_2m`. -/
def regionPager (kalloc : Nat → Nat) (q v : Nat) : Pager := mapPage2m kalloc emptyPager q v 0

theorem regionPager_spec (kalloc : Nat → Nat) (q v : Nat) (hv : Canonical v)
    (hf : FreshFrames kalloc 0 (regionPager kalloc q v).next)
    (hroot : ∀ k, 0 ≤ k → k < (regionPager kalloc q v).next → kalloc k ≠ Frames.pageSize * 1) :
    Tree kalloc 0 (regionPager kalloc q v).next (regionPager kalloc q v) ∧
    leafAt (regionPager kalloc q v) (dirPath v) (index 21 v) = some (largeEntry q 0) := by
  obtain ⟨hT, _⟩ := Tree.init (s := emptyPager) hf (fun _ => rfl) hroot
  have hleaf := (mapPage2m_leaves hf hT hv le_rfl hv).1
  rw [if_pos rfl] at hleaf
  exact ⟨(mapPage2m_spec hf hT le_rfl).1, hleaf⟩

/-- Frames 512, 1024 and so on, so that the tables start 2 MiB pages. -/
def wideFrames (k : Nat) : Nat := 0x200000 * (k + 1)

theorem wideFrames_fresh : FreshFrames wideFrames 0 2 where
  aligned k _ _ := by
    unfold wideFrames Frames.pageSize
    omega
  lt k _ hk := by
    unfold wideFrames
    omega
  distinct j k _ _ _ _ h := by
    unfold wideFrames at h
    omega

/-- Repeating a mapping of the region whose first frame is the page directory pointer table. -/
theorem mapPage_direct_iff_repeat :
    MapsInside (regionPager wideFrames 0x200000 0xffff800000205000)
      (mapPage wideFrames (regionPager wideFrames 0x200000 0xffff800000205000) 0x205000
        0xffff800000205000 0x80#32) 0x205000 0xffff800000205000 0x80#32 := by
  have hnext : (regionPager wideFrames 0x200000 0xffff800000205000).next = 2 := by decide +kernel
  have hbase : (largeEntry 0x200000 0).toNat / 4096 = 512 := by decide
  obtain ⟨hT, hmapped⟩ := regionPager_spec wideFrames 0x200000 0xffff800000205000
    (.inr (by decide)) (by rw [hnext]; exact wideFrames_fresh) (by
      intro k _ _ h
      unfold wideFrames Frames.pageSize at h
      omega)
  refine (mapPage_direct_iff wideFrames 0 _ _ hT 0xffff800000205000 0x200000 0 (.inr (by decide))
    hmapped 0x205000 0x80#32).mpr ⟨?_, .inl ⟨?_, ?_⟩⟩
  · rw [hbase]
    exact ⟨[256], by decide, by decide +kernel⟩
  · rintro ⟨r, hr, _⟩
    have hmem := hr.subset (List.mem_append_right r (List.mem_singleton_self _))
    exact absurd hmem (by decide)
  · decide +kernel

/-- The call `ioapic_init` makes: the walk keeps the cacheable 2 MiB mapping, and the entry goes
to the first word of the I/O APIC's own registers. -/
theorem mapPage_ioapic_fails :
    let s := regionPager upwardFrames 0xfec00000 0xffff8000fec00000
    let s' := mapPage upwardFrames s 0xfec00000 0xffff8000fec00000 0b11000#32
    leafAt s (dirPath 0xffff8000fec00000) (index 21 0xffff8000fec00000) =
      some (largeEntry 0xfec00000 0) ∧
    s'.stores.head? = some (0xfec00, 0) ∧
    ¬ MapsInside s s' 0xfec00000 0xffff8000fec00000 0b11000#32 := by
  intro s s'
  have hnext : s.next = 2 := by decide +kernel
  have hmapped := (regionPager_spec upwardFrames 0xfec00000 0xffff8000fec00000 (.inr (by decide))
    (upwardFrames_fresh (by change s.next ≤ 2 ^ 32; rw [hnext]; decide)) (by
      intro k _ _ h
      unfold upwardFrames Frames.pageSize at h
      omega)).2
  refine ⟨hmapped, by decide +kernel, ?_⟩
  rintro ⟨_, ⟨hwalk, _⟩, _⟩
  have hkept : walk s'.mem s.pml4 0xffff8000fec00000 = some ⟨0xfec00000, 0x83, true⟩ := by
    decide +kernel
  rw [hkept] at hwalk
  exact absurd hwalk (by decide)

end NyaOS.Paging
