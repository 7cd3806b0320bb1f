import NyaOS.Frames.Mixed
import NyaOS.Paging.Init
import NyaOS.Paging.Unmap

/-! The boot sequence over one allocator: `pfa_init`, `paging_init`, and the pages that are mapped
afterwards. -/
namespace NyaOS.Paging
open Library.RadixTree Library.WordBits
open Frames (Allocator Boot LowMap MemmapEntry Sound Spare Taken bitmapSize bootAllocator pageSize pfaInit)

/-- `paging_init` and then `map_page` for each of the calls, with the frames of `kalloc_frame`. -/
def bootPager (b : Boot) (info : BootInfo) (mem : PhysMem) (calls : List Call) : Option Pager :=
  (pagingInit (frameOfCall (bootAllocator b)) info mem).map fun s =>
    mapPages (frameOfCall (bootAllocator b)) s calls

/-- Every table is in a frame that one of the calls so far returned. -/
def TablesFrom (kalloc : Nat → Nat) (s : Pager) : Prop :=
  ∀ p t, p.length ≤ 3 → follow child s.mem s.pml4 p = some t → ∃ k < s.next, t = kalloc k / pageSize

theorem next_le_mapPages (kalloc : Nat → Nat) (s : Pager) (calls : List Call) :
    s.next ≤ (mapPages kalloc s calls).next := by
  induction calls using List.reverseRecOn with
  | nil => exact le_rfl
  | append_singleton calls c ih =>
    rw [mapPages_snoc]
    exact ih.trans (next_le_mapPage kalloc _ _ _ _)

section Tables
variable {kalloc : Nat → Nat} {m n : Nat} {s : Pager}

theorem TablesFrom.mapPage (h : TablesFrom kalloc s) (hf : FreshFrames kalloc m n) (hT : Tree kalloc m n s)
    {p v : Nat} {flags : BitVec 32} (hsmall : leafAt s (dirPath v) (index 21 v) = none)
    (hn : (mapPage kalloc s p v flags).next ≤ n) : TablesFrom kalloc (mapPage kalloc s p v flags) := by
  obtain ⟨-, hgrows, -, -⟩ := mapPage_spec hf hT hsmall hn
  intro q t hq ht
  rcases hgrows.tables q hq with hsame | ⟨-, -, k, -, hk, hframe⟩
  · obtain ⟨k, hk, heq⟩ := h q t hq (hsame.symm.trans ht)
    exact ⟨k, hk.trans_le hgrows.next, heq⟩
  · exact ⟨k, hk, Option.some.inj (ht.symm.trans hframe)⟩

theorem TablesFrom.mapPage2m (h : TablesFrom kalloc s) (hf : FreshFrames kalloc m n) (hT : Tree kalloc m n s)
    {p v flags : Nat} (hn : (mapPage2m kalloc s p v flags).next ≤ n) :
    TablesFrom kalloc (mapPage2m kalloc s p v flags) := by
  intro q t hq ht
  rcases mapPage2m_tables hf hT hn hq ht with hsame | ⟨k, -, hk, heq⟩
  · obtain ⟨k, hk, heq⟩ := h q t hq hsame
    exact ⟨k, hk.trans_le (next_le_mapPage2m kalloc s p v flags), heq⟩
  · exact ⟨k, hk, heq⟩

/-- Pages mapped into a tree without large pages. -/
theorem TablesFrom.mapPages (h : TablesFrom kalloc s) (hzero : ∀ i, s.mem s.pml4 i = 0#64)
    (hf : FreshFrames kalloc s.next n) (hroot : ∀ k, s.next ≤ k → k < n → kalloc k ≠ pageSize * s.pml4)
    (calls : List Call) (hcalls : ∀ c ∈ calls, c.Valid) (hn : (mapPages kalloc s calls).next ≤ n) :
    TablesFrom kalloc (mapPages kalloc s calls) := by
  induction calls using List.reverseRecOn with
  | nil => exact h
  | append_singleton calls c ih =>
    rw [mapPages_snoc] at hn ⊢
    have hn' := (next_le_mapPage kalloc _ _ _ _).trans hn
    have hcalls' := fun d hd => hcalls d (List.mem_append_left _ hd)
    obtain ⟨hT, hdir, -⟩ := mapPages_leaves hzero hf hroot calls hcalls' hn'
    exact (ih hcalls' hn').mapPage hf hT (hdir _ _ rfl) hn

theorem TablesFrom.mapRegions (h : TablesFrom kalloc s) (hf : FreshFrames kalloc m n) (hT : Tree kalloc m n s)
    {offset : Nat} (hoff : offset % 2 ^ 21 = 0) (ps : List Nat)
    (hps : ∀ p ∈ ps, p % 2 ^ 21 = 0 ∧ p + offset < 2 ^ 64 ∧ Canonical (p + offset))
    (hn : (mapRegions kalloc offset s ps).next ≤ n) : TablesFrom kalloc (mapRegions kalloc offset s ps) := by
  induction ps using List.reverseRecOn with
  | nil => exact h
  | append_singleton ps p ih =>
    rw [mapRegions_snoc] at hn ⊢
    have hn' := (next_le_mapPage2m kalloc _ _ _ _).trans hn
    have hps' := fun q hq => hps q (List.mem_append_left _ hq)
    exact (ih hps' hn').mapPage2m hf (mapRegions_leaves hf hT hoff ps hps' hn').1 hn

theorem cleared_tables (kalloc : Nat → Nat) (mem : PhysMem) : TablesFrom kalloc (cleared kalloc mem) := by
  have hfields := zeroTable_fields ⟨mem, kalloc 0 / pageSize, 1, []⟩ (kalloc 0)
  intro p t _ ht
  cases p with
  | nil =>
    refine ⟨0, ?_, ?_⟩
    · rw [cleared, hfields.2]
      exact Nat.zero_lt_one
    · rw [← Option.some.inj ht, cleared, hfields.1]
  | cons i p =>
    rw [follow, cleared_zero] at ht
    cases ht

/-- The state `paging_init` leaves: a tree on frames that it took, without a page directory's leaf outside
the direct map. -/
theorem pagingInit_tables {b : BootInfo} (hb : b.Valid) {mem : PhysMem} (hf : FreshFrames kalloc 0 n)
    (hs : pagingInit kalloc b mem = some s) (hn : s.next ≤ n) :
    (∃ m, Tree kalloc m n s) ∧ TablesFrom kalloc s ∧ ∀ v, Canonical v →
      (∀ w, b.InDirect w → v / 2 ^ 21 ≠ w / 2 ^ 21) → leafAt s (dirPath v) (index 21 v) = none := by
  obtain ⟨pages, regions, hrun, hpages, hregions⟩ := pagingInit_runs hb kalloc mem
  obtain rfl := Option.some.inj (hs.symm.trans hrun)
  have hroot := cleared_apart hf mem
  have hf' := hf.mono (Nat.zero_le (cleared kalloc mem).next)
  have hnpages := (next_le_mapRegions kalloc b.offset _ regions).trans hn
  have hregions' : ∀ p ∈ regions, p % 2 ^ 21 = 0 ∧ p + b.offset < 2 ^ 64 ∧ Canonical (p + b.offset) := by
    intro p hp
    obtain ⟨ha, hlt, hin⟩ := hregions p hp
    exact ⟨ha, hlt, hb.direct_canonical _ hin⟩
  obtain ⟨hT, hdir, -⟩ := mapPages_leaves (cleared_zero kalloc mem) hf'
    (fun k hlo hhi => hroot k hlo (by omega)) _ hpages hnpages
  have htables := (cleared_tables kalloc mem).mapPages (cleared_zero kalloc mem) hf'
    (fun k hlo hhi => hroot k hlo (by omega)) _ hpages hnpages
  obtain ⟨hT', hleaves⟩ := mapRegions_leaves hf' hT hb.offset_aligned regions hregions' hn
  refine ⟨⟨_, hT'⟩, htables.mapRegions hf' hT hb.offset_aligned regions hregions' hn, fun v hv hoff => ?_⟩
  rw [((hleaves v hv).2 fun p hp => hoff _ (hregions p hp).2.2).1]
  exact hdir _ _ rfl

/-- Pages mapped outside the direct map get the translation of the last call, and every other address
keeps its own. -/
theorem mapPages_extend (hf : FreshFrames kalloc m n) (hT : Tree kalloc m n s) (htables : TablesFrom kalloc s)
    (calls : List Call) (hcalls : ∀ c ∈ calls, c.Valid)
    (hsmall : ∀ c ∈ calls, leafAt s (dirPath c.vaddr) (index 21 c.vaddr) = none)
    (hn : (mapPages kalloc s calls).next ≤ n) :
    Tree kalloc m n (mapPages kalloc s calls) ∧ TablesFrom kalloc (mapPages kalloc s calls) ∧
      (∀ q j, q.length = 2 → leafAt (mapPages kalloc s calls) q j = leafAt s q j) ∧
      ∀ u, Canonical u → leafAt (mapPages kalloc s calls) (tablePath u) (index 12 u) =
        ((lastCall calls u).map fun c => pageEntry c.paddr c.flags).or (leafAt s (tablePath u) (index 12 u)) := by
  induction calls using List.reverseRecOn with
  | nil => exact ⟨hT, htables, fun _ _ _ => rfl, fun _ _ => rfl⟩
  | append_singleton calls c ih =>
    rw [mapPages_snoc] at hn ⊢
    have hv := hcalls c (by simp)
    obtain ⟨hT₁, htables₁, hdir, htab⟩ := ih (fun d hd => hcalls d (List.mem_append_left _ hd))
      (fun d hd => hsmall d (List.mem_append_left _ hd)) ((next_le_mapPage kalloc _ _ _ _).trans hn)
    have hnone : leafAt (mapPages kalloc s calls) (dirPath c.vaddr) (index 21 c.vaddr) = none := by
      rw [hdir _ _ rfl, hsmall c (by simp)]
    obtain ⟨hT', -, -, hleaf⟩ := mapPage_spec hf hT₁ hnone hn
    refine ⟨hT', htables₁.mapPage hf hT₁ hnone hn, fun q j hq => ?_, fun u hu => ?_⟩
    · rw [hleaf q j (by omega), if_neg, hdir q j hq]
      rintro ⟨rfl, _⟩
      cases hq
    · rw [hleaf _ _ (by simp [tablePath]), lastCall_snoc, htab u hu]
      by_cases hsame : u / 4096 = c.vaddr / 4096
      · rw [if_pos ((tablePath_eq_iff hu hv.canonical).mpr hsame), if_pos hsame.symm]
        rfl
      · rw [if_neg fun h => hsame ((tablePath_eq_iff hu hv.canonical).mp h),
          if_neg fun h => hsame h.symm]

end Tables

/-- The walk after such calls. -/
theorem walk_extend {kalloc : Nat → Nat} {m n : Nat} {s : Pager} (hf : FreshFrames kalloc m n)
    (hT : Tree kalloc m n s) (htables : TablesFrom kalloc s) (calls : List Call) (hcalls : ∀ c ∈ calls, c.Valid)
    (hsmall : ∀ c ∈ calls, leafAt s (dirPath c.vaddr) (index 21 c.vaddr) = none)
    (hn : (mapPages kalloc s calls).next ≤ n) {u : Nat} (hu : Canonical u) :
    walk (mapPages kalloc s calls).mem (mapPages kalloc s calls).pml4 u =
      ((lastCall calls u).map fun c =>
        ⟨c.paddr + u % 4096, ((c.flags &&& 0xfff#32) ||| 3#32).toNat, true⟩).or (walk s.mem s.pml4 u) := by
  obtain ⟨hT', -, hdir, htab⟩ := mapPages_extend hf hT htables calls hcalls hsmall hn
  rw [hT'.walk_eq, hT.walk_eq, htab u hu, hdir _ _ rfl]
  cases hlast : lastCall calls u with
  | none => rfl
  | some c =>
    have hc := hcalls c (List.mem_reverse.mp (List.mem_of_find?_eq_some hlast))
    rw [Option.map_some, Option.some_or, Option.bind_some, leaf_pageEntry hc.aligned hc.lt c.flags u]
    rfl

/-- After `pfa_init`, `paging_init` and any `map_page` calls outside the direct map, all on frames of
`kalloc_frame`: each of the pages has the translation of the last call for it and every other address the one
that `paging_init` gave it; each table is in a frame of its own, which is marked as used and lies in usable
memory away from frame 0 and the bitmap. -/
theorem boot_address_space {info : BootInfo} (hinfo : info.Valid) (hm : LowMap info.mmap) {words : Row 32}
    {b : Boot} (hb : pfaInit info.mmap words = some b) (mem : PhysMem) (calls : List Call)
    (hcalls : ∀ c ∈ calls, c.Valid)
    (hoff : ∀ c ∈ calls, ∀ w, info.InDirect w → c.vaddr / 2 ^ 21 ≠ w / 2 ^ 21)
    (hsupply : ∀ s, bootPager b info mem calls = some s →
      ∀ j < s.next, frameOfCall (bootAllocator b) j ≠ 0) :
    ∃ s₀ s, pagingInit (frameOfCall (bootAllocator b)) info mem = some s₀ ∧
      bootPager b info mem calls = some s ∧
      (∀ u, Canonical u → walk s.mem s.pml4 u = ((lastCall calls u).map fun c =>
        ⟨c.paddr + u % 4096, ((c.flags &&& 0xfff#32) ||| 3#32).toNat, true⟩).or
          (walk s₀.mem s₀.pml4 u)) ∧
      (∀ p t, p.length ≤ 3 → follow child s.mem s.pml4 p = some t →
        Spare info.mmap b.bmPaddr t ∧ bit (callsFrom (bootAllocator b) s.next).pfa.bitmap t = true) ∧
      ∀ p q t, p.length ≤ 3 → q.length ≤ 3 → follow child s.mem s.pml4 p = some t →
        follow child s.mem s.pml4 q = some t → p = q := by
  obtain ⟨pages, regions, hrun, -, -⟩ := pagingInit_runs hinfo (frameOfCall (bootAllocator b)) mem
  generalize hs₀ : mapRegions _ _ _ regions = s₀ at hrun
  have hpager : bootPager b info mem calls =
      some (mapPages (frameOfCall (bootAllocator b)) s₀ calls) := by
    rw [bootPager, hrun]
    rfl
  generalize hs : mapPages (frameOfCall (bootAllocator b)) s₀ calls = s at hpager
  have hle : s₀.next ≤ s.next := hs ▸ next_le_mapPages _ s₀ calls
  have hprep : (bootAllocator b).pfa.Prepared := hm.prepared hb
  have hsound : Sound (bootAllocator b) ⟨bootAllocator b, ∅, ∅, false⟩ := .init rfl
  obtain ⟨hf, htaken⟩ := calls_fresh hprep hsound (hsupply s hpager)
  obtain ⟨⟨m, hT⟩, htables, hdir⟩ := pagingInit_tables hinfo hf hrun hle
  have hsmall : ∀ c ∈ calls, leafAt s₀ (dirPath c.vaddr) (index 21 c.vaddr) = none :=
    fun c hc => hdir _ (hcalls c hc).canonical (hoff c hc)
  have hf' := hf.mono (Nat.zero_le m)
  obtain ⟨hT', htables', -, -⟩ := mapPages_extend hf' hT htables calls hcalls hsmall (by rw [hs])
  refine ⟨s₀, s, hrun, hpager, fun u hu => ?_, fun p t hp ht => ?_, ?_⟩
  · rw [← hs]
    exact walk_extend hf' hT htables calls hcalls hsmall (by rw [hs]) hu
  · rw [hs] at htables'
    obtain ⟨j, hj, rfl⟩ := htables' p t hp ht
    obtain ⟨k, hk, -, hlt, hclear, hset⟩ := htaken j hj
    have hwords := b.pfa.wordCount_eq
    have hlt' : k < b.pfa.npages := hlt
    rw [hk, Nat.mul_div_cancel k (by decide)]
    exact ⟨hm.spare hb (by omega) hclear, hset⟩
  · rw [hs] at hT'
    exact hT'.unshared

/-- A machine of 64 usable frames. -/
def tinyBoot : BootInfo := { smallBoot with mmap := [⟨0, 0x40000, .usable⟩] }

theorem tinyBoot_low : LowMap tinyBoot.mmap where
  aligned e he _ := by
    rw [List.mem_singleton.mp he]
    decide
  low e he _ := by
    rw [List.mem_singleton.mp he]
    decide
  room := ⟨_, List.mem_singleton_self _, rfl, by decide +kernel⟩

theorem tinyBoot_valid : tinyBoot.Valid := by
  have htop : physTop tinyBoot.mmap = 0x200000 := by decide
  have hv := smallBoot_valid
  refine ⟨?_, hv.virtual_aligned, hv.virtual_le, hv.physical_aligned, hv.start_aligned, hv.offset_aligned,
    hv.kernel_no_wrap, hv.kernel_canonical, hv.kernel_physical, ?_, ?_, ?_⟩
  · intro e he
    rw [List.mem_singleton.mp he]
    decide
  · rw [htop]
    decide
  · rintro v ⟨hlo, hhi⟩
    rw [htop] at hhi
    simp only [tinyBoot, smallBoot] at hlo hhi
    exact .inr ⟨by omega, by omega⟩
  · rintro v w hvlo hvhi ⟨hlo, hhi⟩
    rw [htop] at hhi
    simp only [tinyBoot, smallBoot] at hvlo hvhi hlo hhi
    omega

/-- The page of the local APIC, as `apic_init` maps it. -/
def apicCall : Call := ⟨0xfee00000, 0xfee00000, 0b11000⟩

theorem boot_address_space_apic : ∃ b s,
    pfaInit tinyBoot.mmap (fun _ => 0#32) = some b ∧
    bootPager b tinyBoot (fun _ _ => 0#64) [apicCall] = some s ∧
    walk s.mem s.pml4 0xfee000b0 = some ⟨0xfee000b0, 0x1b, true⟩ := by
  obtain ⟨b, hb⟩ : ∃ b, pfaInit tinyBoot.mmap (fun _ => 0#32) = some b :=
    Option.isSome_iff_exists.mp (by decide +kernel)
  have hnext : ((pfaInit tinyBoot.mmap fun _ => 0#32).bind fun b =>
      (bootPager b tinyBoot (fun _ _ => 0#64) [apicCall]).map Pager.next) = some 9 := by
    decide +kernel
  have hframes : ((pfaInit tinyBoot.mmap fun _ => 0#32).map fun b =>
      (List.range 9).all fun j => frameOfCall (bootAllocator b) j ≠ 0) = some true := by
    decide +kernel
  rw [hb, Option.bind_some] at hnext
  rw [hb, Option.map_some, Option.some_inj, List.all_eq_true] at hframes
  obtain ⟨s₀, s, -, hs, hwalk, -⟩ := boot_address_space tinyBoot_valid tinyBoot_low hb (fun _ _ => 0#64) [apicCall]
    (by
      intro c hc
      rw [List.mem_singleton.mp hc]
      exact ⟨.inl (by decide), by decide, by decide⟩)
    (by
      rintro c hc w ⟨hlo, -⟩
      rw [List.mem_singleton.mp hc]
      simp only [tinyBoot, smallBoot, apicCall] at hlo ⊢
      omega)
    (by
      intro s hs
      rw [hs] at hnext
      rw [Option.some.inj hnext]
      exact fun j hj => of_decide_eq_true (hframes j (List.mem_range.mpr hj)))
  refine ⟨b, s, hb, hs, (hwalk 0xfee000b0 (.inl (by decide))).trans ?_⟩
  have hlast : lastCall [apicCall] 0xfee000b0 = some apicCall := rfl
  rw [hlast]
  rfl

end NyaOS.Paging
