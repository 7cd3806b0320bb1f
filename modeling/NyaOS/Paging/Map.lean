import NyaOS.Paging.Tree

/-! Sequences of `map_page` calls refine a finite map from pages to frames and flags. -/
namespace NyaOS.Paging
open Library.RadixTree
open Frames (pageSize)

structure Call where
  paddr : Nat
  vaddr : Nat
  flags : BitVec 32

structure Call.Valid (c : Call) : Prop where
  canonical : Canonical c.vaddr
  aligned : c.paddr % 4096 = 0
  lt : c.paddr < 2 ^ 52

/-- The map the calls describe: for the page of `u`, the last call that named it. -/
def lastCall (calls : List Call) (u : Nat) : Option Call :=
  calls.reverse.find? fun c => c.vaddr / 4096 == u / 4096

def mapPages (kalloc : Nat → Nat) (s : Pager) (calls : List Call) : Pager :=
  calls.foldl (fun s c => mapPage kalloc s c.paddr c.vaddr c.flags) s

theorem mapPages_snoc (kalloc : Nat → Nat) (s : Pager) (calls : List Call) (c : Call) :
    mapPages kalloc s (calls ++ [c]) =
      mapPage kalloc (mapPages kalloc s calls) c.paddr c.vaddr c.flags := by
  rw [mapPages, List.foldl_append]
  rfl

theorem mapPages_pml4 (kalloc : Nat → Nat) (s : Pager) (calls : List Call) :
    (mapPages kalloc s calls).pml4 = s.pml4 := by
  induction calls using List.reverseRecOn with
  | nil => rfl
  | append_singleton calls c ih => rw [mapPages_snoc, mapPage_pml4, ih]

theorem lastCall_isSome (calls : List Call) (u : Nat) :
    (lastCall calls u).isSome ↔ ∃ c ∈ calls, c.vaddr / 4096 = u / 4096 := by
  simp [lastCall]

theorem lastCall_eq_some {before after : List Call} {c : Call} {u : Nat}
    (hc : c.vaddr / 4096 = u / 4096) (hafter : ∀ d ∈ after, d.vaddr / 4096 ≠ u / 4096) :
    lastCall (before ++ c :: after) u = some c := by
  have hnone : after.reverse.find? (fun c => c.vaddr / 4096 == u / 4096) = none := by
    simpa [List.find?_eq_none] using hafter
  rw [lastCall, List.reverse_append, List.reverse_cons, List.append_assoc, List.find?_append, hnone]
  simp [hc]

theorem lastCall_snoc (calls : List Call) (c : Call) (u : Nat) :
    lastCall (calls ++ [c]) u = if c.vaddr / 4096 = u / 4096 then some c else lastCall calls u := by
  rw [lastCall, List.reverse_append, List.reverse_singleton, List.singleton_append, List.find?_cons]
  split
  · rename_i h
    rw [if_pos (by simpa using h)]
  · rename_i h
    rw [if_neg (by simpa using h), lastCall]

section Refines
variable {kalloc : Nat → Nat} {s : Pager} {n : Nat} (hzero : ∀ i, s.mem s.pml4 i = 0#64)
  (hf : FreshFrames kalloc s.next n)
  (hroot : ∀ k, s.next ≤ k → k < n → kalloc k ≠ pageSize * s.pml4)
include hzero hf hroot

/-- The invariant of a run: a tree whose only leaves are those of the last calls. -/
theorem mapPages_leaves (calls : List Call) (hcalls : ∀ c ∈ calls, c.Valid)
    (hn : (mapPages kalloc s calls).next ≤ n) :
    Tree kalloc s.next n (mapPages kalloc s calls) ∧
    (∀ q j, q.length = 2 → leafAt (mapPages kalloc s calls) q j = none) ∧
    ∀ u, Canonical u → leafAt (mapPages kalloc s calls) (tablePath u) (index 12 u) =
      (lastCall calls u).map fun c => pageEntry c.paddr c.flags := by
  induction calls using List.reverseRecOn with
  | nil =>
    obtain ⟨hT, hleaf⟩ := Tree.init hf hzero hroot
    refine ⟨hT, fun q j hq => hleaf q j (by omega), fun u _ => hleaf _ _ ?_⟩
    simp [tablePath]
  | append_singleton calls c ih =>
    rw [mapPages_snoc] at hn ⊢
    have hv := hcalls c (by simp)
    obtain ⟨hT, hdir, htab⟩ := ih (fun d hd => hcalls d (by simp [hd]))
      ((next_le_mapPage kalloc _ _ _ _).trans hn)
    obtain ⟨hT', -, -, hleaf⟩ := mapPage_spec hf hT (hdir (dirPath c.vaddr) _ rfl) hn
    refine ⟨hT', ?_, ?_⟩
    · intro q j hq
      rw [hleaf q j (by omega), if_neg, hdir q j hq]
      rintro ⟨rfl, _⟩
      cases hq
    · intro u hu
      rw [hleaf _ _ (by simp [tablePath]), lastCall_snoc, htab u hu]
      by_cases hsame : u / 4096 = c.vaddr / 4096
      · rw [if_pos ((tablePath_eq_iff hu hv.canonical).mpr hsame), if_pos hsame.symm]
        rfl
      · rw [if_neg fun h => hsame ((tablePath_eq_iff hu hv.canonical).mp h),
          if_neg fun h => hsame h.symm]

/-- The walk after a run is the map the run describes. -/
theorem walk_mapPages (calls : List Call) (hcalls : ∀ c ∈ calls, c.Valid)
    (hn : (mapPages kalloc s calls).next ≤ n) {u : Nat} (hu : Canonical u) :
    walk (mapPages kalloc s calls).mem (mapPages kalloc s calls).pml4 u =
      (lastCall calls u).map fun c =>
        ⟨c.paddr + u % 4096, ((c.flags &&& 0xfff#32) ||| 3#32).toNat, true⟩ := by
  obtain ⟨hT, hdir, htab⟩ := mapPages_leaves hzero hf hroot calls hcalls hn
  rw [hT.walk_eq, hdir (dirPath u) _ rfl, htab u hu, Option.bind_none, Option.or_none]
  cases hlast : lastCall calls u with
  | none => rfl
  | some c =>
    have hc := hcalls c (List.mem_reverse.mp (List.mem_of_find?_eq_some hlast))
    exact leaf_pageEntry hc.aligned hc.lt c.flags u

end Refines

/-- From an all-zero `pml4`, the walk of `u` succeeds exactly when some call named the page of
`u`, gives the frame and flags of the last such call, and a call for another page leaves it
alone. -/
theorem mapPages_refines (kalloc : Nat → Nat) (s : Pager) (hzero : ∀ i, s.mem s.pml4 i = 0#64)
    (calls : List Call) (hcalls : ∀ c ∈ calls, c.Valid)
    (hf : FreshFrames kalloc s.next (mapPages kalloc s calls).next)
    (hroot : ∀ k, s.next ≤ k → k < (mapPages kalloc s calls).next → kalloc k ≠ pageSize * s.pml4)
    (u : Nat) (hu : Canonical u) :
    (mapPages kalloc s calls).pml4 = s.pml4 ∧
    ((walk (mapPages kalloc s calls).mem s.pml4 u).isSome ↔
      ∃ c ∈ calls, c.vaddr / 4096 = u / 4096) ∧
    (∀ before c after, calls = before ++ c :: after → c.vaddr / 4096 = u / 4096 →
      (∀ d ∈ after, d.vaddr / 4096 ≠ u / 4096) →
      walk (mapPages kalloc s calls).mem s.pml4 u =
        some ⟨c.paddr + u % 4096, ((c.flags &&& 0xfff#32) ||| 3#32).toNat, true⟩) ∧
    (∀ before c, calls = before ++ [c] → c.vaddr / 4096 ≠ u / 4096 →
      walk (mapPages kalloc s calls).mem s.pml4 u =
        walk (mapPages kalloc s before).mem s.pml4 u) := by
  have hwalk := walk_mapPages hzero hf hroot calls hcalls le_rfl hu
  rw [mapPages_pml4] at hwalk
  refine ⟨mapPages_pml4 kalloc s calls, ?_, ?_, ?_⟩
  · rw [hwalk, Option.isSome_map, lastCall_isSome]
  · rintro before c after rfl hc hafter
    rw [hwalk, lastCall_eq_some hc hafter]
    rfl
  · rintro before c rfl hc
    have hle : (mapPages kalloc s before).next ≤ (mapPages kalloc s (before ++ [c])).next := by
      rw [mapPages_snoc]
      exact next_le_mapPage kalloc _ _ _ _
    have hbefore := walk_mapPages hzero hf hroot before (fun d hd => hcalls d (by simp [hd])) hle hu
    rw [mapPages_pml4] at hbefore
    rw [hwalk, hbefore, lastCall_snoc, if_neg hc]

/-- An empty `pml4` in frame 1, with the frames from 2 on free. -/
def emptyPager : Pager := ⟨fun _ _ => 0#64, 1, 0, []⟩
def upwardFrames (k : Nat) : Nat := pageSize * (k + 2)

theorem upwardFrames_fresh {m n : Nat} (hn : n ≤ 2 ^ 32) : FreshFrames upwardFrames m n where
  aligned k _ _ := Nat.mul_mod_right pageSize (k + 2)
  lt k _ hk := by
    unfold upwardFrames pageSize
    omega
  distinct j k _ _ _ _ h := by
    unfold upwardFrames pageSize at h
    omega

/-- A page mapped twice translates by its second mapping. -/
theorem mapPages_refines_twice :
    walk (mapPages upwardFrames emptyPager [⟨0x5000, 0x1000, 0⟩, ⟨0x6000, 0x1000, 0x18⟩]).mem 1
      0x1234 = some ⟨0x6234, 0x1b, true⟩ := by
  have hnext : (mapPages upwardFrames emptyPager [⟨0x5000, 0x1000, 0⟩, ⟨0x6000, 0x1000, 0x18⟩]).next
      = 3 := by decide +kernel
  refine (mapPages_refines upwardFrames emptyPager (fun _ => rfl)
    [⟨0x5000, 0x1000, 0⟩, ⟨0x6000, 0x1000, 0x18⟩] ?_ ?_ ?_ 0x1234 (.inl (by decide))).2.2.1
    [⟨0x5000, 0x1000, 0⟩] ⟨0x6000, 0x1000, 0x18⟩ [] rfl rfl (fun _ h => nomatch h)
  · intro c hc
    simp only [List.mem_cons, List.not_mem_nil, or_false] at hc
    rcases hc with rfl | rfl
    · exact ⟨.inl (by decide), rfl, by decide⟩
    · exact ⟨.inl (by decide), rfl, by decide⟩
  · exact upwardFrames_fresh (by rw [hnext]; decide)
  · intro k _ _ h
    unfold upwardFrames emptyPager pageSize at h
    simp at h

end NyaOS.Paging
