import NyaOS.Paging.Map

/-! `map_page` when `kalloc_frame` has no frame left. The result is used without a test, so the
address 0 becomes a table in physical frame 0. -/
namespace NyaOS.Paging
open Library.RadixTree
open Frames (pageSize)

/-- A call that failed cleanly: every translation is as before, and frame 0 was not written. -/
structure FailsCleanly (s s' : Pager) : Prop where
  walks : ∀ u, Canonical u → walk s'.mem s'.pml4 u = walk s.mem s.pml4 u
  untouched : ∃ new, s'.stores = new ++ s.stores ∧ ∀ w ∈ new, w.1 ≠ 0

/-- From `s` to `s'` stores were only added, among them one to every word of each frame that
`kalloc_frame` returned meanwhile. -/
structure ZeroesNew (kalloc : Nat → Nat) (s s' : Pager) : Prop where
  next : s.next ≤ s'.next
  stores : ∃ new, s'.stores = new ++ s.stores ∧
    ∀ k, s.next ≤ k → k < s'.next → ∀ i, (kalloc k / pageSize, i) ∈ new

section ZeroesNew
variable {kalloc : Nat → Nat} {s s' s'' : Pager}

theorem ZeroesNew.of_store (s : Pager) (t : Nat) (i : Fin 512) (e : BitVec 64) :
    ZeroesNew kalloc s (s.store t i e) :=
  ⟨le_rfl, [(t, i)], rfl, fun _ hlo hhi => absurd hhi (Nat.not_lt.mpr hlo)⟩

theorem ZeroesNew.trans (h : ZeroesNew kalloc s s') (h' : ZeroesNew kalloc s' s'') :
    ZeroesNew kalloc s s'' := by
  obtain ⟨new, he, hnew⟩ := h.stores
  obtain ⟨new', he', hnew'⟩ := h'.stores
  refine ⟨h.next.trans h'.next, new' ++ new, by rw [he', he, List.append_assoc], fun k hlo hhi i => ?_⟩
  rcases Nat.lt_or_ge k s'.next with hlt | hge
  · exact List.mem_append_right _ (hnew k hlo hlt i)
  · exact List.mem_append_left _ (hnew' k hge hhi i)

theorem zeroTable_stores (s : Pager) (paddr : Nat) : ∃ new,
    (zeroTable s paddr).stores = new ++ s.stores ∧ ∀ i, (paddr / pageSize, i) ∈ new := by
  have hfold : ∀ (l : List (Fin 512)) (s : Pager), ∃ new,
      (l.foldl (fun s i => s.store (paddr / pageSize) i 0#64) s).stores = new ++ s.stores ∧
        ∀ i ∈ l, (paddr / pageSize, i) ∈ new := by
    intro l
    induction l with
    | nil => exact fun s => ⟨[], rfl, by simp⟩
    | cons j l ih =>
      intro s
      obtain ⟨new, he, hnew⟩ := ih (s.store (paddr / pageSize) j 0#64)
      refine ⟨new ++ [(paddr / pageSize, j)], ?_, fun i hi => ?_⟩
      · rw [List.foldl_cons, he, List.append_assoc]
        rfl
      · rcases List.mem_cons.mp hi with rfl | hi
        · exact List.mem_append_right _ (List.mem_singleton_self _)
        · exact List.mem_append_left _ (hnew i hi)
  obtain ⟨new, he, hnew⟩ := hfold (List.finRange 512) s
  exact ⟨new, he, fun i => hnew i (List.mem_finRange i)⟩

/-- Going down one level zeroes the frame it takes, if it takes one. -/
theorem descend_zeroesNew (s : Pager) (t : Nat) (i : Fin 512) :
    ZeroesNew kalloc s (descend kalloc s t i).1 := by
  cases hp : present (s.mem t i) with
  | true =>
    rw [descend_present hp]
    exact ⟨le_rfl, [], rfl, fun _ hlo hhi => absurd hhi (Nat.not_lt.mpr hlo)⟩
  | false =>
    obtain ⟨new, he, hnew⟩ := zeroTable_stores { s with next := s.next + 1 } (kalloc s.next)
    have hnext := (zeroTable_fields { s with next := s.next + 1 } (kalloc s.next)).2
    have hzero : ZeroesNew kalloc s (zeroTable { s with next := s.next + 1 } (kalloc s.next)) := by
      refine ⟨by rw [hnext]; exact Nat.le_succ _, new, he, fun k hlo hhi => ?_⟩
      rw [hnext] at hhi
      obtain rfl : k = s.next := Nat.le_antisymm (Nat.lt_succ_iff.mp hhi) hlo
      exact hnew
    rw [descend, if_pos ((and_one_eq_zero_iff _).mpr hp)]
    exact hzero.trans (.of_store _ _ _ _)

theorem mapPage_zeroesNew (kalloc : Nat → Nat) (s : Pager) (paddr vaddr : Nat) (flags : BitVec 32) :
    ZeroesNew kalloc s (mapPage kalloc s paddr vaddr flags) :=
  (((descend_zeroesNew s _ _).trans (descend_zeroesNew _ _ _)).trans (descend_zeroesNew _ _ _)).trans
    (.of_store _ _ _ _)

end ZeroesNew

/-- Whatever the tables, a call in which `kalloc_frame` returns `NULL` never fails cleanly: it
has zeroed physical frame 0. -/
theorem mapPage_never_clean (kalloc : Nat → Nat) (s : Pager) (paddr vaddr : Nat) (flags : BitVec 32)
    (hnull : ∃ k, s.next ≤ k ∧ k < (mapPage kalloc s paddr vaddr flags).next ∧ kalloc k = 0) :
    ¬ FailsCleanly s (mapPage kalloc s paddr vaddr flags) := by
  obtain ⟨k, hlo, hhi, hk⟩ := hnull
  obtain ⟨new, he, hnew⟩ := (mapPage_zeroesNew kalloc s paddr vaddr flags).stores
  intro h
  obtain ⟨new', he', hclean⟩ := h.untouched
  obtain rfl : new = new' := List.append_cancel_right (he.symm.trans he')
  have hmem := hnew k hlo hhi 0
  rw [hk] at hmem
  exact hclean _ hmem rfl

theorem emptyPager_null : (∃ k, emptyPager.next ≤ k ∧
      k < (mapPage (fun _ => 0) emptyPager 0x5000 0x1000 0).next ∧ (fun _ => 0) k = 0) ∧
    ¬ FailsCleanly emptyPager (mapPage (fun _ => 0) emptyPager 0x5000 0x1000 0) := by
  have hnull : ∃ k, emptyPager.next ≤ k ∧
      k < (mapPage (fun _ => 0) emptyPager 0x5000 0x1000 0).next ∧ (fun _ => 0) k = 0 :=
    ⟨0, le_rfl, by decide +kernel, rfl⟩
  exact ⟨hnull, mapPage_never_clean _ _ _ _ _ hnull⟩

/-- With no frame left, mapping 0x1000 puts all three of its tables in frame 0, and the address 0
is translated as well. -/
theorem emptyPager_shares :
    follow child (mapPage (fun _ => 0) emptyPager 0x5000 0x1000 0).mem 1 [0] = some 0 ∧
    follow child (mapPage (fun _ => 0) emptyPager 0x5000 0x1000 0).mem 1 [0, 0] = some 0 ∧
    follow child (mapPage (fun _ => 0) emptyPager 0x5000 0x1000 0).mem 1 [0, 0, 0] = some 0 ∧
    walk emptyPager.mem 1 0 = none ∧
    walk (mapPage (fun _ => 0) emptyPager 0x5000 0x1000 0).mem 1 0 = some ⟨0, 3, true⟩ ∧
    ¬ FailsCleanly emptyPager (mapPage (fun _ => 0) emptyPager 0x5000 0x1000 0) := by
  have hbefore : walk emptyPager.mem 1 0 = none := by decide +kernel
  have hafter : walk (mapPage (fun _ => 0) emptyPager 0x5000 0x1000 0).mem 1 0 = some ⟨0, 3, true⟩ := by
    decide +kernel
  refine ⟨by decide +kernel, by decide +kernel, by decide +kernel, hbefore, hafter, fun h => ?_⟩
  have hsame := h.walks 0 (.inl (by decide))
  rw [show (mapPage (fun _ => 0) emptyPager 0x5000 0x1000 0).pml4 = 1 from by decide +kernel,
    hafter, show emptyPager.pml4 = 1 from rfl, hbefore] at hsame
  cases hsame

end NyaOS.Paging
