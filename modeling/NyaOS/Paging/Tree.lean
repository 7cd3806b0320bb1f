import NyaOS.Paging.Tables

/-! The tables below `pml4` form an unshared radix tree, and the walk is a lookup of its leaves.
Creating a table changes no leaf; each mapping routine then writes exactly one. -/
namespace NyaOS.Paging
open Library.RadixTree
open Frames (pageSize)

/-- The leaf entry in slot `j` of the table at path `p`: present, and a large page or in a page
table. -/
def leafAt (s : Pager) (p : List (Fin 512)) (j : Fin 512) : Option (BitVec 64) :=
  (entryAt child s.mem s.pml4 p j).filter fun e => present e && (p.length == 3 || large e)

/-- The path to the page directory of an address, and to its page table. -/
def dirPath (u : Nat) : List (Fin 512) := [index 39 u, index 30 u]
def tablePath (u : Nat) : List (Fin 512) := [index 39 u, index 30 u, index 21 u]

section Tree
variable (kalloc : Nat → Nat) (m n : Nat)

/-- Calls `m` to `n` of `kalloc_frame` return page-aligned addresses of distinct frames.
Physical addresses have 52 bits. -/
structure FreshFrames : Prop where
  aligned : ∀ k, m ≤ k → k < n → kalloc k % pageSize = 0
  lt : ∀ k, m ≤ k → k < n → kalloc k < 2 ^ 52
  distinct : ∀ j k, m ≤ j → j < n → m ≤ k → k < n → kalloc j = kalloc k → j = k

/-- No table is reached twice, none is one of the frames still to come, and every present entry
above the page tables links a table or is a large page of a page directory. -/
structure Tree (s : Pager) : Prop where
  unshared : Unshared child s.mem s.pml4 3
  started : m ≤ s.next
  fresh : ∀ k, s.next ≤ k → k < n → ∀ p, p.length ≤ 3 →
    follow child s.mem s.pml4 p ≠ some (kalloc k / pageSize)
  linked : ∀ p i e, p.length ≤ 2 → entryAt child s.mem s.pml4 p i = some e → present e = true →
    (p.length = 2 ∧ large e = true) ∨ ∃ f, f < 2 ^ 40 ∧ e = entryOf f 3

variable {kalloc m n} {s : Pager} {t : Nat} {i : Fin 512} {r : List (Fin 512)}

theorem present_entryOf {k x : Nat} (hk : k < 2 ^ 40) (hx : x < 4096) :
    present (entryOf k x) = x.testBit 0 := getLsbD_entryOf hk hx (by decide)

theorem large_entryOf {k x : Nat} (hk : k < 2 ^ 40) (hx : x < 4096) :
    large (entryOf k x) = x.testBit 7 := getLsbD_entryOf hk hx (by decide)

theorem writable_entryOf {k x : Nat} (hk : k < 2 ^ 40) (hx : x < 4096) :
    writable (entryOf k x) = x.testBit 1 := getLsbD_entryOf hk hx (by decide)

/-- A link: present, writable and not large. -/
theorem child_link {f : Nat} (hf : f < 2 ^ 40) : child (entryOf f 3) = some f := by
  rw [child, present_entryOf hf (by decide), large_entryOf hf (by decide),
    frameOf_entryOf hf (by decide)]
  rfl

theorem child_eq_some {e : BitVec 64} {f : Nat} (h : child e = some f) :
    present e = true ∧ large e = false ∧ frameOf e = f := by
  unfold child at h
  split at h
  · rename_i hc
    simp only [Bool.and_eq_true, Bool.not_eq_true'] at hc
    exact ⟨hc.1, hc.2, Option.some.inj h⟩
  · cases h

theorem child_eq_none_of_absent {e : BitVec 64} (h : present e = false) : child e = none := by
  simp [child, h]

/-- An all-zero top table is a tree without leaves. -/
theorem Tree.init (hf : FreshFrames kalloc s.next n) (hzero : ∀ i, s.mem s.pml4 i = 0#64)
    (hroot : ∀ k, s.next ≤ k → k < n → kalloc k ≠ pageSize * s.pml4) :
    Tree kalloc s.next n s ∧ ∀ p j, 1 ≤ p.length → leafAt s p j = none := by
  have hfollow : ∀ p, 1 ≤ p.length → follow child s.mem s.pml4 p = none := by
    intro p hp
    cases p with
    | nil => cases hp
    | cons i p =>
      rw [follow, hzero i]
      rfl
  have honly : ∀ p t, follow child s.mem s.pml4 p = some t → p = [] ∧ t = s.pml4 := by
    intro p t ht
    cases p with
    | nil => exact ⟨rfl, (Option.some.inj ht).symm⟩
    | cons i p =>
      rw [hfollow _ (by simp)] at ht
      cases ht
  refine ⟨⟨?_, le_rfl, ?_, ?_⟩, ?_⟩
  · intro p q t _ _ hp hq
    rw [(honly p t hp).1, (honly q t hq).1]
  · intro k hk hkn p _ ht
    have ha := hf.aligned k hk hkn
    apply hroot k hk hkn
    rw [← (honly p _ ht).2]
    unfold pageSize at ha ⊢
    omega
  · intro p j e _ he hpres
    rw [entryAt] at he
    cases ht : follow child s.mem s.pml4 p with
    | none =>
      rw [ht] at he
      cases he
    | some t =>
      rw [ht, (honly p t ht).2, Option.map_some, hzero j] at he
      cases he
      cases hpres
  · intro p j hp
    rw [leafAt, entryAt, hfollow p hp]
    rfl

/-- A followed entry above the page tables is a link. -/
theorem Tree.link_of_child (hT : Tree kalloc m n s) (hr : r.length ≤ 2) {e : BitVec 64}
    (he : entryAt child s.mem s.pml4 r i = some e) {f : Nat} (hc : child e = some f) :
    f < 2 ^ 40 ∧ e = entryOf f 3 := by
  obtain ⟨hp, hl, _⟩ := child_eq_some hc
  rcases hT.linked r i e hr he hp with ⟨_, hlarge⟩ | ⟨g, hg, rfl⟩
  · rw [hl] at hlarge
    cases hlarge
  · rw [child_link hg] at hc
    cases hc
    exact ⟨hg, rfl⟩

/-- There are no leaves above the page directories. -/
theorem Tree.leafAt_above (hT : Tree kalloc m n s) (hr : r.length ≤ 1) : leafAt s r i = none := by
  rw [leafAt, Option.filter_eq_none_iff]
  intro e he hc
  simp only [Bool.and_eq_true, Bool.or_eq_true, beq_iff_eq] at hc
  rcases hT.linked r i e (by omega) he hc.1 with ⟨h2, _⟩ | ⟨g, hg, rfl⟩
  · omega
  · rw [large_entryOf hg (by decide)] at hc
    rcases hc.2 with h3 | hl
    · omega
    · cases hl

theorem descend_present (h : present (s.mem t i) = true) :
    descend kalloc s t i = (s, (s.mem t i).toNat / 4096) := by
  have hne : ¬ s.mem t i &&& 0x1#64 = 0#64 := by
    rw [and_one_eq_zero_iff, h]
    decide
  rw [descend, if_neg hne, frame_mask]

private theorem descend_absent (h : present (s.mem t i) = false)
    (ha : kalloc s.next % pageSize = 0) (hlt : kalloc s.next < 2 ^ 52) :
    (descend kalloc s t i).1.mem =
        put (blank s.mem (kalloc s.next / pageSize) 0#64) t i (entryOf (kalloc s.next / pageSize) 3) ∧
      (descend kalloc s t i).2 = kalloc s.next / pageSize := by
  have hkal : kalloc s.next = 4096 * (kalloc s.next / pageSize) := by
    unfold pageSize at ha ⊢
    omega
  have hf : kalloc s.next / pageSize < 2 ^ 40 := by
    unfold pageSize
    omega
  have hentry : BitVec.ofNat 64 (kalloc s.next) ||| 0x3#64 = entryOf (kalloc s.next / pageSize) 3 := by
    rw [← or_eq_entryOf hf (by decide), ← hkal]
  rw [descend, if_pos ((and_one_eq_zero_iff _).mpr h), hentry]
  refine ⟨?_, ?_⟩
  · rw [Pager.store_mem, zeroTable_mem]
  · simp only [frame_mask, Pager.store_mem, put_apply, and_self, if_true,
      entryOf_toNat hf (by decide : 3 < 4096)]
    omega

theorem descend_fields (kalloc : Nat → Nat) (s : Pager) (t : Nat) (i : Fin 512) :
    (descend kalloc s t i).1.pml4 = s.pml4 ∧ (descend kalloc s t i).1.next =
      if present (s.mem t i) then s.next else s.next + 1 := by
  cases h : present (s.mem t i) with
  | true => simp [descend_present h]
  | false =>
    obtain ⟨hroot, hnext⟩ := zeroTable_fields { s with next := s.next + 1 } (kalloc s.next)
    have hd : (descend kalloc s t i).1 =
        (zeroTable { s with next := s.next + 1 } (kalloc s.next)).store t i
          (BitVec.ofNat 64 (kalloc s.next) ||| 0x3#64) := by
      rw [descend, if_pos ((and_one_eq_zero_iff _).mpr h)]
    rw [hd, Pager.store_pml4, Pager.store_next, hroot, hnext]
    exact ⟨rfl, rfl⟩

theorem descend_pml4 (kalloc : Nat → Nat) (s : Pager) (t : Nat) (i : Fin 512) :
    (descend kalloc s t i).1.pml4 = s.pml4 := (descend_fields kalloc s t i).1

theorem next_le_descend (kalloc : Nat → Nat) (s : Pager) (t : Nat) (i : Fin 512) :
    s.next ≤ (descend kalloc s t i).1.next := by
  rw [(descend_fields kalloc s t i).2]
  split <;> omega

/-- From `s` to `s'` every table stays where it is, and new ones are only found along `path`, in
frames that `kalloc_frame` returned meanwhile. -/
structure Grows (kalloc : Nat → Nat) (path : List (Fin 512)) (s s' : Pager) : Prop where
  pml4 : s'.pml4 = s.pml4
  next : s.next ≤ s'.next
  tables : ∀ p, p.length ≤ 3 →
    follow child s'.mem s'.pml4 p = follow child s.mem s.pml4 p ∨
    p <+: path ∧ follow child s.mem s.pml4 p = none ∧ ∃ k, s.next ≤ k ∧ k < s'.next ∧
      follow child s'.mem s'.pml4 p = some (kalloc k / pageSize)

theorem Grows.refl (kalloc : Nat → Nat) (path : List (Fin 512)) (s : Pager) : Grows kalloc path s s :=
  ⟨rfl, le_rfl, fun _ _ => .inl rfl⟩

theorem Grows.trans {path path' : List (Fin 512)} {s s' s'' : Pager} (h : Grows kalloc path s s')
    (h' : Grows kalloc path' s' s'') (hpath : path <+: path') : Grows kalloc path' s s'' := by
  refine ⟨h'.pml4.trans h.pml4, h.next.trans h'.next, fun p hp => ?_⟩
  rcases h'.tables p hp with hsame | ⟨hpre, hnone, k, hlo, hhi, hnew⟩
  · rcases h.tables p hp with hsame' | ⟨hpre, hnone, k, hlo, hhi, hnew⟩
    · exact .inl (hsame.trans hsame')
    · exact .inr ⟨hpre.trans hpath, hnone, k, hlo, hhi.trans_le h'.next, hsame.trans hnew⟩
  · rcases h.tables p hp with hsame' | ⟨_, _, _, _, _, hnew'⟩
    · exact .inr ⟨hpre, hsame' ▸ hnone, k, h.next.trans hlo, hhi, hnew⟩
    · rw [hnone] at hnew'
      cases hnew'

section Fresh
variable (hf : FreshFrames kalloc m n)
include hf

private theorem frame_of_kalloc {k : Nat} (hlo : m ≤ k) (hhi : k < n) :
    kalloc k = pageSize * (kalloc k / pageSize) ∧ kalloc k / pageSize < 2 ^ 40 := by
  have ha := hf.aligned k hlo hhi
  have hlt := hf.lt k hlo hhi
  unfold pageSize at ha ⊢
  omega

section Link
variable (hT : Tree kalloc m n s) (hr : r.length < 3) (ht : follow child s.mem s.pml4 r = some t)
  (hp : present (s.mem t i) = false) (hhi : s.next < n) {s' : Pager} (hroot : s'.pml4 = s.pml4)
  (hnext : s'.next = s.next + 1)
  (hmem : s'.mem = put (blank s.mem (kalloc s.next / pageSize) 0#64) t i
    (entryOf (kalloc s.next / pageSize) 3))
include hT hr ht hp hhi hroot hmem

private theorem follow_linked {p : List (Fin 512)} (hp3 : p.length ≤ 3) :
    follow child s'.mem s'.pml4 p =
      if p = r ++ [i] then some (kalloc s.next / pageSize) else follow child s.mem s.pml4 p := by
  rw [hroot, hmem]
  exact follow_link hT.unshared hr ht (child_eq_none_of_absent hp) (hT.fresh _ le_rfl hhi) rfl
    (child_link (frame_of_kalloc hf hT.started hhi).2) hp3

private theorem entryAt_linked {p : List (Fin 512)} (hp3 : p.length ≤ 3) (j : Fin 512) :
    entryAt child s'.mem s'.pml4 p j =
      if p = r ++ [i] then some 0#64 else
      if p = r ∧ j = i then some (entryOf (kalloc s.next / pageSize) 3)
        else entryAt child s.mem s.pml4 p j := by
  rw [hroot, hmem]
  exact entryAt_link hT.unshared hr ht (child_eq_none_of_absent hp) (hT.fresh _ le_rfl hhi) rfl
    (child_link (frame_of_kalloc hf hT.started hhi).2) hp3

include hnext in
private theorem Tree.linkFrame : Tree kalloc m n s' := by
  have h40 := (frame_of_kalloc hf hT.started hhi).2
  refine ⟨?_, ?_, ?_, ?_⟩
  · rw [hroot, hmem]
    exact hT.unshared.link hr ht (child_eq_none_of_absent hp) (hT.fresh _ le_rfl hhi) rfl
      (child_link h40)
  · have := hT.started
    omega
  · intro k hk hkn p hp3
    have hm := hT.started
    rw [follow_linked hf hT hr ht hp hhi hroot hmem hp3]
    split
    · intro heq
      have hsame : kalloc s.next = kalloc k := by
        rw [(frame_of_kalloc hf hm hhi).1, (frame_of_kalloc hf (by omega) hkn).1,
          Option.some.inj heq]
      have := hf.distinct _ _ hm hhi (by omega) hkn hsame
      omega
    · exact hT.fresh k (by omega) hkn p hp3
  · intro p j e hp2 he hpres
    rw [entryAt_linked hf hT hr ht hp hhi hroot hmem (by omega)] at he
    split at he
    · cases he
      cases hpres
    · split at he
      · cases he
        exact .inr ⟨_, h40, rfl⟩
      · exact hT.linked p j e hp2 he hpres

private theorem leafAt_linked {p : List (Fin 512)} (hp3 : p.length ≤ 3) (j : Fin 512) :
    leafAt s' p j = leafAt s p j := by
  have h40 := (frame_of_kalloc hf hT.started hhi).2
  rw [leafAt, leafAt, entryAt_linked hf hT hr ht hp hhi hroot hmem hp3]
  split
  · rename_i hpr
    have hnone : follow child s.mem s.pml4 p = none := by
      rw [hpr, follow_snoc, ht, Option.bind_some]
      exact child_eq_none_of_absent hp
    rw [entryAt, hnone]
    rfl
  · split
    · rename_i hpr
      obtain ⟨rfl, rfl⟩ := hpr
      have hlen : (p.length == 3) = false := by
        rw [beq_eq_false_iff_ne]
        omega
      rw [entryAt_of_follow ht, Option.filter_some, Option.filter_some, hp, hlen,
        present_entryOf h40 (by decide), large_entryOf h40 (by decide)]
      rfl
    · rfl

end Link

/-- Going down one level keeps the tree and all its leaves, and reaches the table. -/
theorem descend_spec (hT : Tree kalloc m n s) (hr : r.length < 3)
    (ht : follow child s.mem s.pml4 r = some t) (hleaf : leafAt s r i = none)
    (hn : (descend kalloc s t i).1.next ≤ n) :
    Tree kalloc m n (descend kalloc s t i).1 ∧
    follow child (descend kalloc s t i).1.mem s.pml4 (r ++ [i]) = some (descend kalloc s t i).2 ∧
    Grows kalloc (r ++ [i]) s (descend kalloc s t i).1 ∧
    ∀ p j, p.length ≤ 3 → leafAt (descend kalloc s t i).1 p j = leafAt s p j := by
  cases hp : present (s.mem t i) with
  | true =>
    rw [descend_present hp]
    refine ⟨hT, ?_, .refl kalloc _ s, fun _ _ _ => rfl⟩
    rcases hT.linked r i _ (by omega) (entryAt_of_follow ht i) hp with ⟨_, hl⟩ | ⟨f, hf40, he⟩
    · simp [leafAt, entryAt, ht, hp, hl] at hleaf
    · rw [follow_snoc, ht, Option.bind_some, he, child_link hf40, entryOf_toNat hf40 (by decide)]
      congr 1
      omega
  | false =>
    obtain ⟨hroot, hnext⟩ := descend_fields kalloc s t i
    rw [hp] at hnext
    simp only [Bool.false_eq_true, if_false] at hnext
    have hlo := hT.started
    have hhi : s.next < n := by omega
    obtain ⟨hmem, htab⟩ := descend_absent hp (hf.aligned _ hlo hhi) (hf.lt _ hlo hhi)
    refine ⟨Tree.linkFrame hf hT hr ht hp hhi hroot hnext hmem, ?_, ⟨hroot, by omega, fun p hp3 => ?_⟩,
      fun p j hp3 => leafAt_linked hf hT hr ht hp hhi hroot hmem hp3 j⟩
    · have hlink := follow_linked hf hT hr ht hp hhi hroot hmem (p := r ++ [i])
        (by rw [List.length_append, List.length_singleton]; omega)
      rw [hroot, if_pos rfl] at hlink
      rw [hlink, htab]
    · rw [follow_linked hf hT hr ht hp hhi hroot hmem hp3]
      split
      · rename_i hpr
        refine .inr ⟨hpr ▸ List.prefix_refl _, ?_, s.next, le_rfl, by omega, rfl⟩
        rw [hpr, follow_snoc, ht, Option.bind_some]
        exact child_eq_none_of_absent hp
      · exact .inl rfl

/-- The way down to the page directory that both mapping routines take first. -/
private theorem descend_dir (hT : Tree kalloc m n s) (v : Nat) {d₁ d₂ : Pager × Nat}
    (h₁ : descend kalloc s s.pml4 (index 39 v) = d₁)
    (h₂ : descend kalloc d₁.1 d₁.2 (index 30 v) = d₂) (hn : d₂.1.next ≤ n) :
    Tree kalloc m n d₂.1 ∧
    follow child d₂.1.mem d₂.1.pml4 (dirPath v) = some d₂.2 ∧
    Grows kalloc (dirPath v) s d₂.1 ∧
    ∀ p j, p.length ≤ 3 → leafAt d₂.1 p j = leafAt s p j := by
  have hle := next_le_descend kalloc d₁.1 d₁.2 (index 30 v)
  have hroot₁ := descend_pml4 kalloc s s.pml4 (index 39 v)
  have hroot₂ := descend_pml4 kalloc d₁.1 d₁.2 (index 30 v)
  rw [h₂] at hle hroot₂
  rw [h₁] at hroot₁
  have hs₁ := descend_spec hf hT (r := []) (i := index 39 v) (by decide) rfl
    (hT.leafAt_above (by decide)) (by rw [h₁]; omega)
  rw [h₁, ← hroot₁] at hs₁
  obtain ⟨hT₁, hfollow₁, hgrows₁, hleaf₁⟩ := hs₁
  have hs₂ := descend_spec hf hT₁ (i := index 30 v) (by simp) hfollow₁
    (hT₁.leafAt_above (by simp)) (by rw [h₂]; exact hn)
  rw [h₂, ← hroot₂] at hs₂
  obtain ⟨hT₂, hfollow₂, hgrows₂, hleaf₂⟩ := hs₂
  refine ⟨hT₂, hfollow₂, hgrows₁.trans hgrows₂ (List.prefix_append _ _), fun p j hp => ?_⟩
  rw [hleaf₂ p j hp, hleaf₁ p j hp]

end Fresh

/-- Storing a leaf drops the leaves behind its slot and adds itself. -/
theorem Tree.storeLeaf (hT : Tree kalloc m n s) (ht : follow child s.mem s.pml4 r = some t)
    {e : BitVec 64} (hr : r.length = 2 ∧ large e = true ∨ r.length = 3) (hp : present e = true) :
    Tree kalloc m n (s.store t i e) ∧ ∀ p j, p.length ≤ 3 → leafAt (s.store t i e) p j =
      if r ++ [i] <+: p then none else if p = r ∧ j = i then some e else leafAt s p j := by
  have hr3 : r.length ≤ 3 := by omega
  have hc : r.length < 3 → child e = none := by
    intro hlt
    have hl : large e = true := by
      rcases hr with ⟨_, hl⟩ | h3
      · exact hl
      · omega
    simp [child, hl]
  refine ⟨⟨hT.unshared.put_leaf hr3 ht hc, hT.started, ?_, ?_⟩, ?_⟩
  · intro k hk hkn p hp3
    rw [Pager.store_mem, Pager.store_pml4, follow_put_leaf hT.unshared hr3 ht hc hp3]
    split
    · exact fun h => nomatch h
    · exact hT.fresh k hk hkn p hp3
  · intro p j e' hp2 he' hpres
    rw [Pager.store_mem, Pager.store_pml4,
      entryAt_put_leaf hT.unshared hr3 ht hc (by omega)] at he'
    split at he'
    · cases he'
    · split at he'
      · rename_i hpr
        cases he'
        rcases hr with ⟨h2, hl⟩ | h3
        · rw [hpr.1]
          exact .inl ⟨h2, hl⟩
        · rw [hpr.1] at hp2
          omega
      · exact hT.linked p j e' hp2 he' hpres
  · intro p j hp3
    rw [leafAt, leafAt, Pager.store_mem, Pager.store_pml4,
      entryAt_put_leaf hT.unshared hr3 ht hc hp3]
    split
    · rfl
    · split
      · rename_i hpr
        rw [Option.filter_some, if_pos]
        rw [hp, hpr.1]
        rcases hr with ⟨_, hl⟩ | h3
        · simp [hl]
        · simp [h3]
      · rfl

theorem present_largeEntry (paddr flags : Nat) : present (largeEntry paddr flags) = true := by
  simp [present, largeEntry]

theorem large_largeEntry (paddr flags : Nat) : large (largeEntry paddr flags) = true := by
  simp [large, largeEntry]

theorem present_pageEntry (paddr : Nat) (flags : BitVec 32) :
    present (pageEntry paddr flags) = true := by
  simp [present, pageEntry]

section Fresh
variable (hf : FreshFrames kalloc m n) (hT : Tree kalloc m n s)
include hf hT

/-- `map_page_2m` sets the one leaf of its page directory and drops a page table in its place. -/
theorem mapPage2m_spec {p v flags : Nat} (hn : (mapPage2m kalloc s p v flags).next ≤ n) :
    Tree kalloc m n (mapPage2m kalloc s p v flags) ∧
    ∀ q j, q.length ≤ 3 → leafAt (mapPage2m kalloc s p v flags) q j =
      if tablePath v <+: q then none else
      if q = dirPath v ∧ j = index 21 v then some (largeEntry p flags) else leafAt s q j := by
  obtain ⟨hT₂, hfollow, -, hleaf⟩ := descend_dir hf hT v rfl rfl hn
  obtain ⟨hT', hleaf'⟩ := hT₂.storeLeaf hfollow (i := index 21 v) (e := largeEntry p flags)
    (.inl ⟨rfl, large_largeEntry p flags⟩) (present_largeEntry p flags)
  refine ⟨hT', fun q j hq => ?_⟩
  rw [← hleaf q j hq]
  exact hleaf' q j hq

/-- The tables after `map_page_2m` were there before or are in frames that it took. -/
theorem mapPage2m_tables {p v flags : Nat} (hn : (mapPage2m kalloc s p v flags).next ≤ n)
    {q : List (Fin 512)} (hq : q.length ≤ 3) (ht : follow child (mapPage2m kalloc s p v flags).mem
      (mapPage2m kalloc s p v flags).pml4 q = some t) :
    follow child s.mem s.pml4 q = some t ∨
      ∃ k, s.next ≤ k ∧ k < (mapPage2m kalloc s p v flags).next ∧ t = kalloc k / pageSize := by
  obtain ⟨hT₂, hfollow, hgrows, -⟩ := descend_dir hf hT v rfl rfl hn
  have hlarge : child (largeEntry p flags) = none := by
    rw [child, present_largeEntry, large_largeEntry]
    rfl
  have hput := (follow_put_leaf hT₂.unshared (by simp [dirPath]) hfollow (i := index 21 v)
    (fun _ => hlarge) hq).symm.trans ht
  split at hput
  · cases hput
  · rcases hgrows.tables q hq with hsame | ⟨-, -, k, hlo, hhi, hnew⟩
    · exact .inl (hsame.symm.trans hput)
    · exact .inr ⟨k, hlo, hhi, Option.some.inj (hput.symm.trans hnew)⟩

/-- `map_page` sets the one leaf of its page table, where no large page is in the way. -/
theorem mapPage_spec {p v : Nat} {flags : BitVec 32}
    (hsmall : leafAt s (dirPath v) (index 21 v) = none)
    (hn : (mapPage kalloc s p v flags).next ≤ n) :
    Tree kalloc m n (mapPage kalloc s p v flags) ∧
    Grows kalloc (tablePath v) s (mapPage kalloc s p v flags) ∧
    (follow child (mapPage kalloc s p v flags).mem (mapPage kalloc s p v flags).pml4
      (tablePath v)).isSome ∧
    ∀ q j, q.length ≤ 3 → leafAt (mapPage kalloc s p v flags) q j =
      if q = tablePath v ∧ j = index 12 v then some (pageEntry p flags) else leafAt s q j := by
  let d₁ := descend kalloc s s.pml4 (index 39 v)
  let d₂ := descend kalloc d₁.1 d₁.2 (index 30 v)
  let d₃ := descend kalloc d₂.1 d₂.2 (index 21 v)
  obtain ⟨hT₂, hfollow₂, hgrows₂, hleaf₂⟩ := descend_dir hf hT v rfl rfl
    (Nat.le_trans (next_le_descend kalloc d₂.1 d₂.2 (index 21 v)) hn)
  have hroot₃ : d₃.1.pml4 = d₂.1.pml4 := descend_pml4 kalloc d₂.1 d₂.2 (index 21 v)
  have hnone : leafAt d₂.1 (dirPath v) (index 21 v) = none := by
    rw [hleaf₂ _ _ (by simp [dirPath]), hsmall]
  obtain ⟨hT₃, hfollow₃, hgrows₃, hleaf₃⟩ :=
    descend_spec hf hT₂ (by simp [dirPath]) hfollow₂ hnone hn
  rw [← hroot₃] at hfollow₃
  obtain ⟨hT', hleaf'⟩ := hT₃.storeLeaf (r := tablePath v) hfollow₃ (i := index 12 v)
    (.inr rfl) (present_pageEntry p flags)
  have hoff : ∀ q : List (Fin 512), q.length ≤ 3 → ¬ tablePath v ++ [index 12 v] <+: q := by
    intro q hq hpre
    have := hpre.length_le
    simp [tablePath] at this
    omega
  -- the leaf is behind every table
  have hfollow' : ∀ q : List (Fin 512), q.length ≤ 3 →
      follow child (mapPage kalloc s p v flags).mem (mapPage kalloc s p v flags).pml4 q =
        follow child d₃.1.mem d₃.1.pml4 q := by
    intro q hq
    exact (follow_put_leaf hT₃.unshared le_rfl hfollow₃ (fun h => absurd h (lt_irrefl 3)) hq).trans
      (if_neg (hoff q hq))
  have hgrows : Grows kalloc (tablePath v) s d₃.1 := hgrows₂.trans hgrows₃ (List.prefix_append _ _)
  refine ⟨hT', ⟨hgrows.pml4, hgrows.next, fun q hq => ?_⟩, ?_, fun q j hq => ?_⟩
  · rw [hfollow' q hq]
    exact hgrows.tables q hq
  · rw [hfollow' _ le_rfl, show follow child d₃.1.mem d₃.1.pml4 (tablePath v) = _ from hfollow₃]
    rfl
  · rw [← hleaf₂ q j hq, ← hleaf₃ q j hq]
    exact (hleaf' q j hq).trans (if_neg (hoff q hq))

end Fresh

theorem leafAt_of_follow (ht : follow child s.mem s.pml4 r = some t) (j : Fin 512) :
    leafAt s r j = if present (s.mem t j) && (r.length == 3 || large (s.mem t j)) then
      some (s.mem t j) else none := by
  rw [leafAt, entryAt_of_follow ht, Option.filter_some]

theorem leafAt_of_not_follow (ht : follow child s.mem s.pml4 r = none) (j : Fin 512) :
    leafAt s r j = none := by
  rw [leafAt, entryAt, ht]
  rfl

theorem Tree.writable_of_child (hT : Tree kalloc m n s) (hr : r.length ≤ 2)
    (ht : follow child s.mem s.pml4 r = some t) {f : Nat} (hc : child (s.mem t i) = some f) :
    writable (s.mem t i) = true := by
  obtain ⟨h40, he⟩ := hT.link_of_child hr (entryAt_of_follow ht i) hc
  rw [he, writable_entryOf h40 (by decide)]
  rfl

theorem walk_eq_bind (h : PhysMem) (root u : Nat) : walk h root u =
    (child (h root (index 39 u))).bind fun pdpt =>
      if large (h pdpt (index 30 u)) then
        leaf (h pdpt (index 30 u)) (2 ^ 30) u (writable (h root (index 39 u)))
      else (child (h pdpt (index 30 u))).bind fun pd =>
        if large (h pd (index 21 u)) then
          leaf (h pd (index 21 u)) (2 ^ 21) u
            (writable (h root (index 39 u)) && writable (h pdpt (index 30 u)))
        else (child (h pd (index 21 u))).bind fun pt =>
          leaf (h pt (index 12 u)) 4096 u (writable (h root (index 39 u)) &&
            writable (h pdpt (index 30 u)) && writable (h pd (index 21 u))) := rfl

/-- The processor's walk finds the leaf of the page table, or else that of the page directory. -/
theorem Tree.walk_eq (hT : Tree kalloc m n s) (u : Nat) : walk s.mem s.pml4 u =
    ((leafAt s (tablePath u) (index 12 u)).bind (leaf · 4096 u true)).or
      ((leafAt s (dirPath u) (index 21 u)).bind (leaf · (2 ^ 21) u true)) := by
  have hdir := follow_snoc child s.mem s.pml4 [index 39 u] (index 30 u)
  have htab := follow_snoc child s.mem s.pml4 (dirPath u) (index 21 u)
  change follow child s.mem s.pml4 (dirPath u) = _ at hdir
  change follow child s.mem s.pml4 (tablePath u) = _ at htab
  rw [walk_eq_bind]
  cases hc₁ : child (s.mem s.pml4 (index 39 u)) with
  | none =>
    have hdirNone : follow child s.mem s.pml4 (dirPath u) = none := by
      simp [dirPath, follow, hc₁]
    rw [hdirNone, Option.bind_none] at htab
    rw [leafAt_of_not_follow hdirNone, leafAt_of_not_follow htab]
    rfl
  | some pdpt =>
    have ht₁ : follow child s.mem s.pml4 [index 39 u] = some pdpt := by
      simp [follow, hc₁]
    rw [ht₁, Option.bind_some] at hdir
    have hw₁ := hT.writable_of_child (r := []) (by decide) rfl hc₁
    rw [Option.bind_some]
    cases hc₂ : child (s.mem pdpt (index 30 u)) with
    | none =>
      rw [hc₂] at hdir
      rw [hdir, Option.bind_none] at htab
      rw [leafAt_of_not_follow hdir, leafAt_of_not_follow htab]
      have habove := hT.leafAt_above (i := index 30 u) (r := [index 39 u]) (by simp)
      rw [leafAt_of_follow ht₁] at habove
      cases hl : large (s.mem pdpt (index 30 u)) with
      | true =>
        have hp : present (s.mem pdpt (index 30 u)) = false := by
          simpa [hl] using habove
        simp [leaf, hp]
      | false => simp
    | some pd =>
      rw [hc₂] at hdir
      rw [hdir, Option.bind_some] at htab
      have hw₂ := hT.writable_of_child (by simp) ht₁ hc₂
      have hl₂ := (child_eq_some hc₂).2.1
      have hleaf := leafAt_of_follow hdir (index 21 u)
      cases hc₃ : child (s.mem pd (index 21 u)) with
      | none =>
        rw [hc₃] at htab
        rw [leafAt_of_not_follow htab, hleaf]
        cases hl : large (s.mem pd (index 21 u)) with
        | true =>
          cases hp : present (s.mem pd (index 21 u)) with
          | true => simp [hl, hl₂, hw₁, hw₂]
          | false => simp [hl, hl₂, hp, leaf]
        | false => simp [hl, hl₂, hc₃, dirPath]
      | some pt =>
        rw [hc₃] at htab
        have hw₃ := hT.writable_of_child (by simp [dirPath]) hdir hc₃
        have hl₃ := (child_eq_some hc₃).2.1
        rw [hleaf, leafAt_of_follow htab]
        cases hp : present (s.mem pt (index 12 u)) with
        | true => simp [hl₂, hl₃, hc₃, hw₁, hw₂, hw₃, dirPath, tablePath]
        | false => simp [hl₂, hl₃, hc₃, hp, leaf, dirPath, tablePath]

/-- Addresses with the same leaf slot lie in the same page. -/
theorem tablePath_eq_iff {u v : Nat} (hu : Canonical u) (hv : Canonical v) :
    tablePath u = tablePath v ∧ index 12 u = index 12 v ↔ u / 4096 = v / 4096 := by
  rw [← index_eq_iff hu hv]
  simp [tablePath, and_assoc]

theorem dirPath_eq_iff {u v : Nat} (hu : Canonical u) (hv : Canonical v) :
    dirPath u = dirPath v ∧ index 21 u = index 21 v ↔ u / 2 ^ 21 = v / 2 ^ 21 := by
  rw [← index_eq_iff_large hu hv]
  simp [dirPath, and_assoc]

theorem tablePath_below_iff {u v : Nat} (hu : Canonical u) (hv : Canonical v) :
    tablePath v <+: tablePath u ↔ u / 2 ^ 21 = v / 2 ^ 21 := by
  rw [← index_eq_iff_large hu hv]
  constructor
  · intro h
    have heq := h.eq_of_length rfl
    simp only [tablePath, List.cons.injEq, and_true] at heq
    exact ⟨heq.1.symm, heq.2.1.symm, heq.2.2.symm⟩
  · rintro ⟨h₁, h₂, h₃⟩
    have heq : tablePath v = tablePath u := by rw [tablePath, tablePath, h₁, h₂, h₃]
    exact heq ▸ List.prefix_refl (tablePath v)

/-- Seen from one address, `map_page_2m` replaces whatever its region had. -/
theorem mapPage2m_leaves (hf : FreshFrames kalloc m n) (hT : Tree kalloc m n s) {p v flags : Nat}
    (hv : Canonical v) (hn : (mapPage2m kalloc s p v flags).next ≤ n) {u : Nat} (hu : Canonical u) :
    (leafAt (mapPage2m kalloc s p v flags) (dirPath u) (index 21 u) =
      if u / 2 ^ 21 = v / 2 ^ 21 then some (largeEntry p flags)
        else leafAt s (dirPath u) (index 21 u)) ∧
    leafAt (mapPage2m kalloc s p v flags) (tablePath u) (index 12 u) =
      if u / 2 ^ 21 = v / 2 ^ 21 then none else leafAt s (tablePath u) (index 12 u) := by
  obtain ⟨_, hleaf⟩ := mapPage2m_spec hf hT hn
  constructor
  · have hlen : ¬ tablePath v <+: dirPath u := by
      intro h
      exact absurd h.length_le (by simp [tablePath, dirPath])
    rw [hleaf _ _ (by simp [dirPath]), if_neg hlen]
    simp only [dirPath_eq_iff hu hv]
  · have hlen : ¬ (tablePath u = dirPath v ∧ index 12 u = index 21 v) := by
      rintro ⟨h, _⟩
      exact absurd (congrArg List.length h) (by simp [tablePath, dirPath])
    rw [hleaf _ _ (by simp [tablePath]), if_neg hlen]
    simp only [tablePath_below_iff hu hv]

theorem mapPage_pml4 (kalloc : Nat → Nat) (s : Pager) (p v : Nat) (flags : BitVec 32) :
    (mapPage kalloc s p v flags).pml4 = s.pml4 :=
  ((descend_pml4 _ _ _ _).trans (descend_pml4 _ _ _ _)).trans (descend_pml4 _ _ _ _)

theorem next_le_mapPage (kalloc : Nat → Nat) (s : Pager) (p v : Nat) (flags : BitVec 32) :
    s.next ≤ (mapPage kalloc s p v flags).next :=
  ((next_le_descend _ _ _ _).trans (next_le_descend _ _ _ _)).trans (next_le_descend _ _ _ _)

theorem next_le_mapPage2m (kalloc : Nat → Nat) (s : Pager) (p v flags : Nat) :
    s.next ≤ (mapPage2m kalloc s p v flags).next :=
  (next_le_descend _ _ _ _).trans (next_le_descend _ _ _ _)

private theorem flagBits_lt (flags : BitVec 32) : ((flags &&& 0xfff#32) ||| 3#32).toNat < 4096 := by
  rw [BitVec.toNat_or, BitVec.toNat_and]
  exact Nat.or_lt_two_pow (n := 12) (Nat.and_lt_two_pow _ (by decide)) (by decide)

/-- The leaf of a page-aligned address: its frame and the twelve flag bits. -/
theorem pageEntry_eq {p : Nat} (ha : p % 4096 = 0) (hp : p < 2 ^ 52) (flags : BitVec 32) :
    pageEntry p flags = entryOf (p / 4096) ((flags &&& 0xfff#32) ||| 3#32).toNat := by
  have hlow := flagBits_lt flags
  rw [pageEntry, ← or_eq_entryOf (by omega) hlow, BitVec.or_assoc]
  congr 1
  · congr 1
    omega
  · apply BitVec.eq_of_toNat_eq
    rw [BitVec.toNat_ofNat, Nat.mod_eq_of_lt (by omega), BitVec.toNat_or, BitVec.toNat_or,
      BitVec.toNat_setWidth, Nat.mod_eq_of_lt (by
        rw [BitVec.toNat_and]
        exact (Nat.and_lt_two_pow _ (by decide : (0xfff#32).toNat < 2 ^ 12)).trans (by decide))]
    rfl

/-- What the walk reads off such a leaf. -/
theorem leaf_pageEntry {p : Nat} (ha : p % 4096 = 0) (hp : p < 2 ^ 52) (flags : BitVec 32)
    (u : Nat) : leaf (pageEntry p flags) 4096 u true =
      some ⟨p + u % 4096, ((flags &&& 0xfff#32) ||| 3#32).toNat, true⟩ := by
  have hlow := flagBits_lt flags
  have hk : p / 4096 < 2 ^ 40 := by omega
  have hw : ((flags &&& 0xfff#32) ||| 3#32).toNat.testBit 1 = true := by
    rw [BitVec.testBit_toNat, BitVec.getLsbD_or]
    simp
  rw [leaf, if_pos (present_pageEntry p flags), pageEntry_eq ha hp, frameOf_entryOf hk hlow,
    entryOf_toNat hk hlow, writable_entryOf hk hlow, hw, Nat.mul_add_mod, Nat.mod_eq_of_lt hlow,
    Nat.mul_div_cancel _ (by decide), Nat.div_mul_cancel (Nat.dvd_of_mod_eq_zero ha)]
  rfl

end Tree

end NyaOS.Paging
