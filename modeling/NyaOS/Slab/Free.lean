import NyaOS.Slab.Small

/-! `kmem_cache_free` on a small-object cache. -/
namespace NyaOS.Slab
open Library.ByteMemory Library.LinkedList

theorem takenIn_erase {held : List Nat} {b p : Nat} :
    takenIn (held.erase b) p = (takenIn held p).erase b := List.erase_filter.symm

theorem takenIn_erase_of_ne {held : List Nat} {b q : Nat} (h : b / 4096 * 4096 ≠ q) :
    takenIn (held.erase b) q = takenIn held q := by
  rw [takenIn_erase, List.erase_of_not_mem]
  simp [takenIn, h]

theorem nodes_subset {c : SmallCache} {l l' : List Nat} (h : ∀ p ∈ l, p ∈ l') {x : Nat}
    (hx : x ∈ nodes c l) : x ∈ nodes c l' := by
  simp only [nodes, List.mem_cons, List.mem_append, List.mem_map] at hx ⊢
  rcases hx with hx | ⟨p, hp, hx⟩ | hx
  · exact .inl hx
  · exact .inr (.inl ⟨p, h p hp, hx⟩)
  · exact .inr (.inr hx)

section Push
variable {c : SmallCache} {m : Mem} (calls : List FrameCall) {held full part : List Nat}
  {free : Nat → List Nat} {p b : Nat} (h : Shape c m held full part free) (hb : b ∈ held)
  (hp : b / 4096 * 4096 = p)
include h hb hp

/-- Giving back a buffer puts it at the head of its slab's free list. -/
theorem pushFree_run : ∃ m', pushFree (header p) b c.size ⟨m, calls⟩ = some ((), ⟨m', calls⟩) ∧
    OnlyIn (fun x => (b + c.size ≤ x ∧ x < b + c.size + 8) ∨
      (header p + 24 ≤ x ∧ x < header p + 32) ∨ (header p + 40 ≤ x ∧ x < header p + 44)) m m' ∧
    SlabOk c.size m' p (b :: free p) (takenIn (held.erase b) p) := by
  have hmem : p ∈ full ++ part := hp ▸ h.held_pages b hb
  have hpage := h.pages p hmem
  have hslab := h.slabs p hmem
  have hbuf : b ∈ buffers c.size p := hp ▸ h.mem_held hb
  have hbound := buffer_bounds hbuf
  have hpos := hpage.pos
  have hlast := hpage.bound
  have hhp : header p = p + 4048 := rfl
  have hh : header p ≠ 0 := by omega
  have hb₀ : b ≠ 0 := by omega
  have htaken : b ∈ takenIn held p := List.mem_filter.mpr ⟨hb, by simpa using hp⟩
  have hperm := List.perm_cons_erase htaken
  have hlen := hperm.length_eq
  have hcount := hslab.length_eq
  have hmax := (bufCount_bounds c.size_le).2
  rw [List.length_cons] at hlen
  let m₁ := store m (b + c.size) 8 (load m (header p + 24) 8)
  let m₂ := store m₁ (header p + 24) 8 b
  have honly₂ : OnlyIn (fun x => (b + c.size ≤ x ∧ x < b + c.size + 8) ∨
      (header p + 24 ≤ x ∧ x < header p + 32)) m m₂ :=
    OnlyIn.trans (onlyIn_store _ fun x _ _ => .inl (by omega)) (onlyIn_store _ fun x _ _ => .inr (by omega))
  have hrefs : intAt m₂ (header p + 40) = (takenIn held p).length := by
    rw [intAt_congr fun x _ _ => honly₂ x (by omega), hslab.refs]
  let m₃ := store m₂ (header p + 40) 4 (BitVec.ofInt 32 ((takenIn held p).length - 1)).toNat
  have hlink : load m₃ (b + c.size) 8 = load m (header p + 24) 8 := by
    rw [load_store_off _ _ _ _ (by omega), load_store_off _ _ _ _ (by omega),
      load_store _ _ (load_lt m _ 8)]
  have hhead : load m₃ (header p + 24) 8 = b := by
    rw [load_store_off _ _ _ _ (by omega), load_store _ _ (by omega)]
  have honly : OnlyIn (fun x => (b + c.size ≤ x ∧ x < b + c.size + 8) ∨
      (header p + 24 ≤ x ∧ x < header p + 32) ∨ (header p + 40 ≤ x ∧ x < header p + 44)) m m₃ :=
    (honly₂.mono fun x _ => by omega).trans (onlyIn_store _ fun x _ _ => .inr (.inr (by omega)))
  refine ⟨m₃, ?_, honly, ⟨?_, ?_, ?_, ?_⟩⟩
  · rw [pushFree, bind_run (read_run hh), bind_run (write_run hb₀), bind_run (write_run hh)]
    change (readInt (header p) 40 >>= _) ⟨m₂, calls⟩ = _
    rw [bind_run (readInt_eq hh hrefs), writeInt_run hh]
  · rw [intAt_congr fun x _ _ => honly x (by omega), hslab.count]
  · rw [takenIn_erase, intAt_store _ _ (by omega) (by omega)]
    omega
  · refine ⟨hhead, ?_⟩
    rw [hlink]
    refine hslab.chain.congr fun b' hb' x _ _ => honly x ?_
    have hne : b ≠ b' := by
      rintro rfl
      exact h.free_not_held hmem hb' hb
    have hbuf' := hslab.mem_free hb'
    have := buffer_apart hbuf hbuf' hne
    have := buffer_bounds hbuf'
    omega
  · rw [takenIn_erase]
    exact List.perm_middle.symm.trans ((hperm.symm.append_left (free p)).trans hslab.parts)

/-- The slabs and the list after a buffer was given back. -/
theorem pushFree_spec : ∃ m', pushFree (header p) b c.size ⟨m, calls⟩ = some ((), ⟨m', calls⟩) ∧
    OnlyIn (Private c (full ++ part) held) m m' ∧
    (∀ off, off + 8 ≤ 72 → load m' (c.addr + off) 8 = load m (c.addr + off) 8) ∧
    Linked (nextOf m') (prevOf m') (nodes c (full ++ part)) ∧
    ∀ q ∈ full ++ part, SlabOk c.size m' q (Function.update free p (b :: free p) q)
      (takenIn (held.erase b) q) := by
  have hmem : p ∈ full ++ part := hp ▸ h.held_pages b hb
  have hpage := h.pages p hmem
  have hapart := hpage.apart
  have haligned := hpage.aligned
  have hbuf : b ∈ buffers c.size p := hp ▸ h.mem_held hb
  have hbound := buffer_bounds hbuf
  have hhp : header p = p + 4048 := rfl
  obtain ⟨m', hrun, honly, hslab⟩ := pushFree_run calls h hb hp
  refine ⟨m', hrun, honly.mono ?_, ?_, ?_, ?_⟩
  · rintro x (hx | hx | hx)
    · exact h.private_link hmem hbuf hx
    · exact h.private_header hmem (by omega)
    · exact h.private_header hmem (by omega)
  · exact fun off _ => honly.load fun x _ _ => by omega
  · refine linked_of_onlyIn h.linked honly fun y hy x hyx hx => ?_
    rw [(page_of_links h.pages hpage hy hyx (by omega)).2] at hyx
    unfold Links at hyx
    omega
  · intro q hq
    by_cases hqp : q = p
    · rw [hqp, Function.update_self]
      exact hslab
    · rw [Function.update_of_ne hqp, takenIn_erase_of_ne (by omega)]
      have := (h.pages q hq).aligned
      exact (h.slabs q hq).congr_page fun x _ _ _ => honly x (by omega)

end Push

/-- The pages after `p` moved from the full ones to the others. -/
theorem perm_refiled (f₁ f₂ part : List Nat) (p : Nat) :
    (f₁ ++ f₂ ++ p :: part).Perm (f₁ ++ p :: f₂ ++ part) :=
  List.perm_middle.trans (List.perm_middle.append_right part).symm

section Cases
variable {k : Machine} {c : SmallCache} {m m₁ : Mem} (calls : List FrameCall)
  {held full part : List Nat} {free : Nat → List Nat} {p b : Nat}

/-- What is left to do after `pushFree`, whose memory is `m₁`. -/
structure Pushed (c : SmallCache) (m m₁ : Mem) (held pages : List Nat) (free : Nat → List Nat)
    (p b : Nat) : Prop where
  cells : ∀ off, off + 8 ≤ 72 → load m₁ (c.addr + off) 8 = load m (c.addr + off) 8
  linked : Linked (nextOf m₁) (prevOf m₁) (nodes c pages)
  slabs : ∀ q ∈ pages, SlabOk c.size m₁ q (Function.update free p (b :: free p) q)
    (takenIn (held.erase b) q)

/-- The shape after the list was edited: `p` moved behind the full slabs or left the list. -/
private theorem shape_of_pushed {m' : Mem} {full' part' : List Nat}
    (h : Shape c m held full part free) (hpush : Pushed c m m₁ held (full ++ part) free p b)
    (hsub : ∀ q ∈ full' ++ part', q ∈ full ++ part) (hnd : (full' ++ part').Nodup)
    (honly : OnlyIn (ListCells c (full ++ part)) m₁ m')
    (hlinked : Linked (nextOf m') (prevOf m') (nodes c (full' ++ part')))
    (hfl : load m' (c.addr + 40) 8 = (part'.map header).headD (c.addr + 120))
    (hfull : ∀ q ∈ full', q ≠ p ∧ q ∈ full) (hpart : ∀ q ∈ part', q = p ∨ q ∈ part)
    (hheld : ∀ b' ∈ held.erase b, b' / 4096 * 4096 ∈ full' ++ part') :
    Shape c m' (held.erase b) full' part' (Function.update free p (b :: free p)) := by
  refine shape_of_edit h.pages hsub hnd ((hpush.cells 24 (by decide)).trans h.head)
    ((hpush.cells 32 (by decide)).trans h.tail) ((hpush.cells 56 (by decide)).trans h.size)
    (fun q hq => hpush.slabs q (hsub q hq)) honly hlinked hfl ?_ ?_ hheld
  · intro q hq
    rw [Function.update_of_ne (hfull q hq).1]
    exact h.full_taken q (hfull q hq).2
  · intro q hq
    by_cases hqp : q = p
    · rw [hqp, Function.update_self]
      exact List.cons_ne_nil b (free p)
    · rw [Function.update_of_ne hqp]
      exact h.part_free q ((hpart q hq).resolve_left hqp)

/-- A slab with no taken buffer leaves the list, provided `fl_ptr` is at another one. -/
theorem rmSlab_shape {r₁ r₂ : List Nat} (h : Shape c m held full (r₁ ++ p :: r₂) free)
    (hpush : Pushed c m m₁ held (full ++ (r₁ ++ p :: r₂)) free p b) (hr : r₁ ≠ [])
    (hempty : takenIn (held.erase b) p = []) :
    ∃ m', rmSlab (header p) ⟨m₁, calls⟩ = some ((), ⟨m', calls⟩) ∧
      OnlyIn (ListCells c (full ++ (r₁ ++ p :: r₂))) m₁ m' ∧
      Shape c m' (held.erase b) full (r₁ ++ r₂) (Function.update free p (b :: free p)) := by
  have hassoc : full ++ (r₁ ++ p :: r₂) = full ++ r₁ ++ p :: r₂ := (List.append_assoc ..).symm
  have hnd := h.nodup
  have hpages := h.pages
  have hlinked := hpush.linked
  rw [hassoc] at hnd hpages hlinked
  obtain ⟨m', hrun, honly, hlinked'⟩ := rmSlab_pages calls hnd hpages hlinked
  rw [← hassoc] at honly
  rw [List.append_assoc] at hlinked'
  obtain ⟨hnp, hnd'⟩ := List.nodup_cons.mp (List.nodup_middle.mp hnd)
  rw [List.append_assoc] at hnp hnd'
  refine ⟨m', hrun, honly.mono fun x hx => .inl hx, ?_⟩
  apply shape_of_pushed h hpush _ hnd' (honly.mono fun x hx => .inl hx) hlinked'
  · rw [field_of_links h.pages honly (by decide), hpush.cells 40 (by decide), h.flPtr]
    cases r₁ with
    | nil => exact absurd rfl hr
    | cons q r₁ => rfl
  · exact fun q hq => ⟨fun he => hnp (he ▸ List.mem_append_left _ hq), hq⟩
  · intro q hq
    rcases List.mem_append.mp hq with hq | hq
    · exact .inr (List.mem_append_left _ hq)
    · exact .inr (List.mem_append_right r₁ (List.mem_cons_of_mem p hq))
  · intro b' hb'
    have hne : b' / 4096 * 4096 ≠ p := fun he =>
      List.filter_eq_nil_iff.mp hempty b' hb' (decide_eq_true he)
    have hmem := h.held_pages b' (List.mem_of_mem_erase hb')
    rw [hassoc, List.mem_append, List.mem_cons] at hmem
    rw [← List.append_assoc, List.mem_append]
    exact hmem.imp_right fun hmem => hmem.resolve_left hne
  · intro q hq
    rw [hassoc, List.mem_append, List.mem_cons]
    rw [← List.append_assoc, List.mem_append] at hq
    exact hq.imp_right .inr

/-- `refile` reads the two counters. -/
private theorem refile_eq (hpush : Pushed c m m₁ held (full ++ part) free p b)
    (hp : p ∈ full ++ part) : refile c.addr (header p) ⟨m₁, calls⟩ =
      if free p = [] then (do
        rmSlab (header p)
        insertSlab (← read c.addr KmemCache.flPtr) (header p)
        write c.addr KmemCache.flPtr (header p) : Kernel Unit) ⟨m₁, calls⟩
      else some ((), ⟨m₁, calls⟩) := by
  have hslab := hpush.slabs p hp
  have hlen := hslab.length_eq
  rw [Function.update_self, List.length_cons] at hlen
  have hh : header p ≠ 0 := by unfold header; omega
  have hiff : ((takenIn (held.erase b) p).length : Int) = (bufCount c.size : Int) - 1 ↔ free p = [] := by
    rw [← List.length_eq_zero_iff]
    omega
  rw [refile, bind_run (readInt_eq hh hslab.refs), bind_run (readInt_eq hh hslab.count), ite_run]
  simp only [hiff]
  rfl

/-- A slab that was full goes before the slabs with free buffers, and `fl_ptr` to it. -/
theorem refile_shape {f₁ f₂ : List Nat} (h : Shape c m held (f₁ ++ p :: f₂) part free)
    (hpush : Pushed c m m₁ held (f₁ ++ p :: f₂ ++ part) free p b) :
    ∃ m', refile c.addr (header p) ⟨m₁, calls⟩ = some ((), ⟨m', calls⟩) ∧
      OnlyIn (ListCells c (f₁ ++ p :: f₂ ++ part)) m₁ m' ∧
      Shape c m' (held.erase b) (f₁ ++ f₂) (p :: part) (Function.update free p (b :: free p)) := by
  have hassoc : f₁ ++ p :: f₂ ++ part = f₁ ++ p :: (f₂ ++ part) := by simp
  have hperm := perm_refiled f₁ f₂ part p
  have hmem : ∀ q, q ∈ f₁ ++ f₂ ++ p :: part ↔ q ∈ f₁ ++ p :: f₂ ++ part := fun q => hperm.mem_iff
  have hnd := h.nodup
  have hpages := h.pages
  have hlinked := hpush.linked
  rw [hassoc] at hnd hpages hlinked
  have hnd' : (f₁ ++ f₂ ++ p :: part).Nodup := hperm.nodup_iff.mpr h.nodup
  have hnp := (List.nodup_cons.mp (List.nodup_middle.mp hnd')).1
  have hpages' : ∀ q ∈ f₁ ++ f₂ ++ p :: part, PageOk c q := fun q hq => h.pages q ((hmem q).mp hq)
  obtain ⟨m₂, hrun₂, honly₂, hlinked₂⟩ := rmSlab_pages calls hnd hpages hlinked
  rw [← List.append_assoc] at hlinked₂
  rw [← hassoc] at honly₂
  obtain ⟨m₃, hrun₃, honly₃, hlinked₃⟩ := insertSlab_pages calls hnd' hpages' hlinked₂
  have hfl : load m₂ (c.addr + 40) 8 = (part.map header).headD (c.addr + 120) := by
    rw [field_of_links h.pages honly₂ (by decide), hpush.cells 40 (by decide), h.flPtr]
  have honly : OnlyIn (ListCells c (f₁ ++ p :: f₂ ++ part)) m₁ (store m₃ (c.addr + 40) 8 (header p)) := by
    apply OnlyIn.trans (OnlyIn.trans (honly₂.mono fun x hx => .inl hx) (honly₃.mono _))
    · exact onlyIn_store _ fun x _ _ => .inr (by omega)
    · exact fun x ⟨y, hy, hyx⟩ => .inl ⟨y, nodes_subset (fun q => (hmem q).mp) hy, hyx⟩
  have hbound := (hpages p (by simp)).bound
  have hhp : header p = p + 4048 := rfl
  refine ⟨_, ?_, honly, ?_⟩
  · rw [refile_eq calls hpush (by simp), if_pos (h.full_taken p (by simp)), bind_run hrun₂,
      bind_run (read_eq c.addr_ne hfl), bind_run hrun₃, write_run c.addr_ne]
  · apply shape_of_pushed h hpush (fun q => (hmem q).mp) hnd' honly
      (Linked.store_flPtr hpages' hlinked₃) (load_store _ _ (by omega))
    · intro q hq
      exact ⟨fun he => hnp (he ▸ List.mem_append_left part hq),
        List.perm_middle.mem_iff.mpr (List.mem_cons_of_mem p hq)⟩
    · exact fun q hq => List.mem_cons.mp hq
    · exact fun b' hb' => (hmem _).mpr (h.held_pages b' (List.mem_of_mem_erase hb'))

/-- A slab that had free buffers stays where it is. -/
theorem refile_stay (h : Shape c m held full part free) (hp : p ∈ part)
    (hpush : Pushed c m m₁ held (full ++ part) free p b) :
    refile c.addr (header p) ⟨m₁, calls⟩ = some ((), ⟨m₁, calls⟩) ∧
      Shape c m₁ (held.erase b) full part (Function.update free p (b :: free p)) := by
  have hdisjoint := (List.nodup_append.mp h.nodup).2.2
  constructor
  · rw [refile_eq calls hpush (List.mem_append_right full hp), if_neg (h.part_free p hp)]
  · exact shape_of_pushed h hpush (fun q hq => hq) h.nodup (fun x _ => rfl) hpush.linked
      ((hpush.cells 40 (by decide)).trans h.flPtr) (fun q hq => ⟨hdisjoint q hq p hp, hq⟩)
      (fun q hq => .inr hq) fun b' hb' => h.held_pages b' (List.mem_of_mem_erase hb')

/-- `kmem_cache_free` up to the test of `refs`. -/
private theorem kmemCacheFree_run (h : Shape c m held full part free) (hb : b ∈ held)
    (hp : b / 4096 * 4096 = p) : ∃ m₁, OnlyIn (Private c (full ++ part) held) m m₁ ∧
      Pushed c m m₁ held (full ++ part) free p b ∧ kmemCacheFree k c.addr b ⟨m, calls⟩ =
        if takenIn (held.erase b) p = [] then
          (do rmSlab (header p); kfreeFrame (k.virtToPhys p) : Kernel Unit) ⟨m₁, calls⟩
        else refile c.addr (header p) ⟨m₁, calls⟩ := by
  obtain ⟨m₁, hrun, honly, hcells, hlinked, hslabs⟩ := pushFree_spec calls h hb hp
  have hslab := hslabs p (hp ▸ h.held_pages b hb)
  have hh : header p ≠ 0 := by unfold header; omega
  have hpage : b / Frames.pageSize * Frames.pageSize = p := hp
  refine ⟨m₁, honly, ⟨hcells, hlinked, hslabs⟩, ?_⟩
  rw [kmemCacheFree, bind_run (read_eq c.addr_ne h.size),
    if_pos (show c.size ≤ smallObjSize from c.size_le), bind_run (read_eq c.addr_ne h.size), hpage]
  change (pushFree (header p) b c.size >>= _) ⟨m, calls⟩ = _
  rw [bind_run hrun]
  change (readInt (header p) 40 >>= _) ⟨m₁, calls⟩ = _
  rw [bind_run (readInt_eq hh hslab.refs), ite_run]
  simp only [Int.natCast_eq_zero, List.length_eq_zero_iff]
  rfl

/-- The last taken buffer of a slab: the slab is among those with free buffers. -/
theorem last_taken (h : Shape c m held full part free) (hb : b ∈ held)
    (hp : b / 4096 * 4096 = p) :
    (intAt m (header p + 40) = 1 ↔ takenIn (held.erase b) p = []) ∧
      (intAt m (header p + 40) = 1 → p ∈ part) := by
  have hmem : p ∈ full ++ part := hp ▸ h.held_pages b hb
  have hslab := h.slabs p hmem
  have htaken : b ∈ takenIn held p := List.mem_filter.mpr ⟨hb, decide_eq_true hp⟩
  have hlen := (List.perm_cons_erase htaken).length_eq
  rw [← takenIn_erase, List.length_cons] at hlen
  rw [hslab.refs, ← List.length_eq_zero_iff]
  refine ⟨by omega, fun hone => (List.mem_append.mp hmem).resolve_left fun hfull => ?_⟩
  have hcount := hslab.length_eq
  rw [h.full_taken p hfull, List.length_nil] at hcount
  have := bufCount_bounds c.size_le
  omega

/-- A free that does not empty its slab: a full slab goes before those with free buffers, any
other stays where it is. -/
theorem kmemCacheFree_alive (h : Shape c m held full part free) (hb : b ∈ held)
    (hp : b / 4096 * 4096 = p) (halive : intAt m (header p + 40) ≠ 1) :
    ∃ m' full' part' free', kmemCacheFree k c.addr b ⟨m, calls⟩ = some ((), ⟨m', calls⟩) ∧
      ((∃ f₁ f₂, full = f₁ ++ p :: f₂ ∧ full' = f₁ ++ f₂ ∧ part' = p :: part) ∨
        p ∈ part ∧ full' = full ∧ part' = part) ∧
      OnlyIn (Private c (full ++ part) held) m m' ∧
      Shape c m' (held.erase b) full' part' free' := by
  obtain ⟨hiff, -⟩ := last_taken h hb hp
  obtain ⟨m₁, honly₁, hpush, hrun⟩ := kmemCacheFree_run (k := k) calls h hb hp
  have hsome : takenIn (held.erase b) p ≠ [] := mt hiff.mpr halive
  rw [hrun, if_neg hsome]
  rcases List.mem_append.mp (hp ▸ h.held_pages b hb : p ∈ full ++ part) with hfull | hpart
  · obtain ⟨f₁, f₂, rfl⟩ := List.append_of_mem hfull
    obtain ⟨m', href, honly, hshape⟩ := refile_shape calls h hpush
    exact ⟨m', _, _, _, href, .inl ⟨f₁, f₂, rfl, rfl, rfl⟩,
      honly₁.trans (honly.mono fun x hx => h.private_listCells hx), hshape⟩
  · obtain ⟨href, hshape⟩ := refile_stay calls h hpart hpush
    exact ⟨m₁, full, part, _, href, .inr ⟨hpart, rfl, rfl⟩, honly₁, hshape⟩

/-- `kmem_cache_free` keeps the shape, unless it releases the very slab `fl_ptr` is at. -/
theorem kmemCacheFree_spec (h : Shape c m held full part free) (hb : b ∈ held)
    (hp : b / 4096 * 4096 = p)
    (hother : intAt m (header p + 40) = 1 → load m (c.addr + 40) 8 ≠ header p) :
    ∃ m' full' part' free' gone, kmemCacheFree k c.addr b ⟨m, calls⟩ =
        some ((), ⟨m', (gone.map fun q => .free (k.virtToPhys q) 1) ++ calls⟩) ∧
      gone = (if intAt m (header p + 40) = 1 then [p] else []) ∧
      (∀ q, q ∈ full' ++ part' ↔ q ∈ full ++ part ∧ q ∉ gone) ∧
      OnlyIn (Private c (full ++ part) held) m m' ∧
      Shape c m' (held.erase b) full' part' free' := by
  obtain ⟨hiff, hpart⟩ := last_taken h hb hp
  obtain ⟨m₁, honly₁, hpush, hrun⟩ := kmemCacheFree_run (k := k) calls h hb hp
  have hcells : ∀ {m'}, OnlyIn (ListCells c (full ++ part)) m₁ m' →
      OnlyIn (Private c (full ++ part) held) m m' :=
    fun honly => honly₁.trans (honly.mono fun x hx => h.private_listCells hx)
  by_cases hone : intAt m (header p + 40) = 1
  · obtain ⟨r₁, r₂, rfl⟩ := List.append_of_mem (hpart hone)
    have hr : r₁ ≠ [] := by
      rintro rfl
      exact hother hone h.flPtr
    obtain ⟨m', hrm, honly, hshape⟩ := rmSlab_shape calls h hpush hr (hiff.mp hone)
    refine ⟨m', full, r₁ ++ r₂, _, _, ?_, rfl, ?_, hcells honly, hshape⟩
    · rw [hrun, if_pos (hiff.mp hone), if_pos hone, bind_run hrm]
      rfl
    · have hperm : (full ++ (r₁ ++ p :: r₂)).Perm (p :: (full ++ (r₁ ++ r₂))) :=
        (List.perm_middle.append_left full).trans List.perm_middle
      have hnp := (List.nodup_cons.mp (hperm.nodup_iff.mp h.nodup)).1
      intro q
      rw [if_pos hone, List.mem_singleton]
      constructor
      · exact fun hq => ⟨hperm.mem_iff.mpr (List.mem_cons_of_mem p hq), fun he => hnp (he ▸ hq)⟩
      · rintro ⟨hq, hne⟩
        exact (List.mem_cons.mp (hperm.mem_iff.mp hq)).resolve_left hne
  · obtain ⟨m', full', part', free', hrun', hmoved, honly, hshape⟩ :=
      kmemCacheFree_alive (k := k) calls h hb hp hone
    refine ⟨m', full', part', free', _, ?_, rfl, ?_, honly, hshape⟩
    · rw [hrun', if_neg hone]
      rfl
    · intro q
      rw [if_neg hone]
      rcases hmoved with ⟨f₁, f₂, rfl, rfl, rfl⟩ | ⟨-, rfl, rfl⟩
      · rw [(perm_refiled f₁ f₂ part p).mem_iff]
        simp
      · simp

/-- A free that releases the slab leaves `fl_ptr` where it was. -/
theorem kmemCacheFree_release (h : Shape c m held full part free) (hb : b ∈ held)
    (hp : b / 4096 * 4096 = p) (hone : intAt m (header p + 40) = 1) :
    ∃ m', kmemCacheFree k c.addr b ⟨m, calls⟩ =
        some ((), ⟨m', .free (k.virtToPhys p) 1 :: calls⟩) ∧
      ∀ off, off + 8 ≤ 72 → load m' (c.addr + off) 8 = load m (c.addr + off) 8 := by
  obtain ⟨hiff, -⟩ := last_taken h hb hp
  obtain ⟨m₁, -, hpush, hrun⟩ := kmemCacheFree_run (k := k) calls h hb hp
  obtain ⟨g₁, g₂, hlist⟩ := List.append_of_mem (hp ▸ h.held_pages b hb : p ∈ full ++ part)
  obtain ⟨m', hrm, honly, -⟩ := rmSlab_pages calls (hlist ▸ h.nodup) (hlist ▸ h.pages)
    (hlist ▸ hpush.linked)
  refine ⟨m', ?_, fun off hoff => ?_⟩
  · rw [hrun, if_pos (hiff.mp hone), bind_run hrm]
    rfl
  · rw [field_of_links (hlist ▸ h.pages) honly hoff, hpush.cells off hoff]

end Cases

end NyaOS.Slab
