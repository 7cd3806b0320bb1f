import NyaOS.Slab.LargeRun
import NyaOS.Slab.Safety

/-! `kmem_cache_reap`: it skips the slabs in use from `fl_ptr` on and releases all that follow,
so it is right when no slab in use stands behind an empty one. -/
namespace NyaOS.Slab
open Library.ByteMemory Library.LinkedList
open Frames (pageSize)

/-- Following `next` from each of the slabs leads to the one after it, from the last to `t`. -/
def Follows (m : Mem) (t : Nat) : List Nat → Prop
  | [] => True
  | h :: hs => h ≠ 0 ∧ h ≠ t ∧ nextOf m h = hs.headD t ∧ Follows m t hs

theorem Follows.of_append {m : Mem} {t : Nat} {hs₁ hs₂ : List Nat} (h : Follows m t (hs₁ ++ hs₂)) :
    Follows m t hs₂ := by
  induction hs₁ with
  | nil => exact h
  | cons h₁ hs₁ ih => exact ih h.2.2.2

theorem follows_of_linked {m : Mem} {t : Nat} {l hs : List Nat}
    (h : Linked (nextOf m) (prevOf m) (l ++ (hs ++ [t]))) (hne : ∀ h ∈ hs, h ≠ 0 ∧ h ≠ t) :
    Follows m t hs := by
  induction hs generalizing l with
  | nil => trivial
  | cons h₁ hs ih =>
    obtain ⟨hhead, hrest⟩ := List.forall_mem_cons.mp hne
    refine ⟨hhead.1, hhead.2, ?_, ?_⟩
    · cases hs with
      | nil => exact (linked_append_iff.mp h).2.1.1
      | cons h₂ hs => exact (linked_append_iff.mp h).2.1.1
    · rw [List.cons_append, ← List.singleton_append, ← List.append_assoc] at h
      exact ih h hrest

section Loops
variable {cache t : Nat} {m : Mem} (calls : List FrameCall) (hc : cache ≠ 0)
  (ht : load m (cache + 32) 8 = t)
include hc ht

/-- The first loop stops at the first slab that is not in use. -/
theorem reapSkip_run {hs₁ hs₂ : List Nat} (hwalk : Follows m t (hs₁ ++ hs₂))
    (h₁ : ∀ h ∈ hs₁, 0 < intAt m (h + 40)) (h₂ : ∀ h ∈ hs₂, intAt m (h + 40) = 0) {fuel : Nat}
    (hfuel : hs₁.length < fuel) :
    reapSkip cache fuel ((hs₁ ++ hs₂).headD t) ⟨m, calls⟩ = some (hs₂.headD t, ⟨m, calls⟩) := by
  induction hs₁ generalizing fuel with
  | nil =>
    obtain ⟨fuel, rfl⟩ := Nat.exists_eq_succ_of_ne_zero (by omega : fuel ≠ 0)
    rw [reapSkip, List.nil_append]
    cases hs₂ with
    | nil =>
      rw [List.headD_nil]
      by_cases ht₀ : t = 0
      · rw [if_pos ht₀]
        rfl
      · rw [if_neg ht₀, bind_run (read_eq hc ht), if_pos rfl]
        rfl
    | cons h hs₂ =>
      obtain ⟨hne, htail, -, -⟩ := hwalk
      have hrefs := h₂ h (.head _)
      rw [List.headD_cons, if_neg hne, bind_run (read_eq hc ht), if_neg htail,
        bind_run (readInt_eq hne hrefs), if_neg (by decide)]
      rfl
  | cons h hs₁ ih =>
    obtain ⟨fuel, rfl⟩ := Nat.exists_eq_succ_of_ne_zero (by omega : fuel ≠ 0)
    obtain ⟨hne, htail, hnext, hrest⟩ := hwalk
    obtain ⟨hrefs, h₁⟩ := List.forall_mem_cons.mp h₁
    rw [reapSkip, List.cons_append, List.headD_cons, if_neg hne, bind_run (read_eq hc ht),
      if_neg htail, bind_run (readInt_run hne), if_pos hrefs, bind_run (read_eq hne hnext)]
    exact ih hrest h₁ (Nat.lt_of_succ_lt_succ hfuel)

/-- The other loops release every slab that is left. -/
theorem reapFrom_run {release : Nat → Kernel Unit} {freed : Nat → List FrameCall} {hs : List Nat}
    (hrel : ∀ h ∈ hs, ∀ calls, release h ⟨m, calls⟩ = some ((), ⟨m, freed h ++ calls⟩))
    (hwalk : Follows m t hs) {fuel : Nat} (hfuel : hs.length < fuel) :
    reapFrom cache release fuel (hs.headD t) ⟨m, calls⟩ =
      some ((), ⟨m, hs.reverse.flatMap freed ++ calls⟩) := by
  induction hs generalizing fuel calls with
  | nil =>
    obtain ⟨fuel, rfl⟩ := Nat.exists_eq_succ_of_ne_zero (by omega : fuel ≠ 0)
    rw [reapFrom, List.headD_nil]
    by_cases ht₀ : t = 0
    · rw [if_pos ht₀]
      rfl
    · rw [if_neg ht₀, bind_run (read_eq hc ht), if_pos rfl]
      rfl
  | cons h hs ih =>
    obtain ⟨fuel, rfl⟩ := Nat.exists_eq_succ_of_ne_zero (by omega : fuel ≠ 0)
    obtain ⟨hne, htail, hnext, hrest⟩ := hwalk
    obtain ⟨hhead, hrel⟩ := List.forall_mem_cons.mp hrel
    rw [reapFrom, List.headD_cons, if_neg hne, bind_run (read_eq hc ht), if_neg htail,
      bind_run (read_eq hne hnext), bind_run (hhead calls),
      ih (freed h ++ calls) hrel hrest (Nat.lt_of_succ_lt_succ hfuel), List.reverse_cons,
      List.flatMap_append, List.flatMap_singleton, List.append_assoc]

end Loops

/-- Distinct addresses are fewer than there are addresses. -/
theorem length_lt_of_nodup {t : Nat} {hs : List Nat} (hnd : (t :: hs).Nodup)
    (hlt : ∀ h ∈ t :: hs, h < 2 ^ 64) : hs.length < 2 ^ 64 := by
  have hsub : t :: hs ⊆ List.range (2 ^ 64) := fun h hh => List.mem_range.mpr (hlt h hh)
  have hle := (List.subperm_of_subset hnd hsub).length_le
  rwa [List.length_range] at hle

/-- `kmem_cache_reap` on a list in which the slabs from `fl_ptr` on are first those in use, then
the empty ones: it releases exactly these. -/
theorem kmemCacheReap_run (k : Machine) {cache t size : Nat} {m : Mem} (calls : List FrameCall)
    {l used empty : List Nat} (freed : Nat → List FrameCall) (hc : cache ≠ 0)
    (ht : load m (cache + 32) 8 = t) (hsize : load m (cache + 56) 8 = size)
    (hfl : load m (cache + 40) 8 = (used ++ empty).headD t)
    (hheaders : Headers (l ++ (used ++ empty ++ [t])))
    (hlinked : Linked (nextOf m) (prevOf m) (l ++ (used ++ empty ++ [t])))
    (hused : ∀ h ∈ used, 0 < intAt m (h + 40)) (hempty : ∀ h ∈ empty, intAt m (h + 40) = 0)
    (hrel : ∀ h ∈ empty, ∀ calls, (if size ≤ smallObjSize then
        kfreeFrame (k.virtToPhys (h / pageSize * pageSize)) else freeLargeSlab k cache h) ⟨m, calls⟩ =
      some ((), ⟨m, freed h ++ calls⟩)) :
    kmemCacheReap k cache ⟨m, calls⟩ = some ((), ⟨m, empty.reverse.flatMap freed ++ calls⟩) := by
  have hnd := (List.nodup_append.mp hheaders.nodup).2.1
  have hndt : (t :: (used ++ empty)).Nodup := List.perm_append_comm.nodup_iff.mp hnd
  have hbounds : ∀ h ∈ t :: (used ++ empty), h ≠ 0 ∧ h < 2 ^ 64 := by
    intro h hh
    have := hheaders.bounds h (List.mem_append_right l (List.perm_append_comm.mem_iff.mpr hh))
    omega
  have hwalk : Follows m t (used ++ empty) := by
    refine follows_of_linked hlinked fun h hh => ⟨(hbounds h (.tail _ hh)).1, ?_⟩
    rintro rfl
    exact (List.nodup_cons.mp hndt).1 hh
  have hlen := length_lt_of_nodup hndt fun h hh => (hbounds h hh).2
  rw [List.length_append] at hlen
  have hskip : reapSkip cache (2 ^ 64) ((used ++ empty).headD t) ⟨m, calls⟩ = _ :=
    reapSkip_run calls hc ht hwalk hused hempty (by omega)
  rw [kmemCacheReap, bind_run (read_eq hc hfl), bind_run hskip, bind_run (read_eq hc hsize)]
  by_cases hsmall : size ≤ smallObjSize
  · rw [if_pos hsmall]
    simp only [if_pos hsmall] at hrel
    exact reapFrom_run calls hc ht hrel hwalk.of_append (by omega)
  · rw [if_neg hsmall]
    simp only [if_neg hsmall] at hrel
    exact reapFrom_run calls hc ht hrel hwalk.of_append (by omega)

/-! Small-object caches. -/

/-- The invariant behind reaping: of the slabs with free buffers, those in use come first. -/
def Tidy (k : Machine) (c : SmallCache) (s : State) : Prop :=
  ∃ full used empty free, Shape c s.world.mem s.held full (used ++ empty) free ∧
    (∀ p ∈ full ++ (used ++ empty), Owned s.world.calls (k.virtToPhys p)) ∧
    (∀ p ∈ used, takenIn s.held p ≠ []) ∧ ∀ p ∈ empty, takenIn s.held p = []

/-- No free may empty its slab. -/
def KeepsAlive (m : Mem) (b : Nat) : Prop := refsOf m (pageOf b) ≠ 1

section Small
variable {k : Machine} {c : SmallCache} {w : World} {held : List Nat} {s : State}

theorem Shape.start (h : Initialised w.mem c.addr c.size) : Shape c w.mem [] [] [] fun _ => [] := by
  have hlinked : Linked (nextOf w.mem) (prevOf w.mem) (nodes c ([] ++ [])) :=
    List.isChain_pair.mpr ⟨h.next, h.prev⟩
  exact ⟨by simp, by simp, h.head, h.tail, h.size, h.flPtr, hlinked, by simp, by simp, by simp, by simp⟩

theorem Tidy.start (h : Initialised w.mem c.addr c.size) : Tidy k c ⟨w, []⟩ :=
  ⟨[], [], [], fun _ => [], .start h, by simp, by simp, by simp⟩

theorem Tidy.client (h : Tidy k c ⟨w, held⟩) {m' : Mem}
    (hm : OnlyIn (Foreign k c ⟨w, held⟩) w.mem m') : Tidy k c ⟨⟨m', w.calls⟩, held⟩ := by
  obtain ⟨full, used, empty, free, hshape, hown, hused, hempty⟩ := h
  refine ⟨full, used, empty, free, hshape.congr fun x hx => hm x fun hf => ?_, hown, hused, hempty⟩
  exact not_private_of_foreign (s := ⟨w, held⟩) hshape hown hf hx

theorem Tidy.grow (h : Tidy k c ⟨w, held⟩) (hf : k.Fresh c w) :
    ∃ w', kmemCacheGrow k c.addr w = some ((), w') ∧ Tidy k c ⟨w', held⟩ := by
  obtain ⟨full, used, empty, free, hshape, hown, hused, hempty⟩ := h
  have hnew := fresh_page_new hown hf
  obtain ⟨m', hrun, -, hshape'⟩ := kmemCacheGrow_spec hshape hf rfl hnew
  rw [List.append_assoc] at hshape'
  refine ⟨_, hrun, full, used, _, _, hshape', ?_, hused, ?_⟩
  · have howned := owned_fresh hf hown rfl
    rwa [List.append_assoc, List.append_assoc] at howned
  · intro p hp
    rcases List.mem_append.mp hp with hp | hp
    · exact hempty p hp
    · rw [List.mem_singleton.mp hp]
      exact hshape.takenIn_new hnew

/-- Taking a buffer from the first slab with free buffers. -/
private theorem tidy_take (full bs : List Nat) {used empty rest : List Nat} {b p : Nat}
    (hlist : used ++ empty = p :: rest) (hb : b / 4096 * 4096 = p)
    (hnp : p ∉ rest) (hused : ∀ q ∈ used, takenIn held q ≠ [])
    (hempty : ∀ q ∈ empty, takenIn held q = []) :
    ∃ full' used' empty', full' = (if bs = [] then full ++ [p] else full) ∧
      used' ++ empty' = (if bs = [] then rest else p :: rest) ∧
      (∀ q ∈ used', takenIn (b :: held) q ≠ []) ∧ ∀ q ∈ empty', takenIn (b :: held) q = [] := by
  -- The slabs behind the first one keep their counters.
  obtain ⟨used₁, empty₁, hrest, hused₁, hempty₁⟩ : ∃ used₁ empty₁, used₁ ++ empty₁ = rest ∧
      (∀ q ∈ used₁, takenIn held q ≠ []) ∧ ∀ q ∈ empty₁, takenIn held q = [] := by
    cases used with
    | nil =>
      rw [List.nil_append] at hlist
      subst hlist
      exact ⟨[], rest, rfl, List.forall_mem_nil _, (List.forall_mem_cons.mp hempty).2⟩
    | cons q used =>
      obtain ⟨rfl, rfl⟩ := List.cons_eq_cons.mp hlist
      exact ⟨used, empty, rfl, (List.forall_mem_cons.mp hused).2, hempty⟩
  have hother : ∀ q ∈ rest, takenIn (b :: held) q = takenIn held q := fun q hq =>
    takenIn_cons_of_ne fun he => hnp (hb ▸ he ▸ hq)
  have hused₂ : ∀ q ∈ used₁, takenIn (b :: held) q ≠ [] := by
    intro q hq
    rw [hother q (hrest ▸ List.mem_append_left _ hq)]
    exact hused₁ q hq
  have hempty₂ : ∀ q ∈ empty₁, takenIn (b :: held) q = [] := by
    intro q hq
    rw [hother q (hrest ▸ List.mem_append_right _ hq)]
    exact hempty₁ q hq
  by_cases hbs : bs = []
  · refine ⟨_, used₁, empty₁, rfl, ?_, hused₂, hempty₂⟩
    rw [if_pos hbs, hrest]
  · refine ⟨_, p :: used₁, empty₁, rfl, ?_, ?_, hempty₂⟩
    · rw [if_neg hbs, List.cons_append, hrest]
    · refine List.forall_mem_cons.mpr ⟨?_, hused₂⟩
      rw [takenIn_cons_self hb]
      exact List.cons_ne_nil _ _

theorem Tidy.alloc (h : Tidy k c ⟨w, held⟩)
    (hf : flPtrOf c w.mem = load w.mem (c.addr + KmemCache.tail) 8 → k.Fresh c w) :
    ∃ b w', kmemCacheAlloc k c.addr w = some (b, w') ∧ Tidy k c ⟨w', b :: held⟩ := by
  obtain ⟨full, used, empty, free, hshape, hown, hused, hempty⟩ := h
  have hfresh : used ++ empty = [] → k.Fresh c w := by
    intro hnil
    have hfl := hshape.flPtr
    rw [hnil] at hfl
    exact hf (hfl.trans hshape.tail.symm)
  have hnew : used ++ empty = [] → k.kalloc w.calls.length + k.offset ∉ full := fun hnil hmem =>
    fresh_page_new hown (hfresh hnil) (List.mem_append_left _ hmem)
  obtain ⟨m', b, bs, p, rest, free', new, hrun, hnewEq, hb, hlist, hpage, -, hshape'⟩ :=
    kmemCacheAlloc_first (k := k) w.calls hshape fun hnil => ⟨hfresh hnil, hnew hnil⟩
  have hnews : ∀ q ∈ new.map (· + k.offset), takenIn held q = [] := by
    intro q hq
    rw [hnewEq] at hq
    split at hq
    · next hnil =>
      rw [List.map_singleton, List.mem_singleton] at hq
      rw [hq]
      exact hshape.takenIn_new (by rw [hnil, List.append_nil]; exact hnew hnil)
    · cases hq
  have hparts := full_append_part bs full rest p
  have hnp : p ∉ rest := by
    have hnd := hshape'.nodup
    rw [hparts, List.nodup_append, List.nodup_cons] at hnd
    exact hnd.2.1.1
  rw [List.append_assoc] at hlist
  obtain ⟨full', used', empty', hfull', hpart', hused', hempty'⟩ := tidy_take full bs hlist
    hpage hnp hused (List.forall_mem_append.mpr ⟨hempty, hnews⟩)
  rw [← hfull', ← hpart'] at hshape'
  refine ⟨b, _, hrun, full', used', empty', free', hshape', ?_, hused', hempty'⟩
  rw [hfull', hpart', hparts, ← hlist, ← List.append_assoc used, ← List.append_assoc full, hnewEq]
  split
  · next hnil => exact owned_fresh (hfresh hnil) hown rfl
  · intro q hq
    rw [List.map_nil, List.append_nil] at hq
    exact hown q hq

theorem Tidy.free {b : Nat} (h : Tidy k c ⟨w, held⟩) (hb : b ∈ held) (halive : KeepsAlive w.mem b) :
    ∃ w', kmemCacheFree k c.addr b w = some ((), w') ∧ Tidy k c ⟨w', held.erase b⟩ := by
  obtain ⟨full, used, empty, free, hshape, hown, hused, hempty⟩ := h
  obtain ⟨hiff, -⟩ := last_taken hshape hb rfl
  have hsome : takenIn (held.erase b) (b / 4096 * 4096) ≠ [] := mt hiff.mpr halive
  have hother : ∀ q, takenIn held q ≠ [] → takenIn (held.erase b) q ≠ [] := by
    intro q hq
    by_cases hqb : q = b / 4096 * 4096
    · rw [hqb]
      exact hsome
    · rw [takenIn_erase_of_ne (Ne.symm hqb)]
      exact hq
  have hempty' : ∀ q ∈ empty, takenIn (held.erase b) q = [] := by
    intro q hq
    rw [takenIn_erase, hempty q hq]
    rfl
  obtain ⟨m', full', part', free', hrun, hmoved, -, hshape'⟩ :=
    kmemCacheFree_alive (k := k) w.calls hshape hb rfl halive
  rcases hmoved with ⟨f₁, f₂, rfl, rfl, rfl⟩ | ⟨-, rfl, rfl⟩
  · rw [← List.cons_append] at hshape'
    refine ⟨_, hrun, f₁ ++ f₂, _ :: used, empty, free', hshape', fun q hq => hown q ?_, ?_, hempty'⟩
    · rwa [List.cons_append, (perm_refiled f₁ f₂ (used ++ empty) _).mem_iff] at hq
    · exact List.forall_mem_cons.mpr ⟨hsome, fun q hq => hother q (hused q hq)⟩
  · exact ⟨_, hrun, full', used, empty, free', hshape', hown, fun q hq => hother q (hused q hq),
      hempty'⟩

/-- Every call keeps the slabs in use before the empty ones. -/
theorem Step.tidy {s s' : State} (hstep : Step k c KeepsAlive s s') (h : Tidy k c s) : Tidy k c s' := by
  cases hstep with
  | grow hfresh hrun =>
    obtain ⟨w', hrun', htidy⟩ := h.grow hfresh
    rw [hrun] at hrun'
    cases hrun'
    exact htidy
  | alloc hfresh hrun =>
    obtain ⟨b, w', hrun', htidy⟩ := h.alloc hfresh
    rw [hrun] at hrun'
    cases hrun'
    exact htidy
  | free hb hmay hrun =>
    obtain ⟨w', hrun', htidy⟩ := h.free hb hmay
    rw [hrun] at hrun'
    cases hrun'
    exact htidy
  | client hm => exact h.client hm

theorem Reach.tidy {s₀ : State} (hr : Reach k c KeepsAlive s₀ s) (h : Tidy k c s₀) : Tidy k c s := by
  induction hr with
  | refl => exact h
  | tail _ hstep ih => exact hstep.tidy ih

/-- `kmem_cache_reap` gives back the frame of every linked slab with `refs = 0`, each once, and of
no slab with a held buffer. -/
def ReapsSmall (k : Machine) (c : SmallCache) (s : State) : Prop :=
  ∃ pages released : List Nat,
    (headOf c s.world.mem :: (pages.map header ++ [tailOf c s.world.mem])).Nodup ∧
    Linked (nextOf s.world.mem) (prevOf s.world.mem)
      (headOf c s.world.mem :: (pages.map header ++ [tailOf c s.world.mem])) ∧
    kmemCacheReap k c.addr s.world = some ((), ⟨s.world.mem,
      (released.map fun p => .free (k.virtToPhys p) 1).reverse ++ s.world.calls⟩) ∧
    released.Nodup ∧ (∀ p, p ∈ released ↔ p ∈ pages ∧ refsOf s.world.mem p = 0) ∧
    ∀ b ∈ s.held, pageOf b ∉ released

/-- The counters tell the empty slabs. -/
theorem Shape.refs_zero_iff {m : Mem} {full used empty : List Nat} {free : Nat → List Nat}
    (h : Shape c m held full (used ++ empty) free) (hused : ∀ p ∈ used, takenIn held p ≠ [])
    (hempty : ∀ p ∈ empty, takenIn held p = []) :
    (∀ p ∈ full ++ used, 0 < refsOf m p) ∧ ∀ p ∈ empty, refsOf m p = 0 := by
  have hrefs : ∀ p ∈ full ++ (used ++ empty), refsOf m p = (takenIn held p).length :=
    fun p hp => (h.slabs p hp).refs
  constructor
  · intro p hp
    have hpos : 0 < (takenIn held p).length := by
      rcases List.mem_append.mp hp with hp | hp
      · have hlen := (h.slabs p (List.mem_append_left _ hp)).length_eq
        have hcount := bufCount_bounds c.size_le
        rw [h.full_taken p hp, List.length_nil] at hlen
        omega
      · exact List.length_pos_iff.mpr (hused p hp)
    rw [hrefs p (by rw [← List.append_assoc]; exact List.mem_append_left _ hp)]
    omega
  · intro p hp
    rw [hrefs p (List.mem_append_right _ (List.mem_append_right _ hp)), hempty p hp]
    rfl

theorem Shape.reap {m : Mem} (calls : List FrameCall) {full used empty : List Nat}
    {free : Nat → List Nat} (h : Shape c m held full (used ++ empty) free)
    (hused : ∀ p ∈ used, takenIn held p ≠ []) (hempty : ∀ p ∈ empty, takenIn held p = []) :
    kmemCacheReap k c.addr ⟨m, calls⟩ = some ((), ⟨m,
      (empty.map fun p => .free (k.virtToPhys p) 1).reverse ++ calls⟩) := by
  obtain ⟨hbusy, hidle⟩ := h.refs_zero_iff hused hempty
  have hnodes : nodes c (full ++ (used ++ empty)) = ((c.addr + 72) :: full.map header) ++
      (used.map header ++ empty.map header ++ [c.addr + 120]) := by
    rw [nodes, List.map_append, List.map_append, List.cons_append, List.append_assoc]
  have hheaders := headers_nodes h.nodup h.pages
  have hlinked := h.linked
  have hfl := h.flPtr
  rw [hnodes] at hlinked hheaders
  rw [List.map_append] at hfl
  have hrun := kmemCacheReap_run k calls
    (fun h => [.free (k.virtToPhys (h / pageSize * pageSize)) 1]) c.addr_ne h.tail h.size hfl
    hheaders hlinked ?_ ?_ ?_
  · rw [hrun, ← List.map_reverse, ← List.map_reverse, List.flatMap_map, List.map_eq_flatMap]
    congr 4
    refine List.flatMap_congr fun p hp => ?_
    have hp' : p ∈ full ++ (used ++ empty) :=
      List.mem_append_right _ (List.mem_append_right _ (List.mem_reverse.mp hp))
    have hpage : header p / pageSize * pageSize = p := pageOf_header (h.pages p hp').aligned
    rw [hpage]
  · intro x hx
    obtain ⟨p, hp, rfl⟩ := List.mem_map.mp hx
    exact hbusy p (List.mem_append_right _ hp)
  · intro x hx
    obtain ⟨p, hp, rfl⟩ := List.mem_map.mp hx
    exact hidle p hp
  · intro x hx calls
    rw [if_pos (show c.size ≤ smallObjSize from c.size_le)]
    rfl

theorem Tidy.reap (h : Tidy k c s) : ReapsSmall k c s := by
  obtain ⟨full, used, empty, free, hshape, -, hused, hempty⟩ := h
  obtain ⟨hbusy, hidle⟩ := hshape.refs_zero_iff hused hempty
  obtain ⟨-, hnd, -⟩ := List.nodup_append.mp hshape.nodup
  refine ⟨full ++ (used ++ empty), empty, ?_, ?_, hshape.reap s.world.calls hused hempty,
    (List.nodup_append.mp hnd).2.1, ?_, ?_⟩
  · rw [hshape.nodes_eq]
    exact (headers_nodes hshape.nodup hshape.pages).nodup
  · rw [hshape.nodes_eq]
    exact hshape.linked
  · intro p
    constructor
    · exact fun hp => ⟨List.mem_append_right _ (List.mem_append_right _ hp), hidle p hp⟩
    · rintro ⟨hp, hzero⟩
      rw [← List.append_assoc] at hp
      refine (List.mem_append.mp hp).resolve_left fun hbad => ?_
      have := hbusy p hbad
      omega
  · intro b hb hp
    have htaken : b ∈ takenIn s.held (pageOf b) := List.mem_filter.mpr ⟨hb, decide_eq_true rfl⟩
    rw [hempty _ hp] at htaken
    cases htaken

end Small

/-! Large-object caches. -/

/-- The calls `_free_large_slab` makes. -/
def releaseCalls (k : Machine) (m : Mem) (cache slab : Nat) : List FrameCall :=
  let bufCnt := (intAt m (slab + KmemSlab.bufCnt) % 2 ^ 64).toNat
  [.free (k.virtToPhys slab) ((KmemSlab.size + bufCnt * KmemBufctl.size) / pageSize),
    .free (k.virtToPhys (load m (slab + KmemSlab.pstart) 8 / pageSize * pageSize))
      ((bufCnt * load m (cache + KmemCache.size) 8 + pageSize - 1) / pageSize)]

theorem freeLargeSlab_run (k : Machine) (m : Mem) (calls : List FrameCall) {cache slab : Nat}
    (hc : cache ≠ 0) (hs : slab ≠ 0) :
    freeLargeSlab k cache slab ⟨m, calls⟩ = some ((), ⟨m, releaseCalls k m cache slab ++ calls⟩) := by
  rw [freeLargeSlab, bind_run (readInt_run hs), bind_run (read_run hs), bind_run (read_run hc)]
  rfl

/-- The first frame of a large slab's buffers, from its header, and its counter. -/
def startOf (m : Mem) (slab : Nat) : Nat := load m (slab + KmemSlab.pstart) 8
def slabRefs (m : Mem) (slab : Nat) : Int := intAt m (slab + KmemSlab.refs)

/-- `kmem_cache_reap` passes every linked slab with `refs = 0` to `_free_large_slab`, each once, and
no slab with a held buffer. -/
def ReapsLarge (k : Machine) (c : LargeCache) (s : State) : Prop :=
  ∃ slabs released : List Nat,
    (load s.world.mem (c.addr + KmemCache.head) 8 ::
      (slabs ++ [load s.world.mem (c.addr + KmemCache.tail) 8])).Nodup ∧
    Linked (nextOf s.world.mem) (prevOf s.world.mem) (load s.world.mem (c.addr + KmemCache.head) 8 ::
      (slabs ++ [load s.world.mem (c.addr + KmemCache.tail) 8])) ∧
    kmemCacheReap k c.addr s.world = some ((), ⟨s.world.mem,
      released.reverse.flatMap (releaseCalls k s.world.mem c.addr) ++ s.world.calls⟩) ∧
    released.Nodup ∧ (∀ h, h ∈ released ↔ h ∈ slabs ∧ slabRefs s.world.mem h = 0) ∧
    ∀ b ∈ s.held, ∀ h ∈ released, ¬ (startOf s.world.mem h ≤ b ∧
      b < startOf s.world.mem h + largeFrames c.size * pageSize)

/-- The invariant behind reaping: of the slabs with free buffers, only the first is in use. -/
def LargeTidy (k : Machine) (c : LargeCache) (s : State) : Prop :=
  ∃ full part, LargeInv k c [] full part s ∧ FirstOnly part

section Large
variable {k : Machine} {c : LargeCache} {w : World} {s : State} {full used empty : List LargeSlab}

theorem LargeInv.start (h : Initialised w.mem c.addr c.size) : LargeInv k c [] [] [] ⟨w, []⟩ := by
  have hlinked : Linked (nextOf w.mem) (prevOf w.mem) (largeNodes c ([] ++ [])) :=
    List.isChain_pair.mpr ⟨h.next, h.prev⟩
  exact ⟨⟨by simp [ctlPages, bufPages], by simp [ctlPages, bufPages], h.head, h.tail, h.size, h.flPtr,
    hlinked, by simp, by simp, by simp, by simp⟩, by simp [ctlPages, bufPages]⟩

theorem LargeReach.tidy {s₀ : State} (hr : LargeReach k c False s₀ s) (h : LargeTidy k c s₀) :
    LargeTidy k c s := by
  induction hr with
  | refl => exact h
  | tail _ hstep ih =>
    obtain ⟨full, part, hinv, hfirst⟩ := ih
    obtain ⟨full', part', hinv', -, hfirst', -⟩ := hstep.inv hinv False.elim
    exact ⟨full', part', hinv', hfirst' hfirst⟩

/-- The slabs with free buffers, those in use first. -/
theorem FirstOnly.split {part : List LargeSlab} (h : FirstOnly part) :
    ∃ used empty, part = used ++ empty ∧ (∀ t ∈ used, t.taken ≠ []) ∧ ∀ t ∈ empty, t.taken = [] := by
  cases part with
  | nil => exact ⟨[], [], rfl, List.forall_mem_nil _, List.forall_mem_nil _⟩
  | cons t part =>
    by_cases ht : t.taken = []
    · exact ⟨[], t :: part, rfl, List.forall_mem_nil _, List.forall_mem_cons.mpr ⟨ht, h⟩⟩
    · exact ⟨[t], part, rfl, List.forall_mem_singleton.mpr ht, h⟩

/-- Of two slabs only one has a given byte among its buffers. -/
theorem LargeShape.same_slab {m : Mem} {kept held : List Nat} {part : List LargeSlab}
    (h : LargeShape c m kept held full part) {t u : LargeSlab} (ht : t ∈ full ++ part)
    (hu : u ∈ full ++ part) {x : Nat}
    (htx : t.start ≤ x ∧ x < t.start + largeFrames c.size * 4096)
    (hux : u.start ≤ x ∧ x < u.start + largeFrames c.size * 4096) : t = u := by
  have hpage : ∀ v ∈ full ++ part, v.start ≤ x ∧ x < v.start + largeFrames c.size * 4096 →
      ∃ p ∈ v.bufPages c.size, LargePageOk c p ∧ p ≤ x ∧ x < p + 4096 := by
    intro v hv hvx
    have hp : v.start + (x - v.start) / 4096 * 4096 ∈ v.bufPages c.size :=
      List.mem_map.mpr ⟨(x - v.start) / 4096, List.mem_range.mpr (by omega), rfl⟩
    exact ⟨_, hp, h.pages _ (List.mem_append_right _ (List.mem_flatMap.mpr ⟨v, hv, hp⟩)), by omega⟩
  obtain ⟨p, hp, hpok, hpx⟩ := hpage t ht htx
  obtain ⟨q, hq, hqok, hqx⟩ := hpage u hu hux
  have hpa := hpok.aligned
  have hqa := hqok.aligned
  have hpq : p = q := by omega
  by_contra hne
  obtain ⟨-, hpair⟩ := List.nodup_flatMap.mp h.nodup.of_append_right
  have : Std.Symm (Function.onFun List.Disjoint (LargeSlab.bufPages c.size)) := 
    ⟨fun _ _ h _ hq hp => h hp hq⟩
  exact hpair.forall ht hu hne hp (hpq ▸ hq)

section Reap
variable (h : LargeInv k c [] full (used ++ empty) s) (hused : ∀ t ∈ used, t.taken ≠ [])
  (hempty : ∀ t ∈ empty, t.taken = [])
include h hused hempty

/-- The counters tell the empty slabs. -/
theorem LargeInv.refs_zero_iff : (∀ t ∈ full ++ used, 0 < slabRefs s.world.mem t.hdr) ∧
    ∀ t ∈ empty, slabRefs s.world.mem t.hdr = 0 := by
  have hrefs : ∀ t ∈ full ++ (used ++ empty), slabRefs s.world.mem t.hdr = t.taken.length :=
    fun t ht => (h.shape.slabs t ht).refs
  constructor
  · intro t ht
    have hpos : 0 < t.taken.length := by
      rcases List.mem_append.mp ht with ht | ht
      · have hlen := (h.shape.slabs t (List.mem_append_left _ ht)).length_eq
        have hcount := largeCount_bounds c.size_gt
        rw [h.shape.full_taken t ht, List.length_nil] at hlen
        omega
      · exact List.length_pos_iff.mpr (hused t ht)
    rw [hrefs t (by rw [← List.append_assoc]; exact List.mem_append_left _ ht)]
    omega
  · intro t ht
    rw [hrefs t (List.mem_append_right _ (List.mem_append_right _ ht)), hempty t ht]
    rfl

theorem LargeInv.reap_run : kmemCacheReap k c.addr s.world = some ((), ⟨s.world.mem,
    (empty.map LargeSlab.hdr).reverse.flatMap (releaseCalls k s.world.mem c.addr) ++ s.world.calls⟩) := by
  obtain ⟨hbusy, hidle⟩ := h.refs_zero_iff hused hempty
  have hnodes : largeNodes c (full ++ (used ++ empty)) = ((c.addr + 72) :: full.map LargeSlab.hdr) ++
      (used.map LargeSlab.hdr ++ empty.map LargeSlab.hdr ++ [c.addr + 120]) := by
    rw [largeNodes, List.map_append, List.map_append, List.cons_append, List.append_assoc]
  have hheaders := headers_largeNodes h.shape.hdr_nodup fun t ht => h.shape.hdr_page ht
  have hlinked := h.shape.linked
  have hfl := h.shape.flPtr
  rw [hnodes] at hlinked hheaders
  rw [List.map_append] at hfl
  apply kmemCacheReap_run k s.world.calls _ c.addr_ne h.shape.tail h.shape.size hfl hheaders hlinked
  · intro x hx
    obtain ⟨t, ht, rfl⟩ := List.mem_map.mp hx
    exact hbusy t (List.mem_append_right _ ht)
  · intro x hx
    obtain ⟨t, ht, rfl⟩ := List.mem_map.mp hx
    exact hidle t ht
  · intro x hx calls
    obtain ⟨t, ht, rfl⟩ := List.mem_map.mp hx
    rw [if_neg (show ¬ c.size ≤ smallObjSize from Nat.not_le.mpr c.size_gt)]
    have hpage := h.shape.hdr_page (List.mem_append_right _ (List.mem_append_right _ ht))
    exact freeLargeSlab_run k s.world.mem calls c.addr_ne hpage.pos

end Reap

theorem LargeTidy.reap (h : LargeTidy k c s) : ReapsLarge k c s := by
  obtain ⟨full, part, hinv, hfirst⟩ := h
  obtain ⟨used, empty, rfl, hused, hempty⟩ := hfirst.split
  obtain ⟨hbusy, hidle⟩ := hinv.refs_zero_iff hused hempty
  have hshape := hinv.shape
  have hlinked := hshape.linked
  have hnodes := (headers_largeNodes hshape.hdr_nodup fun t ht => hshape.hdr_page ht).nodup
  rw [largeNodes, ← hshape.head, ← hshape.tail] at hlinked hnodes
  refine ⟨_, empty.map LargeSlab.hdr, hnodes, hlinked, hinv.reap_run hused hempty, ?_, ?_, ?_⟩
  · have hnd := hshape.hdr_nodup
    rw [List.map_append, List.map_append] at hnd
    exact hnd.of_append_right.of_append_right
  · intro x
    constructor
    · intro hx
      obtain ⟨t, ht, rfl⟩ := List.mem_map.mp hx
      exact ⟨List.mem_map_of_mem (List.mem_append_right _ (List.mem_append_right _ ht)), hidle t ht⟩
    · rintro ⟨hx, hzero⟩
      obtain ⟨t, ht, rfl⟩ := List.mem_map.mp hx
      rw [← List.append_assoc] at ht
      refine List.mem_map_of_mem ((List.mem_append.mp ht).resolve_left fun hbad => ?_)
      have := hbusy t hbad
      omega
  · intro b hb x hx hin
    obtain ⟨t, ht, rfl⟩ := List.mem_map.mp hx
    have htmem : t ∈ full ++ (used ++ empty) := List.mem_append_right _ (List.mem_append_right _ ht)
    obtain ⟨u, hu, hbu⟩ := hshape.mem_held hb
    rw [show startOf s.world.mem t.hdr = _ from (hshape.slabs t htmem).start] at hin
    have hsize := c.size_gt
    have hinside := (hshape.slabs u hu).inside hbu
    have htu := hshape.same_slab htmem hu hin (by omega)
    rw [← htu, LargeSlab.held, hempty t ht] at hbu
    cases hbu

end Large

/-- In every run from an initialised cache, reaping releases exactly the slabs with `refs = 0`. -/
theorem reap_releases_empty (k : Machine) :
    (∀ (c : SmallCache) (s₀ s : State), Initialised s₀.world.mem c.addr c.size → s₀.held = [] →
      Reach k c KeepsAlive s₀ s → ReapsSmall k c s) ∧
    ∀ (c : LargeCache) (s₀ s : State), Initialised s₀.world.mem c.addr c.size → s₀.held = [] →
      LargeReach k c False s₀ s → ReapsLarge k c s := by
  constructor
  · rintro c ⟨w, held⟩ s hinit rfl hr
    exact (hr.tidy (.start hinit)).reap
  · rintro c ⟨w, held⟩ s hinit rfl hr
    have htidy : LargeTidy k c ⟨w, []⟩ := ⟨[], [], .start hinit, List.forall_mem_nil _⟩
    exact (hr.tidy htidy).reap

theorem initialised_of_cacheInit {cache size : Nat} (hc : cache ≠ 0) (haddr : cache + 168 ≤ 2 ^ 64)
    (hsize : size < 2 ^ 64) (name : Nat) (w : World) :
    ∃ m', cacheInit cache size name w = some ((), ⟨m', w.calls⟩) ∧ Initialised m' cache size := by
  obtain ⟨m', hrun, -, hhead, htail, hsz, hfl, hnext, hprev⟩ :=
    cacheInit_run hc haddr hsize name w.mem w.calls
  exact ⟨m', hrun, hhead, htail, hsz, hfl, hnext, hprev⟩

/-- A cache of 1024-byte objects in the kernel's data. -/
def cache1024 : LargeCache := ⟨0xffffffff80200000, 1024, cache64.addr_ne, cache64.addr_le, by decide⟩

theorem bootMachine_freshLarge : bootMachine.FreshLarge cache1024 [] := by
  refine ⟨⟨by decide, by decide, by decide, by decide, fun i _ h => h, .inl (by decide)⟩,
    ⟨by decide, by decide, by decide, by decide, ?_, .inl (by decide)⟩⟩
  rintro i hi (⟨j, hj, he⟩ | h)
  · have hj : j < 2 := hj
    have he : 0x110000 + i * 4096 = 0x100000 + j * 4096 := he
    omega
  · exact h

/-- The run of one allocation from a small cache. -/
theorem cache64_allocated : ∃ s₀ s b, Initialised s₀.world.mem cache64.addr cache64.size ∧
    s₀.held = [] ∧ Reach bootMachine cache64 KeepsAlive s₀ s ∧ s.held = [b] := by
  obtain ⟨m', hrun, hinit⟩ := initialised_of_cacheInit cache64.addr_ne cache64.addr_le
    (show cache64.size < 2 ^ 64 by decide) 0 ⟨fun _ => 0, []⟩
  have hfresh : FreshFrame bootMachine cache64 [] 0x100000 :=
    ⟨by decide, by decide, by decide, id, .inl (by decide)⟩
  obtain ⟨b, w, hstep, -⟩ := first_alloc (s := ⟨⟨m', []⟩, []⟩) KeepsAlive ⟨0, _, hrun, rfl⟩ hfresh
  exact ⟨_, _, b, hinit, rfl, .single hstep, rfl⟩

/-- The same from a large cache. -/
theorem cache1024_allocated : ∃ s₀ s b, Initialised s₀.world.mem cache1024.addr cache1024.size ∧
    s₀.held = [] ∧ LargeReach bootMachine cache1024 False s₀ s ∧ s.held = [b] := by
  obtain ⟨m', -, hinit⟩ := initialised_of_cacheInit cache1024.addr_ne cache1024.addr_le
    (show cache1024.size < 2 ^ 64 by decide) 0 ⟨fun _ => 0, []⟩
  have hstart : LargeInv bootMachine cache1024 [] [] [] ⟨⟨m', []⟩, []⟩ := .start hinit
  obtain ⟨b, w, -, -, hrun, -⟩ := hstart.alloc fun _ => bootMachine_freshLarge
  exact ⟨_, ⟨w, [b]⟩, b, hinit, rfl, .single (.alloc (fun _ => bootMachine_freshLarge) hrun), rfl⟩

/-- One object allocated from a small and from a large cache, then reaped. -/
theorem reap_releases_empty_one :
    (∃ s₀ s b, Initialised s₀.world.mem cache64.addr cache64.size ∧
      Reach bootMachine cache64 KeepsAlive s₀ s ∧ s.held = [b] ∧ ReapsSmall bootMachine cache64 s) ∧
    ∃ s₀ s b, Initialised s₀.world.mem cache1024.addr cache1024.size ∧
      LargeReach bootMachine cache1024 False s₀ s ∧ s.held = [b] ∧
      ReapsLarge bootMachine cache1024 s := by
  obtain ⟨hsmall, hlarge⟩ := reap_releases_empty bootMachine
  constructor
  · obtain ⟨s₀, s, b, hinit, hheld, hr, hb⟩ := cache64_allocated
    exact ⟨s₀, s, b, hinit, hr, hb, hsmall _ _ _ hinit hheld hr⟩
  · obtain ⟨s₀, s, b, hinit, hheld, hr, hb⟩ := cache1024_allocated
    exact ⟨s₀, s, b, hinit, hr, hb, hlarge _ _ _ hinit hheld hr⟩

end NyaOS.Slab
