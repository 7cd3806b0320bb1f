import Mathlib.Data.List.Perm.Basic
import NyaOS.Slab.Lists

/-! The invariant of a small-object cache: the slab list, the free list threaded through each
page, and which buffers the clients hold. -/
namespace NyaOS.Slab
open Library.ByteMemory Library.LinkedList

/-- A `kmem_cache` object of a small-object cache. -/
structure SmallCache where
  addr : Nat
  size : Nat
  addr_ne : addr ≠ 0
  addr_le : addr + 168 ≤ 2 ^ 64
  size_le : size ≤ 512

/-- The header of the slab in page `p`, and its buffers. -/
def header (p : Nat) : Nat := p + 4048
def bufCount (size : Nat) : Nat := 4048 / (size + 24)
def buffers (size p : Nat) : List Nat := (List.range (bufCount size)).map fun i => p + i * (size + 24)

/-- Following the links from `ptr` visits the buffers in order; what the last link holds is
not said. -/
def FreeChain (m : Mem) (size : Nat) : Nat → List Nat → Prop
  | _, [] => True
  | ptr, b :: bs => ptr = b ∧ FreeChain m size (load m (b + size) 8) bs

/-- A slab: its free list and the buffers taken from it are together its buffers. -/
structure SlabOk (size : Nat) (m : Mem) (p : Nat) (free taken : List Nat) : Prop where
  count : intAt m (header p + 44) = bufCount size
  refs : intAt m (header p + 40) = taken.length
  chain : FreeChain m size (load m (header p + 24) 8) free
  parts : (free ++ taken).Perm (buffers size p)

/-- The held buffers that lie in page `p`. -/
def takenIn (held : List Nat) (p : Nat) : List Nat := held.filter fun b => b / 4096 * 4096 = p

/-- A page for slabs: apart from the cache object. -/
structure PageOk (c : SmallCache) (p : Nat) : Prop where
  aligned : p % 4096 = 0
  pos : p ≠ 0
  bound : p + 4096 ≤ 2 ^ 64
  apart : p + 4096 ≤ c.addr ∨ c.addr + 168 ≤ p

/-- The list nodes from `head` to `tail`. -/
def nodes (c : SmallCache) (pages : List Nat) : List Nat :=
  (c.addr + 72) :: (pages.map header ++ [c.addr + 120])

/-- The list is full slabs, then slabs with free buffers, and `fl_ptr` is at the first of
these. -/
structure Shape (c : SmallCache) (m : Mem) (held full part : List Nat) (free : Nat → List Nat) :
    Prop where
  nodup : (full ++ part).Nodup
  pages : ∀ p ∈ full ++ part, PageOk c p
  head : load m (c.addr + 24) 8 = c.addr + 72
  tail : load m (c.addr + 32) 8 = c.addr + 120
  size : load m (c.addr + 56) 8 = c.size
  flPtr : load m (c.addr + 40) 8 = (part.map header).headD (c.addr + 120)
  linked : Linked (nextOf m) (prevOf m) (nodes c (full ++ part))
  slabs : ∀ p ∈ full ++ part, SlabOk c.size m p (free p) (takenIn held p)
  full_taken : ∀ p ∈ full, free p = []
  part_free : ∀ p ∈ part, free p ≠ []
  held_pages : ∀ b ∈ held, b / 4096 * 4096 ∈ full ++ part

/-- What the layer may write: the cache object and its pages, but no held buffer. -/
def Private (c : SmallCache) (pages held : List Nat) (x : Nat) : Prop :=
  (c.addr ≤ x ∧ x < c.addr + 168) ∨
    ∃ p ∈ pages, (p ≤ x ∧ x < p + 4096) ∧ ∀ b ∈ held, ¬ (b ≤ x ∧ x < b + c.size)

section Buffers
variable {size p b b' : Nat}

theorem bufCount_mul_le (size : Nat) : bufCount size * (size + 24) ≤ 4048 := Nat.div_mul_le_self _ _

/-- A small slab has between 7 and 168 buffers. -/
theorem bufCount_bounds (h : size ≤ 512) : 7 ≤ bufCount size ∧ bufCount size ≤ 168 := by
  constructor
  · exact (Nat.le_div_iff_mul_le (by omega)).mpr (by omega)
  · exact Nat.lt_succ_iff.mp (Nat.div_lt_of_lt_mul (by omega))

theorem mem_buffers : b ∈ buffers size p ↔ ∃ i < bufCount size, p + i * (size + 24) = b := by
  simp [buffers]

/-- Every buffer and its link end below the header. -/
theorem buffer_bounds (h : b ∈ buffers size p) : p ≤ b ∧ b + size + 24 ≤ p + 4048 := by
  obtain ⟨i, hi, rfl⟩ := mem_buffers.mp h
  have hmul : (i + 1) * (size + 24) ≤ bufCount size * (size + 24) := Nat.mul_le_mul_right _ hi
  have := bufCount_mul_le size
  rw [Nat.succ_mul] at hmul
  omega

theorem buffer_page (hp : p % 4096 = 0) (h : b ∈ buffers size p) : b / 4096 * 4096 = p := by
  have := buffer_bounds h
  omega

/-- Two buffers of one slab do not meet. -/
theorem buffer_apart (h : b ∈ buffers size p) (h' : b' ∈ buffers size p) (hne : b ≠ b') :
    b + size + 24 ≤ b' ∨ b' + size + 24 ≤ b := by
  obtain ⟨i, _, rfl⟩ := mem_buffers.mp h
  obtain ⟨j, _, rfl⟩ := mem_buffers.mp h'
  rcases Nat.lt_trichotomy i j with hij | rfl | hij
  · have := Nat.mul_le_mul_right (size + 24) hij
    rw [Nat.succ_mul] at this
    omega
  · exact absurd rfl hne
  · have := Nat.mul_le_mul_right (size + 24) hij
    rw [Nat.succ_mul] at this
    omega

theorem buffers_nodup (size p : Nat) : (buffers size p).Nodup := by
  apply List.Nodup.map_on _ List.nodup_range
  intro i _ j _ h
  exact Nat.eq_of_mul_eq_mul_right (show 0 < size + 24 by omega) (Nat.add_left_cancel h)

theorem length_buffers (size p : Nat) : (buffers size p).length = bufCount size := by
  simp [buffers]

end Buffers

theorem intAt_congr {m m' : Mem} {a : Nat} (h : ∀ x, a ≤ x → x < a + 4 → m' x = m x) :
    intAt m' a = intAt m a := by rw [intAt, intAt, load_congr h]

theorem intAt_store (m : Mem) (a : Nat) {v : Int} (h₁ : 0 ≤ v) (h₂ : v < 2 ^ 31) :
    intAt (store m a 4 (BitVec.ofInt 32 v).toNat) a = v := by
  rw [intAt, load_store _ _ (by exact (BitVec.ofInt 32 v).isLt), BitVec.ofNat_toNat,
    BitVec.setWidth_eq, BitVec.toInt_ofInt]
  exact Int.bmod_eq_of_le (by omega) (by omega)

theorem FreeChain.congr {m m' : Mem} {size ptr : Nat} {bs : List Nat} (h : FreeChain m size ptr bs)
    (hlink : ∀ b ∈ bs, ∀ x, b + size ≤ x → x < b + size + 8 → m' x = m x) :
    FreeChain m' size ptr bs := by
  induction bs generalizing ptr with
  | nil => trivial
  | cons b bs ih =>
    obtain ⟨hb, hbs⟩ := h
    rw [← load_congr (hlink b (by simp))] at hbs
    exact ⟨hb, ih hbs fun b' hb' => hlink b' (by simp [hb'])⟩

section Slab
variable {size p : Nat} {m m' : Mem} {free taken : List Nat} (h : SlabOk size m p free taken)
include h

theorem SlabOk.mem_free {b : Nat} (hb : b ∈ free) : b ∈ buffers size p :=
  h.parts.subset (List.mem_append_left taken hb)

theorem SlabOk.mem_taken {b : Nat} (hb : b ∈ taken) : b ∈ buffers size p :=
  h.parts.subset (List.mem_append_right free hb)

theorem SlabOk.parts_nodup : (free ++ taken).Nodup := h.parts.nodup_iff.mpr (buffers_nodup size p)

theorem SlabOk.length_eq : free.length + taken.length = bufCount size := by
  rw [← List.length_append, h.parts.length_eq, length_buffers]

/-- A slab reads the counters and free list of its header and the links of its free buffers. -/
theorem SlabOk.congr (hhdr : ∀ x, header p + 24 ≤ x → x < header p + 48 → m' x = m x)
    (hlink : ∀ b ∈ free, ∀ x, b + size ≤ x → x < b + size + 8 → m' x = m x) :
    SlabOk size m' p free taken where
  count := by rw [intAt_congr fun x _ _ => hhdr x (by omega) (by omega), h.count]
  refs := by rw [intAt_congr fun x _ _ => hhdr x (by omega) (by omega), h.refs]
  chain := by
    rw [load_congr fun x _ _ => hhdr x (by omega) (by omega)]
    exact h.chain.congr hlink
  parts := h.parts

theorem SlabOk.congr_page (hpage : ∀ x, p ≤ x → x < p + 4096 → ¬ Links (header p) x → m' x = m x) :
    SlabOk size m' p free taken := by
  have hh : header p = p + 4048 := rfl
  unfold Links at hpage
  apply h.congr
  · exact fun x _ _ => hpage x (by omega) (by omega) (by omega)
  · intro b hb x _ _
    have := buffer_bounds (h.mem_free hb)
    exact hpage x (by omega) (by omega) (by omega)

end Slab

theorem linked_of_onlyIn {m m' : Mem} {S : Nat → Prop} {l : List Nat}
    (h : Linked (nextOf m) (prevOf m) l) (honly : OnlyIn S m m')
    (hS : ∀ y ∈ l, ∀ x, Links y x → ¬ S x) : Linked (nextOf m') (prevOf m') l :=
  h.congr (fun y hy => (links_of_onlyIn honly (hS y hy)).1)
    fun y hy => (links_of_onlyIn honly (hS y hy)).2

section Shape
variable {c : SmallCache} {m m' : Mem} {held full part : List Nat} {free : Nat → List Nat}
  (h : Shape c m held full part free)
include h

theorem Shape.mem_held {b : Nat} (hb : b ∈ held) : b ∈ buffers c.size (b / 4096 * 4096) :=
  (h.slabs _ (h.held_pages b hb)).mem_taken (List.mem_filter.mpr ⟨hb, by simp⟩)

theorem Shape.held_nodup : held.Nodup := by
  rw [List.nodup_iff_count_le_one]
  intro b
  by_cases hb : b ∈ held
  · have hnd := (h.slabs _ (h.held_pages b hb)).parts_nodup.of_append_right
    have hc := List.nodup_iff_count_le_one.mp hnd b
    rwa [takenIn, List.count_filter (by simp)] at hc
  · rw [List.count_eq_zero.mpr hb]
    exact Nat.zero_le 1

/-- A page that is new to the cache holds no buffer. -/
theorem Shape.takenIn_new {p : Nat} (hp : p ∉ full ++ part) : takenIn held p = [] := by
  refine List.filter_eq_nil_iff.mpr fun b hb hbp => hp ?_
  rw [← of_decide_eq_true hbp]
  exact h.held_pages b hb

theorem Shape.free_not_held {p b : Nat} (hp : p ∈ full ++ part) (hb : b ∈ free p) : b ∉ held := by
  intro hheld
  have hs := h.slabs p hp
  have hpage := buffer_page (h.pages p hp).aligned (hs.mem_free hb)
  exact List.disjoint_of_nodup_append hs.parts_nodup hb
    (List.mem_filter.mpr ⟨hheld, by simpa using hpage⟩)

/-- Bytes of a page outside its buffers belong to the layer. -/
theorem Shape.private_of {p x : Nat} (hp : p ∈ full ++ part) (hx : p ≤ x ∧ x < p + 4096)
    (hbuf : ∀ b ∈ buffers c.size p, ¬ (b ≤ x ∧ x < b + c.size)) :
    Private c (full ++ part) held x := by
  refine .inr ⟨p, hp, hx, fun b hb hin => ?_⟩
  have hmem := h.mem_held hb
  have hbound := buffer_bounds hmem
  have hal := (h.pages p hp).aligned
  have hpage : b / 4096 * 4096 = p := by omega
  rw [hpage] at hmem
  exact hbuf b hmem hin

theorem Shape.private_header {p x : Nat} (hp : p ∈ full ++ part)
    (hx : header p ≤ x ∧ x < header p + 48) : Private c (full ++ part) held x := by
  unfold header at hx
  apply h.private_of hp (by omega)
  intro b hb
  have := buffer_bounds hb
  omega

theorem Shape.private_link {p b x : Nat} (hp : p ∈ full ++ part) (hb : b ∈ buffers c.size p)
    (hx : b + c.size ≤ x ∧ x < b + c.size + 8) : Private c (full ++ part) held x := by
  have hbound := buffer_bounds hb
  apply h.private_of hp (by omega)
  intro b' hb'
  by_cases hne : b = b'
  · omega
  · have := buffer_apart hb hb' hne
    omega

/-- The nodes of the list lie in private memory. -/
theorem Shape.private_node {x y : Nat} (hx : x ∈ nodes c (full ++ part)) (hy : Links x y) :
    Private c (full ++ part) held y := by
  unfold Links at hy
  simp only [nodes, List.mem_cons, List.mem_append, List.mem_map, List.not_mem_nil, or_false] at hx
  rcases hx with rfl | ⟨p, hp, rfl⟩ | rfl
  · exact .inl (by omega)
  · exact h.private_header (List.mem_append.mpr hp) (by omega)
  · exact .inl (by omega)

/-- The shape reads private memory only, so whatever the clients write into their buffers or
elsewhere keeps it. -/
theorem Shape.congr (hsame : ∀ x, Private c (full ++ part) held x → m' x = m x) :
    Shape c m' held full part free where
  nodup := h.nodup
  pages := h.pages
  head := by rw [load_congr fun x _ _ => hsame x (.inl (by omega)), h.head]
  tail := by rw [load_congr fun x _ _ => hsame x (.inl (by omega)), h.tail]
  size := by rw [load_congr fun x _ _ => hsame x (.inl (by omega)), h.size]
  flPtr := by rw [load_congr fun x _ _ => hsame x (.inl (by omega)), h.flPtr]
  linked := by
    have honly : OnlyIn (fun x => ¬ Private c (full ++ part) held x) m m' :=
      fun x hx => hsame x (not_not.mp hx)
    exact linked_of_onlyIn h.linked honly fun y hy x hyx hn => hn (h.private_node hy hyx)
  slabs := by
    intro p hp
    apply (h.slabs p hp).congr
    · exact fun x _ _ => hsame x (h.private_header hp (by omega))
    · exact fun b hb x _ _ =>
        hsame x (h.private_link hp ((h.slabs p hp).mem_free hb) (by omega))
  full_taken := h.full_taken
  part_free := h.part_free
  held_pages := h.held_pages

end Shape

/-- The headers of distinct pages and the two sentinels do not meet. -/
theorem headers_nodes {c : SmallCache} {pages : List Nat} (hnd : pages.Nodup)
    (hok : ∀ p ∈ pages, PageOk c p) : Headers (nodes c pages) := by
  have hpage : ∀ x ∈ pages.map header, ∃ p, PageOk c p ∧ x = p + 4048 := by
    intro x hx
    obtain ⟨p, hp, rfl⟩ := List.mem_map.mp hx
    exact ⟨p, hok p hp, rfl⟩
  apply headers_sentinels c.addr_le
  · exact hnd.map fun p q hpq => Nat.add_right_cancel hpq
  · intro x hx
    obtain ⟨p, hp, rfl⟩ := hpage x hx
    have := hp.bound
    omega
  · intro x hx
    obtain ⟨p, hp, rfl⟩ := hpage x hx
    have := hp.apart
    omega
  · intro x hx y hy hne
    obtain ⟨p, hp, rfl⟩ := hpage x hx
    obtain ⟨q, hq, rfl⟩ := hpage y hy
    have := hp.aligned
    have := hq.aligned
    omega

theorem nodes_split (c : SmallCache) (l₁ l₂ : List Nat) (p : Nat) : nodes c (l₁ ++ p :: l₂) =
    ((c.addr + 72) :: l₁.map header) ++ header p :: (l₂.map header ++ [c.addr + 120]) := by
  simp [nodes]

/-- The slab after page `p` in the list, or the tail. -/
theorem next_header {c : SmallCache} {m : Mem} {l₁ l₂ : List Nat} {p : Nat}
    (h : Linked (nextOf m) (prevOf m) (nodes c (l₁ ++ p :: l₂))) :
    nextOf m (header p) = (l₂.map header).headD (c.addr + 120) := by
  rw [nodes_split] at h
  cases l₂ with
  | nil => exact (linked_append_iff.mp h).2.1.1
  | cons q l₂ => exact (linked_append_iff.mp h).2.1.1

theorem takenIn_cons_of_ne {held : List Nat} {b q : Nat} (h : b / 4096 * 4096 ≠ q) :
    takenIn (b :: held) q = takenIn held q := by simp [takenIn, h]

theorem takenIn_cons_self {held : List Nat} {b p : Nat} (h : b / 4096 * 4096 = p) :
    takenIn (b :: held) p = b :: takenIn held p := by simp [takenIn, h]

section Nodes
variable {c : SmallCache} {all : List Nat} (hall : ∀ p ∈ all, PageOk c p)
include hall

theorem mem_nodes_cases {x : Nat} (hx : x ∈ nodes c all) :
    x = c.addr + 72 ∨ x = c.addr + 120 ∨ ∃ p ∈ all, PageOk c p ∧ x = header p := by
  simp only [nodes, List.mem_cons, List.mem_append, List.mem_map, List.not_mem_nil, or_false] at hx
  rcases hx with rfl | ⟨p, hp, rfl⟩ | rfl
  · exact .inl rfl
  · exact .inr (.inr ⟨p, hp, hall p hp, rfl⟩)
  · exact .inr (.inl rfl)

/-- The only node of the list in a page is the page's own header. -/
theorem page_of_links {p x y : Nat} (hp : PageOk c p) (hy : y ∈ nodes c all) (hyx : Links y x)
    (hx : p ≤ x ∧ x < p + 4096) : p ∈ all ∧ y = header p := by
  have hpa := hp.aligned
  have hapart := hp.apart
  unfold Links at hyx
  rcases mem_nodes_cases hall hy with rfl | rfl | ⟨q, hq, hqpage, rfl⟩
  · omega
  · omega
  · have hqa := hqpage.aligned
    have hh : header q = q + 4048 := rfl
    have hqp : q = p := by omega
    exact ⟨hqp ▸ hq, hqp ▸ rfl⟩

/-- No node's links lie among the fields of the cache object before its sentinels. -/
theorem not_links_field {x y : Nat} (hy : y ∈ nodes c all) (hx : c.addr ≤ x ∧ x < c.addr + 72) :
    ¬ Links y x := by
  intro hyx
  unfold Links at hyx
  rcases mem_nodes_cases hall hy with rfl | rfl | ⟨q, _, hq, rfl⟩
  · omega
  · omega
  · have hqa := hq.apart
    have hh : header q = q + 4048 := rfl
    omega

/-- Editing links leaves these fields alone. -/
theorem field_of_links {m m' : Mem} (h : OnlyIn (fun x => ∃ y ∈ nodes c all, Links y x) m m')
    {off : Nat} (hoff : off + 8 ≤ 72) : load m' (c.addr + off) 8 = load m (c.addr + off) 8 := by
  refine h.load fun x _ _ => ?_
  rintro ⟨y, hy, hyx⟩
  exact not_links_field hall hy (by omega) hyx

end Nodes

/-- A change to `fl_ptr` and to one page, its links apart, leaves the list and the other slabs
as they were. -/
theorem Shape.update_slab {c : SmallCache} {m m' : Mem} {held held' full full' part part' : List Nat}
    {free free' : Nat → List Nat} {p : Nat} (h : Shape c m held full part free)
    (hp : p ∈ full ++ part) (hlist : full' ++ part' = full ++ part)
    (honly : OnlyIn (fun x => (p ≤ x ∧ x < p + 4096 ∧ ¬ Links (header p) x) ∨
      (c.addr + 40 ≤ x ∧ x < c.addr + 48)) m m')
    (hslab : SlabOk c.size m' p (free' p) (takenIn held' p))
    (hother : ∀ q, q ≠ p → free' q = free q ∧ takenIn held' q = takenIn held q)
    (hfl : load m' (c.addr + 40) 8 = (part'.map header).headD (c.addr + 120))
    (hfull : ∀ q ∈ full', free' q = []) (hpart : ∀ q ∈ part', free' q ≠ [])
    (hheld : ∀ b ∈ held', b / 4096 * 4096 ∈ full ++ part) :
    Shape c m' held' full' part' free' := by
  have hpage := h.pages p hp
  have hapart := hpage.apart
  have hcell : ∀ a, c.addr + 24 ≤ a ∧ a + 8 ≤ c.addr + 40 ∨ c.addr + 48 ≤ a ∧ a + 8 ≤ c.addr + 168 →
      load m' a 8 = load m a 8 := by
    intro a ha
    exact honly.load fun x _ _ => by omega
  refine ⟨hlist ▸ h.nodup, hlist ▸ h.pages, ?_, ?_, ?_, hfl, ?_, ?_, hfull, hpart, hlist ▸ hheld⟩
  · rw [hcell _ (by omega), h.head]
  · rw [hcell _ (by omega), h.tail]
  · rw [hcell _ (by omega), h.size]
  · rw [hlist]
    apply linked_of_onlyIn h.linked honly
    rintro y hy x hyx (⟨hlo, hhi, hx⟩ | hx)
    · rw [(page_of_links h.pages hpage hy hyx ⟨hlo, hhi⟩).2] at hyx
      exact hx hyx
    · exact not_links_field h.pages hy (by omega) hyx
  · intro q hq
    rw [hlist] at hq
    by_cases hqp : q = p
    · rw [hqp]
      exact hslab
    · obtain ⟨hf, ht⟩ := hother q hqp
      rw [hf, ht]
      have hqpage := h.pages q hq
      have hqa := hqpage.aligned
      have hqapart := hqpage.apart
      have hpa := hpage.aligned
      exact (h.slabs q hq).congr_page fun x _ _ _ => honly x (by omega)

/-- The cells that list operations write: the links of the nodes, and `fl_ptr`. -/
def ListCells (c : SmallCache) (pages : List Nat) (x : Nat) : Prop :=
  (∃ y ∈ nodes c pages, Links y x) ∨ (c.addr + 40 ≤ x ∧ x < c.addr + 48)

section Edit
variable {c : SmallCache} {m m' : Mem} {all : List Nat} (hall : ∀ p ∈ all, PageOk c p)
include hall

/-- In a page, list operations touch only the links of its own header. -/
theorem links_of_listCells {p x : Nat} (hp : PageOk c p) (hx : p ≤ x ∧ x < p + 4096)
    (h : ListCells c all x) : Links (header p) x := by
  rcases h with ⟨y, hy, hyx⟩ | h
  · rw [← (page_of_links hall hp hy hyx hx).2]
    exact hyx
  · have := hp.apart
    omega

theorem not_listCells {x : Nat} (hx : c.addr ≤ x ∧ x < c.addr + 40 ∨ c.addr + 48 ≤ x ∧ x < c.addr + 72) :
    ¬ ListCells c all x := by
  rintro (⟨y, hy, hyx⟩ | h)
  · exact not_links_field hall hy (by omega) hyx
  · omega

variable {held full part : List Nat} {free : Nat → List Nat}

/-- A shape from its slabs, which list operations do not change, and the list they made. -/
theorem shape_of_edit (hsub : ∀ p ∈ full ++ part, p ∈ all) (hnd : (full ++ part).Nodup)
    (hhead : load m (c.addr + 24) 8 = c.addr + 72) (htail : load m (c.addr + 32) 8 = c.addr + 120)
    (hsize : load m (c.addr + 56) 8 = c.size)
    (hslabs : ∀ p ∈ full ++ part, SlabOk c.size m p (free p) (takenIn held p))
    (honly : OnlyIn (ListCells c all) m m')
    (hlinked : Linked (nextOf m') (prevOf m') (nodes c (full ++ part)))
    (hfl : load m' (c.addr + 40) 8 = (part.map header).headD (c.addr + 120))
    (hfull : ∀ p ∈ full, free p = []) (hpart : ∀ p ∈ part, free p ≠ [])
    (hheld : ∀ b ∈ held, b / 4096 * 4096 ∈ full ++ part) : Shape c m' held full part free where
  nodup := hnd
  pages := fun p hp => hall p (hsub p hp)
  head := by rw [honly.load fun x _ _ => not_listCells hall (by omega), hhead]
  tail := by rw [honly.load fun x _ _ => not_listCells hall (by omega), htail]
  size := by rw [honly.load fun x _ _ => not_listCells hall (by omega), hsize]
  flPtr := hfl
  linked := hlinked
  slabs := fun p hp => (hslabs p hp).congr_page fun x hlo hhi hl =>
    honly x fun hx => hl (links_of_listCells hall (hall p (hsub p hp)) ⟨hlo, hhi⟩ hx)
  full_taken := hfull
  part_free := hpart
  held_pages := hheld

end Edit

/-- The two nodes between which a page's header goes. -/
theorem nodes_around (c : SmallCache) (g₁ g₂ : List Nat) : ∃ l₁ a l₂,
    nodes c (g₁ ++ g₂) = l₁ ++ a :: (g₂.map header).headD (c.addr + 120) :: l₂ ∧
    ∀ p, nodes c (g₁ ++ p :: g₂) =
      l₁ ++ a :: header p :: (g₂.map header).headD (c.addr + 120) :: l₂ := by
  obtain ⟨l₁, a, hleft⟩ : ∃ l₁ a, (c.addr + 72) :: g₁.map header = l₁ ++ [a] := by
    rcases List.eq_nil_or_concat ((c.addr + 72) :: g₁.map header) with h | ⟨l₁, a, h⟩
    · cases h
    · exact ⟨l₁, a, by rw [h, List.concat_eq_append]⟩
  have hright : g₂.map header ++ [c.addr + 120] =
      (g₂.map header).headD (c.addr + 120) :: (g₂.map header ++ [c.addr + 120]).tail := by
    cases g₂ <;> rfl
  refine ⟨l₁, a, (g₂.map header ++ [c.addr + 120]).tail, ?_, fun p => ?_⟩
  · rw [nodes, List.map_append, List.append_assoc, ← List.cons_append, hleft, ← hright]
    simp
  · rw [nodes_split, hleft, ← hright]
    simp

section Pages
variable {c : SmallCache} {m : Mem} (calls : List FrameCall) {g₁ g₂ : List Nat} {p : Nat}
  (hnd : (g₁ ++ p :: g₂).Nodup) (hpages : ∀ q ∈ g₁ ++ p :: g₂, PageOk c q)
include hnd hpages

/-- `_insert_slab` before the slabs of `g₂`. -/
theorem insertSlab_pages (h : Linked (nextOf m) (prevOf m) (nodes c (g₁ ++ g₂))) :
    ∃ m', insertSlab ((g₂.map header).headD (c.addr + 120)) (header p) ⟨m, calls⟩ =
        some ((), ⟨m', calls⟩) ∧
      OnlyIn (fun x => ∃ y ∈ nodes c (g₁ ++ p :: g₂), Links y x) m m' ∧
      Linked (nextOf m') (prevOf m') (nodes c (g₁ ++ p :: g₂)) := by
  have hheaders := headers_nodes hnd hpages
  obtain ⟨l₁, a, l₂, hold, hnew⟩ := nodes_around c g₁ g₂
  rw [hold] at h
  rw [hnew p] at hheaders ⊢
  obtain ⟨m', hrun, honly, hlinked⟩ := insertSlab_linked calls hheaders h
  refine ⟨m', hrun, honly.mono ?_, hlinked⟩
  rintro x (hx | hx | hx)
  · exact ⟨a, by simp, hx⟩
  · exact ⟨header p, by simp, hx⟩
  · exact ⟨(g₂.map header).headD (c.addr + 120), by simp, hx⟩

/-- `_rm_slab` of the slab in page `p`. -/
theorem rmSlab_pages (h : Linked (nextOf m) (prevOf m) (nodes c (g₁ ++ p :: g₂))) :
    ∃ m', rmSlab (header p) ⟨m, calls⟩ = some ((), ⟨m', calls⟩) ∧
      OnlyIn (fun x => ∃ y ∈ nodes c (g₁ ++ p :: g₂), Links y x) m m' ∧
      Linked (nextOf m') (prevOf m') (nodes c (g₁ ++ g₂)) := by
  have hheaders := headers_nodes hnd hpages
  obtain ⟨l₁, a, l₂, hold, hnew⟩ := nodes_around c g₁ g₂
  rw [hold]
  rw [hnew p] at hheaders h ⊢
  obtain ⟨m', hrun, honly, hlinked⟩ := rmSlab_linked calls hheaders h
  refine ⟨m', hrun, honly.mono ?_, hlinked⟩
  rintro x (hx | hx | hx)
  · exact ⟨a, by simp, hx⟩
  · exact ⟨header p, by simp, hx⟩
  · exact ⟨(g₂.map header).headD (c.addr + 120), by simp, hx⟩

end Pages

/-- Writing `fl_ptr` leaves the list as it is. -/
theorem Linked.store_flPtr {c : SmallCache} {m : Mem} {pages : List Nat} {v : Nat}
    (hpages : ∀ q ∈ pages, PageOk c q) (h : Linked (nextOf m) (prevOf m) (nodes c pages)) :
    Linked (nextOf (store m (c.addr + 40) 8 v)) (prevOf (store m (c.addr + 40) 8 v))
      (nodes c pages) := by
  have honly : OnlyIn (fun x => c.addr + 40 ≤ x ∧ x < c.addr + 48) m (store m (c.addr + 40) 8 v) :=
    onlyIn_store _ fun x _ _ => by omega
  exact linked_of_onlyIn h honly fun y hy x hyx hx => not_links_field hpages hy (by omega) hyx

theorem Shape.private_listCells {c : SmallCache} {m : Mem} {held full part : List Nat}
    {free : Nat → List Nat} {x : Nat} (h : Shape c m held full part free)
    (hx : ListCells c (full ++ part) x) : Private c (full ++ part) held x := by
  rcases hx with ⟨y, hy, hyx⟩ | hx
  · exact h.private_node hy hyx
  · exact .inl (by omega)

end NyaOS.Slab
