import NyaOS.Library.Runs
import NyaOS.Stdlib.Heap

/-! Runs of the heap: when the blocks stay inside its page, and when freed memory can be had
again. -/
namespace NyaOS.Stdlib
open Library.ByteMemory Library.Runs

/-- The size that the free node at `node` records. -/
def sizeOf (m : Mem) (node : Nat) : Nat := load m (node + HeapNode.size) 4

/-- The node with the bytes it records keeps clear of a block and the block's header. -/
def NodeApart (m : Mem) (node : Nat) (x : Nat × Nat) : Prop :=
  x.1 + x.2 ≤ node ∨ node + HeapNode.sizeof + sizeOf m node ≤ x.1 - UsedBlock.sizeof

/-- What has been handed out and written is in the page. Blocks with their headers keep clear of
each other and of the free node, and the node does not count more bytes than the page has left. -/
structure Confined (base : ImageEnd) (s : Session) : Prop where
  blocks : ∀ x ∈ s.live, base.InPage (x.1 - UsedBlock.sizeof) (UsedBlock.sizeof + x.2)
  stores : ∀ x ∈ s.heap.stores, base.InPage x.1 x.2
  apart : s.live.Pairwise BlocksApart
  node : base.InPage s.heap.head (HeapNode.sizeof + sizeOf s.heap.mem s.heap.head)
  node_apart : ∀ x ∈ s.live, NodeApart s.heap.mem s.heap.head x

/-- The free list from `ptr` on. -/
def FreeList (m : Mem) : Nat → List Nat → Prop
  | ptr, [] => ptr = 0
  | ptr, node :: nodes => ptr = node ∧ node ≠ 0 ∧ FreeList m (load m (node + HeapNode.next) 8) nodes

/-- The free list is finite, in the page and clear of the live blocks. -/
def ListSound (base : ImageEnd) (s : Session) : Prop :=
  ∃ nodes, FreeList s.heap.mem s.heap.head nodes ∧ ∀ node ∈ nodes,
    base.InPage node (HeapNode.sizeof + sizeOf s.heap.mem node) ∧
      ∀ x ∈ s.live, NodeApart s.heap.mem node x

/-- A `free` leaves every other live block and its header as they are, and a request as large as the
freed block is then served. -/
def Reuse (s : Session) : Op → Session → Prop
  | .free p, s' =>
    (∀ x ∈ s.live, x.1 ≠ p → ∀ a, x.1 - UsedBlock.sizeof ≤ a → a < x.1 + x.2 →
      s'.heap.mem a = s.heap.mem a) ∧
    ∀ n, (p, n) ∈ s.live → ∃ q h, malloc s'.heap n = some (q, h) ∧ q ≠ 0
  | _, _ => True

/-- Clients free live blocks only, and store into them only. -/
def Session.May (s : Session) : Op → Prop
  | .malloc _ => True
  | .free p => ∃ n, (p, n) ∈ s.live
  | .write a _ => ∃ x ∈ s.live, x.1 ≤ a ∧ a < x.1 + x.2

/-- A request splits the node or is turned down, and a block is freed only while the node alone
could serve it again. -/
def Bump.Reuses (b : Bump) : Op → Prop
  | .malloc size => b.Splits size
  | .free p => ∀ n, (p, n) ∈ b.live → n < b.room
  | .write _ _ => True

variable {base : ImageEnd} {b : Bump} {s : Session}

/-- The list begins at `head`. -/
theorem ListSound.head (h : ListSound base s) (hne : s.heap.head ≠ 0) :
    base.InPage s.heap.head (HeapNode.sizeof + sizeOf s.heap.mem s.heap.head) := by
  obtain ⟨nodes, hlist, hsound⟩ := h
  cases nodes with
  | nil => exact (hne hlist).elim
  | cons node nodes =>
    rw [hlist.1]
    exact (hsound node (.head _)).1

/-- `heap_init` counts a whole page from `kernel_end_virtual` on. -/
theorem start_node (base : ImageEnd) (mem : Mem)
    (h : base.InPage (Session.start base mem).heap.head
      (HeapNode.sizeof + sizeOf (Session.start base mem).heap.mem (Session.start base mem).heap.head)) :
    base.addr % pageSize = 0 := by
  have hsize : sizeOf (Session.start base mem).heap.mem base.addr = 4084 := (Carries.start base mem).size
  have hend := h.2
  rw [show (Session.start base mem).heap.head = base.addr from rfl, hsize] at hend
  unfold HeapNode.sizeof pageSize at *
  omega

section Page
variable (haligned : base.addr % pageSize = 0)
include haligned

theorem inPage_iff (a n : Nat) :
    base.InPage a n ↔ base.addr ≤ a ∧ a + n ≤ base.addr + pageSize := by
  rw [ImageEnd.InPage, Nat.div_mul_cancel (Nat.dvd_of_mod_eq_zero haligned)]

theorem node_end {a n : Nat} (h : base.InPage a (HeapNode.sizeof + n)) : a + 12 ≤ base.addr + 4096 := by
  have hend := ((inPage_iff haligned _ _).mp h).2
  unfold HeapNode.sizeof pageSize at hend
  omega

theorem Carries.node (h : Carries base b s) :
    base.InPage b.next (HeapNode.sizeof + sizeOf s.heap.mem b.next) := by
  rw [inPage_iff haligned, show sizeOf s.heap.mem b.next = b.room from h.size]
  exact ⟨h.above, by rw [← Nat.add_assoc]; exact Nat.le_of_eq h.fills⟩

omit haligned in
theorem Carries.node_apart (h : Carries base b s) {x : Nat × Nat} (hx : x ∈ s.live) :
    NodeApart s.heap.mem b.next x := by
  rw [h.live] at hx
  have hb := h.blocks x hx
  exact .inl (by omega)

theorem Carries.confined (h : Carries base b s) : Confined base s where
  blocks x hx := by
    rw [h.live] at hx
    have hb := h.blocks x hx
    have hfills := h.fills
    rw [inPage_iff haligned]
    unfold UsedBlock.sizeof pageSize
    omega
  stores x hx := (inPage_iff haligned _ _).mpr (h.stores x hx)
  apart := by
    rw [h.live]
    exact h.apart
  node := by
    rw [h.head]
    exact h.node haligned
  node_apart x hx := by
    rw [h.head]
    exact h.node_apart hx

theorem Carries.listSound (h : Carries base b s) : ListSound base s := by
  have hlinked := base.linked
  have habove := h.above
  refine ⟨[b.next], ⟨h.head, by omega, h.next⟩, fun node hnode => ?_⟩
  rw [List.mem_singleton] at hnode
  subst hnode
  exact ⟨h.node haligned, fun x hx => h.node_apart hx⟩

end Page

/-- The calls of a run of `malloc`s all return, and every block and every node stays inside the page,
exactly when the page is aligned and each request splits the free node or is turned down. -/
theorem mallocs_confined_iff (base : ImageEnd) (mem : Mem) (sizes : List Nat) :
    Always (fun s size => s.step (.malloc size)) (Confined base) (fun _ _ _ => True)
        (.start base mem) sizes ↔
      base.addr % pageSize = 0 ∧
        Guarded (fun b size => b.step (.malloc size)) Bump.Splits (.start base) sizes := by
  by_cases haligned : base.addr % pageSize = 0
  · rw [and_iff_right haligned]
    have hmay : Allowed (fun s size => Session.step s (.malloc size)) (fun _ _ => True)
        (.start base mem) sizes := allowed_of_forall _ (fun _ _ => trivial) _ _
    refine always_iff_guarded (R := Carries base) (fun h => h.confined haligned) ?_ ?_
      (Carries.start base mem) hmay
    · intro b s size h _ hsplits
      obtain ⟨s', hs', hcarries⟩ := h.malloc_step haligned hsplits
      exact ⟨s', hs', trivial, hcarries⟩
    · intro b s size s' h _ hnot hs' _ hconfined
      have hspoils := h.malloc_spoils haligned hnot hs'
      have hnode := node_end haligned hconfined.node
      omega
  · constructor
    · exact fun h => (haligned (start_node base mem h.head.node)).elim
    · exact fun h => (haligned h.1).elim

/-- An image that ends at a page boundary. -/
def imageEnd : ImageEnd where
  addr := 0xffffffff80010000
  linked := by decide
  addr_lt := by decide

/-- A request that leaves four bytes of the page. -/
theorem boundary_node_outside :
    ¬ Always (fun s size => Session.step s (.malloc size)) (Confined imageEnd) (fun _ _ _ => True)
      (.start imageEnd fun _ => 0) [4080] := by
  rintro ⟨-, s', hs', -, hconfined⟩
  have haligned : imageEnd.addr % pageSize = 0 := by decide
  have hnot : ¬ (Bump.start imageEnd).Splits 4080 := by
    unfold Bump.Splits
    decide
  have hspoils := (Carries.start imageEnd _).malloc_spoils haligned hnot hs'
  have hnode := node_end haligned hconfined.node
  omega

section Reuse
variable (haligned : base.addr % pageSize = 0)
include haligned

/-- Every step that reuses memory is carried out, with what is claimed of it. -/
theorem Carries.step (h : Carries base b s) {op : Op} (hmay : s.May op) (hreuses : b.Reuses op) :
    ∃ s', s.step op = some s' ∧ Reuse s op s' ∧ Carries base (b.step op) s' := by
  cases op with
  | malloc size =>
    obtain ⟨s', hs', hcarries⟩ := h.malloc_step haligned hreuses
    exact ⟨s', hs', trivial, hcarries⟩
  | free p =>
    obtain ⟨n, hp⟩ := hmay
    rw [h.live] at hp
    obtain ⟨v, hs', hcarries⟩ := h.free_step haligned hp
    refine ⟨_, hs', ⟨fun x hx hne a hlo hhi => ?_, fun n' hp' => ?_⟩, hcarries⟩
    · -- the word that is written belongs to the header of the freed block
      rw [h.live] at hx
      have hb := h.blocks _ hp
      have hb' := h.blocks x hx
      have hapart := h.apart_of_ne hx hp hne
      refine store_off _ _ _ _ ?_
      unfold BlocksApart UsedBlock.sizeof at *
      dsimp only at *
      omega
    · rw [h.live] at hp'
      exact ⟨_, _, hcarries.malloc_fit haligned (hreuses n' hp'), Nat.succ_ne_zero _⟩
  | write a v =>
    obtain ⟨x, hx, -, hhi⟩ := hmay
    rw [h.live] at hx
    have hb := h.blocks x hx
    exact ⟨_, rfl, trivial, h.store_below (by omega)⟩

/-- A request across the end of the page spoils the list, and a block larger than the node is not
served again. -/
theorem Carries.step_spoils (h : Carries base b s) {op : Op} {s' : Session} (hmay : s.May op)
    (hnot : ¬ b.Reuses op) (hs' : s.step op = some s') (hreuse : Reuse s op s') :
    ¬ ListSound base s' := by
  cases op with
  | malloc size =>
    intro hsound
    have hspoils := h.malloc_spoils haligned hnot hs'
    have hlinked := base.linked
    have hnode := node_end haligned (hsound.head (by omega))
    omega
  | free p =>
    obtain ⟨n, hp⟩ := Classical.not_forall.mp hnot
    obtain ⟨hp, hfull⟩ := Classical.not_imp.mp hp
    obtain ⟨v, hstep, hcarries⟩ := h.free_step haligned hp
    obtain rfl := Option.some.inj (hstep.symm.trans hs')
    obtain ⟨q, h', hserved, hq⟩ := hreuse.2 n (by rw [h.live]; exact hp)
    rw [hcarries.malloc_full (Nat.le_of_not_lt hfull), Option.some.injEq, Prod.mk.injEq] at hserved
    exact (hq hserved.1.symm).elim
  | write a v => exact (hnot trivial).elim

end Reuse

/-- With clients that free and fill live blocks only, every call of a run returns, the free list stays
sound and freed memory can be had again exactly when the page is aligned, each request splits
the free node or is turned down, and each freed block is smaller than the node is then. -/
theorem frees_reused_iff (base : ImageEnd) (mem : Mem) (ops : List Op)
    (hmay : Allowed Session.step Session.May (.start base mem) ops) :
    Always Session.step (ListSound base) Reuse (.start base mem) ops ↔
      base.addr % pageSize = 0 ∧ Guarded Bump.step Bump.Reuses (.start base) ops := by
  by_cases haligned : base.addr % pageSize = 0
  · rw [and_iff_right haligned]
    exact always_iff_guarded (fun h => h.listSound haligned) (fun h => h.step haligned)
      (fun h => h.step_spoils haligned) (Carries.start base mem) hmay
  · refine ⟨fun h => ?_, fun h => (haligned h.1).elim⟩
    have hlinked := base.linked
    have hhead : (Session.start base mem).heap.head = base.addr := rfl
    exact (haligned (start_node base mem (ListSound.head h.head (by omega)))).elim

/-- The first block may be freed. -/
theorem allowed_malloc_free (mem : Mem) {n : Nat} (hfit : n < 4084) :
    Allowed Session.step Session.May (.start imageEnd mem)
      [.malloc n, .free (imageEnd.addr + UsedBlock.sizeof)] := by
  refine ⟨trivial, fun s hs => ⟨⟨n, ?_⟩, fun _ _ => trivial⟩⟩
  rw [(Carries.start imageEnd mem).step_fit (by decide) hfit, Option.some.injEq] at hs
  subst hs
  exact .head _

/-- A thousand bytes can be had, freed and had again. -/
theorem thousand_bytes_reused :
    Allowed Session.step Session.May (.start imageEnd fun _ => 0)
        [.malloc 1000, .free (imageEnd.addr + UsedBlock.sizeof)] ∧
      Always Session.step (ListSound imageEnd) Reuse (.start imageEnd fun _ => 0)
        [.malloc 1000, .free (imageEnd.addr + UsedBlock.sizeof)] := by
  have hmay := allowed_malloc_free (fun _ => 0) (n := 1000) (by decide)
  refine ⟨hmay, (frees_reused_iff _ _ _ hmay).mpr ⟨by decide, .inl (by decide), fun n hn => ?_, trivial⟩⟩
  rw [show n = 1000 from (Prod.mk.inj (List.mem_singleton.mp hn)).2]
  decide

/-- Four thousand bytes cannot be had twice, also when they are freed in between. -/
theorem four_thousand_bytes_lost :
    Allowed Session.step Session.May (.start imageEnd fun _ => 0)
        [.malloc 4000, .free (imageEnd.addr + UsedBlock.sizeof)] ∧
      ¬ Always Session.step (ListSound imageEnd) Reuse (.start imageEnd fun _ => 0)
        [.malloc 4000, .free (imageEnd.addr + UsedBlock.sizeof)] := by
  have haligned : imageEnd.addr % pageSize = 0 := by decide
  have hmay := allowed_malloc_free (fun _ => 0) (n := 4000) (by decide)
  refine ⟨hmay, ?_⟩
  rintro ⟨-, s, hs, -, -, s', hs', hreuse, hsound⟩
  obtain ⟨_, hstep, hcarries⟩ := (Carries.start imageEnd _).malloc_step haligned
    (.inl (by decide) : (Bump.start imageEnd).Splits 4000)
  obtain rfl := Option.some.inj (hstep.symm.trans hs)
  refine hcarries.step_spoils haligned (hmay.2 _ hs).1 (fun h => ?_) hs' hreuse hsound
  exact absurd (h 4000 (.head _)) (by decide)

end NyaOS.Stdlib
