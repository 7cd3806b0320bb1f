import Mathlib.Data.List.Pairwise
import NyaOS.Library.ByteMemory

/-! `malloc` and `free` of `heap.c` over byte memory. A free node is a packed `next` pointer and a
32-bit size, twelve bytes; a used block has a magic number and a 32-bit size in front, eight
bytes. Pointers are addresses, `NULL` is 0. -/
namespace NyaOS.Stdlib
open Library.ByteMemory

def pageSize : Nat := 0x1000

def magic : Nat := 0xDEADBEEF

namespace HeapNode
abbrev next : Nat := 0
abbrev size : Nat := 8
abbrev sizeof : Nat := 12
end HeapNode

namespace UsedBlock
abbrev magic : Nat := 0
abbrev size : Nat := 4
abbrev sizeof : Nat := 8
end UsedBlock

/-- `kernel_end_virtual`, where the heap begins: the image is linked in the top 2 GiB and its end
need not be page-aligned. -/
structure ImageEnd where
  addr : Nat
  linked : 0xffffffff80000000 ≤ addr
  addr_lt : addr < 2 ^ 64

/-- Memory, the statics `head` and `heap_end`, and the stores made since `heap_init`, latest
first, each as an address and a length. -/
structure Heap where
  mem : Mem
  head : Nat
  heapEnd : Nat
  stores : List (Nat × Nat)

def Heap.put (h : Heap) (a n v : Nat) : Heap :=
  { h with mem := store h.mem a n v, stores := (a, n) :: h.stores }

/-- `heap_init`, with whatever the page just mapped holds. `head + PAGE_SIZE` counts in nodes. -/
def heapInit (base : ImageEnd) (mem : Mem) : Heap where
  mem := store (store mem (base.addr + HeapNode.next) 8 0) (base.addr + HeapNode.size) 4
    (pageSize - HeapNode.sizeof)
  head := base.addr
  heapEnd := (base.addr + pageSize * HeapNode.sizeof) % 2 ^ 64
  stores := []

/-- The loop of `malloc`: the first node that is not in use and larger than the request, 0 if there
is none. It writes nothing, so a walk longer than there are addresses never ends. -/
def findNode (m : Mem) (size : Nat) : Nat → Nat → Option Nat
  | 0, _ => none
  | fuel + 1, ptr =>
    if ptr = 0 then some 0
    else if load m (ptr + HeapNode.size) 4 ≠ magic ∧ size < load m (ptr + HeapNode.size) 4 then some ptr
    else findNode m size fuel (load m (ptr + HeapNode.next) 8)

/-- Splitting the node at `ptr`: the rest becomes a node of its own, then the front is overwritten by
the header of a used block. The new size is computed in 64 bits and cut to 32. -/
def split (h : Heap) (ptr size : Nat) : Heap :=
  let tmp := (ptr + HeapNode.sizeof + size) % 2 ^ 64
  let h := h.put (tmp + HeapNode.size) 4
    ((load h.mem (ptr + HeapNode.size) 4 + 2 ^ 64 - size + 2 ^ 64 - HeapNode.sizeof) % 2 ^ 32)
  let h := h.put (tmp + HeapNode.next) 8 (load h.mem (ptr + HeapNode.next) 8)
  let h := if ptr = h.head then { h with head := tmp } else h
  let h := h.put (ptr + UsedBlock.size) 4 (size % 2 ^ 32)
  h.put (ptr + UsedBlock.magic) 4 magic

/-- `malloc` of a `size_t`; it returns unless the free list has a cycle. -/
def malloc (h : Heap) (size : Nat) : Option (Nat × Heap) :=
  (findNode h.mem size (2 ^ 64) h.head).map fun ptr =>
    if ptr = 0 then (0, h) else (ptr + UsedBlock.sizeof, split h ptr size)

/-- The loop at the end of `free`, whose body is empty: it ends where the list does. -/
def walkList (m : Mem) : Nat → Nat → Option Unit
  | 0, _ => none
  | fuel + 1, tmp => if tmp = 0 then some () else walkList m fuel (load m (tmp + HeapNode.next) 8)

/-- `free`: the block is taken for a free node that ends at `p`. -/
def free (h : Heap) (p : Nat) : Option Heap :=
  let ptr := (p + 2 ^ 64 - HeapNode.sizeof) % 2 ^ 64
  let next := load h.mem (ptr + HeapNode.next) 8
  let size := if next = 0 then h.heapEnd + 2 ^ 64 - p else next + 2 ^ 64 - p
  let h := h.put (ptr + HeapNode.size) 4 (size % 2 ^ 32)
  (walkList h.mem (2 ^ 64) h.head).map fun _ => h

/-- A request to the heap, or a byte that a client stores. -/
inductive Op where
  | malloc (size : Nat)
  | free (p : Nat)
  | write (a : Nat) (v : Nat)

/-- The heap and the blocks that are live, as pointers with the sizes asked for. -/
structure Session where
  heap : Heap
  live : List (Nat × Nat)

def Session.start (base : ImageEnd) (mem : Mem) : Session := ⟨heapInit base mem, []⟩

def Session.step (s : Session) : Op → Option Session
  | .malloc size => (malloc s.heap size).map fun r =>
      if r.1 = 0 then { s with heap := r.2 } else ⟨r.2, (r.1, size) :: s.live⟩
  | .free p => (free s.heap p).map fun h => ⟨h, s.live.filter (·.1 ≠ p)⟩
  | .write a v => some { s with heap := { s.heap with mem := store s.heap.mem a 1 v } }

/-! The heap as it is meant: one free node that moves up through the page, in front of the live
blocks it has left behind. -/

/-- The free node's address and size, and the live blocks. -/
structure Bump where
  next : Nat
  room : Nat
  live : List (Nat × Nat)

def Bump.start (base : ImageEnd) : Bump := ⟨base.addr, pageSize - HeapNode.sizeof, []⟩

def Bump.step (b : Bump) : Op → Bump
  | .malloc size =>
    if size < b.room then
      ⟨b.next + HeapNode.sizeof + size, b.room - size - HeapNode.sizeof,
        (b.next + UsedBlock.sizeof, size) :: b.live⟩
    else b
  | .free p => { b with live := b.live.filter (·.1 ≠ p) }
  | .write _ _ => b

/-- A request that leaves room for the node behind it, or does not fit at all. -/
def Bump.Splits (b : Bump) (size : Nat) : Prop := size + HeapNode.sizeof ≤ b.room ∨ b.room ≤ size

/-- Two blocks with their headers do not meet. -/
def BlocksApart (b b' : Nat × Nat) : Prop :=
  b.1 + b.2 ≤ b'.1 - UsedBlock.sizeof ∨ b'.1 + b'.2 ≤ b.1 - UsedBlock.sizeof

/-- The bytes `[a, a + n)` lie in the page that `heap_init` maps. -/
def ImageEnd.InPage (base : ImageEnd) (a n : Nat) : Prop :=
  base.addr / pageSize * pageSize ≤ a ∧ a + n ≤ base.addr / pageSize * pageSize + pageSize

/-- The heap carries out `b`: one node at `b.next` with the rest of the page behind it, the live
blocks below it. -/
structure Carries (base : ImageEnd) (b : Bump) (s : Session) : Prop where
  head : s.heap.head = b.next
  live : s.live = b.live
  next : load s.heap.mem b.next 8 = 0
  size : load s.heap.mem (b.next + 8) 4 = b.room
  above : base.addr ≤ b.next
  fills : b.next + 12 + b.room = base.addr + 4096
  blocks : ∀ x ∈ b.live, base.addr + 8 ≤ x.1 ∧ x.1 + x.2 + 4 ≤ b.next
  apart : b.live.Pairwise BlocksApart
  stores : ∀ x ∈ s.heap.stores, base.addr ≤ x.1 ∧ x.1 + x.2 ≤ base.addr + 4096

variable {base : ImageEnd} {b : Bump} {s : Session}

theorem Carries.start (base : ImageEnd) (mem : Mem) :
    Carries base (.start base) (.start base mem) where
  head := rfl
  live := rfl
  next := by
    unfold Session.start heapInit Bump.start HeapNode.next HeapNode.size
    simp (disch := omega) only [load_store_off, load_store, Nat.add_zero]
  size := load_store _ _ (by decide)
  above := Nat.le_refl _
  fills := Nat.add_assoc ..
  blocks _ hx := nomatch hx
  apart := .nil
  stores _ hx := nomatch hx

/-- On a list of one node the search ends at once. -/
theorem Carries.findNode (h : Carries base b s) (size : Nat) :
    findNode s.heap.mem size (2 ^ 64) s.heap.head = some (if size < b.room then b.next else 0) := by
  have hlinked := base.linked
  have habove := h.above
  have hfills := h.fills
  have hne : b.next ≠ 0 := by omega
  have hmagic : b.room ≠ magic := by
    unfold magic
    omega
  rw [show 2 ^ 64 = 2 ^ 64 - 2 + 1 + 1 from rfl, Stdlib.findNode, h.head, if_neg hne, h.size]
  by_cases hfit : size < b.room
  · rw [if_pos ⟨hmagic, hfit⟩, if_pos hfit]
  · rw [if_neg fun h => hfit h.2, if_neg hfit, show load s.heap.mem (b.next + HeapNode.next) 8 = 0
      from h.next, Stdlib.findNode, if_pos rfl]

theorem Carries.malloc_full (h : Carries base b s) {size : Nat} (hfull : b.room ≤ size) :
    malloc s.heap size = some (0, s.heap) := by
  rw [malloc, h.findNode, if_neg (Nat.not_lt.mpr hfull)]
  rfl

instance : Std.Symm BlocksApart where
  symm _ _ := Or.symm

theorem Carries.apart_of_ne (h : Carries base b s) {x y : Nat × Nat} (hx : x ∈ b.live)
    (hy : y ∈ b.live) (hne : x.1 ≠ y.1) : BlocksApart x y :=
  h.apart.forall hx hy fun he => hne (congrArg Prod.fst he)

/-- The heap after `size` bytes are served from the front of the node. -/
def Bump.serve (b : Bump) (h : Heap) (size : Nat) : Heap where
  mem := store (store (store (store h.mem (b.next + 12 + size + 8) 4
    ((b.room + 2 ^ 64 - size + 2 ^ 64 - 12) % 2 ^ 32)) (b.next + 12 + size) 8 0)
    (b.next + 4) 4 size) b.next 4 magic
  head := b.next + 12 + size
  heapEnd := h.heapEnd
  stores := (b.next, 4) :: (b.next + 4, 4) :: (b.next + 12 + size, 8) ::
    (b.next + 12 + size + 8, 4) :: h.stores

/-- Serving a request moves the node up past the new block, and the node stays in the page if it has
room for itself. -/
theorem Carries.serve (h : Carries base b s) {size : Nat} (hroom : size + 12 ≤ b.room) :
    Carries base ⟨b.next + 12 + size, b.room - size - 12, (b.next + 8, size) :: b.live⟩
      ⟨b.serve s.heap size, (b.next + 8, size) :: s.live⟩ where
  head := rfl
  live := by rw [h.live]
  next := by
    unfold Bump.serve
    simp (disch := omega) only [load_store_off, load_store]
  size := by
    have habove := h.above
    have hfills := h.fills
    have hmod : (b.room + 2 ^ 64 - size + 2 ^ 64 - 12) % 2 ^ 32 = b.room - size - 12 := by omega
    unfold Bump.serve
    simp (disch := omega) only [load_store_off, load_store, hmod]
  above := Nat.le_trans h.above (by dsimp only; omega)
  fills := by
    rw [← h.fills]
    dsimp only
    omega
  blocks x hx := by
    have habove := h.above
    rcases List.mem_cons.mp hx with rfl | hx
    · dsimp only
      omega
    · have hb := h.blocks x hx
      dsimp only
      omega
  apart := by
    refine List.pairwise_cons.mpr ⟨fun x hx => Or.inr ?_, h.apart⟩
    have hb := h.blocks x hx
    unfold UsedBlock.sizeof
    dsimp only
    omega
  stores x hx := by
    have habove := h.above
    have hfills := h.fills
    simp only [Bump.serve, List.mem_cons] at hx
    rcases hx with rfl | rfl | rfl | rfl | hx
    iterate 4 exact ⟨by dsimp only; omega, by dsimp only; omega⟩
    exact h.stores x hx

/-- Stores below the node leave the heap as it is. -/
theorem Carries.store_below (h : Carries base b s) {a n v : Nat} (ha : a + n ≤ b.next) :
    Carries base b { s with heap := { s.heap with mem := store s.heap.mem a n v } } :=
  { h with
    next := by rw [load_store_off _ _ _ _ (.inr ha), h.next]
    size := by rw [load_store_off _ _ _ _ (.inr (by omega)), h.size] }

section Page
variable (haligned : base.addr % pageSize = 0)
include haligned

theorem Carries.end_le (h : Carries base b s) : b.next + 12 + b.room ≤ 2 ^ 64 := by
  have hfills := h.fills
  have hlt := base.addr_lt
  unfold pageSize at haligned
  omega

/-- A request below the node's size is served from the node's front, whatever is left behind. -/
theorem Carries.malloc_fit (h : Carries base b s) {size : Nat} (hfit : size < b.room) :
    malloc s.heap size = some (b.next + 8, b.serve s.heap size) := by
  have hend := h.end_le haligned
  have hfills := h.fills
  have hlinked := base.linked
  have habove := h.above
  have hne : b.next ≠ 0 := by omega
  have htmp : (b.next + 12 + size) % 2 ^ 64 = b.next + 12 + size := Nat.mod_eq_of_lt (by omega)
  have hnext : ∀ v, load (store s.heap.mem (b.next + 12 + size + 8) 4 v) b.next 8 = 0 := by
    intro v
    rw [load_store_off _ _ _ _ (by omega), h.next]
  have hsize : size % 2 ^ 32 = size := Nat.mod_eq_of_lt (by omega)
  rw [malloc, h.findNode, if_pos hfit, Option.map_some, if_neg hne]
  unfold split Heap.put HeapNode.next HeapNode.size HeapNode.sizeof UsedBlock.size UsedBlock.magic
    UsedBlock.sizeof
  simp only [htmp, Nat.add_zero, hnext, h.size, h.head, if_true, hsize]
  rfl

theorem Carries.step_fit (h : Carries base b s) {size : Nat} (hfit : size < b.room) :
    s.step (.malloc size) = some ⟨b.serve s.heap size, (b.next + 8, size) :: s.live⟩ := by
  rw [Session.step, h.malloc_fit haligned hfit, Option.map_some, if_neg (Nat.succ_ne_zero _)]

/-- A request that splits is served, or turned down. -/
theorem Carries.malloc_step (h : Carries base b s) {size : Nat} (hsplits : b.Splits size) :
    ∃ s', s.step (.malloc size) = some s' ∧ Carries base (b.step (.malloc size)) s' := by
  by_cases hfit : size < b.room
  · refine ⟨_, h.step_fit haligned hfit, ?_⟩
    rw [Bump.step, if_pos hfit]
    exact h.serve (hsplits.resolve_right (by omega))
  · refine ⟨s, ?_, ?_⟩
    · rw [Session.step, h.malloc_full (Nat.le_of_not_lt hfit)]
      rfl
    · rw [Bump.step, if_neg hfit]
      exact h

/-- A request that leaves fewer bytes than a node has puts the node across the end of the page. -/
theorem Carries.malloc_spoils (h : Carries base b s) {size : Nat} {s' : Session}
    (hnot : ¬ b.Splits size) (hs : s.step (.malloc size) = some s') :
    base.addr + 4096 < s'.heap.head + 12 := by
  unfold Bump.Splits HeapNode.sizeof at hnot
  have hfills := h.fills
  rw [h.step_fit haligned (by omega), Option.some.injEq] at hs
  subst hs
  show base.addr + 4096 < b.next + 12 + size + 12
  omega

/-- `free` writes the word in front of the block, which is the block's own, and the walk after it
ends at the one node there is. -/
theorem Carries.free_eq (h : Carries base b s) {x : Nat × Nat} (hx : x ∈ b.live) :
    ∃ v, free s.heap x.1 = some (s.heap.put (x.1 - 4) 4 v) := by
  have hb := h.blocks x hx
  have hlinked := base.linked
  have hend := h.end_le haligned
  have hptr : (x.1 + 2 ^ 64 - 12) % 2 ^ 64 + 8 = x.1 - 4 := by omega
  have hwalk : ∀ v, walkList (s.heap.put (x.1 - 4) 4 v).mem (2 ^ 64) (s.heap.put (x.1 - 4) 4 v).head =
      some () := by
    intro v
    have hhead : (s.heap.put (x.1 - 4) 4 v).head = b.next := h.head
    have hnext : load (s.heap.put (x.1 - 4) 4 v).mem (b.next + HeapNode.next) 8 = 0 :=
      (load_store_off _ _ _ _ (.inr (by omega))).trans h.next
    rw [show 2 ^ 64 = 2 ^ 64 - 2 + 1 + 1 from rfl, hhead, walkList, if_neg (by omega), hnext, walkList,
      if_pos rfl]
  unfold free HeapNode.sizeof HeapNode.size
  simp only [hptr, hwalk, Option.map_some]
  exact ⟨_, rfl⟩

/-- A freed block leaves the node and the other blocks where they are. -/
theorem Carries.free_step (h : Carries base b s) {x : Nat × Nat} (hx : x ∈ b.live) :
    ∃ v, s.step (.free x.1) = some ⟨s.heap.put (x.1 - 4) 4 v, s.live.filter (·.1 ≠ x.1)⟩ ∧
      Carries base (b.step (.free x.1)) ⟨s.heap.put (x.1 - 4) 4 v, s.live.filter (·.1 ≠ x.1)⟩ := by
  have hb := h.blocks x hx
  obtain ⟨v, hfree⟩ := h.free_eq haligned hx
  refine ⟨v, by rw [Session.step, hfree, Option.map_some], ?_⟩
  have hbelow := h.store_below (a := x.1 - 4) (n := 4) (v := v) (by omega)
  exact
    { head := h.head
      live := by rw [h.live]; rfl
      next := hbelow.next
      size := hbelow.size
      above := h.above
      fills := h.fills
      blocks := fun y hy => h.blocks y (List.mem_filter.mp hy).1
      apart := h.apart.filter _
      stores := by
        intro y hy
        have hfills := h.fills
        rcases List.mem_cons.mp hy with rfl | hy
        · dsimp only
          omega
        · exact h.stores y hy }

end Page

end NyaOS.Stdlib
