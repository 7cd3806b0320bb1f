import Mathlib.Data.List.Nodup
import NyaOS.Library.LinkedList
import NyaOS.Slab.Code

/-! Running the code step by step, and what the list operations do to memory. -/
namespace NyaOS.Slab
open Library.ByteMemory Library.LinkedList

section Run
variable {α β : Type} {x : Kernel α} {f : α → Kernel β} {w w' : World} {a : α}

theorem bind_run (h : x w = some (a, w')) : (x >>= f) w = f a w' := by
  change (StateT.bind x f) w = f a w'
  rw [StateT.bind, h]
  rfl

theorem bind_none (h : x w = none) : (x >>= f) w = none := by
  change (StateT.bind x f) w = none
  rw [StateT.bind, h]
  rfl

theorem ite_run {P : Prop} [Decidable P] {x y : Kernel α} :
    (if P then x else y) w = if P then x w else y w := by
  split <;> rfl

theorem kallocFrames_run (k : Machine) (n : Nat) (m : Mem) (calls : List FrameCall) :
    k.kallocFrames n ⟨m, calls⟩ =
      some (k.kalloc calls.length, ⟨m, .alloc (k.kalloc calls.length) n :: calls⟩) := rfl

variable {m : Mem} {calls : List FrameCall} {p off v : Nat} (hp : p ≠ 0)
include hp

theorem read_run : read p off ⟨m, calls⟩ = some (load m (p + off) 8, ⟨m, calls⟩) := if_neg hp

/-- A read whose value is known. -/
theorem read_eq (hv : load m (p + off) 8 = v) : read p off ⟨m, calls⟩ = some (v, ⟨m, calls⟩) := by
  rw [read_run hp, hv]

theorem write_run : write p off v ⟨m, calls⟩ = some ((), ⟨store m (p + off) 8 v, calls⟩) := if_neg hp

theorem readInt_run : readInt p off ⟨m, calls⟩ = some (intAt m (p + off), ⟨m, calls⟩) := if_neg hp

theorem readInt_eq {v : Int} (hv : intAt m (p + off) = v) :
    readInt p off ⟨m, calls⟩ = some (v, ⟨m, calls⟩) := by
  rw [readInt_run hp, hv]

theorem writeInt_run {v : Int} : writeInt p off v ⟨m, calls⟩ =
    some ((), ⟨store m (p + off) 4 (BitVec.ofInt 32 v).toNat, calls⟩) := if_neg hp

theorem memset_run {n : Nat} : memset p n ⟨m, calls⟩ = some ((), ⟨store m p n 0, calls⟩) := if_neg hp

end Run

/-- A slab that gave its last free buffer moves from the slabs with free buffers to the full ones: the
list of all slabs stays the same. -/
theorem full_append_part {α : Type} (left : List Nat) (full rest : List α) (p : α) :
    (if left = [] then full ++ [p] else full) ++ (if left = [] then rest else p :: rest) =
      full ++ p :: rest := by
  split
  · rw [List.append_assoc, List.singleton_append]
  · rfl

def nextOf (m : Mem) (slab : Nat) : Nat := load m (slab + KmemSlab.next) 8
def prevOf (m : Mem) (slab : Nat) : Nat := load m (slab + KmemSlab.prev) 8

/-- The link fields of a slab header. -/
def Links (slab x : Nat) : Prop := slab ≤ x ∧ x < slab + 16

theorem insertSlab_run {m : Mem} (calls : List FrameCall) {a it slab : Nat} (hprev : prevOf m it = a) (ha : a ≠ 0)
    (hit : it ≠ 0) (hslab : slab ≠ 0) (hlt : slab < 2 ^ 64) (hitlt : it < 2 ^ 64)
    (hps : a + 48 ≤ slab ∨ slab + 48 ≤ a) (hpi : a + 48 ≤ it ∨ it + 48 ≤ a)
    (his : it + 48 ≤ slab ∨ slab + 48 ≤ it) :
    ∃ m', insertSlab it slab ⟨m, calls⟩ = some ((), ⟨m', calls⟩) ∧
      OnlyIn (fun x => Links a x ∨ Links slab x ∨ Links it x) m m' ∧
      nextOf m' a = slab ∧ prevOf m' slab = a ∧ nextOf m' slab = it ∧ prevOf m' it = slab ∧
      prevOf m' a = prevOf m a ∧ nextOf m' it = nextOf m it := by
  have halt : a < 256 ^ 8 := hprev ▸ load_lt _ _ _
  have hkeep : load (store m (a + 8) 8 slab) (it + 0) 8 = a := by
    rw [load_store_off _ _ _ _ (by omega)]
    exact hprev
  refine ⟨store (store (store (store m (a + 8) 8 slab) slab 8 a) it 8 slab) (slab + 8) 8 it,
    ?_, ?_, ?_⟩
  · rw [insertSlab, bind_run (read_eq hit hprev)]
    rw [bind_run (write_run ha), bind_run (read_eq hit hkeep), bind_run (write_run hslab),
      bind_run (write_run hit), write_run hslab]
    rfl
  · refine (((onlyIn_store _ ?_).trans (onlyIn_store _ ?_)).trans (onlyIn_store _ ?_)).trans
      (onlyIn_store _ ?_) <;> (unfold Links; omega)
  · unfold nextOf prevOf KmemSlab.next KmemSlab.prev
    simp (disch := omega) only [load_store, load_store_off, Nat.add_zero, and_self]

theorem rmSlab_run {m : Mem} (calls : List FrameCall) {a b slab : Nat} (hprev : prevOf m slab = a)
    (hnext : nextOf m slab = b) (ha : a ≠ 0) (hb : b ≠ 0) (hslab : slab ≠ 0)
    (has : a + 48 ≤ slab ∨ slab + 48 ≤ a) (hbs : b + 48 ≤ slab ∨ slab + 48 ≤ b)
    (hab : a + 48 ≤ b ∨ b + 48 ≤ a) :
    ∃ m', rmSlab slab ⟨m, calls⟩ = some ((), ⟨m', calls⟩) ∧
      OnlyIn (fun x => Links a x ∨ Links slab x ∨ Links b x) m m' ∧
      nextOf m' a = b ∧ prevOf m' b = a ∧ prevOf m' a = prevOf m a ∧
      nextOf m' b = nextOf m b := by
  have halt : a < 256 ^ 8 := hprev ▸ load_lt _ _ _
  have hblt : b < 256 ^ 8 := hnext ▸ load_lt _ _ _
  have hkeepNext : load (store m (a + 8) 8 b) (slab + 8) 8 = b := by
    rw [load_store_off _ _ _ _ (by omega)]
    exact hnext
  have hkeepPrev : load (store m (a + 8) 8 b) (slab + 0) 8 = a := by
    rw [load_store_off _ _ _ _ (by omega)]
    exact hprev
  refine ⟨store (store (store (store m (a + 8) 8 b) b 8 a) (slab + 8) 8 0) slab 8 0, ?_, ?_, ?_⟩
  · rw [rmSlab, bind_run (read_eq hslab hprev), bind_run (read_eq hslab hnext),
      bind_run (write_run ha), bind_run (read_eq hslab hkeepNext),
      bind_run (read_eq hslab hkeepPrev), bind_run (write_run hb), bind_run (write_run hslab),
      write_run hslab]
    rfl
  · refine (((onlyIn_store _ ?_).trans (onlyIn_store _ ?_)).trans (onlyIn_store _ ?_)).trans
      (onlyIn_store _ ?_) <;> (unfold Links; omega)
  · unfold nextOf prevOf KmemSlab.next KmemSlab.prev
    simp (disch := omega) only [load_store, load_store_off, Nat.add_zero, and_self]

/-- Slab headers at distinct, disjoint places. -/
structure Headers (l : List Nat) : Prop where
  nodup : l.Nodup
  bounds : ∀ x ∈ l, x ≠ 0 ∧ x + 48 ≤ 2 ^ 64
  apart : ∀ x ∈ l, ∀ y ∈ l, x ≠ y → x + 48 ≤ y ∨ y + 48 ≤ x

/-- Slabs apart from each other and from the cache object, between the two sentinels. -/
theorem headers_sentinels {cache : Nat} {hs : List Nat} (hc : cache + 168 ≤ 2 ^ 64) (hnd : hs.Nodup)
    (hbounds : ∀ h ∈ hs, h ≠ 0 ∧ h + 48 ≤ 2 ^ 64)
    (hcache : ∀ h ∈ hs, h + 48 ≤ cache ∨ cache + 168 ≤ h)
    (hapart : ∀ x ∈ hs, ∀ y ∈ hs, x ≠ y → x + 48 ≤ y ∨ y + 48 ≤ x) :
    Headers ((cache + 72) :: (hs ++ [cache + 120])) := by
  have hmem : ∀ x, x ∈ (cache + 72) :: (hs ++ [cache + 120]) ↔
      x = cache + 72 ∨ x ∈ hs ∨ x = cache + 120 := by simp
  refine ⟨?_, ?_, ?_⟩
  · rw [List.nodup_cons, List.nodup_append]
    refine ⟨?_, hnd, List.nodup_singleton _, ?_⟩
    · intro hx
      rcases List.mem_append.mp hx with hx | hx
      · have := hcache _ hx
        omega
      · have := List.mem_singleton.mp hx
        omega
    · rintro x hx y hy rfl
      have := hcache x hx
      have := List.mem_singleton.mp hy
      omega
  · intro x hx
    rcases (hmem x).mp hx with rfl | hx | rfl
    · omega
    · exact hbounds x hx
    · omega
  · intro x hx y hy hne
    rcases (hmem x).mp hx with rfl | hx | rfl <;> rcases (hmem y).mp hy with rfl | hy | rfl
    · omega
    · have := hcache y hy
      omega
    · omega
    · have := hcache x hx
      omega
    · exact hapart x hx y hy hne
    · have := hcache x hx
      omega
    · omega
    · have := hcache y hy
      omega
    · omega

section Edit
variable {m : Mem} (calls : List FrameCall) {l₁ l₂ : List Nat} {a b slab : Nat}

/-- The links of headers that are not edited. -/
theorem links_of_onlyIn {m m' : Mem} {S : Nat → Prop} (h : OnlyIn S m m') {x : Nat}
    (hx : ∀ y, Links x y → ¬ S y) : nextOf m' x = nextOf m x ∧ prevOf m' x = prevOf m x := by
  unfold Links at hx
  unfold nextOf prevOf KmemSlab.next KmemSlab.prev
  constructor
  · exact h.load fun y _ _ => hx y (by omega)
  · exact h.load fun y _ _ => hx y (by omega)

/-- An edit of three headers keeps the links of all others. -/
private theorem links_of_other {m m' : Mem} (hok : Headers (l₁ ++ a :: slab :: b :: l₂))
    (h : OnlyIn (fun x => Links a x ∨ Links slab x ∨ Links b x) m m') {x : Nat}
    (hx : x ∈ l₁ ∨ x ∈ l₂) : nextOf m' x = nextOf m x ∧ prevOf m' x = prevOf m x := by
  have hmem : x ∈ l₁ ++ a :: slab :: b :: l₂ := by
    rcases hx with hx | hx
    · simp [hx]
    · simp [hx]
  have hnd := hok.nodup
  simp only [List.nodup_append, List.nodup_cons, List.mem_cons, not_or] at hnd
  have hne : x ≠ a ∧ x ≠ slab ∧ x ≠ b := by
    rcases hx with hx | hx
    · have := hnd.2.2 x hx
      exact ⟨this a (.inl rfl), this slab (.inr (.inl rfl)), this b (.inr (.inr (.inl rfl)))⟩
    · refine ⟨?_, ?_, ?_⟩ <;> rintro rfl
      · exact hnd.2.1.1.2.2 hx
      · exact hnd.2.1.2.1.2 hx
      · exact hnd.2.1.2.2.1 hx
  have h₁ := hok.apart x hmem a (by simp) hne.1
  have h₂ := hok.apart x hmem slab (by simp) hne.2.1
  have h₃ := hok.apart x hmem b (by simp) hne.2.2
  apply links_of_onlyIn h
  intro y hy
  unfold Links at hy ⊢
  omega

private theorem links_kept {m m' : Mem} (hok : Headers (l₁ ++ a :: slab :: b :: l₂))
    (h : OnlyIn (fun x => Links a x ∨ Links slab x ∨ Links b x) m m')
    (hnb : nextOf m' b = nextOf m b) (hpa : prevOf m' a = prevOf m a) :
    (∀ x ∈ l₁ ++ b :: l₂, nextOf m' x = nextOf m x) ∧
      ∀ x ∈ l₁ ++ a :: l₂, prevOf m' x = prevOf m x := by
  constructor <;> intro x hx <;> simp only [List.mem_append, List.mem_cons] at hx
  · rcases hx with hx | rfl | hx
    · exact (links_of_other hok h (.inl hx)).1
    · exact hnb
    · exact (links_of_other hok h (.inr hx)).1
  · rcases hx with hx | rfl | hx
    · exact (links_of_other hok h (.inl hx)).2
    · exact hpa
    · exact (links_of_other hok h (.inr hx)).2

private theorem middle_ne (hok : Headers (l₁ ++ a :: slab :: b :: l₂)) :
    a ≠ slab ∧ a ≠ b ∧ slab ≠ b := by
  have hnd := hok.nodup
  simp only [List.nodup_append, List.nodup_cons, List.mem_cons, not_or] at hnd
  exact ⟨hnd.2.1.1.1, hnd.2.1.1.2.1, hnd.2.1.2.1.1⟩

/-- `_insert_slab` before `b` puts the slab between `b` and its predecessor. -/
theorem insertSlab_linked (hok : Headers (l₁ ++ a :: slab :: b :: l₂))
    (h : Linked (nextOf m) (prevOf m) (l₁ ++ a :: b :: l₂)) :
    ∃ m', insertSlab b slab ⟨m, calls⟩ = some ((), ⟨m', calls⟩) ∧
      OnlyIn (fun x => Links a x ∨ Links slab x ∨ Links b x) m m' ∧
      Linked (nextOf m') (prevOf m') (l₁ ++ a :: slab :: b :: l₂) := by
  obtain ⟨_, ⟨_, hba⟩, _⟩ := linked_append_iff.mp h
  obtain ⟨has, hab, hsb⟩ := middle_ne hok
  have hbounds := hok.bounds
  have hsl := hbounds slab (by simp)
  have hbl := hbounds b (by simp)
  obtain ⟨m', hrun, honly, hna, hps, hns, hpb, hpa, hnb⟩ := insertSlab_run calls hba
    (hbounds a (by simp)).1 hbl.1 hsl.1 (by omega) (by omega)
    (hok.apart a (by simp) slab (by simp) has) (hok.apart a (by simp) b (by simp) hab)
    (hok.apart b (by simp) slab (by simp) hsb.symm)
  obtain ⟨hnext, hprev⟩ := links_kept hok honly hnb hpa
  exact ⟨m', hrun, honly, h.insert hnext hprev hna hps hns hpb⟩

/-- `_rm_slab` closes the gap between the slab's neighbours. -/
theorem rmSlab_linked (hok : Headers (l₁ ++ a :: slab :: b :: l₂))
    (h : Linked (nextOf m) (prevOf m) (l₁ ++ a :: slab :: b :: l₂)) :
    ∃ m', rmSlab slab ⟨m, calls⟩ = some ((), ⟨m', calls⟩) ∧
      OnlyIn (fun x => Links a x ∨ Links slab x ∨ Links b x) m m' ∧
      Linked (nextOf m') (prevOf m') (l₁ ++ a :: b :: l₂) := by
  obtain ⟨_, ⟨_, hsa⟩, hright⟩ := linked_append_iff.mp h
  obtain ⟨⟨hsn, _⟩, _⟩ := List.isChain_cons_cons.mp hright
  obtain ⟨has, hab, hsb⟩ := middle_ne hok
  have hbounds := hok.bounds
  obtain ⟨m', hrun, honly, hna, hpb, hpa, hnb⟩ := rmSlab_run calls hsa hsn
    (hbounds a (by simp)).1 (hbounds b (by simp)).1 (hbounds slab (by simp)).1
    (hok.apart a (by simp) slab (by simp) has) (hok.apart b (by simp) slab (by simp) hsb.symm)
    (hok.apart a (by simp) b (by simp) hab)
  obtain ⟨hnext, hprev⟩ := links_kept hok honly hnb hpa
  exact ⟨m', hrun, honly, h.remove hnext hprev hna hpb⟩

end Edit

end NyaOS.Slab
