import NyaOS.Slab.Hash

/-! `ht_init` and `ht_grow`. The number of frames asked for is computed from the number of buckets,
so the new array is as large as the old one, and it is dropped when it has been filled. -/
namespace NyaOS.Slab
open Library.ByteMemory Library.Probing
open Frames (pageSize)

/-- A page that is neither the table's fields nor its buckets. -/
structure SparePage (ht buckets p : Nat) : Prop where
  placed : Placed ht p
  apart : p + 4096 ≤ buckets ∨ buckets + 4096 ≤ p

/-- `ht_set` grows the table first. -/
def GrowDue (m : Mem) (ht : Nat) : Prop :=
  load m (ht + KmemCache.htSize) 8 ≥ load m (ht + KmemCache.capacity) 8 ∨
    2 * load m (ht + KmemCache.htSize) 8 > load m (ht + KmemCache.capacity) 8

def InPage (p x : Nat) : Prop := p ≤ x ∧ x < p + 4096

/-- What `ht_set` may write: the table, and the pages it takes while the log grows from `n` calls to
`n'`. -/
def SetCells (k : Machine) (ht buckets n n' x : Nat) : Prop :=
  HtCells ht buckets x ∨ ∃ i, n ≤ i ∧ i < n' ∧ InPage (k.physToVirt (k.kalloc i)) x

section Init
variable {k : Machine} {m : Mem} {calls : List FrameCall} {ht p : Nat}

/-- A zeroed page has empty buckets. -/
theorem tableAt_zeroed (m : Mem) (p : Nat) : ∀ i < htBuckets, tableAt (store m p 4096 0) p i = .empty := by
  intro i hi
  have hi' : i < 170 := hi
  have hstate : intAt (store m p 4096 0) (p + i * 24 + 16) = 0 := by
    rw [intAt, load_store_zero m (by omega) (by omega)]
    rfl
  unfold tableAt slotAt HashVal.size HashVal.state
  rw [hstate]
  rfl

/-- `ht_init` makes a table of empty buckets. -/
theorem htInit_table (hplaced : Placed ht p) (hp : k.physToVirt (k.kalloc calls.length) = p) :
    ∃ m', htInit k ht ⟨m, calls⟩ = some ((), ⟨m', .alloc (k.kalloc calls.length) 1 :: calls⟩) ∧
      HtAt m' ht p ∧ ∀ i < htBuckets, tableAt m' p i = .empty := by
  have hht := hplaced.ht_ne
  have hapart := hplaced.apart
  have hle := hplaced.le
  let m₀ := store m p 4096 0
  let m' := store (store (store m₀ (ht + 0) 8 p) (ht + 8) 8 0) (ht + 16) 8 170
  have hempty : ∀ i < htBuckets, tableAt m' p i = .empty := by
    intro i hi
    have hsame : ∀ x, p ≤ x → x < p + 4096 → m' x = m₀ x := by
      intro x _ _
      exact (store_off _ _ _ _ (by omega)).trans ((store_off _ _ _ _ (by omega)).trans
        (store_off _ _ _ _ (by omega)))
    exact (tableAt_congr hsame hi).trans (tableAt_zeroed m p i hi)
  have hcount := fullCount_of_empty hempty
  refine ⟨m', ?_, ⟨hplaced, ?_, load_store _ _ (by decide), ?_⟩, hempty⟩
  · rw [htInit, Machine.kallocFrame, bind_run (kallocFrames_run k 1 m calls), hp,
      bind_run (memset_run hplaced.ne), bind_run (write_run hht), bind_run (write_run hht),
      write_run hht]
    rfl
  · unfold KmemCache.buckets
    rw [load_store_off _ _ _ _ (by omega), load_store_off _ _ _ _ (by omega),
      load_store _ _ (by omega)]
  · rw [hcount]
    unfold KmemCache.htSize
    rw [load_store_off _ _ _ _ (by omega), load_store _ _ (by decide)]

end Init

section Grow
variable {k : Machine} {m m' : Mem} {calls : List FrameCall} {ht buckets p : Nat}

/-- Writing elsewhere leaves the table as it is. -/
theorem HtAt.congr (h : HtAt m ht buckets)
    (hsame : ∀ x, (ht ≤ x ∧ x < ht + 24) ∨ InPage buckets x → m' x = m x) : HtAt m' ht buckets ∧
      ∀ i < htBuckets, tableAt m' buckets i = tableAt m buckets i := by
  have htable : ∀ i < htBuckets, tableAt m' buckets i = tableAt m buckets i :=
    fun i hi => tableAt_congr (fun x hlo hhi => hsame x (.inr ⟨hlo, hhi⟩)) hi
  have hfield : ∀ off, off + 8 ≤ 24 → load m' (ht + off) 8 = load m (ht + off) 8 :=
    fun off _ => load_congr fun x _ _ => hsame x (.inl (by omega))
  refine ⟨⟨h.placed, ?_, ?_, ?_⟩, htable⟩
  · rw [hfield _ (by decide), h.array]
  · rw [hfield _ (by decide), h.capacity]
  · rw [hfield _ (by decide), h.size, fullCount_congr htable]

/-- One bucket is copied to the new array, if it is full. There the loop ends, because not all
buckets are full yet. -/
theorem rehashBucket_run (m : Mem) (calls : List FrameCall) (hp : p ≠ 0) {b : Nat} (hb : b ≠ 0)
    (hroom : fullCount htBuckets (tableAt m p) < htBuckets) :
    ∃ m', rehashBucket b p htBuckets ⟨m, calls⟩ = some ((), ⟨m', calls⟩) ∧ OnlyIn (InPage p) m m' ∧
      fullCount htBuckets (tableAt m' p) ≤ fullCount htBuckets (tableAt m p) + 1 := by
  rw [rehashBucket, bind_run (readInt_run hb), ite_run]
  split
  · obtain ⟨d, -, hfree⟩ := htFree_run m calls hp hroom (load m (b + HashVal.key) 8)
    have hj : pos htBuckets (homeOf (load m (b + HashVal.key) 8)) d < 170 := pos_lt (by decide) _ _
    generalize pos htBuckets (homeOf (load m (b + HashVal.key) 8)) d = j at hj hfree
    refine ⟨store m (p + j * 24) 24 (load m b 24), ?_, ?_, ?_⟩
    · rw [bind_run (read_run hb), hash_buckets, pure_bind, bind_run hfree]
      have hne : ¬ (p + j * HashVal.size = 0 ∨ b = 0) := by omega
      rw [copyBucket, if_neg hne]
    · exact onlyIn_store _ fun x _ _ => by unfold InPage; omega
    · refine fullCount_le_succ (j := j) fun i hi hij => slotAt_congr fun x hlo hhi => ?_
      unfold HashVal.size at hlo hhi
      exact store_off _ _ _ _ (by omega)
  · exact ⟨m, rfl, fun _ _ => rfl, Nat.le_succ _⟩

/-- The loop fills the new page and nothing else. -/
theorem rehash_run (calls : List FrameCall) (h : HtAt m ht buckets)
    (hspare : SparePage ht buckets p) (fuel i : Nat)
    (hfuel : htBuckets < i + fuel) (hi : i ≤ htBuckets)
    (hcount : fullCount htBuckets (tableAt m p) ≤ i) :
    ∃ m', rehash ht p htBuckets fuel i ⟨m, calls⟩ = some ((), ⟨m', calls⟩) ∧
      OnlyIn (InPage p) m m' := by
  induction fuel generalizing i m with
  | zero => omega
  | succ fuel ih =>
    have hht := h.placed.ht_ne
    rw [rehash, bind_run (read_eq hht h.capacity)]
    by_cases hlt : i < htBuckets
    · obtain ⟨m₁, hrun₁, honly₁, hcount₁⟩ := rehashBucket_run m calls
        hspare.placed.ne (h.placed.bucket_ne i) (by omega)
      have happart := hspare.apart
      have happart' := hspare.placed.apart
      have h₁ := (h.congr fun x hx => honly₁ x (by unfold InPage at *; omega)).1
      obtain ⟨m', hrun, honly⟩ := ih h₁ (i + 1) (by omega) hlt (by omega)
      refine ⟨m', ?_, honly₁.trans honly⟩
      rw [if_pos hlt, bind_run (read_eq hht h.array), bind_run hrun₁]
      exact hrun
    · rw [if_neg hlt]
      exact ⟨m, rfl, fun _ _ => rfl⟩

/-- Growing: one frame is taken, the table stays as it is, and so does its capacity. -/
theorem htGrow_run (h : HtAt m ht buckets)
    (hspare : SparePage ht buckets (k.physToVirt (k.kalloc calls.length))) :
    ∃ m', htGrow k ht ⟨m, calls⟩ = some ((), ⟨m', .alloc (k.kalloc calls.length) 1 :: calls⟩) ∧
      OnlyIn (SetCells k ht buckets calls.length (calls.length + 1)) m m' ∧
      HtAt m' ht buckets ∧ ∀ i < htBuckets, tableAt m' buckets i = tableAt m buckets i := by
  generalize hp : k.physToVirt (k.kalloc calls.length) = p at hspare
  have hht := h.placed.ht_ne
  have hapart := hspare.apart
  have hapart' := hspare.placed.apart
  have hle := hspare.placed.le
  let calls' := FrameCall.alloc (k.kalloc calls.length) 1 :: calls
  let m₀ := store m p 4096 0
  have h₀ : HtAt m₀ ht buckets ∧ ∀ i < htBuckets, tableAt m₀ buckets i = tableAt m buckets i :=
    h.congr fun x hx => store_off _ _ _ _ (by unfold InPage at hx; omega)
  obtain ⟨m₁, hrun, honly⟩ := rehash_run calls' h₀.1 hspare (htBuckets + 1) 0 (by omega) (by omega)
    (fullCount_of_empty (tableAt_zeroed m p)).le
  have h₁ : HtAt m₁ ht buckets ∧ ∀ i < htBuckets, tableAt m₁ buckets i = tableAt m₀ buckets i :=
    h₀.1.congr fun x hx => honly x (by unfold InPage at *; omega)
  let m' := store m₁ (ht + 16) 8 170
  have htable : ∀ i < htBuckets, tableAt m' buckets i = tableAt m₁ buckets i := by
    have := h.placed.apart
    exact fun i hi => tableAt_congr (fun x _ _ => store_off _ _ _ _ (by omega)) hi
  have hcells : OnlyIn (SetCells k ht buckets calls.length (calls.length + 1)) m m' := by
    have hpage : ∀ x, InPage p x → SetCells k ht buckets calls.length (calls.length + 1) x :=
      fun x hx => .inr ⟨_, Nat.le_refl _, Nat.lt_succ_self _, hp ▸ hx⟩
    have hmemset : OnlyIn (SetCells k ht buckets calls.length (calls.length + 1)) m m₀ :=
      onlyIn_store _ fun x hlo hhi => hpage x ⟨hlo, hhi⟩
    refine (hmemset.trans (honly.mono hpage)).trans (onlyIn_store _ fun x _ _ => ?_)
    exact .inl (.inl (by omega))
  refine ⟨m', ?_, hcells, ⟨h.placed, ?_, load_store _ _ (by decide), ?_⟩, fun i hi => ?_⟩
  · have hframes : (htBuckets * 2 + pageSize - 1) / pageSize = 1 := by decide
    rw [htGrow, bind_run (read_eq hht h.capacity)]
    simp only [hframes]
    rw [bind_run (kallocFrames_run k 1 m calls), hp, bind_run (memset_run hspare.placed.ne)]
    change (rehash ht p htBuckets (htBuckets + 1) 0 >>= _) ⟨m₀, calls'⟩ = _
    rw [bind_run hrun, write_run hht]
    rfl
  · rw [load_store_off _ _ _ _ (by unfold KmemCache.buckets; omega), h₁.1.array]
  · rw [load_store_off _ _ _ _ (by unfold KmemCache.htSize; omega), h₁.1.size, fullCount_congr htable]
  · rw [htable i hi, h₁.2 i hi, h₀.2 i hi]

end Grow

section Set
variable {k : Machine} {m : Mem} {calls : List FrameCall} {ht buckets key val : Nat}
  (h : HtAt m ht buckets)
  (hspare : GrowDue m ht → SparePage ht buckets (k.physToVirt (k.kalloc calls.length)))
include h hspare

/-- Whether or not the table grows first, the key is put into the same buckets. -/
theorem htSet_eq (key val : Nat) : ∃ m₁ calls₁,
    htSet k ht key val ⟨m, calls⟩ = htInsert ht key val (homeOf key) ⟨m₁, calls₁⟩ ∧
      calls.length ≤ calls₁.length ∧ calls₁.length ≤ calls.length + 1 ∧
      OnlyIn (SetCells k ht buckets calls.length calls₁.length) m m₁ ∧ HtAt m₁ ht buckets ∧
      ∀ i < htBuckets, tableAt m₁ buckets i = tableAt m buckets i := by
  have hht := h.placed.ht_ne
  have hhash := hashBuf_run h key calls
  by_cases hdue : GrowDue m ht
  · obtain ⟨m₁, hrun, honly, h₁, htable⟩ := htGrow_run h (hspare hdue)
    refine ⟨m₁, .alloc (k.kalloc calls.length) 1 :: calls, ?_, Nat.le_succ _, Nat.le_refl _, honly,
      h₁, htable⟩
    unfold GrowDue at hdue
    rw [htSet, bind_run hhash, bind_run (read_run hht), bind_run (read_run hht), if_pos hdue,
      bind_run hrun]
  · refine ⟨m, calls, ?_, Nat.le_refl _, Nat.le_succ _, fun _ _ => rfl, h, fun _ _ => rfl⟩
    unfold GrowDue at hdue
    rw [htSet, bind_run hhash, bind_run (read_run hht), bind_run (read_run hht), if_neg hdue]

theorem htSet_run (hkey : key < 2 ^ 64) (hval : val < 2 ^ 64)
    (hroom : fullCount htBuckets (tableAt m buckets) < htBuckets) :
    ∃ m' calls' d, htSet k ht key val ⟨m, calls⟩ = some ((), ⟨m', calls'⟩) ∧
      calls.length ≤ calls'.length ∧ calls'.length ≤ calls.length + 1 ∧
      OnlyIn (SetCells k ht buckets calls.length calls'.length) m m' ∧ HtAt m' ht buckets ∧
      FirstAt htBuckets (fun i => !(tableAt m buckets i).isFull) (homeOf key) d ∧
      Puts htBuckets (tableAt m buckets) (pos htBuckets (homeOf key) d) (.full key val)
        (tableAt m' buckets) := by
  obtain ⟨m₁, calls₁, he, hlo, hhi, honly₁, h₁, htable⟩ := htSet_eq h hspare key val
  obtain ⟨m', d, hrun, honly, h', hfirst, hput⟩ := htInsert_run calls₁ h₁ hkey hval
    (by rwa [fullCount_congr htable])
  exact ⟨m', calls₁, d, he.trans hrun, hlo, hhi, honly₁.trans (honly.mono fun _ => .inl), h',
    hfirst.congr (by decide) fun j hj => by rw [htable j hj], hput.congr htable⟩

theorem htSet_full (key val : Nat) (hfull : fullCount htBuckets (tableAt m buckets) = htBuckets) :
    htSet k ht key val ⟨m, calls⟩ = none := by
  obtain ⟨m₁, calls₁, he, -, -, -, h₁, htable⟩ := htSet_eq h hspare key val
  rw [he]
  exact htInsert_full calls₁ h₁ (by rwa [fullCount_congr htable])

end Set

end NyaOS.Slab
