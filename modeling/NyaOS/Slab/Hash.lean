import NyaOS.Library.Probing
import NyaOS.Slab.Table

/-! The hash table of `slab.c`: `ht_set`, `ht_erase` and `ht_grow` beside the lookup, and the
buckets in memory as a table with linear probing. -/
namespace NyaOS.Slab
open Library.ByteMemory Library.Probing
open Frames (pageSize)

namespace HashVal
abbrev deleted : Int := 1
end HashVal

/-- The loop past full buckets. After as many turns as there are buckets it repeats itself. -/
def htFree (buckets capacity : Nat) : Nat → Nat → Kernel Nat
  | 0, _ => failure
  | fuel + 1, i => do
    if (← readInt (buckets + i * HashVal.size) HashVal.state) = HashVal.full then
      if capacity = 0 then failure else htFree buckets capacity fuel ((i + 1) % capacity)
    else pure i

/-- `*dst = *src` for two buckets. -/
def copyBucket (dst src : Nat) : Kernel Unit := fun w =>
  if dst = 0 ∨ src = 0 then none
  else some ((), { w with mem := store w.mem dst HashVal.size (load w.mem src HashVal.size) })

/-- The body of the loop of `ht_grow`. `new_hash` is an `int`, but below `newCap`. -/
def rehashBucket (bucket new newCap : Nat) : Kernel Unit := do
  if (← readInt bucket HashVal.state) = HashVal.full then
    let newHash ← hash (← read bucket HashVal.key) newCap
    let newHash ← htFree new newCap (newCap + 1) newHash
    copyBucket (new + newHash * HashVal.size) bucket

def rehash (ht new newCap : Nat) : Nat → Nat → Kernel Unit
  | 0, _ => failure
  | fuel + 1, i => do
    if i < (← read ht KmemCache.capacity) then
      rehashBucket ((← read ht KmemCache.buckets) + i * HashVal.size) new newCap
      rehash ht new newCap fuel (i + 1)
    else pure ()

/-- The new array is filled and then dropped: `ht->buckets` is not assigned. -/
def htGrow (k : Machine) (ht : Nat) : Kernel Unit := do
  let capacity ← read ht KmemCache.capacity
  let frames := (capacity * 2 + pageSize - 1) / pageSize
  let newCap := frames * pageSize / HashVal.size
  let new := k.physToVirt (← k.kallocFrames frames)
  memset new (frames * pageSize)
  rehash ht new newCap (capacity + 1) 0
  write ht KmemCache.capacity newCap

/-- The part of `ht_set` after the table may have grown, from the bucket of the hash on. -/
def htInsert (ht key val i : Nat) : Kernel Unit := do
  let buckets ← read ht KmemCache.buckets
  let capacity ← read ht KmemCache.capacity
  let i ← htFree buckets capacity (capacity + 1) i
  let bucket := buckets + i * HashVal.size
  writeInt bucket HashVal.state HashVal.full
  write bucket HashVal.val val
  write bucket HashVal.key key
  write ht KmemCache.htSize ((← read ht KmemCache.htSize) + 1)

/-- The hash is computed before the table may grow. `size / (double)capacity` is compared with 0.5,
which is exact for the sizes in use. -/
def htSet (k : Machine) (ht key val : Nat) : Kernel Unit := do
  let i ← hashBuf ht key
  let size ← read ht KmemCache.htSize
  let capacity ← read ht KmemCache.capacity
  if size ≥ capacity ∨ 2 * size > capacity then
    htGrow k ht
    htInsert ht key val i
  else htInsert ht key val i

/-- The loop of `ht_erase`: the bucket of the key, or none at an empty one. -/
def htSeek (ht key : Nat) : Nat → Nat → Kernel (Option Nat)
  | 0, _ => failure
  | fuel + 1, i => do
    let bucket := (← read ht KmemCache.buckets) + i * HashVal.size
    let state ← readInt bucket HashVal.state
    if state ≠ HashVal.full ∨ (← read bucket HashVal.key) ≠ key then
      if state = HashVal.empty then pure none
      else
        let capacity ← read ht KmemCache.capacity
        if capacity = 0 then failure
        else htSeek ht key fuel ((i + 1) % capacity)
    else pure (some i)

/-- The bucket's state becomes `DELETED`, and `--ht->size`. -/
def dropBucket (ht i : Nat) : Kernel Bool := do
  writeInt ((← read ht KmemCache.buckets) + i * HashVal.size) HashVal.state HashVal.deleted
  write ht KmemCache.htSize (((← read ht KmemCache.htSize) + (2 ^ 64 - 1)) % 2 ^ 64)
  pure true

def htErase (ht key : Nat) : Kernel Bool := do
  let i ← hashBuf ht key
  match ← htSeek ht key ((← read ht KmemCache.capacity) + 1) i with
  | none => pure false
  | some i => dropBucket ht i

/-- A bucket in memory. -/
def slotAt (m : Mem) (b : Nat) : Slot Nat Nat :=
  if intAt m (b + HashVal.state) = HashVal.full then
    .full (load m (b + HashVal.key) 8) (load m (b + HashVal.val) 8)
  else if intAt m (b + HashVal.state) = HashVal.empty then .empty
  else .deleted

def tableAt (m : Mem) (buckets i : Nat) : Slot Nat Nat := slotAt m (buckets + i * HashVal.size)

/-- Where a key's probing starts. -/
def homeOf (key : Nat) : Nat := key % htBuckets

/-- The table's fields and its page of buckets: mapped, and apart from each other. -/
structure Placed (ht buckets : Nat) : Prop where
  ht_ne : ht ≠ 0
  ht_le : ht + 24 ≤ 2 ^ 64
  ne : buckets ≠ 0
  le : buckets + 4096 ≤ 2 ^ 64
  apart : buckets + 4096 ≤ ht ∨ ht + 24 ≤ buckets

/-- A table in memory, whose size is the number of its full buckets. -/
structure HtAt (m : Mem) (ht buckets : Nat) : Prop where
  placed : Placed ht buckets
  array : load m (ht + KmemCache.buckets) 8 = buckets
  capacity : load m (ht + KmemCache.capacity) 8 = htBuckets
  size : load m (ht + KmemCache.htSize) 8 = fullCount htBuckets (tableAt m buckets)

/-- The value a lookup returns from the bucket it ends at. -/
def found : Slot Nat Nat → Nat
  | .full _ v => v
  | _ => 0

theorem htBuckets_eq : htBuckets = 170 := rfl

theorem hash_buckets (key : Nat) : hash key htBuckets = (pure (homeOf key) : Kernel Nat) := rfl

theorem homeOf_lt (key : Nat) : homeOf key < htBuckets := Nat.mod_lt _ (by decide)

section Slot
variable {m m' : Mem} {b buckets i : Nat}

theorem slotAt_congr (h : ∀ x, b ≤ x → x < b + 24 → m' x = m x) : slotAt m' b = slotAt m b := by
  have hstate : intAt m' (b + 16) = intAt m (b + 16) :=
    intAt_congr fun x _ _ => h x (by omega) (by omega)
  have hkey : load m' (b + 8) 8 = load m (b + 8) 8 :=
    load_congr fun x _ _ => h x (by omega) (by omega)
  have hval : load m' (b + 0) 8 = load m (b + 0) 8 :=
    load_congr fun x _ _ => h x (by omega) (by omega)
  unfold slotAt HashVal.state HashVal.key HashVal.val
  rw [hstate, hkey, hval]

theorem tableAt_congr (h : ∀ x, buckets ≤ x → x < buckets + 4096 → m' x = m x) (hi : i < htBuckets) :
    tableAt m' buckets i = tableAt m buckets i := by
  rw [htBuckets_eq] at hi
  refine slotAt_congr fun x hlo hhi => h x ?_ ?_
  · omega
  · unfold HashVal.size at hhi
    omega

theorem fullCount_congr (h : ∀ i < htBuckets, tableAt m' buckets i = tableAt m buckets i) :
    fullCount htBuckets (tableAt m' buckets) = fullCount htBuckets (tableAt m buckets) := by
  unfold fullCount
  congr 1
  exact Finset.filter_congr fun i hi => by rw [h i (Finset.mem_range.mp hi)]

/-- The three stores of `ht_set` into bucket `b`, and one elsewhere, leave it full. -/
private theorem slotAt_stored {a v key val : Nat} (hkey : key < 2 ^ 64) (hval : val < 2 ^ 64)
    (hoff : a + 8 ≤ b ∨ b + 24 ≤ a) :
    slotAt (store (store (store (store m (b + 16) 4 (BitVec.ofInt 32 HashVal.full).toNat) (b + 0) 8 val)
      (b + 8) 8 key) a 8 v) b = .full key val := by
  unfold slotAt HashVal.state HashVal.key HashVal.val
  have hstate : intAt (store (store (store (store m (b + 16) 4 (BitVec.ofInt 32 HashVal.full).toNat)
      (b + 0) 8 val) (b + 8) 8 key) a 8 v) (b + 16) = 2 := by
    rw [intAt_congr fun x _ _ => store_off _ _ _ _ (by omega),
      intAt_congr fun x _ _ => store_off _ _ _ _ (by omega),
      intAt_congr fun x _ _ => store_off _ _ _ _ (by omega)]
    exact intAt_store _ _ (by decide) (by decide)
  rw [hstate, load_store_off _ _ _ _ (by omega), load_store _ _ hkey,
    load_store_off _ _ _ _ (by omega), load_store_off _ _ _ _ (by omega), load_store _ _ hval]
  rfl

end Slot

section Loops
variable {m : Mem} {calls : List FrameCall} {ht buckets key i : Nat} (h : HtAt m ht buckets)

theorem Placed.bucket_ne (h : Placed ht buckets) (i : Nat) : buckets + i * HashVal.size ≠ 0 := by
  have := h.ne
  omega

/-- The state field as the loops test it. -/
theorem state_eq_full_iff (m : Mem) (b : Nat) :
    intAt m (b + HashVal.state) = HashVal.full ↔ (slotAt m b).isFull = true := by
  unfold slotAt
  split
  · exact iff_of_true ‹_› rfl
  · refine iff_of_false ‹_› ?_
    split <;> simp [Slot.isFull]

/-- The loop past full buckets is a probe of the array. -/
theorem htFree_eq_probe {array : Nat} (hne : array ≠ 0) (fuel i : Nat) :
    htFree array htBuckets fuel i ⟨m, calls⟩ =
      (probe htBuckets (fun j => !(tableAt m array j).isFull) fuel i).map fun j => (j, ⟨m, calls⟩) := by
  induction fuel generalizing i with
  | zero => rfl
  | succ fuel ih =>
    have hb : array + i * HashVal.size ≠ 0 := by omega
    rw [htFree, bind_run (readInt_run hb), ite_run, probe]
    by_cases hfull : (tableAt m array i).isFull = true
    · rw [if_pos ((state_eq_full_iff _ _).mpr hfull), if_neg (by decide : ¬ htBuckets = 0), ih,
        if_neg (by simp [hfull])]
    · rw [if_neg (fun hs => hfull ((state_eq_full_iff _ _).mp hs)), if_pos (by simp [hfull])]
      rfl

/-- In an array that is not full the loop ends. -/
theorem htFree_run (m : Mem) (calls : List FrameCall) {array : Nat} (hne : array ≠ 0)
    (hroom : fullCount htBuckets (tableAt m array) < htBuckets) (key : Nat) :
    ∃ d, FirstAt htBuckets (fun i => !(tableAt m array i).isFull) (homeOf key) d ∧
      htFree array htBuckets (htBuckets + 1) (homeOf key) ⟨m, calls⟩ =
        some (pos htBuckets (homeOf key) d, ⟨m, calls⟩) := by
  obtain ⟨i, hi, hnot⟩ := exists_not_full hroom
  obtain ⟨d, hd, hfirst⟩ := exists_firstAt (P := fun i => !(tableAt m array i).isFull) hi
    (by simp [hnot]) (homeOf key)
  refine ⟨d, hfirst, ?_⟩
  rw [htFree_eq_probe hne, probe_of_firstAt (homeOf_lt key) hfirst (by omega), Option.map_some]

/-- The tests the two lookup loops make at a bucket. -/
theorem lookup_branch {α : Type} (m : Mem) (buckets i key : Nat) (atEmpty onward atKey : α) :
    (if intAt m (buckets + i * HashVal.size + HashVal.state) ≠ HashVal.full ∨
        load m (buckets + i * HashVal.size + HashVal.key) 8 ≠ key then
      if intAt m (buckets + i * HashVal.size + HashVal.state) = HashVal.empty then atEmpty else onward
    else atKey) =
    if (tableAt m buckets i).stops key then
      if tableAt m buckets i = .empty then atEmpty else atKey
    else onward := by
  have hdiff : HashVal.full ≠ HashVal.empty := by decide
  rw [tableAt]
  generalize buckets + i * HashVal.size = b
  by_cases hfull : intAt m (b + HashVal.state) = HashVal.full
  · have hslot : slotAt m b = .full (load m (b + HashVal.key) 8) (load m (b + HashVal.val) 8) :=
      if_pos hfull
    by_cases hkey : load m (b + HashVal.key) 8 = key
    · simp [hslot, hfull, hkey, Slot.stops]
    · simp [hslot, hfull, hkey, Slot.stops, hdiff]
  · by_cases hempty : intAt m (b + HashVal.state) = HashVal.empty
    · have hslot : slotAt m b = .empty := (if_neg hfull).trans (if_pos hempty)
      simp [hslot, hempty, Slot.stops, hdiff.symm]
    · have hslot : slotAt m b = .deleted := (if_neg hfull).trans (if_neg hempty)
      simp [hslot, hempty, hfull, Slot.stops]

theorem slotAt_full {k v : Nat} {b : Nat} (h : slotAt m b = .full k v) :
    load m (b + HashVal.key) 8 = k ∧ load m (b + HashVal.val) 8 = v := by
  unfold slotAt at h
  split at h
  · cases h
    exact ⟨rfl, rfl⟩
  · split at h <;> cases h

include h

/-- The lookup loops are probes for the key's bucket or an empty one. -/
theorem htProbe_eq_probe (fuel i : Nat) : htProbe ht key fuel i ⟨m, calls⟩ =
    (probe htBuckets (fun j => (tableAt m buckets j).stops key) fuel i).map
      fun j => (found (tableAt m buckets j), ⟨m, calls⟩) := by
  induction fuel generalizing i with
  | zero => rfl
  | succ fuel ih =>
    have hht := h.placed.ht_ne
    have hb := h.placed.bucket_ne i
    rw [htProbe, bind_run (read_eq hht h.array), bind_run (readInt_run hb), bind_run (read_run hb),
      lookup_branch, probe]
    by_cases hstop : (tableAt m buckets i).stops key = true
    · rw [if_pos hstop, if_pos hstop]
      rcases Slot.stops_iff.mp hstop with hempty | ⟨v, hfull⟩
      · rw [if_pos hempty, Option.map_some, hempty]
        rfl
      · rw [if_neg (by rw [hfull]; simp), read_eq hb (slotAt_full hfull).2, Option.map_some, hfull]
        rfl
    · rw [if_neg hstop, if_neg hstop, bind_run (read_eq hht h.capacity),
        if_neg (by decide : ¬ htBuckets = 0), ih]

theorem htSeek_eq_probe (fuel i : Nat) : htSeek ht key fuel i ⟨m, calls⟩ =
    (probe htBuckets (fun j => (tableAt m buckets j).stops key) fuel i).map
      fun j => (if tableAt m buckets j = .empty then none else some j, ⟨m, calls⟩) := by
  induction fuel generalizing i with
  | zero => rfl
  | succ fuel ih =>
    have hht := h.placed.ht_ne
    have hb := h.placed.bucket_ne i
    rw [htSeek, bind_run (read_eq hht h.array), bind_run (readInt_run hb), bind_run (read_run hb),
      lookup_branch, probe]
    by_cases hstop : (tableAt m buckets i).stops key = true
    · rw [if_pos hstop, if_pos hstop, Option.map_some]
      split <;> rfl
    · rw [if_neg hstop, if_neg hstop, bind_run (read_eq hht h.capacity),
        if_neg (by decide : ¬ htBuckets = 0), ih]

theorem hashBuf_run (key : Nat) (calls : List FrameCall) :
    hashBuf ht key ⟨m, calls⟩ = some (homeOf key, ⟨m, calls⟩) := by
  rw [hashBuf, bind_run (read_eq h.placed.ht_ne h.capacity), hash_buckets]
  rfl

/-- A lookup that comes to a bucket within one turn around the array. -/
theorem htGet_run {d : Nat} (hd : d < htBuckets)
    (hfirst : FirstAt htBuckets (fun j => (tableAt m buckets j).stops key) (homeOf key) d) :
    htGet ht key ⟨m, calls⟩ =
      some (found (tableAt m buckets (pos htBuckets (homeOf key) d)), ⟨m, calls⟩) := by
  rw [htGet, bind_run (hashBuf_run h key calls), bind_run (read_eq h.placed.ht_ne h.capacity),
    htProbe_eq_probe h, probe_of_firstAt (homeOf_lt key) hfirst (by omega), Option.map_some]

end Loops

section Update
variable {m m' : Mem} (calls : List FrameCall) {ht buckets key val j : Nat} (h : HtAt m ht buckets)
include h

/-- What an update of bucket `j` may write: the bucket, and the size. -/
def BucketCells (ht buckets j x : Nat) : Prop :=
  (buckets + j * 24 ≤ x ∧ x < buckets + j * 24 + 24) ∨ (ht + 8 ≤ x ∧ x < ht + 16)

/-- An update of one bucket: the others stay as they are. -/
theorem HtAt.puts (honly : OnlyIn (BucketCells ht buckets j) m m')
    {s : Slot Nat Nat} (hslot : slotAt m' (buckets + j * HashVal.size) = s) :
    Puts htBuckets (tableAt m buckets) j s (tableAt m' buckets) := by
  intro i hi
  split
  · rename_i he
    rw [he]
    exact hslot
  · rename_i hne
    have hapart := h.placed.apart
    rw [htBuckets_eq] at hi
    refine slotAt_congr fun x hlo hhi => honly x ?_
    unfold HashVal.size at hlo hhi
    unfold BucketCells
    omega

theorem HtAt.update (hj : j < htBuckets) (honly : OnlyIn (BucketCells ht buckets j) m m')
    (hsize : load m' (ht + KmemCache.htSize) 8 = fullCount htBuckets (tableAt m' buckets)) :
    HtAt m' ht buckets := by
  have hapart := h.placed.apart
  rw [htBuckets_eq] at hj
  refine ⟨h.placed, ?_, ?_, hsize⟩
  · rw [honly.load fun x _ _ => by unfold KmemCache.buckets at *; unfold BucketCells; omega, h.array]
  · rw [honly.load fun x _ _ => by unfold KmemCache.capacity at *; unfold BucketCells; omega, h.capacity]

/-- `ht_erase` at the bucket it found. -/
theorem dropBucket_run (hj : j < htBuckets) (hfull : (tableAt m buckets j).isFull = true) :
    ∃ m', dropBucket ht j ⟨m, calls⟩ = some (true, ⟨m', calls⟩) ∧ HtAt m' ht buckets ∧
      Puts htBuckets (tableAt m buckets) j .deleted (tableAt m' buckets) := by
  have hht := h.placed.ht_ne
  have hb := h.placed.bucket_ne j
  have hapart := h.placed.apart
  have hle := h.placed.le
  have hj' : j < 170 := hj
  let b := buckets + j * 24
  let m₁ := store m (b + 16) 4 (BitVec.ofInt 32 HashVal.deleted).toNat
  let size' := (fullCount htBuckets (tableAt m buckets) + (2 ^ 64 - 1)) % 2 ^ 64
  let m' := store m₁ (ht + 8) 8 size'
  have hsize₁ : load m₁ (ht + 8) 8 = fullCount htBuckets (tableAt m buckets) := by
    rw [load_store_off _ _ _ _ (by omega)]
    exact h.size
  have honly : OnlyIn (BucketCells ht buckets j) m m' :=
    (onlyIn_store _ fun x _ _ => .inl (by omega)).trans (onlyIn_store _ fun x _ _ => .inr (by omega))
  have hstate : intAt m' (b + 16) = 1 := by
    rw [intAt_congr fun x _ _ => store_off _ _ _ _ (by omega)]
    exact intAt_store _ _ (by decide) (by decide)
  have hslot : slotAt m' (buckets + j * HashVal.size) = .deleted := by
    unfold slotAt HashVal.size HashVal.state
    rw [hstate]
    rfl
  have hput := h.puts honly hslot
  have hcount := fullCount_put_deleted hput hj hfull
  have hbound := fullCount_le htBuckets (tableAt m buckets)
  have hsize : load m' (ht + 8) 8 = fullCount htBuckets (tableAt m' buckets) := by
    have hlt : size' < 256 ^ 8 := Nat.mod_lt _ (by decide)
    rw [load_store _ _ hlt]
    change (fullCount htBuckets (tableAt m buckets) + (2 ^ 64 - 1)) % 2 ^ 64 = _
    rw [htBuckets_eq] at hbound hcount ⊢
    omega
  refine ⟨m', ?_, h.update hj honly hsize, hput⟩
  rw [dropBucket, bind_run (read_eq hht h.array), bind_run (writeInt_run hb),
    bind_run (read_eq hht hsize₁), bind_run (write_run hht)]
  rfl

/-- The table's fields and its array of buckets. -/
def HtCells (ht buckets x : Nat) : Prop :=
  (ht ≤ x ∧ x < ht + 24) ∨ (buckets ≤ x ∧ x < buckets + htBuckets * HashVal.size)

/-- `ht_set` in a table with room: the key goes to the first bucket behind its home that is not
full. -/
theorem htInsert_run (hkey : key < 2 ^ 64) (hval : val < 2 ^ 64)
    (hroom : fullCount htBuckets (tableAt m buckets) < htBuckets) :
    ∃ m' d, htInsert ht key val (homeOf key) ⟨m, calls⟩ = some ((), ⟨m', calls⟩) ∧
      OnlyIn (HtCells ht buckets) m m' ∧ HtAt m' ht buckets ∧
      FirstAt htBuckets (fun i => !(tableAt m buckets i).isFull) (homeOf key) d ∧
      Puts htBuckets (tableAt m buckets) (pos htBuckets (homeOf key) d) (.full key val)
        (tableAt m' buckets) := by
  obtain ⟨d, hfirst, hfree⟩ := htFree_run m calls h.placed.ne hroom key
  have hj : pos htBuckets (homeOf key) d < htBuckets := pos_lt (by decide) _ _
  have hnotj : (tableAt m buckets (pos htBuckets (homeOf key) d)).isFull = false := by
    simpa using hfirst.hit
  obtain ⟨j, hpos⟩ : ∃ j, pos htBuckets (homeOf key) d = j := ⟨_, rfl⟩
  rw [hpos] at hj hnotj hfree
  have hht := h.placed.ht_ne
  have hb := h.placed.bucket_ne j
  have hapart := h.placed.apart
  have hle := h.placed.le
  have hj' : j < 170 := hj
  let b := buckets + j * 24
  let m₁ := store m (b + 16) 4 (BitVec.ofInt 32 HashVal.full).toNat
  let m₂ := store m₁ (b + 0) 8 val
  let m₃ := store m₂ (b + 8) 8 key
  let m' := store m₃ (ht + 8) 8 (fullCount htBuckets (tableAt m buckets) + 1)
  have hsize₃ : load m₃ (ht + 8) 8 = fullCount htBuckets (tableAt m buckets) := by
    rw [load_store_off _ _ _ _ (by omega), load_store_off _ _ _ _ (by omega),
      load_store_off _ _ _ _ (by omega)]
    exact h.size
  have honly : OnlyIn (BucketCells ht buckets j) m m' :=
    (((onlyIn_store _ fun x _ _ => .inl (by omega)).trans (onlyIn_store _ fun x _ _ => .inl
      (by omega))).trans (onlyIn_store _ fun x _ _ => .inl (by omega))).trans
      (onlyIn_store _ fun x _ _ => .inr (by omega))
  have hslot : slotAt m' (buckets + j * HashVal.size) = .full key val :=
    slotAt_stored hkey hval (by omega)
  have hput := h.puts honly hslot
  have hsize : load m' (ht + 8) 8 = fullCount htBuckets (tableAt m' buckets) := by
    have hlt : fullCount htBuckets (tableAt m buckets) < 170 := hroom
    rw [fullCount_put_full hput hj hnotj]
    exact load_store _ _ (by omega)
  have hcells : OnlyIn (HtCells ht buckets) m m' := honly.mono fun x hx => by
    unfold BucketCells at hx
    unfold HtCells HashVal.size
    rw [htBuckets_eq]
    omega
  refine ⟨m', d, ?_, hcells, h.update hj honly hsize, hfirst, hpos ▸ hput⟩
  rw [htInsert, bind_run (read_eq hht h.array), bind_run (read_eq hht h.capacity), bind_run hfree,
    bind_run (writeInt_run hb), bind_run (write_run hb), bind_run (write_run hb),
    bind_run (read_eq hht hsize₃), write_run hht]

/-- In a full table the loop past full buckets never ends. -/
theorem htInsert_full (hfull : fullCount htBuckets (tableAt m buckets) = htBuckets) :
    htInsert ht key val (homeOf key) ⟨m, calls⟩ = none := by
  have hht := h.placed.ht_ne
  have hall : ∀ i < htBuckets, (!(tableAt m buckets i).isFull) = false := by
    intro i hi
    rw [isFull_of_count hfull i hi]
    rfl
  have hfree : htFree buckets htBuckets (htBuckets + 1) (homeOf key) ⟨m, calls⟩ = none := by
    rw [htFree_eq_probe h.placed.ne, probe_eq_none hall (homeOf_lt key)]
    rfl
  rw [htInsert, bind_run (read_eq hht h.array), bind_run (read_eq hht h.capacity)]
  exact bind_none hfree

/-- Without a bucket to end at, neither does `ht_erase`. -/
theorem htErase_hangs (hno : ∀ i < htBuckets, (tableAt m buckets i).stops key = false) :
    htErase ht key ⟨m, calls⟩ = none := by
  have hseek : htSeek ht key (htBuckets + 1) (homeOf key) ⟨m, calls⟩ = none := by
    rw [htSeek_eq_probe h, probe_eq_none hno (homeOf_lt key)]
    rfl
  rw [htErase, bind_run (hashBuf_run h key calls), bind_run (read_eq h.placed.ht_ne h.capacity)]
  exact bind_none hseek

variable {d : Nat} (hd : d < htBuckets)
  (hfirst : FirstAt htBuckets (fun i => (tableAt m buckets i).stops key) (homeOf key) d)
include hd hfirst

theorem htSeek_run : htSeek ht key (htBuckets + 1) (homeOf key) ⟨m, calls⟩ =
    some (if tableAt m buckets (pos htBuckets (homeOf key) d) = .empty then none
      else some (pos htBuckets (homeOf key) d), ⟨m, calls⟩) := by
  rw [htSeek_eq_probe h, probe_of_firstAt (homeOf_lt key) hfirst (by omega), Option.map_some]

/-- `ht_erase` of a key that is there. -/
theorem htErase_run {v : Nat} (hv : tableAt m buckets (pos htBuckets (homeOf key) d) = .full key v) :
    ∃ m', htErase ht key ⟨m, calls⟩ = some (true, ⟨m', calls⟩) ∧ HtAt m' ht buckets ∧
      Puts htBuckets (tableAt m buckets) (pos htBuckets (homeOf key) d) .deleted (tableAt m' buckets) := by
  obtain ⟨m', hrun, hat, hput⟩ := dropBucket_run calls h
    (pos_lt (by decide) (homeOf key) d) (by rw [hv]; rfl)
  have hseek := htSeek_run calls h hd hfirst
  rw [hv, if_neg (by simp)] at hseek
  refine ⟨m', ?_, hat, hput⟩
  rw [htErase, bind_run (hashBuf_run h key calls), bind_run (read_eq h.placed.ht_ne h.capacity),
    bind_run hseek]
  exact hrun

/-- `ht_erase` of a key that is not there. -/
theorem htErase_absent (he : tableAt m buckets (pos htBuckets (homeOf key) d) = .empty) :
    htErase ht key ⟨m, calls⟩ = some (false, ⟨m, calls⟩) := by
  have hseek := htSeek_run calls h hd hfirst
  rw [if_pos he] at hseek
  rw [htErase, bind_run (hashBuf_run h key calls), bind_run (read_eq h.placed.ht_ne h.capacity),
    bind_run hseek]
  rfl

end Update

end NyaOS.Slab
