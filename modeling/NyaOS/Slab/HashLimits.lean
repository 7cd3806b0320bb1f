import NyaOS.Slab.HashRuns

/-! What the hash table does not do: growing leaves it as large as it was, and setting a key that is
present adds a second bucket for it. -/
namespace NyaOS.Slab
open Library.ByteMemory Library.Probing
open Frames (pageSize)

section Grow
variable {k : Machine} {ht p : Nat} {s₀ s : TableState}

/-- `ht_grow` as its comment describes it: the capacity doubles, the buckets are an array of that
capacity, and every key keeps its value. -/
def Grows (k : Machine) (ht : Nat) (s : TableState) : Prop :=
  ∃ w', htGrow k ht s.world = some ((), w') ∧
    2 * load s.world.mem (ht + KmemCache.capacity) 8 ≤ load w'.mem (ht + KmemCache.capacity) 8 ∧
    (∃ a n, FrameCall.alloc a n ∈ w'.calls ∧
      load w'.mem (ht + KmemCache.buckets) 8 = k.physToVirt a ∧
      load w'.mem (ht + KmemCache.capacity) 8 * HashVal.size ≤ n * pageSize) ∧
    ∀ key v, s.map key = some v → htGet ht key w' = some (v, w')

/-- The calls of `ht_set` for the pairs of a list. -/
def htSetAll (k : Machine) (ht : Nat) : List (Nat × Nat) → Kernel Unit
  | [] => pure ()
  | kv :: kvs => do
    htSet k ht kv.1 kv.2
    htSetAll k ht kvs

/-- The calls end, write nothing but the table and the frames they take, and every key is found. -/
def Stores (k : Machine) (ht p : Nat) (kvs : List (Nat × Nat)) (w : World) : Prop :=
  ∃ w', htSetAll k ht kvs w = some ((), w') ∧
    OnlyIn (SetCells k ht p w.calls.length w'.calls.length) w.mem w'.mem ∧
    ∀ kv ∈ kvs, htGet ht kv.1 w' = some (kv.2, w')

/-- Distinct keys, none of them present. -/
structure FreshPairs (M : Nat → Option Nat) (kvs : List (Nat × Nat)) : Prop where
  nodup : (kvs.map Prod.fst).Nodup
  lt : ∀ kv ∈ kvs, kv.1 < 2 ^ 64 ∧ kv.2 < 2 ^ 64
  absent : ∀ kv ∈ kvs, M kv.1 = none

/-- Each of the next `n` frames is a page of its own. -/
def SpareFrames (k : Machine) (ht p n : Nat) (w : World) : Prop :=
  ∀ i, w.calls.length ≤ i → i < w.calls.length + n → SparePage ht p (k.physToVirt (k.kalloc i))

theorem SpareFrames.due {n : Nat} {w : World} (h : SpareFrames k ht p n w) (hn : 0 < n) :
    SpareIfDue k ht p w :=
  fun _ => h _ (Nat.le_refl _) (by omega)

theorem SpareFrames.step {n : Nat} {w w' : World} (h : SpareFrames k ht p (n + 1) w)
    (hlo : w.calls.length ≤ w'.calls.length) (hhi : w'.calls.length ≤ w.calls.length + 1) :
    SpareFrames k ht p n w' :=
  fun i hi hi' => h i (by omega) (by omega)

/-- The array is the one `ht_init` made, and its capacity is what it was. -/
theorem TableInv.not_grows (h : TableInv ht p s)
    (hspare : SparePage ht p (k.physToVirt (k.kalloc s.world.calls.length))) : ¬ Grows k ht s := by
  rintro ⟨w', hrun, hdouble, -⟩
  obtain ⟨m', hrun', -, hat, -⟩ := htGrow_run h.table hspare
  change htGrow k ht s.world = _ at hrun'
  rw [hrun'] at hrun
  cases hrun
  rw [h.table.capacity, hat.capacity, htBuckets_eq] at hdouble
  omega

theorem FreshPairs.tail {M : Nat → Option Nat} {kv : Nat × Nat} {kvs : List (Nat × Nat)}
    (h : FreshPairs M (kv :: kvs)) : FreshPairs (Function.update M kv.1 (some kv.2)) kvs := by
  obtain ⟨hnotin, hnodup⟩ := List.nodup_cons.mp h.nodup
  refine ⟨hnodup, fun q hq => h.lt q (List.mem_cons_of_mem _ hq), fun q hq => ?_⟩
  have hne : q.1 ≠ kv.1 := fun he => hnotin (he ▸ List.mem_map_of_mem hq)
  rw [Function.update_of_ne hne]
  exact h.absent q (List.mem_cons_of_mem _ hq)

theorem SetCells.mono {lo hi n n' x : Nat} (h : SetCells k ht p n n' x) (hlo : lo ≤ n) (hhi : n' ≤ hi) :
    SetCells k ht p lo hi x := by
  rcases h with hcell | ⟨i, hni, hin, hpage⟩
  · exact .inl hcell
  · exact .inr ⟨i, by omega, by omega, hpage⟩

/-- The calls in a table with room for all the keys. -/
theorem htSetAll_run {kvs : List (Nat × Nat)} (h : TableInv ht p s) (hfresh : FreshPairs s.map kvs)
    (hspare : SpareFrames k ht p kvs.length s.world)
    (hroom : fullCount htBuckets (tableAt s.world.mem p) + kvs.length ≤ htBuckets) :
    ∃ w' M', htSetAll k ht kvs s.world = some ((), w') ∧ s.world.calls.length ≤ w'.calls.length ∧
      OnlyIn (SetCells k ht p s.world.calls.length w'.calls.length) s.world.mem w'.mem ∧
      TableInv ht p ⟨w', M'⟩ ∧ (∀ kv ∈ kvs, M' kv.1 = some kv.2) ∧
      ∀ key ∉ kvs.map Prod.fst, M' key = s.map key := by
  induction kvs generalizing s with
  | nil =>
    exact ⟨s.world, s.map, rfl, Nat.le_refl _, fun _ _ => rfl, h, by simp, fun _ _ => rfl⟩
  | cons kv kvs ih =>
    rw [List.length_cons] at hspare hroom
    obtain ⟨hkey, hval⟩ := hfresh.lt kv List.mem_cons_self
    obtain ⟨w₁, hset, hlo, hhi, honly₁, hcount, h₁⟩ := h.set (hspare.due (Nat.succ_pos _)) hkey hval
      (hfresh.absent kv List.mem_cons_self) (by omega)
    have hroom₁ : fullCount htBuckets (tableAt w₁.mem p) + kvs.length ≤ htBuckets := by omega
    obtain ⟨w', M', hrun, hlo', honly, hinv, hall, hrest⟩ := ih h₁ hfresh.tail (hspare.step hlo hhi) hroom₁
    have hnotin := (List.nodup_cons.mp hfresh.nodup).1
    refine ⟨w', M', (bind_run hset).trans hrun, hlo.trans hlo', ?_, hinv, ?_, ?_⟩
    · exact (honly₁.mono fun x hx => hx.mono (Nat.le_refl _) hlo').trans
        (honly.mono fun x hx => hx.mono hlo (Nat.le_refl _))
    · intro q hq
      rcases List.mem_cons.mp hq with rfl | hq
      · rw [hrest q.1 hnotin]
        exact Function.update_self _ _ _
      · exact hall q hq
    · intro key hkey
      rw [List.map_cons, List.mem_cons, not_or] at hkey
      rw [hrest key hkey.2]
      exact Function.update_of_ne hkey.1 _ _

/-- With more keys than room, some call goes around the full table forever. -/
theorem htSetAll_full {kvs : List (Nat × Nat)} (h : TableInv ht p s) (hfresh : FreshPairs s.map kvs)
    (hspare : SpareFrames k ht p kvs.length s.world)
    (hroom : htBuckets < fullCount htBuckets (tableAt s.world.mem p) + kvs.length) :
    htSetAll k ht kvs s.world = none := by
  have hle := fullCount_le htBuckets (tableAt s.world.mem p)
  induction kvs generalizing s with
  | nil => exact absurd hroom (by rw [List.length_nil]; omega)
  | cons kv kvs ih =>
    rw [List.length_cons] at hspare hroom
    rcases Nat.lt_or_ge (fullCount htBuckets (tableAt s.world.mem p)) htBuckets with hlt | hge
    · obtain ⟨hkey, hval⟩ := hfresh.lt kv List.mem_cons_self
      obtain ⟨w₁, hset, hlo, hhi, -, hcount, h₁⟩ := h.set (hspare.due (Nat.succ_pos _)) hkey hval
        (hfresh.absent kv List.mem_cons_self) hlt
      have hroom₁ : htBuckets < fullCount htBuckets (tableAt w₁.mem p) + kvs.length := by omega
      exact (bind_run hset).trans (ih h₁ hfresh.tail (hspare.step hlo hhi) hroom₁ (fullCount_le _ _))
    · exact bind_none (htSet_full h.table (hspare.due (Nat.succ_pos _)) _ _ (Nat.le_antisymm hle hge))

theorem TableInv.stores_iff {kvs : List (Nat × Nat)} (h : TableInv ht p s)
    (hfresh : FreshPairs s.map kvs) (hspare : SpareFrames k ht p kvs.length s.world) :
    Stores k ht p kvs s.world ↔
      fullCount htBuckets (tableAt s.world.mem p) + kvs.length ≤ htBuckets := by
  constructor
  · rintro ⟨w', hrun, -⟩
    by_contra hroom
    rw [htSetAll_full h hfresh hspare (by omega)] at hrun
    cases hrun
  · intro hroom
    obtain ⟨w', M', hrun, -, honly, hinv, hall, -⟩ := htSetAll_run h hfresh hspare hroom
    exact ⟨w', hrun, honly, fun kv hkv => hinv.get (hall kv hkv)⟩

/-- No table that `ht_grow` is called on grows; the keys that can be set are those the first 170
buckets have room for. -/
theorem grow_makes_no_room (k : Machine) (ht p : Nat) (s₀ s : TableState) (kvs : List (Nat × Nat))
    (hstart : TableStart k ht p s₀) (hr : TableReach k ht (SpareIfDue k ht p) s₀ s)
    (hfresh : FreshPairs s.map kvs) (hspare : SpareFrames k ht p (kvs.length + 1) s.world) :
    ¬ Grows k ht s ∧ (Stores k ht p kvs s.world ↔
      fullCount htBuckets (tableAt s.world.mem p) + kvs.length ≤ htBuckets) := by
  have hinv := hr.inv hstart fun _ hready => hready
  exact ⟨hinv.not_grows (hspare _ (Nat.le_refl _) (by omega)),
    hinv.stores_iff hfresh fun i hi hi' => hspare i hi (by omega)⟩

end Grow

theorem bootMachine_spare {n : Nat} (hn : n < 0x1000) (m : Mem) :
    SpareFrames bootMachine bootTable bootPage n (bootState m).world := by
  intro i hi hi'
  change 1 ≤ i at hi
  change i < 1 + n at hi'
  have hpage : bootMachine.physToVirt (bootMachine.kalloc i) = 0xffff800000100000 + 0x10000 * i := by
    change (0x100000 + 0x10000 * i + 0xffff800000000000) % 2 ^ 64 = _
    omega
  unfold bootTable bootPage
  rw [hpage]
  refine ⟨⟨by decide, by decide, ?_, ?_, ?_⟩, ?_⟩
  all_goals omega

theorem bootTable_grow_two : ∃ s₀ s, TableStart bootMachine bootTable bootPage s₀ ∧
    TableReach bootMachine bootTable (SpareIfDue bootMachine bootTable bootPage) s₀ s ∧
    ¬ Grows bootMachine bootTable s ∧
    Stores bootMachine bootTable bootPage [(5, 7), (175, 9)] s.world := by
  obtain ⟨m, hstart⟩ := bootTable_start
  have hfresh : FreshPairs (bootState m).map [(5, 7), (175, 9)] :=
    ⟨by decide, by decide, by simp [bootState]⟩
  obtain ⟨hnot, hstores⟩ := grow_makes_no_room _ _ _ _ _ _ hstart .refl hfresh
    (bootMachine_spare (by decide) m)
  refine ⟨_, _, hstart, .refl, hnot, hstores.mpr ?_⟩
  rw [fullCount_of_empty hstart.made.empty.2]
  decide

/-- Right after `ht_init`, growing leaves the capacity at 170, and the 171st key is never set. -/
theorem bootTable_never_grows : ∃ s₀, TableStart bootMachine bootTable bootPage s₀ ∧
    ¬ Grows bootMachine bootTable s₀ ∧
    ¬ Stores bootMachine bootTable bootPage ((List.range 171).map fun i => (i, i + 1)) s₀.world := by
  obtain ⟨m, hstart⟩ := bootTable_start
  have hfresh : FreshPairs (bootState m).map ((List.range 171).map fun i => (i, i + 1)) := by
    refine ⟨?_, ?_, fun _ _ => rfl⟩
    · rw [List.map_map]
      exact List.nodup_range.map fun _ _ he => he
    · intro kv hkv
      obtain ⟨i, hi, rfl⟩ := List.mem_map.mp hkv
      rw [List.mem_range] at hi
      exact ⟨by omega, by omega⟩
  have hspare := bootMachine_spare (n := 171) (by decide) m
  refine ⟨_, hstart, hstart.inv.not_grows (hspare _ (Nat.le_refl _) (by omega)), ?_⟩
  rw [hstart.inv.stores_iff hfresh (by simpa using hspare), fullCount_of_empty hstart.made.empty.2]
  simp [htBuckets_eq]

section Overwrite
variable {k : Machine} {ht p key : Nat} {w₀ w w' : World}

/-- A call of `ht_set`, without growth, or of `ht_erase`, on any key. -/
inductive AnyStep (k : Machine) (ht : Nat) : World → World → Prop
  | set {w w' : World} {key val : Nat} (hkey : key < 2 ^ 64) (hval : val < 2 ^ 64)
      (hnot : ¬ GrowDue w.mem ht) (hrun : htSet k ht key val w = some ((), w')) : AnyStep k ht w w'
  | erase {w w' : World} {key : Nat} {erased : Bool} (hrun : htErase ht key w = some (erased, w')) :
      AnyStep k ht w w'

/-- What repeated keys leave of the invariant. -/
structure ChainInv (ht p : Nat) (w : World) : Prop where
  table : HtAt w.mem ht p
  reaches : Reaches htBuckets homeOf (tableAt w.mem p)

theorem ChainInv.set (h : ChainInv ht p w) (hnot : ¬ GrowDue w.mem ht) {val : Nat}
    (hkey : key < 2 ^ 64) (hval : val < 2 ^ 64) :
    ∃ w' d, htSet k ht key val w = some ((), w') ∧ ChainInv ht p w' ∧
      FirstAt htBuckets (fun i => !(tableAt w.mem p i).isFull) (homeOf key) d ∧
      Puts htBuckets (tableAt w.mem p) (pos htBuckets (homeOf key) d) (.full key val)
        (tableAt w'.mem p) := by
  obtain ⟨m', calls', d, hrun, -, -, -, hat, hfirst, hput⟩ := htSet_run (k := k) h.table
    (fun hdue => (hnot hdue).elim) hkey hval (h.table.room hnot)
  exact ⟨⟨m', calls'⟩, d, hrun, ⟨hat, h.reaches.put_full (by decide) hfirst hput⟩, hfirst, hput⟩

/-- `ht_erase` and `ht_get` at the first bucket of the key. -/
theorem ChainInv.erase (h : ChainInv ht p w) {d v : Nat} (hd : d < htBuckets)
    (hfirst : FirstAt htBuckets (fun i => (tableAt w.mem p i).stops key) (homeOf key) d)
    (hfull : tableAt w.mem p (pos htBuckets (homeOf key) d) = .full key v) :
    htGet ht key w = some (v, w) ∧ ∃ w', htErase ht key w = some (true, w') ∧ ChainInv ht p w' ∧
      Puts htBuckets (tableAt w.mem p) (pos htBuckets (homeOf key) d) .deleted (tableAt w'.mem p) := by
  have hget : htGet ht key w = _ := htGet_run h.table hd hfirst
  rw [hfull] at hget
  obtain ⟨m', hrun, hat, hput⟩ := htErase_run w.calls h.table hd hfirst hfull
  exact ⟨hget, ⟨m', w.calls⟩, hrun, ⟨hat, h.reaches.put_deleted (by decide) hput⟩, hput⟩

theorem AnyStep.inv (hstep : AnyStep k ht w w') (h : ChainInv ht p w) : ChainInv ht p w' := by
  cases hstep with
  | set hkey hval hnot hrun =>
    obtain ⟨w'', d, hrun', hinv, -⟩ := h.set (k := k) hnot hkey hval
    rw [hrun] at hrun'
    cases hrun'
    exact hinv
  | @erase key erased hrun =>
    by_cases hstop : ∃ j < htBuckets, (tableAt w.mem p j).stops key = true
    · obtain ⟨j, hj, hstop⟩ := hstop
      obtain ⟨d, hd, hfirst⟩ := exists_firstAt (P := fun i => (tableAt w.mem p i).stops key) hj hstop
        (homeOf key)
      rcases Slot.stops_iff.mp hfirst.hit with hempty | ⟨v, hfull⟩
      · have hsame := htErase_absent w.calls h.table hd hfirst hempty
        change htErase ht key w = some (false, w) at hsame
        rw [hrun] at hsame
        cases hsame
        exact h
      · obtain ⟨-, w'', hrun', hinv, -⟩ := h.erase hd hfirst hfull
        rw [hrun] at hrun'
        cases hrun'
        exact hinv
    · have hno : ∀ j < htBuckets, (tableAt w.mem p j).stops key = false := by
        intro j hj
        by_contra hs
        exact hstop ⟨j, hj, by simpa using hs⟩
      have hnone := htErase_hangs w.calls h.table hno
      change htErase ht key w = none at hnone
      rw [hrun] at hnone
      cases hnone

theorem AnyStep.run_inv (hr : Relation.ReflTransGen (AnyStep k ht) w₀ w) (hmade : HtMade k ht p w₀) :
    ChainInv ht p w := by
  induction hr with
  | refl => exact ⟨hmade.empty.1, .of_empty hmade.empty.2⟩
  | tail _ hstep ih => exact hstep.inv ih

/-- After `ht_set(key, val)` the lookup gives `val`, and after `ht_erase(key)` nothing, provided an
empty bucket is left. -/
def Overwrites (k : Machine) (ht p key : Nat) (w : World) : Prop :=
  ∀ val < 2 ^ 64, ∃ w₁, htSet k ht key val w = some ((), w₁) ∧ htGet ht key w₁ = some (val, w₁) ∧
    ∃ w₂, htErase ht key w₁ = some (true, w₂) ∧
      ((∃ i < htBuckets, tableAt w₂.mem p i = .empty) → htGet ht key w₂ = some (0, w₂))

def Absent (p key : Nat) (w : World) : Prop := ∀ i < htBuckets, ∀ v, tableAt w.mem p i ≠ .full key v

/-- A tombstone in front of the key's first bucket hides it, and it does not show again: no bucket
is empty, or its value is `NULL`. -/
def Hidden (p key : Nat) (w : World) : Prop :=
  ∃ d v, FirstAt htBuckets (fun i => (tableAt w.mem p i).stops key) (homeOf key) d ∧
    tableAt w.mem p (pos htBuckets (homeOf key) d) = .full key v ∧
    (∃ d' < d, tableAt w.mem p (pos htBuckets (homeOf key) d') = .deleted) ∧
    ((∀ i < htBuckets, tableAt w.mem p i ≠ .empty) ∨ v = 0)

/-- A new key: it has one bucket, and then none. -/
theorem ChainInv.overwrites_absent (h : ChainInv ht p w) (hnot : ¬ GrowDue w.mem ht)
    (hkey : key < 2 ^ 64) (habsent : Absent p key w) : Overwrites k ht p key w := by
  intro val hval
  obtain ⟨w₁, d₀, hset, hinv₁, hfree, hput⟩ := h.set (k := k) hnot hkey hval
  have hnew := hput _ (pos_lt (by decide) (homeOf key) d₀)
  rw [if_pos rfl] at hnew
  obtain ⟨d, hd, hfirst, v, hfull⟩ := hinv₁.reaches.lookup (pos_lt (by decide) _ _) hnew
  have hother : ∀ i < htBuckets, i ≠ pos htBuckets (homeOf key) d₀ →
      ∀ v, tableAt w₁.mem p i ≠ .full key v := by
    intro i hi hne v
    rw [hput i hi, if_neg hne]
    exact habsent i hi v
  have hpos : pos htBuckets (homeOf key) d = pos htBuckets (homeOf key) d₀ := by
    by_contra hne
    exact hother _ (pos_lt (by decide) _ _) hne v hfull
  have hval' : v = val := by
    rw [hpos, hnew] at hfull
    cases hfull
    rfl
  rw [hval'] at hfull
  obtain ⟨hget, w₂, herase, hinv₂, hput₂⟩ := hinv₁.erase hd hfirst hfull
  refine ⟨w₁, hset, hget, w₂, herase, ?_⟩
  rintro ⟨i, hi, he⟩
  have hgone : ∀ i < htBuckets, ∀ v, tableAt w₂.mem p i ≠ .full key v := by
    intro i hi v
    rw [hput₂ i hi, hpos]
    split
    · simp
    · exact hother i hi ‹_› v
  obtain ⟨d₂, hd₂, hfirst₂, hempty⟩ := lookup_absent hgone hi he (homeOf key)
  have hget₂ : htGet ht key w₂ = _ := htGet_run hinv₂.table hd₂ hfirst₂
  rw [hempty] at hget₂
  exact hget₂

section Present
variable {d₁ v₁ : Nat} (hd₁ : d₁ < htBuckets)
  (hfirst : FirstAt htBuckets (fun i => (tableAt w.mem p i).stops key) (homeOf key) d₁)
  (hfull : tableAt w.mem p (pos htBuckets (homeOf key) d₁) = .full key v₁)
include hd₁ hfirst hfull

/-- The second bucket of a key goes behind the first: the old value is found. -/
theorem ChainInv.stale (h : ChainInv ht p w) (hnot : ¬ GrowDue w.mem ht) (hkey : key < 2 ^ 64)
    (hnone : ∀ d < d₁, tableAt w.mem p (pos htBuckets (homeOf key) d) ≠ .deleted) :
    ¬ Overwrites k ht p key w := by
  intro hover
  obtain ⟨val, hval, hne⟩ : ∃ val < 2 ^ 64, val ≠ v₁ := by
    by_cases hv : v₁ = 0
    · exact ⟨1, by decide, by omega⟩
    · exact ⟨0, by decide, by omega⟩
  obtain ⟨w₁, hset, hget, -⟩ := hover val hval
  obtain ⟨w₁', d₀, hset', hinv₁, hfree, hput⟩ := h.set (k := k) hnot hkey hval
  rw [hset] at hset'
  cases hset'
  -- every bucket up to the old one is full
  have hpassed : ∀ d ≤ d₁, (tableAt w.mem p (pos htBuckets (homeOf key) d)).isFull = true := by
    intro d hd
    rcases Nat.lt_or_eq_of_le hd with hlt | rfl
    · by_contra hnot
      exact hnone d hlt (Slot.deleted_of_passed (hfirst.before d hlt) (by simpa using hnot))
    · rw [hfull]
      rfl
  have hoff : ∀ d ≤ d₁, pos htBuckets (homeOf key) d ≠ pos htBuckets (homeOf key) d₀ := by
    intro d hd he
    have hfree₀ := hfree.hit
    rw [← he, hpassed d hd] at hfree₀
    cases hfree₀
  have hfirst₁ := hfirst.put_passed (by decide) hput fun d hd he => (hoff d hd he).elim
  have hfull₁ := hput _ (pos_lt (by decide) (homeOf key) d₁)
  rw [if_neg (hoff d₁ (Nat.le_refl _)), hfull] at hfull₁
  have hold := (hinv₁.erase hd₁ hfirst₁ hfull₁).1
  rw [hget] at hold
  cases hold
  exact hne rfl

/-- The second bucket of a key takes a tombstone in front of the first: the new value is found, and
erasing it leaves the table as it was. -/
theorem ChainInv.uncover (h : ChainInv ht p w) (hnot : ¬ GrowDue w.mem ht) (hkey : key < 2 ^ 64)
    {val d' : Nat} (hval : val < 2 ^ 64) (hd' : d' < d₁)
    (hdel : tableAt w.mem p (pos htBuckets (homeOf key) d') = .deleted) :
    ∃ w₁, htSet k ht key val w = some ((), w₁) ∧ htGet ht key w₁ = some (val, w₁) ∧
      ∃ w₂, htErase ht key w₁ = some (true, w₂) ∧ htGet ht key w₂ = some (v₁, w₂) ∧
        ∀ i < htBuckets, tableAt w₂.mem p i = tableAt w.mem p i := by
  obtain ⟨w₁, d₀, hset, hinv₁, hfree, hput⟩ := h.set (k := k) hnot hkey hval
  have hlt : d₀ < d₁ := by
    by_contra hge
    have hpassed := hfree.before d' (by omega)
    rw [hdel] at hpassed
    cases hpassed
  have hdel₀ : tableAt w.mem p (pos htBuckets (homeOf key) d₀) = .deleted :=
    Slot.deleted_of_passed (hfirst.before d₀ hlt) (by simpa using hfree.hit)
  have hfirst₁ := hfirst.put_before hfree hlt (by decide) hput
  have hnew := hput _ (pos_lt (by decide) (homeOf key) d₀)
  rw [if_pos rfl] at hnew
  obtain ⟨hget, w₂, herase, hinv₂, hput₂⟩ := hinv₁.erase (hlt.trans hd₁) hfirst₁ hnew
  have hsame : ∀ i < htBuckets, tableAt w₂.mem p i = tableAt w.mem p i := by
    intro i hi
    rw [hput.trans hput₂ i hi]
    split
    · rename_i he
      rw [he, hdel₀]
    · rfl
  have hfirst₂ : FirstAt htBuckets (fun i => (tableAt w₂.mem p i).stops key) (homeOf key) d₁ :=
    hfirst.congr (by decide) fun j hj => by rw [hsame j hj]
  have hfull₂ : tableAt w₂.mem p (pos htBuckets (homeOf key) d₁) = .full key v₁ := by
    rw [hsame _ (pos_lt (by decide) _ _), hfull]
  exact ⟨w₁, hset, hget, w₂, herase, (hinv₂.erase hd₁ hfirst₂ hfull₂).1, hsame⟩

/-- So the old value reappears, if that is a value and the lookup of an absent key would end. -/
theorem ChainInv.reappears (h : ChainInv ht p w) (hnot : ¬ GrowDue w.mem ht) (hkey : key < 2 ^ 64)
    (hdel : ∃ d < d₁, tableAt w.mem p (pos htBuckets (homeOf key) d) = .deleted) :
    Overwrites k ht p key w ↔ (∀ i < htBuckets, tableAt w.mem p i ≠ .empty) ∨ v₁ = 0 := by
  obtain ⟨d', hd', hdel⟩ := hdel
  constructor
  · intro hover
    by_contra hno
    obtain ⟨hempty, hv₁⟩ := not_or.mp hno
    push Not at hempty
    obtain ⟨i, hi, he⟩ := hempty
    obtain ⟨w₁, hset, -, w₂, herase, hgone⟩ := hover 0 (by decide)
    obtain ⟨w₁', hset', -, w₂', herase', hold, hsame⟩ :=
      h.uncover (k := k) hd₁ hfirst hfull hnot hkey (show 0 < 2 ^ 64 by decide) hd' hdel
    rw [hset] at hset'
    cases hset'
    rw [herase] at herase'
    cases herase'
    rw [hgone ⟨i, hi, (hsame i hi).trans he⟩] at hold
    cases hold
    exact hv₁ rfl
  · intro hhid val hval
    obtain ⟨w₁, hset, hget, w₂, herase, hold, hsame⟩ :=
      h.uncover (k := k) hd₁ hfirst hfull hnot hkey hval hd' hdel
    refine ⟨w₁, hset, hget, w₂, herase, ?_⟩
    rintro ⟨i, hi, he⟩
    rcases hhid with hempty | rfl
    · exact (hempty i hi ((hsame i hi).symm.trans he)).elim
    · exact hold

end Present

/-- When `ht_set` overwrites. -/
theorem overwrites_iff (k : Machine) (ht p key : Nat) (w₀ w : World) (hmade : HtMade k ht p w₀)
    (hr : Relation.ReflTransGen (AnyStep k ht) w₀ w) (hnot : ¬ GrowDue w.mem ht)
    (hkey : key < 2 ^ 64) : Overwrites k ht p key w ↔ Absent p key w ∨ Hidden p key w := by
  have h := AnyStep.run_inv hr hmade
  by_cases habsent : Absent p key w
  · exact iff_of_true (h.overwrites_absent hnot hkey habsent) (.inl habsent)
  · obtain ⟨j, hj, v, hf⟩ : ∃ j < htBuckets, ∃ v, tableAt w.mem p j = .full key v := by
      unfold Absent at habsent
      push Not at habsent
      exact habsent
    obtain ⟨d₁, hd₁, hfirst, v₁, hfull⟩ := h.reaches.lookup hj hf
    by_cases hdel : ∃ d < d₁, tableAt w.mem p (pos htBuckets (homeOf key) d) = .deleted
    · rw [h.reappears hd₁ hfirst hfull hnot hkey hdel, or_iff_right habsent]
      constructor
      · exact fun hhid => ⟨d₁, v₁, hfirst, hfull, hdel, hhid⟩
      · rintro ⟨d, v, hfirst', hfull', -, hhid⟩
        rw [hfirst'.unique hfirst, hfull] at hfull'
        cases hfull'
        exact hhid
    · push Not at hdel
      refine iff_of_false (h.stale hd₁ hfirst hfull hnot hkey hdel) ?_
      rintro (habs | ⟨d, v, hfirst', -, ⟨d', hd', hdel'⟩, -⟩)
      · exact habsent habs
      · rw [hfirst'.unique hfirst] at hd'
        exact hdel d' hd' hdel'

end Overwrite

/-- The boot table after `ht_set(5, 7)`. -/
theorem bootTable_five : ∃ w₀ w, HtMade bootMachine bootTable bootPage w₀ ∧
    Relation.ReflTransGen (AnyStep bootMachine bootTable) w₀ w ∧ ¬ GrowDue w.mem bootTable ∧
    ∀ i < htBuckets, tableAt w.mem bootPage i = if i = 5 then .full 5 7 else .empty := by
  obtain ⟨m, hstart⟩ := bootTable_start
  obtain ⟨hat, hempty⟩ := hstart.made.empty
  have hinv : ChainInv bootTable bootPage (bootState m).world := ⟨hat, .of_empty hempty⟩
  obtain ⟨w, d, hset, hinv', hfree, hput⟩ := hinv.set (k := bootMachine) hstart.not_growDue
    (show 5 < 2 ^ 64 by decide) (show 7 < 2 ^ 64 by decide)
  have hd : d = 0 := hfree.eq_zero (by rw [hempty _ (pos_lt (by decide) _ _)]; rfl)
  have hnot : (tableAt (bootState m).world.mem bootPage 5).isFull = false := by
    rw [hempty 5 (by decide)]
    rfl
  rw [hd] at hput
  refine ⟨_, w, hstart.made, .single (.set (by decide) (by decide) hstart.not_growDue hset), ?_, ?_⟩
  · rw [hinv'.table.growDue_iff, fullCount_put_full hput (by decide) hnot, fullCount_of_empty hempty]
    decide
  · intro i hi
    rw [hput i hi, hempty i hi]
    rfl

/-- A key that collides with the one that is there. -/
theorem bootTable_overwrites : ∃ w₀ w, HtMade bootMachine bootTable bootPage w₀ ∧
    Relation.ReflTransGen (AnyStep bootMachine bootTable) w₀ w ∧
    Overwrites bootMachine bootTable bootPage 175 w := by
  obtain ⟨w₀, w, hmade, hr, hnot, htable⟩ := bootTable_five
  refine ⟨w₀, w, hmade, hr, (overwrites_iff _ _ _ _ _ _ hmade hr hnot (by decide)).mpr (.inl ?_)⟩
  intro i hi v
  rw [htable i hi]
  split
  · simp
  · simp

/-- After `ht_set(5, 7)` another `ht_set(5, val)` does not replace the 7. -/
theorem bootTable_keeps_old : ∃ w₀ w, HtMade bootMachine bootTable bootPage w₀ ∧
    Relation.ReflTransGen (AnyStep bootMachine bootTable) w₀ w ∧ ¬ GrowDue w.mem bootTable ∧
    ¬ Overwrites bootMachine bootTable bootPage 5 w := by
  obtain ⟨w₀, w, hmade, hr, hnot, htable⟩ := bootTable_five
  have hfive : tableAt w.mem bootPage (pos htBuckets (homeOf 5) 0) = .full 5 7 := htable 5 (by decide)
  have hfirst : FirstAt htBuckets (fun i => (tableAt w.mem bootPage i).stops 5) (homeOf 5) 0 :=
    ⟨by rw [hfive]; rfl, fun d hd => absurd hd (Nat.not_lt_zero d)⟩
  exact ⟨w₀, w, hmade, hr, hnot, (AnyStep.run_inv hr hmade).stale (by decide) hfirst hfive hnot (by decide)
    fun d hd => absurd hd (Nat.not_lt_zero d)⟩

end NyaOS.Slab
