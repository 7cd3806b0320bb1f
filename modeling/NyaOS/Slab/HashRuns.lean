import Mathlib.Logic.Relation
import NyaOS.Slab.HashGrow

/-! Runs of `ht_set` and `ht_erase`: the table is a map as long as lookups end, and they end as
long as some bucket has never been used. -/
namespace NyaOS.Slab
open Library.ByteMemory Library.Probing
open Frames (pageSize)

/-- The memory and the keys present, with the value last set for each. -/
structure TableState where
  world : World
  map : Nat → Option Nat

/-- The table at `ht` right after `ht_init`, with its buckets in the page at `p`. -/
structure HtMade (k : Machine) (ht p : Nat) (w : World) : Prop where
  placed : Placed ht p
  init : ∃ w₀, k.physToVirt (k.kalloc w₀.calls.length) = p ∧ htInit k ht w₀ = some ((), w)

structure TableStart (k : Machine) (ht p : Nat) (s : TableState) : Prop where
  made : HtMade k ht p s.world
  map : s.map = fun _ => none

/-- A call that sets an absent key, where `Ready` holds, or erases a present one. -/
inductive TableStep (k : Machine) (ht : Nat) (Ready : World → Prop) : TableState → TableState → Prop
  | set {w w' : World} {M : Nat → Option Nat} {key val : Nat} (hkey : key < 2 ^ 64)
      (hval : val < 2 ^ 64) (habsent : M key = none) (hready : Ready w)
      (hrun : htSet k ht key val w = some ((), w')) :
      TableStep k ht Ready ⟨w, M⟩ ⟨w', Function.update M key (some val)⟩
  | erase {w w' : World} {M : Nat → Option Nat} {key : Nat} {erased : Bool} (hpresent : M key ≠ none)
      (hrun : htErase ht key w = some (erased, w')) :
      TableStep k ht Ready ⟨w, M⟩ ⟨w', Function.update M key none⟩

abbrev TableReach (k : Machine) (ht : Nat) (Ready : World → Prop) :=
  Relation.ReflTransGen (TableStep k ht Ready)

/-- The invariant of a run. -/
structure TableInv (ht p : Nat) (s : TableState) : Prop where
  table : HtAt s.world.mem ht p
  represents : Represents htBuckets homeOf (tableAt s.world.mem p) s.map

/-- If the next `ht_set` grows the table, it gets a page of its own. -/
def SpareIfDue (k : Machine) (ht p : Nat) (w : World) : Prop :=
  GrowDue w.mem ht → SparePage ht p (k.physToVirt (k.kalloc w.calls.length))

section Inv
variable {k : Machine} {ht p : Nat} {s₀ s s' : TableState} {Ready : World → Prop}

theorem HtMade.empty {w : World} (h : HtMade k ht p w) : HtAt w.mem ht p ∧
    ∀ i < htBuckets, tableAt w.mem p i = .empty := by
  obtain ⟨⟨m₀, calls₀⟩, hp, hrun⟩ := h.init
  obtain ⟨m, hrun', hat, hempty⟩ := htInit_table (m := m₀) h.placed hp
  rw [hrun] at hrun'
  cases hrun'
  exact ⟨hat, hempty⟩

theorem TableStart.inv (h : TableStart k ht p s) : TableInv ht p s := by
  obtain ⟨hat, hempty⟩ := h.made.empty
  refine ⟨hat, Reaches.of_empty hempty, ?_, ?_⟩
  · intro i hi j _ key v v' hf
    rw [hempty i hi] at hf
    cases hf
  · intro key v
    rw [h.map]
    refine iff_of_false (by simp) ?_
    rintro ⟨j, hj, hf⟩
    rw [hempty j hj] at hf
    cases hf

/-- `ht_set` of an absent key, in a table with room. -/
theorem TableInv.set (h : TableInv ht p s) (hspare : SpareIfDue k ht p s.world) {key val : Nat}
    (hkey : key < 2 ^ 64) (hval : val < 2 ^ 64) (habsent : s.map key = none)
    (hroom : fullCount htBuckets (tableAt s.world.mem p) < htBuckets) :
    ∃ w', htSet k ht key val s.world = some ((), w') ∧
      s.world.calls.length ≤ w'.calls.length ∧ w'.calls.length ≤ s.world.calls.length + 1 ∧
      OnlyIn (SetCells k ht p s.world.calls.length w'.calls.length) s.world.mem w'.mem ∧
      fullCount htBuckets (tableAt w'.mem p) = fullCount htBuckets (tableAt s.world.mem p) + 1 ∧
      TableInv ht p ⟨w', Function.update s.map key (some val)⟩ := by
  obtain ⟨m', calls', d, hrun, hlo, hhi, honly, hat, hfirst, hput⟩ := htSet_run h.table hspare hkey hval hroom
  have hnot : (tableAt s.world.mem p (pos htBuckets (homeOf key) d)).isFull = false := by
    simpa using hfirst.hit
  exact ⟨⟨m', calls'⟩, hrun, hlo, hhi, honly, fullCount_put_full hput (pos_lt (by decide) _ _) hnot, hat,
    h.represents.put_full (by decide) habsent hfirst hput⟩

/-- `ht_erase` of a present key. -/
theorem TableInv.erase (h : TableInv ht p s) {key : Nat} (hpresent : s.map key ≠ none) :
    ∃ w', htErase ht key s.world = some (true, w') ∧
      TableInv ht p ⟨w', Function.update s.map key none⟩ := by
  obtain ⟨v, hv⟩ := Option.ne_none_iff_exists'.mp hpresent
  obtain ⟨d, hd, hfirst, hfull⟩ := h.represents.lookup hv
  obtain ⟨m', hrun, hat, hput⟩ := htErase_run s.world.calls h.table hd hfirst hfull
  exact ⟨⟨m', s.world.calls⟩, hrun, hat,
    h.represents.put_deleted (by decide) (pos_lt (by decide) _ _) hfull hput⟩

theorem TableStep.inv (hstep : TableStep k ht Ready s s') (h : TableInv ht p s)
    (hspare : ∀ w, Ready w → SpareIfDue k ht p w) : TableInv ht p s' := by
  cases hstep with
  | @set w w' M key val hkey hval habsent hready hrun =>
    rcases Nat.lt_or_ge (fullCount htBuckets (tableAt w.mem p)) htBuckets with hroom | hfull
    · obtain ⟨w'', hrun', -, -, -, -, hinv⟩ := h.set (hspare w hready) hkey hval habsent hroom
      rw [hrun] at hrun'
      cases hrun'
      exact hinv
    · have hnone := htSet_full h.table (hspare w hready) key val
        (Nat.le_antisymm (fullCount_le _ _) hfull)
      rw [hrun] at hnone
      cases hnone
  | erase hpresent hrun =>
    obtain ⟨w'', hrun', hinv⟩ := h.erase hpresent
    rw [hrun] at hrun'
    cases hrun'
    exact hinv

theorem TableReach.inv (hr : TableReach k ht Ready s₀ s) (hstart : TableStart k ht p s₀)
    (hspare : ∀ w, Ready w → SpareIfDue k ht p w) : TableInv ht p s := by
  induction hr with
  | refl => exact hstart.inv
  | tail _ hstep ih => exact hstep.inv ih hspare

end Inv

section Map
variable {k : Machine} {ht p : Nat} {s₀ s : TableState}

theorem HtAt.growDue_iff {m : Mem} (h : HtAt m ht p) :
    GrowDue m ht ↔ htBuckets < 2 * fullCount htBuckets (tableAt m p) := by
  unfold GrowDue
  rw [h.size, h.capacity, htBuckets_eq]
  omega

/-- A table that need not grow has room. -/
theorem HtAt.room {m : Mem} (h : HtAt m ht p) (hnot : ¬ GrowDue m ht) :
    fullCount htBuckets (tableAt m p) < htBuckets := by
  rw [h.growDue_iff] at hnot
  rw [htBuckets_eq] at hnot ⊢
  omega

theorem TableStart.not_growDue (h : TableStart k ht p s) : ¬ GrowDue s.world.mem ht := by
  obtain ⟨hat, hempty⟩ := h.made.empty
  rw [hat.growDue_iff, fullCount_of_empty hempty]
  decide

/-- The table is a map: it holds what its history says. The lookup of an absent key needs an empty
bucket to end at. -/
structure IsMap (k : Machine) (ht p : Nat) (s : TableState) : Prop where
  table : HtAt s.world.mem ht p
  set : ∀ key val, key < 2 ^ 64 → val < 2 ^ 64 → s.map key = none → ¬ GrowDue s.world.mem ht →
    ∃ w', htSet k ht key val s.world = some ((), w')
  erase : ∀ key, s.map key ≠ none → ∃ w', htErase ht key s.world = some (true, w')
  present : ∀ key v, s.map key = some v → htGet ht key s.world = some (v, s.world)
  absent : ∀ key, s.map key = none → (∃ i < htBuckets, tableAt s.world.mem p i = .empty) →
    htGet ht key s.world = some (0, s.world)

theorem TableInv.get (h : TableInv ht p s) {key v : Nat} (hv : s.map key = some v) :
    htGet ht key s.world = some (v, s.world) := by
  obtain ⟨d, hd, hfirst, hfull⟩ := h.represents.lookup hv
  have hget : htGet ht key s.world = _ := htGet_run h.table hd hfirst
  rw [hfull] at hget
  exact hget

theorem TableInv.get_absent (h : TableInv ht p s) {key : Nat} (hnone : s.map key = none)
    {i : Nat} (hi : i < htBuckets) (he : tableAt s.world.mem p i = .empty) :
    htGet ht key s.world = some (0, s.world) := by
  obtain ⟨d, hd, hfirst, hempty⟩ := lookup_absent (h.represents.absent hnone) hi he (homeOf key)
  have hget : htGet ht key s.world = _ := htGet_run h.table hd hfirst
  rw [hempty] at hget
  exact hget

theorem TableInv.isMap (h : TableInv ht p s) : IsMap k ht p s := by
  refine ⟨h.table, ?_, ?_, fun key v hv => h.get hv, ?_⟩
  · intro key val hkey hval hnone hnot
    obtain ⟨w', hrun, -⟩ := h.set (k := k) (fun hdue => (hnot hdue).elim) hkey hval hnone
      (h.table.room hnot)
    exact ⟨w', hrun⟩
  · intro key hpresent
    obtain ⟨w', hrun, -⟩ := h.erase hpresent
    exact ⟨w', hrun⟩
  · rintro key hnone ⟨i, hi, he⟩
    exact h.get_absent hnone hi he

/-- As long as it need not grow, the hash table is a map. -/
theorem table_isMap (k : Machine) (ht p : Nat) (s₀ s : TableState) (hstart : TableStart k ht p s₀)
    (hr : TableReach k ht (fun w => ¬ GrowDue w.mem ht) s₀ s) : IsMap k ht p s :=
  (hr.inv hstart fun _ hnot hdue => (hnot hdue).elim).isMap

end Map

/-- A table in the kernel's data, its buckets in the first frame. -/
abbrev bootTable : Nat := 0xffffffff80200000

abbrev bootPage : Nat := 0xffff800000100000

/-- The state right after `ht_init`. -/
def bootState (m : Mem) : TableState := ⟨⟨m, [.alloc 0x100000 1]⟩, fun _ => none⟩

theorem bootTable_start : ∃ m, TableStart bootMachine bootTable bootPage (bootState m) := by
  have hplaced : Placed bootTable bootPage :=
    ⟨by decide, by decide, by decide, by decide, by decide⟩
  obtain ⟨m, hrun, -⟩ := @htInit_table bootMachine (fun _ => 0) [] bootTable bootPage hplaced rfl
  exact ⟨m, ⟨hplaced, ⟨⟨fun _ => 0, []⟩, rfl, hrun⟩⟩, rfl⟩

theorem bootTable_isMap : ∃ s₀ s, TableStart bootMachine bootTable bootPage s₀ ∧
    TableReach bootMachine bootTable (fun w => ¬ GrowDue w.mem bootTable) s₀ s ∧
    s.map 5 = some 7 ∧ IsMap bootMachine bootTable bootPage s := by
  obtain ⟨m, hstart⟩ := bootTable_start
  have hnot : ¬ GrowDue m bootTable := hstart.not_growDue
  obtain ⟨w', hrun⟩ := hstart.inv.isMap.set 5 7 (by decide) (by decide) rfl hnot
  have hstep : TableStep bootMachine bootTable (fun w => ¬ GrowDue w.mem bootTable) (bootState m)
      ⟨w', Function.update (fun _ => none) 5 (some 7)⟩ := .set (by decide) (by decide) rfl hnot hrun
  exact ⟨_, _, hstart, .single hstep, rfl, table_isMap _ _ _ _ _ hstart (.single hstep)⟩

section Wear
variable {k : Machine} {ht p : Nat} {s₀ s : TableState}

/-- After the next `ht_set` at most half the buckets are full. -/
def HalfLive (ht : Nat) (w : World) : Prop :=
  2 * (load w.mem (ht + KmemCache.htSize) 8 + 1) ≤ load w.mem (ht + KmemCache.capacity) 8

/-- The probe loops of `ht_get` and `ht_erase` end, for every key. -/
def LookupsEnd (ht : Nat) (w : World) : Prop :=
  ∀ key < 2 ^ 64, ∃ i, hashBuf ht key w = some (i, w) ∧
    (∃ fuel, htProbe ht key fuel i w ≠ none) ∧ ∃ fuel, htSeek ht key fuel i w ≠ none

theorem HalfLive.not_due {w : World} (h : HalfLive ht w) : ¬ GrowDue w.mem ht := by
  intro hdue
  unfold HalfLive at h
  unfold GrowDue at hdue
  omega

theorem HalfLive.spare {w : World} (h : HalfLive ht w) : SpareIfDue k ht p w :=
  fun hdue => (h.not_due hdue).elim

/-- There are more keys than buckets, so without an empty bucket some lookup goes around forever. -/
theorem HtAt.lookupsEnd_iff {w : World} (h : HtAt w.mem ht p) :
    LookupsEnd ht w ↔ ∃ i < htBuckets, tableAt w.mem p i = .empty := by
  constructor
  · intro hend
    by_contra hno
    obtain ⟨key, hkey, habsent⟩ := exists_absent (n := htBuckets) (T := tableAt w.mem p)
      (Finset.range (htBuckets + 1)) (by rw [Finset.card_range]; exact Nat.lt_succ_self _)
    rw [Finset.mem_range, htBuckets_eq] at hkey
    have hstop : ∀ j < htBuckets, (tableAt w.mem p j).stops key = false := by
      intro j hj
      by_contra hs
      rcases Slot.stops_iff.mp (by simpa using hs) with he | ⟨v, hf⟩
      · exact hno ⟨j, hj, he⟩
      · exact habsent j hj v hf
    obtain ⟨i, hi, ⟨fuel, hrun⟩, -⟩ := hend key (by omega)
    rw [hashBuf_run h key w.calls] at hi
    cases hi
    apply hrun
    rw [htProbe_eq_probe h, probe_eq_none hstop (homeOf_lt key)]
    rfl
  · rintro ⟨j, hj, he⟩ key -
    obtain ⟨d, -, hfirst⟩ := exists_firstAt (P := fun i => (tableAt w.mem p i).stops key) hj
      (by simp [he, Slot.stops]) (homeOf key)
    refine ⟨homeOf key, hashBuf_run h key w.calls, ⟨d + 1, ?_⟩, ⟨d + 1, ?_⟩⟩
    · rw [htProbe_eq_probe h, probe_of_firstAt (homeOf_lt key) hfirst (Nat.lt_succ_self d)]
      simp
    · rw [htSeek_eq_probe h, probe_of_firstAt (homeOf_lt key) hfirst (Nat.lt_succ_self d)]
      simp

/-- With at most half of the table live, lookups end exactly while some bucket has never been used. -/
theorem lookups_end_iff_empty (k : Machine) (ht p : Nat) (s₀ s : TableState)
    (hstart : TableStart k ht p s₀) (hr : TableReach k ht (HalfLive ht) s₀ s) :
    LookupsEnd ht s.world ↔ ∃ i < htBuckets, tableAt s.world.mem p i = .empty :=
  (hr.inv hstart fun _ => HalfLive.spare).table.lookupsEnd_iff

/-- The first `n` buckets have been used, and no key is present. -/
structure Worn (p n : Nat) (s : TableState) : Prop where
  vacant : ∀ key, s.map key = none
  buckets : ∀ i < htBuckets, tableAt s.world.mem p i = if i < n then .deleted else .empty

theorem Worn.count {n : Nat} (hworn : Worn p n s) :
    fullCount htBuckets (tableAt s.world.mem p) = 0 := by
  apply fullCount_of_not_full
  intro i hi
  rw [hworn.buckets i hi]
  split <;> rfl

theorem Worn.halfLive {n : Nat} (hworn : Worn p n s) (h : TableInv ht p s) : HalfLive ht s.world := by
  unfold HalfLive
  rw [h.table.size, h.table.capacity, hworn.count]
  decide

/-- Setting and erasing an absent key wears out its home bucket and changes nothing else. -/
theorem TableInv.wear (h : TableInv ht p s) (hlive : HalfLive ht s.world) {key : Nat}
    (hkey : key < 2 ^ 64) (habsent : s.map key = none)
    (hnot : (tableAt s.world.mem p (homeOf key)).isFull = false) :
    ∃ w', TableReach k ht (HalfLive ht) s ⟨w', s.map⟩ ∧ TableInv ht p ⟨w', s.map⟩ ∧
      Puts htBuckets (tableAt s.world.mem p) (homeOf key) .deleted (tableAt w'.mem p) := by
  have hspare : SpareIfDue k ht p s.world := hlive.spare
  have hhome : pos htBuckets (homeOf key) 0 = homeOf key := Nat.mod_eq_of_lt (homeOf_lt key)
  obtain ⟨m₁, calls₁, d, hset, -, -, -, hat₁, hfirst, hput⟩ := htSet_run h.table hspare hkey
    (show 1 < 2 ^ 64 by decide) (h.table.room hlive.not_due)
  have hrep₁ := h.represents.put_full (by decide) habsent hfirst hput
  have hd : d = 0 := hfirst.eq_zero (by rw [hhome, hnot]; rfl)
  rw [hd, hhome] at hput
  -- the lookup for the key comes to its only bucket
  obtain ⟨d', hd', hfirst', hfull'⟩ := hrep₁.lookup (Function.update_self key (some 1) s.map)
  have hnew : tableAt m₁ p (homeOf key) = .full key 1 := by
    rw [hput _ (homeOf_lt key), if_pos rfl]
  have hpos := hrep₁.unique _ (pos_lt (by decide) _ _) _ (homeOf_lt key) _ _ _ hfull' hnew
  obtain ⟨m₂, herase, hat₂, hput₂⟩ := htErase_run calls₁ hat₁ hd' hfirst' hfull'
  have hrep₂ := hrep₁.put_deleted (by decide) (pos_lt (by decide) _ _) hfull' hput₂
  rw [hpos] at hput₂
  have hmap : Function.update (Function.update s.map key (some 1)) key none = s.map := by
    rw [Function.update_idem, ← habsent, Function.update_eq_self]
  have hpresent : Function.update s.map key (some 1) key ≠ none := by
    rw [Function.update_self]
    simp
  have hreach : TableReach k ht (HalfLive ht) s ⟨⟨m₂, calls₁⟩, s.map⟩ := by
    have hstep : TableStep k ht (HalfLive ht) ⟨⟨m₁, calls₁⟩, Function.update s.map key (some 1)⟩
      ⟨⟨m₂, calls₁⟩, _⟩ := .erase hpresent herase
    rw [hmap] at hstep
    exact .tail (.single (.set hkey (by decide) habsent hlive hset)) hstep
  rw [hmap] at hrep₂
  exact ⟨⟨m₂, calls₁⟩, hreach, ⟨hat₂, hrep₂⟩, hput.trans hput₂⟩

theorem Worn.step {n : Nat} (hworn : Worn p n s) (h : TableInv ht p s) (hn : n < htBuckets) :
    ∃ s', TableReach k ht (HalfLive ht) s s' ∧ Worn p (n + 1) s' ∧ TableInv ht p s' := by
  have hn' : n < 170 := hn
  have hhome : homeOf n = n := Nat.mod_eq_of_lt hn
  have hnot : (tableAt s.world.mem p (homeOf n)).isFull = false := by
    rw [hhome, hworn.buckets n hn, if_neg (Nat.lt_irrefl n)]
    rfl
  obtain ⟨w', hreach, hinv, hput⟩ := h.wear (k := k) (hworn.halfLive h) (show n < 2 ^ 64 by omega)
    (hworn.vacant n) hnot
  refine ⟨_, hreach, ⟨hworn.vacant, fun i hi => ?_⟩, hinv⟩
  rw [hput i hi, hworn.buckets i hi, hhome]
  split
  · rw [if_pos (by omega)]
  · exact if_congr (by omega) rfl rfl

theorem Worn.run (hstart : TableStart k ht p s₀) {n : Nat} (hn : n ≤ htBuckets) :
    ∃ s, TableReach k ht (HalfLive ht) s₀ s ∧ Worn p n s ∧ TableInv ht p s := by
  induction n with
  | zero =>
    refine ⟨s₀, .refl, ⟨fun key => by rw [hstart.map], ?_⟩, hstart.inv⟩
    intro i hi
    rw [if_neg (Nat.not_lt_zero i)]
    exact hstart.made.empty.2 i hi
  | succ n ih =>
    obtain ⟨s, hr, hworn, hinv⟩ := ih (by omega)
    obtain ⟨s', hr', hworn', hinv'⟩ := hworn.step (k := k) hinv hn
    exact ⟨s', hr.trans hr', hworn', hinv'⟩

end Wear

/-- 170 keys set and erased one after another: never more than one is live, and then the lookup of
an absent key does not end. -/
theorem bootTable_lookup_hangs : ∃ s₀ s, TableStart bootMachine bootTable bootPage s₀ ∧
    TableReach bootMachine bootTable (HalfLive bootTable) s₀ s ∧ (∀ key, s.map key = none) ∧
    ¬ LookupsEnd bootTable s.world := by
  obtain ⟨m, hstart⟩ := bootTable_start
  obtain ⟨s, hr, hworn, hinv⟩ := Worn.run hstart (Nat.le_refl htBuckets)
  refine ⟨_, s, hstart, hr, hworn.vacant, ?_⟩
  rw [hinv.table.lookupsEnd_iff]
  rintro ⟨i, hi, he⟩
  rw [hworn.buckets i hi, if_pos hi] at he
  cases he

theorem bootTable_lookups_end : ∃ s₀ s, TableStart bootMachine bootTable bootPage s₀ ∧
    TableReach bootMachine bootTable (HalfLive bootTable) s₀ s ∧
    (∃ i < htBuckets, tableAt s.world.mem bootPage i = .deleted) ∧ LookupsEnd bootTable s.world := by
  obtain ⟨m, hstart⟩ := bootTable_start
  obtain ⟨s, hr, hworn, -⟩ := Worn.run hstart (show 1 ≤ htBuckets by decide)
  refine ⟨_, s, hstart, hr, ⟨0, by decide, hworn.buckets 0 (by decide)⟩, ?_⟩
  exact (lookups_end_iff_empty _ _ _ _ _ hstart hr).mpr ⟨1, by decide, hworn.buckets 1 (by decide)⟩

end NyaOS.Slab
