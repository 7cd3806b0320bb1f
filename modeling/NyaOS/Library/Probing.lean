import Mathlib.Data.Finset.Card
import Mathlib.Data.Nat.Find
import Mathlib.Tactic.Common

/-! Open addressing with linear probing and tombstones, over any keys and values. A table has
`n` buckets, of which only those below `n` matter. -/
namespace NyaOS.Library.Probing

inductive Slot (κ ν : Type) where
  | empty
  | deleted
  | full (key : κ) (val : ν)
deriving DecidableEq

namespace Slot
variable {κ ν : Type}

def isFull : Slot κ ν → Bool
  | full _ _ => true
  | _ => false

/-- A lookup of `key` ends at such a bucket. -/
def stops [DecidableEq κ] (key : κ) : Slot κ ν → Bool
  | empty => true
  | deleted => false
  | full k _ => k = key

theorem stops_iff [DecidableEq κ] {s : Slot κ ν} {key : κ} :
    s.stops key = true ↔ s = empty ∨ ∃ v, s = full key v := by
  cases s <;> simp [stops]

/-- A bucket that a lookup passes and that is not full is a tombstone. -/
theorem deleted_of_passed [DecidableEq κ] {s : Slot κ ν} {key : κ} (hgo : s.stops key = false)
    (hnot : s.isFull = false) : s = deleted := by
  cases s with
  | empty => cases hgo
  | deleted => rfl
  | full k v => cases hnot

end Slot

section Walk
variable {n : Nat} {P : Nat → Bool} {i d : Nat}

/-- The bucket at distance `d` behind `i`, around the end of the array. -/
def pos (n i d : Nat) : Nat := (i + d) % n

theorem pos_lt (hn : 0 < n) (i d : Nat) : pos n i d < n := Nat.mod_lt _ hn

theorem pos_succ (n i d : Nat) : pos n i (d + 1) = pos n ((i + 1) % n) d := by
  rw [pos, pos, Nat.mod_add_mod, Nat.add_assoc i 1 d, Nat.add_comm 1 d]

/-- Every bucket is met within one turn around the array. -/
theorem exists_pos_eq {j : Nat} (hj : j < n) (i : Nat) : ∃ d < n, pos n i d = j := by
  have hi : i % n < n := Nat.mod_lt _ (by omega)
  have hpos : ∀ d, pos n i d = (i % n + d) % n := fun d => (Nat.mod_add_mod i n d).symm
  rcases Nat.lt_or_ge j (i % n) with hlt | hge
  · refine ⟨j + n - i % n, by omega, ?_⟩
    rw [hpos, show i % n + (j + n - i % n) = j + n by omega, Nat.add_mod_right, Nat.mod_eq_of_lt hj]
  · refine ⟨j - i % n, by omega, ?_⟩
    rw [hpos, show i % n + (j - i % n) = j by omega, Nat.mod_eq_of_lt hj]

/-- `d` is the first distance behind `i` whose bucket satisfies `P`. -/
structure FirstAt (n : Nat) (P : Nat → Bool) (i d : Nat) : Prop where
  hit : P (pos n i d) = true
  before : ∀ d' < d, P (pos n i d') = false

theorem exists_firstAt {j : Nat} (hj : j < n) (hP : P j = true) (i : Nat) :
    ∃ d < n, FirstAt n P i d := by
  obtain ⟨d, hd, he⟩ := exists_pos_eq hj i
  have hex : ∃ d, P (pos n i d) = true := ⟨d, he ▸ hP⟩
  refine ⟨Nat.find hex, (Nat.find_min' hex (he ▸ hP)).trans_lt hd, Nat.find_spec hex, fun d' hd' => ?_⟩
  simpa using Nat.find_min hex hd'

theorem FirstAt.eq_zero (h : FirstAt n P i d) (hhome : P (pos n i 0) = true) : d = 0 := by
  by_contra hd
  have hno := h.before 0 (Nat.pos_of_ne_zero hd)
  rw [hhome] at hno
  cases hno

/-- Only the buckets on the way count. -/
theorem FirstAt.of_agree {P' : Nat → Bool} (h : FirstAt n P i d)
    (hsame : ∀ d' ≤ d, P' (pos n i d') = P (pos n i d')) : FirstAt n P' i d :=
  ⟨(hsame d (Nat.le_refl d)).trans h.hit,
    fun d' hd' => (hsame d' (Nat.le_of_lt hd')).trans (h.before d' hd')⟩

theorem FirstAt.congr {P' : Nat → Bool} (h : FirstAt n P i d) (hn : 0 < n)
    (hsame : ∀ j < n, P' j = P j) : FirstAt n P' i d :=
  h.of_agree fun _ _ => hsame _ (pos_lt hn _ _)

theorem FirstAt.unique {d' : Nat} (h : FirstAt n P i d) (h' : FirstAt n P i d') : d = d' := by
  rcases Nat.lt_trichotomy d d' with hlt | heq | hgt
  · exact absurd (h'.before d hlt) (by rw [h.hit]; simp)
  · exact heq
  · exact absurd (h.before d' hgt) (by rw [h'.hit]; simp)

/-- The probe loop: from bucket to bucket until one satisfies `P`. A loop that takes more than
`fuel` turns has no result. -/
def probe (n : Nat) (P : Nat → Bool) : Nat → Nat → Option Nat
  | 0, _ => none
  | fuel + 1, i => if P i then some i else probe n P fuel ((i + 1) % n)

theorem probe_of_firstAt (hi : i < n) (h : FirstAt n P i d) {fuel : Nat} (hfuel : d < fuel) :
    probe n P fuel i = some (pos n i d) := by
  have hpos : pos n i 0 = i := Nat.mod_eq_of_lt hi
  induction fuel generalizing i d with
  | zero => omega
  | succ fuel ih =>
    rw [probe]
    cases d with
    | zero =>
      have hit := h.hit
      rw [hpos] at hit
      rw [if_pos hit, hpos]
    | succ d =>
      have hno := h.before 0 (Nat.succ_pos d)
      rw [hpos] at hno
      have hlt : (i + 1) % n < n := Nat.mod_lt _ (by omega)
      have hnext : FirstAt n P ((i + 1) % n) d :=
        ⟨pos_succ n i d ▸ h.hit, fun d' hd' => pos_succ n i d' ▸ h.before (d' + 1) (by omega)⟩
      rw [hno, ih hlt hnext (by omega) (Nat.mod_eq_of_lt hlt), pos_succ]
      rfl

/-- Without such a bucket the loop never ends. -/
theorem probe_eq_none (hno : ∀ j < n, P j = false) (hi : i < n) (fuel : Nat) :
    probe n P fuel i = none := by
  induction fuel generalizing i with
  | zero => rfl
  | succ fuel ih =>
    rw [probe, hno i hi]
    exact ih (Nat.mod_lt _ (by omega))

end Walk

section Table
variable {κ ν : Type} {n : Nat} {home : κ → Nat} {T T' : Nat → Slot κ ν} {j : Nat} {key : κ} {v : ν}

/-- `T'` is `T` with `s` in bucket `j`. -/
def Puts (n : Nat) (T : Nat → Slot κ ν) (j : Nat) (s : Slot κ ν) (T' : Nat → Slot κ ν) : Prop :=
  ∀ i < n, T' i = if i = j then s else T i

theorem Puts.congr {T₀ : Nat → Slot κ ν} {s : Slot κ ν} (h : Puts n T j s T')
    (hsame : ∀ i < n, T i = T₀ i) : Puts n T₀ j s T' := by
  intro i hi
  rw [h i hi, hsame i hi]

theorem Puts.trans {s s' : Slot κ ν} {T'' : Nat → Slot κ ν} (h : Puts n T j s T') (h' : Puts n T' j s' T'') :
    Puts n T j s' T'' := by
  intro i hi
  rw [h' i hi, h i hi]
  split <;> rfl

/-- The number of full buckets. -/
def fullCount (n : Nat) (T : Nat → Slot κ ν) : Nat :=
  ((Finset.range n).filter fun i => (T i).isFull = true).card

theorem fullCount_le (n : Nat) (T : Nat → Slot κ ν) : fullCount n T ≤ n :=
  (Finset.card_filter_le _ _).trans_eq (Finset.card_range n)

theorem fullCount_of_not_full (h : ∀ j < n, (T j).isFull = false) : fullCount n T = 0 := by
  rw [fullCount, Finset.card_eq_zero, Finset.filter_eq_empty_iff]
  intro i hi
  simp [h i (Finset.mem_range.mp hi)]

theorem fullCount_of_empty (h : ∀ j < n, T j = .empty) : fullCount n T = 0 := by
  apply fullCount_of_not_full
  intro j hj
  rw [h j hj]
  rfl

theorem exists_not_full (h : fullCount n T < n) : ∃ j < n, (T j).isFull = false := by
  by_contra hall
  have hfull : ∀ i ∈ Finset.range n, (T i).isFull = true := by
    intro i hi
    by_contra hnot
    exact hall ⟨i, Finset.mem_range.mp hi, by simpa using hnot⟩
  rw [fullCount, Finset.filter_true_of_mem hfull, Finset.card_range] at h
  exact Nat.lt_irrefl n h

theorem isFull_of_count (h : fullCount n T = n) : ∀ j < n, (T j).isFull = true := by
  have hall : ((Finset.range n).filter fun i => (T i).isFull = true) = Finset.range n :=
    Finset.eq_of_subset_of_card_le (Finset.filter_subset _ _) (by rw [Finset.card_range]; exact h.ge)
  intro j hj
  have hmem : j ∈ (Finset.range n).filter fun i => (T i).isFull = true := by
    rw [hall]
    exact Finset.mem_range.mpr hj
  exact (Finset.mem_filter.mp hmem).2

theorem fullCount_put_full (hput : Puts n T j (.full key v) T') (hj : j < n)
    (hnot : (T j).isFull = false) : fullCount n T' = fullCount n T + 1 := by
  have hset : ((Finset.range n).filter fun i => (T' i).isFull = true) =
      insert j ((Finset.range n).filter fun i => (T i).isFull = true) := by
    ext i
    simp only [Finset.mem_filter, Finset.mem_insert, Finset.mem_range]
    constructor
    · rintro ⟨hi, hf⟩
      rw [hput i hi] at hf
      split at hf
      · exact .inl ‹_›
      · exact .inr ⟨hi, hf⟩
    · rintro (rfl | ⟨hi, hf⟩)
      · exact ⟨hj, by rw [hput i hj, if_pos rfl]; rfl⟩
      · refine ⟨hi, ?_⟩
        rw [hput i hi]
        split
        · rfl
        · exact hf
  rw [fullCount, hset, Finset.card_insert_of_notMem (by simp [hnot])]
  rfl

theorem fullCount_put_deleted (hput : Puts n T j .deleted T') (hj : j < n)
    (hfull : (T j).isFull = true) : fullCount n T' + 1 = fullCount n T := by
  have hset : ((Finset.range n).filter fun i => (T' i).isFull = true) =
      ((Finset.range n).filter fun i => (T i).isFull = true).erase j := by
    ext i
    simp only [Finset.mem_filter, Finset.mem_erase, Finset.mem_range]
    constructor
    · rintro ⟨hi, hf⟩
      rw [hput i hi] at hf
      split at hf
      · cases hf
      · exact ⟨‹_›, hi, hf⟩
    · rintro ⟨hne, hi, hf⟩
      exact ⟨hi, by rwa [hput i hi, if_neg hne]⟩
  rw [fullCount, hset]
  exact Finset.card_erase_add_one (Finset.mem_filter.mpr ⟨Finset.mem_range.mpr hj, hfull⟩)

/-- More keys than buckets: one of them is not in the table. -/
theorem exists_absent (keys : Finset κ) (hcard : n < keys.card) :
    ∃ k ∈ keys, ∀ i < n, ∀ v, T i ≠ .full k v := by
  by_contra hall
  have hbucket : ∀ k ∈ keys, ∃ i < n, ∃ v, T i = .full k v := by
    intro k hk
    by_contra hno
    exact hall ⟨k, hk, fun i hi v hf => hno ⟨i, hi, v, hf⟩⟩
  choose! f hf using hbucket
  obtain ⟨a, ha, b, hb, hab, he⟩ := Finset.exists_ne_map_eq_of_card_lt_of_maps_to
    (t := Finset.range n) (by rwa [Finset.card_range])
    fun k hk => Finset.mem_coe.mpr (Finset.mem_range.mpr (hf k hk).1)
  obtain ⟨-, v, hv⟩ := hf a ha
  obtain ⟨-, v', hv'⟩ := hf b hb
  rw [he, hv'] at hv
  cases hv
  exact hab rfl

/-- Changing one bucket adds at most one full bucket. -/
theorem fullCount_le_succ (hsame : ∀ i < n, i ≠ j → T' i = T i) :
    fullCount n T' ≤ fullCount n T + 1 := by
  have hsub : ((Finset.range n).filter fun i => (T' i).isFull = true) ⊆
      insert j ((Finset.range n).filter fun i => (T i).isFull = true) := by
    intro i hi
    obtain ⟨hin, hf⟩ := Finset.mem_filter.mp hi
    by_cases hij : i = j
    · exact Finset.mem_insert.mpr (.inl hij)
    · rw [hsame i (Finset.mem_range.mp hin) hij] at hf
      exact Finset.mem_insert_of_mem (Finset.mem_filter.mpr ⟨hin, hf⟩)
  exact (Finset.card_le_card hsub).trans (Finset.card_insert_le _ _)

/-- The probe chains: on the way from its key's home to a full bucket there is no empty one. -/
def Reaches (n : Nat) (home : κ → Nat) (T : Nat → Slot κ ν) : Prop :=
  ∀ j < n, ∀ k v, T j = .full k v → ∀ d, T (pos n (home k) d) = .empty → ∃ d' < d, pos n (home k) d' = j

theorem Reaches.of_empty (hT : ∀ j < n, T j = .empty) : Reaches n home T := by
  intro j hj k v hf
  rw [hT j hj] at hf
  cases hf

/-- A key goes to the first bucket behind its home that is not full; the chains stay whole. -/
theorem Reaches.put_full (h : Reaches n home T) (hn : 0 < n) {d : Nat}
    (hfirst : FirstAt n (fun i => !(T i).isFull) (home key) d)
    (hput : Puts n T (pos n (home key) d) (.full key v) T') : Reaches n home T' := by
  have hempty : ∀ i < n, T' i = .empty → i ≠ pos n (home key) d ∧ T i = .empty := by
    intro i hi he
    rw [hput i hi] at he
    split at he
    · cases he
    · exact ⟨‹_›, he⟩
  intro j hj k w hf e he
  obtain ⟨hne, he⟩ := hempty _ (pos_lt hn _ _) he
  rw [hput j hj] at hf
  split at hf
  · rename_i hjd
    cases hf
    refine ⟨d, ?_, hjd.symm⟩
    rcases Nat.lt_trichotomy d e with hlt | rfl | hgt
    · exact hlt
    · exact (hne rfl).elim
    · -- the buckets passed on the way were full
      have := hfirst.before e hgt
      rw [he] at this
      cases this
  · exact h j hj k w hf e he

/-- A tombstone is not empty, so erasing breaks no chain. -/
theorem Reaches.put_deleted (h : Reaches n home T) (hn : 0 < n) (hput : Puts n T j .deleted T') :
    Reaches n home T' := by
  intro i hi k w hf e he
  rw [hput _ (pos_lt hn _ _)] at he
  rw [hput i hi] at hf
  split at he
  · cases he
  · split at hf
    · cases hf
    · exact h i hi k w hf e he

section Lookup
variable [DecidableEq κ]

/-- The lookup of a key that is there ends at a bucket of that key. -/
theorem Reaches.lookup (h : Reaches n home T) (hj : j < n) (hf : T j = .full key v) :
    ∃ d < n, FirstAt n (fun i => (T i).stops key) (home key) d ∧
      ∃ v', T (pos n (home key) d) = .full key v' := by
  obtain ⟨d, hd, hfirst⟩ := exists_firstAt (P := fun i => (T i).stops key) hj
    (by simp [hf, Slot.stops]) (home key)
  refine ⟨d, hd, hfirst, ?_⟩
  rcases Slot.stops_iff.mp hfirst.hit with he | hfull
  · obtain ⟨d', hd', hpos⟩ := h j hj key v hf d he
    have := hfirst.before d' hd'
    rw [hpos, hf] at this
    simp [Slot.stops] at this
  · exact hfull

/-- The lookup of a key that is not there ends at an empty bucket, if there is one. -/
theorem lookup_absent (habsent : ∀ i < n, ∀ v, T i ≠ .full key v) (hj : j < n) (he : T j = .empty)
    (i : Nat) : ∃ d < n, FirstAt n (fun i => (T i).stops key) i d ∧ T (pos n i d) = .empty := by
  obtain ⟨d, hd, hfirst⟩ := exists_firstAt (P := fun i => (T i).stops key) hj
    (by simp [he, Slot.stops]) i
  refine ⟨d, hd, hfirst, ?_⟩
  rcases Slot.stops_iff.mp hfirst.hit with he | ⟨v, hf⟩
  · exact he
  · exact (habsent _ (pos_lt (by omega) _ _) v hf).elim

/-- A key put in front of the bucket its lookup ended at is found first. -/
theorem FirstAt.put_before {d₀ d₁ : Nat} (h₁ : FirstAt n (fun i => (T i).stops key) (home key) d₁)
    (h₀ : FirstAt n (fun i => !(T i).isFull) (home key) d₀) (hlt : d₀ < d₁) (hn : 0 < n)
    (hput : Puts n T (pos n (home key) d₀) (.full key v) T') :
    FirstAt n (fun i => (T' i).stops key) (home key) d₀ := by
  refine ⟨?_, fun d hd => ?_⟩
  · rw [hput _ (pos_lt hn _ _), if_pos rfl]
    simp [Slot.stops]
  · have hne : pos n (home key) d ≠ pos n (home key) d₀ := by
      intro he
      have hfull := h₀.before d hd
      rw [he, h₀.hit] at hfull
      cases hfull
    rw [hput _ (pos_lt hn _ _), if_neg hne]
    exact h₁.before d (by omega)

/-- A bucket changed off the way of a lookup, or passed by it before and after, does not matter. -/
theorem FirstAt.put_passed {d₁ j : Nat} {s : Slot κ ν} (hn : 0 < n)
    (h₁ : FirstAt n (fun i => (T i).stops key) (home key) d₁) (hput : Puts n T j s T')
    (hj : ∀ d ≤ d₁, pos n (home key) d = j → s.stops key = (T j).stops key) :
    FirstAt n (fun i => (T' i).stops key) (home key) d₁ := by
  refine h₁.of_agree fun d hd => ?_
  rw [hput _ (pos_lt hn _ _)]
  split
  · rename_i he
    rw [he]
    exact hj d hd he
  · rfl

end Lookup

/-- The table is the finite map `M`: each key has one bucket, which its lookup comes to. -/
structure Represents (n : Nat) (home : κ → Nat) (T : Nat → Slot κ ν) (M : κ → Option ν) : Prop where
  reaches : Reaches n home T
  unique : ∀ i < n, ∀ j < n, ∀ k v v', T i = .full k v → T j = .full k v' → i = j
  holds : ∀ k v, M k = some v ↔ ∃ j < n, T j = .full k v

section Map
variable {M : κ → Option ν}

theorem Represents.absent (h : Represents n home T M) (hk : M key = none) :
    ∀ i < n, ∀ v, T i ≠ .full key v := by
  intro i hi v hf
  have := (h.holds key v).mpr ⟨i, hi, hf⟩
  rw [hk] at this
  cases this

variable [DecidableEq κ]

theorem Represents.put_full (h : Represents n home T M) (hn : 0 < n) (hk : M key = none) {d : Nat}
    (hfirst : FirstAt n (fun i => !(T i).isFull) (home key) d)
    (hput : Puts n T (pos n (home key) d) (.full key v) T') :
    Represents n home T' (Function.update M key (some v)) := by
  have hnot : (T (pos n (home key) d)).isFull = false := by simpa using hfirst.hit
  have habsent := h.absent hk
  have hslot : ∀ i < n, ∀ k w, T' i = .full k w ↔
      (i = pos n (home key) d ∧ k = key ∧ w = v) ∨ (i ≠ pos n (home key) d ∧ T i = .full k w) := by
    intro i hi k w
    rw [hput i hi]
    split
    · rename_i he
      simp [he, eq_comm]
    · rename_i hne
      simp [hne]
  refine ⟨h.reaches.put_full hn hfirst hput, ?_, ?_⟩
  · intro i hi j hj k w w' hfi hfj
    rcases (hslot i hi k w).mp hfi with ⟨rfl, rfl, rfl⟩ | ⟨-, hTi⟩
    · rcases (hslot j hj _ w').mp hfj with ⟨rfl, -⟩ | ⟨-, hTj⟩
      · rfl
      · exact (habsent j hj w' hTj).elim
    · rcases (hslot j hj k w').mp hfj with ⟨rfl, rfl, rfl⟩ | ⟨-, hTj⟩
      · exact (habsent i hi w hTi).elim
      · exact h.unique i hi j hj k w w' hTi hTj
  · intro k w
    by_cases hkk : k = key
    · subst hkk
      rw [Function.update_self]
      constructor
      · intro he
        cases he
        exact ⟨_, pos_lt hn _ _, (hslot _ (pos_lt hn _ _) _ _).mpr (.inl ⟨rfl, rfl, rfl⟩)⟩
      · rintro ⟨i, hi, hf⟩
        rcases (hslot i hi k w).mp hf with ⟨-, -, rfl⟩ | ⟨-, hT⟩
        · rfl
        · exact (habsent i hi w hT).elim
    · rw [Function.update_of_ne hkk, h.holds k w]
      constructor
      · rintro ⟨i, hi, hf⟩
        refine ⟨i, hi, (hslot i hi k w).mpr (.inr ⟨?_, hf⟩)⟩
        rintro rfl
        rw [hf] at hnot
        cases hnot
      · rintro ⟨i, hi, hf⟩
        rcases (hslot i hi k w).mp hf with ⟨-, he, -⟩ | ⟨-, hT⟩
        · exact (hkk he).elim
        · exact ⟨i, hi, hT⟩

theorem Represents.put_deleted (h : Represents n home T M) (hn : 0 < n) (hj : j < n)
    (hf : T j = .full key v) (hput : Puts n T j .deleted T') :
    Represents n home T' (Function.update M key none) := by
  have hslot : ∀ i < n, ∀ k w, T' i = .full k w ↔ i ≠ j ∧ T i = .full k w := by
    intro i hi k w
    rw [hput i hi]
    split
    · rename_i he
      simp [he]
    · rename_i hne
      simp [hne]
  refine ⟨h.reaches.put_deleted hn hput, ?_, ?_⟩
  · intro a ha b hb k w w' hfa hfb
    exact h.unique a ha b hb k w w' ((hslot a ha k w).mp hfa).2 ((hslot b hb k w').mp hfb).2
  · intro k w
    by_cases hkk : k = key
    · subst hkk
      rw [Function.update_self]
      refine iff_of_false (by simp) ?_
      rintro ⟨i, hi, hfi⟩
      obtain ⟨hne, hT⟩ := (hslot i hi k w).mp hfi
      exact hne (h.unique i hi j hj k w v hT hf)
    · rw [Function.update_of_ne hkk, h.holds k w]
      constructor
      · rintro ⟨i, hi, hfi⟩
        refine ⟨i, hi, (hslot i hi k w).mpr ⟨?_, hfi⟩⟩
        rintro rfl
        rw [hf] at hfi
        cases hfi
        exact hkk rfl
      · rintro ⟨i, hi, hfi⟩
        exact ⟨i, hi, ((hslot i hi k w).mp hfi).2⟩

/-- The lookup of a key of the map ends at its bucket. -/
theorem Represents.lookup (h : Represents n home T M) (hk : M key = some v) :
    ∃ d < n, FirstAt n (fun i => (T i).stops key) (home key) d ∧
      T (pos n (home key) d) = .full key v := by
  obtain ⟨j, hj, hf⟩ := (h.holds key v).mp hk
  obtain ⟨d, hd, hfirst, v', hf'⟩ := h.reaches.lookup hj hf
  have hv := (h.holds key v').mpr ⟨_, pos_lt (by omega) _ _, hf'⟩
  rw [hk] at hv
  cases hv
  exact ⟨d, hd, hfirst, hf'⟩

end Map

end Table

end NyaOS.Library.Probing
