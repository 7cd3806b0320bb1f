import NyaOS.Drivers.Ioapic

/-! Which bytes the walk over the MADT reads. The loop tests where a record starts, and the fields
it then reads are those of the record's type, whatever length the record has. -/
namespace NyaOS.Drivers.Ioapic
open NyaOS.Library.ByteMemory

/-- The bytes of a field. -/
def bytes (a n : Nat) : List Nat := List.range' a n

/-- What the switch on the record at `p` reads. -/
def entryReads (m : Mem) (p : Nat) : List Nat :=
  match load m p 1 with
  | 1 => bytes p 1 ++ bytes (p + 4) 4 ++ bytes (p + 8) 4
  | 2 => bytes p 1 ++ bytes (p + 3) 1 ++
      if load m (p + 3) 1 < isaIrqCount then bytes (p + 4) 4 ++ bytes (p + 8) 2 else []
  | _ => bytes p 1

/-- One turn of the loop: the length first, since 0 ends it, and again to move on. -/
def recordReads (m : Mem) (p : Nat) : List Nat :=
  bytes (p + 1) 1 ++ if load m (p + 1) 1 = 0 then [] else entryReads m p ++ bytes (p + 1) 1

/-- The addresses the loop reads from `p` on, in order; a loop that takes more than `fuel` turns
has no result. -/
def walkReads (m : Mem) (stop : Nat) : Nat → Nat → Option (List Nat)
  | 0, p => if p < stop then none else some []
  | fuel + 1, p =>
    if p < stop then
      if load m (p + 1) 1 = 0 then some (recordReads m p)
      else (walkReads m stop fuel (p + load m (p + 1) 1)).map (recordReads m p ++ ·)
    else some []

/-- The loop ends, and it reads nothing outside the table. -/
def WalkSafe (m : Mem) (madt : Nat) : Prop :=
  ∃ fuel reads, walkReads m (madt + load m (madt + 4) 4) fuel (madt + madtSize) = some reads ∧
    ∀ a ∈ reads, madt ≤ a ∧ a < madt + load m (madt + 4) 4

/-- From the record at `p` the lengths lead to a record at `q`, before `stop`. -/
inductive LeadsTo (m : Mem) (stop : Nat) : Nat → Nat → Prop
  | here {p : Nat} (h : p < stop) : LeadsTo m stop p p
  | next {p q : Nat} (h : p < stop) (hlen : load m (p + 1) 1 ≠ 0)
      (hq : LeadsTo m stop (p + load m (p + 1) 1) q) : LeadsTo m stop p q

/-- The bytes a record needs for what is read of it. -/
def recordNeed (m : Mem) (p : Nat) : Nat :=
  if load m (p + 1) 1 = 0 then 2
  else
    match load m p 1 with
    | 1 => 12
    | 2 => if load m (p + 3) 1 < isaIrqCount then 10 else 4
    | _ => 2

section
variable {m m' : Mem} {stop fuel p : Nat} {reads : List Nat}

@[simp] theorem mem_bytes {a n x : Nat} : x ∈ bytes a n ↔ a ≤ x ∧ x < a + n := by
  rw [bytes, List.mem_range'_1]

/-- What is read of a record lies in the bytes it needs, and the last of these is read. -/
theorem recordReads_extent (m : Mem) (p : Nat) : p + recordNeed m p - 1 ∈ recordReads m p ∧
    ∀ a ∈ recordReads m p, p ≤ a ∧ a < p + recordNeed m p := by
  unfold recordReads recordNeed entryReads
  by_cases hlen : load m (p + 1) 1 = 0
  · simp only [hlen, if_true, List.append_nil, mem_bytes]
    exact ⟨by omega, fun a ha => by omega⟩
  · simp only [hlen, if_false]
    split
    · simp only [List.mem_append, mem_bytes]
      exact ⟨by omega, fun a ha => by omega⟩
    · split
      · simp only [List.mem_append, mem_bytes]
        exact ⟨by omega, fun a ha => by omega⟩
      · simp only [List.append_nil, List.mem_append, mem_bytes]
        exact ⟨by omega, fun a ha => by omega⟩
    · simp only [List.mem_append, mem_bytes]
      exact ⟨by omega, fun a ha => by omega⟩

/-- Everything read of a record is before `stop` exactly when what it needs fits. -/
theorem recordReads_lt_iff :
    (∀ a ∈ recordReads m p, a < stop) ↔ p + recordNeed m p ≤ stop := by
  obtain ⟨hlast, hall⟩ := recordReads_extent m p
  constructor
  · intro hin
    have := hin _ hlast
    omega
  · intro hfit a ha
    have := hall a ha
    omega

/-- Each turn moves `p` on, so the bytes left bound the turns. -/
theorem walkReads_ends (m : Mem) (h : stop - p ≤ fuel) :
    ∃ reads, walkReads m stop fuel p = some reads := by
  induction fuel generalizing p with
  | zero => exact ⟨[], if_neg (by omega)⟩
  | succ fuel ih =>
    rw [walkReads]
    split
    · split
      · exact ⟨_, rfl⟩
      · obtain ⟨reads, he⟩ := ih (p := p + load m (p + 1) 1) (by omega)
        exact ⟨_, by rw [he, Option.map_some]⟩
    · exact ⟨[], rfl⟩

/-- What the loop reads is what it reads of the records it comes to. -/
theorem mem_walkReads (h : walkReads m stop fuel p = some reads) (a : Nat) :
    a ∈ reads ↔ ∃ q, LeadsTo m stop p q ∧ a ∈ recordReads m q := by
  induction fuel generalizing p reads with
  | zero =>
    rw [walkReads] at h
    split at h
    · cases h
    · rename_i hp
      cases h
      refine iff_of_false (by simp) ?_
      rintro ⟨q, hq, -⟩
      cases hq <;> contradiction
  | succ fuel ih =>
    rw [walkReads] at h
    split at h
    · rename_i hp
      split at h
      · rename_i hlen
        cases h
        constructor
        · exact fun ha => ⟨p, .here hp, ha⟩
        · rintro ⟨q, hq, ha⟩
          cases hq with
          | here _ => exact ha
          | next _ hne _ => exact (hne hlen).elim
      · rename_i hlen
        obtain ⟨rest, he, rfl⟩ := Option.map_eq_some_iff.mp h
        rw [List.mem_append, ih he]
        constructor
        · rintro (ha | ⟨q, hq, ha⟩)
          · exact ⟨p, .here hp, ha⟩
          · exact ⟨q, .next hp hlen hq, ha⟩
        · rintro ⟨q, hq, ha⟩
          cases hq with
          | here _ => exact .inl ha
          | next _ _ hq => exact .inr ⟨q, hq, ha⟩
    · rename_i hp
      cases h
      refine iff_of_false (by simp) ?_
      rintro ⟨q, hq, -⟩
      cases hq <;> contradiction

private theorem scanEntry_congr (hsame : ∀ a ∈ entryReads m p, m' a = m a) (s : Scan) :
    scanEntry m' p s = scanEntry m p s := by
  have hfield : ∀ a n, (∀ x, a ≤ x → x < a + n → x ∈ entryReads m p) → load m' a n = load m a n :=
    fun a n hin => load_congr fun x hlo hhi => hsame x (hin x hlo hhi)
  have hkind : load m' p 1 = load m p 1 := by
    apply hfield
    intro x hlo hhi
    unfold entryReads
    split <;> simp only [List.mem_append, mem_bytes] <;> omega
  unfold scanEntry
  rw [hkind]
  split
  · rename_i hk
    rw [hfield (p + 4) 4, hfield (p + 8) 4]
    all_goals
      intro x hlo hhi
      simp only [entryReads, hk, List.mem_append, mem_bytes]
      omega
  · rename_i hk
    rw [hfield (p + 3) 1]
    · dsimp only
      split
      · rename_i hirq
        rw [hfield (p + 4) 4, hfield (p + 8) 2]
        all_goals
          intro x hlo hhi
          simp only [entryReads, hk, hirq, if_true, List.mem_append, mem_bytes]
          omega
      · rfl
    · intro x hlo hhi
      simp only [entryReads, hk, List.mem_append, mem_bytes]
      omega
  · rfl

/-- The log is complete: memory that agrees on these bytes gives the same walk. -/
theorem walk_congr (h : walkReads m stop fuel p = some reads) (hsame : ∀ a ∈ reads, m' a = m a)
    (s : Scan) : walk m' stop fuel p s = walk m stop fuel p s := by
  induction fuel generalizing p reads s with
  | zero => rfl
  | succ fuel ih =>
    rw [walkReads] at h
    rw [walk, walk]
    split at h
    · rename_i hp
      rw [if_pos hp, if_pos hp]
      have hlen : load m' (p + 1) 1 = load m (p + 1) 1 := by
        refine load_congr fun x hlo hhi => hsame x ?_
        have hx : x ∈ recordReads m p := List.mem_append_left _ (mem_bytes.mpr ⟨hlo, hhi⟩)
        split at h
        · cases h
          exact hx
        · obtain ⟨rest, -, rfl⟩ := Option.map_eq_some_iff.mp h
          exact List.mem_append_left _ hx
      simp only [hlen]
      split at h
      · rename_i hzero
        rw [if_pos hzero, if_pos hzero]
      · rename_i hzero
        obtain ⟨rest, he, rfl⟩ := Option.map_eq_some_iff.mp h
        have hentry : ∀ a ∈ entryReads m p, m' a = m a := by
          intro a ha
          apply hsame a
          rw [recordReads, if_neg hzero]
          simp only [List.mem_append]
          exact .inl (.inr (.inl ha))
        rw [if_neg hzero, if_neg hzero, scanEntry_congr hentry,
          ih he fun a ha => hsame a (List.mem_append_right _ ha)]
    · rename_i hp
      rw [if_neg hp, if_neg hp]

theorem LeadsTo.bounds {q : Nat} (h : LeadsTo m stop p q) : p ≤ q ∧ q < stop := by
  induction h with
  | here h => exact ⟨Nat.le_refl _, h⟩
  | next _ _ _ ih => exact ⟨by omega, ih.2⟩

end

/-- The walk over a MADT of any length and content ends, and it stays inside the table exactly
when the table has, from each record the lengths lead to, the bytes that are read of it. -/
theorem walkSafe_iff (m : Mem) (madt : Nat) :
    WalkSafe m madt ↔ ∀ p, LeadsTo m (madt + load m (madt + 4) 4) (madt + madtSize) p →
      p + recordNeed m p ≤ madt + load m (madt + 4) 4 := by
  constructor
  · rintro ⟨fuel, reads, he, hin⟩ p hp
    refine recordReads_lt_iff.mp fun a ha => ?_
    exact (hin a ((mem_walkReads he a).mpr ⟨p, hp, ha⟩)).2
  · intro h
    obtain ⟨reads, he⟩ := walkReads_ends (p := madt + madtSize) m (Nat.le_refl _)
    refine ⟨_, reads, he, fun a ha => ?_⟩
    obtain ⟨p, hp, ha⟩ := (mem_walkReads he a).mp ha
    have hle := ((recordReads_extent m p).2 a ha).1
    have hlo := hp.bounds.1
    exact ⟨by omega, recordReads_lt_iff.mpr (h p hp) a ha⟩

/-- A table that ends with the first byte of a record, type 1: the byte behind it is read. -/
theorem truncated_unsafe : load (acpiMem 45 [1]) (acpiMadt + 4) 4 = 45 ∧
    walkReads (acpiMem 45 [1]) (acpiMadt + 45) 1 (acpiMadt + madtSize) = some [acpiMadt + 45] ∧
    ¬ WalkSafe (acpiMem 45 [1]) acpiMadt := by
  have hlen : load (acpiMem 45 [1]) (acpiMadt + 4) 4 = 45 := by decide +kernel
  refine ⟨hlen, by decide +kernel, ?_⟩
  rintro ⟨fuel, reads, he, hin⟩
  rw [hlen] at he hin
  have hread : acpiMadt + 45 ∈ reads := by
    refine (mem_walkReads he _).mpr ⟨acpiMadt + madtSize, .here (by decide), ?_⟩
    decide +kernel
  exact absurd (hin _ hread).2 (Nat.lt_irrefl _)

end NyaOS.Drivers.Ioapic
