import NyaOS.Slab.HashRuns

/-! `kfree`, which is not told the cache and asks the hash tables of `caches` for it. -/
namespace NyaOS.Slab
open Library.ByteMemory Library.Probing

namespace KmemSlab
abbrev back : Nat := 16
end KmemSlab

/-- The loop of `kfree`: the first bufctl that a table has for the pointer, or null. -/
def findBufctl (st : Statics) (ptr : Nat) : List Nat → Kernel Nat
  | [] => pure 0
  | idx :: rest => do
    let bufctl ← htGet (← read st.caches (8 * idx)) ptr
    if bufctl ≠ 0 then pure bufctl else findBufctl st ptr rest

/-- The tables of `caches` as maps from buffers to bufctls; in each a lookup comes to an end. -/
structure CacheTables (st : Statics) (w : World) (M : Nat → Nat → Option Nat) : Prop where
  caches_ne : st.caches ≠ 0
  table : ∀ i < initialSlabCnt, ∃ p, TableInv (load w.mem (st.caches + 8 * i) 8) p ⟨w, M i⟩ ∧
    ∃ j < htBuckets, tableAt w.mem p j = .empty

/-- The bufctl of the first table that has one. -/
def firstEntry (M : Nat → Nat → Option Nat) (ptr : Nat) (tables : List Nat) : Option Nat :=
  tables.findSome? fun i => (M i ptr).filter (· ≠ 0)

section Tables
variable {st : Statics} {w : World} {M : Nat → Nat → Option Nat}

theorem CacheTables.lookup (h : CacheTables st w M) (ptr : Nat) {i : Nat} (hi : i < initialSlabCnt) :
    htGet (load w.mem (st.caches + 8 * i) 8) ptr w = some ((M i ptr).getD 0, w) := by
  obtain ⟨p, hinv, j, hj, hempty⟩ := h.table i hi
  cases hM : M i ptr with
  | none => exact hinv.get_absent hM hj hempty
  | some bufctl => exact hinv.get hM

theorem CacheTables.findBufctl (h : CacheTables st w M) (ptr : Nat) (tables : List Nat)
    (hlt : ∀ i ∈ tables, i < initialSlabCnt) :
    findBufctl st ptr tables w = some ((firstEntry M ptr tables).getD 0, w) := by
  induction tables with
  | nil => rfl
  | cons i rest ih =>
    have hlookup := h.lookup ptr (hlt i List.mem_cons_self)
    rw [Slab.findBufctl, bind_run (read_run h.caches_ne), bind_run hlookup, ite_run, firstEntry, List.findSome?_cons]
    rw [ih fun j hj => hlt j (List.mem_cons_of_mem i hj)]
    cases M i ptr with
    | none => rfl
    | some bufctl =>
      by_cases hnull : bufctl = 0
      · subst hnull
        rfl
      · have hfilter : (some bufctl).filter (· ≠ 0) = some bufctl := Option.filter_some_pos (decide_eq_true hnull)
        rw [Option.getD_some, if_pos hnull, hfilter]
        rfl

end Tables

/-! Twelve pointers to one new table. -/

end NyaOS.Slab
