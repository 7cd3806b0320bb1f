import NyaOS.Drivers.Ioapic
import NyaOS.Strings.Compare

/-! `find_table`: which of the firmware's tables it returns, and which bytes it looks at on the way. -/
namespace NyaOS.Drivers.Ioapic
open NyaOS.Library.ByteMemory
open NyaOS.Strings (strncmp)

/-- The XSDT or the RSDT, with the width of its pointers. -/
structure RootTable where
  address : Nat
  width : Nat

def rootTable (fw : Firmware) (m : Mem) : RootTable :=
  if 2 ≤ load m (fw.rsdp + 15) 1 ∧ load m (fw.rsdp + 24) 8 ≠ 0 then
    ⟨(load m (fw.rsdp + 24) 8 + fw.offset) % 2 ^ 64, 8⟩
  else ⟨(load m (fw.rsdp + 16) 4 + fw.offset) % 2 ^ 64, 4⟩

def RootTable.length (t : RootTable) (m : Mem) : Nat := load m (t.address + 4) 4

/-- How many pointers it holds by its length; a table shorter than its header holds none. -/
def RootTable.entries (t : RootTable) (m : Mem) : Nat := (t.length m - 36) / t.width

def RootTable.pointer (t : RootTable) (i : Nat) : Nat := t.address + 36 + t.width * i

/-- The table that a pointer leads to. -/
def RootTable.table (t : RootTable) (m : Mem) (offset i : Nat) : Nat :=
  (load m (t.pointer i) t.width + offset) % 2 ^ 64

def RootTable.tables (t : RootTable) (m : Mem) (offset : Nat) : List Nat :=
  (List.range (t.entries m)).map (t.table m offset)

def charsAt (m : Mem) (a n : Nat) : List (BitVec 8) := (List.range' a n).map m

/-- `!strncmp(h->signature, signature, 4)` -/
def hasSignature (m : Mem) (signature : List (BitVec 8)) (h : Nat) : Bool :=
  strncmp (charsAt m h 4) signature 4 = some 0

/-- The bytes of the RSDP that `find_table` looks at: as many as its revision has. -/
def RsdpByte (fw : Firmware) (m : Mem) (x : Nat) : Prop :=
  fw.rsdp + 15 ≤ x ∧ x < fw.rsdp + if 2 ≤ load m (fw.rsdp + 15) 1 then 32 else 20

/-- The bytes of the root table and of the listed ones that it looks at: the length, and up to the table found the
pointers and the signatures behind them. -/
def RootTable.TableByte (t : RootTable) (m : Mem) (offset : Nat) (signature : List (BitVec 8)) (x : Nat) : Prop :=
  (t.address + 4 ≤ x ∧ x < t.address + 8) ∨
  ∃ i < t.entries m, i ≤ (t.tables m offset).findIdx (hasSignature m signature) ∧
    (t.pointer i ≤ x ∧ x < t.pointer i + t.width ∨ t.table m offset i ≤ x ∧ x < t.table m offset i + 4)

theorem entryCount_eq {length size : Nat} (hl : length < 2 ^ 32) (hs : size = 8 ∨ size = 4) :
    entryCount length size = (length - 36) / size := by
  unfold entryCount
  rcases hs with rfl | rfl
  · dsimp only
    split <;> omega
  · dsimp only
    split <;> omega

/-- The comparison of the model is the one of `strncmp`. -/
theorem sameChars_eq (m : Mem) (a : Nat) (signature : List (BitVec 8)) :
    sameChars m a signature =
      decide (strncmp (charsAt m a signature.length) signature signature.length = some 0) := by
  induction signature generalizing a with
  | nil => rfl
  | cons c cs ih =>
    rw [sameChars, ih]
    change _ = decide (strncmp (m a :: charsAt m (a + 1) cs.length) (c :: cs) (cs.length + 1) = some 0)
    rw [strncmp]
    by_cases hc : m a = c
    · by_cases h0 : c = 0
      · simp [hc, h0]
      · have hbeq : (c == 0) = false := beq_eq_false_iff_ne.mpr h0
        rw [if_neg (not_not.mpr hc), hc, if_neg h0, hbeq, BEq.rfl, Bool.true_and, Bool.false_or]
    · have hne : (m a).toInt - c.toInt ≠ 0 := fun h => hc (BitVec.eq_of_toInt_eq (Int.sub_eq_zero.mp h))
      simp [hc, hne]

/-- The loop of `find_table` is a search in the list of pointers. -/
theorem scanTables_eq (m : Mem) (offset : Nat) (signature : List (BitVec 8)) (width n a : Nat) :
    scanTables m offset signature width n a = ((List.range n).map fun i =>
      (load m (a + width * i) width + offset) % 2 ^ 64).find? fun h => sameChars m h signature := by
  induction n generalizing a with
  | zero => rfl
  | succ n ih =>
    have hshift : ∀ i, a + width * (i + 1) = a + width + width * i := by
      intro i
      rw [Nat.mul_succ]
      omega
    rw [scanTables, ih, List.range_succ_eq_map, List.map_cons, List.find?_cons, List.map_map]
    simp only [Function.comp_def, Nat.succ_eq_add_one, hshift, Nat.mul_zero, Nat.add_zero]
    cases sameChars m ((load m a width + offset) % 2 ^ 64) signature <;> rfl

theorem rootTable_width (fw : Firmware) (m : Mem) :
    (rootTable fw m).width = 8 ∨ (rootTable fw m).width = 4 := by
  unfold rootTable
  split
  · exact .inl rfl
  · exact .inr rfl

/-- `find_table` on either root table. -/
theorem findTable_scan (fw : Firmware) (m : Mem) (signature : List (BitVec 8)) :
    findTable fw m signature = scanTables m fw.offset signature (rootTable fw m).width
      ((rootTable fw m).entries m) ((rootTable fw m).address + 36) := by
  have hlen : ∀ a, load m a 4 < 2 ^ 32 := fun a => load_lt m a 4
  unfold findTable rootTable RootTable.entries RootTable.length
  split
  · dsimp only
    rw [entryCount_eq (hlen _) (.inl rfl)]
  · dsimp only
    rw [entryCount_eq (hlen _) (.inr rfl)]

theorem findTable_eq (fw : Firmware) (m : Mem) {signature : List (BitVec 8)} (h : signature.length = 4) :
    findTable fw m signature =
      ((rootTable fw m).tables m fw.offset).find? (hasSignature m signature) := by
  rw [findTable_scan, scanTables_eq]
  simp only [sameChars_eq, h]
  rfl

/-- Searches that agree up to the first hit. -/
theorem find?_congr_until {α : Type} {p q : α → Bool} {l l' : List α} (hlen : l'.length = l.length)
    (h : ∀ i a, l[i]? = some a → i ≤ l.findIdx p → l'[i]? = some a ∧ q a = p a) : l'.find? q = l.find? p := by
  induction l generalizing l' with
  | nil => rw [List.eq_nil_of_length_eq_zero hlen]; rfl
  | cons a l ih =>
    cases l' with
    | nil => cases hlen
    | cons b l' =>
      obtain ⟨hb, hp⟩ := h 0 a rfl (Nat.zero_le _)
      cases hb
      rw [List.find?_cons, List.find?_cons, hp]
      cases hpa : p a with
      | true => rfl
      | false =>
        refine ih (Nat.succ.inj hlen) fun i c hc hi => ?_
        refine h (i + 1) c hc ?_
        rw [List.findIdx_cons, hpa]
        exact Nat.succ_le_succ hi

section Congr
variable {fw : Firmware} {m m' : Mem} {signature : List (BitVec 8)}

theorem rootTable_congr (h : ∀ x, RsdpByte fw m x → m' x = m x) : rootTable fw m' = rootTable fw m := by
  have hfield : ∀ a n, fw.rsdp + 15 ≤ a → a + n ≤ fw.rsdp + (if 2 ≤ load m (fw.rsdp + 15) 1 then 32 else 20) →
      load m' a n = load m a n :=
    fun a n hlo hhi => load_congr fun x hx hx' => h x ⟨by omega, by omega⟩
  have hrev : load m' (fw.rsdp + 15) 1 = load m (fw.rsdp + 15) 1 := hfield _ _ (by omega) (by split <;> omega)
  have hrsdt : load m' (fw.rsdp + 16) 4 = load m (fw.rsdp + 16) 4 := hfield _ _ (by omega) (by split <;> omega)
  unfold rootTable
  rw [hrev, hrsdt]
  by_cases h2 : 2 ≤ load m (fw.rsdp + 15) 1
  · have hxsdt : load m' (fw.rsdp + 24) 8 = load m (fw.rsdp + 24) 8 :=
      hfield _ _ (by omega) (by split <;> omega)
    rw [hxsdt]
  · rw [if_neg fun hand => h2 hand.1, if_neg fun hand => h2 hand.1]

theorem hasSignature_congr {a : Nat} (h : ∀ x, a ≤ x → x < a + 4 → m' x = m x) :
    hasSignature m' signature a = hasSignature m signature a := by
  have hchars : charsAt m' a 4 = charsAt m a 4 :=
    List.map_congr_left fun x hx => by
      rw [List.mem_range'_1] at hx
      exact h x hx.1 hx.2
  rw [hasSignature, hasSignature, hchars]

/-- The search in memories that agree on the bytes looked at. -/
theorem RootTable.find?_congr (t : RootTable) (offset : Nat)
    (h : ∀ x, t.TableByte m offset signature x → m' x = m x) :
    (t.tables m' offset).find? (hasSignature m' signature) = (t.tables m offset).find? (hasSignature m signature) := by
  have hentries : t.entries m' = t.entries m := by
    have hlength : t.length m' = t.length m := load_congr fun x hlo hhi => h x (.inl ⟨hlo, by omega⟩)
    rw [RootTable.entries, RootTable.entries, hlength]
  have htables : t.tables m' offset = (List.range (t.entries m)).map (t.table m' offset) := by
    rw [RootTable.tables, hentries]
  refine find?_congr_until ?_ fun i a ha hi => ?_
  · rw [htables, RootTable.tables, List.length_map, List.length_map]
  · rw [RootTable.tables, List.getElem?_map] at ha
    obtain ⟨j, hj, rfl⟩ := Option.map_eq_some_iff.mp ha
    obtain ⟨hlt, rfl⟩ := List.getElem?_eq_some_iff.mp hj
    rw [List.getElem_range] at hj ⊢
    rw [List.length_range] at hlt
    have hpointer : t.table m' offset i = t.table m offset i := by
      rw [RootTable.table, RootTable.table,
        load_congr fun x hlo hhi => h x (.inr ⟨i, hlt, hi, .inl ⟨hlo, hhi⟩⟩)]
    refine ⟨?_, hasSignature_congr fun x hlo hhi => h x (.inr ⟨i, hlt, hi, .inr ⟨hlo, hhi⟩⟩)⟩
    rw [htables, List.getElem?_map, hj, Option.map_some, hpointer]

end Congr

/-- `find_table`, for any memory and any signature of four characters, returns the first table among those the
root table lists whose signature is equal for `strncmp`, and `NULL` if there is none. The root table is the XSDT
from revision 2 on if there is one, else the RSDT, and the pointers read lie inside it, none if it is shorter than
its header. What is found depends on no byte but those looked at up to there. -/
theorem findTable_first (fw : Firmware) (m : Mem) {signature : List (BitVec 8)} (hs : signature.length = 4) :
    findTable fw m signature = ((rootTable fw m).tables m fw.offset).find? (hasSignature m signature) ∧
    (∀ i < (rootTable fw m).entries m, (rootTable fw m).pointer i + (rootTable fw m).width ≤
      (rootTable fw m).address + (rootTable fw m).length m) ∧
    ∀ m' : Mem, (∀ x, RsdpByte fw m x → m' x = m x) →
      (∀ x, (rootTable fw m).TableByte m fw.offset signature x → m' x = m x) →
      findTable fw m' signature = findTable fw m signature := by
  refine ⟨findTable_eq fw m hs, fun i hi => ?_, fun m' hrsdp htables => ?_⟩
  · unfold RootTable.entries at hi
    rw [RootTable.pointer]
    rcases rootTable_width fw m with hw | hw
    · rw [hw] at hi ⊢
      omega
    · rw [hw] at hi ⊢
      omega
  · rw [findTable_eq fw m' hs, findTable_eq fw m hs, rootTable_congr hrsdp]
    exact RootTable.find?_congr _ _ htables

theorem findTable_first_apic : ((rootTable acpiFirmware oneApic).tables oneApic acpiFirmware.offset).find?
    (hasSignature oneApic apicSignature) = findTable acpiFirmware oneApic apicSignature ∧
    (findTable acpiFirmware oneApic apicSignature).isSome = true :=
  ⟨(findTable_first acpiFirmware oneApic rfl).1.symm, by decide +kernel⟩

end NyaOS.Drivers.Ioapic
