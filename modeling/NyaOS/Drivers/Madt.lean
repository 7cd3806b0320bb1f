import NyaOS.Drivers.Ioapic

/-! The MADT of a machine with one I/O APIC: `ioapic_init` writes three redirection entries, and
the order of the records does not matter. -/
namespace NyaOS.Drivers.Ioapic
open NyaOS.Library.ByteMemory

/-- The source interrupt of an override. -/
def Record.source? : Record → Option Nat
  | .iso irq _ _ => some irq
  | _ => none

/-- The low half of a redirection entry: the vector, bit 13 for active low (polarity bits 11) and
bit 15 for level triggered (trigger bits 11). -/
def lowHalf (vector flags : Nat) : Nat :=
  vector + (if flags % 4 = 3 then 2 ^ 13 else 0) + (if flags / 4 % 4 = 3 then 2 ^ 15 else 0)

/-- The two writes of an entry: the destination in bits 24 to 31 of the high half, then the low
half. -/
def entryWrites (base index vector flags lapicId : Nat) : List RegWrite :=
  [⟨base, 0x10 + 2 * index + 1, lapicId * 2 ^ 24⟩, ⟨base, 0x10 + 2 * index, lowHalf vector flags⟩]

private theorem polarity_iff (flags : Nat) : flags &&& 0x3 = 0x3 ↔ flags % 4 = 3 := by
  rw [show flags &&& 0x3 = flags % 4 from Nat.and_two_pow_sub_one_eq_mod flags 2]

private theorem trigger_iff (flags : Nat) : flags &&& 0xc = 0xc ↔ flags / 4 % 4 = 3 := by
  have hnibble : flags &&& 0xc = flags % 16 &&& 0xc := by
    have hmod : (flags &&& 0xc) % 2 ^ 4 = flags % 2 ^ 4 &&& 0xc % 2 ^ 4 := Nat.and_mod_two_pow
    have hle : flags &&& 0xc ≤ 0xc := Nat.and_le_right
    rwa [Nat.mod_eq_of_lt (by omega)] at hmod
  have htable : ∀ x < 16, x &&& 0xc = 0xc ↔ x / 4 = 3 := by decide
  rw [hnibble, htable _ (Nat.mod_lt _ (by decide))]
  omega

private theorem or_bit {x n : Nat} (h : x < 2 ^ n) : x ||| 1 <<< n = x + 2 ^ n := by
  rw [Nat.or_comm, ← Nat.shiftLeft_add_eq_or_of_lt h, Nat.one_shiftLeft, Nat.add_comm]

/-- A route inside the unit's range writes its entry. -/
theorem ioapicRoute_eq {base gsiBase gsi flags vector lapicId : Nat} (hlo : gsiBase ≤ gsi)
    (hhi : gsi < gsiBase + 120) (hv : vector < 256) (hid : lapicId < 256) :
    ioapicRoute base gsiBase gsi flags vector lapicId =
      entryWrites base (gsi - gsiBase) vector flags lapicId := by
  have hidx : (gsi + 2 ^ 32 - gsiBase) % 2 ^ 32 = gsi - gsiBase := by omega
  have hreg : (0x10 + (gsi - gsiBase) * 2) % 2 ^ 32 % 2 ^ 8 = 0x10 + 2 * (gsi - gsiBase) := by omega
  have hreg1 : ((0x10 + (gsi - gsiBase) * 2) % 2 ^ 32 + 1) % 2 ^ 32 % 2 ^ 8 =
      0x10 + 2 * (gsi - gsiBase) + 1 := by omega
  have hhigh : lapicId <<< 24 % 2 ^ 32 = lapicId * 2 ^ 24 := by
    rw [Nat.shiftLeft_eq]
    omega
  have hlow : (if flags &&& 0xc = 0xc then
        (if flags &&& 0x3 = 0x3 then vector ||| 1 <<< 13 else vector) ||| 1 <<< 15
      else if flags &&& 0x3 = 0x3 then vector ||| 1 <<< 13 else vector) = lowHalf vector flags := by
    have hpol : (if flags &&& 0x3 = 0x3 then vector ||| 1 <<< 13 else vector) =
        vector + (if flags % 4 = 3 then 2 ^ 13 else 0) := by
      simp only [polarity_iff, or_bit (show vector < 2 ^ 13 by omega)]
      split <;> rfl
    rw [hpol, or_bit (by split <;> omega)]
    simp only [trigger_iff, lowHalf]
    split <;> rfl
  simp only [ioapicRoute, writeIoapic, hidx, hreg, hreg1, hhigh, hlow, entryWrites]

/-- Whatever only the overrides of `irq` have is there at most as often as such overrides are. -/
private theorem length_le_count {f : Record → Option Nat} {irq : Nat}
    (hf : ∀ r x, f r = some x → r.source? = some irq) (rs : List Record) :
    (rs.filterMap f).length ≤ (rs.filterMap Record.source?).count irq := by
  induction rs with
  | nil => simp
  | cons r rs ih =>
    cases hr : f r with
    | none =>
      rw [List.filterMap_cons_none hr]
      refine Nat.le_trans ih ?_
      cases hs : r.source? with
      | none =>
        simp only [List.filterMap_cons_none hs, Nat.le_refl]
      | some x =>
        rw [List.filterMap_cons_some hs]
        exact List.count_le_count_cons
    | some x =>
      rw [List.filterMap_cons_some hr, List.filterMap_cons_some (hf r x hr), List.length_cons,
        List.count_cons_self]
      exact Nat.succ_le_succ ih

private theorem source_of_gsi {r : Record} {irq x : Nat} (h : r.gsi? irq = some x) :
    r.source? = some irq := by
  cases r with
  | ioapic u => cases h
  | other kind len => cases h
  | iso src gsi flags =>
    by_cases hs : src = irq
    · rw [hs, Record.source?]
    · simp [Record.gsi?, hs] at h

private theorem source_of_flags {r : Record} {irq x : Nat} (h : r.flags? irq = some x) :
    r.source? = some irq := by
  cases r with
  | ioapic u => cases h
  | other kind len => cases h
  | iso src gsi flags =>
    by_cases hs : src = irq
    · rw [hs, Record.source?]
    · simp [Record.flags?, hs] at h

private theorem perm_eq_of_length_le_one {l l' : List Nat} (h : l.Perm l') (hl : l.length ≤ 1) :
    l = l' := by
  match l, hl with
  | [], _ => exact h.nil_eq
  | [a], _ => exact h.singleton_eq

/-- The overrides do not depend on the order of the records. -/
theorem overrides_perm {rs rs' : List Record} (h : (rs.filterMap Record.source?).Nodup)
    (hperm : rs.Perm rs') (irq : Nat) :
    gsiOf rs' irq = gsiOf rs irq ∧ flagsOf rs' irq = flagsOf rs irq := by
  have hone := List.nodup_iff_count_le_one.mp h irq
  have hg := Nat.le_trans (length_le_count (fun _ _ => source_of_gsi) rs) hone
  have hf := Nat.le_trans (length_le_count (fun _ _ => source_of_flags) rs) hone
  constructor
  · rw [gsiOf, gsiOf, perm_eq_of_length_le_one (hperm.filterMap (Record.gsi? irq)) hg]
  · rw [flagsOf, flagsOf, perm_eq_of_length_le_one (hperm.filterMap (Record.flags? irq)) hf]

section
variable {fw : Firmware} {m : Mem} {madt : Nat} {rs : List (Record × Nat)} {u : Apic}

/-- With one I/O APIC the walk is exact: `ioapic_init` writes the redirection entries of the three
interrupts in its range and no other register, and any table with the same records in another
order leads to the same writes. -/
theorem single_ioapic_exact (hfind : findTable fw m apicSignature = some madt)
    (hrs : Concat m (madt + load m (madt + 4) 4) (madt + madtSize) rs)
    (hone : units (rs.map Prod.fst) = [u]) (haddr : u.addr ≠ 0)
    (hover : ((rs.map Prod.fst).filterMap Record.source?).Nodup)
    (hrange : ∀ r ∈ routes, u.gsiBase ≤ gsiOf (rs.map Prod.fst) r.1 ∧
      gsiOf (rs.map Prod.fst) r.1 < u.gsiBase + 120) (lapicReg : Nat) :
    ioapicInit fw m lapicReg = (routes.flatMap fun r =>
      entryWrites (u.base fw) (gsiOf (rs.map Prod.fst) r.1 - u.gsiBase) r.2
        (flagsOf (rs.map Prod.fst) r.1) (lapicReg / 2 ^ 24 % 256)) ∧
    ∀ m' madt' rs', findTable fw m' apicSignature = some madt' →
      Concat m' (madt' + load m' (madt' + 4) 4) (madt' + madtSize) rs' → rs.Perm rs' →
      ioapicInit fw m' lapicReg = ioapicInit fw m lapicReg := by
  have hlast : (units (rs.map Prod.fst)).getLast? = some u := by rw [hone]; rfl
  have hid : lapicReg >>> 24 % 2 ^ 8 = lapicReg / 2 ^ 24 % 256 :=
    congrArg (· % 256) (Nat.shiftRight_eq_div_pow lapicReg 24)
  have hwrites := init_writes lapicReg hfind hrs hlast haddr
  refine ⟨?_, fun m' madt' rs' hfind' hrs' hperm => ?_⟩
  · rw [hwrites, hid]
    refine List.flatMap_congr fun r hr => ?_
    have hv : r.2 < 256 := by
      revert r
      decide
    exact ioapicRoute_eq (hrange r hr).1 (hrange r hr).2 hv (Nat.mod_lt _ (by decide))
  · have hfst : (rs.map Prod.fst).Perm (rs'.map Prod.fst) := hperm.map Prod.fst
    have hunits : units (rs'.map Prod.fst) = [u] := by
      have hp : (units (rs.map Prod.fst)).Perm (units (rs'.map Prod.fst)) := hfst.filterMap _
      rw [hone] at hp
      exact hp.singleton_eq.symm
    have hwrites' := init_writes lapicReg hfind' hrs' (by rw [hunits]; rfl) haddr
    rw [hwrites, hwrites']
    refine List.flatMap_congr fun r _ => ?_
    rw [(overrides_perm hover hfst r.1).1, (overrides_perm hover hfst r.1).2]

end

/-- A local APIC, the I/O APIC and an override of interrupt 4 to line 9, active low and level
triggered, whose record is two bytes longer than its fields. -/
def overrideRecords : List (Record × Nat) :=
  [(.other 0 8, 8), (.ioapic firstApic, 12), (.iso 4 9 0xf, 12)]

def overrideApic : Mem :=
  acpiMem 76 ([0, 8, 0, 0, 1, 0, 0, 0] ++ firstBytes ++ [2, 12, 0, 4, 9, 0, 0, 0, 0xf, 0, 0, 0])

theorem overrideApic_concat :
    Concat overrideApic (acpiMadt + load overrideApic (acpiMadt + 4) 4) (acpiMadt + madtSize)
      overrideRecords := by
  refine ⟨⟨by decide +kernel, by decide +kernel, by decide, rfl, by decide, by decide⟩,
    ⟨by decide +kernel, by decide +kernel, by decide, by decide +kernel, by decide +kernel⟩,
    ⟨by decide +kernel, by decide +kernel, by decide, by decide +kernel, by decide +kernel,
      by decide +kernel⟩, ?_⟩
  unfold Concat
  decide +kernel

theorem single_ioapic_exact_override :
    ioapicInit acpiFirmware overrideApic 0x01000000 =
      [⟨firstApic.base acpiFirmware, 0x13, 0x01000000⟩, ⟨firstApic.base acpiFirmware, 0x12, 0x21⟩,
        ⟨firstApic.base acpiFirmware, 0x17, 0x01000000⟩, ⟨firstApic.base acpiFirmware, 0x16, 0x22⟩,
        ⟨firstApic.base acpiFirmware, 0x23, 0x01000000⟩,
        ⟨firstApic.base acpiFirmware, 0x22, 0xa023⟩] :=
  (single_ioapic_exact (by decide +kernel) overrideApic_concat rfl (by decide) (by decide)
    (by decide) 0x01000000).1.trans (by decide)

end NyaOS.Drivers.Ioapic
