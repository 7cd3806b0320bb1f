import NyaOS.Library.ByteMemory
import Mathlib.Logic.Function.Basic
import Mathlib.Data.List.Nodup

/-! Routing of the ISA interrupts: the MADT is walked once for an I/O APIC and the
interrupt source overrides, then three redirection entries are written. -/
namespace NyaOS.Drivers.Ioapic
open NyaOS.Library.ByteMemory

/-- What the boot loader hands over: the RSDP and the direct map's offset. -/
structure Firmware where
  rsdp : Nat
  offset : Nat

/-- A write of `val` to the register that `IOREGSEL` selects in the window at `base`. -/
structure RegWrite where
  base : Nat
  offset : Nat
  val : Nat
deriving DecidableEq

/-- Both stores of `write_ioapic`: the 8-bit offset goes to the select register, the value
to the data window. -/
def writeIoapic (base offset val : Nat) : RegWrite := ⟨base, offset % 2 ^ 8, val⟩

/-- `strncmp(s1, s2, n) == 0` for the bytes at `a` and the given signature. -/
def sameChars (m : Mem) : Nat → List (BitVec 8) → Bool
  | _, [] => true
  | a, c :: cs => m a == c && (c == 0 || sameChars m (a + 1) cs)

/-- The loop over table pointers of `width` bytes each. -/
def scanTables (m : Mem) (offset : Nat) (signature : List (BitVec 8)) (width : Nat) :
    Nat → Nat → Option Nat
  | 0, _ => none
  | n + 1, a =>
    let h := (load m a width + offset) % 2 ^ 64
    if sameChars m h signature then some h else scanTables m offset signature width n (a + width)

/-- `int entries`, computed in `size_t`; a negative count runs the loop not at all. -/
def entryCount (length size : Nat) : Nat :=
  let entries := (length + 2 ^ 64 - 36) % 2 ^ 64 / size % 2 ^ 32
  if entries < 2 ^ 31 then entries else 0

def findTable (fw : Firmware) (m : Mem) (signature : List (BitVec 8)) : Option Nat :=
  if 2 ≤ load m (fw.rsdp + 15) 1 ∧ load m (fw.rsdp + 24) 8 ≠ 0 then
    let xsdt := (load m (fw.rsdp + 24) 8 + fw.offset) % 2 ^ 64
    scanTables m fw.offset signature 8 (entryCount (load m (xsdt + 4) 4) 8) (xsdt + 36)
  else
    let rsdt := (load m (fw.rsdp + 16) 4 + fw.offset) % 2 ^ 64
    scanTables m fw.offset signature 4 (entryCount (load m (rsdt + 4) 4) 4) (rsdt + 36)

def ioapicRoute (base gsiBase gsi isoFlags vector lapicId : Nat) : List RegWrite :=
  let index := (gsi + 2 ^ 32 - gsiBase) % 2 ^ 32
  let reg := (0x10 + index * 2) % 2 ^ 32
  let low := vector
  let low := if isoFlags &&& 0x3 = 0x3 then low ||| 1 <<< 13 else low
  let low := if isoFlags &&& 0xc = 0xc then low ||| 1 <<< 15 else low
  let high := lapicId <<< 24 % 2 ^ 32
  [writeIoapic base ((reg + 1) % 2 ^ 32) high, writeIoapic base reg low]

/-- The locals of `ioapic_init` that the walk over the records fills in. -/
structure Scan where
  ioapicPhys : Nat
  gsiBase : Nat
  irqGsi : Nat → Nat
  irqFlags : Nat → Nat

def isaIrqCount : Nat := 16

def Scan.init : Scan := ⟨0, 0, fun i => i, fun _ => 0⟩

/-- The switch on the record at `p`. -/
def scanEntry (m : Mem) (p : Nat) (s : Scan) : Scan :=
  match load m p 1 with
  | 1 => { s with ioapicPhys := load m (p + 4) 4, gsiBase := load m (p + 8) 4 }
  | 2 =>
    let irq := load m (p + 3) 1
    if irq < isaIrqCount then
      { s with
        irqGsi := Function.update s.irqGsi irq (load m (p + 4) 4)
        irqFlags := Function.update s.irqFlags irq (load m (p + 8) 2) }
    else s
  | _ => s

/-- `while (p < end)`; a record moves `p` on, so the bytes left bound the turns. -/
def walk (m : Mem) (stop : Nat) : Nat → Nat → Scan → Scan
  | 0, _, s => s
  | fuel + 1, p, s =>
    if p < stop then
      let len := load m (p + 1) 1
      if len = 0 then s else walk m stop fuel (p + len) (scanEntry m p s)
    else s

def apicSignature : List (BitVec 8) := [0x41, 0x50, 0x49, 0x43]

def madtSize : Nat := 44

/-- `lapicReg` is what `read_reg(0x20)` returns. The result lists the register writes. -/
def ioapicInit (fw : Firmware) (m : Mem) (lapicReg : Nat) : List RegWrite :=
  match findTable fw m apicSignature with
  | none => []
  | some madt =>
    let stop := madt + load m (madt + 4) 4
    let s := walk m stop (stop - (madt + madtSize)) (madt + madtSize) Scan.init
    if s.ioapicPhys = 0 then []
    else
      let base := (s.ioapicPhys + fw.offset) % 2 ^ 64
      let lapicId := lapicReg >>> 24 % 2 ^ 8
      ioapicRoute base s.gsiBase (s.irqGsi 1) (s.irqFlags 1) 0x21 lapicId ++
        ioapicRoute base s.gsiBase (s.irqGsi 3) (s.irqFlags 3) 0x22 lapicId ++
        ioapicRoute base s.gsiBase (s.irqGsi 4) (s.irqFlags 4) 0x23 lapicId

/-- An I/O APIC as the MADT describes it. -/
structure Apic where
  addr : Nat
  gsiBase : Nat
deriving DecidableEq

inductive Record where
  | ioapic (unit : Apic)
  | iso (irq gsi flags : Nat)
  | other (kind len : Nat)

/-- What one record adds to the locals. -/
def Scan.add (s : Scan) : Record → Scan
  | .ioapic u => { s with ioapicPhys := u.addr, gsiBase := u.gsiBase }
  | .iso irq gsi flags =>
    if irq < isaIrqCount then
      { s with
        irqGsi := Function.update s.irqGsi irq gsi
        irqFlags := Function.update s.irqFlags irq flags }
    else s
  | .other _ _ => s

def Record.length : Record → Nat
  | .ioapic _ => 12
  | .iso _ _ _ => 10
  | .other _ len => len

/-- The bytes at `p` are this record. -/
def RecordAt (m : Mem) (p : Nat) : Record → Prop
  | .ioapic u => load m p 1 = 1 ∧ load m (p + 1) 1 = 12 ∧ load m (p + 4) 4 = u.addr ∧
      load m (p + 8) 4 = u.gsiBase
  | .iso irq gsi flags => load m p 1 = 2 ∧ load m (p + 1) 1 = 10 ∧ load m (p + 3) 1 = irq ∧
      load m (p + 4) 4 = gsi ∧ load m (p + 8) 2 = flags
  | .other kind len => load m p 1 = kind ∧ load m (p + 1) 1 = len ∧ kind ≠ 1 ∧ kind ≠ 2 ∧ 2 ≤ len

/-- The bytes at `p` are this record in `len` bytes, at least as many as its type has fields for. -/
def RecordIn (m : Mem) (p len : Nat) : Record → Prop
  | .ioapic u => load m p 1 = 1 ∧ load m (p + 1) 1 = len ∧ 12 ≤ len ∧ load m (p + 4) 4 = u.addr ∧
      load m (p + 8) 4 = u.gsiBase
  | .iso irq gsi flags => load m p 1 = 2 ∧ load m (p + 1) 1 = len ∧ 10 ≤ len ∧
      load m (p + 3) 1 = irq ∧ load m (p + 4) 4 = gsi ∧ load m (p + 8) 2 = flags
  | .other kind size => load m p 1 = kind ∧ load m (p + 1) 1 = len ∧ 2 ≤ len ∧ size = len ∧
      kind ≠ 1 ∧ kind ≠ 2

/-- The bytes from `p` up to `stop` are a concatenation of these records, each with its length. -/
def Concat (m : Mem) (stop : Nat) : Nat → List (Record × Nat) → Prop
  | p, [] => p = stop
  | p, r :: rs => RecordIn m p r.2 r.1 ∧ Concat m stop (p + r.2) rs

/-- The bytes from `p` up to `stop` are these records, one after another. -/
def Records (m : Mem) (stop : Nat) : Nat → List Record → Prop
  | p, [] => p = stop
  | p, r :: rs => RecordAt m p r ∧ Records m stop (p + r.length) rs

def Record.unit? : Record → Option Apic
  | .ioapic u => some u
  | _ => none

def Record.gsi? (irq : Nat) : Record → Option Nat
  | .iso src gsi _ => if src = irq then some gsi else none
  | _ => none

def Record.flags? (irq : Nat) : Record → Option Nat
  | .iso src _ flags => if src = irq then some flags else none
  | _ => none

def units (rs : List Record) : List Apic := rs.filterMap Record.unit?

/-- The global interrupt of an ISA interrupt: its last override, or the identity. -/
def gsiOf (rs : List Record) (irq : Nat) : Nat :=
  (rs.filterMap (Record.gsi? irq)).getLast?.getD irq

/-- The flags of its last override, or none set. -/
def flagsOf (rs : List Record) (irq : Nat) : Nat :=
  (rs.filterMap (Record.flags? irq)).getLast?.getD 0

/-- The global interrupts of a unit with the given number of redirection entries. -/
def Apic.Owns (entries : Apic → Nat) (u : Apic) (g : Nat) : Prop :=
  u.gsiBase ≤ g ∧ g < u.gsiBase + entries u

/-- A well-formed table: its records fill it, the I/O APICs have windows of their own and
disjoint interrupt ranges. A unit's two registers for each entry start at 0x10 and
`IOREGSEL` has eight bits, so it has at most 120 entries. -/
structure WellFormed (entries : Apic → Nat) (m : Mem) (madt : Nat) (rs : List Record) : Prop where
  records : Records m (madt + load m (madt + 4) 4) (madt + madtSize) rs
  window : ∀ u ∈ units rs, u.addr ≠ 0
  apart : (units rs).Pairwise fun u v => u.addr ≠ v.addr ∧
    ∀ g, ¬ (u.Owns entries g ∧ v.Owns entries g)
  entries_le : ∀ u ∈ units rs, entries u ≤ 120

/-- The ISA interrupts that are routed, with their vectors. -/
def routes : List (Nat × Nat) := [(1, 0x21), (3, 0x22), (4, 0x23)]

/-- Both registers of redirection entry `index` are written, the low one with the vector. -/
def Programs (writes : List RegWrite) (base index vector : Nat) : Prop :=
  (∃ val, ⟨base, 0x10 + 2 * index, val⟩ ∈ writes ∧ val % 256 = vector) ∧
    ∃ val, ⟨base, 0x10 + 2 * index + 1, val⟩ ∈ writes

def Apic.base (fw : Firmware) (u : Apic) : Nat := (u.addr + fw.offset) % 2 ^ 64

/-- Each routed interrupt gets its own entry in the unit that owns it, and nothing else is
written. -/
structure Routed (fw : Firmware) (entries : Apic → Nat) (rs : List Record)
    (writes : List RegWrite) : Prop where
  programmed : ∀ r ∈ routes, ∃ u ∈ units rs, u.Owns entries (gsiOf rs r.1) ∧
    Programs writes (u.base fw) (gsiOf rs r.1 - u.gsiBase) r.2
  only : ∀ w ∈ writes, ∃ r ∈ routes, ∃ u ∈ units rs, u.Owns entries (gsiOf rs r.1) ∧
    w.base = u.base fw ∧ (w.offset = 0x10 + 2 * (gsiOf rs r.1 - u.gsiBase) ∨
      w.offset = 0x10 + 2 * (gsiOf rs r.1 - u.gsiBase) + 1)

section
variable {m : Mem} {p stop : Nat}

private theorem scanEntry_record {r : Record} {len : Nat} (h : RecordIn m p len r) (s : Scan) :
    scanEntry m p s = s.add r := by
  cases r with
  | ioapic u =>
    obtain ⟨hk, -, -, ha, hg⟩ := h
    simp only [scanEntry, hk, ha, hg, Scan.add]
  | iso irq gsi flags =>
    obtain ⟨hk, -, -, hi, hg, hf⟩ := h
    simp only [scanEntry, hk, hi, hg, hf, Scan.add]
  | other kind size =>
    obtain ⟨hk, -, -, -, h1, h2⟩ := h
    rw [scanEntry, hk, Scan.add]
    split
    · exact absurd rfl h1
    · exact absurd rfl h2
    · rfl

private theorem record_length {r : Record} {len : Nat} (h : RecordIn m p len r) :
    load m (p + 1) 1 = len ∧ 2 ≤ len := by
  cases r with
  | ioapic u => exact ⟨h.2.1, by have := h.2.2.1; omega⟩
  | iso irq gsi flags => exact ⟨h.2.1, by have := h.2.2.1; omega⟩
  | other kind size => exact ⟨h.2.1, h.2.2.1⟩

private theorem concat_le {rs : List (Record × Nat)} (h : Concat m stop p rs) : p ≤ stop := by
  induction rs generalizing p with
  | nil => exact Nat.le_of_eq h
  | cons r rs ih =>
    have := ih h.2
    omega

/-- On a well-formed table the walk folds the records in order. -/
theorem walk_concat {rs : List (Record × Nat)} (h : Concat m stop p rs) {fuel : Nat}
    (hf : stop - p ≤ fuel) (s : Scan) :
    walk m stop fuel p s = (rs.map Prod.fst).foldl Scan.add s := by
  induction rs generalizing p fuel s with
  | nil =>
    have hp : p = stop := h
    cases fuel with
    | zero => rfl
    | succ fuel =>
      rw [walk, if_neg (by omega)]
      rfl
  | cons r rs ih =>
    obtain ⟨hlen, h2⟩ := record_length h.1
    have hle := concat_le h.2
    cases fuel with
    | zero => omega
    | succ fuel =>
      rw [walk, if_pos (by omega)]
      simp only [hlen]
      rw [if_neg (by omega), scanEntry_record h.1, ih h.2 (by omega), List.map_cons, List.foldl_cons]

/-- Records of exactly their types' sizes. -/
theorem Records.concat {rs : List Record} (h : Records m stop p rs) :
    Concat m stop p (rs.map fun r => (r, r.length)) := by
  induction rs generalizing p with
  | nil => exact h
  | cons r rs ih =>
    refine ⟨?_, ih h.2⟩
    have hr := h.1
    cases r with
    | ioapic u => exact ⟨hr.1, hr.2.1, Nat.le_refl _, hr.2.2⟩
    | iso irq gsi flags => exact ⟨hr.1, hr.2.1, Nat.le_refl _, hr.2.2⟩
    | other kind len => exact ⟨hr.1, hr.2.1, hr.2.2.2.2, rfl, hr.2.2.1, hr.2.2.2.1⟩

end

/-- The walk keeps the I/O APIC of the last such record. -/
private theorem foldl_unit (rs : List Record) (s : Scan) :
    (rs.foldl Scan.add s).ioapicPhys = ((units rs).getLast?.map Apic.addr).getD s.ioapicPhys ∧
      (rs.foldl Scan.add s).gsiBase = ((units rs).getLast?.map Apic.gsiBase).getD s.gsiBase := by
  induction rs generalizing s with
  | nil => exact ⟨rfl, rfl⟩
  | cons r rs ih =>
    rw [List.foldl_cons]
    cases r with
    | ioapic u =>
      have hu : units (.ioapic u :: rs) = u :: units rs := rfl
      rw [(ih _).1, (ih _).2, hu, List.getLast?_cons]
      cases (units rs).getLast? <;> exact ⟨rfl, rfl⟩
    | iso irq gsi flags =>
      have hs : (s.add (.iso irq gsi flags)).ioapicPhys = s.ioapicPhys ∧
          (s.add (.iso irq gsi flags)).gsiBase = s.gsiBase := by
        rw [Scan.add]
        split <;> exact ⟨rfl, rfl⟩
      rw [(ih _).1, (ih _).2, hs.1, hs.2]
      exact ⟨rfl, rfl⟩
    | other kind len => exact ih s

/-- The walk keeps the last override of each ISA interrupt. -/
private theorem foldl_iso {irq : Nat} (hirq : irq < isaIrqCount) (rs : List Record) (s : Scan) :
    (rs.foldl Scan.add s).irqGsi irq =
        (rs.filterMap (Record.gsi? irq)).getLast?.getD (s.irqGsi irq) ∧
      (rs.foldl Scan.add s).irqFlags irq =
        (rs.filterMap (Record.flags? irq)).getLast?.getD (s.irqFlags irq) := by
  induction rs generalizing s with
  | nil => exact ⟨rfl, rfl⟩
  | cons r rs ih =>
    rw [List.foldl_cons, (ih _).1, (ih _).2]
    cases r with
    | ioapic u => exact ⟨rfl, rfl⟩
    | other kind len => exact ⟨rfl, rfl⟩
    | iso src gsi flags =>
      by_cases h : src = irq
      · subst h
        have hg : (Record.iso src gsi flags).gsi? src = some gsi := by simp [Record.gsi?]
        have hf : (Record.iso src gsi flags).flags? src = some flags := by simp [Record.flags?]
        rw [List.filterMap_cons_some hg, List.filterMap_cons_some hf, List.getLast?_cons,
          List.getLast?_cons, Scan.add, if_pos hirq]
        constructor
        · cases (rs.filterMap (Record.gsi? src)).getLast? <;> simp
        · cases (rs.filterMap (Record.flags? src)).getLast? <;> simp
      · have hg : (Record.iso src gsi flags).gsi? irq = none := by simp [Record.gsi?, h]
        have hf : (Record.iso src gsi flags).flags? irq = none := by simp [Record.flags?, h]
        have hs : (s.add (.iso src gsi flags)).irqGsi irq = s.irqGsi irq ∧
            (s.add (.iso src gsi flags)).irqFlags irq = s.irqFlags irq := by
          rw [Scan.add]
          split
          · exact ⟨Function.update_of_ne (Ne.symm h) _ _, Function.update_of_ne (Ne.symm h) _ _⟩
          · exact ⟨rfl, rfl⟩
        rw [List.filterMap_cons_none hg, List.filterMap_cons_none hf, hs.1, hs.2]
        exact ⟨rfl, rfl⟩

/-- The low register's value keeps the vector in its low byte. -/
private theorem low_vector (flags : Nat) {vector : Nat} (hv : vector < 256) :
    (let low := if flags &&& 0x3 = 0x3 then vector ||| 1 <<< 13 else vector
      if flags &&& 0xc = 0xc then low ||| 1 <<< 15 else low) % 256 = vector := by
  have hmod : ∀ x, (x ||| 1 <<< 13) % 2 ^ 8 = x % 2 ^ 8 ∧ (x ||| 1 <<< 15) % 2 ^ 8 = x % 2 ^ 8 := by
    intro x
    rw [Nat.or_mod_two_pow, Nat.or_mod_two_pow]
    exact ⟨by simp, by simp⟩
  dsimp only
  split <;> split <;> simp only [show 256 = 2 ^ 8 from rfl, hmod] <;> exact Nat.mod_eq_of_lt hv

/-- Every write of a route goes to the one window. -/
private theorem route_base {base gsiBase gsi flags vector lapicId : Nat} {w : RegWrite}
    (h : w ∈ ioapicRoute base gsiBase gsi flags vector lapicId) : w.base = base := by
  simp only [ioapicRoute, writeIoapic, List.mem_cons, List.not_mem_nil, or_false] at h
  rcases h with rfl | rfl <;> rfl

/-- In the owning unit the offset is not narrowed: the pair of registers is the entry's. -/
private theorem route_owned {base gsiBase gsi flags vector lapicId : Nat} (hlo : gsiBase ≤ gsi)
    (hhi : gsi - gsiBase < 120) (hv : vector < 256) :
    Programs (ioapicRoute base gsiBase gsi flags vector lapicId) base (gsi - gsiBase) vector ∧
      ∀ w ∈ ioapicRoute base gsiBase gsi flags vector lapicId,
        w.offset = 0x10 + 2 * (gsi - gsiBase) ∨ w.offset = 0x10 + 2 * (gsi - gsiBase) + 1 := by
  have hidx : (gsi + 2 ^ 32 - gsiBase) % 2 ^ 32 = gsi - gsiBase := by omega
  have hreg : (0x10 + (gsi - gsiBase) * 2) % 2 ^ 32 % 2 ^ 8 = 0x10 + 2 * (gsi - gsiBase) := by omega
  have hreg1 : ((0x10 + (gsi - gsiBase) * 2) % 2 ^ 32 + 1) % 2 ^ 32 % 2 ^ 8 =
      0x10 + 2 * (gsi - gsiBase) + 1 := by omega
  simp only [ioapicRoute, writeIoapic, hidx, hreg, hreg1]
  refine ⟨⟨⟨_, .tail _ (.head _), low_vector flags hv⟩, ⟨_, .head _⟩⟩, ?_⟩
  intro w hw
  simp only [List.mem_cons, List.not_mem_nil, or_false] at hw
  rcases hw with rfl | rfl
  · exact Or.inr rfl
  · exact Or.inl rfl

private theorem routes_vector : ∀ r ∈ routes, r.2 < 256 := by decide

private theorem Programs.mono {ws ws' : List RegWrite} {base index vector : Nat}
    (h : Programs ws base index vector) (hsub : ∀ w ∈ ws, w ∈ ws') :
    Programs ws' base index vector := by
  obtain ⟨⟨v, hv, hvec⟩, ⟨v', hv'⟩⟩ := h
  exact ⟨⟨v, hsub _ hv, hvec⟩, ⟨v', hsub _ hv'⟩⟩

section
variable {fw : Firmware} {entries : Apic → Nat} {m : Mem} {madt lapicReg : Nat} {rs : List Record}

/-- What `ioapic_init` writes on a table of records with a last I/O APIC `u`. -/
theorem init_writes (lapicReg : Nat) (hfind : findTable fw m apicSignature = some madt)
    {rs : List (Record × Nat)} (hrs : Concat m (madt + load m (madt + 4) 4) (madt + madtSize) rs)
    {u : Apic} (hu : (units (rs.map Prod.fst)).getLast? = some u) (haddr : u.addr ≠ 0) :
    ioapicInit fw m lapicReg = routes.flatMap fun r =>
      ioapicRoute (u.base fw) u.gsiBase (gsiOf (rs.map Prod.fst) r.1) (flagsOf (rs.map Prod.fst) r.1)
        r.2 (lapicReg >>> 24 % 2 ^ 8) := by
  have hphys : ((rs.map Prod.fst).foldl Scan.add .init).ioapicPhys = u.addr := by
    rw [(foldl_unit _ .init).1, hu]
    rfl
  have hbase : ((rs.map Prod.fst).foldl Scan.add .init).gsiBase = u.gsiBase := by
    rw [(foldl_unit _ .init).2, hu]
    rfl
  have hgsi : ∀ irq, irq < isaIrqCount →
      ((rs.map Prod.fst).foldl Scan.add .init).irqGsi irq = gsiOf (rs.map Prod.fst) irq :=
    fun irq h => (foldl_iso h _ .init).1
  have hflags : ∀ irq, irq < isaIrqCount →
      ((rs.map Prod.fst).foldl Scan.add .init).irqFlags irq = flagsOf (rs.map Prod.fst) irq :=
    fun irq h => (foldl_iso h _ .init).2
  rw [ioapicInit, hfind]
  simp only [walk_concat hrs (Nat.le_refl _), hphys, hbase, hgsi 1 (by decide), hgsi 3 (by decide),
    hgsi 4 (by decide), hflags 1 (by decide), hflags 3 (by decide), hflags 4 (by decide)]
  rw [if_neg haddr, List.append_assoc]
  rfl

private theorem addr_lt {p stop : Nat} (h : Records m stop p rs) :
    ∀ u ∈ units rs, u.addr < 2 ^ 32 := by
  induction rs generalizing p with
  | nil => simp [units]
  | cons r rs ih =>
    have htail := ih h.2
    cases r with
    | ioapic u =>
      have hlt := load_lt m (p + 4) 4
      rw [h.1.2.2.1] at hlt
      exact List.forall_mem_cons.mpr ⟨by omega, htail⟩
    | iso irq gsi flags => exact htail
    | other kind len => exact htail

/-- Two units of one well-formed table with the same window are the same unit. -/
private theorem base_injective (hwf : WellFormed entries m madt rs) {u v : Apic}
    (hu : u ∈ units rs) (hv : v ∈ units rs) (h : u.base fw = v.base fw) : u = v := by
  have hnd : ((units rs).map Apic.addr).Nodup :=
    List.pairwise_map.mpr (hwf.apart.imp And.left)
  have ha := addr_lt hwf.records u hu
  have hb := addr_lt hwf.records v hv
  have haddr : u.addr = v.addr := by
    unfold Apic.base at h
    omega
  exact List.inj_on_of_nodup_map hnd hu hv haddr

/-- On a well-formed table the interrupts are routed as they should be exactly when the
last I/O APIC of the table owns all three of them. -/
theorem routed_iff_last_owns (hfind : findTable fw m apicSignature = some madt)
    (hwf : WellFormed entries m madt rs) :
    Routed fw entries rs (ioapicInit fw m lapicReg) ↔
      ∀ r ∈ routes, ∃ u, (units rs).getLast? = some u ∧ u.Owns entries (gsiOf rs r.1) := by
  cases hlast : (units rs).getLast? with
  | none =>
    have hnil : units rs = [] := List.getLast?_eq_none_iff.mp hlast
    constructor
    · intro h r hr
      obtain ⟨u, hu, -⟩ := h.programmed r hr
      rw [hnil] at hu
      cases hu
    · intro h
      obtain ⟨u, hu, -⟩ := h (1, 0x21) (.head _)
      cases hu
  | some u =>
    have hmem := List.mem_of_getLast? hlast
    have hfst : (rs.map fun r => (r, r.length)).map Prod.fst = rs := by
      rw [List.map_map]
      exact List.map_id rs
    have hw := init_writes lapicReg hfind hwf.records.concat (hfst.symm ▸ hlast) (hwf.window u hmem)
    rw [hfst] at hw
    rw [hw]
    constructor
    · intro h r hr
      obtain ⟨v, hv, hown, ⟨val, hval, -⟩, -⟩ := h.programmed r hr
      obtain ⟨r', -, hw'⟩ := List.mem_flatMap.mp hval
      exact ⟨u, rfl, base_injective hwf hv hmem (route_base hw') ▸ hown⟩
    · intro h
      have hown : ∀ r ∈ routes, u.Owns entries (gsiOf rs r.1) := by
        intro r hr
        obtain ⟨v, hv, hown⟩ := h r hr
        cases hv
        exact hown
      have hroute : ∀ r ∈ routes,
          Programs (ioapicRoute (u.base fw) u.gsiBase (gsiOf rs r.1) (flagsOf rs r.1) r.2
              (lapicReg >>> 24 % 2 ^ 8)) (u.base fw) (gsiOf rs r.1 - u.gsiBase) r.2 ∧
            ∀ w ∈ ioapicRoute (u.base fw) u.gsiBase (gsiOf rs r.1) (flagsOf rs r.1) r.2
                (lapicReg >>> 24 % 2 ^ 8),
              w.offset = 0x10 + 2 * (gsiOf rs r.1 - u.gsiBase) ∨
                w.offset = 0x10 + 2 * (gsiOf rs r.1 - u.gsiBase) + 1 := by
        intro r hr
        have hent := hwf.entries_le u hmem
        have hlo := (hown r hr).1
        have hhi := (hown r hr).2
        exact route_owned hlo (by omega) (routes_vector r hr)
      constructor
      · intro r hr
        refine ⟨u, hmem, hown r hr, (hroute r hr).1.mono ?_⟩
        intro w hw'
        exact List.mem_flatMap.mpr ⟨r, hr, hw'⟩
      · intro w hw'
        obtain ⟨r, hr, hw'⟩ := List.mem_flatMap.mp hw'
        exact ⟨r, hr, u, hmem, hown r hr, route_base hw', (hroute r hr).2 w hw'⟩

end

/-- A machine's ACPI tables: RSDP, XSDT and a MADT with the given records, in that order. -/
def acpiBytes (length : BitVec 8) (records : List (BitVec 8)) : List (BitVec 8) :=
  List.replicate 15 0 ++ [2] ++ List.replicate 8 0 ++ [0x40] ++ List.replicate 39 0 ++
    List.replicate 4 0 ++ [44] ++ List.replicate 31 0 ++ [0x80] ++ List.replicate 27 0 ++
    apicSignature ++ [length] ++ List.replicate 39 0 ++ records

def acpiFirmware : Firmware := ⟨0xffff800000000000, 0xffff800000000000⟩

def acpiMem (length : BitVec 8) (records : List (BitVec 8)) : Mem :=
  fun a => (acpiBytes length records).getD (a - acpiFirmware.offset) 0

def acpiMadt : Nat := acpiFirmware.offset + 0x80

def firstApic : Apic := ⟨0xfec00000, 0⟩

def secondApic : Apic := ⟨0xfec01000, 24⟩

def firstBytes : List (BitVec 8) := [1, 12, 0, 0, 0x00, 0x00, 0xc0, 0xfe, 0, 0, 0, 0]

def secondBytes : List (BitVec 8) := [1, 12, 1, 0, 0x00, 0x10, 0xc0, 0xfe, 24, 0, 0, 0]

def oneApic : Mem := acpiMem 56 firstBytes

def twoApics : Mem := acpiMem 68 (firstBytes ++ secondBytes)

private theorem oneApic_wellFormed :
    WellFormed (fun _ => 24) oneApic acpiMadt [.ioapic firstApic] := by
  refine ⟨⟨⟨by decide +kernel, by decide +kernel, by decide +kernel, by decide +kernel⟩,
    by unfold Records; decide +kernel⟩, by decide, by simp [units, Record.unit?], by decide⟩

private theorem twoApics_wellFormed :
    WellFormed (fun _ => 24) twoApics acpiMadt [.ioapic firstApic, .ioapic secondApic] := by
  refine ⟨⟨⟨by decide +kernel, by decide +kernel, by decide +kernel, by decide +kernel⟩,
    ⟨by decide +kernel, by decide +kernel, by decide +kernel, by decide +kernel⟩,
    by unfold Records; decide +kernel⟩, by decide, ?_, by decide⟩
  refine List.pairwise_pair.mpr ⟨by decide, ?_⟩
  rintro g ⟨h, h'⟩
  have h1 : g < 0 + 24 := h.2
  have h2 : 24 ≤ g := h'.1
  omega

theorem routed_single_apic :
    Routed acpiFirmware (fun _ => 24) [.ioapic firstApic] (ioapicInit acpiFirmware oneApic 0) ↔
      ∀ r ∈ routes, ∃ u, (units [.ioapic firstApic]).getLast? = some u ∧
        u.Owns (fun _ => 24) (gsiOf [.ioapic firstApic] r.1) :=
  routed_iff_last_owns (by decide +kernel) oneApic_wellFormed

/-- Two I/O APICs, the one that owns the ISA interrupts listed first: the keyboard's entry is
written to the other one, at the register of its entry 105. -/
theorem second_apic_programmed :
    WellFormed (fun _ => 24) twoApics acpiMadt [.ioapic firstApic, .ioapic secondApic] ∧
      ¬ Routed acpiFirmware (fun _ => 24) [.ioapic firstApic, .ioapic secondApic]
        (ioapicInit acpiFirmware twoApics 0) ∧
      ⟨secondApic.base acpiFirmware, 0x10 + 2 * 105, 0x21⟩ ∈ ioapicInit acpiFirmware twoApics 0 := by
  refine ⟨twoApics_wellFormed, ?_, by decide +kernel⟩
  intro h
  obtain ⟨u, hu, hown, ⟨val, hval, -⟩, -⟩ := h.programmed (1, 0x21) (.head _)
  have hwrites : ∀ w ∈ ioapicInit acpiFirmware twoApics 0,
      w.base = secondApic.base acpiFirmware := by decide +kernel
  have hbase := hwrites _ hval
  dsimp only at hbase
  have hu' : u = firstApic ∨ u = secondApic := by simpa [units, Record.unit?] using hu
  rcases hu' with rfl | rfl
  · exact absurd hbase (by decide)
  · have hlo : 24 ≤ 1 := hown.1
    omega

end NyaOS.Drivers.Ioapic
