import Mathlib.Logic.Function.Basic
import Mathlib.Tactic.Common
import NyaOS.Interrupts.Stubs
import NyaOS.Library.LastWrite

/-! `pic.c` and `apic.c` over the chips they program: the two 8259s, the base register of the local APIC and
the registers behind it. -/
namespace NyaOS.Interrupts
open Library.LastWrite

/-! The chips. -/

/-- The initialisation word that an 8259 waits for. -/
inductive Phase where
  | operational | icw2 | icw3 | icw4
deriving DecidableEq

structure Pic where
  phase : Phase
  single : Bool
  wantsIcw4 : Bool
  vector : BitVec 8
  mask : BitVec 8

/-- A byte at the command port: with bit 4 it is ICW1, which starts the initialisation. -/
def Pic.command (p : Pic) (b : BitVec 8) : Pic :=
  if b.getLsbD 4 then
    { p with phase := .icw2, single := b.getLsbD 1, wantsIcw4 := b.getLsbD 0, mask := 0 }
  else p

/-- A byte at the data port: the next initialisation word, or the mask. -/
def Pic.data (p : Pic) (b : BitVec 8) : Pic :=
  let last := if p.wantsIcw4 then Phase.icw4 else .operational
  match p.phase with
  | .operational => { p with mask := b }
  | .icw2 => { p with vector := b &&& 0xf8, phase := if p.single then last else .icw3 }
  | .icw3 => { p with phase := last }
  | .icw4 => { p with phase := .operational }

/-- The 8259s, `IA32_APIC_BASE`, the registers of the local APIC by their offset, and the 32-bit words of
memory. -/
structure Chips where
  primary : Pic
  secondary : Pic
  apicBase : BitVec 64
  lapic : Nat → BitVec 32
  memory : Nat → BitVec 32

def outb (value : BitVec 8) (port : Nat) (c : Chips) : Chips :=
  if port = 0x20 then { c with primary := c.primary.command value }
  else if port = 0x21 then { c with primary := c.primary.data value }
  else if port = 0xa0 then { c with secondary := c.secondary.command value }
  else if port = 0xa1 then { c with secondary := c.secondary.data value }
  else c

/-- Only the masks are ever read. -/
def inb (port : Nat) (c : Chips) : BitVec 8 :=
  if port = 0x21 then c.primary.mask else if port = 0xa1 then c.secondary.mask else 0

/-- Where the registers of the local APIC are: bits 12 to 51 of the base register. -/
def lapicAt (apicBase : BitVec 64) : Nat := (apicBase &&& 0xffffffffff000).toNat

def lapicEnabled (apicBase : BitVec 64) : Bool := apicBase.getLsbD 11

/-! `pic.c` -/

def PIC_PRIMARY_CMDSTAT : Nat := 0x20
def PIC_PRIMARY_INTRDATA : Nat := 0x21
def PIC_SECONDARY_CMDSTAT : Nat := 0xa0
def PIC_SECONDARY_INTRDATA : Nat := 0xa1

def remapIrqs (c : Chips) : Chips :=
  let c := outb 0x20 PIC_PRIMARY_INTRDATA c
  outb 0x28 PIC_SECONDARY_INTRDATA c

def lapicDisable (c : Chips) : Chips :=
  let lo := c.apicBase.setWidth 32 &&& ~~~(1#32 <<< 11)
  let hi := (c.apicBase >>> 32).setWidth 32
  { c with apicBase := hi ++ lo }

/-- The port and the line on its chip. -/
def irqPort (line : Nat) : Nat × Nat :=
  if line < 8 then (PIC_PRIMARY_INTRDATA, line) else (PIC_SECONDARY_INTRDATA, line - 8)

def irqSetMask (line : Nat) (c : Chips) : Chips :=
  let (port, line) := irqPort line
  let value := ((inb port c).setWidth 32 ||| 1#32 <<< line).setWidth 8
  outb value port c

def irqClearMask (line : Nat) (c : Chips) : Chips :=
  let (port, line) := irqPort line
  let value := ((inb port c).setWidth 32 &&& ~~~(1#32 <<< line)).setWidth 8
  outb value port c

def picInit (c : Chips) : Chips :=
  let c := lapicDisable c
  let c := outb 0b00010001 PIC_PRIMARY_CMDSTAT c
  let c := outb 0b00010001 PIC_SECONDARY_CMDSTAT c
  let c := remapIrqs c
  let c := outb 0b00000100 PIC_PRIMARY_INTRDATA c
  let c := outb 2 PIC_SECONDARY_INTRDATA c
  let c := outb 0b1 PIC_PRIMARY_INTRDATA c
  let c := outb 0b1 PIC_SECONDARY_INTRDATA c
  let c := outb 0 PIC_PRIMARY_INTRDATA c
  let c := outb 0 PIC_SECONDARY_INTRDATA c
  irqSetMask 8 (irqSetMask 0 c)

def picDisable (c : Chips) : Chips :=
  let c := outb 0xff PIC_PRIMARY_INTRDATA c
  outb 0xff PIC_SECONDARY_INTRDATA c

/-! `apic.c` -/

def cpuSetApicBase (apic : BitVec 64) (c : Chips) : Chips :=
  let eax := (apic &&& 0xfffff000).setWidth 32 ||| 0x800
  let edx := ((apic >>> 32) &&& 0x0f).setWidth 32
  { c with apicBase := edx ++ eax }

def cpuGetApicBase (c : Chips) : BitVec 64 :=
  let eax := c.apicBase.setWidth 32
  let edx := (c.apicBase >>> 32).setWidth 32
  (eax &&& 0xfffff000).setWidth 64 ||| (edx &&& 0x0f).setWidth 64 <<< 32

/-- The access is to the local APIC if it is enabled there, else to memory. -/
def writeReg (apicOffset : Nat) (data : BitVec 32) (reg : Nat) (c : Chips) : Chips :=
  if lapicEnabled c.apicBase ∧ lapicAt c.apicBase = apicOffset then
    { c with lapic := Function.update c.lapic reg data }
  else { c with memory := Function.update c.memory (apicOffset + reg) data }

def readReg (apicOffset reg : Nat) (c : Chips) : BitVec 32 :=
  if lapicEnabled c.apicBase ∧ lapicAt c.apicBase = apicOffset then c.lapic reg
  else c.memory (apicOffset + reg)

def EOI_REG : Nat := 0xb0
def TIMER_DIVIDE_REG : Nat := 0x3e0
def TIMER_INIT_COUNT_REG : Nat := 0x380
def TIMER_VECTOR : BitVec 32 := 0x30
def TIMER_REG : Nat := 0x320

/-- `apic_init` with the value it leaves in `apic_offset`; the page it maps there is left to the pager. -/
def apicInit (c : Chips) : Nat × Chips :=
  let c := picDisable (remapIrqs c)
  let apicOffset := (cpuGetApicBase c).toNat
  let c := cpuSetApicBase (cpuGetApicBase c) c
  (apicOffset, writeReg apicOffset (readReg apicOffset 0xf0 c ||| 0x100) 0xf0 c)

def apicStartTimer (apicOffset : Nat) (divider sleepMicros : BitVec 32) (c : Chips) : Chips :=
  let c := writeReg apicOffset 0x0 TIMER_INIT_COUNT_REG c
  let c := writeReg apicOffset divider TIMER_DIVIDE_REG c
  let c := writeReg apicOffset (TIMER_VECTOR ||| 1#32 <<< 17) TIMER_REG c
  writeReg apicOffset sleepMicros TIMER_INIT_COUNT_REG c

def sendEoi (apicOffset : Nat) (c : Chips) : Chips := writeReg apicOffset 0 EOI_REG c

/-! The sixteen lines. -/

/-- The line is masked in its chip. -/
def Chips.masked (c : Chips) (line : Fin 16) : Bool :=
  if line.val < 8 then c.primary.mask.getLsbD line else c.secondary.mask.getLsbD (line - 8)

/-- Both chips are initialised and give vectors from these on. -/
structure Running (c : Chips) (primary secondary : BitVec 8) : Prop where
  primary_phase : c.primary.phase = .operational
  secondary_phase : c.secondary.phase = .operational
  primary_vector : c.primary.vector = primary
  secondary_vector : c.secondary.vector = secondary

inductive MaskOp where
  | set (line : Fin 16)
  | clear (line : Fin 16)

def MaskOp.line : MaskOp → Fin 16
  | .set line => line
  | .clear line => line

def MaskOp.run (c : Chips) : MaskOp → Chips
  | .set line => irqSetMask line c
  | .clear line => irqClearMask line c

/-- What the operation leaves of its line. -/
def MaskOp.masks : MaskOp → Bool
  | .set _ => true
  | .clear _ => false

def MaskOp.leaves (line : Fin 16) (op : MaskOp) : Option Bool := if op.line = line then some op.masks else none

theorem Pic.data_operational {p : Pic} (h : p.phase = .operational) (b : BitVec 8) :
    p.data b = { p with mask := b } := by
  rw [Pic.data, h]

theorem Pic.data_twice {p : Pic} (h : p.phase = .operational) (b b' : BitVec 8) :
    (p.data b).data b' = { p with mask := b' } := by
  rw [Pic.data_operational h]
  exact Pic.data_operational (p := { p with mask := b }) h b'

theorem bit_shifted {j : Nat} (n : Nat) (hj : j < 8) : (1#32 <<< n).getLsbD j = decide (j = n) := by
  rw [BitVec.getLsbD_shiftLeft, BitVec.getLsbD_one]
  simp only [decide_eq_true (show j < 32 by omega), Bool.true_and]
  by_cases h : j < n
  · simp [h, Nat.ne_of_lt h]
  · simp [h]
    omega

theorem bit_set (mask : BitVec 8) {n j : Nat} (hj : j < 8) :
    ((mask.setWidth 32 ||| 1#32 <<< n).setWidth 8).getLsbD j = if n = j then true else mask.getLsbD j := by
  rw [BitVec.getLsbD_setWidth, BitVec.getLsbD_or, bit_shifted n hj, BitVec.getLsbD_setWidth]
  by_cases h : n = j
  · simp [h, hj]
  · simp [h, hj, Ne.symm h, show j < 32 by omega]

theorem bit_cleared (mask : BitVec 8) {n j : Nat} (hj : j < 8) :
    ((mask.setWidth 32 &&& ~~~(1#32 <<< n)).setWidth 8).getLsbD j = if n = j then false else mask.getLsbD j := by
  rw [BitVec.getLsbD_setWidth, BitVec.getLsbD_and, BitVec.getLsbD_not, bit_shifted n hj, BitVec.getLsbD_setWidth]
  by_cases h : n = j
  · simp [h, hj]
  · simp [h, hj, Ne.symm h, show j < 32 by omega]

section Masks
variable {c : Chips} {v₁ v₂ : BitVec 8}

/-- Writing a mask while the chips run. -/
theorem Running.outb_mask (h : Running c v₁ v₂) (value : BitVec 8) (line : Nat) :
    outb value (irqPort line).1 c = if line < 8 then { c with primary := { c.primary with mask := value } }
      else { c with secondary := { c.secondary with mask := value } } := by
  unfold irqPort
  split
  · change { c with primary := c.primary.data value } = _
    rw [Pic.data_operational h.primary_phase]
  · change { c with secondary := c.secondary.data value } = _
    rw [Pic.data_operational h.secondary_phase]

/-- The byte an operation writes. -/
def MaskOp.value (c : Chips) : MaskOp → BitVec 8
  | .set line => ((inb (irqPort line).1 c).setWidth 32 ||| 1#32 <<< (irqPort line).2).setWidth 8
  | .clear line => ((inb (irqPort line).1 c).setWidth 32 &&& ~~~(1#32 <<< (irqPort line).2)).setWidth 8

theorem MaskOp.run_eq (op : MaskOp) (c : Chips) : op.run c = outb (op.value c) (irqPort op.line).1 c := by
  cases op <;> rfl

theorem Running.op (h : Running c v₁ v₂) (op : MaskOp) : Running (op.run c) v₁ v₂ := by
  rw [op.run_eq, h.outb_mask]
  split <;> exact ⟨h.primary_phase, h.secondary_phase, h.primary_vector, h.secondary_vector⟩

/-- The bits of the chip that holds the line. -/
theorem masked_outb (h : Running c v₁ v₂) (value : BitVec 8) (n line : Fin 16) :
    (outb value (irqPort n).1 c).masked line =
      if n.val / 8 = line.val / 8 then value.getLsbD (line % 8) else c.masked line := by
  rw [h.outb_mask, Chips.masked, Chips.masked]
  by_cases hn : n.val < 8 <;> by_cases hl : line.val < 8
  · rw [if_pos hn, if_pos hl, if_pos (by omega), Nat.mod_eq_of_lt hl]
  · rw [if_pos hn, if_neg hl, if_neg (by omega), if_neg hl]
  · rw [if_neg hn, if_pos hl, if_neg (by omega), if_pos hl]
  · rw [if_neg hn, if_neg hl, if_pos (by omega), show line.val % 8 = line.val - 8 by omega]

theorem inb_masked (c : Chips) {n line : Fin 16} (h : n.val / 8 = line.val / 8) :
    (inb (irqPort n).1 c).getLsbD (line % 8) = c.masked line := by
  unfold irqPort Chips.masked
  by_cases hn : n.val < 8
  · rw [if_pos hn, if_pos (by omega), Nat.mod_eq_of_lt (by omega)]
    rfl
  · rw [if_neg hn, if_neg (by omega), show line.val % 8 = line.val - 8 by omega]
    rfl

/-- One operation changes its own line and no other. -/
theorem Running.masked_op (h : Running c v₁ v₂) (op : MaskOp) (line : Fin 16) :
    (op.run c).masked line = if op.line = line then op.masks else c.masked line := by
  have hmod : line.val % 8 < 8 := Nat.mod_lt _ (by decide)
  have hport : ∀ n : Fin 16, (irqPort n).2 = n.val % 8 := by decide
  have hsame : ∀ n : Fin 16, n = line ↔ n.val / 8 = line.val / 8 ∧ n.val % 8 = line.val % 8 := by
    intro n
    rw [Fin.ext_iff]
    omega
  rw [op.run_eq, masked_outb h]
  by_cases hchip : op.line.val / 8 = line.val / 8
  · rw [if_pos hchip]
    have hline : op.line = line ↔ (irqPort op.line).2 = line.val % 8 := by
      rw [hport, hsame]
      exact and_iff_right hchip
    cases op with
    | set n =>
      rw [MaskOp.value, bit_set _ hmod]
      exact if_congr hline.symm rfl (inb_masked c hchip)
    | clear n =>
      rw [MaskOp.value, bit_cleared _ hmod]
      exact if_congr hline.symm rfl (inb_masked c hchip)
  · rw [if_neg hchip, if_neg fun heq => hchip ((hsame _).mp heq).1]

/-- After any operations a line is as the last one for it left it. -/
theorem Running.masked_run (h : Running c v₁ v₂) (ops : List MaskOp) (line : Fin 16) :
    Running (ops.foldl MaskOp.run c) v₁ v₂ ∧ (ops.foldl MaskOp.run c).masked line =
      (lastWrite (MaskOp.leaves line) ops).getD (c.masked line) := by
  refine foldl_lastWrite (fun c => Running c v₁ v₂) (fun c => c.masked line) _ ops (fun _ op _ h => h.op op)
    (fun c op _ h => (h.masked_op op line).trans ?_) h
  rw [MaskOp.leaves]
  split <;> rfl

end Masks

/-- The chips as `pic_init` leaves them before it masks two lines. -/
theorem picInit_eq (c : Chips) : picInit c = [MaskOp.set 0, .set 8].foldl MaskOp.run
    { lapicDisable c with
      primary := ⟨.operational, false, true, 0x20, 0⟩
      secondary := ⟨.operational, false, true, 0x28, 0⟩ } := rfl

section Base
variable {n i : Nat}

theorem getLsbD_literal (c : Nat) (hi : i < n) : (BitVec.ofNat n c).getLsbD i = c.testBit i := by
  rw [BitVec.getLsbD_ofNat, decide_eq_true hi, Bool.true_and]

/-- Bits 12 to 35. -/
theorem getLsbD_base (hi : i < n) (hn : n ≤ 64) :
    (BitVec.ofNat n 0xffffff000).getLsbD i = decide (12 ≤ i ∧ i < 36) := by
  have hbits : ∀ i < 64, (0xffffff000).testBit i = decide (12 ≤ i ∧ i < 36) := by decide
  rw [getLsbD_literal _ hi, hbits i (by omega)]

/-- Bits 12 to 31. -/
theorem getLsbD_low (hi : i < n) (hn : n ≤ 64) :
    (BitVec.ofNat n 0xfffff000).getLsbD i = decide (12 ≤ i ∧ i < 32) := by
  have hbits : ∀ i < 64, (0xfffff000).testBit i = decide (12 ≤ i ∧ i < 32) := by decide
  rw [getLsbD_literal _ hi, hbits i (by omega)]

theorem getLsbD_nibble (hi : i < n) (hn : n ≤ 64) : (BitVec.ofNat n 0x0f).getLsbD i = decide (i < 4) := by
  have hbits : ∀ i < 64, (0x0f).testBit i = decide (i < 4) := by decide
  rw [getLsbD_literal _ hi, hbits i (by omega)]

theorem getLsbD_enable (hi : i < n) (hn : n ≤ 64) : (BitVec.ofNat n 0x800).getLsbD i = decide (i = 11) := by
  have hbits : ∀ i < 64, (0x800).testBit i = decide (i = 11) := by decide
  rw [getLsbD_literal _ hi, hbits i (by omega)]

/-- Bits 12 to 51. -/
theorem getLsbD_field (hi : i < n) (hn : n ≤ 64) :
    (BitVec.ofNat n 0xffffffffff000).getLsbD i = decide (12 ≤ i ∧ i < 52) := by
  have hbits : ∀ i < 64, (0xffffffffff000).testBit i = decide (12 ≤ i ∧ i < 52) := by decide
  rw [getLsbD_literal _ hi, hbits i (by omega)]

/-- `cpu_get_apic_base` reads bits 12 to 35. -/
theorem cpuGetApicBase_eq (c : Chips) : cpuGetApicBase c = c.apicBase &&& 0xffffff000#64 := by
  apply BitVec.eq_of_getLsbD_eq
  intro i hi
  change ((c.apicBase.setWidth 32 &&& 0xfffff000#32).setWidth 64 |||
    ((c.apicBase >>> 32).setWidth 32 &&& 0x0f#32).setWidth 64 <<< 32).getLsbD i = _
  rw [BitVec.getLsbD_or, BitVec.getLsbD_and, BitVec.getLsbD_setWidth, BitVec.getLsbD_and, BitVec.getLsbD_setWidth,
    BitVec.getLsbD_shiftLeft, BitVec.getLsbD_setWidth, BitVec.getLsbD_and, BitVec.getLsbD_setWidth,
    BitVec.getLsbD_ushiftRight, getLsbD_base hi le_rfl]
  by_cases hlow : i < 32
  · rw [getLsbD_low hlow (by decide)]
    simp [hlow, hi]
    grind
  · have hback : 32 + (i - 32) = i := by omega
    rw [getLsbD_nibble (show i - 32 < 32 by omega) (by decide), hback]
    simp [hlow, hi]
    grind

/-- `cpu_set_apic_base` keeps them and sets the enable bit. -/
theorem cpuSetApicBase_eq (x : BitVec 64) (c : Chips) :
    (cpuSetApicBase x c).apicBase = (x &&& 0xffffff000#64) ||| 0x800#64 := by
  apply BitVec.eq_of_getLsbD_eq
  intro i hi
  change ((((x >>> 32) &&& 0x0f#64).setWidth 32 : BitVec 32) ++
    ((x &&& 0xfffff000#64).setWidth 32 ||| 0x800#32 : BitVec 32)).getLsbD i = _
  rw [BitVec.getLsbD_append, BitVec.getLsbD_or, BitVec.getLsbD_or, BitVec.getLsbD_setWidth, BitVec.getLsbD_setWidth,
    BitVec.getLsbD_and, BitVec.getLsbD_and, BitVec.getLsbD_and, BitVec.getLsbD_ushiftRight,
    getLsbD_base hi le_rfl, getLsbD_enable hi le_rfl, getLsbD_low hi le_rfl]
  by_cases hlow : i < 32
  · rw [getLsbD_enable hlow (by decide)]
    simp [hlow, hi]
    grind
  · have hback : 32 + (i - 32) = i := by omega
    rw [getLsbD_nibble (show i - 32 < 64 by omega) le_rfl, hback]
    simp [hlow, hi]
    grind

theorem lapicDisable_eq (c : Chips) : (lapicDisable c).apicBase = c.apicBase &&& ~~~0x800#64 := by
  apply BitVec.eq_of_getLsbD_eq
  intro i hi
  change (((c.apicBase >>> 32).setWidth 32 : BitVec 32) ++
    (c.apicBase.setWidth 32 &&& ~~~0x800#32 : BitVec 32)).getLsbD i = _
  rw [BitVec.getLsbD_append, BitVec.getLsbD_and, BitVec.getLsbD_setWidth, BitVec.getLsbD_setWidth,
    BitVec.getLsbD_ushiftRight, BitVec.getLsbD_and, BitVec.getLsbD_not, BitVec.getLsbD_not,
    getLsbD_enable hi le_rfl]
  by_cases hlow : i < 32
  · rw [getLsbD_enable hlow (by decide)]
    simp [hlow, hi]
  · have hback : 32 + (i - 32) = i := by omega
    rw [hback]
    simp [hlow, hi]
    grind

end Base

theorem outb_apicBase (value : BitVec 8) (port : Nat) (c : Chips) : (outb value port c).apicBase = c.apicBase := by
  unfold outb
  split
  · rfl
  · split
    · rfl
    · split
      · rfl
      · split <;> rfl

theorem picInit_apicBase (c : Chips) : (picInit c).apicBase = c.apicBase &&& ~~~0x800#64 := by
  rw [← lapicDisable_eq, picInit_eq]
  change (MaskOp.run (MaskOp.run _ (.set 0)) (.set 8)).apicBase = _
  rw [MaskOp.run_eq, outb_apicBase, MaskOp.run_eq, outb_apicBase]

/-- After `pic_init`, from whatever the 8259s were in the middle of, and any calls of `IRQ_set_mask` and
`IRQ_clear_mask`: the chips are initialised, with the vectors from `0x20` and `0x28` on, and each of the sixteen
lines is as the last call for it left it; without one only lines 0 and 8 are masked. The local APIC is off. -/
theorem picInit_masks (c : Chips) (ops : List MaskOp) :
    Running (ops.foldl MaskOp.run (picInit c)) 0x20 0x28 ∧
    (∀ line, (ops.foldl MaskOp.run (picInit c)).masked line =
      (lastWrite (MaskOp.leaves line) ops).getD (line = 0 ∨ line = 8)) ∧
    lapicEnabled (picInit c).apicBase = false ∧ lapicAt (picInit c).apicBase = lapicAt c.apicBase := by
  have hbase := Running.masked_run (c := { lapicDisable c with
    primary := ⟨.operational, false, true, 0x20, 0⟩
    secondary := ⟨.operational, false, true, 0x28, 0⟩ }) ⟨rfl, rfl, rfl, rfl⟩ ([.set 0, .set 8] ++ ops)
  rw [List.foldl_append, ← picInit_eq] at hbase
  refine ⟨(hbase 0).1, fun line => (hbase line).2.trans ?_, ?_, ?_⟩
  · have hclear : Chips.masked { lapicDisable c with
        primary := ⟨.operational, false, true, 0x20, 0⟩
        secondary := ⟨.operational, false, true, 0x28, 0⟩ } line = false := by
      rw [Chips.masked]
      split <;> exact BitVec.getLsbD_zero
    have hfirst : ∀ line : Fin 16, (lastWrite (MaskOp.leaves line) [.set 0, .set 8]).getD false =
        decide (line = 0 ∨ line = 8) := by decide
    rw [lastWrite_append, hclear, ← hfirst line]
    cases lastWrite (MaskOp.leaves line) ops <;> rfl
  · rw [picInit_apicBase, lapicEnabled, BitVec.getLsbD_and, BitVec.getLsbD_not, getLsbD_enable (by decide) le_rfl]
    simp
  · rw [picInit_apicBase, lapicAt, lapicAt, BitVec.and_assoc]
    rfl

/-- The address set is where the hardware finds the registers. -/
theorem lapicAt_set (x : BitVec 64) : lapicAt (x &&& 0xffffff000#64 ||| 0x800#64) = (x &&& 0xffffff000#64).toNat := by
  rw [lapicAt]
  congr 1
  apply BitVec.eq_of_getLsbD_eq
  intro i hi
  change ((x &&& 0xffffff000#64 ||| 0x800#64) &&& 0xffffffffff000#64).getLsbD i = _
  rw [BitVec.getLsbD_and, BitVec.getLsbD_or, BitVec.getLsbD_and, getLsbD_base hi le_rfl, getLsbD_enable hi le_rfl,
    getLsbD_field hi le_rfl]
  grind

theorem lapicEnabled_set (x : BitVec 64) : lapicEnabled (x ||| 0x800#64) = true := by
  rw [lapicEnabled, BitVec.getLsbD_or, getLsbD_enable (by decide) le_rfl]
  simp

/-- The code reads the address modulo `2 ^ 36`. -/
theorem lapicAt_mod (x : BitVec 64) : (x &&& 0xffffff000#64).toNat = lapicAt x % 2 ^ 36 := by
  rw [lapicAt, ← Nat.and_two_pow_sub_one_eq_mod, BitVec.toNat_and, BitVec.toNat_and, Nat.and_assoc]
  rfl

/-- What `apic_init` leaves. -/
theorem apicInit_eq {c : Chips} {v₁ v₂ : BitVec 8} (h : Running c v₁ v₂) :
    apicInit c = (lapicAt c.apicBase % 2 ^ 36,
      { primary := { c.primary with mask := 0xff }
        secondary := { c.secondary with mask := 0xff }
        apicBase := c.apicBase &&& 0xffffff000#64 ||| 0x800#64
        lapic := Function.update c.lapic 0xf0 (c.lapic 0xf0 ||| 0x100)
        memory := c.memory }) := by
  have hpics : picDisable (remapIrqs c) = { c with
      primary := { c.primary with mask := 0xff }
      secondary := { c.secondary with mask := 0xff } } := by
    change { c with primary := (c.primary.data _).data _, secondary := (c.secondary.data _).data _ } = _
    rw [Pic.data_twice h.primary_phase, Pic.data_twice h.secondary_phase]
  have hbase : cpuSetApicBase (c.apicBase &&& 0xffffff000#64) { c with
      primary := { c.primary with mask := 0xff }
      secondary := { c.secondary with mask := 0xff } } =
      { primary := { c.primary with mask := 0xff }
        secondary := { c.secondary with mask := 0xff }
        apicBase := c.apicBase &&& 0xffffff000#64 ||| 0x800#64
        lapic := c.lapic
        memory := c.memory } := by
    have heq := cpuSetApicBase_eq (c.apicBase &&& 0xffffff000#64) { c with
      primary := { c.primary with mask := 0xff }
      secondary := { c.secondary with mask := 0xff } }
    rw [BitVec.and_assoc, BitVec.and_self] at heq
    rw [← heq]
    rfl
  unfold apicInit
  simp only [hpics, cpuGetApicBase_eq]
  rw [hbase, ← lapicAt_mod]
  unfold readReg writeReg
  rw [if_pos ⟨lapicEnabled_set _, lapicAt_set _⟩, if_pos ⟨lapicEnabled_set _, lapicAt_set _⟩]

/-! What is done with the local APIC from then on: `isr_handler` and `irq_handler` acknowledge, `kernel_main` starts
the timer. -/

inductive ApicCall where
  | sendEoi
  | startTimer (divider sleepMicros : BitVec 32)

def ApicCall.run (apicOffset : Nat) (c : Chips) : ApicCall → Chips
  | .sendEoi => NyaOS.Interrupts.sendEoi apicOffset c
  | .startTimer divider sleepMicros => apicStartTimer apicOffset divider sleepMicros c

/-- What a call leaves in a register, if it writes it. -/
def ApicCall.leaves (reg : Nat) : ApicCall → Option (BitVec 32)
  | .sendEoi => if reg = 0xb0 then some 0 else none
  | .startTimer divider sleepMicros =>
    if reg = 0x380 then some sleepMicros
    else if reg = 0x320 then some 0x20030
    else if reg = 0x3e0 then some divider
    else none

/-- The registers of the local APIC are where the code takes them to be. -/
structure LapicOn (apicOffset : Nat) (c : Chips) : Prop where
  enabled : lapicEnabled c.apicBase = true
  address : lapicAt c.apicBase = apicOffset

theorem LapicOn.write {apicOffset : Nat} {c : Chips} (h : LapicOn apicOffset c) (data : BitVec 32) (reg : Nat) :
    writeReg apicOffset data reg c = { c with lapic := Function.update c.lapic reg data } :=
  if_pos ⟨h.enabled, h.address⟩

theorem LapicOn.written {apicOffset : Nat} {c : Chips} (h : LapicOn apicOffset c) (lapic : Nat → BitVec 32) :
    LapicOn apicOffset { c with lapic := lapic } :=
  ⟨h.enabled, h.address⟩

/-- One call leaves everything but its registers. -/
theorem LapicOn.call {apicOffset : Nat} {c : Chips} (h : LapicOn apicOffset c) (call : ApicCall) :
    call.run apicOffset c = { c with lapic := fun reg => (call.leaves reg).getD (c.lapic reg) } := by
  cases call with
  | sendEoi =>
    rw [ApicCall.run, sendEoi, h.write]
    congr 1
    funext reg
    rw [ApicCall.leaves, EOI_REG, Function.update_apply]
    split <;> rfl
  | startTimer divider sleepMicros =>
    rw [ApicCall.run, apicStartTimer, h.write, (h.written _).write, (h.written _).write, (h.written _).write]
    congr 1
    funext reg
    simp only [ApicCall.leaves, TIMER_INIT_COUNT_REG, TIMER_REG, TIMER_DIVIDE_REG, Function.update_apply]
    split
    · rfl
    · split
      · rfl
      · split <;> rfl

/-- After any calls each register is as the last of them that writes it left it. -/
theorem LapicOn.calls {apicOffset : Nat} {c : Chips} (h : LapicOn apicOffset c) (calls : List ApicCall) :
    calls.foldl (ApicCall.run apicOffset) c =
      { c with lapic := fun reg => (lastWrite (ApicCall.leaves reg) calls).getD (c.lapic reg) } := by
  have hrun : ∀ reg, (∃ lapic, calls.foldl (ApicCall.run apicOffset) c = { c with lapic := lapic }) ∧
      (calls.foldl (ApicCall.run apicOffset) c).lapic reg =
        (lastWrite (ApicCall.leaves reg) calls).getD (c.lapic reg) := by
    intro reg
    refine foldl_lastWrite (fun c' => ∃ lapic, c' = { c with lapic := lapic }) (fun c' => c'.lapic reg) _ calls ?_ ?_
      ⟨c.lapic, rfl⟩
    · rintro _ call - ⟨lapic, rfl⟩
      exact ⟨_, (h.written lapic).call call⟩
    · rintro _ call - ⟨lapic, rfl⟩
      rw [(h.written lapic).call]
  obtain ⟨⟨lapic, hlapic⟩, -⟩ := hrun 0
  rw [hlapic]
  congr 1
  funext reg
  rw [← (hrun reg).2, hlapic]

/-- `apic_init` from any 8259s that run, and then any calls of `send_eoi` and `apic_start_timer`. No line of the
8259s gets through any more, and their vectors are as they were: the second initialisation word that `remap_irqs`
writes without the first is taken for a mask. The local APIC is on, at the address of its base register modulo
`2 ^ 36`; every access of the calls is to one of its registers and none to memory, and each register is as the last
call that writes it left it: the timer's entry is the periodic one of vector `0x30`. -/
theorem apicInit_calls {c after : Chips} {v₁ v₂ : BitVec 8} (h : Running c v₁ v₂) (calls : List ApicCall)
    (hafter : calls.foldl (ApicCall.run (apicInit c).1) (apicInit c).2 = after) :
    Running after v₁ v₂ ∧ (∀ line, after.masked line = true) ∧
    (apicInit c).1 = lapicAt c.apicBase % 2 ^ 36 ∧
    lapicEnabled after.apicBase = true ∧ lapicAt after.apicBase = (apicInit c).1 ∧
    after.memory = c.memory ∧
    ∀ reg, after.lapic reg = (lastWrite (ApicCall.leaves reg) calls).getD
      (if reg = 0xf0 then c.lapic 0xf0 ||| 0x100 else c.lapic reg) := by
  have hat : lapicAt (c.apicBase &&& 0xffffff000#64 ||| 0x800#64) = lapicAt c.apicBase % 2 ^ 36 := by
    rw [lapicAt_set, lapicAt_mod]
  rw [apicInit_eq h] at hafter ⊢
  generalize lapicAt c.apicBase % 2 ^ 36 = apicOffset at hafter hat ⊢
  have hon : LapicOn apicOffset
      { primary := { c.primary with mask := 0xff }
        secondary := { c.secondary with mask := 0xff }
        apicBase := c.apicBase &&& 0xffffff000#64 ||| 0x800#64
        lapic := Function.update c.lapic 0xf0 (c.lapic 0xf0 ||| 0x100)
        memory := c.memory } := ⟨lapicEnabled_set _, hat⟩
  rw [← hafter, hon.calls]
  refine ⟨⟨h.primary_phase, h.secondary_phase, h.primary_vector, h.secondary_vector⟩, fun line => ?_, rfl,
    lapicEnabled_set _, hat, rfl, fun reg => ?_⟩
  · have hbits : ∀ i < 8, (0xff#8).getLsbD i = true := by decide
    rw [Chips.masked]
    split
    · exact hbits _ ‹_›
    · exact hbits _ (by omega)
  · dsimp only
    rw [Function.update_apply]

/-- Chips as firmware leaves them. -/
def firmwareChips : Chips where
  primary := ⟨.operational, false, true, 0x08, 0⟩
  secondary := ⟨.operational, false, true, 0x70, 0⟩
  apicBase := 0xfee00900
  lapic := fun _ => 0
  memory := fun _ => 0

theorem apicInit_calls_boot :
    ∃ after, [ApicCall.startTimer 0x3 1000000, .sendEoi].foldl (ApicCall.run (apicInit firmwareChips).1)
      (apicInit firmwareChips).2 = after ∧ after.masked 1 = true ∧ (apicInit firmwareChips).1 = 0xfee00000 ∧
      after.lapic 0x320 = 0x20030 := by
  obtain ⟨-, hmasked, haddr, -, -, -, hlapic⟩ := apicInit_calls (c := firmwareChips) ⟨rfl, rfl, rfl, rfl⟩
    [.startTimer 0x3 1000000, .sendEoi] rfl
  exact ⟨_, rfl, hmasked 1, haddr.trans rfl, (hlapic 0x320).trans rfl⟩

end NyaOS.Interrupts
