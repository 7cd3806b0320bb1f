import NyaOS.Drivers.Gdt
import NyaOS.Library.ByteMemory
import NyaOS.Library.Painting

/-! The interrupt descriptor table of `idt.c`, and what the processor reads from it. -/
namespace NyaOS.Interrupts
open Library.ByteMemory Library.Painting

/-- Where the linker put the static objects that `idt_init` uses. -/
structure Layout where
  idt : Nat
  isrStubTable : Nat
  vectors : Nat

/-- The `n` bytes at `a` and the `k` bytes at `b` are different ones. -/
def Apart (a n b k : Nat) : Prop := a + n ≤ b ∨ b + k ≤ a

/-- The objects do not overlap. -/
structure Layout.Valid (l : Layout) : Prop where
  bound : l.idt + 4096 ≤ 2 ^ 64
  table : Apart l.idt 4096 l.isrStubTable 2048
  flags : Apart l.idt 4096 l.vectors 256
  stubs : Apart l.isrStubTable 2048 l.vectors 256

/-- The descriptor is an `idt_entry_t` of sixteen bytes. -/
def idtSetDescriptor (idt vector isr flags : Nat) (m : Mem) : Mem :=
  let descriptor := idt + 16 * vector
  let m := store m descriptor 2 (isr &&& 0xffff)
  let m := store m (descriptor + 2) 2 ((2 <<< 3) ||| 0)
  let m := store m (descriptor + 4) 1 0
  let m := store m (descriptor + 5) 1 flags
  let m := store m (descriptor + 6) 2 ((isr >>> 16) &&& 0xffff)
  let m := store m (descriptor + 8) 4 ((isr >>> 32) &&& 0xffffffff)
  store m (descriptor + 12) 4 0

structure IdtPtr where
  limit : BitVec 16
  base : BitVec 64

/-- The body of the loop of `idt_init`. -/
def setVector (l : Layout) (vector : Nat) (m : Mem) : Mem :=
  let m := idtSetDescriptor l.idt vector (load m (l.isrStubTable + 8 * vector) 8) 0x8e m
  store m (l.vectors + vector) 1 1

/-- `idtr` and the memory, as `lidt` finds them. -/
def idtInit (l : Layout) (m : Mem) : IdtPtr × Mem :=
  ({ base := BitVec.ofNat 64 l.idt, limit := BitVec.ofNat 16 (16 * 256 - 1) }, forLoop 256 (setVector l) m)

/-! The processor's side. -/

structure Gate where
  offset : Nat
  selector : Nat
  ist : Nat
  gateType : Nat
  dpl : Nat
  present : Bool
deriving DecidableEq

/-- The gate of a vector, if it lies within the limit. -/
def gateAt (idtr : IdtPtr) (m : Mem) (vector : Nat) : Option Gate :=
  let a := idtr.base.toNat + 16 * vector
  if 16 * vector + 15 ≤ idtr.limit.toNat then
    some {
      offset := load m a 2 + 2 ^ 16 * load m (a + 6) 2 + 2 ^ 32 * load m (a + 8) 4
      selector := load m (a + 2) 2
      ist := load m (a + 4) 1 % 8
      gateType := load m (a + 5) 1 % 16
      dpl := load m (a + 5) 1 / 32 % 4
      present := load m (a + 5) 1 / 128 = 1 }
  else none

/-- An interrupt gate of ring 0 into the 64-bit kernel code segment. -/
def kernelGate (isr : Nat) : Gate := ⟨isr, 0x10, 0, 0xe, 0, true⟩

/-- The bits of a code segment descriptor that decide how it runs. -/
structure CodeSegment where
  present : Bool
  dpl : BitVec 2
  executable : Bool
  long : Bool
  default32 : Bool
deriving DecidableEq

/-- The code segment that a selector names. -/
def codeSegment (gdt : Drivers.Gdt.Table) (selector : Nat) : Option CodeSegment :=
  if h : selector / 8 < 9 then
    let e := gdt ⟨selector / 8, h⟩
    some {
      present := e.accessByte.getLsbD 7
      dpl := e.accessByte.extractLsb' 5 2
      executable := e.accessByte.getLsbD 3
      long := e.flags.getLsbD 5
      default32 := e.flags.getLsbD 6 }
  else none

section Loop
variable {m : Mem} {idt vector isr : Nat}

/-- The sixteen bytes of a descriptor hold its gate. -/
structure DescriptorAt (m : Mem) (idt vector isr : Nat) : Prop where
  low : load m (idt + 16 * vector) 2 = isr % 2 ^ 16
  selector : load m (idt + 16 * vector + 2) 2 = 0x10
  ist : load m (idt + 16 * vector + 4) 1 = 0
  attributes : load m (idt + 16 * vector + 5) 1 = 0x8e
  mid : load m (idt + 16 * vector + 6) 2 = isr / 2 ^ 16 % 2 ^ 16
  high : load m (idt + 16 * vector + 8) 4 = isr / 2 ^ 32 % 2 ^ 32

theorem DescriptorAt.congr {m' : Mem} (h : DescriptorAt m idt vector isr)
    (hsame : ∀ x, idt + 16 * vector ≤ x → x < idt + 16 * vector + 16 → m' x = m x) :
    DescriptorAt m' idt vector isr := by
  have hload : ∀ k n, k + n ≤ 16 → load m' (idt + 16 * vector + k) n = load m (idt + 16 * vector + k) n :=
    fun k n hk => load_congr fun x hlo hhi => hsame x (by omega) (by omega)
  exact ⟨(hload 0 2 (by decide)).trans h.low, (hload 2 2 (by decide)).trans h.selector,
    (hload 4 1 (by decide)).trans h.ist, (hload 5 1 (by decide)).trans h.attributes,
    (hload 6 2 (by decide)).trans h.mid, (hload 8 4 (by decide)).trans h.high⟩

theorem idtSetDescriptor_onlyIn (m : Mem) (idt vector isr flags : Nat) :
    OnlyIn (fun x => idt + 16 * vector ≤ x ∧ x < idt + 16 * vector + 16) m
      (idtSetDescriptor idt vector isr flags m) := by
  intro x hx
  unfold idtSetDescriptor
  simp (disch := omega) only [store_off]

theorem idtSetDescriptor_at (m : Mem) (idt vector isr : Nat) :
    DescriptorAt (idtSetDescriptor idt vector isr 0x8e m) idt vector isr := by
  have hselector : (2 <<< 3) ||| 0 = 0x10 := rfl
  have hlow : isr &&& 0xffff = isr % 2 ^ 16 := Nat.and_two_pow_sub_one_eq_mod isr 16
  have hmid : (isr >>> 16) &&& 0xffff = isr / 2 ^ 16 % 2 ^ 16 := by
    rw [Nat.shiftRight_eq_div_pow]
    exact Nat.and_two_pow_sub_one_eq_mod _ 16
  have hhigh : (isr >>> 32) &&& 0xffffffff = isr / 2 ^ 32 % 2 ^ 32 := by
    rw [Nat.shiftRight_eq_div_pow]
    exact Nat.and_two_pow_sub_one_eq_mod _ 32
  have hmod₁ := Nat.mod_lt isr (show 0 < 2 ^ 16 by decide)
  have hmod₂ := Nat.mod_lt (isr / 2 ^ 16) (show 0 < 2 ^ 16 by decide)
  have hmod₃ := Nat.mod_lt (isr / 2 ^ 32) (show 0 < 2 ^ 32 by decide)
  unfold idtSetDescriptor
  rw [hselector, hlow, hmid, hhigh]
  refine ⟨?_, ?_, ?_, ?_, ?_, ?_⟩
  all_goals simp (disch := omega) only [load_store_off, load_store]

/-- After `n` turns of the loop the first `n` descriptors are those of the stubs. -/
theorem descriptors_set {l : Layout} (hl : l.Valid) (m : Mem) (n : Nat) (hn : n ≤ 256) :
    OnlyIn (fun x => l.idt ≤ x ∧ x < l.idt + 4096 ∨ l.vectors ≤ x ∧ x < l.vectors + 256) m
        (forLoop n (setVector l) m) ∧
      ∀ v < n, DescriptorAt (forLoop n (setVector l) m) l.idt v (load m (l.isrStubTable + 8 * v) 8) ∧
        load (forLoop n (setVector l) m) (l.vectors + v) 1 = 1 := by
  have htable := hl.table
  have hflags := hl.flags
  have hstubs := hl.stubs
  unfold Apart at htable hflags hstubs
  induction n with
  | zero => exact ⟨fun _ _ => rfl, fun v hv => absurd hv (Nat.not_lt_zero v)⟩
  | succ n ih =>
    obtain ⟨honly, hdone⟩ := ih (by omega)
    rw [forLoop_succ]
    generalize forLoop n (setVector l) m = m₁ at honly hdone ⊢
    have hisr : load m₁ (l.isrStubTable + 8 * n) 8 = load m (l.isrStubTable + 8 * n) 8 :=
      honly.load fun x _ _ => by omega
    have honly₂ := idtSetDescriptor_onlyIn m₁ l.idt n (load m (l.isrStubTable + 8 * n) 8) 0x8e
    have hset := idtSetDescriptor_at m₁ l.idt n (load m (l.isrStubTable + 8 * n) 8)
    rw [setVector, hisr]
    generalize idtSetDescriptor l.idt n _ 0x8e m₁ = m₂ at honly₂ hset ⊢
    have honly₃ : OnlyIn (fun x => x = l.vectors + n) m₂ (store m₂ (l.vectors + n) 1 1) :=
      onlyIn_store _ fun x _ _ => by omega
    refine ⟨?_, fun v hv => ?_⟩
    · exact (honly.trans (honly₂.mono fun x _ => by omega)).trans (honly₃.mono fun x _ => by omega)
    · rcases Nat.lt_succ_iff_lt_or_eq.mp hv with hlt | rfl
      · obtain ⟨hdesc, hflag⟩ := hdone v hlt
        refine ⟨hdesc.congr fun x _ _ => ?_, ?_⟩
        · rw [honly₃ x (by omega), honly₂ x (by omega)]
        · rw [honly₃.load fun x _ _ => by omega, honly₂.load fun x _ _ => by omega, hflag]
      · exact ⟨hset.congr fun x _ _ => honly₃ x (by omega), load_store _ _ (by decide)⟩

end Loop

/-- The segment behind selector `0x10`, wherever the task state segment is. -/
theorem codeSegment_kernel (tss : BitVec 64) :
    codeSegment (Drivers.Gdt.gdtInit tss Drivers.Gdt.zeroSegments).gdt 0x10 =
      some ⟨true, 0, true, true, false⟩ := by
  have hentry (h : 0x10 / 8 < 9) : (Drivers.Gdt.gdtInit tss Drivers.Gdt.zeroSegments).gdt ⟨0x10 / 8, h⟩ =
      ⟨0xffff, 0, 0, 0x9a, 0xaf, 0⟩ := rfl
  rw [codeSegment, dif_pos (by decide), hentry]
  rfl

theorem gateAt_congr {idtr : IdtPtr} {m m' : Mem} {n v : Nat} (hv : v < n)
    (h : ∀ x, idtr.base.toNat ≤ x → x < idtr.base.toNat + 16 * n → m' x = m x) :
    gateAt idtr m' v = gateAt idtr m v := by
  have hload : ∀ i k, i + k ≤ 16 →
      load m' (idtr.base.toNat + 16 * v + i) k = load m (idtr.base.toNat + 16 * v + i) k :=
    fun i k hk => load_congr fun x hlo hhi => h x (by omega) (by omega)
  have hzero := hload 0 2 (by decide)
  rw [Nat.add_zero] at hzero
  unfold gateAt
  dsimp only
  rw [hzero, hload 2 2 (by decide), hload 4 1 (by decide), hload 5 1 (by decide), hload 6 2 (by decide),
    hload 8 4 (by decide)]

theorem idtInit_mem (l : Layout) (m : Mem) : (idtInit l m).2 = forLoop 256 (setVector l) m := by
  unfold idtInit
  dsimp only

theorem idtInit_base {l : Layout} (hl : l.Valid) (m : Mem) : (idtInit l m).1.base.toNat = l.idt := by
  have hbound := hl.bound
  exact Nat.mod_eq_of_lt (by omega)

/-- Each vector has the gate of its stub. -/
theorem idtInit_gateAt {l : Layout} (hl : l.Valid) (m : Mem) {v : Nat} (hv : v < 256) :
    gateAt (idtInit l m).1 (idtInit l m).2 v = some (kernelGate (load m (l.isrStubTable + 8 * v) 8)) := by
  have h := ((descriptors_set hl m 256 (Nat.le_refl _)).2 v hv).1
  have hbase := idtInit_base hl m
  have hlimit : (idtInit l m).1.limit.toNat = 4095 := rfl
  have hisr := load_lt m (l.isrStubTable + 8 * v) 8
  rw [idtInit_mem]
  generalize forLoop 256 (setVector l) m = m' at h ⊢
  rw [gateAt, hbase, hlimit, if_pos (by omega), h.low, h.selector, h.ist, h.attributes, h.mid, h.high]
  generalize load m (l.isrStubTable + 8 * v) 8 = isr at hisr ⊢
  have hjoin : isr % 2 ^ 16 + 2 ^ 16 * (isr / 2 ^ 16 % 2 ^ 16) + 2 ^ 32 * (isr / 2 ^ 32 % 2 ^ 32) = isr := by
    omega
  rw [hjoin]
  rfl

/-- After `idt_init` every vector has the gate of its stub, whatever the stub's address; it leads
into the 64-bit code segment that `gdt_init` made, with the interrupts off. Nothing but the table and
`vectors` was written. -/
theorem idtInit_gates {l : Layout} (hl : l.Valid) (m : Mem) (tss : BitVec 64) :
    (∀ v < 256, gateAt (idtInit l m).1 (idtInit l m).2 v =
      some (kernelGate (load m (l.isrStubTable + 8 * v) 8)) ∧ load (idtInit l m).2 (l.vectors + v) 1 = 1) ∧
    gateAt (idtInit l m).1 (idtInit l m).2 256 = none ∧
    codeSegment (Drivers.Gdt.gdtInit tss Drivers.Gdt.zeroSegments).gdt 0x10 =
      some ⟨true, 0, true, true, false⟩ ∧
    OnlyIn (fun x => l.idt ≤ x ∧ x < l.idt + 4096 ∨ l.vectors ≤ x ∧ x < l.vectors + 256) m
      (idtInit l m).2 := by
  obtain ⟨honly, hdone⟩ := descriptors_set hl m 256 (Nat.le_refl _)
  rw [← idtInit_mem] at honly hdone
  have hlast : gateAt (idtInit l m).1 (idtInit l m).2 256 = none := by
    have hlimit : (idtInit l m).1.limit.toNat = 4095 := rfl
    rw [gateAt, hlimit]
    exact if_neg (by decide)
  exact ⟨fun v hv => ⟨idtInit_gateAt hl m hv, (hdone v hv).2⟩, hlast, codeSegment_kernel tss, honly⟩

def lowLayout : Layout := ⟨0, 4096, 8192⟩

theorem lowLayout_valid : lowLayout.Valid :=
  ⟨by decide, .inl (by decide), .inl (by decide), .inl (by decide)⟩

theorem idtInit_gates_low :
    gateAt (idtInit lowLayout fun _ => 7).1 (idtInit lowLayout fun _ => 7).2 0x21 =
      some (kernelGate (load (fun _ => 7) (4096 + 8 * 0x21) 8)) :=
  ((idtInit_gates lowLayout_valid (fun _ => 7) 0).1 0x21 (by decide)).1

end NyaOS.Interrupts
