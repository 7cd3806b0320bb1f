import NyaOS.Drivers.Isr
import NyaOS.Drivers.Keyboard
import NyaOS.Interrupts.Idt
import NyaOS.Library.StackCode
import NyaOS.Library.WordBits

/-! The way of an interrupt: the processor's frame, the stubs of `interrupts.S`, the call of
`exception_handler` and the way back through `iretq`. -/
namespace NyaOS.Interrupts
open Library.ByteMemory Library.StackCode
open Drivers.Isr (Registers exceptionHandler)
open Drivers.Keyboard (Globals handleKeyboard)

inductive Reg where
  | rax | rbx | rcx | rdx | rsi | rdi | rbp | r8 | r9 | r10 | r11 | r12 | r13 | r14 | r15
deriving DecidableEq

structure Cpu extends Machine Reg where
  rip : BitVec 64
  cs : BitVec 64
  rflags : BitVec 64
  ss : BitVec 64
  cr2 : BitVec 64

/-! The processor. -/

/-- The vectors for which the processor pushes an error code. -/
def pushesErrorCode (vector : Nat) : Bool := [8, 10, 11, 12, 13, 14, 17, 21, 29, 30].contains vector

/-- The words of an interrupt frame, in the order they are pushed. -/
def frameWords (vector : Nat) (errorCode : BitVec 64) (s : Cpu) : List (BitVec 64) :=
  [s.ss, s.rsp, s.rflags, s.cs, s.rip] ++ if pushesErrorCode vector then [errorCode] else []

/-- The stack pointer is rounded down to sixteen bytes before the frame is pushed. -/
def alignStack (s : Machine Reg) : Machine Reg := { s with rsp := s.rsp &&& ~~~0xf }

/-- Delivery through an interrupt gate, with no change of stack or privilege. An interrupt gate masks
`TF`, `IF`, `NT`, `RF` and `VM`. -/
def enterGate (gate : Gate) (vector : Nat) (errorCode : BitVec 64) (s : Cpu) : Cpu :=
  { exec ((frameWords vector errorCode s).map .pushImm) (alignStack s.toMachine) with
    rip := BitVec.ofNat 64 gate.offset
    cs := BitVec.ofNat 64 gate.selector
    rflags := s.rflags &&& ~~~0x34300
    ss := s.ss
    cr2 := s.cr2 }

/-- Without a present interrupt gate into a 64-bit code segment of ring 0 nothing is modelled. -/
def deliver (idtr : IdtPtr) (gdt : Drivers.Gdt.Table) (vector : Nat) (errorCode : BitVec 64) (s : Cpu) :
    Option Cpu := do
  let gate ← gateAt idtr s.mem vector
  if gate.present ∧ gate.gateType = 0xe ∧ gate.ist = 0 ∧
      codeSegment gdt gate.selector = some ⟨true, 0, true, true, false⟩ then
    some (enterGate gate vector errorCode s)
  else none

/-- The `i`-th eight-byte word from `p`. -/
def word (m : Mem) (p i : Nat) : BitVec 64 := BitVec.ofNat 64 (load m (p + 8 * i) 8)

def iretq (cr2 : BitVec 64) (s : Machine Reg) : Cpu where
  regs := s.regs
  mem := s.mem
  rip := word s.mem s.rsp.toNat 0
  cs := word s.mem s.rsp.toNat 1
  rflags := word s.mem s.rsp.toNat 2
  rsp := word s.mem s.rsp.toNat 3
  ss := word s.mem s.rsp.toNat 4
  cr2

/-! `interrupts.S` -/

/-- The vectors whose stub is an `isr_err_stub`. -/
def isErrStub (vector : Nat) : Bool := [8, 10, 11, 12, 13, 14, 17, 30].contains vector

def isrErrStub (vector : Nat) : List (Instr Reg) := [.pushImm (BitVec.ofNat 64 vector)]

def isrNoErrStub (vector : Nat) : List (Instr Reg) := [.pushImm 0, .pushImm (BitVec.ofNat 64 vector)]

def isrStub (vector : Nat) : List (Instr Reg) :=
  if isErrStub vector then isrErrStub vector else isrNoErrStub vector

def savedRegs : List Reg :=
  [.rax, .rbx, .rcx, .rdx, .rsi, .rdi, .rbp, .r8, .r9, .r10, .r11, .r12, .r13, .r14, .r15]

def restoredRegs : List Reg :=
  [.r15, .r14, .r13, .r12, .r11, .r10, .r9, .r8, .rbp, .rdi, .rsi, .rdx, .rcx, .rbx, .rax]

/-- `isr_common` up to the call. -/
def isrEnter : List (Instr Reg) := savedRegs.map .push ++ [.movRsp .rdi]

/-- `isr_common` from the call to `iretq`. -/
def isrLeave : List (Instr Reg) := restoredRegs.map .pop ++ [.addRsp 16]

/-! `exception_handler` -/

/-- `registers_t`, with the saved registers in one field. -/
structure RegistersT where
  regs : Reg → BitVec 64
  vector : BitVec 64
  errorCode : BitVec 64
  rip : BitVec 64
  cs : BitVec 64
  rflags : BitVec 64
  rsp : BitVec 64
  ss : BitVec 64

/-- The place of a saved register in `registers_t`. -/
def Reg.slot : Reg → Nat
  | .r15 => 0 | .r14 => 1 | .r13 => 2 | .r12 => 3 | .r11 => 4 | .r10 => 5 | .r9 => 6 | .r8 => 7
  | .rbp => 8 | .rdi => 9 | .rsi => 10 | .rdx => 11 | .rcx => 12 | .rbx => 13 | .rax => 14

def registersAt (m : Mem) (p : Nat) : RegistersT where
  regs r := word m p r.slot
  vector := word m p 15
  errorCode := word m p 16
  rip := word m p 17
  cs := word m p 18
  rflags := word m p 19
  rsp := word m p 20
  ss := word m p 21

def RegistersT.shown (regs : RegistersT) : Registers where
  rbx := regs.regs .rbx
  rax := regs.regs .rax
  vector := regs.vector
  errorCode := regs.errorCode
  rip := regs.rip
  cs := regs.cs
  rflags := regs.rflags
  rsp := regs.rsp

/-- What `exception_handler` does to the keyboard driver's globals, with the byte that `recv` reads;
nothing if it halts. `handle_serial` is empty. -/
def dispatch (cr2 : BitVec 64) (regs : Registers) (scancode : UInt8) (kb : Globals) : Option Globals :=
  match exceptionHandler cr2 regs with
  | .ok (.irq keyboard _) => some (if keyboard then handleKeyboard kb scancode else kb)
  | .ok .timer => some kb
  | _ => none

/-- The tables, the code behind the gates and the compiled `exception_handler`, as a function of `cr2`,
the waiting byte, the machine before the call and the driver's globals. -/
structure Kernel where
  idtr : IdtPtr
  gdt : Drivers.Gdt.Table
  text : BitVec 64 → List (Instr Reg)
  handler : BitVec 64 → UInt8 → Machine Reg → Globals → Option (Machine Reg × Globals)

/-- The machine at the call of `exception_handler`. -/
def enter (k : Kernel) (s : Cpu) : Machine Reg := exec (k.text s.rip ++ isrEnter) s.toMachine

/-- One interrupt, from delivery to `iretq`. -/
def interrupt (k : Kernel) (vector : Nat) (errorCode : BitVec 64) (scancode : UInt8) (s : Cpu) (kb : Globals) :
    Option (Cpu × Globals) := do
  let delivered ← deliver k.idtr k.gdt vector errorCode s
  let (returned, kb) ← k.handler delivered.cr2 scancode (enter k delivered) kb
  return (iretq delivered.cr2 (exec isrLeave returned), kb)

/-- The gates lead to the stubs. -/
structure Kernel.Wired (k : Kernel) (m : Mem) : Prop where
  segment : codeSegment k.gdt 0x10 = some ⟨true, 0, true, true, false⟩
  gates : ∀ v < 256, ∃ isr < 2 ^ 64, gateAt k.idtr m v = some (kernelGate isr) ∧
    k.text (BitVec.ofNat 64 isr) = isrStub v

/-! What lies on the stack at the call. -/

/-- The words a stub pushes. -/
def stubWords (vector : Nat) : List (BitVec 64) :=
  if isErrStub vector then [BitVec.ofNat 64 vector] else [0, BitVec.ofNat 64 vector]

/-- All words from the stack pointer up. -/
def entryWords (vector : Nat) (errorCode : BitVec 64) (s : Cpu) : List (BitVec 64) :=
  (savedRegs.map s.regs).reverse ++ ((stubWords vector).reverse ++ (frameWords vector errorCode s).reverse)

section Entry
variable {k : Kernel} {vector : Nat} {errorCode : BitVec 64} {s d : Cpu}

theorem isrStub_eq (vector : Nat) : isrStub vector = (stubWords vector).map .pushImm := by
  unfold isrStub stubWords
  split <;> rfl

theorem alignStack_rsp (s : Machine Reg) : (alignStack s).rsp.toNat = s.rsp.toNat / 16 * 16 :=
  Library.WordBits.toNat_and_not_lowMask s.rsp (show 4 ≤ 64 by decide)

theorem frameWords_length (vector : Nat) (errorCode : BitVec 64) (s : Cpu) :
    (frameWords vector errorCode s).length = if pushesErrorCode vector then 6 else 5 := by
  unfold frameWords
  split <;> rfl

theorem stubWords_length (vector : Nat) : (stubWords vector).length = if isErrStub vector then 1 else 2 := by
  unfold stubWords
  split <;> rfl

/-- Delivery goes to the stub of the vector, with the frame on the stack. -/
theorem deliver_pushed (errorCode : BitVec 64) (hk : k.Wired s.mem) (hv : vector < 256)
    (hroom : 200 ≤ s.rsp.toNat) :
    ∃ d, deliver k.idtr k.gdt vector errorCode s = some d ∧ k.text d.rip = isrStub vector ∧ d.cr2 = s.cr2 ∧
      Pushed (frameWords vector errorCode s).reverse (alignStack s.toMachine) d.toMachine := by
  obtain ⟨isr, hisr, hgate, htext⟩ := hk.gates vector hv
  have hlength := frameWords_length vector errorCode s
  have halign := alignStack_rsp s.toMachine
  have hpush : Pushed (frameWords vector errorCode s).reverse (alignStack s.toMachine)
      (exec ((frameWords vector errorCode s).map .pushImm) (alignStack s.toMachine)) :=
    pushed_imms _ (by split at hlength <;> omega)
  refine ⟨enterGate (kernelGate isr) vector errorCode s, ?_, htext, rfl, hpush⟩
  rw [deliver, hgate]
  exact if_pos ⟨rfl, rfl, rfl, hk.segment⟩

/-- The machine at the call. -/
theorem enter_pushed (htext : k.text d.rip = isrStub vector) (hregs : d.regs = s.regs)
    (hroom : 136 ≤ d.rsp.toNat) :
    ∃ c, Pushed ((savedRegs.map s.regs).reverse ++ (stubWords vector).reverse) d.toMachine c ∧
      enter k d = { c with regs := Function.update s.regs .rdi c.rsp } := by
  have hlength := stubWords_length vector
  have hstub : Pushed (stubWords vector).reverse d.toMachine
      (exec ((stubWords vector).map .pushImm) d.toMachine) :=
    pushed_imms _ (by split at hlength <;> omega)
  have hrsp := hstub.rsp
  rw [List.length_reverse] at hrsp
  have hsaved := pushed_regs (s := exec ((stubWords vector).map .pushImm) d.toMachine) savedRegs (by
    change 8 * 15 ≤ _
    split at hlength <;> omega)
  rw [hstub.regs, hregs] at hsaved
  have hall := hstub.trans hsaved
  refine ⟨_, hall, ?_⟩
  rw [enter, htext, isrStub_eq, isrEnter, exec_append, exec_append, ← hregs, ← hall.regs]
  rfl

/-- The machine that `exception_handler` is called in. -/
theorem called_pushed (errorCode : BitVec 64) (hk : k.Wired s.mem) (hv : vector < 256)
    (hroom : 200 ≤ s.rsp.toNat) :
    ∃ d c, deliver k.idtr k.gdt vector errorCode s = some d ∧ d.cr2 = s.cr2 ∧
      Pushed (entryWords vector errorCode s) (alignStack s.toMachine) c ∧
      enter k d = { c with regs := Function.update s.regs .rdi c.rsp } := by
  obtain ⟨d, hd, htext, hcr2, hframe⟩ := deliver_pushed errorCode hk hv hroom
  have hlength := frameWords_length vector errorCode s
  have halign := alignStack_rsp s.toMachine
  have hrsp := hframe.rsp
  rw [List.length_reverse] at hrsp
  obtain ⟨c, hc, henter⟩ := enter_pushed htext hframe.regs (by split at hlength <;> omega)
  refine ⟨d, c, hd, hcr2, ?_, henter⟩
  have hall := hframe.trans hc
  rwa [List.append_assoc] at hall

/-- Every stub with an error code is one for which the processor pushes it. Of the other vectors the
processor pushes one for two. -/
theorem stub_cases (vector : Nat) :
    isErrStub vector = pushesErrorCode vector ∧ ¬ (vector = 21 ∨ vector = 29) ∨
      isErrStub vector = false ∧ pushesErrorCode vector = true ∧ (vector = 21 ∨ vector = 29) := by
  by_cases hv : vector = 21 ∨ vector = 29
  · refine .inr ⟨?_, ?_, hv⟩ <;> rcases hv with rfl | rfl <;> rfl
  · refine .inl ⟨?_, hv⟩
    rw [Bool.eq_iff_iff]
    simp only [isErrStub, pushesErrorCode, List.contains_eq_mem, decide_eq_true_eq, List.mem_cons,
      List.not_mem_nil, or_false]
    omega

/-- The interrupted context, as `registers_t` names it. -/
def contextFrame (vector : Nat) (errorCode : BitVec 64) (s : Cpu) : RegistersT where
  regs := s.regs
  vector := BitVec.ofNat 64 vector
  errorCode := if isErrStub vector then errorCode else 0
  rip := s.rip
  cs := s.cs
  rflags := s.rflags
  rsp := s.rsp
  ss := s.ss

/-- The same with a second error code, so that the fields behind `error_code` are one word late. -/
def shiftedFrame (vector : Nat) (errorCode : BitVec 64) (s : Cpu) : RegistersT where
  regs := s.regs
  vector := BitVec.ofNat 64 vector
  errorCode := 0
  rip := errorCode
  cs := s.rip
  rflags := s.cs
  rsp := s.rflags
  ss := s.rsp

theorem Reg.slot_lt (r : Reg) : r.slot < 15 := by
  cases r <;> decide

/-- The fields of `registers_t` are the words on the stack. -/
theorem registersAt_words {m : Mem} {p : Nat} {ws : List (BitVec 64)} (h : WordsAt m p ws)
    (hlength : 22 ≤ ws.length) :
    registersAt m p = ⟨fun r => ws.getD r.slot 0, ws.getD 15 0, ws.getD 16 0, ws.getD 17 0, ws.getD 18 0,
      ws.getD 19 0, ws.getD 20 0, ws.getD 21 0⟩ := by
  have hword : ∀ i < 22, word m p i = ws.getD i 0 := by
    intro i hi
    rw [word, h.load_getD (by omega), BitVec.ofNat_toNat, BitVec.setWidth_eq]
  unfold registersAt
  rw [hword 15 (by decide), hword 16 (by decide), hword 17 (by decide), hword 18 (by decide),
    hword 19 (by decide), hword 20 (by decide), hword 21 (by decide)]
  congr 1
  funext r
  exact hword r.slot (Nat.lt_trans r.slot_lt (by decide))

theorem entryWords_length (vector : Nat) (errorCode : BitVec 64) (s : Cpu) :
    (entryWords vector errorCode s).length = if vector = 21 ∨ vector = 29 then 23 else 22 := by
  have hframe := frameWords_length vector errorCode s
  have hstub := stubWords_length vector
  have hsaved : (savedRegs.map s.regs).length = 15 := rfl
  rw [entryWords, List.length_append, List.length_append, List.length_reverse, List.length_reverse,
    List.length_reverse, hframe, hstub, hsaved]
  obtain ⟨heq, hv⟩ | ⟨herr, hpush, hv⟩ := stub_cases vector
  · rw [if_neg hv, heq]
    split <;> rfl
  · rw [if_pos hv, herr, hpush]
    rfl

theorem registersAt_entry {m : Mem} {p : Nat} (h : WordsAt m p (entryWords vector errorCode s)) :
    registersAt m p = if vector = 21 ∨ vector = 29 then shiftedFrame vector errorCode s
      else contextFrame vector errorCode s := by
  have hlength : 22 ≤ (entryWords vector errorCode s).length := by
    rw [entryWords_length]
    split <;> decide
  rw [registersAt_words h hlength, entryWords, stubWords, frameWords]
  obtain ⟨heq, hv⟩ | ⟨hstub, hpush, hv⟩ := stub_cases vector
  · rw [if_neg hv, contextFrame, ← heq]
    cases isErrStub vector <;> congr 1 <;> funext r <;> cases r <;> rfl
  · rw [if_pos hv, shiftedFrame, hstub, hpush]
    congr 1
    funext r
    cases r <;> rfl

/-- An interrupt's vector is a device's or the timer's. -/
def IsIrq (vector : Nat) : Prop := 0x20 ≤ vector ∧ vector ≤ 0x30

instance (vector : Nat) : Decidable (IsIrq vector) := inferInstanceAs (Decidable (_ ∧ _))

theorem isInterrupt_iff {regs : Registers} (hv : vector < 256) (h : regs.vector = BitVec.ofNat 64 vector) :
    regs.IsInterrupt ↔ IsIrq vector := by
  have hlt : vector < 2 ^ 64 := Nat.lt_trans hv (by decide)
  rw [Registers.IsInterrupt, h, BitVec.le_def, BitVec.le_def, ← BitVec.toNat_inj, BitVec.toNat_ofNat,
    Nat.mod_eq_of_lt hlt, IsIrq]
  change 32 ≤ vector ∧ vector ≤ 47 ∨ vector = 48 ↔ _
  omega

theorem entry_vector {m : Mem} {p : Nat} (h : WordsAt m p (entryWords vector errorCode s)) :
    (registersAt m p).shown.vector = BitVec.ofNat 64 vector := by
  rw [registersAt_entry h]
  split <;> rfl

theorem word_add (m : Mem) (p j i : Nat) : word m (p + 8 * j) i = word m p (j + i) := by
  unfold word
  exact congrArg (fun a => BitVec.ofNat 64 (load m a 8)) (by omega)

/-- From the words of an interrupt `iretq` comes back to its context. -/
theorem leave_restores {r : Machine Reg} (h : WordsAt r.mem r.rsp.toNat (entryWords vector errorCode s))
    (hv : ¬ (vector = 21 ∨ vector = 29)) (hroom : r.rsp.toNat + 176 < 2 ^ 64) :
    iretq s.cr2 (exec isrLeave r) = { s with mem := r.mem } := by
  have hall : ∀ q : Reg, q ∈ restoredRegs := by
    intro q
    cases q <;> decide
  obtain ⟨hmem, hrsp, hregs⟩ := exec_pops restoredRegs s.regs
    ((stubWords vector).reverse ++ (frameWords vector errorCode s).reverse) h (by
      change _ + 8 * 15 < _
      omega)
  have hregs' : (exec (restoredRegs.map .pop) r).regs = s.regs :=
    funext fun q => (hregs q).trans (if_pos (hall q))
  have hend : (exec isrLeave r).rsp.toNat = r.rsp.toNat + 8 * 17 := by
    rw [isrLeave, exec_append]
    change ((exec (restoredRegs.map .pop) r).rsp + 16).toNat = _
    rw [BitVec.toNat_add_of_lt]
    · rw [hrsp]
      rfl
    · rw [hrsp]
      change r.rsp.toNat + 8 * 15 + 16 < _
      omega
  have hfields := registersAt_entry h
  rw [if_neg hv] at hfields
  have hmem' : (exec isrLeave r).mem = r.mem := by
    rw [isrLeave, exec_append]
    exact hmem
  have hsame : (exec isrLeave r).regs = s.regs := by
    rw [isrLeave, exec_append]
    exact hregs'
  have hrip : word r.mem r.rsp.toNat 17 = s.rip := congrArg RegistersT.rip hfields
  have hcs : word r.mem r.rsp.toNat 18 = s.cs := congrArg RegistersT.cs hfields
  have hrflags : word r.mem r.rsp.toNat 19 = s.rflags := congrArg RegistersT.rflags hfields
  have hsp : word r.mem r.rsp.toNat 20 = s.rsp := congrArg RegistersT.rsp hfields
  have hss : word r.mem r.rsp.toNat 21 = s.ss := congrArg RegistersT.ss hfields
  rw [iretq, hend, hmem', hsame]
  simp only [word_add, hrip, hcs, hrflags, hsp, hss]

end Entry

/-- The compiled `exception_handler`: it does to the driver what the source does, and as a C function it
gives the stack pointer back and writes only below it, down to `lo`, and the objects in `W`. -/
structure Compiled (lo : Nat) (W : Nat → Prop)
    (handler : BitVec 64 → UInt8 → Machine Reg → Globals → Option (Machine Reg × Globals)) : Prop where
  meaning : ∀ cr2 scancode s kb, (handler cr2 scancode s kb).map Prod.snd =
    dispatch cr2 (registersAt s.mem (s.regs .rdi).toNat).shown scancode kb
  stack : ∀ {cr2 scancode s kb r}, handler cr2 scancode s kb = some r → r.1.rsp = s.rsp
  frame : ∀ {cr2 scancode s kb r}, handler cr2 scancode s kb = some r →
    ∀ x, x < lo ∨ s.rsp.toNat ≤ x → ¬ W x → r.1.mem x = s.mem x

/-- The two contexts are the same for a program: all registers, and the memory that is neither below the
stack pointer, down to `lo`, nor in `W`. -/
structure Agrees (lo : Nat) (W : Nat → Prop) (s t : Cpu) : Prop where
  regs : t.regs = s.regs
  rsp : t.rsp = s.rsp
  rip : t.rip = s.rip
  cs : t.cs = s.cs
  rflags : t.rflags = s.rflags
  ss : t.ss = s.ss
  cr2 : t.cr2 = s.cr2
  mem : ∀ x, x < lo ∨ s.rsp.toNat ≤ x → ¬ W x → t.mem x = s.mem x

section Call
variable {k : Kernel} {lo vector : Nat} {W : Nat → Prop} {s : Cpu}

theorem dispatch_irq (cr2 : BitVec 64) {regs : Registers} (hv : vector < 256) (hirq : IsIrq vector)
    (h : regs.vector = BitVec.ofNat 64 vector) (scancode : UInt8) (kb : Globals) :
    dispatch cr2 regs scancode kb = some (if vector = 0x21 then handleKeyboard kb scancode else kb) := by
  have htoNat : regs.vector.toNat = vector := by
    rw [h, BitVec.toNat_ofNat, Nat.mod_eq_of_lt (Nat.lt_trans hv (by decide))]
  have hdevice : 0x20 ≤ regs.vector ∧ regs.vector ≤ 0x2f ↔ vector ≠ 0x30 := by
    rw [BitVec.le_def, BitVec.le_def, htoNat]
    change 32 ≤ vector ∧ vector ≤ 47 ↔ _
    unfold IsIrq at hirq
    omega
  have hkeyboard : regs.vector = 0x21 ↔ vector = 0x21 := by
    rw [← BitVec.toNat_inj, htoNat]
    rfl
  have htimer : regs.vector = 0x30 ↔ vector = 0x30 := by
    rw [← BitVec.toNat_inj, htoNat]
    rfl
  rw [dispatch, exceptionHandler]
  by_cases hv' : vector = 0x30
  · rw [if_neg (hdevice.not.mpr (not_not.mpr hv')), if_pos (htimer.mpr hv'), if_neg (by omega)]
    rfl
  · rw [if_pos (hdevice.mpr hv')]
    change some (if decide (regs.vector = 0x21) = true then _ else _) = _
    rw [if_congr (decide_eq_true_iff.trans hkeyboard) rfl rfl]

theorem dispatch_halt (cr2 : BitVec 64) {regs : Registers} (hv : vector < 256) (hirq : ¬ IsIrq vector)
    (h : regs.vector = BitVec.ofNat 64 vector) (scancode : UInt8) (kb : Globals) :
    dispatch cr2 regs scancode kb = none := by
  rw [dispatch, Drivers.Isr.exceptionHandler_dump cr2 ((isInterrupt_iff hv h).not.mpr hirq)]

/-- An interrupt of a device or of the timer comes back to the context it left, with the scan code taken
if it is the keyboard's; any other vector does not come back. -/
theorem interrupt_cases (hk : k.Wired s.mem) (hh : Compiled lo W k.handler) (hv : vector < 256)
    (hroom : lo + 200 ≤ s.rsp.toNat) (hstack : ∀ x, lo ≤ x → x < s.rsp.toNat → ¬ W x)
    (errorCode : BitVec 64) (scancode : UInt8) (kb : Globals) :
    (IsIrq vector → ∃ t, interrupt k vector errorCode scancode s kb =
      some (t, if vector = 0x21 then handleKeyboard kb scancode else kb) ∧ Agrees lo W s t) ∧
    (¬ IsIrq vector → interrupt k vector errorCode scancode s kb = none) := by
  obtain ⟨d, c, hd, hcr2, hpushed, henter⟩ :=
    called_pushed errorCode hk hv (Nat.le_trans (Nat.le_add_left _ _) hroom)
  have halign := alignStack_rsp s.toMachine
  have hrsp := hpushed.rsp
  have hlength := entryWords_length vector errorCode s
  have hmeaning := hh.meaning d.cr2 scancode (enter k d) kb
  have hrdi : (enter k d).regs .rdi = c.rsp := by
    rw [henter]
    exact Function.update_self Reg.rdi c.rsp s.regs
  have hmem : (enter k d).mem = c.mem := by rw [henter]
  have hvector := entry_vector hpushed.words
  rw [hrdi, hmem] at hmeaning
  constructor
  · intro hirq
    have hne : ¬ (vector = 21 ∨ vector = 29) := by
      unfold IsIrq at hirq
      omega
    rw [if_neg hne] at hlength
    rw [dispatch_irq d.cr2 hv hirq hvector] at hmeaning
    obtain ⟨⟨r, kb'⟩, hr, rfl⟩ := Option.map_eq_some_iff.mp hmeaning
    have hsame : r.rsp = c.rsp := (hh.stack hr).trans (by rw [henter])
    have hframe : ∀ x, x < lo ∨ c.rsp.toNat ≤ x → ¬ W x → r.mem x = c.mem x := by
      have h := hh.frame hr
      rwa [henter] at h
    have hwords : WordsAt r.mem r.rsp.toNat (entryWords vector errorCode s) := by
      rw [hsame]
      exact hpushed.words.congr fun x hlo hhi => hframe x (.inr hlo) (hstack x (by omega) (by omega))
    have hback := leave_restores (s := s) hwords hne (by
      rw [hsame]
      have := s.rsp.isLt
      omega)
    refine ⟨{ s with mem := r.mem }, ?_, ⟨rfl, rfl, rfl, rfl, rfl, rfl, rfl, fun x hx hW => ?_⟩⟩
    · rw [interrupt, hd]
      change (k.handler d.cr2 scancode (enter k d) kb >>= _) = _
      rw [hr]
      change some (iretq d.cr2 (exec isrLeave r), _) = _
      rw [hcr2, hback]
    · change r.mem x = s.mem x
      rw [hframe x (by omega) hW, hpushed.frame x (by omega)]
      rfl
  · intro hirq
    rw [dispatch_halt d.cr2 hv hirq hvector] at hmeaning
    rw [interrupt, hd]
    change (k.handler d.cr2 scancode (enter k d) kb >>= _) = _
    rw [Option.map_eq_none_iff.mp hmeaning]
    rfl

end Call

/-- `gdt_init` and `idt_init` wire the kernel, and it stays wired while the table is not written. -/
theorem idtInit_wired {l : Layout} (hl : l.Valid) {m m' : Mem} {tss : BitVec 64} {k : Kernel}
    (hgdt : k.gdt = (Drivers.Gdt.gdtInit tss Drivers.Gdt.zeroSegments).gdt) (hidtr : k.idtr = (idtInit l m).1)
    (hlinked : ∀ v < 256, k.text (BitVec.ofNat 64 (load m (l.isrStubTable + 8 * v) 8)) = isrStub v)
    (hsame : ∀ x, l.idt ≤ x → x < l.idt + 4096 → m' x = (idtInit l m).2 x) : k.Wired m' where
  segment := hgdt ▸ codeSegment_kernel tss
  gates v hv := by
    refine ⟨_, load_lt m (l.isrStubTable + 8 * v) 8, ?_, hlinked v hv⟩
    rw [hidtr, ← idtInit_gateAt hl m hv]
    exact gateAt_congr hv fun x hlo hhi =>
      hsame x (idtInit_base hl m ▸ hlo) (idtInit_base hl m ▸ hhi)

/-- Every one of the stubs calls `exception_handler` with the address of a `registers_t` and the stack
aligned, and the record is the interrupted context, whatever it is; but for vectors 21 and 29 the stub
pushes a second error code, the record is one word off and the stack is not aligned. An exception that is
not one of these is dumped with the values of its own context. -/
theorem stubs_frame {k : Kernel} {s : Cpu} (hk : k.Wired s.mem) {vector : Nat} (hv : vector < 256)
    (hroom : 200 ≤ s.rsp.toNat) (errorCode : BitVec 64) :
    ∃ d, deliver k.idtr k.gdt vector errorCode s = some d ∧
      registersAt (enter k d).mem ((enter k d).regs .rdi).toNat =
        (if vector = 21 ∨ vector = 29 then shiftedFrame vector errorCode s
          else contextFrame vector errorCode s) ∧
      ((enter k d).rsp.toNat % 16 = 0 ↔ ¬ (vector = 21 ∨ vector = 29)) ∧
      (∀ x, s.rsp.toNat ≤ x → (enter k d).mem x = s.mem x) ∧
      (¬ (vector = 21 ∨ vector = 29) → ¬ IsIrq vector →
        exceptionHandler s.cr2 (registersAt (enter k d).mem ((enter k d).regs .rdi).toNat).shown =
          .ok (.halt (Library.Interleave.interleave Drivers.Isr.dumpTexts
            (contextFrame vector errorCode s).shown.dumpWords
            ('\n' :: Drivers.Isr.faultText s.cr2 (contextFrame vector errorCode s).shown)))) := by
  obtain ⟨d, c, hd, -, hpushed, henter⟩ := called_pushed errorCode hk hv hroom
  have halign := alignStack_rsp s.toMachine
  have hrsp := hpushed.rsp
  rw [entryWords_length] at hrsp
  have hfields := registersAt_entry hpushed.words
  have hrdi : (enter k d).regs .rdi = c.rsp := by
    rw [henter]
    exact Function.update_self Reg.rdi c.rsp s.regs
  have hmem : (enter k d).mem = c.mem := by rw [henter]
  have hsp : (enter k d).rsp = c.rsp := by rw [henter]
  refine ⟨d, hd, ?_⟩
  rw [hrdi, hmem, hsp, hfields]
  refine ⟨rfl, ?_, fun x hx => ?_, fun hne hirq => ?_⟩
  · split at hrsp <;> omega
  · rw [hpushed.frame x (by omega)]
    rfl
  · rw [if_neg hne]
    exact Drivers.Isr.exceptionHandler_dump s.cr2 ((isInterrupt_iff hv rfl).not.mpr hirq)

/-! A kernel whose stubs stand at the addresses `0` to `255`. -/

def tableMem : Mem := fun x => if x % 8 = 0 then BitVec.ofNat 8 ((x - 4096) / 8) else 0

theorem load_tableMem {v : Nat} (hv : v < 256) : load tableMem (4096 + 8 * v) 8 = v := by
  refine (load_congr fun x hlo hhi => ?_).trans (load_store (n := 8) tableMem (4096 + 8 * v) (by omega))
  rw [store, if_pos ⟨hlo, hhi⟩, tableMem]
  by_cases hx : x = 4096 + 8 * v
  · rw [if_pos (by omega), hx, Nat.sub_self, Nat.pow_zero, Nat.div_one]
    exact congrArg (BitVec.ofNat 8) (by omega)
  · have hpow : 256 ^ 1 ≤ 256 ^ (x - (4096 + 8 * v)) := Nat.pow_le_pow_right (by decide) (by omega)
    rw [if_neg (by omega), Nat.div_eq_of_lt (by omega)]
    rfl

def lowKernel : Kernel where
  idtr := (idtInit lowLayout tableMem).1
  gdt := (Drivers.Gdt.gdtInit 0 Drivers.Gdt.zeroSegments).gdt
  text a := isrStub a.toNat
  handler cr2 scancode s kb :=
    (dispatch cr2 (registersAt s.mem (s.regs .rdi).toNat).shown scancode kb).map fun kb => (s, kb)

@[irreducible] def lowMem : Mem := (idtInit lowLayout tableMem).2

theorem lowKernel_linked {v : Nat} (hv : v < 256) :
    lowKernel.text (BitVec.ofNat 64 (load tableMem (lowLayout.isrStubTable + 8 * v) 8)) = isrStub v := by
  change isrStub (BitVec.ofNat 64 (load tableMem (4096 + 8 * v) 8)).toNat = _
  rw [load_tableMem hv, BitVec.toNat_ofNat, Nat.mod_eq_of_lt (by omega)]

theorem lowKernel_wired : lowKernel.Wired lowMem := by
  have hgdt : lowKernel.gdt = (Drivers.Gdt.gdtInit 0 Drivers.Gdt.zeroSegments).gdt := rfl
  have hidtr : lowKernel.idtr = (idtInit lowLayout tableMem).1 := rfl
  delta lowMem
  exact idtInit_wired lowLayout_valid hgdt hidtr (fun v hv => lowKernel_linked hv) fun _ _ _ => rfl

theorem lowKernel_compiled (lo : Nat) (W : Nat → Prop) : Compiled lo W lowKernel.handler where
  meaning cr2 scancode s kb := by
    change ((dispatch _ _ _ _).map _).map _ = _
    rw [Option.map_map]
    exact Option.map_id'
  stack h := by
    obtain ⟨kb, -, rfl⟩ := Option.map_eq_some_iff.mp h
    rfl
  frame h := by
    obtain ⟨kb, -, rfl⟩ := Option.map_eq_some_iff.mp h
    exact fun _ _ _ => rfl

/-- A context with room on its stack and the interrupts on. -/
def lowCpu : Cpu where
  regs _ := 5
  rsp := 0x10000
  mem := lowMem
  rip := 0x9000
  cs := 0x10
  rflags := 0x202
  ss := 0x18
  cr2 := 0

theorem stubs_frame_double_fault :
    ∃ d, deliver lowKernel.idtr lowKernel.gdt 8 3 lowCpu = some d ∧
      registersAt (enter lowKernel d).mem ((enter lowKernel d).regs .rdi).toNat = contextFrame 8 3 lowCpu := by
  obtain ⟨d, hd, hframe, -⟩ := stubs_frame (s := lowCpu) lowKernel_wired (show 8 < 256 by decide) (by decide) 3
  exact ⟨d, hd, hframe⟩


end NyaOS.Interrupts
