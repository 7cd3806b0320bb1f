import NyaOS.Interrupts.Stubs

/-! A program that is interrupted between any two of its instructions. -/
namespace NyaOS.Interrupts
open Library.ByteMemory
open Drivers.Keyboard (Globals handleKeyboard feed)

inductive Turn where
  | instruction
  | irq (vector : Fin 256) (scancode : UInt8)

/-- `IF` is set. -/
def Cpu.interruptible (s : Cpu) : Bool := s.rflags.getLsbD 9

/-- The program takes a step, or the processor takes an interrupt. -/
def turn (k : Kernel) (step : Cpu → Cpu) : Cpu × Globals → Turn → Option (Cpu × Globals)
  | (s, kb), .instruction => some (step s, kb)
  | (s, kb), .irq vector scancode =>
    if s.interruptible then interrupt k vector 0 scancode s kb else none

def run (k : Kernel) (step : Cpu → Cpu) (s : Cpu × Globals) (turns : List Turn) : Option (Cpu × Globals) :=
  turns.foldlM (turn k step) s

/-- The program by itself. -/
def alone (step : Cpu → Cpu) : Cpu → List Turn → Cpu
  | s, [] => s
  | s, .instruction :: turns => alone step (step s) turns
  | s, .irq _ _ :: turns => alone step s turns

/-- The scan codes that come with vector `0x21`. -/
def scancodes : List Turn → List UInt8
  | [] => []
  | .instruction :: turns => scancodes turns
  | .irq vector scancode :: turns =>
    if vector.val = 0x21 then scancode :: scancodes turns else scancodes turns

/-- Each interrupt is a device's or the timer's and finds the program, had it run by itself, with the
interrupts on. -/
def Deliverable (step : Cpu → Cpu) : Cpu → List Turn → Prop
  | _, [] => True
  | s, .instruction :: turns => Deliverable step (step s) turns
  | s, .irq vector _ :: turns => s.interruptible ∧ IsIrq vector ∧ Deliverable step s turns

/-- The stack goes from `lo` to `hi`; the handler's objects and the descriptor table are elsewhere. -/
structure Placed (k : Kernel) (lo hi : Nat) (W : Nat → Prop) : Prop where
  stack : ∀ x, lo ≤ x → x < hi → ¬ W x
  table : ∀ x, k.idtr.base.toNat ≤ x → x < k.idtr.base.toNat + 16 * 256 → ¬ W x ∧ (x < lo ∨ hi ≤ x)

/-- A program without a red zone: in the states `I` that it meets, what it does depends on the live part of
its context, and it leaves room on the stack and the kernel wired. -/
structure Program (k : Kernel) (lo hi : Nat) (W : Nat → Prop) (I : Cpu → Prop) (step : Cpu → Cpu) : Prop where
  next : ∀ {s}, I s → I (step s)
  live : ∀ {s t}, I s → Agrees lo W s t → Agrees lo W (step s) (step t)
  low : ∀ {s}, I s → lo + 200 ≤ s.rsp.toNat
  high : ∀ {s}, I s → s.rsp.toNat ≤ hi
  wired : ∀ {s}, I s → k.Wired s.mem

section Run
variable {k : Kernel} {lo hi : Nat} {W : Nat → Prop} {I : Cpu → Prop} {step : Cpu → Cpu}
  {s t u : Cpu} {kb : Globals}

theorem Agrees.refl (s : Cpu) : Agrees lo W s s := ⟨rfl, rfl, rfl, rfl, rfl, rfl, rfl, fun _ _ _ => rfl⟩

theorem Agrees.trans (h : Agrees lo W s t) (h' : Agrees lo W t u) : Agrees lo W s u where
  regs := h'.regs.trans h.regs
  rsp := h'.rsp.trans h.rsp
  rip := h'.rip.trans h.rip
  cs := h'.cs.trans h.cs
  rflags := h'.rflags.trans h.rflags
  ss := h'.ss.trans h.ss
  cr2 := h'.cr2.trans h.cr2
  mem x hx hW := (h'.mem x (h.rsp ▸ hx) hW).trans (h.mem x hx hW)

/-- The interrupted program finds the kernel wired too. -/
theorem Program.wired_of_agrees (hp : Program k lo hi W I step) (hplaced : Placed k lo hi W) (hI : I s)
    (h : Agrees lo W s t) : k.Wired t.mem where
  segment := (hp.wired hI).segment
  gates v hv := by
    obtain ⟨isr, hisr, hgate, htext⟩ := (hp.wired hI).gates v hv
    refine ⟨isr, hisr, (gateAt_congr hv fun x hlo hhi => ?_).trans hgate, htext⟩
    obtain ⟨hW, hx⟩ := hplaced.table x hlo hhi
    have hhigh := hp.high hI
    exact h.mem x (by omega) hW

/-- An interrupt that finds the program as it would be by itself leaves it so. -/
theorem irq_agrees (hp : Program k lo hi W I step) (hplaced : Placed k lo hi W) (hh : Compiled lo W k.handler)
    (hI : I s) (h : Agrees lo W s t) (vector : Fin 256) (scancode : UInt8) (kb : Globals) :
    (s.interruptible ∧ IsIrq vector → ∃ u, turn k step (t, kb) (.irq vector scancode) =
      some (u, if vector.val = 0x21 then handleKeyboard kb scancode else kb) ∧ Agrees lo W s u) ∧
    (¬ (s.interruptible ∧ IsIrq vector) → turn k step (t, kb) (.irq vector scancode) = none) := by
  have hlow := hp.low hI
  have hhigh := hp.high hI
  obtain ⟨hback, hhalt⟩ := interrupt_cases (hp.wired_of_agrees hplaced hI h) hh vector.isLt
    (by rwa [h.rsp]) (fun x hlo hhi => hplaced.stack x hlo (by rw [h.rsp] at hhi; omega)) 0 scancode kb
  have hflag : t.interruptible = s.interruptible := by
    unfold Cpu.interruptible
    rw [h.rflags]
  rw [turn, hflag]
  constructor
  · rintro ⟨hon, hirq⟩
    rw [if_pos hon]
    obtain ⟨u, hu, hagrees⟩ := hback hirq
    exact ⟨u, hu, h.trans hagrees⟩
  · intro hnot
    by_cases hon : s.interruptible = true
    · rw [if_pos hon]
      exact hhalt fun hirq => hnot ⟨hon, hirq⟩
    · rw [if_neg hon]

/-- From a context that agrees with the program's own, every turn leads to one that does. -/
theorem run_agrees (hp : Program k lo hi W I step) (hplaced : Placed k lo hi W) (hh : Compiled lo W k.handler)
    (hI : I s) (h : Agrees lo W s t) (kb : Globals) (turns : List Turn) :
    (Deliverable step s turns → ∃ u, run k step (t, kb) turns = some (u, feed kb (scancodes turns)) ∧
      Agrees lo W (alone step s turns) u) ∧
    (¬ Deliverable step s turns → run k step (t, kb) turns = none) := by
  induction turns generalizing s t kb with
  | nil => exact ⟨fun _ => ⟨t, rfl, h⟩, fun hnot => absurd trivial hnot⟩
  | cons first turns ih =>
    rw [run, List.foldlM_cons]
    cases first with
    | instruction => exact ih (hp.next hI) (hp.live hI h) kb
    | irq vector scancode =>
      obtain ⟨hback, hnone⟩ := irq_agrees hp hplaced hh hI h vector scancode kb
      by_cases hnow : s.interruptible ∧ IsIrq vector
      · obtain ⟨u, hu, hagrees⟩ := hback hnow
        obtain ⟨hyes, hno⟩ := ih hI hagrees (if vector.val = 0x21 then handleKeyboard kb scancode else kb)
        have hbytes : feed kb (scancodes (.irq vector scancode :: turns)) =
            feed (if vector.val = 0x21 then handleKeyboard kb scancode else kb) (scancodes turns) := by
          rw [scancodes]
          split <;> rfl
        rw [hu, hbytes]
        exact ⟨fun hd => hyes hd.2.2, fun hnot => hno fun hd => hnot ⟨hnow.1, hnow.2, hd⟩⟩
      · rw [hnone hnow]
        exact ⟨fun hd => absurd ⟨hd.1, hd.2.1⟩ hnow, fun _ => rfl⟩

end Run

/-- Interrupts cannot be noticed: wherever they come between the instructions of a program that does not
touch the handler's objects, it ends with the registers and the live memory of its own run, and the keyboard
driver ends as if it had been given the scan codes of vector `0x21` in a row. An interrupt that finds `IF`
clear is not taken, and a vector that is no device's ends the run. -/
theorem preemption_transparent {k : Kernel} {lo hi : Nat} {W : Nat → Prop} {I : Cpu → Prop} {step : Cpu → Cpu}
    (hp : Program k lo hi W I step) (hplaced : Placed k lo hi W) (hh : Compiled lo W k.handler) {s : Cpu}
    (hI : I s) (kb : Globals) (turns : List Turn) :
    (Deliverable step s turns → ∃ u, run k step (s, kb) turns = some (u, feed kb (scancodes turns)) ∧
      Agrees lo W (alone step s turns) u) ∧
    (¬ Deliverable step s turns → run k step (s, kb) turns = none) :=
  run_agrees hp hplaced hh hI (.refl s) kb turns

/-- A program that counts in `rax`. -/
def count (s : Cpu) : Cpu := { s with regs := Function.update s.regs .rax (s.regs .rax + 1) }

theorem count_program : Program lowKernel 0x8000 0x10000 (fun x => x = 0x7000)
    (fun s => s.rsp = 0x10000 ∧ s.mem = lowMem) count where
  next h := h
  live {s t} _ h := {
    regs := by rw [count, count, h.regs]
    rsp := h.rsp
    rip := h.rip
    cs := h.cs
    rflags := h.rflags
    ss := h.ss
    cr2 := h.cr2
    mem := h.mem }
  low h := h.1 ▸ (by decide)
  high h := h.1 ▸ (by decide)
  wired h := h.2 ▸ lowKernel_wired

theorem lowKernel_placed : Placed lowKernel 0x8000 0x10000 fun x => x = 0x7000 := by
  have hbase : lowKernel.idtr.base.toNat = 0 := idtInit_base lowLayout_valid tableMem
  refine ⟨fun x hlo _ => by omega, fun x _ hhi => ?_⟩
  rw [hbase] at hhi
  omega

theorem preemption_transparent_count :
    ∃ u, run lowKernel count (lowCpu, Drivers.Keyboard.bootKeyboard)
        [.instruction, .irq 0x21 0x1c, .irq 0x30 0, .instruction] =
        some (u, feed Drivers.Keyboard.bootKeyboard [0x1c]) ∧
      u.regs .rax = 7 := by
  obtain ⟨u, hu, hagrees⟩ := (preemption_transparent count_program lowKernel_placed
    (lowKernel_compiled _ _) (s := lowCpu) ⟨rfl, rfl⟩ Drivers.Keyboard.bootKeyboard
    [.instruction, .irq 0x21 0x1c, .irq 0x30 0, .instruction]).1
      ⟨by decide, by decide, by decide, by decide, trivial⟩
  exact ⟨u, hu, congrFun hagrees.regs .rax⟩

end NyaOS.Interrupts
