import NyaOS.Drivers.Echo
import NyaOS.Drivers.Redirection
import NyaOS.Interrupts.Preemption

/-! The way of a key from its interrupt line to the screen, while `kernel_main` spins in `hcf`. -/
namespace NyaOS.Interrupts
open Library.ByteMemory Library.LastWrite Drivers.Ioapic
open Drivers.Keyboard (Globals Installed feed)
open Drivers.Echo (typeBytes typedText byteOf)

/-- The processor goes on, the timer of its local APIC fires, or a line of the I/O APIC is raised while
the byte waits at the data port. -/
inductive Event where
  | instruction
  | timer
  | line (n : Nat) (scancode : UInt8)

/-- The interrupts of the processor whose local APIC has the ID; those of the timer have `TIMER_VECTOR`. -/
def turnsOf (regs : Nat → Nat) (lapicId : Nat) : List Event → List Turn
  | [] => []
  | .instruction :: events => .instruction :: turnsOf regs lapicId events
  | .timer :: events => .irq 0x30 0 :: turnsOf regs lapicId events
  | .line n scancode :: events =>
    match messageOf regs n with
    | some message =>
      if message.lapicId = lapicId then
        .irq (Fin.ofNat 256 message.vector) scancode :: turnsOf regs lapicId events
      else turnsOf regs lapicId events
    | none => turnsOf regs lapicId events

/-- The bytes that come with a line. -/
def lineBytes (n : Nat) : List Event → List UInt8
  | [] => []
  | .instruction :: events => lineBytes n events
  | .timer :: events => lineBytes n events
  | .line k scancode :: events => if k = n then scancode :: lineBytes n events else lineBytes n events

/-- `for (;;) asm("hlt")`: the instruction at `loop` is one byte long, behind it is the jump back. -/
def hcf (loop : BitVec 64) (s : Cpu) : Cpu := { s with rip := if s.rip = loop then loop + 1 else loop }

/-- The interrupts are on, and the stack and the tables are as the handler needs them. -/
structure Idle (k : Kernel) (lo hi : Nat) (s : Cpu) : Prop where
  on : s.interruptible
  low : lo + 200 ≤ s.rsp.toNat
  high : s.rsp.toNat ≤ hi
  wired : k.Wired s.mem

/-- Of the messages to the local APIC only those of the line have the keyboard's vector, and all others are
interrupts of devices. -/
structure KeyLine (regs : Nat → Nat) (lapicId line : Nat) : Prop where
  key : ∃ message, messageOf regs line = some message ∧ message.lapicId = lapicId ∧ message.vector = 0x21
  other : ∀ n message, n ≠ line → messageOf regs n = some message → message.lapicId = lapicId →
    message.vector = 0x22 ∨ message.vector = 0x23

section Lines
variable {k : Kernel} {lo hi : Nat} {W : Nat → Prop} {regs : Nat → Nat} {lapicId line : Nat}

theorem hcf_program (loop : BitVec 64) : Program k lo hi W (Idle k lo hi) (hcf loop) where
  next h := ⟨h.on, h.low, h.high, h.wired⟩
  live {s t} _ h := {
    regs := h.regs
    rsp := h.rsp
    rip := by rw [hcf, hcf, h.rip]
    cs := h.cs
    rflags := h.rflags
    ss := h.ss
    cr2 := h.cr2
    mem := h.mem }
  low h := h.low
  high h := h.high
  wired h := h.wired

/-- The keyboard driver gets the bytes of its line and no others. -/
theorem KeyLine.scancodes (h : KeyLine regs lapicId line) (events : List Event) :
    Interrupts.scancodes (turnsOf regs lapicId events) = lineBytes line events := by
  induction events with
  | nil => rfl
  | cons event events ih =>
    cases event with
    | instruction => exact ih
    | timer => exact ih
    | line n scancode =>
      rw [turnsOf, lineBytes]
      by_cases hn : n = line
      · obtain ⟨message, hmessage, hid, hvector⟩ := h.key
        rw [hn, if_pos rfl, hmessage]
        dsimp only
        rw [if_pos hid, hvector, Interrupts.scancodes, if_pos (by rfl), ih]
      · rw [if_neg hn]
        cases hmessage : messageOf regs n with
        | none => exact ih
        | some message =>
          dsimp only
          by_cases hid : message.lapicId = lapicId
          · rw [if_pos hid, Interrupts.scancodes, if_neg, ih]
            rcases h.other n message hn hmessage hid with hv | hv <;> rw [hv] <;> decide
          · rw [if_neg hid]
            exact ih

/-- No line ends the run while the interrupts are on. -/
theorem KeyLine.deliverable (h : KeyLine regs lapicId line) {I : Cpu → Prop} {step : Cpu → Cpu}
    (hnext : ∀ {s}, I s → I (step s)) (hon : ∀ {s}, I s → s.interruptible) (events : List Event) {s : Cpu}
    (hs : I s) : Deliverable step s (turnsOf regs lapicId events) := by
  induction events generalizing s with
  | nil => trivial
  | cons event events ih =>
    cases event with
    | instruction => exact ih (hnext hs)
    | timer => exact ⟨hon hs, by decide, ih hs⟩
    | line n scancode =>
      rw [turnsOf]
      cases hmessage : messageOf regs n with
      | none => exact ih hs
      | some message =>
        dsimp only
        by_cases hid : message.lapicId = lapicId
        · rw [if_pos hid]
          have hvector : message.vector = 0x21 ∨ message.vector = 0x22 ∨ message.vector = 0x23 := by
            by_cases hn : n = line
            · obtain ⟨message', hmessage', -, hv⟩ := h.key
              rw [hn, hmessage'] at hmessage
              cases hmessage
              exact .inl hv
            · exact .inr (h.other n message hn hmessage hid)
          refine ⟨hon hs, ?_, ih hs⟩
          rcases hvector with hv | hv | hv <;> rw [hv] <;> decide
        · rw [if_neg hid]
          exact ih hs

/-- The routes of `ioapic_init` make the line of interrupt 1 the keyboard's, if it is not overridden by another's and
the processor got no messages before. -/
theorem routes_keyLine {rs : List Record} {base gsiBase : Nat} (hid : lapicId < 2 ^ 8)
    (hrange : ∀ r ∈ routes, gsiBase ≤ gsiOf rs r.1 ∧ gsiOf rs r.1 < gsiBase + 120)
    (h3 : gsiOf rs 3 ≠ gsiOf rs 1) (h4 : gsiOf rs 4 ≠ gsiOf rs 1)
    (hquiet : ∀ n message, messageOf regs n = some message → message.lapicId ≠ lapicId) :
    KeyLine ((routes.flatMap fun r => ioapicRoute base gsiBase (gsiOf rs r.1) (flagsOf rs r.1) r.2
      lapicId).foldl (RegWrite.apply base) regs) lapicId (gsiOf rs 1 - gsiBase) where
  key := by
    obtain ⟨hlo, -⟩ := hrange (1, 0x21) (by decide)
    have hmine : gsiOf rs 1 = gsiBase + (gsiOf rs 1 - gsiBase) := by
      dsimp only at hlo
      omega
    refine ⟨routeMessage 0x21 (flagsOf rs 1) lapicId, ?_, rfl, rfl⟩
    rw [routes_messages hid hrange]
    simp [lastWrite, routes, routeLeaves, ← hmine, h3, h4]
  other n message hn hmessage hto := by
    rw [routes_messages hid hrange] at hmessage
    have hnot : gsiOf rs 1 ≠ gsiBase + n := by omega
    by_cases h4' : gsiOf rs 4 = gsiBase + n
    · simp [lastWrite, routes, routeLeaves, h4'] at hmessage
      exact .inr (hmessage ▸ rfl)
    · by_cases h3' : gsiOf rs 3 = gsiBase + n
      · simp [lastWrite, routes, routeLeaves, h4', h3'] at hmessage
        exact .inl (hmessage ▸ rfl)
      · simp [lastWrite, routes, routeLeaves, h4', h3', hnot] at hmessage
        exact absurd hto (hquiet n message hmessage)

end Lines

open Drivers.Tty in
/-- From the line to the screen. When `ioapic_init` has routed interrupt 1 to a line of its own and the kernel
spins in `hcf`, then whatever lines are raised and however often the timer fires, between any two instructions:
every interrupt comes back to the loop, with nothing of its context or of the rest of the memory lost; the driver
has got the bytes of the keyboard's line, in order and no others; and the screen shows what the kernel has written
and behind it the text that these bytes spell. -/
theorem keys_reach_screen {fw : Firmware} {m : Mem} {madt : Nat} {rs : List (Record × Nat)} {u : Apic}
    (hfind : findTable fw m apicSignature = some madt)
    (hrs : Concat m (madt + load m (madt + 4) 4) (madt + madtSize) rs)
    (hlast : (units (rs.map Prod.fst)).getLast? = some u) (haddr : u.addr ≠ 0)
    (hrange : ∀ r ∈ routes, u.gsiBase ≤ gsiOf (rs.map Prod.fst) r.1 ∧
      gsiOf (rs.map Prod.fst) r.1 < u.gsiBase + 120)
    (h3 : gsiOf (rs.map Prod.fst) 3 ≠ gsiOf (rs.map Prod.fst) 1)
    (h4 : gsiOf (rs.map Prod.fst) 4 ≠ gsiOf (rs.map Prod.fst) 1) (lapicReg : Nat) {regs : Nat → Nat}
    (hquiet : ∀ n message, messageOf regs n = some message → message.lapicId ≠ lapicReg / 2 ^ 24 % 2 ^ 8)
    {k : Kernel} {lo hi : Nat} {W : Nat → Prop} (hplaced : Placed k lo hi W) (hh : Compiled lo W k.handler)
    {s : Cpu} (hs : Idle k lo hi s) (loop : BitVec 64)
    {framebuffers : List Framebuffer} {fb : Framebuffer} {font : PsfFont} {mem : Nat → Nat} {t : Terminal}
    (hfont : Fits fb font) (hglyphs : 255 * font.bytesperglyph < 2 ^ 32)
    (hinit : terminalInitialize framebuffers ⟨⟨mem, []⟩, 0, 0⟩ = some (fb, t)) (boot : List (BitVec 8))
    {kb : Globals} (hready : kb.state = .ready) (hinstalled : Installed kb) (events : List Event) :
    ∃ v typed,
      run k (hcf loop) (s, kb) (turnsOf ((ioapicInit fw m lapicReg).foldl (RegWrite.apply (u.base fw)) regs)
        (lapicReg / 2 ^ 24 % 2 ^ 8) events) =
        some (v, feed kb (lineBytes (gsiOf (rs.map Prod.fst) 1 - u.gsiBase) events)) ∧
      Agrees lo W (alone (hcf loop) s (turnsOf ((ioapicInit fw m lapicReg).foldl (RegWrite.apply (u.base fw)) regs)
        (lapicReg / 2 ^ 24 % 2 ^ 8) events)) v ∧
      typeBytes (kb, []) (lineBytes (gsiOf (rs.map Prod.fst) 1 - u.gsiBase) events) =
        .ok (feed kb (lineBytes (gsiOf (rs.map Prod.fst) 1 - u.gsiBase) events), typed) ∧
      typed = typedText (kb.keyStates .lshift) kb.capsLock
        (lineBytes (gsiOf (rs.map Prod.fst) 1 - u.gsiBase) events) ∧
      Simulates fb font (terminalWrite fb font (boot ++ typed.map byteOf) t)
        (Grid.ofText (fb.height / cellHeight font) (fb.width / cellWidth font) (boot ++ typed.map byteOf)) := by
  have hline : KeyLine ((ioapicInit fw m lapicReg).foldl (RegWrite.apply (u.base fw)) regs)
      (lapicReg / 2 ^ 24 % 2 ^ 8) (gsiOf (rs.map Prod.fst) 1 - u.gsiBase) := by
    rw [init_writes lapicReg hfind hrs hlast haddr, lapicId_eq]
    exact routes_keyLine (Nat.mod_lt _ (by decide)) hrange h3 h4 hquiet
  have hprogram : Program k lo hi W (Idle k lo hi) (hcf loop) := hcf_program loop
  obtain ⟨v, hv, hagrees⟩ := (run_agrees hprogram hplaced hh hs (.refl s) kb _).1
    (hline.deliverable (I := Idle k lo hi) hprogram.next (fun hs => hs.on) events hs)
  obtain ⟨kb', htyped⟩ := Drivers.Echo.typeBytes_eq
    (lineBytes (gsiOf (rs.map Prod.fst) 1 - u.gsiBase) events) kb [] hready hinstalled
  rw [hline.scancodes] at hv
  refine ⟨v, _, hv, hagrees, ?_, rfl, Drivers.Echo.simulates_written hfont hglyphs hinit _⟩
  rw [htyped]
  exact congrArg Except.ok (Prod.ext (Drivers.Echo.typeBytes_feed _ htyped) rfl)

theorem lowCpu_idle : Idle lowKernel 0x8000 0x10000 lowCpu where
  on := by decide
  low := by decide
  high := by decide
  wired := lowKernel_wired

open Drivers.Tty in
/-- The letters of two keys, with the timer and another device between them. -/
theorem keys_reach_screen_hi : ∃ v typed t,
    terminalInitialize [smallScreen] ⟨⟨fun _ => 0, []⟩, 0, 0⟩ = some (smallScreen, t) ∧
    run lowKernel (hcf 0x9000) (lowCpu, Drivers.Keyboard.bootKeyboard)
      (turnsOf ((ioapicInit acpiFirmware overrideApic 0x01000000).foldl
        (RegWrite.apply (firstApic.base acpiFirmware)) (fun _ => 0x10000)) 1
        [.instruction, .line 1 0x33, .timer, .line 9 0, .line 5 0x1c, .instruction, .line 1 0x43]) =
      some (v, feed Drivers.Keyboard.bootKeyboard [0x33, 0x43]) ∧
    typed = ['h', 'i'] ∧
    Simulates smallScreen smallFont (terminalWrite smallScreen smallFont ([62] ++ typed.map byteOf) t)
      (Grid.ofText 2 4 ([62] ++ typed.map byteOf)) := by
  have hinit : terminalInitialize [smallScreen] ⟨⟨fun _ => 0, []⟩, 0, 0⟩ = some (smallScreen, _) := rfl
  have hquiet : ∀ n message, messageOf (fun _ => 0x10000) n = some message →
      message.lapicId ≠ 0x01000000 / 2 ^ 24 % 2 ^ 8 := by
    intro n message h
    have hmasked : messageOf (fun _ => 0x10000) n = none := if_neg (show ¬ (0x10000 / 2 ^ 8 % 16 = 0 ∧
      0x10000 / 2 ^ 16 % 2 = 0) by decide)
    rw [hmasked] at h
    cases h
  have hfind : findTable acpiFirmware overrideApic apicSignature = some acpiMadt := by decide +kernel
  have hready : Drivers.Keyboard.bootKeyboard.state = .ready := rfl
  obtain ⟨v, typed, hrun, -, -, htyped, hscreen⟩ := keys_reach_screen hfind overrideApic_concat rfl
    (by decide) (by decide) (by decide) (by decide) 0x01000000 hquiet lowKernel_placed (lowKernel_compiled _ _)
    lowCpu_idle 0x9000 smallFont_fits (by decide) hinit [62] hready ⟨rfl, rfl⟩
    [.instruction, .line 1 0x33, .timer, .line 9 0, .line 5 0x1c, .instruction, .line 1 0x43]
  exact ⟨v, typed, _, hinit, hrun, htyped, hscreen⟩

end NyaOS.Interrupts
