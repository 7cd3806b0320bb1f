import NyaOS.Drivers.Madt
import NyaOS.Library.LastWrite

/-! What `ioapic_init` makes of the I/O APIC: the message that each of its lines sends. -/
namespace NyaOS.Drivers.Ioapic
open NyaOS.Library.ByteMemory NyaOS.Library.LastWrite

/-- The registers of the chip whose window is at `base`. -/
def RegWrite.apply (base : Nat) (regs : Nat → Nat) (w : RegWrite) : Nat → Nat :=
  if w.base = base then Function.update regs w.offset w.val else regs

structure Message where
  vector : Nat
  lapicId : Nat
  activeLow : Bool
  level : Bool
deriving DecidableEq

/-- What a line sends by its redirection entry, unless it is masked: a fixed interrupt for one local APIC. -/
def messageOf (regs : Nat → Nat) (line : Nat) : Option Message :=
  let low := regs (0x10 + 2 * line)
  let high := regs (0x10 + 2 * line + 1)
  if low / 2 ^ 8 % 16 = 0 ∧ low / 2 ^ 16 % 2 = 0 then
    some ⟨low % 2 ^ 8, high / 2 ^ 24 % 2 ^ 8, low / 2 ^ 13 % 2 = 1, low / 2 ^ 15 % 2 = 1⟩
  else none

/-- The message of a routed interrupt. -/
def routeMessage (vector flags lapicId : Nat) : Message := ⟨vector, lapicId, flags % 4 = 3, flags / 4 % 4 = 3⟩

/-- What a route leaves of a line, if it is its own. -/
def routeLeaves (rs : List Record) (gsiBase lapicId line : Nat) (r : Nat × Nat) : Option (Option Message) :=
  if gsiOf rs r.1 = gsiBase + line then some (some (routeMessage r.2 (flagsOf rs r.1) lapicId)) else none

section Entry
variable {regs : Nat → Nat} {base index vector flags lapicId : Nat}

theorem messageOf_congr {regs' : Nat → Nat} {line : Nat} (hlow : regs' (0x10 + 2 * line) = regs (0x10 + 2 * line))
    (hhigh : regs' (0x10 + 2 * line + 1) = regs (0x10 + 2 * line + 1)) :
    messageOf regs' line = messageOf regs line := by
  rw [messageOf, messageOf, hlow, hhigh]

/-- The fields of an entry are read back from its halves. -/
theorem messageOf_entry {line : Nat} (hv : vector < 2 ^ 8) (hid : lapicId < 2 ^ 8)
    (hlow : regs (0x10 + 2 * line) = lowHalf vector flags) (hhigh : regs (0x10 + 2 * line + 1) = lapicId * 2 ^ 24) :
    messageOf regs line = some (routeMessage vector flags lapicId) := by
  rw [messageOf, hlow, hhigh, routeMessage, lowHalf]
  by_cases hp : flags % 4 = 3 <;> by_cases ht : flags / 4 % 4 = 3
  · simp [hp, ht]
    omega
  · simp [hp, ht]
    omega
  · simp [hp, ht]
    omega
  · simp [hp, ht]
    omega

/-- Both writes of an entry make its line's message, and leave the other lines. -/
theorem messageOf_entryWrites (hv : vector < 2 ^ 8) (hid : lapicId < 2 ^ 8) (line : Nat) :
    messageOf ((entryWrites base index vector flags lapicId).foldl (RegWrite.apply base) regs) line =
      if index = line then some (routeMessage vector flags lapicId) else messageOf regs line := by
  have hregs : (entryWrites base index vector flags lapicId).foldl (RegWrite.apply base) regs =
      Function.update (Function.update regs (0x10 + 2 * index + 1) (lapicId * 2 ^ 24)) (0x10 + 2 * index)
        (lowHalf vector flags) := by
    simp [entryWrites, RegWrite.apply]
  rw [hregs]
  by_cases h : index = line
  · subst h
    rw [if_pos rfl]
    refine messageOf_entry hv hid (Function.update_self ..) ?_
    rw [Function.update_of_ne (by omega), Function.update_self]
  · rw [if_neg h]
    refine messageOf_congr ?_ ?_
    · rw [Function.update_of_ne (by omega), Function.update_of_ne (by omega)]
    · rw [Function.update_of_ne (by omega), Function.update_of_ne (by omega)]

end Entry

/-- The routes as a run of writes to the lines. -/
theorem routes_messages {rs : List Record} {base gsiBase lapicId : Nat} (hid : lapicId < 2 ^ 8)
    (hrange : ∀ r ∈ routes, gsiBase ≤ gsiOf rs r.1 ∧ gsiOf rs r.1 < gsiBase + 120) (regs : Nat → Nat) (line : Nat) :
    messageOf ((routes.flatMap fun r => ioapicRoute base gsiBase (gsiOf rs r.1) (flagsOf rs r.1) r.2
      lapicId).foldl (RegWrite.apply base) regs) line =
      (lastWrite (routeLeaves rs gsiBase lapicId line) routes).getD (messageOf regs line) := by
  have hvector : ∀ r ∈ routes, r.2 < 2 ^ 8 := by decide
  rw [List.foldl_flatMap]
  refine (foldl_lastWrite (fun _ => True) (messageOf · line) _ routes (fun _ _ _ _ => trivial)
    (fun regs r hr _ => ?_) trivial).2
  obtain ⟨hlo, hhi⟩ := hrange r hr
  have hown : gsiOf rs r.1 - gsiBase = line ↔ gsiOf rs r.1 = gsiBase + line := by omega
  rw [ioapicRoute_eq hlo hhi (hvector r hr) hid, messageOf_entryWrites (hvector r hr) hid, routeLeaves]
  by_cases h : gsiOf rs r.1 = gsiBase + line
  · rw [if_pos h, if_pos (hown.mpr h)]
    rfl
  · rw [if_neg h, if_neg (hown.not.mpr h)]
    rfl

/-- `lapic_id` is the top byte of the register. -/
theorem lapicId_eq (lapicReg : Nat) : lapicReg >>> 24 % 2 ^ 8 = lapicReg / 2 ^ 24 % 2 ^ 8 :=
  congrArg (· % 2 ^ 8) (Nat.shiftRight_eq_div_pow lapicReg 24)

end NyaOS.Drivers.Ioapic
