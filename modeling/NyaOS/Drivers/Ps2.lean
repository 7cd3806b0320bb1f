import NyaOS.Library.Dialogue

/-! The PS/2 controller: `ps2.c` and the keyboard's start-up in `keyboard.c`, against any controller.
A controller is the bytes it returns to the reads of its two ports, in order; `printf` is left
out. -/
namespace NyaOS.Drivers.Ps2
open Library.Dialogue

abbrev Byte := BitVec 8

def DATA : Nat := 0x60

def STATUS : Nat := 0x64

def COMMAND : Nat := 0x64

/-- An access to a port, or a call of `send`. -/
inductive Event where
  | inb (port : Nat) (value : Byte)
  | outb (data : Byte) (port : Nat)
  | send (data : Byte) (port : Nat)

abbrev Driver := Program Byte Event

def inb (port : Nat) : Driver Byte := ask (.inb port)

def outb (data : Byte) (port : Nat) : Driver Unit := say (.outb data port)

/-- `while (inb(STATUS) & 0x2);` -/
def awaitInput : Driver Unit := repeatWhile do return (← inb STATUS) &&& 0x2 ≠ 0

def write (data : Byte) (port : Nat) : Driver Unit := do
  awaitInput
  outb data port

/-- `read` and `poll` have the same body. -/
def read : Driver Byte := do
  repeatWhile do return (← inb STATUS) &&& 0x1 = 0
  inb DATA

def poll : Driver Byte := do
  repeatWhile do return (← inb STATUS) &&& 0x1 = 0
  inb DATA

/-- `while (inb(STATUS) & 0x1) inb(DATA);` -/
def drain : Driver Unit := repeatWhile do
  if (← inb STATUS) &&& 0x1 = 0 then return false
  let _ ← inb DATA
  return true

def send (data : Byte) (port : Nat) : Driver Unit := do
  say (.send data port)
  if port = 0 then
    awaitInput
    outb data DATA
  else
    outb 0xd4 COMMAND
    awaitInput
    outb data DATA

def checkAml : Bool := true

def disableDevices : Driver Unit := do
  write 0xad COMMAND
  write 0xa7 COMMAND

/-- `while (poll() != 0xfa) {}` -/
def awaitAck : Driver Unit := repeatWhile do return (← poll) ≠ 0xfa

def detectDevice (port : Nat) : Driver Byte := do
  send 0xf5 port
  awaitAck
  send 0xf2 port
  awaitAck
  poll

def dev1EnableIrq : Driver Unit := do
  write 0x20 COMMAND
  let cfg ← read
  write 0x60 COMMAND
  write (cfg ||| 0x1) DATA

/-- The end of `ps2_init`: the devices tell what they are. -/
def identifyDevices : Driver Unit := do
  let _ ← detectDevice 0
  drain
  let _ ← detectDevice 1
  drain

/-- `ps2_init` from the reset of the first device on. -/
def resetDevices (dualChannel : Bool) : Driver Unit := do
  send 0xff 0
  let did ← poll
  if did ≠ 0xfa ∧ did ≠ 0xaa then return
  let _ ← poll
  drain
  if dualChannel then
    drain
    send 0xff 1
    let did ← poll
    if did ≠ 0xfa ∧ did ≠ 0xaa then return
    let _ ← poll
    drain
  identifyDevices

/-- `ps2_init` from where the devices are enabled. -/
def enableDevices (dualChannel : Bool) : Driver Unit := do
  write 0xae COMMAND
  if dualChannel then write 0xa8 COMMAND
  resetDevices dualChannel

/-- `ps2_init` from the interface tests on. -/
def interfaceTests (dualChannel : Bool) : Driver Unit := do
  write 0xab COMMAND
  if (← read) ≠ 0x00 then return
  if dualChannel then
    write 0xa9 COMMAND
    if (← read) ≠ 0x00 then return
  enableDevices dualChannel

def ps2Init : Driver Unit := do
  if !checkAml then return
  disableDevices
  let _ ← inb DATA
  write 0x20 COMMAND
  let cfg := (← read) &&& ~~~0b1010001
  write 0x60 COMMAND
  write cfg DATA
  write 0xaa COMMAND
  if (← read) ≠ 0x55 then return
  write 0x60 COMMAND
  write cfg DATA
  write 0xa8 COMMAND
  write 0x20 COMMAND
  let cfg ← read
  if cfg &&& 0x20 = 0 then
    write 0xa7 COMMAND
    write 0x60 COMMAND
    write (cfg &&& ~~~0b100010) DATA
  interfaceTests (cfg &&& 0x20 = 0)

/-- The keyboard is on the first port. -/
def PORT : Nat := 0

def kbEnableScanning : Driver Unit := do
  send 0xf0 PORT
  if (← poll) = 0xfa then
    send 0 PORT
    if (← poll) = 0xfa then
      let _ ← poll
  repeatWhile do
    send 0xf4 PORT
    return (← poll) = 0xfe
  dev1EnableIrq

/-- `ps2_init` and then `kb_enable_scanning`. -/
def startUp : Driver Unit := do
  ps2Init
  kbEnableScanning

/-- The trace of the start-up against a controller that has given these replies so far. -/
def startUpTrace (replies : List Byte) : List Event := (startUp ⟨replies, []⟩).2.trace

/-! A byte may be written once the controller has just said that its input buffer is empty. -/

/-- The latest access was a read of the status port, with bit 1 clear. -/
def Clear : List Event → Prop
  | [] => False
  | .inb port value :: _ => port = STATUS ∧ value &&& 0x2 = 0
  | .outb _ _ :: _ => False
  | .send _ _ :: trace => Clear trace

instance decidableClear : DecidablePred Clear
  | [] => instDecidableFalse
  | .inb _ _ :: _ => inferInstanceAs (Decidable (_ ∧ _))
  | .outb _ _ :: _ => instDecidableFalse
  | .send _ _ :: trace => decidableClear trace

/-- Every write was made at such a moment. -/
def Handshake : List Event → Prop
  | [] => True
  | .inb _ _ :: trace => Handshake trace
  | .outb _ _ :: trace => Clear trace ∧ Handshake trace
  | .send _ _ :: trace => Handshake trace

instance decidableHandshake : DecidablePred Handshake
  | [] => instDecidableTrue
  | .inb _ _ :: trace => decidableHandshake trace
  | .outb _ _ :: trace =>
    have := decidableHandshake trace
    inferInstanceAs (Decidable (_ ∧ _))
  | .send _ _ :: trace => decidableHandshake trace

/-- Bit 1 was clear in the latest status byte, whatever was accessed since. -/
def StatusClear : List Event → Prop
  | [] => False
  | .inb port value :: trace => if port = STATUS then value &&& 0x2 = 0 else StatusClear trace
  | .outb _ _ :: trace => StatusClear trace
  | .send _ _ :: trace => StatusClear trace

/-- Every byte for the second port was sent with bit 1 clear in the latest status byte, and the
device there was not asked what it is. -/
def SecondPortClear : List Event → Prop
  | [] => True
  | .inb _ _ :: trace => SecondPortClear trace
  | .outb _ _ :: trace => SecondPortClear trace
  | .send data port :: trace => (port ≠ 0 → data ≠ 0xf2 ∧ StatusClear trace) ∧ SecondPortClear trace

/-- So far the handshake is kept exactly if the second port was clear. -/
def Exact (trace : List Event) : Prop := Handshake trace ↔ SecondPortClear trace

/-- After a read of the port. -/
def ExactAfter (port : Nat) (trace : List Event) : Prop :=
  Exact trace ∧ ∃ value before, trace = .inb port value :: before

abbrev Keeps {α : Type} (x : Driver α) : Prop := Triple Exact Exact x fun _ => Exact

section Calls

theorem takes_inb (port : Nat) : Takes 1 (inb port) := takes_ask _

theorem takes_awaitInput : Takes 1 awaitInput :=
  ((takes_inb STATUS).bind fun _ => takes_pure _).repeatWhile

theorem takes_poll : Takes 1 poll :=
  (((takes_inb STATUS).bind fun _ => takes_pure _).repeatWhile.bind fun _ => takes_inb DATA).mono
    (by decide)

theorem takes_send (data : Byte) : Takes 1 (send data 0) :=
  (takes_say _).bind fun _ => takes_awaitInput.bind fun _ => takes_say _

theorem takes_drainRound : Takes 1 (do
    if (← inb STATUS) &&& 0x1 = 0 then return false
    let _ ← inb DATA
    return true) := by
  refine (takes_inb STATUS).bind (l := 0) fun value => ?_
  split
  · exact takes_pure _
  · exact ((takes_inb DATA).bind fun _ => takes_pure _).mono (Nat.zero_le _)

/-- What a read leaves behind also keeps the account exact. -/
theorem after_inb (port : Nat) : Triple Exact Exact (inb port) fun _ => ExactAfter port :=
  triple_ask (fun h => h) fun value h => ⟨h, value, _, rfl⟩

theorem keeps_of_after {α : Type} {x : Driver α} {port : Nat}
    (h : Triple Exact Exact x fun _ => ExactAfter port) : Keeps x :=
  h.weaken (fun hexact => hexact) fun hafter => hafter.1

theorem keeps_inb (port : Nat) : Keeps (inb port) := keeps_of_after (after_inb port)

theorem awaitInput_clear :
    Triple Exact Exact awaitInput fun _ trace => Exact trace ∧ Clear trace := by
  have hbody : Triple Exact Exact (inb STATUS) fun value trace =>
      Exact trace ∧ (value &&& 0x2 = 0 → Clear trace) :=
    triple_ask (fun h => h) fun value h => ⟨h, fun hclear => ⟨rfl, hclear⟩⟩
  refine Triple.repeatWhile ((takes_inb STATUS).bind fun _ => takes_pure _)
    (hbody.bind fun value => Triple.pure _ fun h => ⟨fun _ => h.1, fun hdone => ⟨h.1, h.2 ?_⟩⟩)
  simpa using hdone

/-- A write after the wait is one of the handshake. -/
theorem keeps_outb (data : Byte) (port : Nat) :
    Triple Exact (fun trace => Exact trace ∧ Clear trace) (outb data port) fun _ => Exact := by
  refine triple_say fun h => ?_
  show Clear _ ∧ Handshake _ ↔ SecondPortClear _
  rw [and_iff_right h.2]
  exact h.1

theorem keeps_write (data : Byte) (port : Nat) : Keeps (write data port) :=
  awaitInput_clear.bind fun _ => keeps_outb data port

theorem after_poll : Triple Exact Exact poll fun _ => ExactAfter DATA := by
  refine Triple.bind (Triple.repeatWhile ((takes_inb STATUS).bind fun _ => takes_pure _) ?_)
    fun _ => after_inb DATA
  exact (keeps_inb STATUS).bind fun value => Triple.pure _ fun h => ⟨fun _ => h, fun _ => h⟩

theorem keeps_poll : Keeps poll := keeps_of_after after_poll

theorem keeps_read : Keeps read := keeps_poll

/-- Draining ends with a read of the status port. -/
theorem after_drain : Triple Exact Exact drain fun _ => ExactAfter STATUS := by
  refine Triple.repeatWhile takes_drainRound ((after_inb STATUS).bind fun value => Triple.ite ?_ ?_)
  · exact fun _ => Triple.pure _ fun h => ⟨fun _ => h.1, fun _ => h⟩
  · refine fun _ => ((keeps_inb DATA).weaken (fun h => h.1) fun h => h).bind fun _ => ?_
    exact Triple.pure _ fun h => ⟨fun _ => h, fun hf => nomatch hf⟩

theorem keeps_drain : Keeps drain := keeps_of_after after_drain

theorem after_awaitAck : Triple Exact Exact awaitAck fun _ => ExactAfter DATA :=
  Triple.repeatWhile (takes_poll.bind fun _ => takes_pure _)
    (after_poll.bind fun _ => Triple.pure _ fun h => ⟨fun _ => h.1, fun _ => h⟩)

theorem keeps_awaitAck : Keeps awaitAck := keeps_of_after after_awaitAck

/-- The first port is waited for. -/
theorem keeps_send (data : Byte) : Keeps (send data 0) := by
  have hcall : Triple Exact Exact (say (.send data 0) : Driver Unit) fun _ => Exact := by
    refine triple_say fun h => ?_
    show Handshake _ ↔ (0 ≠ 0 → _) ∧ SecondPortClear _
    rw [and_iff_right fun hne => (hne rfl).elim]
    exact h
  exact hcall.bind fun _ => awaitInput_clear.bind fun _ => keeps_outb data DATA

/-- The second port is not: the first write is made right after whatever was accessed last. -/
theorem send_second {port : Nat} {data : Byte}
    (h : ∀ value {before}, Exact before →
      Exact (.outb 0xd4 COMMAND :: .send data 1 :: .inb port value :: before)) :
    Triple Exact (ExactAfter port) (send data 1) fun _ => Exact := by
  have hcall : Triple Exact (ExactAfter port) (say (.send data 1) : Driver Unit) fun _ trace =>
      ∃ before, trace = .send data 1 :: before ∧ ExactAfter port before :=
    triple_say fun hafter => ⟨_, rfl, hafter⟩
  refine hcall.bind fun _ => Triple.bind (triple_say ?_) fun _ =>
    awaitInput_clear.bind fun _ => keeps_outb data DATA
  rintro _ ⟨_, rfl, hexact, value, before, rfl⟩
  exact h value hexact

/-- After the status port, what counts is the byte that was read. -/
theorem send_after_status {data : Byte} (hdata : data ≠ 0xf2) :
    Triple Exact (ExactAfter STATUS) (send data 1) fun _ => Exact := by
  refine send_second fun value before h => ?_
  show (STATUS = STATUS ∧ value &&& 0x2 = 0) ∧ Handshake before ↔
    (1 ≠ 0 → data ≠ 0xf2 ∧ if STATUS = STATUS then value &&& 0x2 = 0 else StatusClear before) ∧
      SecondPortClear before
  rw [if_pos rfl, and_iff_right rfl, show Handshake before ↔ SecondPortClear before from h]
  exact and_congr_left' ⟨fun hclear _ => ⟨hdata, hclear⟩, fun hsecond => (hsecond (by decide)).2⟩

/-- After the data port the handshake is broken, whatever the controller returns. -/
theorem identify_after_data : Triple Exact (ExactAfter DATA) (send 0xf2 1) fun _ => Exact := by
  refine send_second fun value before _ => iff_of_false ?_ ?_
  · rintro ⟨⟨hport, -⟩, -⟩
    exact absurd hport (by decide)
  · exact fun h => (h.1 (by decide)).1 rfl

theorem keeps_detectDevice : Keeps (detectDevice 0) :=
  (keeps_send 0xf5).bind fun _ => keeps_awaitAck.bind fun _ => (keeps_send 0xf2).bind fun _ =>
    keeps_awaitAck.bind fun _ => keeps_poll

theorem detectDevice_second :
    Triple Exact (ExactAfter STATUS) (detectDevice 1) fun _ => Exact :=
  (send_after_status (by decide)).bind fun _ => after_awaitAck.bind fun _ =>
    identify_after_data.bind fun _ => keeps_awaitAck.bind fun _ => keeps_poll

end Calls

theorem keeps_identifyDevices : Keeps identifyDevices :=
  keeps_detectDevice.bind fun _ => after_drain.bind fun _ => detectDevice_second.bind fun _ =>
    keeps_drain

theorem keeps_resetDevices (dualChannel : Bool) : Keeps (resetDevices dualChannel) := by
  refine (keeps_send 0xff).bind fun _ => keeps_poll.bind fun did => Triple.ite (fun _ => ?_) fun _ => ?_
  · exact Triple.pure _ id
  refine keeps_poll.bind fun _ => keeps_drain.bind fun _ => Triple.ite (fun _ => ?_) fun _ => ?_
  · -- the drain before the second port's reset is what its first write goes by
    refine after_drain.bind fun _ => (send_after_status (by decide)).bind fun _ =>
      keeps_poll.bind fun did => Triple.ite (fun _ => ?_) fun _ => ?_
    · exact Triple.pure _ id
    · exact keeps_poll.bind fun _ => keeps_drain.bind fun _ => keeps_identifyDevices
  · exact keeps_identifyDevices

theorem keeps_enableDevices (dualChannel : Bool) : Keeps (enableDevices dualChannel) := by
  refine (keeps_write 0xae COMMAND).bind fun _ => Triple.ite (fun _ => ?_) fun _ => ?_
  · exact (keeps_write 0xa8 COMMAND).bind fun _ => keeps_resetDevices dualChannel
  · exact keeps_resetDevices dualChannel

theorem keeps_interfaceTests (dualChannel : Bool) : Keeps (interfaceTests dualChannel) := by
  refine (keeps_write 0xab COMMAND).bind fun _ => keeps_read.bind fun res =>
    Triple.ite (fun _ => ?_) fun _ => ?_
  · exact Triple.pure _ id
  refine Triple.ite (fun _ => ?_) fun _ => ?_
  · refine (keeps_write 0xa9 COMMAND).bind fun _ => keeps_read.bind fun res =>
      Triple.ite (fun _ => ?_) fun _ => ?_
    · exact Triple.pure _ id
    · exact keeps_enableDevices dualChannel
  · exact keeps_enableDevices dualChannel

theorem keeps_configure (data : Byte) {α : Type} {rest : Unit → Driver α} (h : ∀ u, Keeps (rest u)) :
    Keeps (write 0x60 COMMAND >>= fun _ => write data DATA >>= rest) :=
  (keeps_write 0x60 COMMAND).bind fun _ => (keeps_write data DATA).bind h

theorem keeps_ps2Init : Keeps ps2Init := by
  refine Triple.ite (fun _ => Triple.pure _ id) fun _ => ?_
  refine ((keeps_write 0xad COMMAND).bind fun _ => keeps_write 0xa7 COMMAND).bind fun _ =>
    (keeps_inb DATA).bind fun _ => (keeps_write 0x20 COMMAND).bind fun _ => keeps_read.bind fun cfg =>
    keeps_configure _ fun _ => (keeps_write 0xaa COMMAND).bind fun _ => keeps_read.bind fun res =>
    Triple.ite (fun _ => Triple.pure _ id) fun _ => ?_
  refine keeps_configure _ fun _ => (keeps_write 0xa8 COMMAND).bind fun _ =>
    (keeps_write 0x20 COMMAND).bind fun _ => keeps_read.bind fun cfg =>
    Triple.ite (fun _ => ?_) fun _ => ?_
  · exact (keeps_write 0xa7 COMMAND).bind fun _ => keeps_configure _ fun _ => keeps_interfaceTests _
  · exact keeps_interfaceTests _

theorem keeps_dev1EnableIrq : Keeps dev1EnableIrq :=
  (keeps_write 0x20 COMMAND).bind fun _ => keeps_read.bind fun _ =>
    (keeps_write 0x60 COMMAND).bind fun _ => keeps_write _ DATA

theorem keeps_kbEnableScanning : Keeps kbEnableScanning := by
  have hscan : Keeps (do
      repeatWhile do
        send 0xf4 PORT
        return (← poll) = 0xfe
      dev1EnableIrq) := by
    refine Triple.bind (Triple.repeatWhile ?_ ?_) fun _ => keeps_dev1EnableIrq
    · exact ((takes_send 0xf4).bind fun _ => takes_poll.bind fun _ => takes_pure _).mono (by decide)
    · exact (keeps_send 0xf4).bind fun _ => keeps_poll.bind fun _ =>
        Triple.pure _ fun h => ⟨fun _ => h, fun _ => h⟩
  refine (keeps_send 0xf0).bind fun _ => keeps_poll.bind fun res => Triple.ite (fun _ => ?_) fun _ => hscan
  refine (keeps_send 0).bind fun _ => keeps_poll.bind fun res => Triple.ite (fun _ => ?_) fun _ => hscan
  exact keeps_poll.bind fun _ => hscan

/-- Against any controller, every byte is written right after the status port was read with bit 1
clear exactly when each byte for the second port was sent with that bit clear in the latest
status byte, and the device there was not asked to identify itself. -/
theorem handshake_iff (replies : List Byte) :
    Handshake (startUpTrace replies) ↔ SecondPortClear (startUpTrace replies) :=
  (keeps_ps2Init.bind fun _ => keeps_kbEnableScanning).trace id (iff_of_true trivial trivial)

/-- A controller with two channels, and its input buffer full when the second port is reset. -/
theorem second_reset_unclear :
    ¬ Handshake (startUpTrace [1, 1, 0, 1, 1, 0, 1, 1, 1, 1, 0x55, 1, 1, 1, 1, 1, 0, 1, 1, 1, 1, 1, 0, 1, 1, 0,
      1, 1, 1, 1, 0xfa, 1, 0xaa, 0, 2]) := by
  decide +kernel

end NyaOS.Drivers.Ps2
