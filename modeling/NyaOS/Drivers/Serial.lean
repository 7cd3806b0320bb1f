import NyaOS.Library.Dialogue

/-! `serial.c` against any UART: the bytes it returns to the reads, and what the writes make of its registers.
`printf` is left out. -/
namespace NyaOS.Drivers.Serial
open Library.Dialogue

abbrev Byte := BitVec 8

abbrev Port := BitVec 16

inductive Event where
  | inb (port : Port) (value : Byte)
  | outb (data : Byte) (port : Port)

abbrev Driver := Program Byte Event

def CLOCK_RATE : Nat := 115200

def writeByte (port : Port) (offset byte : Byte) : Driver Unit := say (.outb byte (port + offset.setWidth 16))

def readByte (port : Port) (offset : Byte) : Driver Byte := ask (.inb (port + offset.setWidth 16))

def setLcr (port : Port) (byte : Byte) : Driver Unit := writeByte port 3 byte

def defaultLcr (port : Port) : Driver Unit := setLcr port 0b00000011

def serialReceived (port : Port) : Driver Bool := do return (← readByte port 5) &&& 1 ≠ 0

def readSerial (port : Port) : Driver Byte := do
  repeatWhile do return !(← serialReceived port)
  readByte port 0

def isTransmitEmpty (port : Port) : Driver Bool := do return (← readByte port 5) &&& 0x20 ≠ 0

def writeSerial (port : Port) (byte : Byte) : Driver Unit := do
  repeatWhile do return !(← isTransmitEmpty port)
  writeByte port 0 byte

/-- `uint16_t divisor = CLOCK_RATE / baud;` -/
def divisorOf (baud : BitVec 32) : BitVec 16 := BitVec.ofNat 16 (CLOCK_RATE / baud.toNat)

def serialInit (port : Port) (baud : BitVec 32) : Driver Unit := do
  let divisor := divisorOf baud
  writeByte port 1 0
  setLcr port 0x80
  writeByte port 0 ((divisor &&& 0xff).setWidth 8)
  writeByte port 1 ((divisor >>> 8).setWidth 8)
  defaultLcr port
  writeByte port 2 0xc7
  writeByte port 4 0x0b
  writeByte port 4 0x1e
  writeByte port 0 0xae
  if (← readByte port 0) ≠ 0xae then return
  writeByte port 4 0x0f

/-- A UART as far as the driver can tell. `sendReady` and `received` are what the line status last showed and no
access to the data register has used up since; `faults` counts the accesses to the data register without them. -/
structure Uart where
  ier : Byte
  fcr : Byte
  lcr : Byte
  mcr : Byte
  divisor : BitVec 16
  wire : List Byte
  sendReady : Bool
  received : Bool
  faults : Nat

def Uart.dlab (u : Uart) : Bool := u.lcr.getLsbD 7

def Uart.loopback (u : Uart) : Bool := u.mcr.getLsbD 4

/-- The data register: in loopback mode nothing leaves the chip. -/
def Uart.send (u : Uart) (data : Byte) : Uart :=
  if u.loopback then u
  else if u.sendReady then { u with wire := u.wire ++ [data], sendReady := false }
  else { u with faults := u.faults + 1 }

def Uart.receive (u : Uart) : Uart :=
  if u.loopback then u
  else if u.received then { u with received := false }
  else { u with faults := u.faults + 1 }

def Uart.write (u : Uart) (offset : Port) (data : Byte) : Uart :=
  if offset = 0 then
    if u.dlab then { u with divisor := (u.divisor >>> 8).setWidth 8 ++ data } else u.send data
  else if offset = 1 then
    if u.dlab then { u with divisor := data ++ u.divisor.setWidth 8 } else { u with ier := data }
  else if offset = 2 then { u with fcr := data }
  else if offset = 3 then { u with lcr := data }
  else if offset = 4 then { u with mcr := data }
  else u

def Uart.read (u : Uart) (offset : Port) (value : Byte) : Uart :=
  if offset = 0 then if u.dlab then u else u.receive
  else if offset = 5 then { u with sendReady := value.getLsbD 5, received := value.getLsbD 0 }
  else u

/-- The UART after a trace, whose latest event comes first. -/
def Uart.after (u : Uart) (port : Port) : List Event → Uart
  | [] => u
  | .inb p value :: tr => (u.after port tr).read (p - port) value
  | .outb data p :: tr => (u.after port tr).write (p - port) data

/-- What is done with the port afterwards. -/
inductive Call where
  | write (byte : Byte)
  | read

def Call.run (port : Port) : Call → Driver Unit
  | .write byte => writeSerial port byte
  | .read => do let _ ← readSerial port

def Call.byte? : Call → Option Byte
  | .write byte => some byte
  | .read => none

def serve (port : Port) : List Call → Driver Unit
  | [] => pure ()
  | call :: calls => do
    call.run port
    serve port calls

def session (port : Port) (baud : BitVec 32) (calls : List Call) : Driver Unit := do
  serialInit port baud
  serve port calls

section Trace
variable {port : Port} {u : Uart} {tr : List Event}

theorem port_offset (port : Port) (offset : Byte) : port + offset.setWidth 16 - port = offset.setWidth 16 := by
  rw [BitVec.add_comm, BitVec.add_sub_cancel]

theorem after_outb (offset data : Byte) :
    u.after port (.outb data (port + offset.setWidth 16) :: tr) = (u.after port tr).write (offset.setWidth 16) data := by
  rw [Uart.after, port_offset]

theorem after_inb (offset value : Byte) :
    u.after port (.inb (port + offset.setWidth 16) value :: tr) = (u.after port tr).read (offset.setWidth 16) value := by
  rw [Uart.after, port_offset]

end Trace

/-! `serial_init` -/

/-- The writes of `serial_init` before it reads, the latest first. -/
def initWrites (port : Port) (baud : BitVec 32) : List Event :=
  let writes : List (Byte × Byte) :=
    [(0, 0xae), (4, 0x1e), (4, 0x0b), (2, 0xc7), (3, 0x03), (1, (divisorOf baud >>> 8).setWidth 8),
      (0, (divisorOf baud &&& 0xff).setWidth 8), (3, 0x80), (1, 0)]
  writes.map fun w => .outb w.2 (port + w.1.setWidth 16)

/-- The registers it sets; with `DLAB` on from before, the first write does not reach the interrupt enables. -/
def Uart.initialised (u : Uart) (baud : BitVec 32) (mcr : Byte) : Uart :=
  { u with
    ier := if u.dlab then u.ier else 0
    fcr := 0xc7
    lcr := 0x03
    mcr := mcr
    divisor := divisorOf baud }

theorem divisor_halves (d x : BitVec 16) :
    (d >>> 8).setWidth 8 ++ ((x >>> 8).setWidth 8 ++ (d &&& 0xff).setWidth 8 : BitVec 16).setWidth 8 = d := by
  apply BitVec.eq_of_getLsbD_eq
  intro i hi
  have hbits : ∀ i < 8, (0xff#16).getLsbD i = true := by decide
  rw [BitVec.getLsbD_append]
  by_cases hlow : i < 8
  · have hmask : ((d &&& 0xff).setWidth 8).getLsbD i = d.getLsbD i := by
      change ((d &&& 0xff#16).setWidth 8).getLsbD i = _
      rw [BitVec.getLsbD_setWidth, BitVec.getLsbD_and, hbits i hlow, decide_eq_true hlow, Bool.and_true,
        Bool.true_and]
    rw [if_pos hlow, BitVec.getLsbD_setWidth, BitVec.getLsbD_append, if_pos hlow, hmask, decide_eq_true hlow,
      Bool.true_and]
  · have hback : 8 + (i - 8) = i := by omega
    simp [hlow, hback]
    omega

section Write
variable (u : Uart) (data : Byte)

theorem write_fcr : u.write ((2 : Byte).setWidth 16) data = { u with fcr := data } := rfl

theorem write_lcr : u.write ((3 : Byte).setWidth 16) data = { u with lcr := data } := rfl

theorem write_mcr : u.write ((4 : Byte).setWidth 16) data = { u with mcr := data } := rfl

theorem write_low (h : u.dlab = true) : u.write ((0 : Byte).setWidth 16) data =
    { u with divisor := (u.divisor >>> 8).setWidth 8 ++ data } :=
  if_pos h

theorem write_high (h : u.dlab = true) : u.write ((1 : Byte).setWidth 16) data =
    { u with divisor := data ++ u.divisor.setWidth 8 } :=
  if_pos h

theorem write_ier (h : u.dlab = false) : u.write ((1 : Byte).setWidth 16) data = { u with ier := data } :=
  if_neg (Bool.not_eq_true _ ▸ h : ¬ u.dlab = true)

theorem write_data (h : u.dlab = false) : u.write ((0 : Byte).setWidth 16) data = u.send data :=
  if_neg (Bool.not_eq_true _ ▸ h : ¬ u.dlab = true)

/-- Both halves of the divisor are written between the two settings of `DLAB`. -/
theorem write_divisor (d : BitVec 16) :
    ((u.write ((3 : Byte).setWidth 16) 0x80).write ((0 : Byte).setWidth 16) ((d &&& 0xff).setWidth 8)).write
      ((1 : Byte).setWidth 16) ((d >>> 8).setWidth 8) = { u with lcr := 0x80, divisor := d } := by
  have hon : ∀ v : Uart, Uart.dlab { v with lcr := 0x80 } = true := fun v => (by decide : (0x80 : Byte).getLsbD 7 = true)
  rw [write_lcr, write_low _ _ (hon u)]
  refine (write_high _ _ (hon { u with divisor := _ })).trans ?_
  dsimp only
  rw [divisor_halves]

end Write

theorem dlab_initialised (u : Uart) (baud : BitVec 32) (mcr : Byte) : (u.initialised baud mcr).dlab = false :=
  (by decide : (0x03 : Byte).getLsbD 7 = false)

theorem loopback_test (u : Uart) (baud : BitVec 32) : (u.initialised baud 0x1e).loopback = true :=
  (by decide : (0x1e : Byte).getLsbD 4 = true)

theorem loopback_initialised (u : Uart) (baud : BitVec 32) (reply : Byte) :
    (u.initialised baud (if reply = 0xae then 0x0f else 0x1e)).loopback = (reply != 0xae) := by
  have hmodes : (0x0f : Byte).getLsbD 4 = false ∧ (0x1e : Byte).getLsbD 4 = true := by decide
  change (if reply = 0xae then 0x0f else 0x1e : Byte).getLsbD 4 = _
  by_cases h : reply = 0xae
  · rw [if_pos h, hmodes.1, h]
    rfl
  · rw [if_neg h, hmodes.2, bne_iff_ne.mpr h]

theorem after_initWrites (port : Port) (baud : BitVec 32) (u : Uart) :
    u.after port (initWrites port baud) = u.initialised baud 0x1e := by
  have hfirst : { u.write ((1 : Byte).setWidth 16) 0 with lcr := 0x80, divisor := divisorOf baud } =
      { u with ier := if u.dlab then u.ier else 0, lcr := 0x80, divisor := divisorOf baud } := by
    cases hd : u.dlab with
    | true => rw [write_high u 0 hd]; rfl
    | false => rw [write_ier u 0 hd]; rfl
  simp only [initWrites, List.map_cons, List.map_nil, after_outb]
  rw [write_divisor, Uart.after, hfirst, write_mcr, write_mcr, write_fcr, write_lcr]
  exact (write_data _ _ (dlab_initialised u baud 0x1e)).trans (if_pos (loopback_test u baud))

/-- A UART that does not answer the test stays in loopback mode. -/
theorem serialInit_eq (port : Port) (baud : BitVec 32) (reply : Byte) (replies : List Byte) :
    serialInit port baud ⟨reply :: replies, []⟩ = (some (), ⟨replies,
      (if reply = 0xae then [.outb 0x0f (port + (4#8).setWidth 16)] else []) ++
        .inb (port + (0#8).setWidth 16) reply :: initWrites port baud⟩) := by
  by_cases h : reply = 0xae
  · rw [h]
    rfl
  · rw [if_neg h]
    change (if reply ≠ 0xae then pure () else writeByte port 4 0x0f : Driver Unit) _ = _
    rw [if_pos h]
    rfl

theorem after_serialInit (port : Port) (baud : BitVec 32) (u : Uart) (reply : Byte) :
    u.after port ((if reply = 0xae then [.outb 0x0f (port + (4#8).setWidth 16)] else []) ++
      .inb (port + (0#8).setWidth 16) reply :: initWrites port baud) =
        u.initialised baud (if reply = 0xae then 0x0f else 0x1e) := by
  have hread : u.after port (.inb (port + (0#8).setWidth 16) reply :: initWrites port baud) =
      u.initialised baud 0x1e := by
    rw [after_inb, after_initWrites]
    change (if (u.initialised baud 0x1e).dlab then _ else (u.initialised baud 0x1e).receive) = _
    rw [dlab_initialised, if_neg Bool.false_ne_true, Uart.receive, if_pos (loopback_test u baud)]
  by_cases h : reply = 0xae
  · rw [if_pos h, if_pos h, List.singleton_append, after_outb, hread]
    rfl
  · rw [if_neg h, if_neg h, List.nil_append, hread]

/-! The calls -/

/-- The UART but for what the line status last showed. -/
def Shows (u : Uart) (port : Port) (s : Uart) (tr : List Event) : Prop :=
  ∃ sendReady received, u.after port tr = { s with sendReady := sendReady, received := received }

section Calls
variable {u s : Uart} {port : Port}

theorem takes_status (port : Port) (k : Byte → Bool) :
    Takes 1 (do return k (← readByte port 5) : Driver Bool) :=
  (takes_ask _).bind fun _ => takes_pure _

/-- One look at the line status. -/
theorem shows_status : Triple (Shows u port s) (Shows u port s) (readByte port 5) fun value tr =>
    u.after port tr = { s with sendReady := value.getLsbD 5, received := value.getLsbD 0 } := by
  refine triple_ask id fun value h => ?_
  obtain ⟨b, c, h⟩ := h
  rw [after_inb, h]
  rfl

/-- The loops on the line status end with the bit set. -/
theorem shows_await (k : Byte → Bool) :
    Triple (Shows u port s) (Shows u port s) (repeatWhile do return !k (← readByte port 5)) fun _ tr =>
      ∃ value, k value = true ∧
        u.after port tr = { s with sendReady := value.getLsbD 5, received := value.getLsbD 0 } := by
  refine Triple.repeatWhile (takes_status port fun value => !k value) ?_
  refine shows_status.bind fun value => Triple.pure _ fun h => ⟨fun _ => ⟨_, _, h⟩, fun hdone => ⟨value, ?_, h⟩⟩
  simpa using hdone

theorem bit_of_and {value bit : Byte} {n : Nat} (hbit : ∀ i < 8, bit.getLsbD i = true → i = n)
    (h : value &&& bit ≠ 0#8) : value.getLsbD n = true := by
  by_contra hclear
  refine h (BitVec.eq_of_getLsbD_eq fun i hi => ?_)
  rw [BitVec.getLsbD_and, BitVec.getLsbD_zero]
  cases hb : bit.getLsbD i with
  | false => rw [Bool.and_false]
  | true => rw [hbit i hi hb, Bool.eq_false_iff.mpr hclear, Bool.false_and]

/-- A byte for a transmitter that is empty. -/
theorem send_ready (s : Uart) (received : Bool) (byte : Byte) : ∃ sendReady,
    Uart.send { s with sendReady := true, received := received } byte =
      { s with
        wire := s.wire ++ if s.loopback then [] else [byte]
        sendReady := sendReady
        received := received } := by
  cases hl : s.loopback with
  | true =>
    rw [if_pos rfl, List.append_nil]
    exact ⟨true, if_pos hl⟩
  | false => exact ⟨false, (if_neg (Bool.eq_false_iff.mp hl)).trans (if_pos rfl)⟩

/-- A read from a receiver that has a byte. -/
theorem receive_ready (s : Uart) (sendReady : Bool) : ∃ received,
    Uart.receive { s with sendReady := sendReady, received := true } =
      { s with sendReady := sendReady, received := received } := by
  cases hl : s.loopback with
  | true => exact ⟨true, if_pos hl⟩
  | false => exact ⟨false, (if_neg (Bool.eq_false_iff.mp hl)).trans (if_pos rfl)⟩

/-- A byte is written once the transmitter has shown itself empty. -/
theorem shows_writeSerial (hd : s.dlab = false) (byte : Byte) :
    Triple (Shows u port s) (Shows u port s) (writeSerial port byte) fun _ =>
      Shows u port { s with wire := s.wire ++ if s.loopback then [] else [byte] } := by
  unfold writeSerial isTransmitEmpty
  simp only [bind_assoc, pure_bind]
  refine (shows_await fun value => value &&& 0x20 ≠ 0).bind fun _ => triple_say fun h => ?_
  obtain ⟨value, hvalue, h⟩ := h
  have hready : value.getLsbD 5 = true := bit_of_and (by decide) (of_decide_eq_true hvalue)
  obtain ⟨sendReady, hsend⟩ := send_ready s (value.getLsbD 0) byte
  refine ⟨sendReady, value.getLsbD 0, ?_⟩
  rw [after_outb, h, hready]
  exact (write_data { s with sendReady := true, received := _ } byte hd).trans hsend

theorem shows_readSerial (hd : s.dlab = false) :
    Triple (Shows u port s) (Shows u port s) (readSerial port) fun _ => Shows u port s := by
  unfold readSerial serialReceived
  simp only [bind_assoc, pure_bind]
  refine (shows_await fun value => value &&& 1 ≠ 0).bind fun _ => triple_ask ?_ fun byte h => ?_
  · rintro tr ⟨value, -, h⟩
    exact ⟨_, _, h⟩
  obtain ⟨value, hvalue, h⟩ := h
  have hready : value.getLsbD 0 = true := bit_of_and (by decide) (of_decide_eq_true hvalue)
  obtain ⟨received, hreceive⟩ := receive_ready s (value.getLsbD 5)
  refine ⟨value.getLsbD 5, received, ?_⟩
  rw [after_inb, h, hready]
  exact (if_neg (Bool.eq_false_iff.mp hd)).trans hreceive

/-- What the calls put on the line. -/
def Uart.sent (s : Uart) (calls : List Call) : List Byte := if s.loopback then [] else calls.filterMap Call.byte?

theorem shows_call (hd : s.dlab = false) (call : Call) :
    Triple (Shows u port s) (Shows u port s) (call.run port) fun _ =>
      Shows u port { s with wire := s.wire ++ s.sent [call] } := by
  cases call with
  | write byte => exact shows_writeSerial hd byte
  | read =>
    have hsent : s.sent [.read] = [] := ite_self _
    rw [hsent, List.append_nil]
    exact (shows_readSerial hd).bind fun _ => Triple.pure _ id

theorem sent_cons (s : Uart) (call : Call) (calls : List Call) :
    s.sent (call :: calls) = s.sent [call] ++ s.sent calls := by
  unfold Uart.sent
  split
  · rfl
  · rw [← List.filterMap_append, List.singleton_append]

/-- While the calls are served the line carries a beginning of what they put there. -/
theorem shows_serve (calls : List Call) (hd : s.dlab = false) :
    Triple (fun tr => ∃ l, l <+: s.sent calls ∧ Shows u port { s with wire := s.wire ++ l } tr)
      (Shows u port s) (serve port calls) fun _ => Shows u port { s with wire := s.wire ++ s.sent calls } := by
  induction calls generalizing s with
  | nil =>
    have hsent : s.sent [] = [] := ite_self _
    rw [hsent, List.append_nil]
    exact Triple.pure _ id
  | cons call calls ih =>
    have hstep := ih (s := { s with wire := s.wire ++ s.sent [call] }) hd
    have hrest : Uart.sent { s with wire := s.wire ++ s.sent [call] } calls = s.sent calls := rfl
    rw [hrest, List.append_assoc, ← sent_cons] at hstep
    rw [serve]
    refine Triple.bind ((shows_call hd call).waits fun h => ⟨[], List.nil_prefix, ?_⟩) fun _ => hstep.waits ?_
    · rwa [List.append_nil]
    · rintro tr ⟨l, hl, h⟩
      rw [List.append_assoc] at h
      refine ⟨s.sent [call] ++ l, ?_, h⟩
      rw [sent_cons s call calls]
      exact (List.prefix_append_right_inj _).mpr hl

end Calls

/-- A baud rate from 2 on has its divisor in 16 bits. -/
theorem divisorOf_toNat {baud : BitVec 32} (h : baud ≠ 0) :
    (divisorOf baud).toNat = CLOCK_RATE / baud.toNat ↔ 2 ≤ baud.toNat := by
  have hpos : baud.toNat ≠ 0 := fun h0 => h (BitVec.eq_of_toNat_eq h0)
  rw [divisorOf, BitVec.toNat_ofNat, Nat.mod_eq_iff_lt (by decide), Nat.div_lt_iff_lt_mul (by omega), CLOCK_RATE]
  omega

/-- A run of `serial_init` and of any calls of `write_serial` and `read_serial` behind it, against any UART in any
state. The data register is used outside loopback mode only when the line status has just shown that it may be. If
the UART passes the test, the bytes of the calls go out in order, so far as the calls are through; if it fails, it
is left in loopback mode and no byte ever goes out. Once `serial_init` is through, the line is set to 8N1 and the
divisor is the one for the baud rate unless that is 1; the interrupts are off unless `DLAB` was on before. -/
theorem session_transmits (port : Port) {baud : BitVec 32} (hbaud : baud ≠ 0) (u : Uart) (calls : List Call)
    (reply : Byte) (replies : List Byte) {result : Option Unit} {talk : Talk Byte Event}
    (hrun : session port baud calls ⟨reply :: replies, []⟩ = (result, talk)) :
    (u.after port talk.trace).faults = u.faults ∧
    (u.after port talk.trace).wire <+: u.wire ++ (if reply = 0xae then calls.filterMap Call.byte? else []) ∧
    (result = some () →
      (u.after port talk.trace).wire = u.wire ++ if reply = 0xae then calls.filterMap Call.byte? else []) ∧
    (u.after port talk.trace).loopback = (reply != 0xae) ∧
    (u.after port talk.trace).lcr = 0x03 ∧
    (u.after port talk.trace).ier = (if u.dlab then u.ier else 0) ∧
    ((u.after port talk.trace).divisor.toNat = CLOCK_RATE / baud.toNat ↔ 2 ≤ baud.toNat) := by
  rw [session, bind_of_some (serialInit_eq port baud reply replies)] at hrun
  have hinit := after_serialInit port baud u reply
  generalize (if reply = 0xae then [Event.outb 0x0f (port + (4#8).setWidth 16)] else []) ++
    .inb (port + (0#8).setWidth 16) reply :: initWrites port baud = tr at hrun hinit
  have hmode := loopback_initialised u baud reply
  have hdlab := dlab_initialised u baud (if reply = 0xae then 0x0f else 0x1e)
  generalize hs : u.initialised baud (if reply = 0xae then 0x0f else 0x1e) = s at hinit hmode hdlab
  have hsent : s.sent calls = if reply = 0xae then calls.filterMap Call.byte? else [] := by
    rw [Uart.sent, hmode]
    by_cases h : reply = 0xae
    · rw [if_pos h, h]
      rfl
    · rw [if_neg h, bne_iff_ne.mpr h, if_pos rfl]
  have hserve := shows_serve (u := u) calls hdlab ⟨replies, tr⟩ ⟨_, _, hinit⟩
  rw [hrun] at hserve
  have hshown : ∃ l, l <+: s.sent calls ∧ (result = some () → l = s.sent calls) ∧
      Shows u port { s with wire := s.wire ++ l } talk.trace := by
    cases result with
    | none =>
      obtain ⟨l, hl, h⟩ := hserve
      exact ⟨l, hl, nofun, h⟩
    | some _ => exact ⟨_, List.prefix_rfl, fun _ => rfl, hserve⟩
  obtain ⟨l, hl, hall, b, c, hafter⟩ := hshown
  rw [hsent] at hl hall
  rw [hafter, ← divisorOf_toNat hbaud]
  subst hs
  exact ⟨rfl, (List.prefix_append_right_inj _).mpr hl, fun h => congrArg (u.wire ++ ·) (hall h), hmode, rfl, rfl, Iff.rfl⟩

/-- A UART after a reset. -/
def resetUart : Uart := ⟨0, 0, 0, 0, 0, [], false, false, 0⟩

/-- The program and the replies of `session_transmits_hi`: in between a byte is awaited. -/
def greeting : Option Unit × Talk Byte Event :=
  session 0x3f8 38400 [.write 0x68, .read, .write 0x69] ⟨[0xae, 0x20, 0x60, 0x61, 0x0d, 0x00, 0x20], []⟩

theorem session_transmits_hi :
    greeting.1 = some () ∧ (resetUart.after 0x3f8 greeting.2.trace).wire = [0x68, 0x69] := by
  have hdone : greeting.1 = some () := by decide +kernel
  refine ⟨hdone, ?_⟩
  exact (session_transmits 0x3f8 (by decide : (38400 : BitVec 32) ≠ 0) resetUart [.write 0x68, .read, .write 0x69] 0xae
    [0x20, 0x60, 0x61, 0x0d, 0x00, 0x20] (Prod.eta greeting).symm).2.2.1 hdone

end NyaOS.Drivers.Serial
