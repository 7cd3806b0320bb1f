import NyaOS.Drivers.Ps2

/-! The configuration byte of the PS/2 controller over the start-up, against any controller that answers the
command `0x20` with it. -/
namespace NyaOS.Drivers.Ps2
open Library.Dialogue

/-- A kind of controller: with a second port or not, and what its self-test makes of the configuration byte. -/
structure Kind where
  dual : Bool
  reset : Byte → Byte

/-- What the next byte at the data port is. -/
inductive Answer where
  | other | config | selfTest
deriving DecidableEq

structure Controller where
  config : Byte
  /-- `0x60` was the latest command, so that the next byte is the configuration. -/
  configNext : Bool
  answer : Answer
  test : Option Byte

/-- The bits of the clocks: 4 for the first port, 5 for the second. -/
def Kind.configAfter (k : Kind) (config command : Byte) : Byte :=
  if command = 0xad then config ||| 0x10
  else if command = 0xae then config &&& ~~~0x10
  else if command = 0xa7 then if k.dual then config ||| 0x20 else config
  else if command = 0xa8 then if k.dual then config &&& ~~~0x20 else config
  else if command = 0xaa then k.reset config
  else config

def Controller.command (s : Controller) (k : Kind) (data : Byte) : Controller :=
  { s with
    config := k.configAfter s.config data
    configNext := data = 0x60
    answer := if data = 0x20 then .config else if data = 0xaa then .selfTest else s.answer }

def Controller.data (s : Controller) (data : Byte) : Controller :=
  if s.configNext then { s with config := data, configNext := false } else s

def Controller.answered (s : Controller) (value : Byte) : Controller :=
  { s with answer := .other, test := if s.answer = .selfTest then some value else s.test }

/-- The controller after a trace, whose latest event comes first. -/
def controller (k : Kind) (config : Byte) : List Event → Controller
  | [] => ⟨config, false, .other, none⟩
  | .inb port value :: tr => if port = DATA then (controller k config tr).answered value else controller k config tr
  | .outb data port :: tr =>
    if port = COMMAND then (controller k config tr).command k data
    else if port = DATA then (controller k config tr).data data
    else controller k config tr
  | .send _ _ :: tr => controller k config tr

/-- Where the configuration byte was asked for, it was what came. -/
def Honest (k : Kind) (config : Byte) : List Event → Prop
  | [] => True
  | .inb port value :: tr =>
    (port = DATA → (controller k config tr).answer = .config → value = (controller k config tr).config) ∧
      Honest k config tr
  | .outb _ _ :: tr => Honest k config tr
  | .send _ _ :: tr => Honest k config tr

instance decidableHonest (k : Kind) (config : Byte) : DecidablePred (Honest k config)
  | [] => instDecidableTrue
  | .inb _ _ :: tr =>
    have := decidableHonest k config tr
    inferInstanceAs (Decidable (_ ∧ _))
  | .outb _ _ :: tr => decidableHonest k config tr
  | .send _ _ :: tr => decidableHonest k config tr

/-- If the controller was honest, it is in the state, and `p` holds of the values that came. -/
def In (k : Kind) (config : Byte) (p : Prop) (s : Controller) (tr : List Event) : Prop :=
  Honest k config tr → p ∧ controller k config tr = s

/-- From one state to another, if the program returns. -/
abbrev Leads (k : Kind) (c : Byte) {α : Type} (p : Prop) (s : Controller) (x : Driver α)
    (Q : α → List Event → Prop) : Prop :=
  Triple (fun _ => True) (In k c p s) x Q

/-- Neither a byte of the configuration nor an answer is outstanding. -/
def idle (config : Byte) (test : Option Byte) : Controller := ⟨config, false, .other, test⟩

section Steps
variable {k : Kind} {c : Byte} {p : Prop} {s : Controller}

theorem leads_status : Leads k c p s (inb STATUS) fun _ => In k c p s :=
  triple_ask (fun _ => trivial) fun _ h hh => h hh.2

theorem leads_awaitInput : Leads k c p s awaitInput fun _ => In k c p s :=
  Triple.repeatWhile ((takes_inb STATUS).bind fun _ => takes_pure _)
    (leads_status.bind fun _ => Triple.pure _ fun h => ⟨fun _ => h, fun _ => h⟩)

theorem leads_command (data : Byte) : Leads k c p s (outb data COMMAND) fun _ => In k c p (s.command k data) :=
  triple_say fun h hh => ⟨(h hh).1, congrArg (Controller.command · k data) (h hh).2⟩

theorem leads_data (data : Byte) : Leads k c p s (outb data DATA) fun _ => In k c p (s.data data) :=
  triple_say fun h hh => ⟨(h hh).1, congrArg (Controller.data · data) (h hh).2⟩

theorem leads_writeCommand (data : Byte) :
    Leads k c p s (write data COMMAND) fun _ => In k c p (s.command k data) :=
  leads_awaitInput.bind fun _ => leads_command data

theorem leads_writeData (data : Byte) : Leads k c p s (write data DATA) fun _ => In k c p (s.data data) :=
  leads_awaitInput.bind fun _ => leads_data data

/-- A read of the data port, which tells the configuration if it was asked for. -/
theorem leads_inbData : Leads k c p s (inb DATA) fun value =>
    In k c (p ∧ (s.answer = .config → value = s.config)) (s.answered value) := by
  refine triple_ask (fun _ => trivial) fun value h hh => ?_
  obtain ⟨hp, hs⟩ := h hh.2
  have hvalue := hh.1 rfl
  rw [hs] at hvalue
  exact ⟨⟨hp, hvalue⟩, congrArg (Controller.answered · value) hs⟩

theorem leads_poll : Leads k c p s poll fun value =>
    In k c (p ∧ (s.answer = .config → value = s.config)) (s.answered value) :=
  Triple.bind (Triple.repeatWhile ((takes_inb STATUS).bind fun _ => takes_pure _)
    (leads_status.bind fun _ => Triple.pure _ fun h => ⟨fun _ => h, fun _ => h⟩)) fun _ => leads_inbData

/-- What is known of the values may be used to say the state otherwise. -/
theorem In.to {p' : Prop} {s' : Controller} {tr : List Event} (h : In k c p s tr) (hp : p → p' ∧ s = s') :
    In k c p' s' tr := by
  intro hh
  obtain ⟨hp₁, hs⟩ := h hh
  obtain ⟨hp', heq⟩ := hp hp₁
  exact ⟨hp', hs.trans heq⟩

end Steps

/-! What is said to the devices, and what comes from them, does not touch the configuration. -/

section Idle
variable {k : Kind} {c d : Byte} {p : Prop} {test : Option Byte}

/-- A program that leaves an idle controller as it is. -/
abbrev Stays (k : Kind) (c d : Byte) (p : Prop) (test : Option Byte) {α : Type} (x : Driver α) : Prop :=
  Leads k c p (idle d test) x fun _ => In k c p (idle d test)

theorem stays_inbData : Stays k c d p test (inb DATA) :=
  leads_inbData.weaken id fun h => h.to fun hp => ⟨hp.1, rfl⟩

theorem stays_poll : Stays k c d p test poll :=
  leads_poll.weaken id fun h => h.to fun hp => ⟨hp.1, rfl⟩

theorem stays_send (data : Byte) (port : Nat) : Stays k c d p test (send data port) := by
  have hcall : Stays k c d p test (say (.send data port)) := triple_say fun h hh => h hh
  refine hcall.bind fun _ => Triple.ite (fun _ => ?_) fun _ => ?_
  · exact leads_awaitInput.bind fun _ => leads_data data
  · exact (leads_command 0xd4).bind fun _ => leads_awaitInput.bind fun _ => leads_data data

theorem stays_drain : Stays k c d p test drain := by
  refine Triple.repeatWhile takes_drainRound (leads_status.bind fun value => Triple.ite ?_ ?_)
  · exact fun _ => Triple.pure _ fun h => ⟨fun _ => h, fun _ => h⟩
  · exact fun _ => stays_inbData.bind fun _ => Triple.pure _ fun h => ⟨fun _ => h, fun _ => h⟩

theorem stays_awaitAck : Stays k c d p test awaitAck :=
  Triple.repeatWhile (takes_poll.bind fun _ => takes_pure _)
    (stays_poll.bind fun _ => Triple.pure _ fun h => ⟨fun _ => h, fun _ => h⟩)

theorem stays_detectDevice (port : Nat) : Stays k c d p test (detectDevice port) :=
  (stays_send 0xf5 port).bind fun _ => stays_awaitAck.bind fun _ => (stays_send 0xf2 port).bind fun _ =>
    stays_awaitAck.bind fun _ => stays_poll

theorem stays_identifyDevices : Stays k c d p test identifyDevices :=
  (stays_detectDevice 0).bind fun _ => stays_drain.bind fun _ => (stays_detectDevice 1).bind fun _ => stays_drain

theorem stays_resetDevices (dualChannel : Bool) : Stays k c d p test (resetDevices dualChannel) := by
  refine (stays_send 0xff 0).bind fun _ => stays_poll.bind fun did => Triple.ite (fun _ => ?_) fun _ => ?_
  · exact Triple.pure _ id
  refine stays_poll.bind fun _ => stays_drain.bind fun _ => Triple.ite (fun _ => ?_) fun _ => ?_
  · refine stays_drain.bind fun _ => (stays_send 0xff 1).bind fun _ => stays_poll.bind fun did =>
      Triple.ite (fun _ => ?_) fun _ => ?_
    · exact Triple.pure _ id
    · exact stays_poll.bind fun _ => stays_drain.bind fun _ => stays_identifyDevices
  · exact stays_identifyDevices

/-- A command that is neither `0x20` nor `0x60` nor the self-test. -/
theorem idle_command (data : Byte) (h20 : data ≠ 0x20) (h60 : data ≠ 0x60) (haa : data ≠ 0xaa) :
    (idle d test).command k data = idle (k.configAfter d data) test := by
  rw [Controller.command, if_neg h20, if_neg haa, decide_eq_false h60]
  rfl

theorem leads_idle (data : Byte) (h20 : data ≠ 0x20) (h60 : data ≠ 0x60) (haa : data ≠ 0xaa) :
    Leads k c p (idle d test) (write data COMMAND) fun _ => In k c p (idle (k.configAfter d data) test) := by
  rw [← idle_command data h20 h60 haa]
  exact leads_writeCommand data

/-- The configuration is read with `0x20`. -/
theorem leads_ask : Leads k c p (idle d test) (write 0x20 COMMAND) fun _ => In k c p ⟨d, false, .config, test⟩ :=
  leads_writeCommand 0x20

theorem leads_told : Leads k c p ⟨d, false, .config, test⟩ read fun value => In k c (p ∧ value = d) (idle d test) :=
  leads_poll.weaken id fun h => h.to fun hp => ⟨⟨hp.1, hp.2 rfl⟩, rfl⟩

/-- It is written with `0x60`. -/
theorem leads_set (value : Byte) {f : Driver Unit} {Q : Unit → List Event → Prop}
    (h : Leads k c p (idle value test) f Q) :
    Leads k c p (idle d test) (do write 0x60 COMMAND; write value DATA; f) Q :=
  (leads_writeCommand 0x60).bind fun _ => (leads_writeData value).bind fun _ => h

theorem leads_dev1EnableIrq :
    Leads k c p (idle d test) dev1EnableIrq fun _ => In k c p (idle (d ||| 0x1) test) := by
  refine leads_ask.bind fun _ => leads_told.bind fun cfg => ?_
  refine (leads_writeCommand 0x60).bind fun _ => (leads_writeData (cfg ||| 0x1)).weaken id fun h => h.to ?_
  rintro ⟨hp, rfl⟩
  exact ⟨hp, rfl⟩

theorem leads_kbEnableScanning :
    Leads k c p (idle d test) kbEnableScanning fun _ => In k c p (idle (d ||| 0x1) test) := by
  have hscan : Leads k c p (idle d test) (do
      repeatWhile do
        send 0xf4 PORT
        return (← poll) = 0xfe
      dev1EnableIrq) fun _ => In k c p (idle (d ||| 0x1) test) := by
    refine Triple.bind (Triple.repeatWhile ?_ ?_) fun _ => leads_dev1EnableIrq
    · exact ((takes_send 0xf4).bind fun _ => takes_poll.bind fun _ => takes_pure _).mono (by decide)
    · exact (stays_send 0xf4 PORT).bind fun _ => stays_poll.bind fun _ =>
        Triple.pure _ fun h => ⟨fun _ => h, fun _ => h⟩
  refine (stays_send 0xf0 PORT).bind fun _ => stays_poll.bind fun first => Triple.ite (fun _ => ?_) fun _ => hscan
  refine (stays_send 0 PORT).bind fun _ => stays_poll.bind fun second => Triple.ite (fun _ => ?_) fun _ => hscan
  exact stays_poll.bind fun _ => hscan

/-- The rest of `ps2_init` once the channels are known, for a configuration that has the clocks on. -/
theorem leads_interfaceTests (dualChannel : Bool) (h1 : p → k.configAfter d 0xae = d)
    (h2 : p → dualChannel = true → k.configAfter d 0xa8 = d) :
    Stays k c d p test (interfaceTests dualChannel) := by
  have henable : Stays k c d p test (enableDevices dualChannel) := by
    have hfirst : Stays k c d p test (write 0xae COMMAND) :=
      (leads_idle 0xae (by decide) (by decide) (by decide)).weaken id fun h => h.to fun hp => ⟨hp, by rw [h1 hp]⟩
    refine hfirst.bind fun _ => Triple.ite (fun hdual => ?_) fun _ => stays_resetDevices _
    have hsecond : Stays k c d p test (write 0xa8 COMMAND) :=
      (leads_idle 0xa8 (by decide) (by decide) (by decide)).weaken id fun h => h.to fun hp => ⟨hp, by rw [h2 hp hdual]⟩
    exact hsecond.bind fun _ => stays_resetDevices _
  refine Triple.bind (leads_idle 0xab (by decide) (by decide) (by decide)) fun _ => stays_poll.bind fun res =>
    Triple.ite (fun _ => Triple.pure _ id) fun _ => Triple.ite (fun _ => ?_) fun _ => henable
  exact Triple.bind (leads_idle 0xa9 (by decide) (by decide) (by decide)) fun _ => stays_poll.bind fun _ =>
    Triple.ite (fun _ => Triple.pure _ id) fun _ => henable

end Idle

/-- The configuration before the self-test: the interrupt of the first port and the translation off. -/
def Kind.quiet (k : Kind) (config : Byte) : Byte :=
  (config ||| if k.dual then 0x20 else 0) &&& ~~~0x51

/-- The configuration behind a self-test that was passed. With two channels the interrupt of the second is off
too. -/
def Kind.settled (k : Kind) (config : Byte) : Byte :=
  config &&& ~~~(if k.dual ∨ config &&& 0x20 = 0 then 0x73 else 0x51)

/-- What `ps2_init` makes of the configuration, with the answer of the self-test. -/
def Settled (k : Kind) (c d : Byte) (test : Byte) : Prop :=
  d = if test = 0x55 then k.settled c else k.reset (k.quiet c)

section Bits
variable (k : Kind) (c : Byte)

theorem quiet_eq : k.configAfter (k.configAfter c 0xad) 0xa7 &&& ~~~0b1010001 = k.quiet c := by
  have hbits : ∀ (dual : Bool) (c : Byte), (if dual then c ||| 0x10 ||| 0x20 else c ||| 0x10) &&& ~~~0b1010001 =
      (c ||| if dual then 0x20 else 0) &&& ~~~0x51 := by decide +kernel
  exact hbits k.dual c

/-- The configuration that tells the number of channels. -/
theorem channels_eq : k.configAfter (k.quiet c) 0xa8 &&& 0x20 = 0 ↔ k.dual ∨ c &&& 0x20 = 0 := by
  have hbits : ∀ (dual : Bool) (c : Byte), (if dual then ((c ||| if dual then 0x20 else 0) &&& ~~~0x51) &&& ~~~0x20
      else (c ||| if dual then 0x20 else 0) &&& ~~~0x51) &&& 0x20 = 0 ↔ dual ∨ c &&& 0x20 = 0 := by decide +kernel
  exact hbits k.dual c

/-- With two channels the byte written is the settled one, with one it is as it was read. -/
theorem settled_eq : (if k.configAfter (k.quiet c) 0xa8 &&& 0x20 = 0 then
    k.configAfter (k.quiet c) 0xa8 &&& ~~~0b100010 else k.configAfter (k.quiet c) 0xa8) = k.settled c := by
  simp only [channels_eq]
  have hbits : ∀ (dual : Bool) (c : Byte), (if dual ∨ c &&& 0x20 = 0 then
      (if dual then ((c ||| if dual then 0x20 else 0) &&& ~~~0x51) &&& ~~~0x20
        else (c ||| if dual then 0x20 else 0) &&& ~~~0x51) &&& ~~~0b100010
      else if dual then ((c ||| if dual then 0x20 else 0) &&& ~~~0x51) &&& ~~~0x20
        else (c ||| if dual then 0x20 else 0) &&& ~~~0x51) =
      c &&& ~~~(if dual ∨ c &&& 0x20 = 0 then 0x73 else 0x51) := by decide +kernel
  exact hbits k.dual c

theorem settled_first : k.configAfter (k.settled c) 0xae = k.settled c := by
  have hbits : ∀ (dual : Bool) (c : Byte), c &&& ~~~(if dual ∨ c &&& 0x20 = 0 then 0x73 else 0x51) &&& ~~~0x10 =
      c &&& ~~~(if dual ∨ c &&& 0x20 = 0 then 0x73 else 0x51) := by decide +kernel
  exact hbits k.dual c

theorem settled_second : k.configAfter (k.settled c) 0xa8 = k.settled c := by
  have hbits : ∀ (dual : Bool) (c : Byte), (if dual then
      c &&& ~~~(if dual ∨ c &&& 0x20 = 0 then 0x73 else 0x51) &&& ~~~0x20
      else c &&& ~~~(if dual ∨ c &&& 0x20 = 0 then 0x73 else 0x51)) =
      c &&& ~~~(if dual ∨ c &&& 0x20 = 0 then 0x73 else 0x51) := by decide +kernel
  exact hbits k.dual c

end Bits

section StartUp
variable {k : Kind} {c : Byte}

/-- `ps2_init` behind a self-test that was passed; `cfg` is what it has written. -/
theorem leads_channels {cfg test : Byte} (htest : test = 0x55) :
    Leads k c (cfg = k.quiet c) (idle cfg (some test)) (do
      write 0xa8 COMMAND
      write 0x20 COMMAND
      let cfg ← read
      if cfg &&& 0x20 = 0 then
        write 0xa7 COMMAND
        write 0x60 COMMAND
        write (cfg &&& ~~~0b100010) DATA
      interfaceTests (cfg &&& 0x20 = 0)) fun _ tr =>
    ∃ d test, Settled k c d test ∧ In k c True (idle d (some test)) tr := by
  have hdone : ∀ {d : Byte} {p : Prop} {tr : List Event}, (p → d = k.settled c) →
      In k c p (idle d (some test)) tr → ∃ d test, Settled k c d test ∧ In k c True (idle d (some test)) tr :=
    fun hd h => ⟨k.settled c, test, (if_pos htest).symm, h.to fun hp => ⟨trivial, by rw [hd hp]⟩⟩
  refine (leads_idle 0xa8 (by decide) (by decide) (by decide)).bind fun _ => leads_ask.bind fun _ =>
    leads_told.bind fun cfg' => Triple.ite (fun hdual => ?_) fun hdual => ?_
  · have hd : cfg = k.quiet c ∧ cfg' = k.configAfter cfg 0xa8 → cfg' &&& ~~~0b100010 = k.settled c := by
      rintro ⟨rfl, rfl⟩
      rw [← settled_eq, if_pos hdual]
    refine (leads_idle 0xa7 (by decide) (by decide) (by decide)).bind fun _ => leads_set _ ?_
    refine (leads_interfaceTests _ ?_ ?_).weaken id (hdone hd)
    · intro hp
      rw [hd hp, settled_first]
    · intro hp _
      rw [hd hp, settled_second]
  · have hd : cfg = k.quiet c ∧ cfg' = k.configAfter cfg 0xa8 → k.configAfter cfg 0xa8 = k.settled c := by
      rintro ⟨rfl, rfl⟩
      rw [← settled_eq, if_neg hdual]
    refine (leads_interfaceTests _ ?_ ?_).weaken id (hdone hd)
    · intro hp
      rw [hd hp, settled_first]
    · intro hp _
      rw [hd hp, settled_second]

/-- `ps2_init`, however far it goes. -/
theorem leads_ps2Init : Leads k c True (idle c none) ps2Init fun _ tr =>
    ∃ d test, Settled k c d test ∧ In k c True (idle d (some test)) tr := by
  refine Triple.ite (fun h => nomatch h) fun _ => ?_
  refine Triple.bind ((leads_idle 0xad (by decide) (by decide) (by decide)).bind fun _ =>
    leads_idle 0xa7 (by decide) (by decide) (by decide)) fun _ => stays_inbData.bind fun _ =>
    leads_ask.bind fun _ => leads_told.bind fun cfg => leads_set (cfg &&& ~~~0b1010001) ?_
  have hquiet : True ∧ cfg = k.configAfter (k.configAfter c 0xad) 0xa7 → cfg &&& ~~~0b1010001 = k.quiet c := by
    rintro ⟨-, rfl⟩
    exact quiet_eq k c
  generalize cfg &&& ~~~0b1010001 = cfg' at hquiet ⊢
  have hstart : ∀ {tr : List Event}, In k c (True ∧ cfg = k.configAfter (k.configAfter c 0xad) 0xa7)
      (idle cfg' none) tr → In k c (cfg' = k.quiet c) (idle cfg' none) tr := fun h => h.to fun hp => ⟨hquiet hp, rfl⟩
  refine Triple.weaken (Triple.bind (leads_writeCommand 0xaa) fun _ => leads_poll.bind fun test =>
    Triple.ite (fun htest => ?_) fun htest => ?_) hstart id
  · refine Triple.pure _ fun h => ⟨k.reset (k.quiet c), test, (if_neg htest).symm, h.to ?_⟩
    rintro ⟨rfl, -⟩
    exact ⟨trivial, rfl⟩
  · refine leads_set cfg' (Triple.weaken (leads_channels (not_not.mp htest)) (fun h => h.to fun hp => ⟨hp.1, rfl⟩) id)

end StartUp

/-- The configuration byte after `ps2_init`, however far it went, and `kb_enable_scanning`, for every controller
that answers `0x20` with it, whatever the byte was, whatever the self-test makes of it and whatever the devices
answer. The interrupt of the keyboard is on. If the self-test was passed, the translation of scan codes is off and
the clock of the keyboard on, and with two channels the clock of the second is on and its interrupt off; every other
bit is as it was. If it failed, the byte is otherwise as the test left it. -/
theorem startUp_config {k : Kind} {c : Byte} {replies : List Byte} (hreturn : (startUp ⟨replies, []⟩).1 = some ())
    (hhonest : Honest k c (startUpTrace replies)) :
    ∃ test, (controller k c (startUpTrace replies)).test = some test ∧
      (controller k c (startUpTrace replies)).config =
        (if test = 0x55 then c &&& ~~~(if k.dual ∨ c &&& 0x20 = 0 then 0x73 else 0x51)
          else k.reset ((c ||| if k.dual then 0x20 else 0) &&& ~~~0x51)) ||| 0x1 := by
  have hrun : Leads k c True (idle c none) startUp fun _ tr =>
      ∃ d test, Settled k c d test ∧ In k c True (idle (d ||| 0x1) (some test)) tr := by
    refine leads_ps2Init.bind fun _ => ?_
    rintro t ⟨d, test, hd, hin⟩
    have hscan : Leads k c True (idle d (some test)) kbEnableScanning fun _ tr =>
        ∃ d test, Settled k c d test ∧ In k c True (idle (d ||| 0x1) (some test)) tr :=
      leads_kbEnableScanning.weaken id fun h => ⟨d, test, hd, h⟩
    exact hscan t hin
  have hstart : In k c True (idle c none) [] := fun _ => ⟨trivial, rfl⟩
  have hend := hrun ⟨replies, []⟩ hstart
  unfold startUpTrace at hhonest ⊢
  rcases hresult : startUp ⟨replies, []⟩ with ⟨r, t⟩
  rw [hresult] at hend hhonest hreturn
  dsimp only at hreturn
  subst hreturn
  obtain ⟨d, test, hd, hin⟩ := hend
  obtain ⟨-, hctl⟩ := hin hhonest
  refine ⟨test, congrArg Controller.test hctl, (congrArg Controller.config hctl).trans ?_⟩
  exact congrArg (· ||| 0x1) hd

/-- A controller with one channel and the translation on. -/
def singleChannel : Kind := ⟨false, fun _ => 0⟩

/-- Its answers, and those of a keyboard. -/
@[irreducible] def keyboardReplies : List Byte :=
  [0, 0, 0, 0, 1, 0x75, 0, 0, 0, 1, 0x55, 0, 0, 0, 0, 1, 0x24, 0, 1, 0x00, 0, 0, 1, 0xfa, 1, 0xaa, 0,
    0, 1, 0xfa, 0, 1, 0xfa, 1, 0xab, 0, 0, 1, 0xfa, 0, 1, 0xfa, 1, 0x00, 0,
    0, 1, 0xfa, 0, 1, 0xfa, 1, 0x02, 0, 1, 0xfa, 0, 1, 0x24, 0, 0]

private theorem keyboard_honest : Honest singleChannel 0x65 (startUpTrace keyboardReplies) := by decide +kernel

theorem startUp_config_single : (startUp ⟨keyboardReplies, []⟩).1 = some () ∧
    Honest singleChannel 0x65 (startUpTrace keyboardReplies) ∧
    (controller singleChannel 0x65 (startUpTrace keyboardReplies)).config = 0x25 := by
  have hreturn : (startUp ⟨keyboardReplies, []⟩).1 = some () := by decide +kernel
  have hpassed : (controller singleChannel 0x65 (startUpTrace keyboardReplies)).test = some 0x55 := by decide +kernel
  obtain ⟨test, htest, hconfig⟩ := startUp_config hreturn keyboard_honest
  rw [Option.some.inj (htest.symm.trans hpassed)] at hconfig
  refine ⟨hreturn, keyboard_honest, hconfig.trans ?_⟩
  decide

end NyaOS.Drivers.Ps2
