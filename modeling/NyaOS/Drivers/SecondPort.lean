import NyaOS.Drivers.Ps2
import NyaOS.Library.Answers

/-! Whether `ps2_init` writes to the second port of a controller that has only one channel. -/
namespace NyaOS.Drivers.Ps2
open Library.Dialogue
open scoped Computability

deriving instance DecidableEq for Event

/-- The trace of `ps2_init` against a controller that has given these replies so far. -/
def ps2InitTrace (replies : List Byte) : List Event := (ps2Init ⟨replies, []⟩).2.trace

/-- The configuration byte: the first byte read from the data port after command `0xa8`. -/
def config : List Event → Option Byte
  | [] => none
  | e :: trace =>
    match config trace, e with
    | some cfg, _ => some cfg
    | none, .inb port value => if port = DATA ∧ .outb 0xa8 COMMAND ∈ trace then some value else none
    | none, _ => none

/-- The controller has said that there is no second channel. -/
def SingleChannel (trace : List Event) : Prop := ∃ cfg, config trace = some cfg ∧ cfg &&& 0x20 ≠ 0

/-- The next byte is for the second port. -/
def Addressed (trace : List Event) : Prop := .outb 0xd4 COMMAND ∈ trace

/-! The replies that take `ps2_init` through to the second device. -/

def any (_ : Byte) : Prop := True

/-- One byte with the property. -/
def byte (c : Byte → Prop) : Language Byte := words c fun b => {[b]}

/-- Status bytes until the input buffer is empty. -/
def ready : Language Byte := (byte fun s => s &&& 0x2 ≠ 0)∗ * byte fun s => s &&& 0x2 = 0

/-- Status bytes until the output buffer is full. -/
def filled : Language Byte := (byte fun s => s &&& 0x1 = 0)∗ * byte fun s => ¬ s &&& 0x1 = 0

/-- A byte to be read, with the property. -/
def answer (c : Byte → Prop) : Language Byte := filled * byte c

/-- Bytes that are thrown away, until the output buffer is empty. -/
def drained : Language Byte :=
  ((byte fun s => ¬ s &&& 0x1 = 0) * byte any)∗ * byte fun s => s &&& 0x1 = 0

/-- Bytes up to the first acknowledgement. -/
def acked : Language Byte := (answer fun b => b ≠ 0xfa)∗ * answer fun b => b = 0xfa

/-- The first device acknowledges both commands and tells what it is. -/
def identified : Language Byte := List.prod [ready, acked, ready, acked, answer any, drained]

/-- It is reset before that. -/
def restarted : Language Byte :=
  List.prod [ready, answer fun b => b = 0xfa ∨ b = 0xaa, answer any, drained, identified]

/-- The first port is tested before that. -/
def tested : Language Byte := List.prod [ready, answer fun b => b = 0x00, ready, restarted]

/-- A controller with one channel passes its tests, and its device is reset and tells what it is. -/
def firstIdentified : Language Byte := List.prod [
  -- the devices are disabled and the configuration is written
  ready, ready, byte any, ready, answer any, ready, ready,
  -- the self test
  ready, answer fun b => b = 0x55, ready, ready,
  -- the second port is enabled, and reported missing
  ready, ready, answer fun cfg => cfg &&& 0x20 ≠ 0, tested]

section Replies

theorem answers_inb (port : Nat) : Answers (inb port) fun b => {[b]} := answers_ask _

/-- A loop that reads the status port. -/
theorem answers_status (c : Byte → Prop) [DecidablePred c] :
    Answers (repeatWhile (inb STATUS >>= fun s => pure (decide (c s)))) fun _ =>
      (byte c)∗ * byte fun s => ¬ c s := by
  refine (((answers_inb STATUS).map fun s => decide (c s)).repeatWhile
    ((takes_inb STATUS).bind fun _ => takes_pure _)).congr fun _ => ?_
  rw [words_congr fun s => decide_eq_true_iff, words_congr fun s => decide_eq_false_iff_not]
  rfl

theorem answers_awaitInput : Answers awaitInput fun _ => ready := by
  refine (answers_status fun s => s &&& 0x2 ≠ 0).congr fun _ => ?_
  rw [ready, byte, byte, byte, words_congr (c := fun s => ¬ s &&& 0x2 ≠ 0) fun s => not_not]

theorem answers_write (data : Byte) (port : Nat) : Answers (write data port) fun _ => ready :=
  (answers_awaitInput.then fun _ => answers_say _).congr fun _ => mul_one _

theorem answers_poll : Answers poll fun b => filled * {[b]} :=
  (answers_status fun s => s &&& 0x1 = 0).then fun _ => answers_inb DATA

theorem answers_read : Answers read fun b => filled * {[b]} := answers_poll

theorem words_poll (c : Byte → Prop) : words c (fun b => filled * {[b]}) = answer c := words_mul filled

theorem answers_send (data : Byte) : Answers (send data 0) fun _ => ready := by
  refine ((answers_say _).then fun _ => ?_).congr fun _ => one_mul ready
  exact (answers_awaitInput.then fun _ => answers_say _).congr fun _ => mul_one _

theorem answers_awaitAck : Answers awaitAck fun _ => acked := by
  refine ((answers_poll.map fun b => decide (b ≠ 0xfa)).repeatWhile
    (takes_poll.bind fun _ => takes_pure _)).congr fun _ => ?_
  rw [words_congr fun b => decide_eq_true_iff, words_congr fun b => decide_eq_false_iff_not,
    words_poll, words_poll, acked]
  simp only [ne_eq, not_not]

theorem answers_drain : Answers drain fun _ => drained := by
  have hround := (answers_inb STATUS).bind_ite (c := fun s => s &&& 0x1 = 0)
    (fun _ => answers_pure false) fun _ => (answers_inb DATA).map fun _ => true
  refine (hround.repeatWhile takes_drainRound).congr fun _ => ?_
  have hany : words (fun _ : Byte => true = true) (fun b => ({[b]} : Language Byte)) = byte any :=
    words_congr fun _ => iff_of_true rfl trivial
  rw [emptyIf_true rfl, emptyIf_false Bool.true_eq_false.mp, words_none fun _ => Bool.true_eq_false.mp,
    hany, mul_zero, mul_zero, mul_one, zero_add, add_zero]
  rfl

end Replies

/-- An event that writes no command outside `S`. -/
def Allowed (S : Byte → Prop) : Event → Prop
  | .outb data port => port = COMMAND → S data
  | _ => True

section Commands
variable {S : Byte → Prop}

/-- A loop that reads the status port notes nothing else. -/
theorem notes_status {C : Event → Prop} (h : ∀ value, C (.inb STATUS value)) (again : Byte → Bool) :
    Notes C (repeatWhile (inb STATUS >>= fun value => pure (again value))) :=
  ((notes_ask h).bind fun _ => notes_pure _).repeatWhile

theorem notes_inb (port : Nat) : Notes (Allowed S) (inb port) := notes_ask fun _ => trivial

theorem notes_data (data : Byte) : Notes (Allowed S) (outb data DATA) :=
  notes_say fun h => absurd h (by decide)

theorem notes_awaitInput : Notes (Allowed S) awaitInput := notes_status (fun _ => trivial) _

theorem notes_write {data : Byte} {port : Nat} (h : port = COMMAND → S data) :
    Notes (Allowed S) (write data port) :=
  notes_awaitInput.bind fun _ => notes_say h

theorem notes_poll : Notes (Allowed S) poll :=
  (notes_status (fun _ => trivial) _).bind fun _ => notes_inb DATA

theorem notes_read : Notes (Allowed S) read := notes_poll

theorem notes_drain : Notes (Allowed S) drain :=
  ((notes_inb STATUS).bind fun _ => (notes_pure _).ite
    ((notes_inb DATA).bind fun _ => notes_pure _)).repeatWhile

theorem notes_awaitAck : Notes (Allowed S) awaitAck := (notes_poll.bind fun _ => notes_pure _).repeatWhile

/-- Only a byte for the second port needs a command. -/
theorem notes_send {data : Byte} {port : Nat} (h : port ≠ 0 → S 0xd4) :
    Notes (Allowed S) (send data port) := by
  refine (notes_say trivial).bind fun _ => ?_
  split
  · exact notes_awaitInput.bind fun _ => notes_data data
  · next hport =>
    exact (notes_say fun _ => h hport).bind fun _ => notes_awaitInput.bind fun _ => notes_data data

theorem notes_detectDevice {port : Nat} (h : port ≠ 0 → S 0xd4) :
    Notes (Allowed S) (detectDevice port) :=
  (notes_send h).bind fun _ => notes_awaitAck.bind fun _ => (notes_send h).bind fun _ =>
    notes_awaitAck.bind fun _ => notes_poll

end Commands

section Anything

theorem notes_identifyDevices : Notes (Allowed fun _ => True) identifyDevices :=
  (notes_detectDevice fun _ => trivial).bind fun _ => notes_drain.bind fun _ =>
    (notes_detectDevice fun _ => trivial).bind fun _ => notes_drain

theorem notes_resetDevices (dualChannel : Bool) :
    Notes (Allowed fun _ => True) (resetDevices dualChannel) := by
  have hsend : ∀ port, Notes (Allowed fun _ => True) (send 0xff port) := fun _ => notes_send fun _ => trivial
  refine (hsend 0).bind fun _ => notes_poll.bind fun _ => (notes_pure _).ite ?_
  refine notes_poll.bind fun _ => notes_drain.bind fun _ => Notes.ite ?_ notes_identifyDevices
  refine notes_drain.bind fun _ => (hsend 1).bind fun _ => notes_poll.bind fun _ => (notes_pure _).ite ?_
  exact notes_poll.bind fun _ => notes_drain.bind fun _ => notes_identifyDevices

theorem notes_interfaceTests (dualChannel : Bool) :
    Notes (Allowed fun _ => True) (interfaceTests dualChannel) := by
  have hwrite : ∀ data, Notes (Allowed fun _ => True) (write data COMMAND) :=
    fun _ => notes_write fun _ => trivial
  have henable : Notes (Allowed fun _ => True) (enableDevices dualChannel) :=
    (hwrite 0xae).bind fun _ => Notes.ite ((hwrite 0xa8).bind fun _ => notes_resetDevices dualChannel)
      (notes_resetDevices dualChannel)
  refine (hwrite 0xab).bind fun _ => notes_read.bind fun _ => (notes_pure _).ite ?_
  refine Notes.ite ?_ henable
  exact (hwrite 0xa9).bind fun _ => notes_read.bind fun _ => (notes_pure _).ite henable

end Anything

/-! The run up to the second device. -/

/-- A controller with one channel was addressed on its second port. -/
def Misaddressed (trace : List Event) : Prop := SingleChannel trace ∧ Addressed trace

/-- The second port has not been enabled. -/
def Before (trace : List Event) : Prop :=
  config trace = none ∧ .outb 0xa8 COMMAND ∉ trace ∧ ¬ Addressed trace

/-- The second port has been enabled and the configuration is still to be read. -/
def Pending (trace : List Event) : Prop :=
  config trace = none ∧ .outb 0xa8 COMMAND ∈ trace ∧ ¬ Addressed trace

def Configured (cfg : Byte) (trace : List Event) : Prop := config trace = some cfg ∧ ¬ Addressed trace

/-- What commands of `S` keep, while the second port is not addressed. -/
structure Stage (S : Byte → Prop) (P : List Event → Prop) : Prop where
  keeps : ∀ e tr, Allowed S e → P tr → P (e :: tr)
  unaddressed : ∀ tr, P tr → ¬ Addressed tr

section Events
variable {e : Event} {tr : List Event}

theorem config_cons {cfg : Byte} (h : config tr = some cfg) : config (e :: tr) = some cfg := by
  simp only [config, h]

/-- Before command `0xa8` no data byte is taken for the configuration. -/
theorem config_none (h : config tr = none)
    (hread : ∀ value, e = .inb DATA value → .outb 0xa8 COMMAND ∉ tr) : config (e :: tr) = none := by
  cases e with
  | inb port value =>
    simp only [config, h]
    exact if_neg fun hc => hread value (by rw [hc.1]) hc.2
  | outb data port => simp only [config, h]
  | send data port => simp only [config, h]

/-- The first data byte after it is. -/
theorem config_some {value : Byte} (h : config tr = none) (henable : .outb 0xa8 COMMAND ∈ tr) :
    config (.inb DATA value :: tr) = some value := by
  simp only [config, h, henable, and_self, if_true]

theorem misaddressed_cons (h : Misaddressed tr) : Misaddressed (e :: tr) := by
  obtain ⟨⟨cfg, hcfg, hbit⟩, haddressed⟩ := h
  exact ⟨⟨cfg, config_cons hcfg, hbit⟩, List.mem_cons_of_mem _ haddressed⟩

/-- A command that is not allowed is not written. -/
theorem command_notMem {S : Byte → Prop} {data : Byte} (he : Allowed S e) (hdata : ¬ S data)
    (h : .outb data COMMAND ∉ tr) : .outb data COMMAND ∉ e :: tr := by
  rintro (_ | ⟨_, hmem⟩)
  · exact hdata (he rfl)
  · exact h hmem

end Events

theorem before_stage : Stage (fun data => data ≠ 0xa8 ∧ data ≠ 0xd4) Before where
  keeps _ _ he h := ⟨config_none h.1 fun _ _ => h.2.1, command_notMem he (fun hs => hs.1 rfl) h.2.1,
    command_notMem he (fun hs => hs.2 rfl) h.2.2⟩
  unaddressed _ h := h.2.2

theorem configured_stage (cfg : Byte) : Stage (fun data => data ≠ 0xd4) (Configured cfg) where
  keeps _ _ he h := ⟨config_cons h.1, command_notMem he (fun hs => hs rfl) h.2⟩
  unaddressed _ h := h.2

section Run
variable {S : Byte → Prop} {P : List Event → Prop} {M : Language Byte} {α β : Type}

/-- In a run of `x` no controller is misaddressed. -/
abbrev Quiet (P : List Event → Prop) (x : Driver α) (Q : α → List Event → Prop) : Prop :=
  Triple (fun tr => ¬ Misaddressed tr) P x Q

theorem Stage.quiet (h : Stage S P) {x : Driver α} (hx : Notes (Allowed S) x) : Quiet P x fun _ => P :=
  hx.keeps h.keeps fun tr hP hmis => h.unaddressed tr hP hmis.2

theorem Stage.comes_next (h : Stage S P) {x : Driver Unit} {f : Unit → Driver β} {K : Language Byte}
    (hx : Notes (Allowed S) x) (hK : Answers x fun _ => K) (hf : ∀ u, Comes Misaddressed P (f u) M) :
    Comes Misaddressed P (x >>= f) (K * M) :=
  Comes.next (h.quiet hx) hK (words_unit K) hf

theorem Stage.comes_write (h : Stage S P) {data : Byte} {port : Nat} {f : Unit → Driver β}
    (hdata : port = COMMAND → S data) (hf : ∀ u, Comes Misaddressed P (f u) M) :
    Comes Misaddressed P (write data port >>= f) (ready * M) :=
  h.comes_next (notes_write hdata) (answers_write data port) hf

/-- The byte that is read decides whether the run goes on. -/
theorem Stage.comes_poll (h : Stage S P) {f : Byte → Driver β} (c : Byte → Prop)
    (hf : ∀ b, c b → Comes Misaddressed P (f b) M) (hno : ∀ b, ¬ c b → Comes Misaddressed P (f b) 0) :
    Comes Misaddressed P (poll >>= f) (answer c * M) := by
  rw [← words_poll]
  exact Comes.bind c (h.quiet notes_poll) answers_poll hf hno

theorem Stage.comes_any (h : Stage S P) {f : Byte → Driver β} (hf : ∀ b, Comes Misaddressed P (f b) M) :
    Comes Misaddressed P (poll >>= f) (answer any * M) :=
  h.comes_poll any (fun b _ => hf b) fun _ hno => absurd trivial hno

theorem Stage.comes_pure (h : Stage S P) (a : α) : Comes Misaddressed P (pure a : Driver α) 0 :=
  comes_never (Triple.pure a fun hP hmis => h.unaddressed _ hP hmis.2)

/-- From then on anything may happen. -/
theorem misaddressed_kept {x : Driver α} (hx : Notes (Allowed fun _ => True) x) :
    Triple Misaddressed Misaddressed x fun _ => Misaddressed :=
  hx.keeps (fun _ _ _ h => misaddressed_cons h) fun _ h => h

/-- A controller with two channels is not asked about. -/
theorem comes_dual {cfg : Byte} (hbit : cfg &&& 0x20 = 0) {x : Driver α}
    (hx : Notes (Allowed fun _ => True) x) : Comes Misaddressed (Configured cfg) x 0 := by
  have hdual : ∀ tr, config tr = some cfg → ¬ Misaddressed tr := by
    rintro tr hcfg ⟨⟨cfg', hcfg', hbit'⟩, -⟩
    rw [hcfg] at hcfg'
    cases hcfg'
    exact hbit' hbit
  refine comes_never ?_
  refine Triple.weaken (hx.keeps (P := fun tr => config tr = some cfg) ?_ hdual)
    (fun h => h.1) fun h => hdual _ h
  exact fun _ _ _ h => config_cons h

variable {cfg : Byte}

/-- The second device is asked what it is without a look at the channels. -/
theorem comes_second (hbit : cfg &&& 0x20 ≠ 0) :
    Comes Misaddressed (Configured cfg) (detectDevice 1 >>= fun _ => drain) 1 := by
  have hsay : Triple Misaddressed (Configured cfg) (say (.send 0xf5 1) : Driver Unit) fun _ =>
      Configured cfg :=
    triple_say fun h => (configured_stage cfg).keeps _ _ trivial h
  have hcommand : Triple Misaddressed (Configured cfg) (outb 0xd4 COMMAND) fun _ => Misaddressed :=
    triple_say fun h => ⟨⟨cfg, config_cons h.1, hbit⟩, List.mem_cons_self⟩
  have hsend : Triple Misaddressed (Configured cfg) (send 0xf5 1) fun _ => Misaddressed :=
    hsay.bind fun _ => hcommand.bind fun _ =>
      misaddressed_kept (notes_awaitInput.bind fun _ => notes_data 0xf5)
  refine comes_anyway (Triple.bind (hsend.bind fun _ => ?_) fun _ => misaddressed_kept notes_drain)
  exact misaddressed_kept (notes_awaitAck.bind fun _ => (notes_send fun _ => trivial).bind fun _ =>
    notes_awaitAck.bind fun _ => notes_poll)

theorem comes_identifyDevices (hbit : cfg &&& 0x20 ≠ 0) :
    Comes Misaddressed (Configured cfg) identifyDevices identified := by
  have hstage := configured_stage cfg
  have hsend : ∀ {data : Byte}, Notes (Allowed fun data => data ≠ 0xd4) (send data 0) :=
    notes_send fun hport => absurd rfl hport
  rw [identifyDevices, detectDevice, identified]
  simp only [bind_assoc, List.prod_cons, List.prod_nil]
  refine hstage.comes_next hsend (answers_send 0xf5) fun _ => ?_
  refine hstage.comes_next notes_awaitAck answers_awaitAck fun _ => ?_
  refine hstage.comes_next hsend (answers_send 0xf2) fun _ => ?_
  refine hstage.comes_next notes_awaitAck answers_awaitAck fun _ => ?_
  refine hstage.comes_any fun _ => hstage.comes_next notes_drain answers_drain fun _ => ?_
  exact comes_second hbit

theorem comes_resetDevices (hbit : cfg &&& 0x20 ≠ 0) :
    Comes Misaddressed (Configured cfg) (resetDevices false) restarted := by
  have hstage := configured_stage cfg
  rw [restarted]
  simp only [List.prod_cons, List.prod_nil, mul_one]
  refine hstage.comes_next (notes_send fun hport => absurd rfl hport) (answers_send 0xff) fun _ => ?_
  refine hstage.comes_poll (fun b => b = 0xfa ∨ b = 0xaa) (fun b hb => ?_) fun b hno => ?_
  · rw [if_neg fun hne => hb.elim hne.1 hne.2]
    refine hstage.comes_any fun _ => hstage.comes_next notes_drain answers_drain fun _ => ?_
    exact comes_identifyDevices hbit
  · rw [if_pos (not_or.mp hno)]
    exact hstage.comes_pure ()

theorem comes_interfaceTests (hbit : cfg &&& 0x20 ≠ 0) :
    Comes Misaddressed (Configured cfg) (interfaceTests false) tested := by
  have hstage := configured_stage cfg
  rw [tested]
  simp only [List.prod_cons, List.prod_nil, mul_one]
  refine hstage.comes_write (fun _ => by decide) fun _ => ?_
  refine hstage.comes_poll (fun b => b = 0x00) (fun b hb => ?_) fun b hno => ?_
  · rw [if_neg (not_not.mpr hb)]
    exact hstage.comes_write (fun _ => by decide) fun _ => comes_resetDevices hbit
  · rw [if_pos hno]
    exact hstage.comes_pure ()

/-- Command `0xa8` is written. -/
theorem enable_pending : Quiet Before (write 0xa8 COMMAND) fun _ => Pending := by
  refine (before_stage.quiet notes_awaitInput).bind fun _ => triple_say fun h => ?_
  have hallowed : Allowed (fun data => data ≠ 0xd4) (.outb 0xa8 COMMAND) := fun _ => by decide
  exact ⟨config_none h.1 fun _ _ => h.2.1, List.mem_cons_self,
    command_notMem hallowed (fun hs => hs rfl) h.2.2⟩

/-- Until a data byte is read the configuration stays open. -/
theorem pending_quiet {x : Driver α}
    (hx : Notes (fun e => Allowed (fun data => data ≠ 0xd4) e ∧ ∀ value, e ≠ .inb DATA value) x) :
    Quiet Pending x fun _ => Pending := by
  refine hx.keeps (fun e tr he h => ?_) fun tr h hmis => h.2.2 hmis.2
  exact ⟨config_none h.1 fun value heq => absurd heq (he.2 value), List.mem_cons_of_mem _ h.2.1,
    command_notMem he.1 (fun hs => hs rfl) h.2.2⟩

theorem pending_status (again : Byte → Bool) :
    Quiet Pending (repeatWhile (inb STATUS >>= fun value => pure (again value))) fun _ => Pending :=
  pending_quiet (notes_status (fun _ => ⟨trivial, fun _ h => nomatch h⟩) again)

theorem pending_write : Quiet Pending (write 0x20 COMMAND) fun _ => Pending :=
  (pending_status _).bind fun _ => pending_quiet (notes_say ⟨fun _ => by decide, fun _ h => nomatch h⟩)

/-- The byte that is read is the configuration. -/
theorem pending_read : Quiet Pending read Configured :=
  (pending_status _).bind fun _ => triple_ask (fun h hmis => h.2.2 hmis.2) fun _ h =>
    ⟨config_some h.1 h.2.1, command_notMem (S := fun data => data ≠ 0xd4) trivial (fun hs => hs rfl) h.2.2⟩

/-- What is read after command `0xa8` decides. -/
theorem comes_configured :
    Comes Misaddressed Before (do
      write 0xa8 COMMAND
      write 0x20 COMMAND
      let cfg ← read
      if cfg &&& 0x20 = 0 then
        write 0xa7 COMMAND
        write 0x60 COMMAND
        write (cfg &&& ~~~0b100010) DATA
      interfaceTests (cfg &&& 0x20 = 0))
      (ready * (ready * (answer (fun cfg => cfg &&& 0x20 ≠ 0) * tested))) := by
  refine Comes.next enable_pending (answers_write 0xa8 COMMAND) (words_unit _) fun _ => ?_
  refine Comes.next pending_write (answers_write 0x20 COMMAND) (words_unit _) fun _ => ?_
  rw [← words_poll]
  refine Comes.bind _ pending_read answers_read (fun cfg hbit => ?_) fun cfg hbit => ?_
  · rw [if_neg hbit, decide_eq_false hbit]
    exact comes_interfaceTests hbit
  · rw [if_pos (not_not.mp hbit)]
    have hwrite : ∀ data port, Notes (Allowed fun _ => True) (write data port) :=
      fun _ _ => notes_write fun _ => trivial
    exact comes_dual (not_not.mp hbit) ((hwrite _ _).bind fun _ => (hwrite _ _).bind fun _ =>
      (hwrite _ _).bind fun _ => notes_interfaceTests _)

theorem comes_ps2Init : Comes Misaddressed Before ps2Init firstIdentified := by
  have hstage := before_stage
  have hdata : ∀ {data : Byte}, DATA = COMMAND → data ≠ 0xa8 ∧ data ≠ 0xd4 :=
    fun h => absurd h (by decide)
  rw [ps2Init, if_neg (by decide), disableDevices, firstIdentified]
  simp only [bind_assoc, List.prod_cons, List.prod_nil, mul_one]
  refine hstage.comes_write (fun _ => by decide) fun _ => hstage.comes_write (fun _ => by decide) fun _ => ?_
  refine Comes.next (hstage.quiet (notes_inb DATA)) (answers_inb DATA) rfl fun _ => ?_
  refine hstage.comes_write (fun _ => by decide) fun _ => hstage.comes_any fun _ => ?_
  refine hstage.comes_write (fun _ => by decide) fun _ => hstage.comes_write hdata fun _ => ?_
  refine hstage.comes_write (fun _ => by decide) fun _ => ?_
  refine hstage.comes_poll (fun b => b = 0x55) (fun b hb => ?_) fun b hno => ?_
  · rw [if_neg (not_not.mpr hb)]
    refine hstage.comes_write (fun _ => by decide) fun _ => hstage.comes_write hdata fun _ => ?_
    exact comes_configured
  · rw [if_pos hno]
    exact hstage.comes_pure ()

end Run

/-- In a run of `ps2_init` a controller with one channel is left alone on its second port exactly if
its replies do not take the run through the identification of the first device: `detect_device(1)` is
called there whatever was found about the channels. -/
theorem unaddressed_iff (replies : List Byte) :
    (SingleChannel (ps2InitTrace replies) → ¬ Addressed (ps2InitTrace replies)) ↔
      ¬ ∃ l ∈ firstIdentified, l <+: replies := by
  have hbefore : Before [] := ⟨rfl, List.not_mem_nil, List.not_mem_nil⟩
  rw [← comes_ps2Init ⟨replies, []⟩ hbefore]
  exact not_and.symm

/-- The controller reports a single channel in `0x24`, and a keyboard answers on the first port. -/
theorem single_channel_addressed :
    ¬ ∀ replies, SingleChannel (ps2InitTrace replies) → ¬ Addressed (ps2InitTrace replies) := by
  intro h
  refine h [0, 0, 0, 0, 1, 0x65, 0, 0, 0, 1, 0x55, 0, 0, 0, 0, 1, 0x24, 0, 1, 0, 0, 0, 1, 0xfa, 1, 0xaa, 0,
    0, 1, 0xfa, 0, 1, 0xfa, 1, 0xab, 1, 0x83, 0] ⟨0x24, ?_, by decide⟩ ?_
  · decide +kernel
  · unfold Addressed
    decide +kernel

end NyaOS.Drivers.Ps2
