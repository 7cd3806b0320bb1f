import Mathlib.Data.List.Induction
import Mathlib.Logic.Function.Basic
import Mathlib.Tactic.Common

/-! The PS/2 keyboard interrupt handler: a decoder for scan code set 2 that keeps its
place between interrupts in one state variable. -/
namespace NyaOS.Drivers.Keyboard

inductive Key where
  | keyUnknown | a | b | c | d | e | f | g | h | i | j | k | l | m | n | o | p | q | r | s | t
  | u | v | w | x | y | z | num0 | num1 | num2 | num3 | num4 | num5 | num6 | num7 | num8 | num9
  | esc | lctrl | lshift | lalt | lsystem | rctrl | rshift | ralt | rsystem | menu | lbracket
  | rbracket | semicolon | comma | period | quote | slash | backslash | tilde | equal | dash
  | space | ret | back | tab | pageup | pagedown | endKey | home | insert | delete | add
  | subtract | mult | div | left | right | up | down | np0 | np1 | np2 | np3 | np4 | np5 | np6
  | np7 | np8 | np9 | f1 | f2 | f3 | f4 | f5 | f6 | f7 | f8 | f9 | f10 | f11 | f12 | f13 | f14
  | f15 | capslock | numlock | scrolllock | npdecimal | npenter | printscreen | wwwSearch
  | prevTrack | wwwFavorites | wwwRefresh | volumeDown | mute | wwwStop | calculator
  | wwwForward | volumeUp | playPause | power | wwwBack | wwwHome | mediaStop | sleep
  | myComputer | email | nextTrack | mediaSelect | wake | pause
deriving DecidableEq

inductive KeyboardState where
  | ready | breakCode | extended | extendedBreak
deriving DecidableEq

def normalTable : List (UInt8 × Key) :=
  [(0x01, .f9), (0x03, .f5), (0x04, .f3), (0x05, .f1), (0x06, .f2), (0x07, .f12), (0x09, .f10),
  (0x0a, .f8), (0x0b, .f6), (0x0c, .f4), (0x0d, .tab), (0x0e, .tilde), (0x11, .lalt),
  (0x12, .lshift), (0x14, .lctrl), (0x15, .q), (0x16, .num1), (0x1a, .z), (0x1b, .s),
  (0x1c, .a), (0x1d, .w), (0x1e, .num2), (0x21, .c), (0x22, .x), (0x23, .d), (0x24, .e),
  (0x25, .num4), (0x26, .num3), (0x29, .space), (0x2a, .v), (0x2b, .f), (0x2c, .t), (0x2d, .r),
  (0x2e, .num5), (0x31, .n), (0x32, .b), (0x33, .h), (0x34, .g), (0x35, .y), (0x36, .num6),
  (0x3a, .m), (0x3b, .j), (0x3c, .u), (0x3d, .num7), (0x3e, .num8), (0x41, .comma), (0x42, .k),
  (0x43, .i), (0x44, .o), (0x45, .num0), (0x46, .num9), (0x49, .period), (0x4a, .slash),
  (0x4b, .l), (0x4c, .semicolon), (0x4d, .p), (0x4e, .dash), (0x52, .quote), (0x54, .lbracket),
  (0x55, .equal), (0x58, .capslock), (0x59, .rshift), (0x5a, .ret), (0x5b, .rbracket),
  (0x5d, .backslash), (0x66, .back), (0x69, .np1), (0x6b, .np4), (0x6c, .np7), (0x70, .np0),
  (0x71, .npdecimal), (0x72, .np2), (0x73, .np5), (0x74, .np6), (0x75, .np8), (0x76, .esc),
  (0x77, .numlock), (0x78, .f11), (0x79, .add), (0x7a, .np3), (0x7b, .subtract), (0x7c, .mult),
  (0x7d, .np9), (0x7e, .scrolllock), (0x83, .f7)]

def extendedTable : List (UInt8 × Key) :=
  [(0x10, .wwwSearch), (0x11, .ralt), (0x14, .rctrl), (0x15, .prevTrack),
  (0x18, .wwwFavorites), (0x1f, .lsystem), (0x20, .wwwRefresh), (0x21, .volumeDown),
  (0x23, .mute), (0x27, .rsystem), (0x28, .wwwStop), (0x2b, .calculator), (0x2f, .menu),
  (0x30, .wwwForward), (0x32, .volumeUp), (0x34, .playPause), (0x37, .power), (0x38, .wwwBack),
  (0x3a, .wwwHome), (0x3b, .mediaStop), (0x3f, .sleep), (0x40, .myComputer), (0x48, .email),
  (0x4a, .div), (0x4d, .nextTrack), (0x50, .mediaSelect), (0x5a, .npenter), (0x5e, .wake),
  (0x69, .endKey), (0x6b, .left), (0x6c, .home), (0x70, .insert), (0x71, .delete), (0x72, .down),
  (0x74, .right), (0x75, .up), (0x7a, .pagedown), (0x7d, .pageup)]

/-- Entries the initialiser leaves out are `KEY_UNKNOWN`. -/
def normalKeys (scancode : UInt8) : Key := (normalTable.lookup scancode).getD .keyUnknown

def extendedKeys (scancode : UInt8) : Key := (extendedTable.lookup scancode).getD .keyUnknown

inductive Call where
  | down (key : Key)
  | up (key : Key)
deriving DecidableEq

/-- The driver's globals. The two handler fields say whether the pointer is set; `calls`
lists the calls made through them, oldest first. -/
structure Globals where
  state : KeyboardState
  keyStates : Key → Bool
  capsLock : Bool
  keyDownHandler : Bool
  keyUpHandler : Bool
  calls : List Call

def callDown (kb : Globals) (key : Key) : Globals :=
  if kb.keyDownHandler then { kb with calls := kb.calls ++ [.down key] } else kb

def callUp (kb : Globals) (key : Key) : Globals :=
  if kb.keyUpHandler then { kb with calls := kb.calls ++ [.up key] } else kb

def setKey (kb : Globals) (key : Key) (pressed : Bool) : Globals :=
  { kb with keyStates := Function.update kb.keyStates key pressed }

def toggleCaps (kb : Globals) (key : Key) : Globals :=
  if key = .capslock then { kb with capsLock := !kb.capsLock } else kb

/-- One interrupt, with the byte `recv` returns. -/
def handleKeyboard (kb : Globals) (scancode : UInt8) : Globals :=
  match kb.state with
  | .ready =>
    if scancode = 0xf0 then { kb with state := .breakCode }
    else if scancode = 0xe0 then { kb with state := .extended }
    else
      let key := normalKeys scancode
      callDown (toggleCaps (setKey kb key true) key) key
  | .breakCode =>
    let key := normalKeys scancode
    { callUp (setKey kb key false) key with state := .ready }
  | .extended =>
    let key := extendedKeys scancode
    callDown (setKey kb key true) key
  | .extendedBreak =>
    let key := extendedKeys scancode
    { callUp (setKey kb key false) key with state := .ready }

def feed (kb : Globals) (bytes : List UInt8) : Globals := bytes.foldl handleKeyboard kb

/-- A complete scan code set 2 event: the code byte is neither of the two lead bytes. -/
structure Event where
  extended : Bool
  released : Bool
  code : UInt8
  not_extend : code ≠ 0xe0
  not_release : code ≠ 0xf0

def Event.bytes (e : Event) : List UInt8 :=
  (if e.extended then [0xe0] else []) ++ (if e.released then [0xf0] else []) ++ [e.code]

def Event.key (e : Event) : Key :=
  if e.extended then extendedKeys e.code else normalKeys e.code

def Event.call (e : Event) : Call := if e.released then .up e.key else .down e.key

/-- A press of the key that toggles `caps_lock`. -/
def Event.capsMake (e : Event) : Bool := !e.released && e.key == .capslock

/-- What a driver of this keyboard owes after one complete event. -/
structure Decoded (kb : Globals) (e : Event) (kb' : Globals) : Prop where
  ready : kb'.state = .ready
  pressed : kb'.keyStates e.key = !e.released
  called : kb'.calls = kb.calls ++ [e.call]

/-- Every event of the sequence is decoded, each from where the one before left the driver. -/
def AllDecoded : Globals → List Event → Prop
  | _, [] => True
  | kb, e :: es => Decoded kb e (feed kb e.bytes) ∧ AllDecoded (feed kb e.bytes) es

/-- Both handlers are installed, as `kb_enable_scanning` leaves them. -/
structure Installed (kb : Globals) : Prop where
  down : kb.keyDownHandler = true
  up : kb.keyUpHandler = true

@[simp] theorem callDown_state (kb : Globals) (key : Key) :
    (callDown kb key).state = kb.state := by
  unfold callDown
  split <;> rfl

@[simp] theorem setKey_state (kb : Globals) (key : Key) (pressed : Bool) :
    (setKey kb key pressed).state = kb.state := rfl

/-- There is no way out of `EXTENDED`: whatever bytes follow, the state stays. -/
theorem extended_stays {kb : Globals} (hx : kb.state = .extended) (bytes : List UInt8) :
    (feed kb bytes).state = .extended := by
  induction bytes generalizing kb with
  | nil => exact hx
  | cons b bytes ih =>
    apply ih
    simp [handleKeyboard, hx]

/-- From `READY` the lead byte `E0` moves to `EXTENDED`, so no extended event ends in `READY`. -/
theorem extended_event_stuck {kb : Globals} (hr : kb.state = .ready) {e : Event}
    (he : e.extended = true) : (feed kb e.bytes).state = .extended := by
  have hb : e.bytes = 0xe0 :: ((if e.released then [0xf0] else []) ++ [e.code]) := by
    simp [Event.bytes, he]
  rw [hb]
  change (feed (handleKeyboard kb 0xe0) _).state = .extended
  apply extended_stays
  simp [handleKeyboard, hr]

/-- What one plain event does to the driver: the key's slot, the toggle and one call. -/
theorem feed_plain {kb : Globals} (hr : kb.state = .ready) (hi : Installed kb) {e : Event}
    (he : e.extended = false) : feed kb e.bytes = { kb with
      keyStates := Function.update kb.keyStates e.key (!e.released)
      capsLock := if e.capsMake then !kb.capsLock else kb.capsLock
      calls := kb.calls ++ [e.call] } := by
  have hkey : e.key = normalKeys e.code := by simp [Event.key, he]
  cases hrel : e.released with
  | false =>
    have hb : e.bytes = [e.code] := by simp [Event.bytes, he, hrel]
    rw [hb]
    change handleKeyboard kb e.code = _
    rw [handleKeyboard, hr]
    dsimp only
    rw [if_neg e.not_release, if_neg e.not_extend, ← hkey]
    by_cases hcaps : e.key = .capslock
    · simp [callDown, toggleCaps, setKey, hi.down, Event.call, Event.capsMake, hrel, hcaps, hr]
    · simp [callDown, toggleCaps, setKey, hi.down, Event.call, Event.capsMake, hrel, hcaps, hr]
  | true =>
    have hb : e.bytes = [0xf0, e.code] := by simp [Event.bytes, he, hrel]
    have hlead : handleKeyboard kb 0xf0 = { kb with state := .breakCode } := by
      simp [handleKeyboard, hr]
    rw [hb]
    change handleKeyboard (handleKeyboard kb 0xf0) e.code = _
    rw [hlead, handleKeyboard]
    dsimp only
    rw [← hkey]
    simp [callUp, setKey, hi.up, Event.call, Event.capsMake, hrel, hr]

private theorem plain_event {kb : Globals} (hr : kb.state = .ready) (hi : Installed kb)
    {e : Event} (he : e.extended = false) :
    Decoded kb e (feed kb e.bytes) ∧ Installed (feed kb e.bytes) := by
  rw [feed_plain hr hi he]
  exact ⟨⟨hr, by simp, rfl⟩, ⟨hi.down, hi.up⟩⟩

/-- A sequence of complete events is decoded throughout exactly when none is extended. -/
theorem events_decoded_iff {kb : Globals} (hr : kb.state = .ready) (hi : Installed kb)
    (es : List Event) : AllDecoded kb es ↔ ∀ e ∈ es, e.extended = false := by
  induction es generalizing kb with
  | nil => simp [AllDecoded]
  | cons e es ih =>
    rw [AllDecoded, List.forall_mem_cons]
    cases hx : e.extended with
    | true =>
      have hs := extended_event_stuck hr hx
      constructor
      · intro h
        have := h.1.ready
        rw [hs] at this
        cases this
      · intro h
        cases h.1
    | false =>
      obtain ⟨hd, hi'⟩ := plain_event hr hi hx
      rw [ih hd.ready hi']
      exact and_congr_left' ⟨fun _ => rfl, fun _ => hd⟩

/-- The last event of the sequence whose code maps to the key. -/
def lastEvent (es : List Event) (key : Key) : Option Event := es.reverse.find? fun e => e.key == key

theorem lastEvent_snoc (es : List Event) (e : Event) (key : Key) :
    lastEvent (es ++ [e]) key = if e.key = key then some e else lastEvent es key := by
  rw [lastEvent, List.reverse_append, List.reverse_singleton, List.singleton_append, List.find?_cons]
  by_cases h : e.key = key
  · rw [beq_iff_eq.mpr h, if_pos h]
  · rw [beq_eq_false_iff_ne.mpr h, if_neg h]
    rfl

/-- The keys held down after the sequence. -/
def pressedAfter (es : List Event) (key : Key) : Bool := (lastEvent es key).any fun e => !e.released

theorem pressedAfter_snoc (es : List Event) (e : Event) :
    pressedAfter (es ++ [e]) = Function.update (pressedAfter es) e.key (!e.released) := by
  funext key
  rw [pressedAfter, lastEvent_snoc, Function.update_apply]
  by_cases h : e.key = key
  · rw [if_pos h, if_pos h.symm]
    rfl
  · rw [if_neg h, if_neg (Ne.symm h)]
    rfl

/-- The driver after plain events, as a function of the history alone. -/
theorem feed_plain_events {kb : Globals} (hr : kb.state = .ready) (hi : Installed kb)
    (hup : ∀ key, kb.keyStates key = false) (hcaps : kb.capsLock = false) (es : List Event)
    (hes : ∀ e ∈ es, e.extended = false) : feed kb (es.flatMap Event.bytes) = { kb with
      keyStates := pressedAfter es
      capsLock := decide (es.countP Event.capsMake % 2 = 1)
      calls := kb.calls ++ es.map Event.call } := by
  induction es using List.reverseRecOn with
  | nil =>
    have hnone : kb.keyStates = pressedAfter [] := by
      funext key
      rw [hup key]
      rfl
    simp [feed, ← hnone, ← hcaps]
  | append_singleton es e ih =>
    have hsplit : feed kb ((es ++ [e]).flatMap Event.bytes) =
        feed (feed kb (es.flatMap Event.bytes)) e.bytes := by
      rw [List.flatMap_append, List.flatMap_singleton, feed, List.foldl_append]
      rfl
    have hprev := ih fun e' he' => hes e' (List.mem_append_left _ he')
    have hready : (feed kb (es.flatMap Event.bytes)).state = .ready := by rw [hprev]; exact hr
    have hinst : Installed (feed kb (es.flatMap Event.bytes)) := by
      rw [hprev]
      exact ⟨hi.down, hi.up⟩
    rw [hsplit, feed_plain hready hinst (hes e (by simp)), hprev, pressedAfter_snoc]
    cases hmake : e.capsMake with
    | true =>
      have hflip : decide ((es.countP Event.capsMake + 1) % 2 = 1) =
          !decide (es.countP Event.capsMake % 2 = 1) := by
        rw [← decide_not]
        exact decide_eq_decide.mpr (by omega)
      simp [hmake, hflip]
    | false => simp [hmake]

/-- Plain events are tracked exactly. After the whole sequence the driver is in `READY`; a key is
down if and only if its last event is a make; `caps_lock` is the parity of the presses of that
key; and each event made one call, in order. -/
theorem plain_history_exact {kb : Globals} (hr : kb.state = .ready) (hi : Installed kb)
    (hup : ∀ key, kb.keyStates key = false) (hcaps : kb.capsLock = false) (es : List Event)
    (hes : ∀ e ∈ es, e.extended = false) :
    (feed kb (es.flatMap Event.bytes)).state = .ready ∧
    (∀ key, (feed kb (es.flatMap Event.bytes)).keyStates key = true ↔
      ∃ e, lastEvent es key = some e ∧ e.released = false) ∧
    ((feed kb (es.flatMap Event.bytes)).capsLock = true ↔
      (es.countP fun e => !e.released && e.key == .capslock) % 2 = 1) ∧
    (feed kb (es.flatMap Event.bytes)).calls = kb.calls ++ es.map fun e =>
      if e.released then .up (normalKeys e.code) else .down (normalKeys e.code) := by
  rw [feed_plain_events hr hi hup hcaps es hes]
  refine ⟨hr, fun key => ?_, decide_eq_true_iff, ?_⟩
  · cases h : lastEvent es key with
    | none => simp [pressedAfter, h]
    | some e => simp [pressedAfter, h]
  · refine congrArg (kb.calls ++ ·) (List.map_congr_left fun e he => ?_)
    simp [Event.call, Event.key, hes e he]

def bootKeyboard : Globals :=
  ⟨.ready, fun _ => false, false, true, true, []⟩

def aMake : Event := ⟨false, false, 0x1c, by decide, by decide⟩

def rightCtrlMake : Event := ⟨true, false, 0x14, by decide, by decide⟩

theorem events_decoded_typing :
    AllDecoded bootKeyboard [aMake] ↔ ∀ e ∈ [aMake], e.extended = false :=
  events_decoded_iff rfl ⟨rfl, rfl⟩ [aMake]

def capsLockMake : Event := ⟨false, false, 0x58, by decide, by decide⟩

def capsLockBreak : Event := ⟨false, true, 0x58, by decide, by decide⟩

/-- Caps Lock pressed and released, then A held down. -/
theorem plain_history_shout :
    (feed bootKeyboard [0x58, 0xf0, 0x58, 0x1c]).state = .ready ∧
      (feed bootKeyboard [0x58, 0xf0, 0x58, 0x1c]).keyStates .a = true ∧
      (feed bootKeyboard [0x58, 0xf0, 0x58, 0x1c]).capsLock = true ∧
      (feed bootKeyboard [0x58, 0xf0, 0x58, 0x1c]).calls =
        [.down .capslock, .up .capslock, .down .a] := by
  obtain ⟨hready, hkeys, hcaps, hcalls⟩ := plain_history_exact
    (show bootKeyboard.state = .ready from rfl) ⟨rfl, rfl⟩ (fun _ => rfl) rfl [capsLockMake, capsLockBreak, aMake] (by decide)
  exact ⟨hready, (hkeys .a).mpr ⟨aMake, rfl, rfl⟩, hcaps.mpr (by decide),
    hcalls.trans (by decide)⟩

/-- Right Ctrl pressed, then A: the driver is still in `EXTENDED` and reads the A through
`extended_keys`, where the code has no key. -/
theorem right_ctrl_derails :
    ¬ AllDecoded bootKeyboard [rightCtrlMake, aMake] ∧
      (feed bootKeyboard rightCtrlMake.bytes).state = .extended ∧
      (feed bootKeyboard (rightCtrlMake.bytes ++ aMake.bytes)).calls =
        [.down .rctrl, .down .keyUnknown] := by
  have hs : (feed bootKeyboard rightCtrlMake.bytes).state = .extended := by decide
  refine ⟨?_, hs, by decide⟩
  intro h
  have := h.1.ready
  rw [hs] at this
  cases this

end NyaOS.Drivers.Keyboard
