import NyaOS.Drivers.Isr
import NyaOS.Drivers.Keyboard
import NyaOS.Drivers.Screen

/-! From the scan codes to the screen: `handle_keyboard` with the kernel's `key_down` behind it. -/
namespace NyaOS.Drivers.Echo
open NyaOS.Stdio
open Keyboard (Key Globals Call Installed handleKeyboard normalKeys extendedKeys)
open Isr (printf wordArgs)

/-- `key_down`; `'a' - 'A'` turns a letter into a capital. -/
def keyDown (kb : Globals) (kc : Key) : Except Fault (List Char) :=
  if Key.a.ctorIdx ≤ kc.ctorIdx ∧ kc.ctorIdx ≤ Key.z.ctorIdx then
    let c := kc.ctorIdx - Key.a.ctorIdx + 'a'.toNat
    let c := if kb.keyStates .lshift ∨ kb.capsLock then c - ('a'.toNat - 'A'.toNat) else c
    printf "%c" [BitVec.ofNat 64 c]
  else if kc = .ret then printf "\n" []
  else if kc = .space then printf " " []
  else .ok []

/-- A call through the handlers; `key_up_handler` stays `default_handler`. -/
def callText (kb : Globals) : Call → Except Fault (List Char)
  | .down key => keyDown kb key
  | .up _ => .ok []

/-- One interrupt with `key_down` installed. `handle_keyboard` calls its handler when it has updated the
key states, so `key_down` reads what the interrupt leaves. -/
def handleTyped (s : Globals × List Char) (scancode : UInt8) : Except Fault (Globals × List Char) := do
  let kb := handleKeyboard s.1 scancode
  let shown ← (kb.calls.drop s.1.calls.length).mapM (callText kb)
  return (kb, s.2 ++ shown.flatten)

def typeBytes (s : Globals × List Char) (bytes : List UInt8) : Except Fault (Globals × List Char) :=
  bytes.foldlM handleTyped s

/-! What is typed, read off the bytes. -/

def letters : List Char := "abcdefghijklmnopqrstuvwxyz".toList

/-- The text of a key. -/
def keyText (upper : Bool) (key : Key) : List Char :=
  if key = .ret then ['\n']
  else if key = .space then [' ']
  else match letters[key.ctorIdx - 1]? with
    | some c => if key = .keyUnknown then [] else if upper then [c.toUpper] else [c]
    | none => []

/-- The text of a stream of scan codes, with the left shift key and caps lock as given: `F0` and the byte
behind it release a key, and from the first `E0` on nothing is shown. -/
def typedText (shift caps : Bool) : List UInt8 → List Char
  | [] => []
  | [b] =>
    if b = 0xe0 ∨ b = 0xf0 then []
    else keyText (shift || normalKeys b == .lshift || (caps ^^ (normalKeys b == .capslock))) (normalKeys b)
  | b :: code :: rest =>
    if b = 0xe0 then []
    else if b = 0xf0 then typedText (shift && normalKeys code != .lshift) caps rest
    else
      keyText (shift || normalKeys b == .lshift || (caps ^^ (normalKeys b == .capslock))) (normalKeys b) ++
        typedText (shift || normalKeys b == .lshift) (caps ^^ (normalKeys b == .capslock)) (code :: rest)

example : typedText false false [0x33, 0xf0, 0x33, 0x12, 0x43, 0xf0, 0x12, 0x5a] = "hI\n".toList := by decide

/-- `printf` on a format of the fragment. -/
theorem printf_items {format : String} (items : List Item) (hf : format.toList = formatOf items)
    (h : ∀ item ∈ items, item.InFragment) (args : List (BitVec 64)) :
    printf format args = .ok (expectedAll (wordArgs args) 0 items) := by
  obtain ⟨s, p, hrun, -, htrace, -⟩ := rendered_of_fragment (wordArgs args) h []
  rw [printf, hf, hrun, ok_bind]
  change Except.ok (printed p.trace) = _
  rw [htrace, printed_putchars]

/-- `%c` -/
def charDirective : Directive := ⟨[], .absent, .absent, .absent, .c⟩

theorem printf_char (w : BitVec 64) : printf "%c" [w] = .ok [Char.ofNat (w.setWidth 8).toNat] := by
  refine printf_items [.directive charDirective] rfl (fun item hitem => ?_) [w]
  rw [List.mem_singleton.mp hitem]
  exact ⟨trivial, .inl rfl, rfl, rfl, nofun, nofun⟩

theorem printf_newline : printf "\n" [] = .ok ['\n'] :=
  printf_items [.literal '\n' (by decide) (by decide)] rfl
    (fun item hitem => by rw [List.mem_singleton.mp hitem]; trivial) []

theorem printf_space : printf " " [] = .ok [' '] :=
  printf_items [.literal ' ' (by decide) (by decide)] rfl
    (fun item hitem => by rw [List.mem_singleton.mp hitem]; trivial) []

/-- `key_down` prints the text of the key. -/
theorem keyDown_eq (kb : Globals) (kc : Key) :
    keyDown kb kc = .ok (keyText (kb.keyStates .lshift || kb.capsLock) kc) := by
  unfold keyDown
  rw [printf_newline, printf_space, printf_char]
  cases kb.keyStates .lshift <;> cases kb.capsLock <;> cases kc <;> rfl

/-- No key of the extended table has a text. -/
theorem keyText_extended (upper : Bool) (b : UInt8) : keyText upper (extendedKeys b) = [] := by
  have htable : ∀ upper, ∀ p ∈ Keyboard.extendedTable, keyText upper p.2 = [] := by decide
  unfold extendedKeys
  cases h : Keyboard.extendedTable.lookup b with
  | none => cases upper <;> rfl
  | some key =>
    obtain ⟨before, after, heq, -⟩ := List.lookup_eq_some_iff.mp h
    exact htable upper (b, key) (heq ▸ List.mem_append_right before List.mem_cons_self)

theorem update_pressed (keys : Key → Bool) (key other : Key) :
    Function.update keys key true other = (keys other || key == other) := by
  by_cases h : key = other
  · simp [h]
  · rw [Function.update_of_ne fun h' => h h'.symm]
    simp [h]

theorem update_released (keys : Key → Bool) (key other : Key) :
    Function.update keys key false other = (keys other && key != other) := by
  by_cases h : key = other
  · simp [h]
  · rw [Function.update_of_ne fun h' => h h'.symm]
    simp [h]

section Step
variable {kb : Globals} {text : List Char} {b : UInt8}

theorem handleTyped_none (h : (handleKeyboard kb b).calls = kb.calls) :
    handleTyped (kb, text) b = .ok (handleKeyboard kb b, text) := by
  rw [handleTyped]
  dsimp only
  rw [h, List.drop_length]
  change Except.ok (handleKeyboard kb b, text ++ []) = _
  rw [List.append_nil]

theorem handleTyped_up (key : Key) (h : (handleKeyboard kb b).calls = kb.calls ++ [.up key]) :
    handleTyped (kb, text) b = .ok (handleKeyboard kb b, text) := by
  rw [handleTyped]
  dsimp only
  rw [h, List.drop_left]
  change Except.ok (handleKeyboard kb b, text ++ []) = _
  rw [List.append_nil]

theorem handleTyped_down (key : Key) (h : (handleKeyboard kb b).calls = kb.calls ++ [.down key]) :
    handleTyped (kb, text) b = .ok (handleKeyboard kb b,
      text ++ keyText ((handleKeyboard kb b).keyStates .lshift || (handleKeyboard kb b).capsLock) key) := by
  rw [handleTyped]
  dsimp only
  rw [h, List.drop_left, List.mapM_cons, List.mapM_nil, callText, keyDown_eq]
  change Except.ok (handleKeyboard kb b, text ++ [_].flatten) = _
  rw [List.flatten_singleton]

theorem calls_ready (hr : kb.state = .ready) (hi : Installed kb) (hf : b ≠ 0xf0) (he : b ≠ 0xe0) :
    handleKeyboard kb b = { kb with
      keyStates := Function.update kb.keyStates (normalKeys b) true
      capsLock := kb.capsLock ^^ (normalKeys b == .capslock)
      calls := kb.calls ++ [.down (normalKeys b)] } := by
  rw [handleKeyboard, hr]
  dsimp only
  rw [if_neg hf, if_neg he]
  unfold Keyboard.toggleCaps Keyboard.setKey Keyboard.callDown
  by_cases hc : normalKeys b = .capslock
  · simp [hc, hi.down, hr]
  · have hbeq : (normalKeys b == .capslock) = false := by simpa using hc
    simp [hc, hbeq, hi.down, hr]

/-- A byte of a plain press shows the text of its key. -/
theorem handleTyped_make (hr : kb.state = .ready) (hi : Installed kb) (hf : b ≠ 0xf0) (he : b ≠ 0xe0) :
    handleTyped (kb, text) b = .ok (handleKeyboard kb b, text ++ keyText (kb.keyStates .lshift ||
      normalKeys b == .lshift || (kb.capsLock ^^ (normalKeys b == .capslock))) (normalKeys b)) := by
  have hcalls := calls_ready hr hi hf he
  rw [handleTyped_down (normalKeys b) (by rw [hcalls]), hcalls]
  dsimp only
  rw [update_pressed]

/-- In `EXTENDED` nothing is shown any more. -/
theorem typeBytes_extended (hx : kb.state = .extended) (hi : Installed kb) (bytes : List UInt8) :
    typeBytes (kb, text) bytes = .ok (Keyboard.feed kb bytes, text) := by
  induction bytes generalizing kb with
  | nil => rfl
  | cons b bytes ih =>
    have hstep : handleKeyboard kb b = { kb with
        keyStates := Function.update kb.keyStates (extendedKeys b) true
        calls := kb.calls ++ [.down (extendedKeys b)] } := by
      rw [handleKeyboard, hx]
      simp [Keyboard.callDown, Keyboard.setKey, hi.down, hx]
    rw [typeBytes, List.foldlM_cons, handleTyped_down (extendedKeys b) (by rw [hstep]),
      keyText_extended, List.append_nil, ok_bind]
    exact ih (by rw [hstep]; exact hx) ⟨by rw [hstep]; exact hi.down, by rw [hstep]; exact hi.up⟩

theorem handleTyped_lead (hr : kb.state = .ready) (hb : b = 0xe0 ∨ b = 0xf0) :
    handleTyped (kb, text) b = .ok (handleKeyboard kb b, text) := by
  refine handleTyped_none ?_
  rw [handleKeyboard, hr]
  rcases hb with rfl | rfl <;> rfl

/-- `F0` and the byte behind it release a key and show nothing. -/
theorem typeBytes_release (hr : kb.state = .ready) (hi : Installed kb) (code : UInt8) (rest : List UInt8) :
    typeBytes (kb, text) (0xf0 :: code :: rest) = typeBytes ({ kb with
      keyStates := Function.update kb.keyStates (normalKeys code) false
      calls := kb.calls ++ [.up (normalKeys code)] }, text) rest := by
  have hlead : handleKeyboard kb 0xf0 = { kb with state := .breakCode } := by
    rw [handleKeyboard, hr]
    rfl
  have hstep : handleKeyboard { kb with state := .breakCode } code = { kb with
      keyStates := Function.update kb.keyStates (normalKeys code) false
      calls := kb.calls ++ [.up (normalKeys code)] } := by
    rw [handleKeyboard]
    simp [Keyboard.callUp, Keyboard.setKey, hi.up, hr]
  rw [typeBytes, List.foldlM_cons, handleTyped_lead hr (.inr rfl), ok_bind, hlead, List.foldlM_cons,
    handleTyped_up (normalKeys code) (by rw [hstep]), ok_bind, hstep]
  rfl

end Step

/-- The text on the screen is the one the bytes spell. -/
theorem typeBytes_eq : ∀ (bytes : List UInt8) (kb : Globals) (text : List Char), kb.state = .ready →
    Installed kb → ∃ kb', typeBytes (kb, text) bytes =
      .ok (kb', text ++ typedText (kb.keyStates .lshift) kb.capsLock bytes)
  | [], kb, text, _, _ => ⟨kb, by rw [typedText, List.append_nil]; rfl⟩
  | [b], kb, text, hr, hi => by
    rw [typedText, typeBytes, List.foldlM_cons]
    by_cases hb : b = 0xe0 ∨ b = 0xf0
    · rw [handleTyped_lead hr hb, if_pos hb, List.append_nil]
      exact ⟨_, rfl⟩
    · obtain ⟨he, hf⟩ := not_or.mp hb
      rw [handleTyped_make hr hi hf he, if_neg hb]
      exact ⟨_, rfl⟩
  | b :: code :: rest, kb, text, hr, hi => by
    rw [typedText]
    by_cases he : b = 0xe0
    · rw [if_pos he, List.append_nil, typeBytes, List.foldlM_cons, handleTyped_lead hr (.inl he), ok_bind]
      have hlead : handleKeyboard kb b = { kb with state := .extended } := by
        rw [handleKeyboard, hr, he]
        rfl
      exact ⟨_, typeBytes_extended (by rw [hlead]) ⟨by rw [hlead]; exact hi.down, by rw [hlead]; exact hi.up⟩ _⟩
    · by_cases hf : b = 0xf0
      · rw [if_neg he, if_pos hf, hf, typeBytes_release hr hi]
        obtain ⟨kb', h⟩ := typeBytes_eq rest { kb with
          keyStates := Function.update kb.keyStates (normalKeys code) false
          calls := kb.calls ++ [.up (normalKeys code)] } text hr ⟨hi.down, hi.up⟩
        dsimp only at h
        exact ⟨kb', by rw [h, update_released]⟩
      · have hcalls := calls_ready hr hi hf he
        rw [if_neg he, if_neg hf, typeBytes, List.foldlM_cons, handleTyped_make hr hi hf he, ok_bind]
        obtain ⟨kb', h⟩ := typeBytes_eq (code :: rest) (handleKeyboard kb b) (text ++ _)
          (by rw [hcalls]; exact hr) ⟨by rw [hcalls]; exact hi.down, by rw [hcalls]; exact hi.up⟩
        refine ⟨kb', h.trans ?_⟩
        rw [hcalls, List.append_assoc]
        dsimp only
        rw [update_pressed]

/-- `putchar` writes its argument as a `char`. -/
def byteOf (c : Char) : BitVec 8 := BitVec.ofNat 8 c.toNat

/-- The driver behind the text. -/
theorem typeBytes_feed (bytes : List UInt8) {s s' : Globals × List Char} (h : typeBytes s bytes = .ok s') :
    s'.1 = Keyboard.feed s.1 bytes := by
  induction bytes generalizing s with
  | nil =>
    cases h
    rfl
  | cons b bytes ih =>
    rw [typeBytes, List.foldlM_cons] at h
    cases hb : handleTyped s b with
    | error e =>
      rw [hb] at h
      cases h
    | ok s₁ =>
      rw [hb, ok_bind] at h
      have hfirst : s₁.1 = handleKeyboard s.1 b := by
        rw [handleTyped] at hb
        cases hc : ((handleKeyboard s.1 b).calls.drop s.1.calls.length).mapM
          (callText (handleKeyboard s.1 b)) with
        | error e =>
          rw [hc] at hb
          cases hb
        | ok shown =>
          rw [hc] at hb
          cases hb
          rfl
      rw [ih h, hfirst]
      rfl

open Tty in
/-- What is written after `terminal_initialize` is on the screen. -/
theorem simulates_written {framebuffers : List Framebuffer} {fb : Framebuffer} {font : PsfFont} {mem : Nat → Nat}
    {t : Terminal} (h : Fits fb font) (hglyphs : 255 * font.bytesperglyph < 2 ^ 32)
    (hinit : terminalInitialize framebuffers ⟨⟨mem, []⟩, 0, 0⟩ = some (fb, t)) (text : List (BitVec 8)) :
    Simulates fb font (terminalWrite fb font text t)
      (Grid.ofText (fb.height / cellHeight font) (fb.width / cellWidth font) text) := by
  have hsim : Simulates fb font t .blank := by
    cases framebuffers with
    | nil => cases hinit
    | cons fb' rest =>
      cases hinit
      exact simulates_blank h (List.forall_mem_nil _)
  refine hsim.write h _ fun c _ _ => ?_
  have hindex : glyphIndex font c ≤ 255 := by
    have hc := c.isLt
    unfold glyphIndex
    split <;> omega
  exact Nat.lt_of_le_of_lt (Nat.mul_le_mul_right _ hindex) hglyphs

open Tty in
/-- Whatever bytes the keyboard sends, after whatever the kernel has written: the screen shows the kernel's
text and behind it the one the bytes spell. -/
theorem echo_screen (framebuffers : List Framebuffer) (fb : Framebuffer) (font : PsfFont) (mem : Nat → Nat)
    (t : Terminal) (h : Fits fb font) (hglyphs : 255 * font.bytesperglyph < 2 ^ 32)
    (hinit : terminalInitialize framebuffers ⟨⟨mem, []⟩, 0, 0⟩ = some (fb, t)) (boot : List (BitVec 8))
    (kb : Globals) (hr : kb.state = .ready) (hi : Installed kb) (bytes : List UInt8) :
    ∃ kb' typed, typeBytes (kb, []) bytes = .ok (kb', typed) ∧
      typed = typedText (kb.keyStates .lshift) kb.capsLock bytes ∧
      Simulates fb font (terminalWrite fb font (boot ++ typed.map byteOf) t)
        (Grid.ofText (fb.height / cellHeight font) (fb.width / cellWidth font) (boot ++ typed.map byteOf)) := by
  obtain ⟨kb', htyped⟩ := typeBytes_eq bytes kb [] hr hi
  exact ⟨kb', _, htyped, rfl, simulates_written h hglyphs hinit _⟩

open Tty in
theorem echo_screen_hi : ∃ t kb' typed,
    terminalInitialize [smallScreen] ⟨⟨fun _ => 0, []⟩, 0, 0⟩ = some (smallScreen, t) ∧
    typeBytes (Keyboard.bootKeyboard, []) [0x33, 0xf0, 0x33, 0x43] = .ok (kb', typed) ∧
    typed = ['h', 'i'] ∧
    Simulates smallScreen smallFont (terminalWrite smallScreen smallFont ([62] ++ typed.map byteOf) t)
      (Grid.ofText 2 4 ([62] ++ typed.map byteOf)) := by
  obtain ⟨kb', typed, htyped, htext, hsim⟩ := echo_screen [smallScreen] smallScreen smallFont (fun _ => 0) _
    smallFont_fits (by decide) rfl [62] Keyboard.bootKeyboard rfl ⟨rfl, rfl⟩ [0x33, 0xf0, 0x33, 0x43]
  exact ⟨_, kb', typed, rfl, htyped, htext, hsim⟩

end NyaOS.Drivers.Echo
