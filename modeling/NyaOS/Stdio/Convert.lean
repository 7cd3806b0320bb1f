import NyaOS.Stdio.Vprintf

/-! What one dispatched conversion does: the argument it takes, the characters it prints and
what it adds to the count. -/
namespace NyaOS.Stdio

/-- The meaning of a conversion's specifier and length modifier. -/
inductive Action where
  | integer (t : IntType) (value : BitVec 64 → Int)
  | char (t : IntType)
  | string
  | store (t : IntType)
  | float
  | nothing

def Action.args : Action → List VaType
  | .integer t _ | .char t => [.value t]
  | .string => [.charPtr]
  | .store t => [.pointer t]
  | .float => [.double]
  | .nothing => []

namespace Conv
variable (cv : Conv)

def action : Action :=
  match cv.specifier with
  | 'o' | 'x' | 'X' | 'u' =>
    (unsignedArg cv.length).elim .nothing fun a => .integer a.1 fun w => a.2 w
  | 'p' => .integer .size fun w => w.toNat
  | 'd' | 'i' => (signedArg cv.length).elim .nothing fun a => .integer a.1 a.2
  | 'c' => .char (if cv.length = 'l' then .wchar else .int)
  | 's' => .string
  | 'n' => (storeType cv.length).elim .nothing .store
  | 'e' | 'E' | 'f' | 'F' | 'g' | 'G' => .float
  | _ => .nothing

def base : Nat :=
  match cv.specifier with
  | 'o' => 8
  | 'p' | 'X' => 16
  | 'x' => 17
  | _ => 10

/-- What the alternative form puts in front. -/
def altText : List Char :=
  match cv.specifier with
  | 'o' => if cv.altForm then ['0'] else []
  | 'x' | 'X' => if cv.altForm then ['0', 'x'] else []
  | _ => []

/-- Sign and digits of an integer. -/
def intText (v : Int) : List Char := cv.layout.text cv.base (decide (v < 0)) v.natAbs

def digits (v : Int) : List Char := numeralOf cv.base v.natAbs

/-- What is displayed of an integer's field: as many characters as the number has digits. -/
def intShown (v : Int) : List Char := (cv.layout.field (cv.intText v)).take (cv.digits v).length

/-- The characters passed to `putchar`. -/
def shown (env : Env) (w : BitVec 64) : List Char :=
  cv.altText ++ match cv.action with
    | .integer _ value => cv.intShown (value w)
    | .char _ => [Char.ofNat (w.setWidth 8).toNat]
    | .string => env.string w
    | .float => (env.float cv w).elim [] Prod.fst
    | .store _ | .nothing => []

/-- What is added to `chars`; `display_character` adds nothing. -/
def counted (env : Env) (w : BitVec 64) : Nat :=
  match cv.action with
  | .char _ => 0
  | .float => (env.float cv w).elim 0 Prod.snd
  | _ => (cv.shown env w).length

def stores (chars : BitVec 32) (w : BitVec 64) : List Effect :=
  match cv.action with
  | .store t => [.store w t (t.convert chars.toInt)]
  | _ => []

/-- The conversion stays inside its buffers. -/
def fits (env : Env) (w : BitVec 64) : Bool :=
  match cv.action with
  | .integer _ value => (cv.layout.field (cv.intText (value w))).length ≤ cv.layout.limit
  | .float => (env.float cv w).isSome
  | _ => true

/-- The state after the conversion. -/
def result (env : Env) (p : Progress) : Progress :=
  let w := env.word p.taken.length
  { taken := p.taken ++ cv.action.args
    trace := p.trace ++ (cv.shown env w).map .putchar ++ cv.stores p.chars w
    chars := p.chars + BitVec.ofNat 32 (cv.counted env w) }

def outcome (env : Env) (p : Progress) : Except Fault (Unit × Progress) :=
  if cv.fits env (env.word p.taken.length) then .ok ((), cv.result env p) else .error .overrun

end Conv

theorem displayString_run (s : List Char) (p : Progress) :
    displayString s p = .ok ((), { p with
      trace := p.trace ++ s.map .putchar, chars := p.chars + BitVec.ofNat 32 s.length }) := rfl

theorem unsignedArg_lt {length : Char} {t : IntType} {f : BitVec 64 → Nat}
    (h : unsignedArg length = some (t, f)) (w : BitVec 64) : f w < 2 ^ 64 := by
  have h8 := (w.setWidth 8).isLt
  have h16 := (w.setWidth 16).isLt
  have h32 := (w.setWidth 32).isLt
  have h64 := w.isLt
  unfold unsignedArg at h
  split_ifs at h
  all_goals
    simp only [Option.some.injEq, Prod.mk.injEq] at h
    obtain ⟨-, rfl⟩ := h
    beta_reduce
    omega

theorem signedArg_bounds {length : Char} {t : IntType} {f : BitVec 64 → Int}
    (h : signedArg length = some (t, f)) (w : BitVec 64) : -2 ^ 63 ≤ f w ∧ f w < 2 ^ 64 := by
  have h8 := (w.setWidth 8).toInt_lt
  have h8' := (w.setWidth 8).le_toInt
  have h16 := (w.setWidth 16).toInt_lt
  have h16' := (w.setWidth 16).le_toInt
  have h32 := (w.setWidth 32).toInt_lt
  have h32' := (w.setWidth 32).le_toInt
  have h64 := w.toInt_lt
  have h64' := w.le_toInt
  have hw := w.isLt
  unfold signedArg at h
  split_ifs at h
  all_goals
    simp only [Option.some.injEq, Prod.mk.injEq] at h
    obtain ⟨-, rfl⟩ := h
    beta_reduce
    omega

/-- `neg ? -(uintmax_t)integer : (uintmax_t)integer` is the absolute value. -/
theorem magnitude_eq {v : Int} (hlo : -2 ^ 63 ≤ v) (hhi : v < 2 ^ 64) :
    (if decide (v < 0) then -BitVec.ofInt 64 v else BitVec.ofInt 64 v).toNat = v.natAbs := by
  by_cases h : v < 0
  · rw [if_pos (by simpa using h), BitVec.toNat_neg, BitVec.toNat_ofInt]
    omega
  · rw [if_neg (by simpa using h), BitVec.toNat_ofInt]
    omega

theorem displayInt_run {i base : Nat} (hb : IsBase base) (hi : i < 2 ^ 64) (cv : Conv)
    (isNegative : Bool) (p : Progress) :
    displayInt i base cv isNegative p =
      if (cv.layout.field (cv.layout.text base isNegative i)).length ≤ cv.layout.limit then
        displayString ((cv.layout.field (cv.layout.text base isNegative i)).take
          (numeralOf base i).length) p
      else .error .overrun := by
  have hn : (numeralOf base i).length ≤
      (cv.layout.field (cv.layout.text base isNegative i)).length := by
    have htext : (numeralOf base i).length ≤ (cv.layout.text base isNegative i).length := by
      rw [Layout.text, List.length_append]
      omega
    unfold Layout.field
    split <;> rw [List.length_append] <;> omega
  change (intStr i zeroBuffer base cv.layout isNegative >>= fun r => Except.ok (r, p)) >>= _ = _
  rw [intStr_run hb hi]
  split
  · rw [ok_bind, ok_bind, holding]
    dsimp only
    rw [List.take_append_of_le_length hn]
  · rfl

theorem convertUnsigned_run (env : Env) (cv : Conv) (base : Nat) (p : Progress)
    {t : IntType} {f : BitVec 64 → Nat} (h : unsignedArg cv.length = some (t, f)) :
    convertUnsigned env cv base p =
      displayInt (f (env.word p.taken.length)) base cv false
        { p with taken := p.taken ++ [.value t] } := by
  rw [convertUnsigned, h]
  rfl

theorem convertSigned_run (env : Env) (cv : Conv) (base : Nat) (p : Progress)
    {t : IntType} {f : BitVec 64 → Int} (h : signedArg cv.length = some (t, f)) :
    convertSigned env cv base p =
      displayInt (f (env.word p.taken.length)).natAbs base cv
        (decide (f (env.word p.taken.length) < 0)) { p with taken := p.taken ++ [.value t] } := by
  obtain ⟨hlo, hhi⟩ := signedArg_bounds h (env.word p.taken.length)
  rw [← magnitude_eq hlo hhi, convertSigned, h]
  rfl

theorem Conv.isBase_base (cv : Conv) : IsBase cv.base := by
  unfold Conv.base IsBase
  split <;> simp

section
variable (env : Env) (cv : Conv) (p : Progress)

/-- The state after the alternative form's prefix. -/
private def prefixed : Progress :=
  { p with
    trace := p.trace ++ cv.altText.map .putchar
    chars := p.chars + BitVec.ofNat 32 cv.altText.length }

private theorem prefixed_of_nil (h : cv.altText = []) : prefixed cv p = p := by
  simp [prefixed, h]

/-- An integer conversion behind its prefix. -/
private theorem displayInt_result {t : IntType} {value : BitVec 64 → Int}
    (ha : cv.action = .integer t value) (hlt : (value (env.word p.taken.length)).natAbs < 2 ^ 64) :
    displayInt (value (env.word p.taken.length)).natAbs cv.base cv
        (decide (value (env.word p.taken.length) < 0))
        { prefixed cv p with taken := p.taken ++ [.value t] } =
      cv.outcome env p := by
  have hfits : cv.fits env (env.word p.taken.length) =
      decide ((cv.layout.field (cv.intText (value (env.word p.taken.length)))).length ≤
        cv.layout.limit) := by rw [Conv.fits, ha]
  rw [displayInt_run cv.isBase_base hlt, ← Conv.intText, Conv.outcome, hfits]
  by_cases h : (cv.layout.field (cv.intText (value (env.word p.taken.length)))).length ≤
      cv.layout.limit
  · rw [if_pos h, if_pos (decide_eq_true h), displayString_run]
    simp only [Conv.result, Conv.shown, Conv.counted, Conv.stores, ha, Action.args, prefixed,
      Conv.intShown, Conv.intText, Conv.digits, List.map_append, List.append_assoc,
      List.append_nil, List.length_append, BitVec.ofNat_add, BitVec.add_assoc]
  · rw [if_neg h, if_neg (by simpa using h)]

private theorem altOctal_run (h : cv.specifier = 'o') :
    altOctal cv p = .ok ((), prefixed cv p) := by
  have ht : cv.altText = if cv.altForm then ['0'] else [] := by simp [Conv.altText, h]
  cases ha : cv.altForm with
  | true =>
    simp [prefixed, ht, ha, altOctal]
    rfl
  | false =>
    simp [prefixed, ht, ha, altOctal]
    rfl

private theorem altHex_run (h : cv.specifier = 'x' ∨ cv.specifier = 'X') :
    altHex cv p = .ok ((), prefixed cv p) := by
  have ht : cv.altText = if cv.altForm then ['0', 'x'] else [] := by
    rcases h with h | h <;> simp [Conv.altText, h]
  cases ha : cv.altForm with
  | true => simpa [prefixed, ht, ha, altHex] using displayString_run ['0', 'x'] p
  | false =>
    simp [prefixed, ht, ha, altHex]
    rfl

private theorem print_bind {α β : Type} {x : Print α} {a : α} {p p' : Progress} (f : α → Print β)
    (h : x p = .ok (a, p')) : (x >>= f) p = f a p' := by
  change (x p >>= fun r => f r.1 r.2) = _
  rw [h]
  rfl

/-- A conversion that takes no argument and prints nothing but its prefix. -/
private theorem nothing_result (ha : cv.action = .nothing) :
    (.ok ((), prefixed cv p) : Except Fault (Unit × Progress)) =
      cv.outcome env p := by
  have hfits : cv.fits env (env.word p.taken.length) = true := by rw [Conv.fits, ha]
  rw [Conv.outcome, if_pos hfits]
  simp [prefixed, Conv.result, Conv.shown, Conv.counted, Conv.stores, ha, Action.args]

private theorem convertUnsigned_result (h : cv.action = (unsignedArg cv.length).elim .nothing
      fun a => .integer a.1 fun w => a.2 w) :
    convertUnsigned env cv cv.base (prefixed cv p) = cv.outcome env p := by
  cases hu : unsignedArg cv.length with
  | none =>
    rw [hu] at h
    rw [convertUnsigned, hu, ← nothing_result env cv p h]
    rfl
  | some a =>
    rw [hu] at h
    have hlt := unsignedArg_lt hu (env.word p.taken.length)
    rw [convertUnsigned_run env cv cv.base _ hu, ← displayInt_result env cv p h (by simpa using hlt)]
    rfl

private theorem convertSigned_result (h : cv.action = (signedArg cv.length).elim .nothing
      fun a => .integer a.1 a.2) (ht : cv.altText = []) :
    convertSigned env cv cv.base p = cv.outcome env p := by
  cases hu : signedArg cv.length with
  | none =>
    rw [hu] at h
    rw [convertSigned, hu, ← nothing_result env cv p h, prefixed_of_nil cv p ht]
    rfl
  | some a =>
    rw [hu] at h
    have hb := signedArg_bounds hu (env.word p.taken.length)
    rw [convertSigned_run env cv cv.base _ hu, ← displayInt_result env cv p h (by omega),
      prefixed_of_nil cv p ht]

private theorem convertPointer_result (h : cv.specifier = 'p') :
    convertUnsigned env { cv with length := 'z' } 16 p = cv.outcome env p := by
  have hbase : cv.base = 16 := by simp [Conv.base, h]
  have ht : cv.altText = [] := by simp [Conv.altText, h]
  have ha : cv.action = .integer .size fun w => w.toNat := by simp [Conv.action, h]
  have hlt := (env.word p.taken.length).isLt
  rw [convertUnsigned_run env { cv with length := 'z' } 16 p (by rfl),
    ← displayInt_result env cv p ha (by simpa using hlt), hbase, prefixed_of_nil cv p ht]
  rfl

private theorem convertChar_result (h : cv.specifier = 'c') :
    convertChar env cv p = cv.outcome env p := by
  have ht : cv.altText = [] := by simp [Conv.altText, h]
  have ha : cv.action = .char (if cv.length = 'l' then .wchar else .int) := by simp [Conv.action, h]
  have hf : cv.fits env (env.word p.taken.length) = true := by rw [Conv.fits, ha]
  rw [Conv.outcome, if_pos hf]
  simp [Conv.result, Conv.shown, Conv.counted, Conv.stores, ha, ht, Action.args]
  rfl

private theorem convertString_result (h : cv.specifier = 's') :
    convertString env p = cv.outcome env p := by
  have ht : cv.altText = [] := by simp [Conv.altText, h]
  have ha : cv.action = .string := by simp [Conv.action, h]
  have hf : cv.fits env (env.word p.taken.length) = true := by rw [Conv.fits, ha]
  rw [Conv.outcome, if_pos hf]
  simp [Conv.result, Conv.shown, Conv.counted, Conv.stores, ha, ht, Action.args]
  rfl

private theorem convertStore_result (h : cv.specifier = 'n') :
    convertStore env cv p = cv.outcome env p := by
  have ht : cv.altText = [] := by simp [Conv.altText, h]
  have ha : cv.action = (storeType cv.length).elim .nothing .store := by simp [Conv.action, h]
  cases hs : storeType cv.length with
  | none =>
    rw [hs] at ha
    rw [convertStore, hs, ← nothing_result env cv p ha, prefixed_of_nil cv p ht]
    rfl
  | some t =>
    rw [hs] at ha
    simp only [Option.elim_some] at ha
    have hf : cv.fits env (env.word p.taken.length) = true := by rw [Conv.fits, ha]
    rw [Conv.outcome, if_pos hf, convertStore, hs]
    simp [Conv.result, Conv.shown, Conv.counted, Conv.stores, ha, ht, Action.args]
    rfl

private theorem convertFloat_result (ha : cv.action = .float) (ht : cv.altText = []) :
    convertFloat env cv p = cv.outcome env p := by
  have harg : vaArg env .double p =
      .ok (env.word p.taken.length, { p with taken := p.taken ++ [.double] }) := rfl
  have hf : cv.fits env (env.word p.taken.length) =
      (env.float cv (env.word p.taken.length)).isSome := by rw [Conv.fits, ha]
  rw [convertFloat, print_bind _ harg, Conv.outcome, hf]
  cases hfl : env.float cv (env.word p.taken.length) with
  | none => rfl
  | some r =>
    simp [Conv.result, Conv.shown, Conv.counted, Conv.stores, ha, ht, hfl, Action.args]
    rfl

/-- Every conversion takes its argument, prints and counts as `result` says, or overruns a
buffer. -/
theorem convert_run : convert env cv p = cv.outcome env p := by
  unfold convert
  generalize h : cv.specifier = c
  split
  · have hbase : cv.base = 8 := by simp [Conv.base, h]
    rw [print_bind _ (altOctal_run cv p h), ← hbase]
    exact convertUnsigned_result env cv p (by simp [Conv.action, h])
  · rw [← h]
    exact convertPointer_result env cv p h
  · have hbase : cv.base = 16 := by simp [Conv.base, h]
    rw [print_bind _ (altHex_run cv p (Or.inr h)), ← hbase]
    exact convertUnsigned_result env cv p (by simp [Conv.action, h])
  · have hbase : cv.base = 17 := by simp [Conv.base, h]
    rw [print_bind _ (altHex_run cv p (Or.inl h)), ← hbase]
    exact convertUnsigned_result env cv p (by simp [Conv.action, h])
  · have hbase : cv.base = 10 := by simp [Conv.base, h]
    have ht : cv.altText = [] := by simp [Conv.altText, h]
    have hrun := convertUnsigned_result env cv p (by simp [Conv.action, h])
    rwa [hbase, prefixed_of_nil cv p ht] at hrun
  · have hbase : cv.base = 10 := by simp [Conv.base, h]
    rw [← hbase]
    exact convertSigned_result env cv p (by simp [Conv.action, h]) (by simp [Conv.altText, h])
  · have hbase : cv.base = 10 := by simp [Conv.base, h]
    rw [← hbase]
    exact convertSigned_result env cv p (by simp [Conv.action, h]) (by simp [Conv.altText, h])
  · exact convertChar_result env cv p h
  · exact convertString_result env cv p h
  · exact convertStore_result env cv p h
  · exact convertFloat_result env cv p (by simp [Conv.action, h]) (by simp [Conv.altText, h])
  · exact convertFloat_result env cv p (by simp [Conv.action, h]) (by simp [Conv.altText, h])
  · exact convertFloat_result env cv p (by simp [Conv.action, h]) (by simp [Conv.altText, h])
  · exact convertFloat_result env cv p (by simp [Conv.action, h]) (by simp [Conv.altText, h])
  · exact convertFloat_result env cv p (by simp [Conv.action, h]) (by simp [Conv.altText, h])
  · exact convertFloat_result env cv p (by simp [Conv.action, h]) (by simp [Conv.altText, h])
  · have ha : cv.action = .nothing := by
      rw [Conv.action, h]
      split <;> simp_all
    have ht : cv.altText = [] := by
      rw [Conv.altText, h]
      split <;> simp_all
    rw [← nothing_result env cv p ha, prefixed_of_nil cv p ht]
    rfl

end

/-! A run of the loop, seen as its turns. -/

/-- One turn of the loop: a literal character, or a conversion that first takes arguments for
its stars; the conversion may depend on how many arguments were taken before. -/
inductive Turn where
  | literal (c : Char)
  | conv (stars : List VaType) (cv : Nat → Conv)

namespace Turn
variable (env : Env)

def run (p : Progress) : Turn → Except Fault Progress
  | .literal c => (putLiteral c p).map Prod.snd
  | .conv stars cv =>
    (convert env (cv p.taken.length) { p with taken := p.taken ++ stars }).map Prod.snd

/-- The types of the arguments a turn takes when `k` have been taken before. -/
def args (k : Nat) : Turn → List VaType
  | .literal _ => []
  | .conv stars cv => stars ++ (cv k).action.args

def fits (k : Nat) : Turn → Bool
  | .literal _ => true
  | .conv stars cv => (cv k).fits env (env.word (k + stars.length))

def shown (k : Nat) : Turn → List Char
  | .literal c => [c]
  | .conv stars cv => (cv k).shown env (env.word (k + stars.length))

/-- What a turn does when its field fits. -/
def result (p : Progress) : Turn → Progress
  | .literal c =>
    { p with trace := p.trace ++ [.putchar c], chars := p.chars + BitVec.ofNat 32 1 }
  | .conv stars cv => (cv p.taken.length).result env { p with taken := p.taken ++ stars }

theorem run_eq (p : Progress) (x : Turn) :
    x.run env p = if x.fits env p.taken.length then .ok (x.result env p) else .error .overrun := by
  cases x with
  | literal c => rfl
  | conv stars cv =>
    rw [run, convert_run, Conv.outcome, fits, List.length_append]
    split <;> rfl

theorem result_taken (p : Progress) (x : Turn) :
    (x.result env p).taken = p.taken ++ x.args p.taken.length := by
  cases x with
  | literal c => exact (List.append_nil _).symm
  | conv stars cv => exact List.append_assoc ..

end Turn

/-- The characters a trace passes to `putchar`. -/
def printed (trace : List Effect) : List Char :=
  trace.filterMap fun
    | .putchar c => some c
    | .store _ _ _ => none

theorem printed_append (t u : List Effect) : printed (t ++ u) = printed t ++ printed u :=
  List.filterMap_append ..

theorem printed_putchars (s : List Char) : printed (s.map .putchar) = s := by
  rw [printed, List.filterMap_map]
  exact List.filterMap_some

theorem Conv.printed_stores (cv : Conv) (chars : BitVec 32) (w : BitVec 64) :
    printed (cv.stores chars w) = [] := by
  unfold Conv.stores
  split <;> rfl

def runAll (env : Env) (ts : List Turn) (p : Progress) : Except Fault Progress :=
  ts.foldlM (Turn.run env) p

/-- Every field of the run fits the buffers it is built in. -/
def FieldsFit (env : Env) : Nat → List Turn → Prop
  | _, [] => True
  | k, x :: xs => x.fits env k = true ∧ FieldsFit env (k + (x.args k).length) xs

/-- A run returns exactly when each of its fields fits. -/
theorem runAll_ok_iff (env : Env) (ts : List Turn) (p : Progress) :
    (∃ p', runAll env ts p = .ok p') ↔ FieldsFit env p.taken.length ts := by
  induction ts generalizing p with
  | nil => exact ⟨fun _ => trivial, fun _ => ⟨p, rfl⟩⟩
  | cons x ts ih =>
    rw [runAll, List.foldlM_cons, Turn.run_eq, FieldsFit]
    cases x.fits env p.taken.length with
    | false =>
      simp only [Bool.false_eq_true, if_false, error_bind, false_and, iff_false, not_exists]
      intro p' h
      cases h
    | true =>
      simp only [if_true, ok_bind, true_and]
      rw [← List.length_append, ← Turn.result_taken, ← ih]
      rfl

end NyaOS.Stdio
