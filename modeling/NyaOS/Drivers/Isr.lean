import NyaOS.Library.Interleave
import NyaOS.Stdio.Fragment

/-! `exception_handler`: device interrupts are dispatched quietly, every other vector is dumped
on the console before the processor halts. -/
namespace NyaOS.Drivers.Isr
open NyaOS.Stdio NyaOS.Library.Interleave NyaOS.Library.Numeral

/-- The fields of `registers_t` that the dump shows. -/
structure Registers where
  rbx : BitVec 64
  rax : BitVec 64
  vector : BitVec 64
  errorCode : BitVec 64
  rip : BitVec 64
  cs : BitVec 64
  rflags : BitVec 64
  rsp : BitVec 64

inductive Handling where
  | irq (keyboard serial : Bool)
  | timer
  | halt (dump : List Char)

/-- An argument list of plain words. -/
def wordArgs (args : List (BitVec 64)) : Env := { noArgs with word := fun k => args.getD k 0 }

/-- What `printf` sends to `putchar`. -/
def printf (format : String) (args : List (BitVec 64)) : Except Fault (List Char) := do
  let (_, p) ← vprintf (wordArgs args) (format.toList ++ [nul])
  return printed p.trace

def pageFault (vaddr : BitVec 64) : Except Fault (List Char) :=
  printf "faulting addr (CR2)=%#llx\n" [vaddr]

def exceptionHandler (cr2 : BitVec 64) (regs : Registers) : Except Fault Handling := do
  if 0x20 ≤ regs.vector ∧ regs.vector ≤ 0x2f then
    return .irq (regs.vector = 0x21) (regs.vector = 0x22 ∨ regs.vector = 0x23)
  else if regs.vector = 0x30 then
    return .timer
  else
    let head ← printf "\n*** EXCEPTION %llu\n" [regs.vector]
    let frame ← printf "err=%#llx  RIP=%#llx  CS=%#llx  RFLAGS=%#llx\n"
      [regs.errorCode, regs.rip, regs.cs, regs.rflags]
    let rest ← printf "RAX=%#llx RBX=%#llx ... RSP=%#llx\n" [regs.rax, regs.rbx, regs.rsp]
    let fault ← if regs.vector = 14 then pageFault cr2 else .ok []
    return .halt (head ++ frame ++ rest ++ fault)

/-! The formats as items. -/

/-- A text of ordinary characters. -/
def Literal (text : List Char) : Prop := ∀ c ∈ text, c ≠ '%' ∧ c ≠ nul

instance (text : List Char) : Decidable (Literal text) :=
  List.decidableBAll (fun c => c ≠ '%' ∧ c ≠ nul) text

def literals : (text : List Char) → Literal text → List Item
  | [], _ => []
  | c :: text, h =>
    .literal c (h c (.head _)).1 (h c (.head _)).2 :: literals text fun c hc => h c (.tail _ hc)

/-- `%llu` -/
def decimal : Directive := ⟨[], .absent, .absent, .ll, .u⟩

/-- `%#llx` -/
def hex : Directive := ⟨[.hash], .absent, .absent, .ll, .x⟩

theorem decimal_inFragment : decimal.InFragment := ⟨trivial, Or.inl rfl, rfl, rfl, nofun, nofun⟩

theorem hex_inFragment : hex.InFragment := ⟨trivial, Or.inr rfl, rfl, rfl, nofun, nofun⟩

/-- A text without `%` and the directive behind it. -/
structure Field where
  text : List Char
  plain : Literal text
  directive : Directive
  inFragment : directive.InFragment

/-- A line that alternates texts and directives. -/
def lineItems : List Field → List Item
  | [] => literals ['\n'] (by decide)
  | f :: fields => literals f.text f.plain ++ .directive f.directive :: lineItems fields

/-- What such a line prints when the next argument is the `k`-th. -/
def lineText (env : Env) : Nat → List Field → List Char
  | _, [] => ['\n']
  | k, f :: fields =>
    f.text ++ (f.directive.expected env (env.word k) ++ lineText env (k + 1) fields)

theorem expectedAll_literals (env : Env) (k : Nat) {text : List Char} (h : Literal text)
    (items : List Item) :
    expectedAll env k (literals text h ++ items) = text ++ expectedAll env k items := by
  induction text with
  | nil => rfl
  | cons c text ih =>
    rw [literals, List.cons_append, expectedAll, List.cons_append]
    exact congrArg (c :: ·) (ih _)

theorem literals_inFragment {text : List Char} (h : Literal text) :
    ∀ item ∈ literals text h, item.InFragment := by
  induction text with
  | nil => exact List.forall_mem_nil _
  | cons c text ih => exact List.forall_mem_cons.mpr ⟨trivial, ih _⟩

theorem expectedAll_line (env : Env) (k : Nat) (fields : List Field) :
    expectedAll env k (lineItems fields) = lineText env k fields := by
  induction fields generalizing k with
  | nil => rfl
  | cons f fields ih =>
    rw [lineItems, expectedAll_literals, expectedAll, ih, lineText]

theorem line_inFragment (fields : List Field) : ∀ item ∈ lineItems fields, item.InFragment := by
  induction fields with
  | nil => exact literals_inFragment _
  | cons f fields ih =>
    exact List.forall_mem_append.mpr
      ⟨literals_inFragment _, List.forall_mem_cons.mpr ⟨f.inFragment, ih⟩⟩

/-- `printf` on a line prints the line's text. -/
theorem printf_line {format : String} (fields : List Field)
    (hf : format.toList = formatOf (lineItems fields)) (args : List (BitVec 64)) :
    printf format args = .ok (lineText (wordArgs args) 0 fields) := by
  obtain ⟨s, p, hrun, -, htrace, -⟩ :=
    rendered_of_fragment (wordArgs args) (line_inFragment fields) []
  rw [printf, hf, hrun, ok_bind]
  change Except.ok (printed p.trace) = _
  rw [htrace, printed_putchars, expectedAll_line]

def headLine : List Field := [⟨"\n*** EXCEPTION ".toList, by decide, decimal, decimal_inFragment⟩]

def frameLine : List Field :=
  [⟨"err=".toList, by decide, hex, hex_inFragment⟩,
    ⟨"  RIP=".toList, by decide, hex, hex_inFragment⟩,
    ⟨"  CS=".toList, by decide, hex, hex_inFragment⟩,
    ⟨"  RFLAGS=".toList, by decide, hex, hex_inFragment⟩]

def restLine : List Field :=
  [⟨"RAX=".toList, by decide, hex, hex_inFragment⟩,
    ⟨" RBX=".toList, by decide, hex, hex_inFragment⟩,
    ⟨" ... RSP=".toList, by decide, hex, hex_inFragment⟩]

def faultLine : List Field := [⟨"faulting addr (CR2)=".toList, by decide, hex, hex_inFragment⟩]

/-- The texts between the numbers of a dump, with the marks of the hexadecimal ones. -/
def dumpTexts : List (List Char) :=
  ["\n*** EXCEPTION ".toList, "\nerr=0x".toList, "  RIP=0x".toList, "  CS=0x".toList,
    "  RFLAGS=0x".toList, "\nRAX=0x".toList, " RBX=0x".toList, " ... RSP=0x".toList]

def Registers.dumpWords (regs : Registers) : List (List Char) :=
  [Nat.toDigits 10 regs.vector.toNat, Nat.toDigits 16 regs.errorCode.toNat,
    Nat.toDigits 16 regs.rip.toNat, Nat.toDigits 16 regs.cs.toNat, Nat.toDigits 16 regs.rflags.toNat,
    Nat.toDigits 16 regs.rax.toNat, Nat.toDigits 16 regs.rbx.toNat, Nat.toDigits 16 regs.rsp.toNat]

/-- The line a page fault adds. -/
def faultText (cr2 : BitVec 64) (regs : Registers) : List Char :=
  if regs.vector = 14 then
    "faulting addr (CR2)=0x".toList ++ (Nat.toDigits 16 cr2.toNat ++ ['\n'])
  else []

/-- A vector that belongs to a device or to the timer. -/
def Registers.IsInterrupt (regs : Registers) : Prop :=
  0x20 ≤ regs.vector ∧ regs.vector ≤ 0x2f ∨ regs.vector = 0x30

theorem decimal_expected (env : Env) (w : BitVec 64) :
    decimal.expected env w = Nat.toDigits 10 w.toNat := by
  change Nat.toDigits 10 (w.setWidth 64).toNat = _
  rw [BitVec.setWidth_eq]

theorem hex_expected (env : Env) (w : BitVec 64) :
    hex.expected env w = '0' :: 'x' :: Nat.toDigits 16 w.toNat := by
  change '0' :: 'x' :: Nat.toDigits 16 (w.setWidth 64).toNat = _
  rw [BitVec.setWidth_eq]

/-- Every vector that is not an interrupt's is dumped. -/
theorem exceptionHandler_dump (cr2 : BitVec 64) {regs : Registers} (h : ¬ regs.IsInterrupt) :
    exceptionHandler cr2 regs = .ok (.halt (interleave dumpTexts regs.dumpWords
      ('\n' :: faultText cr2 regs))) := by
  obtain ⟨hirq, htimer⟩ := not_or.mp h
  have hhead : printf "\n*** EXCEPTION %llu\n" [regs.vector] = _ :=
    printf_line headLine rfl _
  have hframe : printf "err=%#llx  RIP=%#llx  CS=%#llx  RFLAGS=%#llx\n"
      [regs.errorCode, regs.rip, regs.cs, regs.rflags] = _ := printf_line frameLine rfl _
  have hrest : printf "RAX=%#llx RBX=%#llx ... RSP=%#llx\n" [regs.rax, regs.rbx, regs.rsp] = _ :=
    printf_line restLine rfl _
  have hfault : pageFault cr2 = _ := printf_line faultLine rfl _
  rw [exceptionHandler, if_neg hirq, if_neg htimer, hhead, hframe, hrest]
  simp only [ok_bind]
  have htexts : ∀ fault, lineText (wordArgs [regs.vector]) 0 headLine ++
      lineText (wordArgs [regs.errorCode, regs.rip, regs.cs, regs.rflags]) 0 frameLine ++
      lineText (wordArgs [regs.rax, regs.rbx, regs.rsp]) 0 restLine ++ fault =
        interleave dumpTexts regs.dumpWords ('\n' :: fault) := by
    intro fault
    simp only [headLine, frameLine, restLine, lineText, decimal_expected, hex_expected,
      List.append_assoc, List.cons_append, List.nil_append]
    rfl
  by_cases hv : regs.vector = 14
  · have hline : lineText (wordArgs [cr2]) 0 faultLine = faultText cr2 regs := by
      rw [faultText, if_pos hv]
      simp only [faultLine, lineText, hex_expected]
      rfl
    rw [if_pos hv, hfault, ok_bind, htexts, hline]
    rfl
  · rw [if_neg hv, htexts, faultText, if_neg hv]
    rfl

theorem exceptionHandler_halt {cr2 : BitVec 64} {regs : Registers} {dump : List Char}
    (h : exceptionHandler cr2 regs = .ok (.halt dump)) : ¬ regs.IsInterrupt := by
  intro hi
  rcases hi with hi | hi
  · rw [exceptionHandler, if_pos hi] at h
    cases h
  · have hirq : ¬ (0x20 ≤ regs.vector ∧ regs.vector ≤ 0x2f) := by
      rw [hi]
      decide
    rw [exceptionHandler, if_neg hirq, if_pos hi] at h
    cases h

/-- The characters numbers are written with. -/
def isDigitChar (c : Char) : Bool := digitValue c < 16

private theorem toDigits_eq {b : Nat} (hb : b = 10 ∨ b = 16) :
    ∃ base, IsBase base ∧ ∀ n, Nat.toDigits b n = numeralOf base n := by
  rcases hb with rfl | rfl
  · exact ⟨10, Or.inr (Or.inl rfl), canonical_eq .u⟩
  · exact ⟨17, Or.inr (Or.inr (Or.inr rfl)), canonical_eq .x⟩

theorem toDigits_inj {b n m : Nat} (hb : b = 10 ∨ b = 16)
    (h : Nat.toDigits b n = Nat.toDigits b m) : n = m := by
  obtain ⟨base, hbase, heq⟩ := toDigits_eq hb
  rw [heq, heq] at h
  rw [← readNat_numeralOf hbase n, h, readNat_numeralOf hbase]

theorem isDigitChar_of_mem {b n : Nat} (hb : b = 10 ∨ b = 16) {c : Char}
    (hc : c ∈ Nat.toDigits b n) : isDigitChar c = true := by
  obtain ⟨base, hbase, heq⟩ := toDigits_eq hb
  rw [heq] at hc
  have hr := hbase.radix
  obtain ⟨d, hd, rfl⟩ := of_mem_numeral (by omega) hc
  rw [isDigitChar, (digit_properties hbase hd).1]
  exact decide_eq_true (by omega)

private theorem dumpWords_digits (regs : Registers) :
    ∀ word ∈ regs.dumpWords, ∀ c ∈ word, isDigitChar c = true := by
  have hdec : ∀ n, ∀ c ∈ Nat.toDigits 10 n, isDigitChar c = true :=
    fun n c hc => isDigitChar_of_mem (Or.inl rfl) hc
  have hhex : ∀ n, ∀ c ∈ Nat.toDigits 16 n, isDigitChar c = true :=
    fun n c hc => isDigitChar_of_mem (Or.inr rfl) hc
  simp only [Registers.dumpWords, List.forall_mem_cons]
  exact ⟨hdec _, hhex _, hhex _, hhex _, hhex _, hhex _, hhex _, hhex _, List.forall_mem_nil _⟩

private theorem dumpTexts_end : ∀ text ∈ dumpTexts, Ends isDigitChar text := by
  simp only [dumpTexts, List.forall_mem_cons]
  refine ⟨?_, ?_, ?_, ?_, ?_, ?_, ?_, ?_, List.forall_mem_nil _⟩
  all_goals exact ⟨_, _, rfl, by decide⟩

theorem dumpWords_inj {regs regs' : Registers} (h : regs.dumpWords = regs'.dumpWords) :
    regs = regs' := by
  have hword : ∀ {b : Nat} {v w : BitVec 64}, b = 10 ∨ b = 16 →
      Nat.toDigits b v.toNat = Nat.toDigits b w.toNat → v = w :=
    fun hb h => BitVec.eq_of_toNat_eq (toDigits_inj hb h)
  simp only [Registers.dumpWords, List.cons.injEq] at h
  obtain ⟨hvector, herror, hrip, hcs, hrflags, hrax, hrbx, hrsp, -⟩ := h
  obtain ⟨rbx, rax, vector, errorCode, rip, cs, rflags, rsp⟩ := regs
  obtain ⟨rbx', rax', vector', errorCode', rip', cs', rflags', rsp'⟩ := regs'
  rw [Registers.mk.injEq]
  exact ⟨hword (Or.inr rfl) hrbx, hword (Or.inr rfl) hrax, hword (Or.inl rfl) hvector,
    hword (Or.inr rfl) herror, hword (Or.inr rfl) hrip, hword (Or.inr rfl) hcs,
    hword (Or.inr rfl) hrflags, hword (Or.inr rfl) hrsp⟩

/-- Equal dumps come from equal registers, whatever the page-fault addresses. -/
theorem exceptionHandler_inj {cr2 cr2' : BitVec 64} {regs regs' : Registers} {dump : List Char}
    (h : exceptionHandler cr2 regs = .ok (.halt dump))
    (h' : exceptionHandler cr2' regs' = .ok (.halt dump)) : regs = regs' := by
  have hdump := exceptionHandler_dump cr2 (exceptionHandler_halt h)
  have hdump' := exceptionHandler_dump cr2' (exceptionHandler_halt h')
  rw [h, Except.ok.injEq, Handling.halt.injEq] at hdump
  rw [h', Except.ok.injEq, Handling.halt.injEq] at hdump'
  have hend : ∀ t, Ends isDigitChar ('\n' :: t) := fun t => ⟨'\n', t, rfl, by decide⟩
  exact dumpWords_inj (interleave_inj dumpTexts_end (hend _) (hend _) rfl rfl
    (dumpWords_digits regs) (dumpWords_digits regs') (hdump.symm.trans hdump'))

/-- Every format of the fragment is rendered faithfully; `exception_handler` dumps every
exception, and the dump determines the registers it shows. -/
theorem fragment_rendered :
    (∀ env items behind, (∀ item ∈ items, Item.InFragment item) → Rendered env items behind) ∧
      (∀ cr2 regs, ¬ Registers.IsInterrupt regs →
        ∃ dump, exceptionHandler cr2 regs = .ok (.halt dump)) ∧
      ∀ cr2 cr2' regs regs' dump, exceptionHandler cr2 regs = .ok (.halt dump) →
        exceptionHandler cr2' regs' = .ok (.halt dump) → regs = regs' :=
  ⟨fun env _ behind h => rendered_of_fragment env h behind,
    fun cr2 _ h => ⟨_, exceptionHandler_dump cr2 h⟩,
    fun _ _ _ _ _ h h' => exceptionHandler_inj h h'⟩

/-- A divide error in an otherwise empty register set. -/
def divideError : Registers := ⟨0, 0, 0, 0, 0, 0, 0, 0⟩

theorem fragment_rendered_divideError :
    Rendered (wordArgs [255]) [.directive hex] [] ∧
      ∃ dump, exceptionHandler 0 divideError = .ok (.halt dump) ∧
        ∀ cr2 regs, exceptionHandler cr2 regs = .ok (.halt dump) → divideError = regs := by
  obtain ⟨hrender, hdump, hinj⟩ := fragment_rendered
  obtain ⟨dump, h⟩ := hdump 0 divideError (by unfold Registers.IsInterrupt; decide)
  exact ⟨hrender _ _ _ (List.forall_mem_singleton.mpr hex_inFragment), dump, h,
    fun cr2 regs h' => hinj 0 cr2 divideError regs dump h h'⟩

end NyaOS.Drivers.Isr
