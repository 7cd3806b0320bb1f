import NyaOS.Stdio.Fields

/-! The two buffers of 256 bytes: when every field of a run stays inside them, and its widths inside
`int`. The model of a run ends at the first access outside a buffer; that is the write itself, or
the `strlen` whose result is the index of the next write. -/
namespace NyaOS.Stdio

def IsInt (n : Int) : Prop := -2 ^ 31 ≤ n ∧ n < 2 ^ 31

/-- The loop that reads the width, from the value `n` on: neither `lengthSpec *= 10` nor
`lengthSpec += format[i] - '0'` overflows. -/
def NoOverflow : Int → List Char → Prop
  | _, [] => True
  | n, c :: ds =>
    IsInt (n * 10) ∧ IsInt (n * 10 + (c.toNat - '0'.toNat)) ∧
      NoOverflow (n * 10 + (c.toNat - '0'.toNat)) ds

/-- The run leaves neither buffer, and each `lengthSpec` is computed without overflow. -/
def InBuffers (env : Env) (ps : List Piece) (behind : List Char) : Prop :=
  vprintf env (render ps ++ nul :: behind) ≠ .error .overrun ∧
    ∀ sp, .conv sp ∈ ps → NoOverflow 0 sp.width

/-- No conversion of the format is a floating-point one. -/
def NoFloat (ps : List Piece) : Prop :=
  ∀ sp, .conv sp ∈ ps → sp.specifier ∉ ['e', 'E', 'f', 'F', 'g', 'G']

def decimal (n : Nat) (ds : List Char) : Nat := ds.foldl (fun n c => n * 10 + (c.toNat - '0'.toNat)) n

/-- The width that a specification asks for when `k` arguments have been taken before. -/
def Spec.widthValue (env : Env) (k : Nat) (sp : Spec) : Int :=
  if sp.widthStar then ((env.word k).setWidth 32).toInt else decimal 0 sp.width

/-- The digits of the width are an `int`. For an integer, the width is at most 255, or 256 with a
`-`, and it is not so low that the length of the text cannot be subtracted from it. -/
def Spec.WidthFits (env : Env) (k : Nat) (sp : Spec) : Prop :=
  decimal 0 sp.width < 2 ^ 31 ∧ match (sp.conv env k).action with
    | .integer _ value =>
      sp.widthValue env k ≤ (if '-' ∈ sp.flags then 256 else 255) ∧
        -2 ^ 31 ≤ sp.widthValue env k -
          ((sp.conv env k).intText (value (env.word (k + sp.starArgs.length)))).length
    | _ => True

def Piece.WidthFits (env : Env) (k : Nat) : Piece → Prop
  | .literal _ => True
  | .conv sp => sp.WidthFits env k

def WidthsFit (env : Env) : Nat → List Piece → Prop
  | _, [] => True
  | k, x :: xs => x.WidthFits env k ∧ WidthsFit env (k + ((x.turn env).args k).length) xs

section Digits

theorem digit_bounds {c : Char} (h : isdigit c = true) : 48 ≤ c.toNat ∧ c.toNat ≤ 57 := by
  simp only [isdigit, Bool.and_eq_true, decide_eq_true_eq] at h
  exact h

theorem le_decimal (n : Nat) (ds : List Char) : n ≤ decimal n ds := by
  induction ds generalizing n with
  | nil => exact Nat.le_refl n
  | cons c ds ih =>
    have hle := ih (n * 10 + (c.toNat - '0'.toNat))
    rw [decimal, List.foldl_cons, ← decimal]
    omega

/-- Partial values only grow, so the last one decides. -/
theorem noOverflow_iff {ds : List Char} (hds : ∀ c ∈ ds, isdigit c = true) {n : Nat} (hn : n < 2 ^ 31) :
    NoOverflow n ds ↔ decimal n ds < 2 ^ 31 := by
  induction ds generalizing n with
  | nil => exact iff_of_true trivial hn
  | cons c ds ih =>
    obtain ⟨hc, hds⟩ := List.forall_mem_cons.mp hds
    have hb := digit_bounds hc
    have hcast : (n : Int) * 10 + (c.toNat - '0'.toNat) = (n * 10 + (c.toNat - '0'.toNat) : Nat) := by
      have h0 : '0'.toNat = 48 := rfl
      omega
    have hle := le_decimal (n * 10 + (c.toNat - '0'.toNat)) ds
    rw [NoOverflow, hcast, show decimal n (c :: ds) = decimal (n * 10 + (c.toNat - '0'.toNat)) ds from rfl]
    constructor
    · rintro ⟨-, ⟨-, hhi⟩, hrest⟩
      exact (ih hds (by omega)).mp hrest
    · intro hlt
      refine ⟨⟨by omega, by omega⟩, ⟨by omega, by omega⟩, (ih hds (by omega)).mpr hlt⟩

theorem number_eq {ds : List Char} (hds : ∀ c ∈ ds, isdigit c = true) {n : Nat}
    (h : decimal n ds < 2 ^ 31) : number n ds = decimal n ds := by
  induction ds generalizing n with
  | nil => rfl
  | cons c ds ih =>
    obtain ⟨hc, hds⟩ := List.forall_mem_cons.mp hds
    have hb := digit_bounds hc
    have h0 : '0'.toNat = 48 := rfl
    have hle := le_decimal (n * 10 + (c.toNat - '0'.toNat)) ds
    have hlt : decimal (n * 10 + (c.toNat - '0'.toNat)) ds < 2 ^ 31 := h
    have hstep : toInt32 (toInt32 ((n : Int) * 10) + ((c.toNat : Int) - ('0'.toNat : Int))) =
        (n * 10 + (c.toNat - '0'.toNat) : Nat) := by
      rw [toInt32_of_lt (x := (n : Int) * 10) (by omega) (by omega), toInt32_of_lt (by omega) (by omega)]
      omega
    rw [number_cons, hstep, ih hds hlt, decimal, decimal, List.foldl_cons]

end Digits

/-- A width below the length of the text wraps around to a padding no buffer has room for. -/
theorem Layout.fits_iff {l : Layout} {text : List Char} (ht : text.length ≤ 23)
    (hl : IsInt l.lengthSpec) :
    (l.field text).length ≤ l.limit ↔
      l.lengthSpec ≤ l.limit ∧ -2 ^ 31 ≤ l.lengthSpec - text.length := by
  obtain ⟨hlo, hhi⟩ := hl
  have hlimit : 255 ≤ l.limit ∧ l.limit ≤ 256 := by
    unfold Layout.limit bufferSize
    split <;> decide
  rw [Layout.length_field, Layout.padding]
  by_cases hsub : -2 ^ 31 ≤ l.lengthSpec - text.length
  · rw [toInt32_of_lt hsub (by omega)]
    omega
  · have hwrap : toInt32 (l.lengthSpec - text.length) = l.lengthSpec - text.length + 2 ^ 32 := by
      rw [← toInt32_of_lt (x := l.lengthSpec - text.length + 2 ^ 32) (by omega) (by omega)]
      exact (Int.add_bmod_right _ (2 ^ 32)).symm
    rw [hwrap]
    omega

theorem unsigned_value_lt {length : Char} {t : IntType} {value : BitVec 64 → Int}
    (ha : ((unsignedArg length).elim .nothing fun a => .integer a.1 fun w => a.2 w) =
      Action.integer t value) (w : BitVec 64) : (value w).natAbs < 2 ^ 64 := by
  cases hu : unsignedArg length with
  | none =>
    rw [hu] at ha
    cases ha
  | some a =>
    rw [hu] at ha
    cases ha
    exact unsignedArg_lt hu w

/-- The value of an integer conversion has at most 64 bits. -/
theorem Conv.value_lt {cv : Conv} {t : IntType} {value : BitVec 64 → Int}
    (ha : cv.action = .integer t value) (w : BitVec 64) : (value w).natAbs < 2 ^ 64 := by
  unfold Conv.action at ha
  split at ha
  iterate 4 exact unsigned_value_lt ha w
  · cases ha
    exact w.isLt
  iterate 2
    cases hs : signedArg cv.length with
    | none =>
      rw [hs] at ha
      cases ha
    | some a =>
      rw [hs] at ha
      cases ha
      have hb := signedArg_bounds hs w
      omega
  iterate 2 cases ha
  · cases hs : storeType cv.length with
    | none =>
      rw [hs] at ha
      cases ha
    | some t =>
      rw [hs] at ha
      cases ha
  all_goals cases ha

theorem Conv.specifier_of_float {cv : Conv} (ha : cv.action = .float) :
    cv.specifier ∈ ['e', 'E', 'f', 'F', 'g', 'G'] := by
  have helim : ∀ {α : Type} (o : Option α) (f : α → Action), (∀ a, f a ≠ .float) →
      o.elim .nothing f ≠ .float := by
    intro α o f h
    cases o with
    | none => nofun
    | some a => exact h a
  unfold Conv.action at ha
  split at ha
  iterate 4 exact absurd ha (helim _ _ fun _ => nofun)
  · cases ha
  iterate 2 exact absurd ha (helim _ _ fun _ => nofun)
  iterate 2 cases ha
  · exact absurd ha (helim _ _ fun _ => nofun)
  iterate 6
    next hs =>
      rw [hs]
      decide
  cases ha

theorem foldl_leftJustify (flags : List Char) (cv : Conv) :
    (flags.foldl applyFlag cv).leftJustify = true ↔ cv.leftJustify = true ∨ '-' ∈ flags := by
  induction flags generalizing cv with
  | nil => simp
  | cons c flags ih =>
    have hstep : (applyFlag cv c).leftJustify = true ↔ cv.leftJustify = true ∨ c = '-' := by
      unfold applyFlag setFlag
      split <;> simp_all
    rw [List.foldl_cons, ih, hstep, List.mem_cons, or_assoc, eq_comm (a := c)]

/-- What is scanned as the width is the width, where its digits are an `int`. -/
theorem Spec.lengthSpec_eq {sp : Spec} (hm : sp.Munched) (env : Env) (k : Nat)
    (h : decimal 0 sp.width < 2 ^ 31) : (sp.conv env k).lengthSpec = sp.widthValue env k := by
  have hnum : number 0 sp.width = decimal 0 sp.width := number_eq (n := 0) hm.width h
  show starValue env k sp.widthStar (number 0 sp.width) = _
  rw [hnum]
  rfl

theorem Spec.widthValue_isInt {sp : Spec} (env : Env) (k : Nat) (h : decimal 0 sp.width < 2 ^ 31) :
    IsInt (sp.widthValue env k) := by
  have hlo := ((env.word k).setWidth 32).le_toInt
  have hhi := ((env.word k).setWidth 32).toInt_lt
  unfold Spec.widthValue IsInt
  split
  · exact ⟨hlo, hhi⟩
  · omega

theorem Spec.limit_eq (sp : Spec) (env : Env) (k : Nat) :
    (((sp.conv env k).layout.limit : Nat) : Int) = if '-' ∈ sp.flags then 256 else 255 := by
  have hleft : (sp.conv env k).layout.leftJustify = true ↔ '-' ∈ sp.flags :=
    (foldl_leftJustify sp.flags .init).trans (or_iff_right Bool.false_ne_true)
  unfold Layout.limit
  by_cases h : '-' ∈ sp.flags
  · rw [if_pos h, if_pos (hleft.mpr h)]
    rfl
  · rw [if_neg h, if_neg (mt hleft.mp h)]
    rfl

theorem Conv.length_intText {cv : Conv} {v : Int} (hv : v.natAbs < 2 ^ 64) :
    (cv.intText v).length ≤ 23 :=
  cv.layout.length_text cv.isBase_base hv _

/-- One conversion: its field fits and its width is computed exactly when the width fits. -/
theorem Spec.fits_iff {sp : Spec} (hm : sp.Munched)
    (hf : sp.specifier ∉ ['e', 'E', 'f', 'F', 'g', 'G']) (env : Env) (k : Nat) :
    (sp.conv env k).fits env (env.word (k + sp.starArgs.length)) = true ∧ NoOverflow 0 sp.width ↔
      sp.WidthFits env k := by
  rw [Spec.WidthFits, and_comm, show NoOverflow 0 sp.width ↔ decimal 0 sp.width < 2 ^ 31 from
    noOverflow_iff (n := 0) hm.width (by decide)]
  refine and_congr_right fun hwidth => ?_
  unfold Conv.fits
  cases ha : (sp.conv env k).action with
  | integer t value =>
    have hl : (sp.conv env k).layout.lengthSpec = sp.widthValue env k := sp.lengthSpec_eq hm env k hwidth
    have hint := sp.widthValue_isInt env k hwidth
    rw [← hl] at hint
    have htext := (sp.conv env k).length_intText
      (Conv.value_lt ha (env.word (k + sp.starArgs.length)))
    dsimp only
    rw [decide_eq_true_iff, Layout.fits_iff htext hint, hl, sp.limit_eq]
  | float => exact absurd (Conv.specifier_of_float ha) hf
  | char t => exact iff_of_true rfl trivial
  | string => exact iff_of_true rfl trivial
  | store t => exact iff_of_true rfl trivial
  | nothing => exact iff_of_true rfl trivial

/-- The only way for turns not to return is to leave a buffer. -/
theorem runAll_ne_overrun_iff (env : Env) (ts : List Turn) (p : Progress) :
    runAll env ts p ≠ .error .overrun ↔ FieldsFit env p.taken.length ts := by
  rw [← runAll_ok_iff]
  induction ts generalizing p with
  | nil => exact iff_of_true nofun ⟨p, rfl⟩
  | cons x ts ih =>
    rw [runAll, List.foldlM_cons, Turn.run_eq]
    split
    · exact ih _
    · refine iff_of_false (fun h => h rfl) ?_
      rintro ⟨p', hp'⟩
      cases hp'

theorem fieldsFit_iff {ps : List Piece} (hps : ∀ x ∈ ps, x.Ok) (hf : NoFloat ps) (env : Env) (k : Nat) :
    FieldsFit env k (ps.map (Piece.turn env)) ∧ (∀ sp, .conv sp ∈ ps → NoOverflow 0 sp.width) ↔
      WidthsFit env k ps := by
  induction ps generalizing k with
  | nil => exact iff_of_true ⟨trivial, nofun⟩ trivial
  | cons x ps ih =>
    obtain ⟨hx, hps⟩ := List.forall_mem_cons.mp hps
    have hrest := ih hps (fun sp hsp => hf sp (.tail _ hsp)) (k + ((x.turn env).args k).length)
    rw [List.map_cons, FieldsFit, WidthsFit, ← hrest]
    cases x with
    | literal c =>
      have hmem : (∀ sp, Piece.conv sp ∈ .literal c :: ps → NoOverflow 0 sp.width) ↔
          ∀ sp, Piece.conv sp ∈ ps → NoOverflow 0 sp.width := by simp
      rw [hmem, and_assoc]
      exact and_congr_left' (iff_of_true rfl trivial)
    | conv sp =>
      have hmem : (∀ sp', Piece.conv sp' ∈ .conv sp :: ps → NoOverflow 0 sp'.width) ↔
          NoOverflow 0 sp.width ∧ ∀ sp', Piece.conv sp' ∈ ps → NoOverflow 0 sp'.width := by simp
      have hfits := Spec.fits_iff hx (hf sp (.head _)) env k
      rw [hmem, and_and_and_comm]
      exact and_congr_left' hfits

theorem vprintf_ne_overrun_iff {ps : List Piece} (hps : ∀ x ∈ ps, x.Ok) (env : Env)
    (behind : List Char) : vprintf env (render ps ++ nul :: behind) ≠ .error .overrun ↔
      FieldsFit env 0 (ps.map (Piece.turn env)) := by
  refine Iff.trans ?_ (runAll_ne_overrun_iff env _ .init)
  rw [vprintf_pieces env hps]
  cases runAll env (ps.map (Piece.turn env)) .init with
  | error e => exact not_congr ⟨fun h => by cases h; rfl, fun h => by cases h; rfl⟩
  | ok p => exact iff_of_true nofun nofun

/-- On any format without floating-point conversions, with any arguments, every write stays inside
the buffers and every width inside `int` exactly when the widths fit. -/
theorem in_buffers_iff {ps : List Piece} (hps : ∀ x ∈ ps, x.Ok) (hf : NoFloat ps) (env : Env)
    (behind : List Char) : InBuffers env ps behind ↔ WidthsFit env 0 ps := by
  rw [InBuffers, vprintf_ne_overrun_iff hps]
  exact fieldsFit_iff hps hf env 0

/-- `%d` with a width. -/
def widthSpec (first : Fin 9) (rest : List (Fin 10)) : Spec :=
  Directive.spec ⟨[], .number first rest, .absent, .absent, .d⟩ [] 'd'

theorem widthSpec_ok (first : Fin 9) (rest : List (Fin 10)) :
    ∀ x ∈ [Piece.conv (widthSpec first rest)], x.Ok :=
  Item.pieces_ok (.directive ⟨[], .number first rest, .absent, .absent, .d⟩)

theorem widthSpec_noFloat (first : Fin 9) (rest : List (Fin 10)) :
    NoFloat [.conv (widthSpec first rest)] := by
  intro sp hsp
  cases List.mem_singleton.mp hsp
  show 'd' ∉ _
  decide

/-- `printf("%25d", 0)` -/
theorem width_25_in_buffers :
    InBuffers noArgs [.conv (widthSpec 1 [5])] [] ∧
      render [.conv (widthSpec 1 [5])] = "%25d".toList := by
  have hlen := ((widthSpec 1 [5]).conv noArgs 0).length_intText (v := 0) (by decide)
  have hwidth : (widthSpec 1 [5]).widthValue noArgs 0 = 25 := by decide
  have hsub : -2 ^ 31 ≤ (widthSpec 1 [5]).widthValue noArgs 0 -
      (((widthSpec 1 [5]).conv noArgs 0).intText 0).length := by omega
  exact ⟨(in_buffers_iff (widthSpec_ok 1 [5]) (widthSpec_noFloat 1 [5]) noArgs []).mpr
    ⟨⟨by decide, by decide, hsub⟩, trivial⟩, rfl⟩

/-- `printf("%300d", 0)` -/
theorem width_300_overruns :
    render [.conv (widthSpec 2 [0, 0])] = "%300d".toList ∧
      ¬ InBuffers noArgs [.conv (widthSpec 2 [0, 0])] [] := by
  refine ⟨rfl, fun h => ?_⟩
  rw [InBuffers, vprintf_ne_overrun_iff (widthSpec_ok 2 [0, 0])] at h
  obtain ⟨⟨-, hwidth, -⟩, -⟩ :=
    (fieldsFit_iff (widthSpec_ok 2 [0, 0]) (widthSpec_noFloat 2 [0, 0]) noArgs 0).mp h
  exact absurd hwidth (by decide)

end NyaOS.Stdio
