import NyaOS.Stdio.Convert

/-! What the scanner makes of a format: every text splits into literal characters and
conversions, each conversion taken as far as the scanner reads. -/
namespace NyaOS.Stdio

section
variable {α β : Type} {s s' : Cursor} {p p' : Progress}

theorem bind_ok {x : Vprintf α} {a : α} (f : α → Vprintf β) (h : x s p = .ok ((a, s'), p')) :
    (x >>= f) s p = f a s' p' := by
  change (x s p >>= fun r => f r.1.1 r.1.2 r.2) = _
  rw [h]
  rfl

theorem lift_run (x : Print α) : (liftM x : Vprintf α) s p =
    (x p).map fun r => ((r.1, s), r.2) := by
  change (x p >>= fun r => Except.ok ((r.1, s), r.2)) = _
  cases x p <;> rfl

end

theorem peek_run {i top : Nat} (c : Char) (m : List Char) (p : Progress) (h : top ≤ i) :
    peek ⟨i, c :: m, top⟩ p = .ok ((c, ⟨i, c :: m, i⟩), p) := by
  change Except.ok ((c, Cursor.mk i (c :: m) (max top i)), p) = _
  rw [Nat.max_eq_right h]

theorem skip_run (i top : Nat) (c : Char) (m : List Char) (p : Progress) :
    skip ⟨i, c :: m, top⟩ p = .ok (((), ⟨i + 1, m, top⟩), p) := rfl

theorem vaArg_run (env : Env) (t : VaType) (s : Cursor) (p : Progress) :
    (liftM (vaArg env t) : Vprintf (BitVec 64)) s p =
      .ok ((env.word p.taken.length, s), { p with taken := p.taken ++ [t] }) := rfl

def isFlag (c : Char) : Bool := (setFlag .init c).isSome

def applyFlag (cv : Conv) (c : Char) : Conv := (setFlag cv c).getD cv

theorem setFlag_of_isFlag (cv : Conv) {c : Char} (h : isFlag c = true) :
    setFlag cv c = some (applyFlag cv c) := by
  unfold isFlag applyFlag setFlag at *
  split <;> simp_all

theorem setFlag_of_not_isFlag (cv : Conv) {c : Char} (h : isFlag c = false) :
    setFlag cv c = none := by
  unfold isFlag setFlag at *
  split <;> simp_all

/-- The text begins with a character on which a scanning loop stops. -/
def Stops (P : Char → Bool) (t : List Char) : Prop := ∃ c m, t = c :: m ∧ P c = false

theorem Stops.append {P : Char → Bool} {t : List Char} (h : Stops P t) (m : List Char) :
    Stops P (t ++ m) := by
  obtain ⟨c, t, rfl, hc⟩ := h
  exact ⟨c, t ++ m, rfl, hc⟩

section
variable {i top : Nat} {t : List Char} (p : Progress)

theorem scanFlags_run {fs : List Char} (hfs : ∀ c ∈ fs, isFlag c = true) (ht : Stops isFlag t)
    {fuel : Nat} (hf : fs.length < fuel) (cv : Conv) (h : top ≤ i) :
    scanFlags fuel cv ⟨i, fs ++ t, top⟩ p =
      .ok ((fs.foldl applyFlag cv, ⟨i + fs.length, t, i + fs.length⟩), p) := by
  induction fs generalizing fuel cv i top with
  | nil =>
    obtain ⟨c, m, rfl, hc⟩ := ht
    obtain ⟨fuel, rfl⟩ := Nat.exists_eq_succ_of_ne_zero (by simp at hf; omega : fuel ≠ 0)
    rw [scanFlags, List.nil_append, bind_ok _ (peek_run c m p h), setFlag_of_not_isFlag cv hc]
    rfl
  | cons c fs ih =>
    obtain ⟨hc, hfs⟩ := List.forall_mem_cons.mp hfs
    simp only [List.length_cons] at hf
    obtain ⟨fuel, rfl⟩ := Nat.exists_eq_succ_of_ne_zero (by omega : fuel ≠ 0)
    rw [scanFlags, List.cons_append, bind_ok _ (peek_run c _ p h), setFlag_of_isFlag cv hc]
    dsimp only
    rw [bind_ok _ (skip_run i i c _ p), ih hfs (by omega) _ (Nat.le_succ i), List.foldl_cons,
      List.length_cons, Nat.add_right_comm i 1, Nat.add_assoc]

/-- The value of a run of digits, in `int` arithmetic. -/
def number (n : Int) (ds : List Char) : Int :=
  ds.foldl (fun n c => toInt32 (toInt32 (n * 10) + (c.toNat - '0'.toNat))) n

theorem scanNumber_run {ds : List Char} (hds : ∀ c ∈ ds, isdigit c = true) (ht : Stops isdigit t)
    {fuel : Nat} (hf : ds.length < fuel) (n : Int) (h : top ≤ i) :
    scanNumber fuel n ⟨i, ds ++ t, top⟩ p =
      .ok ((number n ds, ⟨i + ds.length, t, i + ds.length⟩), p) := by
  induction ds generalizing fuel n i top with
  | nil =>
    obtain ⟨c, m, rfl, hc⟩ := ht
    obtain ⟨fuel, rfl⟩ := Nat.exists_eq_succ_of_ne_zero (by simp at hf; omega : fuel ≠ 0)
    rw [scanNumber, List.nil_append, bind_ok _ (peek_run c m p h), hc]
    rfl
  | cons c ds ih =>
    obtain ⟨hc, hds⟩ := List.forall_mem_cons.mp hds
    simp only [List.length_cons] at hf
    obtain ⟨fuel, rfl⟩ := Nat.exists_eq_succ_of_ne_zero (by omega : fuel ≠ 0)
    rw [scanNumber, List.cons_append, bind_ok _ (peek_run c _ p h), if_pos hc,
      bind_ok _ (skip_run i i c _ p), ih hds (by omega) _ (Nat.le_succ i), List.length_cons,
      Nat.succ_add_eq_add_succ]
    rfl

def starText (star : Bool) : List Char := if star then ['*'] else []

def starTypes (star : Bool) : List VaType := if star then [.value .int] else []

/-- The number that stands, or the next argument when there is a star. -/
def starValue (env : Env) (k : Nat) (star : Bool) (n : Int) : Int :=
  if star then ((env.word k).setWidth 32).toInt else n

theorem scanStar_run (env : Env) {star : Bool} (ht : star = false → Stops (· == '*') t)
    (n : Int) (h : top ≤ i) :
    scanStar env n ⟨i, starText star ++ t, top⟩ p =
      .ok ((starValue env p.taken.length star n, ⟨i + (starText star).length, t, i⟩),
        { p with taken := p.taken ++ starTypes star }) := by
  cases star with
  | true =>
    rw [starText, if_pos rfl, List.singleton_append, scanStar, bind_ok _ (peek_run '*' t p h),
      if_pos rfl, bind_ok _ (vaArg_run env _ _ p), bind_ok _ (skip_run i i '*' t _)]
    rfl
  | false =>
    obtain ⟨c, m, rfl, hc⟩ := ht rfl
    rw [starText, if_neg Bool.false_ne_true, List.nil_append, scanStar, bind_ok _ (peek_run c m p h),
      if_neg (by simpa using hc)]
    simp [starValue, starTypes]
    rfl

end

def isLength (c : Char) : Bool :=
  c = 'h' ∨ c = 'l' ∨ c = 'j' ∨ c = 'z' ∨ c = 't' ∨ c = 'L'

/-- A conversion specification as the scanner splits it, without its `%`. -/
structure Spec where
  flags : List Char
  width : List Char
  widthStar : Bool
  prec : Option (List Char × Bool)
  length : List Char
  specifier : Char

def precisionText : Option (List Char × Bool) → List Char
  | none => []
  | some (ds, star) => '.' :: (ds ++ starText star)

namespace Spec
variable (sp : Spec)

def precText : List Char := precisionText sp.prec

def lengthTail : List Char := sp.length ++ [sp.specifier]

def precTail : List Char := sp.precText ++ sp.lengthTail

def starTail : List Char := starText sp.widthStar ++ sp.precTail

def widthTail : List Char := sp.width ++ sp.starTail

def text : List Char := sp.flags ++ sp.widthTail

/-- The specification without its specifier. -/
def body : List Char :=
  sp.flags ++ (sp.width ++ (starText sp.widthStar ++ (sp.precText ++ sp.length)))

theorem text_eq : sp.text = sp.body ++ [sp.specifier] := by
  simp [text, widthTail, starTail, precTail, lengthTail, body]

/-- Each part goes as far as the scanner takes it. -/
structure Munched : Prop where
  flags : ∀ c ∈ sp.flags, isFlag c = true
  flags_stop : Stops isFlag sp.widthTail
  width : ∀ c ∈ sp.width, isdigit c = true
  width_stop : Stops isdigit sp.starTail
  star_stop : sp.widthStar = false → Stops (· == '*') sp.precTail
  prec_none : sp.prec = none → Stops (· == '.') sp.lengthTail
  prec_some : ∀ ds star, sp.prec = some (ds, star) → (∀ c ∈ ds, isdigit c = true) ∧
    Stops isdigit (starText star ++ sp.lengthTail) ∧
    (star = false → Stops (· == '*') sp.lengthTail)
  length : sp.length = [] ∧ isLength sp.specifier = false ∨
    ∃ c, isLength c = true ∧ (sp.length = [c] ∧ sp.specifier ≠ 'l' ∨ sp.length = [c, 'l'])

/-- The modifier letter the scanner records; it also looks at the specifier. -/
def lengthChar : Char :=
  match sp.length with
  | [] => nul
  | [c] => if sp.specifier = 'h' then 'H' else c
  | _ => 'q'

/-- The arguments taken for stars. -/
def starArgs : List VaType :=
  starTypes sp.widthStar ++ starTypes (sp.prec.elim false Prod.snd)

/-- The conversion that is dispatched, when `k` arguments have been taken before. -/
def conv (env : Env) (k : Nat) : Conv :=
  { sp.flags.foldl applyFlag .init with
    lengthSpec := starValue env k sp.widthStar (number 0 sp.width)
    precSpec := match sp.prec with
      | none => 6
      | some (ds, star) => starValue env (k + (starTypes sp.widthStar).length) star (number 0 ds)
    length := sp.lengthChar
    specifier := sp.specifier }

end Spec

section
variable {i top : Nat} {sp : Spec} (m : List Char) (p : Progress)

/-- How far the precision is read; its last character may be a star that is passed. -/
private def precTop (sp : Spec) (i : Nat) : Nat :=
  match sp.prec with
  | none => i
  | some (ds, _) => i + 1 + ds.length

private theorem scanPrec_run (env : Env) (hm : sp.Munched) {fuel : Nat}
    (hf : sp.precText.length ≤ fuel) (h : top ≤ i) :
    scanPrec env fuel ⟨i, sp.precTail ++ m, top⟩ p =
      .ok ((match sp.prec with
          | none => 6
          | some (ds, star) => starValue env p.taken.length star (number 0 ds),
          ⟨i + sp.precText.length, sp.lengthTail ++ m, precTop sp i⟩),
        { p with taken := p.taken ++ starTypes (sp.prec.elim false Prod.snd) }) := by
  unfold Spec.precTail Spec.precText precisionText precTop at *
  cases hp : sp.prec with
  | none =>
    obtain ⟨c, t, ht, hc⟩ := hm.prec_none hp
    rw [ht, List.nil_append, List.cons_append, scanPrec, bind_ok _ (peek_run c _ p h),
      if_neg (by simpa using hc)]
    simp [starTypes]
    rfl
  | some q =>
    obtain ⟨ds, star⟩ := q
    obtain ⟨hds, hstop, hstar⟩ := hm.prec_some ds star hp
    rw [hp] at hf
    simp only [List.length_cons, List.length_append] at hf
    simp only [List.cons_append, List.append_assoc]
    have hstop' : Stops isdigit (starText star ++ (sp.lengthTail ++ m)) := by
      rw [← List.append_assoc]
      exact hstop.append m
    have hnum := scanNumber_run (i := i + 1) p hds hstop' (by omega : ds.length < fuel) 0 (Nat.le_succ i)
    rw [scanPrec, bind_ok _ (peek_run '.' _ p h), if_pos rfl, bind_ok _ (skip_run i i '.' _ p),
      bind_ok _ hnum, scanStar_run p env (fun hs => (hstar hs).append m) _ (Nat.le_refl _)]
    have hi : i + 1 + ds.length + (starText star).length =
        i + ('.' :: (ds ++ starText star)).length := by
      rw [List.length_cons, List.length_append]
      omega
    rw [hi]
    rfl

private theorem precTop_le (sp : Spec) (i : Nat) : precTop sp i ≤ i + sp.precText.length := by
  unfold precTop Spec.precText precisionText
  cases sp.prec with
  | none => exact Nat.le_add_right _ _
  | some q =>
    simp only [List.length_cons, List.length_append]
    omega

private theorem scanLength_run (hm : sp.Munched) (h : top ≤ i) :
    ∃ top', top' ≤ i + sp.length.length ∧
      scanLength ⟨i, sp.lengthTail ++ m, top⟩ p =
        .ok ((sp.lengthChar, ⟨i + sp.length.length, sp.specifier :: m, top'⟩), p) := by
  unfold Spec.lengthTail Spec.lengthChar
  have hiff : ∀ c, isLength c = true ↔
      (c = 'h' ∨ c = 'l' ∨ c = 'j' ∨ c = 'z' ∨ c = 't' ∨ c = 'L') := fun c => by simp [isLength]
  rcases hm.length with ⟨hl, hs⟩ | ⟨c, hc, ⟨hl, hs⟩ | hl⟩
  · refine ⟨i, Nat.le_add_right _ _, ?_⟩
    rw [hl, List.nil_append, List.singleton_append, scanLength, bind_ok _ (peek_run _ m p h),
      if_neg (fun hx => by rw [(hiff _).mpr hx] at hs; cases hs)]
    rfl
  · refine ⟨i + 1, by rw [hl]; exact Nat.le_refl _, ?_⟩
    rw [hl, List.append_assoc, List.singleton_append, List.singleton_append, scanLength,
      bind_ok _ (peek_run c _ p h), if_pos ((hiff c).mp hc), bind_ok _ (skip_run i i c _ p),
      bind_ok _ (peek_run _ m p (Nat.le_succ i))]
    split
    · next hh =>
      simp only [hh]
      rfl
    · rfl
  · refine ⟨i + 1, by rw [hl]; exact Nat.le_succ _, ?_⟩
    rw [hl, List.append_assoc, List.cons_append, List.singleton_append, List.singleton_append,
      scanLength, bind_ok _ (peek_run c _ p h), if_pos ((hiff c).mp hc),
      bind_ok _ (skip_run i i c _ p), bind_ok _ (peek_run _ _ p (Nat.le_succ i)),
      if_neg (by decide), if_pos rfl]
    rfl

/-- One conversion: the scanner ends on its specifier, which is the last index it read. -/
theorem scanConv_run (env : Env) (hm : sp.Munched) (h : top ≤ i) :
    scanConv env ⟨i, sp.text ++ m, top⟩ p =
      .ok ((sp.conv env p.taken.length,
          ⟨i + sp.body.length, sp.specifier :: m, i + sp.body.length⟩),
        { p with taken := p.taken ++ sp.starArgs }) := by
  have hlen : (sp.text ++ m).length = sp.body.length + 1 + m.length := by
    rw [List.length_append, Spec.text_eq, List.length_append, List.length_singleton]
  have hbody : sp.body.length = sp.flags.length + (sp.width.length +
      ((starText sp.widthStar).length + (sp.precText.length + sp.length.length))) := by
    simp [Spec.body]
  have hfl := scanFlags_run (i := i) p hm.flags (hm.flags_stop.append m)
    (by omega : sp.flags.length < (sp.text ++ m).length) .init h
  have hwd := scanNumber_run (i := i + sp.flags.length) p hm.width (hm.width_stop.append m)
    (by omega : sp.width.length < (sp.text ++ m).length) 0 (Nat.le_refl _)
  have hst := scanStar_run (i := i + sp.flags.length + sp.width.length) p env
    (fun hs => (hm.star_stop hs).append m) (number 0 sp.width) (Nat.le_refl _)
  have hpr := scanPrec_run (i := i + sp.flags.length + sp.width.length +
    (starText sp.widthStar).length) m { p with taken := p.taken ++ starTypes sp.widthStar } env hm
    (by omega : sp.precText.length ≤ (sp.text ++ m).length) (Nat.le_add_right _ _)
  have htop := precTop_le sp (i + sp.flags.length + sp.width.length +
    (starText sp.widthStar).length)
  obtain ⟨top', htop', hln⟩ := scanLength_run m
    { p with taken := p.taken ++ sp.starArgs } hm htop
  have hget : (get : Vprintf Cursor) ⟨i, sp.text ++ m, top⟩ p =
    .ok ((⟨i, sp.text ++ m, top⟩, ⟨i, sp.text ++ m, top⟩), p) := rfl
  have htext : sp.text ++ m = sp.flags ++ (sp.widthTail ++ m) := List.append_assoc ..
  have hwidth : sp.widthTail ++ m = sp.width ++ (sp.starTail ++ m) := List.append_assoc ..
  have hstar : sp.starTail ++ m = starText sp.widthStar ++ (sp.precTail ++ m) := List.append_assoc ..
  have hargs : p.taken ++ starTypes sp.widthStar ++ starTypes (sp.prec.elim false Prod.snd) =
    p.taken ++ sp.starArgs := List.append_assoc ..
  rw [← htext] at hfl
  rw [← hwidth] at hwd
  rw [← hstar] at hst
  simp only [hargs] at hpr
  rw [scanConv, bind_ok _ hget, bind_ok _ hfl, bind_ok _ hwd, bind_ok _ hst, bind_ok _ hpr,
    bind_ok _ hln, bind_ok _ (peek_run _ m _ htop')]
  have hi : i + sp.flags.length + sp.width.length + (starText sp.widthStar).length +
      sp.precText.length + sp.length.length = i + sp.body.length := by omega
  rw [hi]
  simp only [Spec.conv, List.length_append]
  rfl

end

/-- What a format is made of: a literal character, or a conversion behind its `%`. -/
inductive Piece where
  | literal (c : Char)
  | conv (sp : Spec)

def Piece.text : Piece → List Char
  | .literal c => [c]
  | .conv sp => '%' :: sp.text

def Piece.Ok : Piece → Prop
  | .literal c => c ≠ '%' ∧ c ≠ nul
  | .conv sp => sp.Munched

/-- The turn of the loop that a piece causes. -/
def Piece.turn (env : Env) : Piece → Turn
  | .literal c => .literal c
  | .conv sp => .conv sp.starArgs (sp.conv env)

def render (ps : List Piece) : List Char := ps.flatMap Piece.text

theorem lift_bind {α β : Type} (x : Print α) (f : α → Vprintf β) (s : Cursor) (p : Progress) :
    ((liftM x : Vprintf α) >>= f) s p = x p >>= fun r => f r.1 s r.2 := by
  change (x p >>= fun r => Except.ok ((r.1, s), r.2)) >>= _ = _
  cases x p <;> rfl

private theorem map_snd_bind {α β γ : Type} (x : Except Fault (α × β)) (f : β → Except Fault γ) :
    x.map Prod.snd >>= f = x >>= fun r => f r.2 := by
  cases x <;> rfl

/-- One turn of the loop takes one piece, whatever follows it. -/
theorem vprintfLoop_piece (env : Env) {x : Piece} (hx : x.Ok) (t : List Char) {i top : Nat}
    (fuel : Nat) (p : Progress) (h : top ≤ i) :
    vprintfLoop env (fuel + 1) ⟨i, x.text ++ t, top⟩ p =
      (x.turn env).run env p >>= vprintfLoop env fuel ⟨i + x.text.length, t, i + x.text.length - 1⟩ := by
  cases x with
  | literal c =>
    obtain ⟨hc, hn⟩ := hx
    rw [Piece.text, List.singleton_append, vprintfLoop, bind_ok _ (peek_run c t p h), if_neg hn,
      if_neg hc, lift_bind, Piece.turn, Turn.run, map_snd_bind]
    rfl
  | conv sp =>
    rw [Piece.text, List.cons_append, vprintfLoop, bind_ok _ (peek_run '%' _ p h),
      if_neg (by decide), if_pos rfl, bind_ok _ (skip_run i i '%' _ p),
      bind_ok _ (scanConv_run t p env hx (Nat.le_succ i)), lift_bind, Piece.turn, Turn.run, map_snd_bind]
    have hi : i + 1 + sp.body.length = i + ('%' :: sp.text).length - 1 := by
      simp only [Spec.text_eq, List.length_cons, List.length_append, List.length_nil]
      omega
    have hi' : i + 1 + sp.body.length + 1 = i + ('%' :: sp.text).length := by
      simp only [Spec.text_eq, List.length_cons, List.length_append, List.length_nil]
      omega
    rw [← hi, ← hi']
    rfl

/-- Pieces in front of any memory are taken one by one. -/
theorem vprintfLoop_append (env : Env) {ps : List Piece} (hps : ∀ x ∈ ps, x.Ok) (t : List Char)
    (fuel : Nat) {i top : Nat} (h : top ≤ i) :
    ∃ top', top' ≤ i + (render ps).length ∧
      ∀ p, vprintfLoop env (ps.length + fuel) ⟨i, render ps ++ t, top⟩ p =
        runAll env (ps.map (Piece.turn env)) p >>= vprintfLoop env fuel ⟨i + (render ps).length, t, top'⟩ := by
  induction ps generalizing i top with
  | nil => exact ⟨top, h, fun p => by rw [List.length_nil, Nat.zero_add]; rfl⟩
  | cons x ps ih =>
    obtain ⟨hx, hps⟩ := List.forall_mem_cons.mp hps
    obtain ⟨top', hle, hrun⟩ := ih hps (i := i + x.text.length) (Nat.sub_le _ 1)
    have hr : render (x :: ps) = x.text ++ render ps := List.flatMap_cons ..
    refine ⟨top', by rw [hr, List.length_append]; omega, fun p => ?_⟩
    rw [hr, List.append_assoc, List.length_cons, Nat.add_right_comm,
      vprintfLoop_piece env hx _ _ p h, List.map_cons, runAll, List.foldlM_cons, bind_assoc, List.length_append]
    congr 1
    funext p'
    rw [hrun, Nat.add_assoc, runAll]

/-- A format made of complete pieces is taken piece by piece, up to its terminator. -/
theorem vprintfLoop_pieces (env : Env) {ps : List Piece} (hps : ∀ x ∈ ps, x.Ok) (m : List Char)
    (fuel : Nat) (p : Progress) :
    vprintfLoop env (ps.length + (fuel + 1)) ⟨0, render ps ++ nul :: m, 0⟩ p =
      (runAll env (ps.map (Piece.turn env)) p).map fun p' =>
        (((), ⟨(render ps).length, nul :: m, (render ps).length⟩), p') := by
  obtain ⟨top, htop, hrun⟩ := vprintfLoop_append env hps (nul :: m) (fuel + 1) (Nat.le_refl 0)
  rw [hrun, Nat.zero_add] at *
  cases runAll env (ps.map (Piece.turn env)) p with
  | error e => rfl
  | ok p' =>
    rw [ok_bind, vprintfLoop, bind_ok _ (peek_run nul m p' htop), if_pos rfl]
    rfl

theorem length_le_render (ps : List Piece) : ps.length ≤ (render ps).length := by
  induction ps with
  | nil => exact Nat.zero_le _
  | cons x ps ih =>
    have hr : render (x :: ps) = x.text ++ render ps := List.flatMap_cons ..
    have hx : 1 ≤ x.text.length := by
      cases x with
      | literal c => exact Nat.le_refl _
      | conv sp => exact Nat.succ_le_succ (Nat.zero_le _)
    rw [hr, List.length_append, List.length_cons]
    omega

/-- `vprintf` on a format made of complete pieces, with anything behind the terminator. -/
theorem vprintf_pieces (env : Env) {ps : List Piece} (hps : ∀ x ∈ ps, x.Ok) (m : List Char) :
    vprintf env (render ps ++ nul :: m) = (runAll env (ps.map (Piece.turn env)) .init).map fun p =>
      (⟨(render ps).length, nul :: m, (render ps).length⟩, p) := by
  have hlen := length_le_render ps
  have hfuel : (render ps ++ nul :: m).length =
      ps.length + ((render ps).length - ps.length + m.length + 1) := by
    rw [List.length_append, List.length_cons]
    omega
  rw [vprintf, hfuel, vprintfLoop_pieces env hps m _ .init]
  cases runAll env (ps.map (Piece.turn env)) .init <;> rfl

theorem Stops.of_append {P : Char → Bool} {t m : List Char} (h : Stops P (t ++ m)) (ht : t ≠ []) :
    Stops P t := by
  obtain ⟨c, r, hr, hc⟩ := h
  obtain ⟨d, t, rfl⟩ := List.exists_cons_of_ne_nil ht
  rw [List.cons_append, List.cons.injEq] at hr
  exact ⟨d, t, rfl, hr.1 ▸ hc⟩

section
variable {x : List Char}

private theorem split_while {P : Char → Bool} (hP : P nul = false) (hx : nul ∈ x) :
    ∃ ds t, x = ds ++ t ∧ (∀ c ∈ ds, P c = true) ∧ Stops P t ∧ nul ∈ t := by
  induction x with
  | nil => cases hx
  | cons c x ih =>
    cases hc : P c with
    | false => exact ⟨[], c :: x, rfl, List.forall_mem_nil _, ⟨c, x, rfl, hc⟩, hx⟩
    | true =>
      have hne : nul ≠ c := fun h => by rw [← h, hP] at hc; cases hc
      obtain ⟨ds, t, rfl, hds, ht, hn⟩ := ih (List.mem_of_ne_of_mem hne hx)
      exact ⟨c :: ds, t, rfl, List.forall_mem_cons.mpr ⟨hc, hds⟩, ht, hn⟩

private theorem split_star (hx : nul ∈ x) :
    ∃ star t, x = starText star ++ t ∧ (star = false → Stops (· == '*') t) ∧ nul ∈ t := by
  cases x with
  | nil => cases hx
  | cons c x =>
    by_cases hc : c = '*'
    · subst hc
      exact ⟨true, x, rfl, nofun, List.mem_of_ne_of_mem (by decide) hx⟩
    · exact ⟨false, c :: x, rfl, fun _ => ⟨c, x, rfl, by simpa using hc⟩, hx⟩

private theorem split_length (hx : nul ∈ x) :
    ∃ ls s m, x = ls ++ s :: m ∧ NoNul ls ∧ (ls = [] ∧ isLength s = false ∨
      ∃ c, isLength c = true ∧ (ls = [c] ∧ s ≠ 'l' ∨ ls = [c, 'l'])) := by
  cases x with
  | nil => cases hx
  | cons c x =>
    cases hc : isLength c with
    | false => exact ⟨[], c, x, rfl, List.forall_mem_nil _, Or.inl ⟨rfl, hc⟩⟩
    | true =>
      have hne : c ≠ nul := fun h => by rw [h] at hc; exact absurd hc (by decide)
      have hx := List.mem_of_ne_of_mem hne.symm hx
      cases x with
      | nil => cases hx
      | cons d x =>
        by_cases hd : d = 'l'
        · subst hd
          have hx := List.mem_of_ne_of_mem (by decide) hx
          cases x with
          | nil => cases hx
          | cons e x =>
            refine ⟨[c, 'l'], e, x, rfl, ?_, Or.inr ⟨c, hc, Or.inr rfl⟩⟩
            exact List.forall_mem_cons.mpr ⟨hne, List.forall_mem_singleton.mpr (by decide)⟩
        · exact ⟨[c], d, x, rfl, List.forall_mem_singleton.mpr hne,
            Or.inr ⟨c, hc, Or.inl ⟨rfl, hd⟩⟩⟩

private theorem split_prec (hx : nul ∈ x) :
    ∃ prec t, x = precisionText prec ++ t ∧ nul ∈ t ∧
      (prec = none → Stops (· == '.') t) ∧
      ∀ ds star, prec = some (ds, star) → (∀ c ∈ ds, isdigit c = true) ∧
        Stops isdigit (starText star ++ t) ∧ (star = false → Stops (· == '*') t) := by
  cases x with
  | nil => cases hx
  | cons c x =>
    by_cases hc : c = '.'
    · subst hc
      obtain ⟨ds, x1, rfl, hds, hstop, hx1⟩ :=
        split_while (P := isdigit) (by decide) (List.mem_of_ne_of_mem (by decide) hx)
      obtain ⟨star, t, rfl, hstar, ht⟩ := split_star hx1
      refine ⟨some (ds, star), t, by simp [precisionText], ht, nofun, ?_⟩
      intro ds' star' h
      cases h
      exact ⟨hds, hstop, hstar⟩
    · exact ⟨none, c :: x, rfl, hx, fun _ => ⟨c, x, rfl, by simpa using hc⟩, nofun⟩

private theorem noNul_of_all {P : Char → Bool} (hP : P nul = false) {ds : List Char}
    (h : ∀ c ∈ ds, P c = true) : NoNul ds := by
  intro c hc hn
  have := h c hc
  rw [hn, hP] at this
  cases this

private theorem noNul_starText (star : Bool) : NoNul (starText star) := by
  cases star <;> decide

/-- Whatever stands behind a `%`, the scanner finds a conversion there, provided some
terminator follows; the terminator itself can only be its specifier. -/
theorem exists_spec (hx : nul ∈ x) :
    ∃ sp : Spec, ∃ m, sp.Munched ∧ x = sp.text ++ m ∧ NoNul sp.body := by
  obtain ⟨flags, x1, rfl, hflags, hstop1, hx1⟩ := split_while (P := isFlag) (by decide) hx
  obtain ⟨width, x2, rfl, hwidth, hstop2, hx2⟩ := split_while (P := isdigit) (by decide) hx1
  obtain ⟨star, x3, rfl, hstar, hx3⟩ := split_star hx2
  obtain ⟨prec, x4, rfl, hx4, hnone, hsome⟩ := split_prec hx3
  obtain ⟨ls, s, m, rfl, hls, hlength⟩ := split_length hx4
  -- every stop condition speaks of the text up to the specifier, which is not empty
  have hshort : ∀ {P : Char → Bool} (pre : List Char), Stops P (pre ++ (ls ++ s :: m)) →
      Stops P (pre ++ (ls ++ [s])) := by
    intro P pre h
    rw [show pre ++ (ls ++ s :: m) = pre ++ (ls ++ [s]) ++ m by simp] at h
    exact h.of_append (by simp)
  refine ⟨⟨flags, width, star, prec, ls, s⟩, m, ?_, ?_, ?_⟩
  · constructor
    · exact hflags
    · have := hshort (width ++ (starText star ++ precisionText prec)) (by simpa using hstop1)
      simpa [Spec.widthTail, Spec.starTail, Spec.precTail, Spec.precText, Spec.lengthTail] using this
    · exact hwidth
    · have := hshort (starText star ++ precisionText prec) (by simpa using hstop2)
      simpa [Spec.starTail, Spec.precTail, Spec.precText, Spec.lengthTail] using this
    · exact fun h => hshort (precisionText prec) (hstar h)
    · exact fun h => hshort [] (hnone h)
    · intro ds star' h
      obtain ⟨hds, hstop, hst⟩ := hsome ds star' h
      exact ⟨hds, hshort (starText star') hstop, fun h => hshort [] (hst h)⟩
    · exact hlength
  · simp [Spec.text, Spec.widthTail, Spec.starTail, Spec.precTail, Spec.precText, Spec.lengthTail]
  · refine (noNul_of_all (by decide) hflags).append ((noNul_of_all (by decide) hwidth).append
      ((noNul_starText star).append (NoNul.append ?_ hls)))
    unfold Spec.precText precisionText
    cases prec with
    | none => exact List.forall_mem_nil _
    | some q =>
      obtain ⟨hds, -⟩ := hsome q.1 q.2 rfl
      exact List.forall_mem_cons.mpr ⟨by decide,
        (noNul_of_all (by decide) hds).append (noNul_starText q.2)⟩

end

end NyaOS.Stdio
