import NyaOS.Stdio.Scan

/-! Which formats `vprintf` reads only up to their terminator. -/
namespace NyaOS.Stdio

section
variable {α β : Type}

/-- The scanner's index never goes back. -/
def Advances (x : Vprintf α) : Prop :=
  ∀ s p a s' p', x s p = .ok ((a, s'), p') → s.i ≤ s'.i

theorem Advances.bind {x : Vprintf α} {f : α → Vprintf β} (hx : Advances x)
    (hf : ∀ a, Advances (f a)) : Advances (x >>= f) := by
  intro s p b s' p' h
  change (x s p >>= fun r => f r.1.1 r.1.2 r.2) = _ at h
  cases hr : x s p with
  | error e =>
    rw [hr] at h
    cases h
  | ok r =>
    rw [hr] at h
    exact Nat.le_trans (hx s p r.1.1 r.1.2 r.2 hr) (hf _ _ _ _ _ _ h)

theorem advances_pure (a : α) : Advances (pure a : Vprintf α) := by
  intro s p b s' p' h
  cases h
  exact Nat.le_refl _

theorem advances_throw (e : Fault) : Advances (throw e : Vprintf α) := by
  intro s p b s' p' h
  cases h

theorem advances_lift (x : Print α) : Advances (liftM x : Vprintf α) := by
  intro s p b s' p' h
  rw [lift_run] at h
  cases hr : x p with
  | error e =>
    rw [hr] at h
    cases h
  | ok r =>
    rw [hr] at h
    cases h
    exact Nat.le_refl _

theorem Advances.ite {c : Prop} [Decidable c] {x y : Vprintf α} (hx : Advances x) (hy : Advances y) :
    Advances (if c then x else y) := by
  split
  · exact hx
  · exact hy

end

theorem advances_peek : Advances peek := by
  intro s p a s' p' h
  obtain ⟨i, rest, top⟩ := s
  cases rest with
  | nil => cases h
  | cons c rest =>
    cases h
    exact Nat.le_refl _

theorem advances_skip : Advances skip := by
  intro s p a s' p' h
  cases h
  exact Nat.le_succ _

theorem advances_get : Advances (get : Vprintf Cursor) := by
  intro s p a s' p' h
  cases h
  exact Nat.le_refl _

theorem advances_scanFlags (fuel : Nat) (cv : Conv) : Advances (scanFlags fuel cv) := by
  induction fuel generalizing cv with
  | zero => exact advances_throw _
  | succ fuel ih =>
    refine advances_peek.bind fun c => ?_
    split
    · exact advances_skip.bind fun _ => ih _
    · exact advances_pure _

theorem advances_scanNumber (fuel : Nat) (n : Int) : Advances (scanNumber fuel n) := by
  induction fuel generalizing n with
  | zero => exact advances_throw _
  | succ fuel ih => exact advances_peek.bind fun c => (advances_skip.bind fun _ => ih _).ite (advances_pure _)

theorem advances_scanStar (env : Env) (n : Int) : Advances (scanStar env n) :=
  advances_peek.bind fun _ => Advances.ite
    ((advances_lift _).bind fun _ => advances_skip.bind fun _ => advances_pure _) (advances_pure _)

theorem advances_scanPrec (env : Env) (fuel : Nat) : Advances (scanPrec env fuel) :=
  advances_peek.bind fun _ => Advances.ite
    (advances_skip.bind fun _ => (advances_scanNumber fuel 0).bind fun n => advances_scanStar env n)
    (advances_pure _)

theorem advances_scanLength : Advances scanLength :=
  advances_peek.bind fun _ => Advances.ite
    (advances_skip.bind fun _ => advances_peek.bind fun _ => Advances.ite (advances_pure _)
      (Advances.ite (advances_skip.bind fun _ => advances_pure _) (advances_pure _)))
    (advances_pure _)

theorem advances_scanConv (env : Env) : Advances (scanConv env) :=
  advances_get.bind fun _ => (advances_scanFlags _ _).bind fun _ =>
    (advances_scanNumber _ _).bind fun _ => (advances_scanStar _ _).bind fun _ =>
    (advances_scanPrec _ _).bind fun _ => advances_scanLength.bind fun _ =>
    advances_peek.bind fun _ => advances_pure _

theorem advances_vprintfLoop (env : Env) (fuel : Nat) : Advances (vprintfLoop env fuel) := by
  induction fuel with
  | zero => exact advances_throw _
  | succ fuel ih =>
    refine advances_peek.bind fun c => (advances_pure _).ite (Advances.ite ?_ ?_)
    · exact advances_skip.bind fun _ => (advances_scanConv env).bind fun cv =>
        (advances_lift _).bind fun _ => advances_skip.bind fun _ => ih
    · exact (advances_lift _).bind fun _ => advances_skip.bind fun _ => ih

private theorem append_nul_inj {s t u v : List Char} (hs : NoNul s) (ht : NoNul t)
    (h : s ++ nul :: u = t ++ nul :: v) : s = t := by
  induction s generalizing t with
  | nil =>
    cases t with
    | nil => rfl
    | cons d t =>
      rw [List.nil_append, List.cons_append, List.cons.injEq] at h
      exact absurd h.1.symm (ht d (.head _))
  | cons c s ih =>
    cases t with
    | nil =>
      rw [List.nil_append, List.cons_append, List.cons.injEq] at h
      exact absurd h.1 (hs c (.head _))
    | cons d t =>
      rw [List.cons_append, List.cons_append, List.cons.injEq] at h
      rw [h.1, ih (List.forall_mem_cons.mp hs).2 (List.forall_mem_cons.mp ht).2 h.2]

/-- The text splits into pieces, or its end cuts off a conversion: then the scanner takes the
terminator for the specifier. -/
theorem text_cases {text : List Char} (ht : NoNul text) :
    (∃ ps : List Piece, (∀ x ∈ ps, x.Ok) ∧ render ps = text) ∨
      ∃ ps : List Piece, ∃ sp : Spec, (∀ x ∈ ps, x.Ok) ∧ sp.Munched ∧ sp.specifier = nul ∧
        text = render ps ++ '%' :: sp.body := by
  induction hn : text.length using Nat.strongRecOn generalizing text with
  | ind n ih =>
    -- one piece in front of a shorter text
    have step : ∀ (x : Piece) (rest : List Char), x.Ok → text = x.text ++ rest → x.text ≠ [] →
        (∃ ps : List Piece, (∀ x ∈ ps, x.Ok) ∧ render ps = text) ∨
          ∃ ps : List Piece, ∃ sp : Spec, (∀ x ∈ ps, x.Ok) ∧ sp.Munched ∧ sp.specifier = nul ∧
            text = render ps ++ '%' :: sp.body := by
      intro x rest hx htext hne
      have hpos := List.length_pos_of_ne_nil hne
      have hlen : rest.length < n := by
        rw [← hn, htext, List.length_append]
        omega
      have hrest : NoNul rest := fun c hc => ht c (by rw [htext]; exact List.mem_append_right _ hc)
      rcases ih _ hlen hrest rfl with ⟨ps, hps, hr⟩ | ⟨ps, sp, hps, hm, hs, hr⟩
      · refine Or.inl ⟨x :: ps, List.forall_mem_cons.mpr ⟨hx, hps⟩, ?_⟩
        rw [htext, ← hr]
        rfl
      · refine Or.inr ⟨x :: ps, sp, List.forall_mem_cons.mpr ⟨hx, hps⟩, hm, hs, ?_⟩
        rw [htext, hr, ← List.append_assoc]
        rfl
    cases text with
    | nil => exact Or.inl ⟨[], List.forall_mem_nil _, rfl⟩
    | cons c t =>
      obtain ⟨hc, ht'⟩ := List.forall_mem_cons.mp ht
      by_cases hp : c = '%'
      · subst hp
        obtain ⟨sp, m, hm, hx, hb⟩ := exists_spec (x := t ++ [nul])
          (List.mem_append_right _ (.head _))
        rw [Spec.text_eq, List.append_assoc, List.singleton_append] at hx
        by_cases hs : sp.specifier = nul
        · rw [hs] at hx
          refine Or.inr ⟨[], sp, List.forall_mem_nil _, hm, hs, ?_⟩
          rw [append_nul_inj ht' hb hx]
          rfl
        · -- the terminator is the last character behind the specifier
          obtain ⟨m', rfl⟩ : ∃ m', m = m' ++ [nul] := by
            rcases List.eq_nil_or_concat m with rfl | ⟨m', d, rfl⟩
            · have := (List.append_inj' hx rfl).2
              exact absurd (List.singleton_inj.mp this).symm hs
            · rw [List.concat_eq_append, ← List.cons_append, ← List.append_assoc] at hx
              have := (List.append_inj' hx rfl).2
              exact ⟨m', by rw [List.concat_eq_append, ← List.singleton_inj.mp this]⟩
          have ht'' : t = sp.body ++ sp.specifier :: m' := by
            rw [← List.cons_append, ← List.append_assoc] at hx
            exact (List.append_inj' hx rfl).1
          refine step (.conv sp) m' hm ?_ (List.cons_ne_nil _ _)
          rw [ht'', Piece.text, Spec.text_eq, List.cons_append, List.append_assoc]
          rfl
      · exact step (.literal c) t ⟨hp, hc⟩ rfl (List.cons_ne_nil _ _)

/-- `vprintf` returns, its loop ends on the terminator, and no index behind it was read. -/
def StaysInside (env : Env) (text behind : List Char) : Prop :=
  ∃ s p, vprintf env (text ++ nul :: behind) = .ok (s, p) ∧ s.i = text.length ∧ s.top ≤ text.length

/-- The format is a sequence of literals and complete conversions, and no field is longer than
the buffers it is built in. -/
def Sound (env : Env) (text : List Char) : Prop :=
  ∃ ps : List Piece, (∀ x ∈ ps, x.Ok) ∧ render ps = text ∧
    FieldsFit env 0 (ps.map (Piece.turn env))

/-- A conversion that the terminator cuts off takes the index past the terminator. -/
private theorem cut_leaves (env : Env) (behind : List Char) {ps : List Piece} {sp : Spec}
    (hps : ∀ x ∈ ps, x.Ok) (hm : sp.Munched) (hs : sp.specifier = nul) :
    ¬ StaysInside env (render ps ++ '%' :: sp.body) behind := by
  rintro ⟨s, p, hrun, hi, -⟩
  have hall : ∀ x ∈ ps ++ [.conv sp], Piece.Ok x :=
    List.forall_mem_append.mpr ⟨hps, List.forall_mem_singleton.mpr hm⟩
  have hrender : render (ps ++ [.conv sp]) = render ps ++ '%' :: sp.body ++ [nul] := by
    rw [render, List.flatMap_append, List.flatMap_singleton, Piece.text, Spec.text_eq, hs,
      List.append_assoc]
    rfl
  have hmem : render ps ++ '%' :: sp.body ++ nul :: behind =
      render (ps ++ [.conv sp]) ++ behind := by
    rw [hrender, List.append_assoc _ [nul]]
    rfl
  have hle := length_le_render (ps ++ [.conv sp])
  have hlen : (render (ps ++ [.conv sp]) ++ behind).length =
      (render (ps ++ [.conv sp])).length + behind.length := List.length_append ..
  obtain ⟨fuel, hfuel⟩ : ∃ fuel, (render (ps ++ [.conv sp]) ++ behind).length =
      (ps ++ [Piece.conv sp]).length + fuel := Nat.exists_eq_add_of_le (by omega)
  obtain ⟨top, -, happ⟩ := vprintfLoop_append env hall behind fuel (Nat.le_refl 0)
  rw [hmem, vprintf, hfuel, happ, Nat.zero_add] at hrun
  cases hall' : runAll env ((ps ++ [Piece.conv sp]).map (Piece.turn env)) .init with
  | error e =>
    rw [hall'] at hrun
    cases hrun
  | ok p' =>
    rw [hall', ok_bind] at hrun
    cases hloop : vprintfLoop env fuel ⟨(render (ps ++ [.conv sp])).length, behind, top⟩ p' with
    | error e =>
      rw [hloop] at hrun
      cases hrun
    | ok r =>
      have hadv := advances_vprintfLoop env fuel _ _ _ _ _ hloop
      rw [hloop] at hrun
      cases hrun
      rw [hi, hrender, List.length_append] at hadv
      exact Nat.not_succ_le_self _ hadv

/-- `vprintf` stays inside its format exactly when the format is sound: then it ends on the
terminator, whatever lies behind it. -/
theorem stays_inside_iff {text : List Char} (ht : NoNul text) (env : Env) (behind : List Char) :
    StaysInside env text behind ↔ Sound env text := by
  constructor
  · intro h
    rcases text_cases ht with ⟨ps, hps, rfl⟩ | ⟨ps, sp, hps, hm, hs, rfl⟩
    · refine ⟨ps, hps, rfl, (runAll_ok_iff env _ .init).mp ?_⟩
      obtain ⟨s, p, hrun, -⟩ := h
      rw [vprintf_pieces env hps] at hrun
      cases hr : runAll env (ps.map (Piece.turn env)) .init with
      | error e =>
        rw [hr] at hrun
        cases hrun
      | ok p' => exact ⟨p', rfl⟩
    · exact absurd h (cut_leaves env behind hps hm hs)
  · rintro ⟨ps, hps, rfl, hfit⟩
    obtain ⟨p, hp⟩ := (runAll_ok_iff env _ .init).mpr hfit
    have hrun := vprintf_pieces env hps behind
    rw [hp] at hrun
    exact ⟨_, p, hrun, rfl, Nat.le_refl _⟩

def noArgs : Env := ⟨fun _ => 0, fun _ => [], fun _ _ => none⟩

theorem stays_inside_word : StaysInside noArgs ['o', 'k'] [] ↔ Sound noArgs ['o', 'k'] :=
  stays_inside_iff (by decide) noArgs []

/-- Nothing between the `%` and the terminator. -/
def bareSpec : Spec := ⟨[], [], false, none, [], nul⟩

private theorem bareSpec_munched : bareSpec.Munched := by
  refine ⟨List.forall_mem_nil _, ?_, List.forall_mem_nil _, ?_, fun _ => ?_, fun _ => ?_, nofun,
    Or.inl ⟨rfl, by decide⟩⟩
  all_goals exact ⟨nul, [], rfl, by decide⟩

/-- A lone `%`: the terminator is taken for the specifier and the bytes behind it are printed. -/
theorem percent_reads_on :
    NoNul ['%'] ∧ ¬ StaysInside noArgs ['%'] ['k', 'e', 'y', nul] ∧
      vprintf noArgs (['%'] ++ nul :: ['k', 'e', 'y', nul]) =
        .ok (⟨5, [nul], 5⟩, ⟨[], [.putchar 'k', .putchar 'e', .putchar 'y'], 3⟩) := by
  refine ⟨by decide, ?_, ?_⟩
  · have h := cut_leaves noArgs ['k', 'e', 'y', nul] (List.forall_mem_nil Piece.Ok)
      bareSpec_munched rfl
    exact h
  · have hok : ∀ x ∈ [.conv bareSpec, .literal 'k', .literal 'e', .literal 'y'], Piece.Ok x := by
      simp only [List.forall_mem_cons]
      exact ⟨bareSpec_munched, ⟨by decide, by decide⟩, ⟨by decide, by decide⟩,
        ⟨by decide, by decide⟩, List.forall_mem_nil _⟩
    have hrun := vprintf_pieces noArgs hok []
    exact hrun

end NyaOS.Stdio
