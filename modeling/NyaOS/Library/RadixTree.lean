import Mathlib.Data.List.Induction
import Mathlib.Logic.Function.Basic
import Mathlib.Tactic.Common

/-! Radix trees whose nodes live in a shared heap: a node is a table of entries, and `child`
says which entries point to a further node. Paths are counted up to a fixed depth `n`; a tree
is unshared when no node is reached by two paths, and then one slot belongs to one path. -/
namespace NyaOS.Library.RadixTree
variable {F I E : Type} (child : E → Option F)

abbrev Heap (F I E : Type) := F → I → E

/-- The node a path of indices leads to. -/
def follow (h : Heap F I E) : F → List I → Option F
  | t, [] => some t
  | t, i :: p => (child (h t i)).bind (follow h · p)

def Unshared (h : Heap F I E) (root : F) (n : Nat) : Prop :=
  ∀ p q t, p.length ≤ n → q.length ≤ n → follow child h root p = some t →
    follow child h root q = some t → p = q

/-- The entry in slot `i` of the node at path `p`. -/
def entryAt (h : Heap F I E) (root : F) (p : List I) (i : I) : Option E :=
  (follow child h root p).map (h · i)

variable {child} {h : Heap F I E} {root t f : F} {i : I} {e e₀ : E} {n : Nat} {r : List I}

theorem follow_append (child : E → Option F) (h : Heap F I E) (t : F) (p q : List I) :
    follow child h t (p ++ q) = (follow child h t p).bind (follow child h · q) := by
  induction p generalizing t with
  | nil => rfl
  | cons i p ih =>
    simp only [List.cons_append, follow, Option.bind_assoc]
    congr 1
    funext t'
    exact ih t'

theorem follow_snoc (child : E → Option F) (h : Heap F I E) (t : F) (p : List I) (i : I) :
    follow child h t (p ++ [i]) = (follow child h t p).bind (fun t' => child (h t' i)) := by
  rw [follow_append]
  congr 1
  funext t'
  simp [follow]

/-- Two heaps that agree on the nodes visited lead to the same nodes. -/
theorem follow_congr {h h' : Heap F I E} {p : List I}
    (hsame : ∀ q j t, q ++ [j] <+: p → follow child h root q = some t → h' t j = h t j) :
    follow child h' root p = follow child h root p := by
  induction p using List.reverseRecOn with
  | nil => rfl
  | append_singleton p j ih =>
    have hp : follow child h' root p = follow child h root p :=
      ih fun q k t hq => hsame q k t (hq.trans (List.prefix_append p [j]))
    rw [follow_snoc, follow_snoc, hp]
    cases ht : follow child h root p with
    | none => rfl
    | some t => simp [hsame p j t (List.prefix_refl _) ht]

theorem entryAt_of_follow {p : List I} (ht : follow child h root p = some t) (i : I) :
    entryAt child h root p i = some (h t i) := by rw [entryAt, ht, Option.map_some]

variable [DecidableEq F] [DecidableEq I]

def put (h : Heap F I E) (t : F) (i : I) (e : E) : Heap F I E :=
  Function.update h t (Function.update (h t) i e)

/-- The node `t` with every entry set to `e`. -/
def blank (h : Heap F I E) (t : F) (e : E) : Heap F I E := Function.update h t (fun _ => e)

theorem put_apply (h : Heap F I E) (t t' : F) (i j : I) (e : E) :
    put h t i e t' j = if t' = t ∧ j = i then e else h t' j := by
  unfold put
  by_cases ht : t' = t
  · subst ht
    by_cases hj : j = i
    · simp [hj]
    · simp [hj]
  · simp [ht]

/-- Changing one slot changes only what lies behind it. -/
theorem follow_put_off (hu : Unshared child h root n) (hr : r.length ≤ n)
    (ht : follow child h root r = some t) {p : List I} (hp : p.length ≤ n + 1)
    (hoff : ¬ r ++ [i] <+: p) : follow child (put h t i e) root p = follow child h root p := by
  apply follow_congr
  intro q j t' hq ht'
  rw [put_apply, if_neg]
  rintro ⟨rfl, rfl⟩
  have hlen := hq.length_le
  rw [List.length_append, List.length_singleton] at hlen
  obtain rfl := hu q r t' (by omega) hr ht' ht
  exact hoff hq

omit [DecidableEq I] in
private theorem snoc_not_below (r : List I) (i : I) : ¬ r ++ [i] <+: r := by
  intro hp
  have := hp.length_le
  rw [List.length_append, List.length_singleton] at this
  omega

/-- Replacing a slot by an entry without child cuts off what lay behind it; in the last level
any entry does. -/
theorem follow_put_leaf (hu : Unshared child h root n) (hr : r.length ≤ n)
    (ht : follow child h root r = some t) (he : r.length < n → child e = none) {p : List I}
    (hp : p.length ≤ n) :
    follow child (put h t i e) root p = if r ++ [i] <+: p then none else follow child h root p := by
  split
  · rename_i hpre
    obtain ⟨q, rfl⟩ := hpre
    have hroot : follow child (put h t i e) root r = some t := by
      rw [follow_put_off hu hr ht (by omega) (snoc_not_below r i), ht]
    have hlt : r.length < n := by
      simp only [List.length_append, List.length_singleton] at hp
      omega
    rw [follow_append, follow_snoc, hroot]
    simp [put_apply, he hlt]
  · rename_i hpre
    exact follow_put_off hu hr ht (by omega) hpre

theorem Unshared.put_leaf (hu : Unshared child h root n) (hr : r.length ≤ n)
    (ht : follow child h root r = some t) (he : r.length < n → child e = none) :
    Unshared child (put h t i e) root n := by
  intro p q t' hp hq hpt hqt
  rw [follow_put_leaf hu hr ht he hp] at hpt
  rw [follow_put_leaf hu hr ht he hq] at hqt
  split at hpt
  · cases hpt
  · split at hqt
    · cases hqt
    · exact hu p q t' hp hq hpt hqt

section Link
variable (hu : Unshared child h root n) (hr : r.length < n)
  (ht : follow child h root r = some t) (hnone : child (h t i) = none)
  (hfresh : ∀ p, p.length ≤ n → follow child h root p ≠ some f)
  (he₀ : child e₀ = none) (he : child e = some f)

omit [DecidableEq I] in
include hfresh in
private theorem follow_blank {p : List I} (hp : p.length ≤ n) :
    follow child (blank h f e₀) root p = follow child h root p := by
  apply follow_congr
  intro q j t' hq ht'
  have hlen := hq.length_le
  rw [List.length_append, List.length_singleton] at hlen
  have hne : t' ≠ f := by
    rintro rfl
    exact hfresh q (by omega) ht'
  simp [blank, hne]

omit [DecidableEq I] in
include hfresh hu in
private theorem unshared_blank (e₀ : E) : Unshared child (blank h f e₀) root n := by
  intro p q t' hp hq hpt hqt
  rw [follow_blank hfresh hp] at hpt
  rw [follow_blank hfresh hq] at hqt
  exact hu p q t' hp hq hpt hqt

include hu hr ht hnone hfresh he₀ he in
/-- Linking a fresh blank node adds exactly one path. -/
theorem follow_link {p : List I} (hp : p.length ≤ n) :
    follow child (put (blank h f e₀) t i e) root p =
      if p = r ++ [i] then some f else follow child h root p := by
  have hb := unshared_blank hu hfresh e₀
  have htb : follow child (blank h f e₀) root r = some t := by
    rw [follow_blank hfresh (Nat.le_of_lt hr), ht]
  have hroot : follow child (put (blank h f e₀) t i e) root r = some t := by
    rw [follow_put_off hb (Nat.le_of_lt hr) htb (by omega) (snoc_not_below r i), htb]
  have htf : t ≠ f := by
    rintro rfl
    exact hfresh r (Nat.le_of_lt hr) ht
  by_cases hpre : r ++ [i] <+: p
  · obtain ⟨q, rfl⟩ := hpre
    have hlink : follow child (put (blank h f e₀) t i e) root (r ++ [i]) = some f := by
      rw [follow_snoc, hroot]
      simp [put_apply, he]
    cases q with
    | nil => simp [hlink]
    | cons j q =>
      have hold : follow child h root (r ++ [i] ++ j :: q) = none := by
        rw [follow_append, follow_snoc, ht]
        simp [hnone]
      rw [follow_append, hlink, if_neg (by simp), hold]
      simp [follow, put_apply, htf.symm, blank, he₀]
  · rw [follow_put_off hb (Nat.le_of_lt hr) htb (by omega) hpre, follow_blank hfresh hp, if_neg]
    rintro rfl
    exact hpre (List.prefix_refl _)

include hu hr ht hnone hfresh he₀ he in
theorem Unshared.link : Unshared child (put (blank h f e₀) t i e) root n := by
  intro p q t' hp hq hpt hqt
  rw [follow_link hu hr ht hnone hfresh he₀ he hp] at hpt
  rw [follow_link hu hr ht hnone hfresh he₀ he hq] at hqt
  split at hpt <;> split at hqt
  · rename_i h₁ h₂
    rw [h₁, h₂]
  · cases hpt
    exact (hfresh q hq hqt).elim
  · cases hqt
    exact (hfresh p hp hpt).elim
  · exact hu p q t' hp hq hpt hqt

include hu hr ht hnone hfresh he₀ he in
/-- The entries after the link: the link itself, blank entries in the new node, and otherwise
what was there. -/
theorem entryAt_link {p : List I} {j : I} (hp : p.length ≤ n) :
    entryAt child (put (blank h f e₀) t i e) root p j =
      if p = r ++ [i] then some e₀ else if p = r ∧ j = i then some e
        else entryAt child h root p j := by
  have htf : t ≠ f := by
    rintro rfl
    exact hfresh r (Nat.le_of_lt hr) ht
  rw [entryAt, follow_link hu hr ht hnone hfresh he₀ he hp]
  by_cases hpi : p = r ++ [i]
  · simp [hpi, put_apply, htf.symm, blank]
  · rw [if_neg hpi, if_neg hpi, entryAt]
    cases hpt : follow child h root p with
    | none =>
      have hpr : p ≠ r := by
        rintro rfl
        rw [ht] at hpt
        cases hpt
      simp [hpr]
    | some t' =>
      have hfne : t' ≠ f := by
        rintro rfl
        exact hfresh p hp hpt
      have hiff : t' = t ↔ p = r := by
        constructor
        · rintro rfl
          exact hu p r t' hp (Nat.le_of_lt hr) hpt ht
        · rintro rfl
          rw [ht] at hpt
          cases hpt
          rfl
      simp only [Option.map_some, put_apply, hiff]
      split <;> simp [blank, hfne]

end Link

/-- The entries after a slot is replaced so. -/
theorem entryAt_put_leaf (hu : Unshared child h root n) (hr : r.length ≤ n)
    (ht : follow child h root r = some t) (he : r.length < n → child e = none) {p : List I} {j : I}
    (hp : p.length ≤ n) :
    entryAt child (put h t i e) root p j =
      if r ++ [i] <+: p then none else if p = r ∧ j = i then some e
        else entryAt child h root p j := by
  rw [entryAt, follow_put_leaf hu hr ht he hp]
  split
  · rfl
  · rw [entryAt]
    cases hpt : follow child h root p with
    | none =>
      have hpr : p ≠ r := by
        rintro rfl
        rw [ht] at hpt
        cases hpt
      simp [hpr]
    | some t' =>
      have hiff : t' = t ↔ p = r := by
        constructor
        · rintro rfl
          exact hu p r t' hp hr hpt ht
        · rintro rfl
          rw [ht] at hpt
          cases hpt
          rfl
      simp only [Option.map_some, put_apply, hiff]
      split <;> rfl

end NyaOS.Library.RadixTree
