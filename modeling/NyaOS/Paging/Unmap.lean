import NyaOS.Frames.Single
import NyaOS.Library.Runs
import NyaOS.Paging.Map

/-! `map_page` and `free_page` over one frame allocator: which runs keep every page table in a frame
that is marked as used. -/
namespace NyaOS.Paging
open Library.RadixTree Library.WordBits Library.Runs
open Frames (Allocator Client Sound Reach Taken kallocFrame kfreeFrame pageSize)

/-- The allocator after `n` calls of `kalloc_frame`. -/
def callsFrom (s : Allocator) : Nat → Allocator
  | 0 => s
  | n + 1 => ((kallocFrame (callsFrom s n)).map Prod.snd).getD (callsFrom s n)

/-- What call `n` returns, counted from 0. -/
def frameOfCall (s : Allocator) (n : Nat) : Nat := ((kallocFrame (callsFrom s n)).map Prod.fst).getD 0

/-- The page tables and the frame allocator. -/
structure Kernel where
  pager : Pager
  alloc : Allocator

def Kernel.mapPage (k : Kernel) (c : Call) : Kernel :=
  let pager := Paging.mapPage (fun n => frameOfCall k.alloc (n - k.pager.next)) k.pager
    c.paddr c.vaddr c.flags
  ⟨pager, callsFrom k.alloc (pager.next - k.pager.next)⟩

/-- `kfree_frame` -/
def Kernel.release (k : Kernel) (a : Nat) : Kernel :=
  ⟨k.pager, { k.alloc with pfa := kfreeFrame k.alloc.pfa a }⟩

/-- `free_page`. It gives back the page table itself; the loop behind that, over the page
directory, only reads. -/
def Kernel.freePage (k : Kernel) (vaddr : Nat) : Kernel :=
  let e4 := k.pager.mem k.pager.pml4 (index 39 vaddr)
  if e4 &&& 0x1#64 = 0#64 then k else
  let e3 := k.pager.mem ((e4 &&& ~~~0xfff#64).toNat / pageSize) (index 30 vaddr)
  if e3 &&& 0x1#64 = 0#64 then k else
  let e2 := k.pager.mem ((e3 &&& ~~~0xfff#64).toNat / pageSize) (index 21 vaddr)
  if e2 &&& 0x1#64 = 0#64 then k else
  k.release (e2 &&& ~~~0xfff#64).toNat

inductive PagerOp where
  | map (c : Call)
  | free (vaddr : Nat)

def Kernel.step (k : Kernel) : PagerOp → Option Kernel
  | .map c => some (k.mapPage c)
  | .free vaddr => some (k.freePage vaddr)

def Kernel.walk (k : Kernel) (u : Nat) : Option Translation := Paging.walk k.pager.mem k.pager.pml4 u

/-- Every table that the walk can reach, `pml4` included, is in a frame marked as used. -/
def TablesAllocated (k : Kernel) : Prop :=
  ∀ p t, p.length ≤ 3 → follow child k.pager.mem k.pager.pml4 p = some t →
    bit k.alloc.pfa.bitmap t = true

/-- `free_page` of a mapped page unmaps it and no other. -/
def Unmaps (k : Kernel) : PagerOp → Kernel → Prop
  | .map _, _ => True
  | .free v, k' => (k.walk v).isSome →
    k'.walk v = none ∧ ∀ u, Canonical u → u / 4096 ≠ v / 4096 → k'.walk u = k.walk u

/-- No call of `kalloc_frame` that the operation makes returns `NULL`. -/
def Kernel.Supplied (k : Kernel) : PagerOp → Prop
  | .map c => ∀ n < (k.mapPage c).pager.next - k.pager.next, frameOfCall k.alloc n ≠ 0
  | .free _ => True

/-- The regions of 2 MiB, by the path to their page table, in which a page was mapped. -/
def regionsAfter (regions : List (List (Fin 512))) : PagerOp → List (List (Fin 512))
  | .map c => tablePath c.vaddr :: regions
  | .free _ => regions

def Untouched (regions : List (List (Fin 512))) : PagerOp → Prop
  | .map _ => True
  | .free v => tablePath v ∉ regions

section Calls
variable {start : Allocator} {c : Client} (hprep : start.pfa.Prepared)
include hprep

/-- Calls that return frames return frames nobody holds, each its own, and hand them to the
caller. -/
theorem sound_calls (hs : Sound start c) {n : Nat} (hn : ∀ j < n, frameOfCall c.alloc j ≠ 0) :
    ∃ c', Sound start c' ∧ c'.alloc = callsFrom c.alloc n ∧ c.held ⊆ c'.held ∧
      (∀ j < n, frameOfCall c.alloc j ∈ c'.held ∧ frameOfCall c.alloc j ∉ c.held) ∧
      ∀ i < n, ∀ j < n, frameOfCall c.alloc i = frameOfCall c.alloc j → i = j := by
  induction n with
  | zero => exact ⟨c, hs, rfl, fun _ h => h, fun _ h => absurd h (Nat.not_lt_zero _),
      fun _ h => absurd h (Nat.not_lt_zero _)⟩
  | succ n ih =>
    obtain ⟨c', hs', hc', hsub, hheld, hinj⟩ := ih fun j hj => hn j (by omega)
    obtain ⟨a, s, hcall, hso, hnew⟩ := hs'.kallocFrame hprep
    rw [hc'] at hcall
    have hframe : frameOfCall c.alloc n = a := by rw [frameOfCall, hcall]; rfl
    have hafter : callsFrom c.alloc (n + 1) = s := by rw [callsFrom, hcall]; rfl
    have ha : a ≠ 0 := hframe ▸ hn n (by omega)
    have hnot := (hnew ha).2
    rw [Client.receive, if_neg ha] at hso
    refine ⟨_, hso, hafter.symm, fun b hb => Finset.mem_insert_of_mem (hsub hb), fun j hj => ?_,
      fun i hi j hj hij => ?_⟩
    · rcases Nat.lt_succ_iff_lt_or_eq.mp hj with hj | rfl
      · exact ⟨Finset.mem_insert_of_mem (hheld j hj).1, (hheld j hj).2⟩
      · rw [hframe]
        exact ⟨Finset.mem_insert_self _ _, fun h => hnot (hsub h)⟩
    · rcases Nat.lt_succ_iff_lt_or_eq.mp hi with hi | rfl <;>
        rcases Nat.lt_succ_iff_lt_or_eq.mp hj with hj | rfl
      · exact hinj i hi j hj hij
      · rw [hframe] at hij
        exact absurd (hij ▸ (hheld i hi).1) hnot
      · rw [hframe] at hij
        exact absurd (hij ▸ (hheld j hj).1) hnot
      · rfl

end Calls

/-- The invariant of a run that has freed no table: the client holds the tables' frames, and page
tables are exactly those of the regions mapped in. -/
structure Backed (start : Allocator) (regions : List (List (Fin 512))) (k : Kernel) (c : Client) :
    Prop where
  sound : Sound start c
  alloc : c.alloc = k.alloc
  tree : Tree (fun _ => 0) k.pager.next k.pager.next k.pager
  small : ∀ q j, q.length = 2 → leafAt k.pager q j = none
  root : bit start.pfa.bitmap k.pager.pml4 = true ∨ k.pager.pml4 * pageSize ∈ c.held
  tables : ∀ p t, p ≠ [] → p.length ≤ 3 → follow child k.pager.mem k.pager.pml4 p = some t →
    t * pageSize ∈ c.held
  regions : ∀ u, (follow child k.pager.mem k.pager.pml4 (tablePath u)).isSome ↔ tablePath u ∈ regions

section Run
variable {start : Allocator} {regions : List (List (Fin 512))} {k : Kernel} {c : Client}

theorem Backed.table_used (h : Backed start regions k c) {p : List (Fin 512)} {t : Nat}
    (hp : p.length ≤ 3) (ht : follow child k.pager.mem k.pager.pml4 p = some t) :
    bit start.pfa.bitmap t = true ∨ t * pageSize ∈ c.held := by
  cases p with
  | nil =>
    cases ht
    exact h.root
  | cons i p => exact .inr (h.tables _ t (List.cons_ne_nil i p) hp ht)

theorem Backed.tablesAllocated (h : Backed start regions k c) : TablesAllocated k := by
  intro p t hp ht
  rw [← h.alloc]
  rcases h.table_used hp ht with hb | hheld
  · exact h.sound.reserved t hb
  · obtain ⟨f, hf, -, -, -, hb⟩ := h.sound.held _ hheld
    obtain rfl : t = f := by simpa [pageSize] using hf
    exact hb

/-- Frames yet to be returned are none of the tables' frames. -/
theorem Backed.fresh (h : Backed start regions k c) {n : Nat} {c' : Client} (hs : Sound start c')
    (hnew : ∀ j < n, frameOfCall k.alloc j ∈ c'.held ∧ frameOfCall k.alloc j ∉ c.held)
    {j : Nat} (hj : j < n) {p : List (Fin 512)} (hp : p.length ≤ 3) :
    follow child k.pager.mem k.pager.pml4 p ≠ some (frameOfCall k.alloc j / pageSize) := by
  intro ht
  obtain ⟨hheld, hnot⟩ := hnew j hj
  obtain ⟨f, hf, -, -, hclear, -⟩ := hs.held _ hheld
  rw [hf, Nat.mul_div_cancel f (by decide)] at ht
  rcases h.table_used hp ht with hb | hb
  · rw [hclear] at hb
    cases hb
  · rw [← hf] at hb
    exact hnot hb

/-- Different frames that the clients hold are fresh frames for the pager. -/
private theorem freshFrames_of_held {kalloc : Nat → Nat} {m n : Nat} (hs : Sound start c)
    (hheld : ∀ i, m ≤ i → i < n → kalloc i ∈ c.held)
    (hdistinct : ∀ i j, m ≤ i → i < n → m ≤ j → j < n → kalloc i = kalloc j → i = j) :
    FreshFrames kalloc m n := by
  refine ⟨fun i hlo hhi => ?_, fun i hlo hhi => ?_, hdistinct⟩
  · obtain ⟨f, hf, -⟩ := hs.held _ (hheld i hlo hhi)
    rw [hf]
    exact Nat.mul_mod_left f pageSize
  · obtain ⟨f, hf, -, hlt, -⟩ := hs.held _ (hheld i hlo hhi)
    have hpages := start.pfa.npages_lt
    rw [hf]
    unfold pageSize
    omega

/-- Calls that return frames return fresh frames for the pager, which are taken afterwards. -/
theorem calls_fresh (hprep : start.pfa.Prepared) (hs : Sound start c) {n : Nat}
    (hn : ∀ j < n, frameOfCall c.alloc j ≠ 0) :
    FreshFrames (frameOfCall c.alloc) 0 n ∧
      ∀ j < n, Taken start (callsFrom c.alloc n) (frameOfCall c.alloc j) := by
  obtain ⟨c', hs', hc', -, hnew, hinj⟩ := sound_calls hprep hs hn
  refine ⟨freshFrames_of_held hs' (fun i _ hi => (hnew i hi).1) fun i j _ hi _ hj => hinj i hi j hj, fun j hj => ?_⟩
  rw [← hc']
  exact hs'.held _ (hnew j hj).1

/-- A `map_page` takes its tables from the allocator and adds one region. -/
theorem Backed.mapPage (h : Backed start regions k c) (hprep : start.pfa.Prepared) (call : Call)
    (hsup : k.Supplied (.map call)) :
    ∃ c', Backed start (tablePath call.vaddr :: regions) (k.mapPage call) c' := by
  let kalloc : Nat → Nat := fun n => frameOfCall k.alloc (n - k.pager.next)
  let s' := Paging.mapPage kalloc k.pager call.paddr call.vaddr call.flags
  have hle : k.pager.next ≤ s'.next := next_le_mapPage kalloc k.pager _ _ _
  have hcalls : ∀ j < s'.next - k.pager.next, frameOfCall c.alloc j ≠ 0 := by
    rw [h.alloc]
    exact hsup
  obtain ⟨c', hs', hc', hsub, hnew, hinj⟩ := sound_calls hprep h.sound hcalls
  rw [h.alloc] at hc' hnew hinj
  have hheld : ∀ n, k.pager.next ≤ n → n < s'.next → kalloc n ∈ c'.held :=
    fun n hlo hhi => (hnew (n - k.pager.next) (by omega)).1
  have hfresh : FreshFrames kalloc k.pager.next s'.next := by
    refine freshFrames_of_held hs' hheld fun i j hi hi' hj hj' hij => ?_
    have := hinj _ (by omega) _ (by omega) hij
    omega
  have htree : Tree kalloc k.pager.next s'.next k.pager :=
    ⟨h.tree.unshared, le_rfl, fun n hlo hhi p hp => h.fresh hs' hnew (by omega) hp, h.tree.linked⟩
  obtain ⟨hT, hgrows, hsome, hleaf⟩ := mapPage_spec hfresh htree (h.small (dirPath call.vaddr) _ rfl)
    (le_rfl : (Paging.mapPage kalloc k.pager call.paddr call.vaddr call.flags).next ≤ s'.next)
  refine ⟨c', ⟨hs', hc', ⟨hT.unshared, le_rfl, fun n hlo hhi => ?_, hT.linked⟩, ?_, ?_, ?_, ?_⟩⟩
  · exact absurd hhi (Nat.not_lt.mpr hlo)
  · intro q j hq
    refine (hleaf q j (by omega)).trans ((if_neg ?_).trans (h.small q j hq))
    rintro ⟨rfl, -⟩
    cases hq
  · rw [show (k.mapPage call).pager.pml4 = k.pager.pml4 from hgrows.pml4]
    exact h.root.imp_right fun hheld => hsub hheld
  · intro p t hne hp ht
    rcases hgrows.tables p hp with hsame | ⟨-, -, n, hlo, hhi, hframe⟩
    · exact hsub (h.tables p t hne hp (hsame.symm.trans ht))
    · obtain ⟨f, hf, -⟩ := hs'.held _ (hheld n hlo hhi)
      rw [hf, Nat.mul_div_cancel f (by decide)] at hframe
      obtain rfl : f = t := Option.some.inj (hframe.symm.trans ht)
      exact hf ▸ hheld n hlo hhi
  · intro u
    rw [List.mem_cons, ← h.regions u]
    rcases hgrows.tables (tablePath u) le_rfl with hsame | ⟨hpre, hnone, n, -, -, hframe⟩
    · refine ⟨fun hu => .inr (hsame ▸ hu), ?_⟩
      rintro (heq | hu)
      · rw [heq]
        exact hsome
      · exact hsame ▸ hu
    · have heq : tablePath u = tablePath call.vaddr := hpre.eq_of_length rfl
      exact iff_of_true (heq ▸ hsome) (.inl heq)

/-- An entry above the page tables is absent, or the link to a table. -/
theorem Backed.entry_cases (h : Backed start regions k c) {r : List (Fin 512)} {t : Nat}
    (hr : r.length ≤ 2) (ht : follow child k.pager.mem k.pager.pml4 r = some t) (i : Fin 512) :
    k.pager.mem t i &&& 0x1#64 = 0#64 ∧
      follow child k.pager.mem k.pager.pml4 (r ++ [i]) = none ∨
    ∃ f, ¬ k.pager.mem t i &&& 0x1#64 = 0#64 ∧
      follow child k.pager.mem k.pager.pml4 (r ++ [i]) = some f ∧
      (k.pager.mem t i &&& ~~~0xfff#64).toNat = f * pageSize := by
  rw [follow_snoc, ht, Option.bind_some, and_one_eq_zero_iff]
  cases hp : present (k.pager.mem t i) with
  | false => exact .inl ⟨rfl, child_eq_none_of_absent hp⟩
  | true =>
    rcases h.tree.linked r i _ hr (entryAt_of_follow ht i) hp with ⟨h2, hl⟩ | ⟨f, hf, he⟩
    · have hnone := h.small r i h2
      rw [leafAt_of_follow ht, hp, hl, Bool.or_true] at hnone
      cases hnone
    · refine .inr ⟨f, Bool.false_ne_true ∘ Eq.symm, by rw [he, child_link hf], ?_⟩
      rw [toNat_mask, he, entryOf_toNat hf (by decide)]
      congr 1
      omega

/-- `free_page` returns where there is no page table, and gives the page table back where there is
one. -/
theorem Backed.freePage_eq (h : Backed start regions k c) (v : Nat) :
    k.freePage v = match follow child k.pager.mem k.pager.pml4 (tablePath v) with
      | none => k
      | some t => k.release (t * pageSize) := by
  have hbelow : ∀ (r q : List (Fin 512)), follow child k.pager.mem k.pager.pml4 r = none →
      r ++ q = tablePath v → follow child k.pager.mem k.pager.pml4 (tablePath v) = none := by
    rintro r q hr hpath
    rw [← hpath, follow_append, hr, Option.bind_none]
  unfold Kernel.freePage
  dsimp only
  rcases h.entry_cases (r := []) (by decide) rfl (index 39 v) with ⟨h4, hnone⟩ | ⟨pdpt, h4, ht, ha⟩
  · rw [hbelow _ [index 30 v, index 21 v] hnone rfl, if_pos h4]
  rw [if_neg h4, ha, Nat.mul_div_cancel pdpt (by decide)]
  rcases h.entry_cases (by simp) ht (index 30 v) with ⟨h3, hnone⟩ | ⟨pd, h3, ht, ha⟩
  · rw [hbelow _ [index 21 v] hnone rfl, if_pos h3]
  rw [if_neg h3, ha, Nat.mul_div_cancel pd (by decide)]
  rcases h.entry_cases (by simp) ht (index 21 v) with ⟨h2, hnone⟩ | ⟨pt, h2, ht, ha⟩
  · rw [hbelow _ [] hnone rfl, if_pos h2]
  · rw [if_neg h2, ha, show follow child k.pager.mem k.pager.pml4 (tablePath v) = some pt from ht]

/-- A page without page table is not mapped. -/
theorem Backed.walk_none (h : Backed start regions k c) {v : Nat} (hv : tablePath v ∉ regions) :
    follow child k.pager.mem k.pager.pml4 (tablePath v) = none ∧ k.walk v = none := by
  have hnone : follow child k.pager.mem k.pager.pml4 (tablePath v) = none := by
    rw [← Option.not_isSome_iff_eq_none, h.regions v]
    exact hv
  refine ⟨hnone, ?_⟩
  rw [Kernel.walk, h.tree.walk_eq, leafAt_of_not_follow hnone, h.small (dirPath v) _ rfl]
  rfl

theorem Backed.step (h : Backed start regions k c) (hprep : start.pfa.Prepared) {op : PagerOp}
    (hsup : k.Supplied op) (hop : Untouched regions op) :
    ∃ k', k.step op = some k' ∧ Unmaps k op k' ∧ ∃ c', Backed start (regionsAfter regions op) k' c' := by
  cases op with
  | map call => exact ⟨_, rfl, trivial, h.mapPage hprep call hsup⟩
  | free v =>
    obtain ⟨hnone, hwalk⟩ := h.walk_none hop
    have hfree : k.freePage v = k := by rw [h.freePage_eq, hnone]
    refine ⟨k, congrArg some hfree, fun hmapped => ?_, c, h⟩
    rw [hwalk] at hmapped
    cases hmapped

/-- Freeing a page of a region that is mapped in leaves a table in a free frame. -/
theorem Backed.step_spoils (h : Backed start regions k c) {op : PagerOp} {k' : Kernel}
    (hop : ¬ Untouched regions op) (hk' : k.step op = some k') : ¬ TablesAllocated k' := by
  cases op with
  | map call => exact (hop trivial).elim
  | free v =>
    have hsome := (h.regions v).mpr (Classical.not_not.mp hop)
    obtain ⟨t, ht⟩ := Option.isSome_iff_exists.mp hsome
    have hfree : k.freePage v = k.release (t * pageSize) := by rw [h.freePage_eq, ht]
    obtain rfl : k.release (t * pageSize) = k' := hfree ▸ Option.some.inj hk'
    obtain ⟨f, hf, -, hlt, -⟩ := h.sound.held _ (h.tables _ t (List.cons_ne_nil _ _) le_rfl ht)
    obtain rfl : t = f := by simpa [pageSize] using hf
    have hidx : t * pageSize / pageSize % 2 ^ 32 = t := by
      have hpages := start.pfa.npages_lt
      rw [Nat.mul_div_cancel t (by decide), Nat.mod_eq_of_lt (by omega)]
    intro hall
    have hbit : bit (Frames.bmClear k.alloc.pfa.bitmap (t * pageSize / pageSize % 2 ^ 32)) t = true :=
      hall (tablePath v) t le_rfl ht
    rw [hidx, Frames.bit_bmClear, decide_eq_true rfl] at hbit
    cases hbit

end Run

theorem Backed.start {start : Allocator} {c : Client} (hs : Sound start c) {pager : Pager}
    (hzero : ∀ i, pager.mem pager.pml4 i = 0#64)
    (hroot : bit start.pfa.bitmap pager.pml4 = true ∨ pager.pml4 * pageSize ∈ c.held) :
    Backed start [] ⟨pager, c.alloc⟩ c := by
  have hnofresh : FreshFrames (fun _ => 0) pager.next pager.next :=
    ⟨fun k hlo hhi => by omega, fun k hlo hhi => by omega, fun j k hlo hhi => by omega⟩
  obtain ⟨htree, hleaf⟩ := Tree.init hnofresh hzero fun k hlo hhi => by omega
  have hnone : ∀ i p, follow child pager.mem pager.pml4 (i :: p) = none := by
    intro i p
    rw [follow, hzero i]
    rfl
  refine ⟨hs, rfl, htree, fun q j hq => hleaf q j (by omega), hroot, ?_, ?_⟩
  · intro p t hne hp ht
    obtain ⟨i, p, rfl⟩ := List.exists_cons_of_ne_nil hne
    rw [hnone] at ht
    cases ht
  · intro u
    rw [tablePath, hnone]
    simp

/-- From an empty `pml4` in a frame in use, and while `kalloc_frame` returns frames, every table
stays in a frame marked as used and `free_page` unmaps its page and no other exactly when no
page is freed in a 2 MiB region in which one was mapped before. -/
theorem tables_allocated_iff {start : Allocator} (hprep : start.pfa.Prepared)
    (hstart : start.allocate = 1) {c : Client} (hc : Reach start c) {pager : Pager}
    (hzero : ∀ i, pager.mem pager.pml4 i = 0#64)
    (hroot : bit start.pfa.bitmap pager.pml4 = true ∨ pager.pml4 * pageSize ∈ c.held)
    (ops : List PagerOp) (hsup : Allowed Kernel.step Kernel.Supplied ⟨pager, c.alloc⟩ ops) :
    Always Kernel.step TablesAllocated Unmaps ⟨pager, c.alloc⟩ ops ↔
      Guarded regionsAfter Untouched [] ops := by
  refine always_iff_guarded (R := fun regions k => ∃ c', Backed start regions k c') ?_ ?_ ?_
    ⟨c, Backed.start (hc.sound hstart hprep) hzero hroot⟩ hsup
  · rintro regions k ⟨c', h⟩
    exact h.tablesAllocated
  · rintro regions k op ⟨c', h⟩ hop hguard
    exact h.step hprep hop hguard
  · rintro regions k op k' ⟨c', h⟩ - hguard hk' -
    exact h.step_spoils hguard hk'

/-- A machine of 64 frames of which frame 0 and the one of `pml4` are in use. -/
def tableMachine : Allocator :=
  ⟨⟨64, fun i => if i = 0 then 3#32 else 0#32, Frames.smallPfa.npages_lt⟩, 1, 0, fun _ => 0⟩

theorem tableMachine_prepared : tableMachine.pfa.Prepared where
  zero := rfl
  padding k hlo hhi := absurd hlo (by
    have h64 : 32 * tableMachine.pfa.wordCount = 64 := by decide
    rw [h64] at hhi
    simpa [tableMachine] using hhi)

def emptyKernel : Kernel := ⟨emptyPager, tableMachine⟩

theorem first_map_supplied : emptyKernel.Supplied (.map ⟨0x5000, 0x1000, 0⟩) := by
  have hnext : (emptyKernel.mapPage ⟨0x5000, 0x1000, 0⟩).pager.next - emptyKernel.pager.next = 3 := by
    decide +kernel
  have hframes : ∀ n < 3, frameOfCall emptyKernel.alloc n ≠ 0 := by decide +kernel
  rw [Kernel.Supplied, hnext]
  exact hframes

theorem map_then_free_supplied (v : Nat) : Allowed Kernel.step Kernel.Supplied emptyKernel
    [.map ⟨0x5000, 0x1000, 0⟩, .free v] :=
  ⟨first_map_supplied, fun _ _ => ⟨trivial, fun _ _ => trivial⟩⟩

/-- Freeing a page far from the mapped one does nothing. -/
theorem other_region_freed :
    Always Kernel.step TablesAllocated Unmaps emptyKernel
      [.map ⟨0x5000, 0x1000, 0⟩, .free 0x200000] := by
  refine (tables_allocated_iff tableMachine_prepared rfl .start (fun _ => rfl) (.inl rfl) _
    (map_then_free_supplied _)).mpr ⟨trivial, ?_, trivial⟩
  show tablePath 0x200000 ∉ [tablePath 0x1000]
  decide

/-- Freeing the mapped page gives back a page table that is still linked. -/
theorem mapped_page_freed :
    Allowed Kernel.step Kernel.Supplied emptyKernel [.map ⟨0x5000, 0x1000, 0⟩, .free 0x1000] ∧
      ¬ Always Kernel.step TablesAllocated Unmaps emptyKernel
        [.map ⟨0x5000, 0x1000, 0⟩, .free 0x1000] := by
  refine ⟨map_then_free_supplied _, ?_⟩
  rintro ⟨-, k, hk, -, -, k', hk', -, hall⟩
  have hstart : Backed tableMachine [] emptyKernel ⟨tableMachine, ∅, ∅, false⟩ :=
    Backed.start (Frames.Sound.init rfl) (fun _ => rfl) (.inl rfl)
  obtain ⟨c', hmapped⟩ := hstart.mapPage tableMachine_prepared ⟨0x5000, 0x1000, 0⟩ first_map_supplied
  obtain rfl : emptyKernel.mapPage ⟨0x5000, 0x1000, 0⟩ = k := Option.some.inj hk
  have htouched : ¬ Untouched [tablePath 0x1000] (.free 0x1000) := fun h => h (.head _)
  exact hmapped.step_spoils htouched hk' hall

end NyaOS.Paging
