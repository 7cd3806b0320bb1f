import Mathlib.Data.Finset.Union
import NyaOS.Frames.Boot
import NyaOS.Frames.Multi
import NyaOS.Frames.Single

/-! Runs that mix the two allocators. Both go by one bitmap, and the stock of prepared frames is marked there. -/
namespace NyaOS.Frames
open Library Library.WordBits

/-- The frames of a block, which is its address and its number of frames. -/
def blockFrames (b : Nat × Nat) : Finset Nat := (Finset.range b.2).image fun i => b.1 + i * pageSize

def BlocksApart (b b' : Nat × Nat) : Prop :=
  b.1 + b.2 * pageSize ≤ b'.1 ∨ b'.1 + b'.2 * pageSize ≤ b.1

/-- The allocators with the blocks that their clients hold. -/
structure Tenant where
  alloc : Allocator
  held : Finset (Nat × Nat)

def Tenant.frames (t : Tenant) : Finset Nat := t.held.biUnion blockFrames

/-- From frame `k` to the end of its word of the bitmap nothing is in use. -/
def Unused (start : Allocator) (t : Tenant) (k : Nat) : Prop :=
  ∀ i, k ≤ i → i < wordEnd k →
    bit start.pfa.bitmap i = false ∧ i * pageSize ∉ t.frames ∧ ¬ InStock t.alloc (i * pageSize)

/-- A call: of `kalloc_frame`, of `kfree_frame` for a single frame, of `kalloc_frames` where it does not misjudge, or
of `kfree_frames` where the rest of the last word is not in use. -/
inductive MixedStep (start : Allocator) : Tenant → Tenant → Prop
  | alloc {t : Tenant} {a : Nat} {s : Allocator} (h : kallocFrame t.alloc = some (a, s)) :
      MixedStep start t ⟨s, if a = 0 then t.held else insert (a, 1) t.held⟩
  | free {t : Tenant} {a : Nat} (h : (a, 1) ∈ t.held) :
      MixedStep start t ⟨{ t.alloc with pfa := kfreeFrame t.alloc.pfa a }, t.held.erase (a, 1)⟩
  | allocRun {t : Tenant} {n a : Nat} {s : Pfa} (hn : 1 ≤ n) (hgrant : GrantsFree t.alloc.pfa n)
      (h : kallocFrames t.alloc.pfa n = (a, s)) :
      MixedStep start t ⟨{ t.alloc with pfa := s }, if a = 0 then t.held else insert (a, n) t.held⟩
  | freeRun {t : Tenant} {a n : Nat} (h : (a, n) ∈ t.held) (hrest : Unused start t (a / pageSize + n)) :
      MixedStep start t ⟨{ t.alloc with pfa := kfreeFrames t.alloc.pfa a n }, t.held.erase (a, n)⟩

/-- The invariant: the frames held are sound for the single-frame allocator, and the blocks keep apart. -/
structure Apportioned (start : Allocator) (t : Tenant) : Prop where
  sound : Sound start ⟨t.alloc, t.frames, ∅, true⟩
  nonempty : ∀ b ∈ t.held, 1 ≤ b.2
  apart : (t.held : Set (Nat × Nat)).Pairwise BlocksApart

section Blocks
variable {b b' : Nat × Nat} {a : Nat}

theorem mem_blockFrames : a ∈ blockFrames b ↔ ∃ i < b.2, b.1 + i * pageSize = a := by
  rw [blockFrames, Finset.mem_image]
  simp only [Finset.mem_range]

theorem blockFrames_one (a : Nat) : blockFrames (a, 1) = {a} := by
  ext x
  rw [mem_blockFrames, Finset.mem_singleton]
  constructor
  · rintro ⟨i, hi, rfl⟩
    obtain rfl : i = 0 := Nat.lt_one_iff.mp hi
    simp
  · rintro rfl
    exact ⟨0, Nat.one_pos, by simp⟩

theorem BlocksApart.symm (h : BlocksApart b b') : BlocksApart b' b := Or.symm h

theorem BlocksApart.not_mem (h : BlocksApart b b') (ha : a ∈ blockFrames b) : a ∉ blockFrames b' := by
  obtain ⟨i, hi, rfl⟩ := mem_blockFrames.mp ha
  rintro ha'
  obtain ⟨j, hj, heq⟩ := mem_blockFrames.mp ha'
  unfold BlocksApart pageSize at *
  omega

/-- Blocks at page boundaries without a common frame are apart. -/
theorem blocksApart_of_disjoint {k k' n n' : Nat} (hn : 1 ≤ n) (hn' : 1 ≤ n')
    (h : ∀ a ∈ blockFrames (k * pageSize, n), a ∉ blockFrames (k' * pageSize, n')) :
    BlocksApart (k * pageSize, n) (k' * pageSize, n') := by
  have hmem : ∀ {k n j : Nat}, k ≤ j → j < k + n → j * pageSize ∈ blockFrames (k * pageSize, n) := by
    intro k n j hlo hhi
    refine mem_blockFrames.mpr ⟨j - k, by omega, ?_⟩
    unfold pageSize
    omega
  unfold BlocksApart
  rcases Nat.le_total k k' with hle | hle
  · by_cases hlt : k' < k + n
    · exact (h _ (hmem hle hlt) (hmem le_rfl (by omega))).elim
    · left
      unfold pageSize
      omega
  · by_cases hlt : k < k' + n'
    · exact (h _ (hmem le_rfl (by omega)) (hmem hle hlt)).elim
    · right
      unfold pageSize
      omega

end Blocks

section Sound
variable {start : Allocator} {s : Allocator} {held held' freed : Finset Nat}

/-- Neither the frames freed nor an earlier failure matter once the run is not watched for losses. -/
theorem Sound.unwatched (h : Sound start ⟨s, held, freed, true⟩) (heq : held = held') :
    Sound start ⟨s, held', ∅, true⟩ := by
  subst heq
  exact ⟨h.npages, h.reserved, h.statics, h.held, h.stock, h.inj, nofun⟩

/-- What a granted run does to the bitmap: it sets at least the bits of its frames. -/
theorem Sound.grant (h : Sound start ⟨s, held, ∅, true⟩) (pfa : Pfa) {n k : Nat} (hpos : 0 < k)
    (hrun : FreeRun s.pfa n k) (hn : pfa.npages = s.pfa.npages)
    (hset : ∀ i, bit pfa.bitmap i = (bit s.pfa.bitmap i || decide (k ≤ i ∧ i < wordEnd (k + n)))) :
    (∀ a ∈ blockFrames (k * pageSize, n), a ∉ held) ∧
      Sound start ⟨{ s with pfa := pfa }, blockFrames (k * pageSize, n) ∪ held, ∅, true⟩ := by
  have hgrown : ∀ i, bit s.pfa.bitmap i = true → bit pfa.bitmap i = true := by
    intro i hi
    rw [hset, hi, Bool.true_or]
  have hmono : ∀ {a}, Taken start s a → Taken start { s with pfa := pfa } a := by
    rintro a ⟨i, ha, h0, hlt, hc, hb⟩
    exact ⟨i, ha, h0, hlt, hc, hgrown i hb⟩
  -- the frames of the run were clear, so nobody had them
  have hfresh : ∀ a ∈ blockFrames (k * pageSize, n), ∃ i, a = i * pageSize ∧ k ≤ i ∧ i < k + n ∧
      bit s.pfa.bitmap i = false := by
    intro a ha
    obtain ⟨i, hi, rfl⟩ := mem_blockFrames.mp ha
    exact ⟨k + i, (Nat.add_mul _ _ _).symm, by omega, Nat.add_lt_add_left hi k,
      hrun.clear _ (by omega) (Nat.add_lt_add_left hi k)⟩
  have hfree : ∀ a ∈ blockFrames (k * pageSize, n), ¬ Taken start s a := by
    rintro a ha ⟨j, rfl, -, -, -, hb⟩
    obtain ⟨i, heq, -, -, hclear⟩ := hfresh _ ha
    obtain rfl : j = i := Nat.eq_of_mul_eq_mul_right (by decide) heq
    rw [hb] at hclear
    cases hclear
  have hinside := hrun.inside
  refine ⟨fun a ha hm => hfree a ha (h.held a hm), hn.trans h.npages, fun i hi => hgrown i (h.reserved i hi),
    h.statics, ?_, ?_, h.inj, nofun⟩
  · intro a ha
    rcases Finset.mem_union.mp ha with ha | ha
    · obtain ⟨i, rfl, hlo, hhi, hclear⟩ := hfresh a ha
      have hnpages : s.pfa.npages = start.pfa.npages := h.npages
      refine ⟨i, rfl, by omega, by omega, ?_, ?_⟩
      · cases hb : bit start.pfa.bitmap i with
        | false => rfl
        | true => exact (h.reserved i hb).symm.trans hclear
      · have hend := lt_wordEnd (k + n)
        change bit pfa.bitmap i = true
        rw [hset, decide_eq_true ⟨hlo, by omega⟩, Bool.or_true]
    · exact hmono (h.held a ha)
  · intro a ha
    obtain ⟨htaken, hnot⟩ := h.stock a ha
    refine ⟨hmono htaken, fun hm => ?_⟩
    rcases Finset.mem_union.mp hm with hm | hm
    · exact hfree a hm htaken
    · exact hnot hm

/-- What a block given back does: beyond its frames only spare ones are cleared. -/
theorem Sound.giveBack (h : Sound start ⟨s, held, ∅, true⟩) {pfa : Pfa} {n k : Nat}
    (hin : blockFrames (k * pageSize, n) ⊆ held) (hn : pfa.npages = s.pfa.npages)
    (hspare : ∀ i, k + n ≤ i → i < wordEnd (k + n) →
      bit start.pfa.bitmap i = false ∧ i * pageSize ∉ held ∧ ¬ InStock s (i * pageSize))
    (hclear : ∀ i, bit pfa.bitmap i = (bit s.pfa.bitmap i && !decide (k ≤ i ∧ i < wordEnd (k + n)))) :
    Sound start ⟨{ s with pfa := pfa }, held \ blockFrames (k * pageSize, n), ∅, true⟩ := by
  have hframe : ∀ i, k ≤ i → i < k + n → i * pageSize ∈ blockFrames (k * pageSize, n) := by
    intro i hlo hhi
    refine mem_blockFrames.mpr ⟨i - k, by omega, ?_⟩
    unfold pageSize
    omega
  have hkept : ∀ i, bit s.pfa.bitmap i = true → i * pageSize ∉ blockFrames (k * pageSize, n) →
      ¬ (k + n ≤ i ∧ i < wordEnd (k + n)) → bit pfa.bitmap i = true := by
    intro i hi hout hrest
    have hnot : ¬ (k ≤ i ∧ i < wordEnd (k + n)) := by
      rintro ⟨hlo, hhi⟩
      by_cases hlt : i < k + n
      · exact hout (hframe i hlo hlt)
      · exact hrest ⟨by omega, hhi⟩
    rw [hclear, hi, decide_eq_false hnot]
    rfl
  have htaken : ∀ {a}, Taken start s a → a ∉ blockFrames (k * pageSize, n) →
      (∀ i, a = i * pageSize → ¬ (k + n ≤ i ∧ i < wordEnd (k + n))) → Taken start { s with pfa := pfa } a := by
    rintro a ⟨i, rfl, h0, hlt, hc, hb⟩ hout hrest
    exact ⟨i, rfl, h0, hlt, hc, hkept i hb hout (hrest i rfl)⟩
  refine ⟨hn.trans h.npages, ?_, h.statics, ?_, ?_, h.inj, nofun⟩
  · intro i hi
    refine hkept i (h.reserved i hi) (fun hm => ?_) fun hrest => ?_
    · obtain ⟨j, heq, -, -, hc, -⟩ := h.held _ (hin hm)
      obtain rfl : i = j := Nat.eq_of_mul_eq_mul_right (by decide) heq
      rw [hi] at hc
      cases hc
    · rw [(hspare i hrest.1 hrest.2).1] at hi
      cases hi
  · intro a ha
    obtain ⟨ha, hout⟩ := Finset.mem_sdiff.mp ha
    refine htaken (h.held a ha) hout fun i heq hrest => ?_
    rw [heq] at ha
    exact (hspare i hrest.1 hrest.2).2.1 ha
  · intro a ha
    obtain ⟨ht, hnot⟩ := h.stock a ha
    refine ⟨htaken ht (fun hm => hnot (hin hm)) fun i heq hrest => ?_, fun hm => hnot (Finset.mem_sdiff.mp hm).1⟩
    rw [heq] at ha
    exact (hspare i hrest.1 hrest.2).2.2 ha

end Sound

section Tenant
variable {start : Allocator} {t t' : Tenant}

theorem Tenant.block_subset {b : Nat × Nat} (hb : b ∈ t.held) : blockFrames b ⊆ t.frames :=
  Finset.subset_biUnion_of_mem blockFrames hb

/-- A block that is given up takes its frames along and no others. -/
theorem Apportioned.frames_erase (h : Apportioned start t) {b : Nat × Nat} (hb : b ∈ t.held) :
    (t.held.erase b).biUnion blockFrames = t.frames \ blockFrames b := by
  ext a
  rw [Finset.mem_biUnion, Finset.mem_sdiff, Tenant.frames, Finset.mem_biUnion]
  constructor
  · rintro ⟨b', hb', ha⟩
    obtain ⟨hne, hb'⟩ := Finset.mem_erase.mp hb'
    exact ⟨⟨b', hb', ha⟩, (h.apart hb' hb hne).not_mem ha⟩
  · rintro ⟨⟨b', hb', ha⟩, hout⟩
    refine ⟨b', Finset.mem_erase.mpr ⟨?_, hb'⟩, ha⟩
    rintro rfl
    exact hout ha

/-- A held block is at a page of the memory that was free at the start. -/
theorem Apportioned.block (h : Apportioned start t) {b : Nat × Nat} (hb : b ∈ t.held) :
    ∃ k, b.1 = k * pageSize ∧ 0 < k ∧ k + b.2 ≤ start.pfa.npages ∧
      ∀ i, k ≤ i → i < k + b.2 → bit start.pfa.bitmap i = false := by
  have hn := h.nonempty b hb
  have hframe : ∀ i < b.2, Taken start t.alloc (b.1 + i * pageSize) := fun i hi =>
    h.sound.held _ (Tenant.block_subset hb (mem_blockFrames.mpr ⟨i, hi, rfl⟩))
  obtain ⟨k, hk, h0, hlt, hc, -⟩ := hframe 0 hn
  rw [Nat.zero_mul, Nat.add_zero] at hk
  refine ⟨k, hk, by omega, ?_, fun i hlo hhi => ?_⟩
  · obtain ⟨j, hj, -, hj', -⟩ := hframe (b.2 - 1) (by omega)
    rw [hk, ← Nat.add_mul] at hj
    have := Nat.eq_of_mul_eq_mul_right (by decide) hj
    omega
  · obtain ⟨j, hj, -, -, hc, -⟩ := hframe (i - k) (by omega)
    rw [hk, ← Nat.add_mul] at hj
    have hji := Nat.eq_of_mul_eq_mul_right (by decide) hj
    rw [← hji] at hc
    rwa [show k + (i - k) = i by omega] at hc

/-- A block of fresh frames is apart from the held ones. -/
theorem Apportioned.take (h : Apportioned start t) {s : Allocator} {k n : Nat} (hn : 1 ≤ n)
    (hfresh : ∀ a ∈ blockFrames (k * pageSize, n), a ∉ t.frames)
    (hsound : Sound start ⟨s, blockFrames (k * pageSize, n) ∪ t.frames, ∅, true⟩) :
    Apportioned start ⟨s, insert (k * pageSize, n) t.held⟩ := by
  have hstep : Pool.Step BlocksApart (t.held : Set (Nat × Nat)) (insert (k * pageSize, n) t.held) := by
    refine .take fun b hb => ?_
    have hb' : b ∈ t.held := Finset.mem_coe.mp hb
    obtain ⟨j, hj, -⟩ := h.block hb'
    have hapart : BlocksApart (k * pageSize, n) b := by
      obtain ⟨a, m⟩ := b
      dsimp only at hj
      subst hj
      exact blocksApart_of_disjoint hn (h.nonempty _ hb') fun a ha hm => hfresh a ha (Tenant.block_subset hb' hm)
    refine ⟨?_, hapart, hapart.symm⟩
    rintro rfl
    have hself : k * pageSize ∈ blockFrames (k * pageSize, n) := mem_blockFrames.mpr ⟨0, hn, by simp⟩
    exact hfresh _ hself (Tenant.block_subset hb' hself)
  refine ⟨?_, fun b hb => ?_, ?_⟩
  · rwa [Tenant.frames, Finset.biUnion_insert]
  · rcases Finset.mem_insert.mp hb with rfl | hb
    · exact hn
    · exact h.nonempty b hb
  · rw [Finset.coe_insert]
    exact hstep.pairwise h.apart

theorem Apportioned.give (h : Apportioned start t) {s : Allocator} {b : Nat × Nat} (hb : b ∈ t.held)
    (hsound : Sound start ⟨s, t.frames \ blockFrames b, ∅, true⟩) : Apportioned start ⟨s, t.held.erase b⟩ := by
  refine ⟨?_, fun b' hb' => h.nonempty b' (Finset.mem_erase.mp hb').2, ?_⟩
  · rwa [Tenant.frames, h.frames_erase hb]
  · rw [Finset.coe_erase]
    exact (Pool.Step.give (Finset.mem_coe.mpr hb)).pairwise h.apart

/-- Every step keeps the invariant. -/
theorem Apportioned.step (h : Apportioned start t) (hprep : start.pfa.Prepared) (hstep : MixedStep start t t') :
    Apportioned start t' := by
  cases hstep with
  | @alloc a s he =>
    obtain ⟨a', s', he', hsound, hret⟩ := h.sound.kallocFrame hprep
    cases he.symm.trans he'
    by_cases ha : a = 0
    · rw [if_pos ha]
      rw [Client.receive, if_pos ha] at hsound
      exact ⟨hsound, h.nonempty, h.apart⟩
    · rw [if_neg ha]
      rw [Client.receive, if_neg ha] at hsound
      obtain ⟨⟨k, rfl, -⟩, hnot⟩ := hret ha
      refine h.take le_rfl (fun a ha' => ?_) (hsound.unwatched ?_)
      · rw [blockFrames_one, Finset.mem_singleton] at ha'
        rwa [ha']
      · rw [blockFrames_one]
        rfl
  | @free a hm =>
    have hframe : a ∈ t.frames := Tenant.block_subset hm (by rw [blockFrames_one, Finset.mem_singleton])
    refine h.give hm ((h.sound.kfreeFrame hframe).unwatched ?_)
    rw [blockFrames_one, Finset.sdiff_singleton_eq_erase]
  | @allocRun n a s hn hgrant he =>
    have hnpages : t.alloc.pfa.npages = start.pfa.npages := h.sound.npages
    rcases kallocFrames_cases t.alloc.pfa n with ⟨k, hacc, -, hk⟩ | ⟨-, hnone⟩
    · have hpos := hacc.pos (h.sound.reserved 0 hprep.zero) hn
      have hne : k * pageSize ≠ 0 := Nat.mul_ne_zero (by omega) (by decide)
      rw [GrantsFree, hk, Nat.mul_div_cancel _ (by decide : 0 < pageSize)] at hgrant
      have hrun := hgrant hne
      cases hk.symm.trans he
      have hlt := t.alloc.pfa.npages_lt
      have hinside := hrun.inside
      rw [if_neg hne]
      have hset : ∀ i, bit (setRange t.alloc.pfa.bitmap k ((k + n) % 2 ^ 64)) i =
          (bit t.alloc.pfa.bitmap i || decide (k ≤ i ∧ i < wordEnd (k + n))) := by
        rw [Nat.mod_eq_of_lt (by omega)]
        exact bit_setRange _ (Nat.le_add_right _ _)
      obtain ⟨hfresh, hsound⟩ := h.sound.grant
        { t.alloc.pfa with bitmap := setRange t.alloc.pfa.bitmap k ((k + n) % 2 ^ 64) } hpos hrun rfl hset
      exact h.take hn hfresh hsound
    · cases hnone.symm.trans he
      rw [if_pos rfl]
      exact ⟨h.sound, h.nonempty, h.apart⟩
  | @freeRun a n hm hrest =>
    obtain ⟨k, hk, -, hinside, -⟩ := h.block hm
    dsimp only at hk hinside
    subst hk
    rw [Nat.mul_div_cancel _ (by decide : 0 < pageSize)] at hrest
    have hlt := start.pfa.npages_lt
    exact h.give hm (h.sound.giveBack (Tenant.block_subset hm) rfl hrest fun i =>
      bit_kfreeFrames t.alloc.pfa (by omega) (by omega) i)

end Tenant

/-- Runs from a machine whose clients hold nothing yet. -/
def MixedRun (start : Allocator) : Tenant → Prop := Relation.ReflTransGen (MixedStep start) ⟨start, ∅⟩

theorem MixedRun.apportioned {start : Allocator} {t : Tenant} (hr : MixedRun start t) (hprep : start.pfa.Prepared)
    (ha : start.allocate = 1) : Apportioned start t := by
  induction hr with
  | refl =>
    have hinit := Sound.init ha
    refine ⟨⟨hinit.npages, hinit.reserved, hinit.statics, hinit.held, hinit.stock, hinit.inj, nofun⟩,
      fun b hb => ?_, ?_⟩
    · cases hb
    · rw [Finset.coe_empty]
      exact Set.pairwise_empty _
  | tail _ hstep ih => exact ih.step hprep hstep

/-- Both allocators on one bitmap. In every run of `kalloc_frame`, `kfree_frame`, `kalloc_frames` and `kfree_frames`
whose multi-frame calls meet their conditions (the search takes no misjudged start; nothing is in use between a run
that is freed and the end of its word), no two held blocks share a frame, each is inside the memory that was free at
the start, without frame 0, and the next `kalloc_frame` returns `NULL` or a frame of no held block. -/
theorem mixed_run_safe {start : Allocator} (hprep : start.pfa.Prepared) (ha : start.allocate = 1) {t : Tenant}
    (hr : MixedRun start t) :
    (t.held : Set (Nat × Nat)).Pairwise BlocksApart ∧
    (∀ b ∈ t.held, b.1 % pageSize = 0 ∧ b.1 ≠ 0 ∧ 1 ≤ b.2 ∧ b.1 / pageSize + b.2 ≤ start.pfa.npages ∧
      ∀ i, b.1 / pageSize ≤ i → i < b.1 / pageSize + b.2 → bit start.pfa.bitmap i = false) ∧
    ∃ a s, kallocFrame t.alloc = some (a, s) ∧ (a ≠ 0 → ∀ b ∈ t.held, BlocksApart (a, 1) b) := by
  have h := hr.apportioned hprep ha
  refine ⟨h.apart, fun b hb => ?_, ?_⟩
  · obtain ⟨k, hk, hpos, hinside, hfree⟩ := h.block hb
    rw [hk, Nat.mul_div_cancel _ (by decide : 0 < pageSize)]
    exact ⟨Nat.mul_mod_left _ _, Nat.mul_ne_zero (by omega) (by decide), h.nonempty b hb, hinside, hfree⟩
  · obtain ⟨a, s, he, -, hret⟩ := h.sound.kallocFrame hprep
    refine ⟨a, s, he, fun hne b hb => ?_⟩
    obtain ⟨⟨k, rfl, -⟩, hnot⟩ := hret hne
    obtain ⟨j, hj, -⟩ := h.block hb
    obtain ⟨a', m⟩ := b
    dsimp only at hj
    subst hj
    refine blocksApart_of_disjoint le_rfl (h.nonempty _ hb) fun x hx hm => ?_
    rw [blockFrames_one, Finset.mem_singleton] at hx
    rw [hx] at hm
    exact hnot (Tenant.block_subset hb hm)

/-- A run of two frames at frame 1, whose marks reach to the end of the word, and a single frame behind it. -/
theorem mixed_run_safe_two : ∃ t, MixedRun smallMachine t ∧ (1 * pageSize, 2) ∈ t.held ∧
    (32 * pageSize, 1) ∈ t.held ∧ BlocksApart (1 * pageSize, 2) (32 * pageSize, 1) := by
  have hrun : (kallocFrames smallPfa 2).1 = 1 * pageSize := by decide +kernel
  have hgrant : GrantsFree smallPfa 2 := by
    rw [GrantsFree, hrun]
    refine fun _ => ⟨by decide, fun k hlo hhi => ?_⟩
    obtain rfl | rfl : k = 1 ∨ k = 2 := by
      have : k < 1 + 2 := hhi
      have : 1 ≤ k := hlo
      omega
    · rfl
    · rfl
  have hpair : kallocFrames smallPfa 2 = (1 * pageSize, (kallocFrames smallPfa 2).2) := Prod.ext hrun rfl
  have hfirst : MixedStep smallMachine ⟨smallMachine, ∅⟩ _ := .allocRun (by decide) hgrant hpair
  rw [if_neg (by decide : ¬ 1 * pageSize = 0)] at hfirst
  have hframe : (kallocFrame { smallMachine with pfa := (kallocFrames smallPfa 2).2 }).map Prod.fst =
      some (32 * pageSize) := by decide +kernel
  obtain ⟨⟨a, s⟩, he, hs⟩ := Option.map_eq_some_iff.mp hframe
  dsimp only at hs
  subst hs
  have hsecond : MixedStep smallMachine ⟨{ smallMachine with pfa := (kallocFrames smallPfa 2).2 },
      insert (1 * pageSize, 2) ∅⟩ _ := .alloc he
  rw [if_neg (by decide : ¬ 32 * pageSize = 0)] at hsecond
  have hr := (Relation.ReflTransGen.refl.tail hfirst).tail hsecond
  obtain ⟨hapart, -⟩ := mixed_run_safe smallPfa_prepared rfl hr
  have hrun : (1 * pageSize, 2) ∈ insert (1 * pageSize, 2) (∅ : Finset (Nat × Nat)) := by decide
  exact ⟨_, hr, Finset.mem_insert_of_mem hrun, Finset.mem_insert_self _ _,
    hapart (Finset.mem_insert_of_mem hrun) (Finset.mem_insert_self _ _) (by decide)⟩

/-! The machine as `pfa_init` leaves it. -/

/-- The statics of `kalloc_frame` after `pfa_init`. -/
def bootAllocator (b : Boot) : Allocator := ⟨b.pfa, 1, 0, fun _ => 0⟩

/-- The memory map `pfa_init` is made for: usable entries are page-aligned and below 4 GiB, and one has
room for the bitmap. -/
structure LowMap (mmap : List MemmapEntry) : Prop where
  aligned : ∀ e ∈ mmap, e.type = .usable → e.base % pageSize = 0 ∧ e.length % pageSize = 0
  low : ∀ e ∈ mmap, e.type = .usable → e.base + e.length < 2 ^ 32
  room : ∃ e ∈ mmap, e.type = .usable ∧ bitmapSize mmap < e.length

/-- The frame lies in usable memory, and is neither frame 0 nor one of the bitmap's. -/
structure Spare (mmap : List MemmapEntry) (bmPaddr k : Nat) : Prop where
  usable : ∃ e ∈ mmap, e.type = .usable ∧ e.base ≤ pageSize * k ∧ pageSize * k + pageSize ≤ e.base + e.length
  ne_zero : k ≠ 0
  apart : pageSize * k + pageSize ≤ bmPaddr ∨ bmPaddr + bitmapSize mmap ≤ pageSize * k

section LowMap
variable {mmap : List MemmapEntry} {words : Row 32} {b : Boot}

/-- A bit that `pfa_init` leaves clear is a spare frame's. -/
theorem LowMap.spare (hm : LowMap mmap) (hb : pfaInit mmap words = some b) {k : Nat}
    (hk : k < 32 * b.pfa.wordCount) (hclear : bit b.pfa.bitmap k = false) : Spare mmap b.bmPaddr k := by
  obtain ⟨freed, hf, hfm⟩ := freeAvailableMemory_spec hm.aligned hm.low
  obtain ⟨e, he, hu, hlen, haddr⟩ := bitmapAddr_room hm.room
  obtain ⟨b', hb', hbm, -, -⟩ := pfaInit_eq words haddr hf
  obtain rfl : b = b' := Option.some.inj (hb.symm.trans hb')
  have hbase := (hm.aligned e he hu).1
  have hend := hm.low e he hu
  obtain ⟨hfreed, hnot⟩ := (pfaInit_bit hb hf hk).mp hclear
  obtain ⟨x, hx, hxu, hlo, hhi⟩ := (hfm k).mp hfreed
  rw [hbm, mem_reservedFrames mmap hbase (by omega), not_or] at hnot
  refine ⟨⟨x, hx, hxu, hlo, hhi.le⟩, hnot.1, ?_⟩
  rw [hbm]
  have := hnot.2
  unfold pageSize at *
  omega

/-- What `pfa_init` leaves is what `kalloc_frame` needs. -/
theorem LowMap.prepared (hm : LowMap mmap) (hb : pfaInit mmap words = some b) : b.pfa.Prepared := by
  obtain ⟨freed, hf, -⟩ := freeAvailableMemory_spec hm.aligned hm.low
  obtain ⟨e, he, hu, hlen, haddr⟩ := bitmapAddr_room hm.room
  obtain ⟨b', hb', -, hnp, -⟩ := pfaInit_eq words haddr hf
  obtain rfl : b = b' := Option.some.inj (hb.symm.trans hb')
  have hwords := b.pfa.wordCount_eq
  have hpages : 0 < b.pfa.npages := by
    obtain ⟨hbase, hmul⟩ := hm.aligned e he hu
    rw [hnp]
    refine Nat.zero_lt_of_lt (frame_lt_bootPages hm.low he hu (k := e.base / pageSize) ?_)
    unfold pageSize at *
    omega
  refine ⟨?_, fun k hlo hhi => ?_⟩
  · by_contra hset
    exact (hm.spare hb (k := 0) (by omega) (by simpa using hset)).ne_zero rfl
  · by_contra hset
    obtain ⟨x, hx, hxu, -, hend⟩ := (hm.spare hb hhi (by simpa using hset)).usable
    have := frame_lt_bootPages hm.low hx hxu hend
    omega

end LowMap

/-- From `pfa_init` on. Whatever the memory behind the bitmap holds, in every run of the calls under the same
conditions each held block lies in usable entries of the memory map, shares no byte with the bitmap and none with
another block. -/
theorem boot_mixed_run {mmap : List MemmapEntry} {words : Row 32} {b : Boot} (hm : LowMap mmap)
    (hb : pfaInit mmap words = some b) {t : Tenant} (hr : MixedRun (bootAllocator b) t) :
    (t.held : Set (Nat × Nat)).Pairwise BlocksApart ∧ ∀ block ∈ t.held, ∀ a ∈ blockFrames block,
      ∃ k, a = k * pageSize ∧ Spare mmap b.bmPaddr k := by
  have h := hr.apportioned (hm.prepared hb) rfl
  refine ⟨h.apart, fun block hblock a ha => ?_⟩
  obtain ⟨k, rfl, -, hlt, hclear, -⟩ := h.sound.held a (Tenant.block_subset hblock ha)
  have hwords := b.pfa.wordCount_eq
  have hlt' : k < b.pfa.npages := hlt
  exact ⟨k, rfl, hm.spare hb (by omega) hclear⟩

/-- One usable megabyte above the first. -/
def megabyteMap : List MemmapEntry := [⟨0, 0x9f000, .reserved⟩, ⟨0x100000, 0x100000, .usable⟩]

theorem megabyteMap_low : LowMap megabyteMap where
  aligned := by simp [megabyteMap, pageSize]
  low := by simp [megabyteMap]
  room := ⟨⟨0x100000, 0x100000, .usable⟩, by simp [megabyteMap], rfl, by decide +kernel⟩

theorem megabyteMap_first : ∃ b s, pfaInit megabyteMap (fun _ => 0#32) = some b ∧
    kallocFrame (bootAllocator b) = some (257 * pageSize, s) := by
  have hframe : (pfaInit megabyteMap fun _ => 0#32).bind
      (fun b => (kallocFrame (bootAllocator b)).map Prod.fst) = some (257 * pageSize) := by decide +kernel
  obtain ⟨b, hb, hframe⟩ := Option.bind_eq_some_iff.mp hframe
  obtain ⟨⟨a, s⟩, he, ha⟩ := Option.map_eq_some_iff.mp hframe
  dsimp only at ha
  subst ha
  exact ⟨b, s, hb, he⟩

theorem boot_mixed_run_megabyte : ∃ b t, pfaInit megabyteMap (fun _ => 0#32) = some b ∧
    MixedRun (bootAllocator b) t ∧ (257 * pageSize, 1) ∈ t.held ∧ Spare megabyteMap b.bmPaddr 257 := by
  obtain ⟨b, s, hb, he⟩ := megabyteMap_first
  have hstep : MixedStep (bootAllocator b) ⟨bootAllocator b, ∅⟩ _ := .alloc he
  rw [if_neg (by decide : ¬ 257 * pageSize = 0)] at hstep
  have hheld : (257 * pageSize, 1) ∈ insert (257 * pageSize, 1) (∅ : Finset (Nat × Nat)) :=
    Finset.mem_insert_self _ _
  obtain ⟨-, hspare⟩ := boot_mixed_run megabyteMap_low hb (Relation.ReflTransGen.refl.tail hstep)
  obtain ⟨k, hk, hspare⟩ := hspare _ hheld (257 * pageSize) (mem_blockFrames.mpr ⟨0, Nat.one_pos, by simp⟩)
  obtain rfl : 257 = k := Nat.eq_of_mul_eq_mul_right (by decide) hk
  exact ⟨b, _, hb, Relation.ReflTransGen.refl.tail hstep, hheld, hspare⟩

end NyaOS.Frames
