import NyaOS.Slab.Grow

/-! `kmem_cache_grow` on a large-object cache: the buffers have frames of their own, and a second
call takes the frame of the header and its bufctls. -/
namespace NyaOS.Slab
open Library.ByteMemory
open Frames (pageSize)

/-- The frames of a large slab's buffers, and how many buffers they hold. -/
def largeFrames (size : Nat) : Nat := (size * 8 + pageSize - 1) / pageSize
def largeCount (size : Nat) : Nat := largeFrames size * pageSize / size

theorem largeCount_bounds {size : Nat} (h : 512 < size) : 8 ≤ largeCount size ∧ largeCount size ≤ 15 := by
  have hframes : size * 8 ≤ largeFrames size * 4096 ∧ largeFrames size * 4096 < size * 8 + 4096 := by
    unfold largeFrames pageSize
    omega
  constructor
  · exact (Nat.le_div_iff_mul_le (by omega)).mpr (show 8 * size ≤ largeFrames size * 4096 by omega)
  · exact Nat.lt_succ_iff.mp (Nat.div_lt_of_lt_mul
      (show largeFrames size * 4096 < size * 16 by omega))

/-- A bufctl: its buffer, its slab, and the bufctl after it. -/
structure BufctlOk (m : Mem) (slab pstart size n j : Nat) : Prop where
  buf : load m (slab + 48 + j * 24) 8 = pstart + j * size
  back : load m (slab + 48 + j * 24 + 8) 8 = slab
  next : load m (slab + 48 + j * 24 + 16) 8 = if j + 1 < n then slab + 48 + (j + 1) * 24 else 0

theorem BufctlOk.congr {m m' : Mem} {slab pstart size n j : Nat} (h : BufctlOk m slab pstart size n j)
    (hsame : ∀ x, slab + 48 + j * 24 ≤ x → x < slab + 48 + (j + 1) * 24 → m' x = m x) :
    BufctlOk m' slab pstart size n j := by
  rw [Nat.succ_mul] at hsame
  exact ⟨by rw [load_congr fun x _ _ => hsame x (by omega) (by omega), h.buf],
    by rw [load_congr fun x _ _ => hsame x (by omega) (by omega), h.back],
    by rw [load_congr fun x _ _ => hsame x (by omega) (by omega), h.next]⟩

section Thread
variable (calls : List FrameCall) {cache slab pstart size n : Nat}

private theorem linkBufctl_run (m : Mem) {buf i : Nat} (hs : slab ≠ 0) (hb : slab + 48 ≤ buf)
    (hbuf : buf + 24 < 2 ^ 64) (hn : intAt m (slab + 44) = n) :
    ∃ m', linkBufctl slab buf i ⟨m, calls⟩ = some ((), ⟨m', calls⟩) ∧
      OnlyIn (fun x => buf + 16 ≤ x ∧ x < buf + 24) m m' ∧
      load m' (buf + 16) 8 = if i + 1 < n then buf + 24 else 0 := by
  have hb₀ : buf ≠ 0 := by omega
  have honly : OnlyIn (fun x => buf + 16 ≤ x ∧ x < buf + 24) m (store m (buf + 16) 8 0) :=
    onlyIn_store _ fun x _ _ => by omega
  have hn' : intAt (store m (buf + 16) 8 0) (slab + 44) = n := by
    rw [intAt_congr fun x _ _ => honly x (by omega), hn]
  rw [linkBufctl, bind_run (write_run hb₀), bind_run (readInt_eq hs hn'), ite_run]
  by_cases hlast : i + 1 < n
  · rw [if_pos (by omega), write_run hb₀, if_pos hlast]
    exact ⟨_, rfl, honly.trans (onlyIn_store _ fun x hlo hhi => ⟨hlo, hhi⟩),
      load_store _ _ (by omega)⟩
  · rw [if_neg (by omega), if_neg hlast]
    exact ⟨_, rfl, honly, load_store _ _ (by omega)⟩

/-- The loop fills in the bufctls from `i` on. -/
theorem threadBufctls_run (hc : cache ≠ 0) (hs : slab ≠ 0) (hslab : slab + 48 + n * 24 < 2 ^ 64)
    (hapart : cache + 64 ≤ slab + 48 ∨ slab + 48 + n * 24 ≤ cache + 56)
    (hbufs : pstart + n * size ≤ 2 ^ 64) (hpos : 0 < size) (fuel i : Nat) (m : Mem)
    (hfuel : n < i + fuel) (hi : i ≤ n) (hn : intAt m (slab + 44) = n)
    (hsize : load m (cache + 56) 8 = size) :
    ∃ m', threadBufctls cache slab (slab + 48) pstart fuel i ⟨m, calls⟩ = some ((), ⟨m', calls⟩) ∧
      OnlyIn (fun x => slab + 48 + i * 24 ≤ x ∧ x < slab + 48 + n * 24) m m' ∧
      ∀ j, i ≤ j → j < n → BufctlOk m' slab pstart size n j := by
  induction fuel generalizing i m with
  | zero => omega
  | succ fuel ih =>
    rw [threadBufctls, bind_run (readInt_eq hs hn)]
    by_cases hlt : i < n
    · rw [if_pos (by omega)]
      let buf := slab + 48 + i * 24
      have hb : slab + 48 ≤ buf ∧ buf + 24 ≤ slab + 48 + n * 24 := by
        have := Nat.mul_le_mul_right 24 hlt
        omega
      have hb₀ : buf ≠ 0 := by omega
      have hval : pstart + i * size < 2 ^ 64 := by
        have := Nat.mul_le_mul_right size hlt
        rw [Nat.succ_mul] at this
        omega
      let m₁ := store m (buf + 0) 8 (pstart + i * size)
      have hn₁ : intAt m₁ (slab + 44) = n := by
        rw [intAt_congr fun x _ _ => store_off _ _ _ _ (by omega), hn]
      obtain ⟨m₂, hrun₂, honly₂, hnext₂⟩ := linkBufctl_run calls m₁ (i := i) hs hb.1 (by omega) hn₁
      let m₃ := store m₂ (buf + 8) 8 slab
      have honly : OnlyIn (fun x => buf ≤ x ∧ x < buf + 24) m m₃ :=
        ((onlyIn_store _ fun x _ _ => by omega).trans (honly₂.mono fun x _ => by omega)).trans
          (onlyIn_store _ fun x _ _ => by omega)
      have hbufctl : BufctlOk m₃ slab pstart size n i := by
        refine ⟨?_, load_store _ _ (by omega), ?_⟩
        · rw [load_store_off _ _ _ _ (by omega), honly₂.load fun x _ _ => by omega]
          exact load_store _ _ (by omega)
        · rw [load_store_off _ _ _ _ (by omega), hnext₂, Nat.succ_mul, Nat.add_assoc (slab + 48)]
      obtain ⟨m', hrun, honly', hrest⟩ := ih (i + 1) m₃ (by omega) hlt
        (by rw [intAt_congr fun x _ _ => honly x (by omega), hn])
        (by rw [honly.load fun x _ _ => by omega, hsize])
      refine ⟨m', ?_, ?_, ?_⟩
      · rw [bind_run (read_eq hc hsize), bind_run (write_run hb₀), bind_run hrun₂,
          bind_run (write_run hb₀)]
        exact hrun
      · exact (honly.mono fun x _ => by omega).trans (honly'.mono fun x _ => by omega)
      · intro j hij hj
        rcases Nat.eq_or_lt_of_le hij with rfl | hij
        · exact hbufctl.congr fun x _ _ => honly' x (by omega)
        · exact hrest j hij hj
    · rw [if_neg (by omega)]
      exact ⟨m, rfl, fun x _ => rfl, fun j _ _ => by omega⟩

end Thread

section Grow
variable {k : Machine} {m : Mem} (calls : List FrameCall) {cache size slab pstart : Nat}

/-- A new large slab: two calls for frames; only its header and bufctls are written, and the
bufctls list its buffers. -/
theorem growLarge_run (hc : cache ≠ 0) (hsize : load m (cache + 56) 8 = size) (hlarge : 512 < size)
    (hp : k.physToVirt (k.kalloc calls.length) = pstart)
    (hs : k.physToVirt (k.kalloc (calls.length + 1)) = slab) (hs₀ : slab ≠ 0)
    (hslab : slab + 4096 ≤ 2 ^ 64) (hbufs : pstart + largeCount size * size ≤ 2 ^ 64)
    (hapart : cache + 64 ≤ slab ∨ slab + 4096 ≤ cache + 56) :
    ∃ m', growLarge k cache ⟨m, calls⟩ = some (slab, ⟨m',
        .alloc (k.kalloc (calls.length + 1)) 1 ::
          .alloc (k.kalloc calls.length) (largeFrames size) :: calls⟩) ∧
      OnlyIn (fun x => slab ≤ x ∧ x < slab + 4096) m m' ∧
      intAt m' (slab + 40) = 0 ∧ intAt m' (slab + 44) = largeCount size ∧
      load m' (slab + 24) 8 = slab + 48 ∧ load m' (slab + 32) 8 = pstart ∧
      ∀ j < largeCount size, BufctlOk m' slab pstart size (largeCount size) j := by
  have hcount := largeCount_bounds hlarge
  let calls' := FrameCall.alloc (k.kalloc (calls.length + 1)) 1 ::
    .alloc (k.kalloc calls.length) (largeFrames size) :: calls
  obtain ⟨m₁, hrun₁, honly₁, hrefs₁, hfree₁, hstart₁⟩ := initSlab_run calls' m pstart hs₀
    (show slab + 48 < 2 ^ 64 by omega)
  let m₂ := store m₁ (slab + 44) 4 (BitVec.ofInt 32 (largeCount size)).toNat
  have honly₂ : OnlyIn (fun x => slab ≤ x ∧ x < slab + 48) m m₂ :=
    (honly₁.mono fun x _ => by omega).trans (onlyIn_store _ fun x _ _ => by omega)
  have hcnt₂ : intAt m₂ (slab + 44) = largeCount size := intAt_store _ _ (by omega) (by omega)
  have hsize₂ : load m₂ (cache + 56) 8 = size := by
    rw [honly₂.load fun x _ _ => by omega, hsize]
  obtain ⟨m₃, hrun₃, honly₃, hbufctls⟩ := threadBufctls_run calls' hc hs₀
    (show slab + 48 + largeCount size * 24 < 2 ^ 64 by omega) (by omega) hbufs (by omega) (2 ^ 32) 0
    m₂ (by omega) (by omega) hcnt₂ hsize₂
  refine ⟨m₃, ?_, ?_, ?_, ?_, ?_, ?_, fun j hj => hbufctls j (Nat.zero_le j) hj⟩
  · have hslabFrames : (KmemSlab.size + largeCount size * KmemBufctl.size + pageSize - 1) / pageSize = 1 := by
      unfold KmemSlab.size KmemBufctl.size pageSize
      omega
    rw [growLarge, bind_run (read_eq hc hsize), bind_run (kallocFrames_run ..),
      bind_run (read_eq hc hsize)]
    change (k.kallocFrames ((KmemSlab.size + largeCount size * KmemBufctl.size + pageSize - 1) /
      pageSize) >>= _) ⟨m, .alloc (k.kalloc calls.length) (largeFrames size) :: calls⟩ = _
    rw [hslabFrames, bind_run (kallocFrames_run ..)]
    simp only [List.length_cons, hs, hp]
    rw [bind_run hrun₁, bind_run (writeInt_run hs₀)]
    change (threadBufctls cache slab (slab + 48) pstart (2 ^ 32) 0 >>= _) ⟨m₂, calls'⟩ = _
    rw [bind_run hrun₃]
    rfl
  · exact (honly₂.mono fun x _ => by omega).trans (honly₃.mono fun x _ => by omega)
  · rw [intAt_congr fun x _ _ => honly₃ x (by omega),
      intAt_congr fun x _ _ => store_off _ _ _ _ (by omega), hrefs₁]
  · rw [intAt_congr fun x _ _ => honly₃ x (by omega), hcnt₂]
  · rw [honly₃.load fun x _ _ => by omega, load_store_off _ _ _ _ (by omega), hfree₁]
  · have hmul : 8 * 512 ≤ largeCount size * size := Nat.mul_le_mul hcount.1 (by omega)
    rw [honly₃.load fun x _ _ => by omega, load_store_off _ _ _ _ (by omega), hstart₁ (by omega)]

end Grow

end NyaOS.Slab
