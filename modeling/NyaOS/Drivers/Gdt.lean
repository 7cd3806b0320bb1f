import Mathlib.Logic.Function.Basic
import Mathlib.Tactic.Common

/-! The global descriptor table of `gdt.c`. The descriptor of the task state segment takes two
entries, whose fields are named for the eight-byte layout. -/
namespace NyaOS.Drivers.Gdt

abbrev Byte := BitVec 8

/-- A packed `gdt_entry_t`. -/
structure GdtEntry where
  limitLo : BitVec 16
  baseLo : BitVec 16
  baseMid : Byte
  accessByte : Byte
  flags : Byte
  baseHi : Byte
deriving DecidableEq

abbrev Table := Fin 9 → GdtEntry

def roundUp (n align : Nat) : Nat := (n + align - 1) / align * align

/-- `sizeof` of a struct of fields of these sizes, each aligned to its size. -/
def sizeofStruct (fields : List Nat) : Nat :=
  roundUp (fields.foldl (fun offset size => roundUp offset size + size) 0) (fields.foldl max 1)

/-- The fields of `tss_entry_t`: `reserved`, the stack pointers and `reserved1`, the interrupt
stacks, `reserved2`, `reserved3` and `iopb`. -/
def tssFields : List Nat := [4] ++ List.replicate 4 8 ++ List.replicate 7 8 ++ [8, 1, 1]

def sizeofTss : Nat := sizeofStruct tssFields

example : sizeofTss = 112 := by decide

/-- The table and the bytes of `tss_entry`. -/
structure Segments where
  gdt : Table
  tss : List Byte

/-- A limit above `0xfffff` is only noted by the code; its high bits are dropped. -/
def encodeGDTEntry (gdt : Table) (i : Fin 9) (base : BitVec 64) (limit : BitVec 32)
    (access flags : Byte) : Table :=
  Function.update gdt i
    { baseLo := (base &&& 0xffff).setWidth 16
      baseMid := ((base >>> 16) &&& 0xff).setWidth 8
      baseHi := ((base >>> 24) &&& 0xff).setWidth 8
      limitLo := (limit &&& 0xffff).setWidth 16
      accessByte := access
      flags := ((limit >>> 16) &&& 0x0f).setWidth 8 ||| (flags <<< 4) }

/-- `base` is the address of `tss_entry`; the two entries are `idx` and `idx + 1`. -/
def writeTss (base : BitVec 64) (idx : Fin 8) (s : Segments) : Segments :=
  let gdt := encodeGDTEntry s.gdt idx.castSucc base (BitVec.ofNat 32 (sizeofTss - 1)) 0x89 0x0
  let gdt := Function.update gdt idx.succ
    { gdt idx.succ with
      baseLo := ((base >>> 32) &&& 0xffff).setWidth 16
      limitLo := ((base >>> 48) &&& 0xffff).setWidth 16 }
  { gdt, tss := List.replicate sizeofTss 0 }

/-- The table as `gdt_init` fills it, before it is loaded. -/
def gdtInit (base : BitVec 64) (s : Segments) : Segments :=
  let gdt := encodeGDTEntry s.gdt 0 0 0 0 0
  let gdt := encodeGDTEntry gdt 1 0 0xfffff 0x9a 0xc
  let gdt := encodeGDTEntry gdt 2 0 0xfffff 0x9a 0xa
  let gdt := encodeGDTEntry gdt 3 0 0xfffff 0x92 0xc
  let gdt := encodeGDTEntry gdt 4 0 0xfffff 0xfa 0xa
  let gdt := encodeGDTEntry gdt 5 0 0xfffff 0xf2 0xc
  let gdt := encodeGDTEntry gdt 6 0 0xfffff 0xfa 0xa
  writeTss base 7 { s with gdt }

/-! What the processor reads. -/

/-- The eight bytes of an entry in memory. -/
def GdtEntry.bytes (e : GdtEntry) : List Byte :=
  [e.limitLo.extractLsb' 0 8, e.limitLo.extractLsb' 8 8, e.baseLo.extractLsb' 0 8,
    e.baseLo.extractLsb' 8 8, e.baseMid, e.accessByte, e.flags, e.baseHi]

/-- A `lm_sysseg_desc_t`. -/
structure LmSyssegDesc where
  limitLo : BitVec 16
  baseLo : BitVec 16
  baseMid : Byte
  accessByte : Byte
  flags : Byte
  baseHi : Byte
  baseLast : BitVec 32
  reserved : BitVec 32
deriving DecidableEq

/-- The descriptor in sixteen bytes, its fields little-endian. -/
def LmSyssegDesc.ofBytes (b : List Byte) : LmSyssegDesc :=
  { limitLo := b.getD 1 0 ++ b.getD 0 0
    baseLo := b.getD 3 0 ++ b.getD 2 0
    baseMid := b.getD 4 0
    accessByte := b.getD 5 0
    flags := b.getD 6 0
    baseHi := b.getD 7 0
    baseLast := b.getD 11 0 ++ b.getD 10 0 ++ (b.getD 9 0 ++ b.getD 8 0)
    reserved := b.getD 15 0 ++ b.getD 14 0 ++ b.getD 13 0 ++ b.getD 12 0 }

def LmSyssegDesc.base (d : LmSyssegDesc) : BitVec 64 :=
  d.baseLast ++ d.baseHi ++ d.baseMid ++ d.baseLo

def LmSyssegDesc.limit (d : LmSyssegDesc) : BitVec 20 := d.flags.extractLsb' 0 4 ++ d.limitLo

/-- The descriptor that starts at entry `idx`. -/
def descriptor (gdt : Table) (idx : Fin 8) : LmSyssegDesc :=
  .ofBytes ((gdt idx.castSucc).bytes ++ (gdt idx.succ).bytes)

def zeroEntry : GdtEntry := ⟨0, 0, 0, 0, 0, 0⟩

/-- The static table before `gdt_init`. -/
def zeroSegments : Segments := ⟨fun _ => zeroEntry, List.replicate sizeofTss 0⟩

/-- The entries `idx` and `idx + 1` are read as a descriptor of the task state segment at `addr`, and
no other entry has changed. -/
structure RoundTrips (addr : BitVec 64) (idx : Fin 8) (before after : Table) : Prop where
  base : (descriptor after idx).base = addr
  limit : (descriptor after idx).limit = BitVec.ofNat 20 (sizeofTss - 1)
  access : (descriptor after idx).accessByte = 0x89
  reserved : (descriptor after idx).reserved = 0
  frame : ∀ j, j ≠ idx.castSucc → j ≠ idx.succ → after j = before j

section Bits
variable {n k w : Nat} (x : BitVec n)

/-- Shift, mask and narrowing cut out a field. -/
theorem field_eq (mask : BitVec n) (hmask : ∀ i < w, mask.getLsbD i = true) :
    ((x >>> k) &&& mask).setWidth w = x.extractLsb' k w := by
  apply BitVec.eq_of_getLsbD_eq
  intro i hi
  by_cases hn : i < n
  · simp [hi, hmask i hi]
  · simp [hi, hmask i hi]

theorem append_inj {m : Nat} {a a' : BitVec m} {b b' : BitVec n} :
    a ++ b = a' ++ b' ↔ a = a' ∧ b = b' := by
  constructor
  · intro h
    have hlow := congrArg (BitVec.extractLsb' 0 n) h
    have hhigh := congrArg (BitVec.extractLsb' n m) h
    rw [BitVec.extractLsb'_append_eq_of_add_le (by omega), BitVec.extractLsb'_append_eq_of_add_le (by omega)]
      at hlow
    rw [BitVec.extractLsb'_append_eq_of_le (Nat.le_refl n), BitVec.extractLsb'_append_eq_of_le (Nat.le_refl n),
      Nat.sub_self, BitVec.extractLsb'_eq_self, BitVec.extractLsb'_eq_self] at hhigh
    rw [BitVec.extractLsb'_eq_self, BitVec.extractLsb'_eq_self] at hlow
    exact ⟨hhigh, hlow⟩
  · rintro ⟨rfl, rfl⟩
    rfl

end Bits

theorem halves (x : BitVec 16) : (x.extractLsb' 8 8 ++ x.extractLsb' 0 8 : BitVec 16) = x :=
  (BitVec.extractLsb'_append_extractLsb'_eq_extractLsb' rfl).trans BitVec.extractLsb'_eq_self

/-- The fields of the second entry are read as the end of the descriptor. -/
theorem ofBytes_entries (lo hi : GdtEntry) : LmSyssegDesc.ofBytes (lo.bytes ++ hi.bytes) =
    { limitLo := lo.limitLo, baseLo := lo.baseLo, baseMid := lo.baseMid, accessByte := lo.accessByte
      flags := lo.flags, baseHi := lo.baseHi, baseLast := hi.baseLo ++ hi.limitLo
      reserved := hi.baseHi ++ hi.flags ++ hi.accessByte ++ hi.baseMid } := by
  have hlast : (hi.baseLo.extractLsb' 8 8 ++ hi.baseLo.extractLsb' 0 8 ++
      (hi.limitLo.extractLsb' 8 8 ++ hi.limitLo.extractLsb' 0 8) : BitVec 32) =
      hi.baseLo ++ hi.limitLo := congrArg₂ BitVec.append (halves hi.baseLo) (halves hi.limitLo)
  simp only [LmSyssegDesc.ofBytes, GdtEntry.bytes, List.cons_append, List.nil_append,
    List.getD_cons_zero, List.getD_cons_succ]
  rw [halves, halves, hlast]

/-- The pieces of an address, in their order. -/
theorem address_eq (addr : BitVec 64) :
    (addr.extractLsb' 48 16 ++ addr.extractLsb' 32 16 ++ addr.extractLsb' 24 8 ++
      addr.extractLsb' 16 8 ++ addr.extractLsb' 0 16 : BitVec 64) = addr := by
  rw [show addr.extractLsb' 48 16 ++ addr.extractLsb' 32 16 = addr.extractLsb' 32 32 from
      BitVec.extractLsb'_append_extractLsb'_eq_extractLsb' rfl,
    show addr.extractLsb' 32 32 ++ addr.extractLsb' 24 8 = addr.extractLsb' 24 40 from
      BitVec.extractLsb'_append_extractLsb'_eq_extractLsb' rfl,
    show addr.extractLsb' 24 40 ++ addr.extractLsb' 16 8 = addr.extractLsb' 16 48 from
      BitVec.extractLsb'_append_extractLsb'_eq_extractLsb' rfl]
  exact (BitVec.extractLsb'_append_extractLsb'_eq_extractLsb' rfl).trans BitVec.extractLsb'_eq_self

/-- The upper half-words are laid down in the wrong order. -/
theorem descriptor_writeTss (addr : BitVec 64) (idx : Fin 8) (s : Segments)
    (h : s.gdt idx.succ = zeroEntry) : descriptor (writeTss addr idx s).gdt idx =
      { limitLo := BitVec.ofNat 16 (sizeofTss - 1), baseLo := addr.extractLsb' 0 16
        baseMid := addr.extractLsb' 16 8, accessByte := 0x89, flags := 0
        baseHi := addr.extractLsb' 24 8
        baseLast := addr.extractLsb' 32 16 ++ addr.extractLsb' 48 16, reserved := 0 } := by
  have hne : idx.castSucc ≠ idx.succ :=
    fun he => absurd (congrArg Fin.val he) (Nat.ne_of_lt (Nat.lt_succ_self _))
  have hlow : (addr &&& 0xffff).setWidth 16 = addr.extractLsb' 0 16 := by
    have hfield := field_eq (k := 0) (w := 16) addr 0xffff (by decide)
    rwa [BitVec.ushiftRight_zero] at hfield
  rw [descriptor, ofBytes_entries]
  simp only [writeTss, encodeGDTEntry, Function.update_self, Function.update_of_ne hne,
    Function.update_of_ne hne.symm, h, hlow, field_eq (w := 8) addr 0xff (by decide),
    field_eq (w := 16) addr 0xffff (by decide), zeroEntry]
  rfl

/-- The base is read back exactly from the addresses whose upper two half-words are equal, as they
are at the top of the address space. -/
theorem descriptor_base_iff (addr : BitVec 64) (idx : Fin 8) (s : Segments)
    (h : s.gdt idx.succ = zeroEntry) : (descriptor (writeTss addr idx s).gdt idx).base = addr ↔
      addr.extractLsb' 32 16 = addr.extractLsb' 48 16 := by
  rw [descriptor_writeTss addr idx s h, LmSyssegDesc.base]
  conv_lhs => rhs; rw [← address_eq addr]
  rw [append_inj, append_inj, append_inj, append_inj]
  simp [eq_comm]

/-- What `write_tss` lays down over a zeroed table is a descriptor of the task state segment at
`addr` exactly if bits 32 to 47 of the address equal bits 48 to 63. -/
theorem roundTrips_iff (addr : BitVec 64) (idx : Fin 8) :
    RoundTrips addr idx zeroSegments.gdt (writeTss addr idx zeroSegments).gdt ↔
      addr.extractLsb' 32 16 = addr.extractLsb' 48 16 := by
  have hdesc := descriptor_writeTss addr idx zeroSegments rfl
  have hbase := descriptor_base_iff addr idx zeroSegments rfl
  constructor
  · exact fun hround => hbase.mp hround.base
  · intro hhalves
    refine ⟨hbase.mpr hhalves, ?_, by rw [hdesc], by rw [hdesc], fun j hlo hhi => ?_⟩
    · rw [hdesc]
      change (BitVec.extractLsb' 0 4 (0 : Byte) ++ BitVec.ofNat 16 (sizeofTss - 1) : BitVec 20) = _
      decide
    · simp only [writeTss, encodeGDTEntry, Function.update_of_ne hlo, Function.update_of_ne hhi]

/-- An address in the direct map is read back with its upper half-words exchanged. -/
theorem directMap_exchanged : ¬ RoundTrips 0xffff800000100000 7 zeroSegments.gdt
    (writeTss 0xffff800000100000 7 zeroSegments).gdt := by
  intro h
  exact absurd h.base (by decide)

/-- The same holds of the table that `gdt_init` loads. -/
theorem gdtInit_base_iff (addr : BitVec 64) :
    (descriptor (gdtInit addr zeroSegments).gdt 7).base = addr ↔
      addr.extractLsb' 32 16 = addr.extractLsb' 48 16 :=
  descriptor_base_iff addr 7 _ rfl

end NyaOS.Drivers.Gdt
