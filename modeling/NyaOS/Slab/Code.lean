import Mathlib.Control.Monad.Basic
import NyaOS.Frames.Bitmap
import NyaOS.Library.ByteMemory

/-! The slab layer of `slab.c` over byte memory. A pointer is its virtual address; reading or
writing through a null pointer, dividing by zero and a loop that never ends have no result. -/
namespace NyaOS.Slab
open Library.ByteMemory
open Frames (pageSize)

/-- A call to the page frame allocator: the first frame's physical address and the count. -/
inductive FrameCall
  | alloc (a n : Nat)
  | free (a n : Nat)

/-- Memory, and the frame calls made so far, latest first. -/
structure World where
  mem : Mem
  calls : List FrameCall

abbrev Kernel := StateT World Option

/-- What the layer runs on: the page-aligned offset of the direct map, and the results of the
frame calls by the number of calls made before. -/
structure Machine where
  offset : Nat
  kalloc : Nat → Nat
  offset_lt : offset < 2 ^ 64
  offset_aligned : offset % 4096 = 0

def Machine.physToVirt (k : Machine) (paddr : Nat) : Nat := (paddr + k.offset) % 2 ^ 64
def Machine.virtToPhys (k : Machine) (vaddr : Nat) : Nat := (vaddr + (2 ^ 64 - k.offset)) % 2 ^ 64

def Machine.kallocFrames (k : Machine) (n : Nat) : Kernel Nat := fun w =>
  some (k.kalloc w.calls.length, { w with calls := .alloc (k.kalloc w.calls.length) n :: w.calls })

def Machine.kallocFrame (k : Machine) : Kernel Nat := k.kallocFrames 1

def kfreeFrames (a n : Nat) : Kernel Unit := fun w => some ((), { w with calls := .free a n :: w.calls })

def kfreeFrame (a : Nat) : Kernel Unit := kfreeFrames a 1

/-- `p->field` for an eight-byte field at offset `off`. -/
def read (p off : Nat) : Kernel Nat := fun w =>
  if p = 0 then none else some (load w.mem (p + off) 8, w)

def write (p off v : Nat) : Kernel Unit := fun w =>
  if p = 0 then none else some ((), { w with mem := store w.mem (p + off) 8 v })

/-- An `int` field. -/
def intAt (m : Mem) (a : Nat) : Int := (BitVec.ofNat 32 (load m a 4)).toInt

def readInt (p off : Nat) : Kernel Int := fun w =>
  if p = 0 then none else some (intAt w.mem (p + off), w)

def writeInt (p off : Nat) (v : Int) : Kernel Unit := fun w =>
  if p = 0 then none else
    some ((), { w with mem := store w.mem (p + off) 4 (BitVec.ofInt 32 v).toNat })

def memset (p n : Nat) : Kernel Unit := fun w =>
  if p = 0 then none else some ((), { w with mem := store w.mem p n 0 })

/-! The layout of the structures of `slab.h`. -/

namespace KmemSlab
abbrev prev : Nat := 0
abbrev next : Nat := 8
abbrev freelist : Nat := 24
abbrev pstart : Nat := 32
abbrev refs : Nat := 40
abbrev bufCnt : Nat := 44
abbrev size : Nat := 48
end KmemSlab

namespace KmemBufctl
abbrev buf : Nat := 0
abbrev back : Nat := 8
abbrev next : Nat := 16
abbrev size : Nat := 24
end KmemBufctl

namespace HashVal
abbrev val : Nat := 0
abbrev key : Nat := 8
abbrev state : Nat := 16
abbrev size : Nat := 24
abbrev empty : Int := 0
abbrev full : Int := 2
end HashVal

namespace KmemCache
abbrev buckets : Nat := 0
abbrev htSize : Nat := 8
abbrev capacity : Nat := 16
abbrev head : Nat := 24
abbrev tail : Nat := 32
abbrev flPtr : Nat := 40
abbrev name : Nat := 48
abbrev size : Nat := 56
abbrev align : Nat := 64
abbrev hslab : Nat := 72
abbrev tslab : Nat := 120
abbrev sizeof : Nat := 168
end KmemCache

def smallObjSize : Nat := 512

/-- Insert the slab before `it`. -/
def insertSlab (it slab : Nat) : Kernel Unit := do
  write (← read it KmemSlab.prev) KmemSlab.next slab
  write slab KmemSlab.prev (← read it KmemSlab.prev)
  write it KmemSlab.prev slab
  write slab KmemSlab.next it

def appendSlab (cache slab : Nat) : Kernel Unit := do
  insertSlab (← read cache KmemCache.tail) slab
  if (← read cache KmemCache.flPtr) = (← read cache KmemCache.tail) then
    write cache KmemCache.flPtr slab

def rmSlab (slab : Nat) : Kernel Unit := do
  write (← read slab KmemSlab.prev) KmemSlab.next (← read slab KmemSlab.next)
  write (← read slab KmemSlab.next) KmemSlab.prev (← read slab KmemSlab.prev)
  write slab KmemSlab.next 0
  write slab KmemSlab.prev 0

/-- The loop that threads the free list of a small slab; it returns the `p` it stops at. -/
def threadBuffers (cache slab eff : Nat) : Nat → Nat → Kernel Nat
  | 0, _ => failure
  | fuel + 1, p => do
    if p + eff < slab then
      write p (← read cache KmemCache.size) (p + eff)
      threadBuffers cache slab eff fuel (p + eff)
    else pure p

/-- `buf->next`: the following bufctl, except for the last one. -/
def linkBufctl (slab buf i : Nat) : Kernel Unit := do
  write buf KmemBufctl.next 0
  if (i : Int) < (← readInt slab KmemSlab.bufCnt) - 1 then
    write buf KmemBufctl.next (buf + KmemBufctl.size)

/-- The loop that fills in the bufctls of a large slab. -/
def threadBufctls (cache slab bufStart pstart : Nat) : Nat → Nat → Kernel Unit
  | 0, _ => failure
  | fuel + 1, i => do
    if (i : Int) < (← readInt slab KmemSlab.bufCnt) then
      let buf := bufStart + i * KmemBufctl.size
      write buf KmemBufctl.buf (pstart + i * (← read cache KmemCache.size))
      linkBufctl slab buf i
      write buf KmemBufctl.back slab
      threadBufctls cache slab bufStart pstart fuel (i + 1)

/-- A new slab's header, up to its free list. -/
def initSlab (slab freelist pstart : Nat) : Kernel Unit := do
  write slab KmemSlab.prev 0
  write slab KmemSlab.next 0
  writeInt slab KmemSlab.refs 0
  write slab KmemSlab.freelist freelist
  write slab KmemSlab.pstart pstart

section Code
variable (k : Machine)

/-- The slab of a small-object cache: one frame with the header at its end. -/
def growSmall (cache : Nat) : Kernel Nat := do
  let pstart := k.physToVirt (← k.kallocFrame)
  let slab := (pstart + pageSize - KmemSlab.size) / 8 * 8
  initSlab slab pstart pstart
  let eff := (← read cache KmemCache.size) + KmemBufctl.size
  writeInt slab KmemSlab.bufCnt ((pageSize - KmemSlab.size) / eff : Nat)
  let p ← threadBuffers cache slab eff pageSize pstart
  write (p - 8) 0 0
  pure slab

/-- The slab of a large-object cache: the buffers in frames of their own. `size * 8.0` is exact
for the sizes in use. -/
def growLarge (cache : Nat) : Kernel Nat := do
  let bytes := (← read cache KmemCache.size) * 8
  let frames := (bytes + pageSize - 1) / pageSize
  let pstart := k.physToVirt (← k.kallocFrames frames)
  let buffers := frames * pageSize / (← read cache KmemCache.size)
  let slabFrames := (KmemSlab.size + buffers * KmemBufctl.size + pageSize - 1) / pageSize
  let slab := k.physToVirt (← k.kallocFrames slabFrames)
  let bufStart := slab + KmemSlab.size
  initSlab slab bufStart pstart
  writeInt slab KmemSlab.bufCnt buffers
  threadBufctls cache slab bufStart pstart (2 ^ 32) 0
  pure slab

def kmemCacheGrow (cache : Nat) : Kernel Unit := do
  if (← read cache KmemCache.size) ≤ smallObjSize then
    appendSlab cache (← growSmall k cache)
  else
    appendSlab cache (← growLarge k cache)

/-- `if (++(slab->refs) >= slab->buf_cnt) cache->fl_ptr = cache->fl_ptr->next`. -/
def takeRef (cache slab : Nat) : Kernel Unit := do
  writeInt slab KmemSlab.refs ((← readInt slab KmemSlab.refs) + 1)
  if (← readInt slab KmemSlab.refs) ≥ (← readInt slab KmemSlab.bufCnt) then
    write cache KmemCache.flPtr (← read (← read cache KmemCache.flPtr) KmemSlab.next)

/-- The two tests before `kmem_cache_alloc` takes a buffer. -/
def growIfNone (cache : Nat) : Kernel Unit := do
  let fl ← read cache KmemCache.flPtr
  if fl = 0 ∨ fl = (← read cache KmemCache.tail) then
    kmemCacheGrow k cache

def growIfFull (cache : Nat) : Kernel Unit := do
  let fl ← read cache KmemCache.flPtr
  if (← readInt fl KmemSlab.refs) = (← readInt fl KmemSlab.bufCnt) then
    kmemCacheGrow k cache

/-- Take the first buffer of `fl_ptr`'s free list. -/
def takeBuffer (cache : Nat) : Kernel Nat := do
  let slab ← read cache KmemCache.flPtr
  if (← read cache KmemCache.size) ≤ smallObjSize then
    let res ← read slab KmemSlab.freelist
    write slab KmemSlab.freelist (← read res (← read cache KmemCache.size))
    write res (← read cache KmemCache.size) 0xDEADBEEF
    takeRef cache slab
    pure res
  else
    let bufctl ← read slab KmemSlab.freelist
    write slab KmemSlab.freelist (← read bufctl KmemBufctl.next)
    write bufctl KmemBufctl.next 0xDEADBEEF
    takeRef cache slab
    read bufctl KmemBufctl.buf

def kmemCacheAlloc (cache : Nat) : Kernel Nat := do
  growIfNone k cache
  growIfFull k cache
  takeBuffer cache

/-- `hash`: the size is an `int`, widened back to 64 bits. -/
def hash (key sz : Nat) : Kernel Nat :=
  let sz := ((BitVec.ofNat 32 sz).signExtend 64).toNat
  if sz = 0 then failure else pure (key % sz)

def hashBuf (ht bufAddr : Nat) : Kernel Nat := do
  hash bufAddr (← read ht KmemCache.capacity)

/-- The probe loop of `ht_get`; after as many turns as there are buckets it repeats itself. -/
def htProbe (ht key : Nat) : Nat → Nat → Kernel Nat
  | 0, _ => failure
  | fuel + 1, i => do
    let bucket := (← read ht KmemCache.buckets) + i * HashVal.size
    let state ← readInt bucket HashVal.state
    if state ≠ HashVal.full ∨ (← read bucket HashVal.key) ≠ key then
      if state = HashVal.empty then pure 0
      else
        let capacity ← read ht KmemCache.capacity
        if capacity = 0 then failure
        else htProbe ht key fuel ((i + 1) % capacity)
    else read bucket HashVal.val

def htGet (ht key : Nat) : Kernel Nat := do
  let i ← hashBuf ht key
  htProbe ht key ((← read ht KmemCache.capacity) + 1) i

/-- `ht_init` into the table at `ht`: one zeroed page of buckets. -/
def htInit (ht : Nat) : Kernel Unit := do
  let buckets := k.physToVirt (← k.kallocFrame)
  memset buckets pageSize
  write ht KmemCache.buckets buckets
  write ht KmemCache.htSize 0
  write ht KmemCache.capacity (pageSize / HashVal.size)

/-- `_free_large_slab`; `buf_cnt` is widened to `size_t`. -/
def freeLargeSlab (cache slab : Nat) : Kernel Unit := do
  let bufCnt := ((← readInt slab KmemSlab.bufCnt) % 2 ^ 64).toNat
  let frames := (KmemSlab.size + bufCnt * KmemBufctl.size) / pageSize
  let pageAddr := (← read slab KmemSlab.pstart) / pageSize * pageSize
  let bufFrames := (bufCnt * (← read cache KmemCache.size) + pageSize - 1) / pageSize
  kfreeFrames (k.virtToPhys pageAddr) bufFrames
  kfreeFrames (k.virtToPhys slab) frames

/-- The first loop of `kmem_cache_reap`: past the slabs in use. A list has fewer nodes than there
are addresses, so a walk longer than `fuel = 2 ^ 64` would never end. -/
def reapSkip (cache : Nat) : Nat → Nat → Kernel Nat
  | 0, _ => failure
  | fuel + 1, tmp => do
    if tmp = 0 then pure tmp
    else if tmp = (← read cache KmemCache.tail) then pure tmp
    else if (← readInt tmp KmemSlab.refs) > 0 then
      reapSkip cache fuel (← read tmp KmemSlab.next)
    else pure tmp

/-- The loops that release every slab from `tmp` on. -/
def reapFrom (cache : Nat) (release : Nat → Kernel Unit) : Nat → Nat → Kernel Unit
  | 0, _ => failure
  | fuel + 1, tmp => do
    if tmp = 0 then pure ()
    else if tmp = (← read cache KmemCache.tail) then pure ()
    else
      let next ← read tmp KmemSlab.next
      release tmp
      reapFrom cache release fuel next

/-- Free all unused slabs. -/
def kmemCacheReap (cache : Nat) : Kernel Unit := do
  let tmp ← reapSkip cache (2 ^ 64) (← read cache KmemCache.flPtr)
  if (← read cache KmemCache.size) ≤ smallObjSize then
    reapFrom cache (fun slab => kfreeFrame (k.virtToPhys (slab / pageSize * pageSize))) (2 ^ 64) tmp
  else
    reapFrom cache (freeLargeSlab k cache) (2 ^ 64) tmp

/-- The part of `kmem_cache_free` after the release: a slab that was full goes back before
`fl_ptr`. -/
def refile (cache slab : Nat) : Kernel Unit := do
  if (← readInt slab KmemSlab.refs) = (← readInt slab KmemSlab.bufCnt) - 1 then
    rmSlab slab
    insertSlab (← read cache KmemCache.flPtr) slab
    write cache KmemCache.flPtr slab

/-- `slab->freelist = entry` with the old list behind it, and `slab->refs--`. -/
def pushFree (slab entry link : Nat) : Kernel Unit := do
  write entry link (← read slab KmemSlab.freelist)
  write slab KmemSlab.freelist entry
  writeInt slab KmemSlab.refs ((← readInt slab KmemSlab.refs) - 1)

/-- `kmem_cache_free`; the tests against `0xDEADBEEF` have empty bodies. -/
def kmemCacheFree (cache buf : Nat) : Kernel Unit := do
  if (← read cache KmemCache.size) ≤ smallObjSize then
    let page := buf / pageSize * pageSize
    let slab := page + pageSize - KmemSlab.size
    pushFree slab buf (← read cache KmemCache.size)
    if (← readInt slab KmemSlab.refs) = 0 then
      rmSlab slab
      kfreeFrame (k.virtToPhys page)
    else refile cache slab
  else
    let bufctl ← htGet cache buf
    let slab ← read bufctl KmemBufctl.back
    pushFree slab bufctl KmemBufctl.next
    if (← readInt slab KmemSlab.refs) = 0 then
      rmSlab slab
      freeLargeSlab k cache slab
    else refile cache slab

/-- The sentinel nodes and `fl_ptr`, as `slab_alloc_init` sets them up for `cache_cache`. The
tail's `next` is not written. -/
def cacheInit (cache size name : Nat) : Kernel Unit := do
  write cache KmemCache.size size
  memset (cache + KmemCache.hslab) KmemSlab.size
  memset (cache + KmemCache.tslab) KmemSlab.size
  write cache KmemCache.head (cache + KmemCache.hslab)
  write cache KmemCache.tail (cache + KmemCache.tslab)
  write (← read cache KmemCache.head) KmemSlab.prev 0
  write (← read cache KmemCache.head) KmemSlab.next (← read cache KmemCache.tail)
  write (← read cache KmemCache.head) KmemSlab.freelist 0
  writeInt (← read cache KmemCache.head) KmemSlab.refs 0
  write (← read cache KmemCache.tail) KmemSlab.prev (← read cache KmemCache.head)
  write (← read cache KmemCache.tail) KmemSlab.prev (← read cache KmemCache.head)
  write (← read cache KmemCache.tail) KmemSlab.freelist 0
  writeInt (← read cache KmemCache.tail) KmemSlab.refs 0
  write cache KmemCache.flPtr (← read cache KmemCache.tail)
  write cache KmemCache.name name

/-- `kmem_cache_create`, which returns `NULL`. -/
def kmemCacheCreate (cacheCache name size align : Nat) : Kernel Nat := do
  let cache ← kmemCacheAlloc k cacheCache
  write cache KmemCache.name name
  write cache KmemCache.size size
  write cache KmemCache.align align
  write cache KmemCache.head (cache + KmemCache.hslab)
  write cache KmemCache.tail (cache + KmemCache.tslab)
  write (← read cache KmemCache.head) KmemSlab.prev 0
  write (← read cache KmemCache.head) KmemSlab.next (← read cache KmemCache.tail)
  write (← read cache KmemCache.head) KmemSlab.freelist 0
  writeInt (← read cache KmemCache.head) KmemSlab.refs 0
  write (← read cache KmemCache.tail) KmemSlab.prev (← read cache KmemCache.head)
  write (← read cache KmemCache.tail) KmemSlab.next 0
  write (← read cache KmemCache.tail) KmemSlab.freelist 0
  writeInt (← read cache KmemCache.tail) KmemSlab.refs 0
  write cache KmemCache.flPtr (← read cache KmemCache.tail)
  htInit k cache
  pure 0

/-- The statically allocated objects: `cache_cache`, the array `caches` and the two names. -/
structure Statics where
  cacheCache : Nat
  caches : Nat
  cacheName : Nat
  tmpName : Nat

def initialSlabCnt : Nat := 12

/-- The body of the loop in `slab_alloc_init`. -/
def initCache (st : Statics) (i : Nat) : Kernel Unit := do
  write st.caches (8 * i) (← kmemCacheAlloc k st.cacheCache)
  write (← read st.caches (8 * i)) KmemCache.size (2 <<< i)
  memset ((← read st.caches (8 * i)) + KmemCache.hslab) KmemSlab.size
  memset ((← read st.caches (8 * i)) + KmemCache.tslab) KmemSlab.size
  write (← read st.caches (8 * i)) KmemCache.head ((← read st.caches (8 * i)) + KmemCache.hslab)
  write (← read st.caches (8 * i)) KmemCache.tail ((← read st.caches (8 * i)) + KmemCache.tslab)
  write (← read st.caches (8 * i)) KmemCache.flPtr
    (← read (← read st.caches (8 * i)) KmemCache.head)
  write (← read st.caches (8 * i)) KmemCache.name st.tmpName

def initCaches (st : Statics) : List Nat → Kernel Unit
  | [] => pure ()
  | i :: rest => do
    initCache k st i
    initCaches st rest

def slabAllocInit (st : Statics) : Kernel Unit := do
  cacheInit st.cacheCache KmemCache.sizeof st.cacheName
  kmemCacheGrow k st.cacheCache
  initCaches k st (List.range initialSlabCnt)

/-- `kmalloc`: the first of the power-of-two caches that is large enough. -/
def kmalloc (st : Statics) (size : Nat) : Kernel Nat := do
  match (List.range initialSlabCnt).find? fun idx => size ≤ 2 <<< idx with
  | some idx => kmemCacheAlloc k (← read st.caches (8 * idx))
  | none => pure 0

end Code

end NyaOS.Slab
