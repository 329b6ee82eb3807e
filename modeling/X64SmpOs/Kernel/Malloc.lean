import X64SmpOs.Lib.LinkedList
import X64SmpOs.Lib.Memory
import X64SmpOs.Lib.Words

/-!
# The bucket allocator of `mm/malloc.c`

A directory has one chain of buckets for each block size; a bucket is a
descriptor and one page cut into blocks, and the free blocks of the page are
threaded through their own first bytes. Descriptors that serve no page wait on
`free_bucket_chain`.

The allocator is written for a `Platform`: the size of a pointer and the page
allocator below it. The loops along chains take fuel; `none` means that it ran
out.

* `kmalloc`, `kfreeS`: the two entry points;
* `constructFreeBucketChain`, `newBucket`, `takeBlock`, `putBlock`,
  `releaseBucket`: their parts.
-/

namespace X64SmpOs.Malloc

open Memory LinkedList Words

universe u
variable {π : Type u}

def pageSize : Nat := 4096

/-- `word` is `sizeof(void *)`; a page is returned with `0` for `NULL`. -/
structure Platform (π : Type u) where
  word : Nat
  word_ge : 4 ≤ word
  word_le : word ≤ 8
  getFreePage : π → Nat × π
  freePage : π → Nat → π

/-! ## `struct bucket_desc` -/

inductive Field
  | page
  | next
  | freeBlock
  | refCnt
  | blockSize
  deriving DecidableEq, Repr

namespace Platform

def offset (P : Platform π) : Field → Nat
  | .page => 0
  | .next => P.word
  | .freeBlock => 2 * P.word
  | .refCnt => 3 * P.word
  | .blockSize => 3 * P.word + 4

def width (P : Platform π) : Field → Nat
  | .page | .next | .freeBlock => P.word
  | .refCnt | .blockSize => 4

/-- `sizeof(struct bucket_desc)`. -/
def descSize (P : Platform π) : Nat := 3 * P.word + 8

/-- `c->f`. -/
def get (P : Platform π) (f : Field) (m : Mem) (c : Nat) : Nat :=
  readLE (P.width f) m (c + P.offset f)

/-- `c->f = v`. -/
def set (P : Platform π) (f : Field) (m : Mem) (c v : Nat) : Mem :=
  writeLE (P.width f) m (c + P.offset f) v

end Platform

/-! ## State -/

/-- The sizes of `g_bucket_dir`, with its end mark. -/
def gBucketDir : List Nat := [16, 32, 64, 128, 256, 512, 1024, 2048, 4096, 0]

/-- `dir i` is `g_bucket_dir[i].chain`. `descPages` is not data of the program:
it lists the pages `construct_free_bucket_chain` has taken. -/
structure Heap (π : Type u) where
  mem : Mem
  pm : π
  dir : Nat → Nat
  freeBucketChain : Nat
  descPages : List Nat

/-- The walk along the directory: index and size of the first entry that holds
`len` bytes. -/
def findDir (len : Nat) : List Nat → Nat → Option (Nat × Nat)
  | [], _ => none
  | size :: sizes, i =>
    if size = 0 then none else if size ≥ len then some (i, size) else findDir len sizes (i + 1)

def dirPos (len : Nat) : Option (Nat × Nat) := findDir len gBucketDir 0

/-! ## `construct_free_bucket_chain` -/

/-- Iterations `i .. i + n - 1` of a loop that stores the address of slot `i + 1`
at offset `off` of slot `i`. -/
def threadLoop (width off base stride : Nat) : Nat → Nat → Mem → Mem
  | _, 0, m => m
  | i, n + 1, m =>
    threadLoop width off base stride (i + 1) n
      (writeLE width m (base + i * stride + off) (base + (i + 1) * stride))

/-- The loop and the null link of the last slot. -/
def thread (width off base stride count : Nat) (m : Mem) : Mem :=
  writeLE width (threadLoop width off base stride 0 (count - 1) m)
    (base + (count - 1) * stride + off) 0

def constructFreeBucketChain (P : Platform π) (h : Heap π) : Heap π :=
  let (freeChain, pm) := P.getFreePage h.pm
  let maxIndex := pageSize / P.descSize
  { h with
    mem := thread P.word (P.offset .next) freeChain P.descSize maxIndex h.mem
    pm := pm
    freeBucketChain := freeChain
    descPages := freeChain :: h.descPages }

/-! ## `kmalloc` -/

/-- The first bucket of a chain with a free block; `0` when there is none. -/
def findFree (P : Platform π) (fuel : Nat) (m : Mem) (chain : Nat) : Option Nat :=
  find (P.get .next m) (fun c => P.get .freeBlock m c ≠ 0) fuel chain

/-- The free bucket chain when it is not empty, else a new one. -/
def ensureFreeBucketChain (P : Platform π) (h : Heap π) : Heap π :=
  if h.freeBucketChain = 0 then constructFreeBucketChain P h else h

/-- A descriptor off the free bucket chain, cleared, with its block size and its
page; and the page. -/
def setUpBucket (P : Platform π) (h : Heap π) (size : Nat) : Nat × Nat × Heap π :=
  let h := ensureFreeBucketChain P h
  let chain := h.freeBucketChain
  let free := P.get .next h.mem chain
  let m := zeroFill h.mem chain P.descSize
  let m := P.set .blockSize m chain size
  let (page, pm) := P.getFreePage h.pm
  let m := P.set .page m chain page
  (chain, page, { h with mem := m, pm := pm, freeBucketChain := free })

/-- The blocks of the new page are threaded and the bucket put in front of its
chain. Addresses of blocks are computed as `u32`. -/
def insertBucket (P : Platform π) (h : Heap π) (i chain page size : Nat) : Heap π :=
  let m := thread 4 0 (u32 page) size (pageSize / size) h.mem
  let m := P.set .freeBlock m chain page
  let m := P.set .next m chain (h.dir i)
  { h with mem := m, dir := Function.update h.dir i chain }

/-- The first free block of a bucket. -/
def takeBlock (P : Platform π) (h : Heap π) (chain : Nat) : Nat × Heap π :=
  let retVal := P.get .freeBlock h.mem chain
  let m := P.set .freeBlock h.mem chain (readLE P.word h.mem retVal)
  let m := P.set .refCnt m chain (u32 (P.get .refCnt m chain + 1))
  (retVal, { h with mem := m })

/-- The block, or `0` for `NULL`. -/
def kmalloc (P : Platform π) (fuel : Nat) (h : Heap π) (len : Nat) : Option (Nat × Heap π) :=
  match dirPos len with
  | none => some (0, h)
  | some (i, size) =>
    match findFree P fuel h.mem (h.dir i) with
    | none => none
    | some chain =>
      if chain = 0 then
        let (chain, page, h) := setUpBucket P h size
        if page = 0 then some (0, h)
        else some (takeBlock P (insertBucket P h i chain page size) chain)
      else some (takeBlock P h chain)

/-! ## `kfree_s` -/

/-- `(u32)ptr & ~(0xfff)`. -/
def pageAlignAddr (ptr : Nat) : Nat := u32 ptr / 4096 * 4096

/-- The bucket of a chain that serves a page; `0` when there is none. -/
def findPage (P : Platform π) (fuel : Nat) (m : Mem) (chain page : Nat) : Option Nat :=
  find (P.get .next m) (fun c => P.get .page m c = page) fuel chain

/-- The block goes in front of the bucket's free blocks. -/
def putBlock (P : Platform π) (m : Mem) (chain ptr : Nat) : Mem :=
  let m := writeLE 4 m ptr (u32 (P.get .freeBlock m chain))
  let m := P.set .freeBlock m chain ptr
  P.set .refCnt m chain (sub32 (P.get .refCnt m chain) 1)

/-- An unused bucket gives its page back and goes from its chain to the free
bucket chain. -/
def releaseBucket (P : Platform π) (fuel : Nat) (h : Heap π) (i chain : Nat) : Option (Heap π) :=
  let pm := P.freePage h.pm (P.get .page h.mem chain)
  let push (m : Mem) (dir : Nat → Nat) : Heap π :=
    { h with
      mem := P.set .next m chain h.freeBucketChain
      pm := pm
      dir := dir
      freeBucketChain := chain }
  if h.dir i = chain then
    some (push h.mem (Function.update h.dir i (P.get .next h.mem chain)))
  else
    match findPrev (P.get .next h.mem) chain fuel (h.dir i) with
    | none => none
    | some pos =>
      if pos = 0 then some (push h.mem h.dir)
      else some (push (P.set .next h.mem pos (P.get .next h.mem chain)) h.dir)

def kfreeS (P : Platform π) (fuel : Nat) (h : Heap π) (ptr len : Nat) : Option (Heap π) :=
  match dirPos len with
  | none => some h
  | some (i, _) =>
    match findPage P fuel h.mem (h.dir i) (pageAlignAddr ptr) with
    | none => none
    | some chain =>
      if chain = 0 then some h
      else
        let m := putBlock P h.mem chain ptr
        if P.get .refCnt m chain = 0 then releaseBucket P fuel { h with mem := m } i chain
        else some { h with mem := m }

end X64SmpOs.Malloc
