import SelfPropelled.Library.Region
import SelfPropelled.Library.Run

/-! The memory allocator of `addr_space-x86_64.cc` and `object-x86_64.cc`: free
intervals between memory mappings, one pool of near memory for each object,
bump allocation from a pool and its refill. Sizes wrap modulo 2^64. -/

namespace SelfPropelled.Allocator
open Library

def pageSize : Nat := 4096

def maxIntervalSize : Nat := 1024 * 1024 * 16

def maxMappedAreaSize : Nat := 1024 * 1024 * (1024 + 512)

def add64 (a b : Nat) : Nat := (a + b) % 2 ^ 64

def sub64 (a b : Nat) : Nat := (a + (2 ^ 64 - b % 2 ^ 64)) % 2 ^ 64

structure FreeInterval where
  start : Nat
  stop : Nat
  used : Bool
deriving DecidableEq, Repr

def FreeInterval.size (i : FreeInterval) : Nat := sub64 i.stop i.start

/-- The loop over the lines of the maps file, as start and end addresses: the
mappings' keys and the holes in front of them. A start seen before is skipped. -/
def memoryMappings (previousEnd : Nat) (starts : List Nat) :
    List (Nat × Nat) → List Nat × List FreeInterval
  | [] => (starts,[])
  | (start,stop) :: lines =>
    if start ∈ starts then memoryMappings previousEnd starts lines
    else
      let (starts,intervals) := memoryMappings stop (start :: starts) lines
      (starts,if previousEnd ≠ start then ⟨previousEnd,start,false⟩ :: intervals else intervals)

def updateMemoryMappings (lines : List (Nat × Nat)) : List Nat × List FreeInterval :=
  memoryMappings 0 [] lines

/-- Reduce a hole to 1.5 GB, at its upper end. -/
def reduce (i : FreeInterval) : FreeInterval :=
  if i.size > maxMappedAreaSize then {i with start := sub64 i.stop maxMappedAreaSize} else i

/-- The loop that cuts a hole into intervals of at most 16 MB; its body runs at least once. -/
def slices (stop : Nat) : Nat → Nat → List FreeInterval
  | 0, _ => []
  | fuel + 1, newStart =>
    let newEnd := add64 newStart maxIntervalSize
    ⟨newStart,if newEnd > stop then stop else newEnd,false⟩ ::
      if newEnd < stop then slices stop fuel newEnd else []

def slice (i : FreeInterval) : List FreeInterval := slices i.stop (i.size / maxIntervalSize + 1) i.start

/-- The free intervals objects are served from; with `SP_LIBC_MALLOC` set they
stay the holes as they are. -/
def updateFreeIntervals (libcMalloc : Bool) (intervals : List FreeInterval) : List FreeInterval :=
  if libcMalloc then intervals else (intervals.map reduce).flatMap slice

/-- The first unused interval that starts at most 1.5 GB before the address,
with the list in which it is marked used. -/
def getClosestInterval (addr : Nat) : List FreeInterval → Option (FreeInterval × List FreeInterval)
  | [] => none
  | i :: rest =>
    if i.start > addr || i.used || sub64 addr i.start > maxMappedAreaSize then
      (getClosestInterval addr rest).map fun found => (found.1,i :: found.2)
    else some (i,{i with used := true} :: rest)

/-- The free buffers of an object. `mapped` is the range mapped last, which the
source does not keep. -/
structure FreeBufs where
  base : Nat
  bufSize : Nat
  mapped : Region
deriving DecidableEq, Repr

def FreeBufs.none : FreeBufs := ⟨0,0,.empty⟩

/-- The `mmap` attempts, each a page higher and a page shorter than the last.
The oracle says which of them succeed. -/
def mapInterval (mmap : Nat → Nat → Bool) : Nat → Nat → Nat → Option Region
  | 0, _, _ => none
  | fuel + 1, base, size =>
    if mmap base size then some ⟨base,size⟩
    else if sub64 size pageSize ≥ 2 ^ 63 then none
    else mapInterval mmap fuel (add64 base pageSize) (sub64 size pageSize)

/-- A pool that cannot be mapped stays as it was. -/
def initMemoryAlloc (mmap : Nat → Nat → Bool) (base size : Nat) (pool : FreeBufs) : FreeBufs :=
  match mapInterval mmap (size / pageSize + 1) base size with
  | some r => ⟨r.lo,r.len,r⟩
  | Option.none => pool

def roundUp (size : Nat) : Nat := add64 size (pageSize - 1) / pageSize * pageSize

/-- The address space, with the load address and the pool of each object. -/
structure AddrSpace where
  starts : List Nat
  loadAddr : Nat → Nat
  intervals : List FreeInterval
  pools : Nat → FreeBufs

/-- The start of an object's mapping; an address that is no key gets an empty entry. -/
def AddrSpace.mappingStart (as : AddrSpace) (obj : Nat) : Nat :=
  if as.loadAddr obj ∈ as.starts then as.loadAddr obj else 0

def AddrSpace.setPool (as : AddrSpace) (obj : Nat) (pool : FreeBufs) : AddrSpace :=
  {as with pools := fun o => if o = obj then pool else as.pools o}

/-- The part of an interval that is asked for: at most 2 GB at its upper end, and
not the first page of the address space. -/
def FreeInterval.wanted (i : FreeInterval) : Region :=
  let size := roundUp (if i.size ≤ 2147483646 then i.size else 2147483646)
  let base := sub64 i.stop size
  if base < pageSize then ⟨add64 base pageSize,sub64 size pageSize⟩ else ⟨base,size⟩

/-- Bind the closest free interval to an object, for the first time or to refill its pool. -/
def allocateNewInterval (as : AddrSpace) (obj : Nat) (mmap : Nat → Nat → Bool) : AddrSpace :=
  match getClosestInterval (as.mappingStart obj) as.intervals with
  | Option.none => as
  | some (i,intervals) =>
    {as with intervals := intervals}.setPool obj
      (initMemoryAlloc mmap i.wanted.lo i.wanted.len (as.pools obj))

inductive Served
  | pool (buf : Region) (mapped : Region)
  | memalign (addr : Nat)
  | failed
deriving DecidableEq, Repr

/-- The address space a request is served in: refilled if the pool is too small for it. -/
def refilled (as : AddrSpace) (obj size : Nat) (mmap : Nat → Nat → Bool) : AddrSpace :=
  if (as.pools obj).bufSize < size then allocateNewInterval as obj mmap else as

/-- A buffer from the object's pool, else one from `posix_memalign`. -/
def allocateBuffer (as : AddrSpace) (obj size : Nat) (mmap : Nat → Nat → Bool)
    (memalign : Nat → Option Nat) : Served × AddrSpace :=
  let as := refilled as obj size mmap
  let pool := as.pools obj
  if pool.bufSize ≥ size then
    (.pool ⟨pool.base,size⟩ pool.mapped,as.setPool obj {pool with
      base := add64 pool.base (size + 1)
      bufSize := sub64 pool.bufSize (size + 1)})
  else
    match memalign (roundUp size) with
    | some addr => (.memalign addr,as)
    | Option.none => (.failed,as)

end SelfPropelled.Allocator
