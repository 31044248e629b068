import SelfPropelled.IntervalMapping

/-! Release of buffers, `FreeBuffer` of `object-x86_64.cc`, in runs together with
allocation: which buffers are live, where each came from and where it goes. -/

namespace SelfPropelled.Allocator
open Library

inductive BufType
  | smallBuf
deriving DecidableEq, Repr

/-- What `FreeBuffer` reads of an object: the kinds of its buffers by address, and
the pool's list of free buffers, whose entries are `unsigned`. -/
structure BufTable where
  allocBufs : List (Nat × BufType)
  list : List (BitVec 32)
deriving DecidableEq, Repr

inductive Release
  | refused
  | heap
  | pool
deriving DecidableEq, Repr

def freeBuffer (table : BufTable) (buf : BitVec 64) : Release × BufTable :=
  if buf = 0 then (.refused,table)
  else
    match table.allocBufs.lookup buf.toNat with
    | none => (.heap,table)
    | some .smallBuf =>
      (.pool,⟨table.allocBufs.filter (fun entry => entry.1 ≠ buf.toNat),table.list ++ [buf.setWidth 32]⟩)

inductive Origin
  | pool
  | heap
deriving DecidableEq, Repr

structure Live where
  obj : Nat
  buf : Region
  origin : Origin
deriving DecidableEq, Repr

/-- A call of `FreeBuffer`, with the buffers that were live. -/
structure Freed where
  obj : Nat
  buf : Nat
  release : Release
  live : List Live
deriving DecidableEq, Repr

structure Heap where
  pools : Pools
  tables : Nat → BufTable
  live : List Live
  freed : List Freed

inductive HeapCall
  | request (r : Request)
  | free (obj : Nat) (buf : BitVec 64)

def received (as : AddrSpace) : Request → Option Live
  | .newInterval _ _ => none
  | .allocate obj size mmap memalign =>
    match (allocateBuffer as obj size.toNat mmap memalign).1 with
    | .pool buf _ => some ⟨obj,buf,.pool⟩
    | .memalign addr => some ⟨obj,⟨addr,size.toNat⟩,.heap⟩
    | .failed => none

def heapBlock (as : AddrSpace) : Request → Option Region
  | .newInterval _ _ => none
  | .allocate obj size mmap memalign =>
    if ((refilled as obj size.toNat mmap).pools obj).bufSize < size.toNat then
      (memalign (roundUp size.toNat)).map fun addr => ⟨addr,roundUp size.toNat⟩
    else none

def leftOver (as : AddrSpace) : Request → List FreeInterval
  | .newInterval obj mmap => (allocateNewInterval as obj mmap).intervals
  | .allocate obj size mmap _ => (refilled as obj size.toNat mmap).intervals

def Heap.step (s : Heap) : HeapCall → Heap
  | .request r => {s with pools := serve s.pools r, live := s.live ++ (received s.pools.as r).toList}
  | .free obj buf =>
    let (release,table) := freeBuffer (s.tables obj) buf
    { pools := s.pools
      tables := fun o => if o = obj then table else s.tables o
      live := if release = .refused then s.live else s.live.filter fun b => b.buf.lo ≠ buf.toNat
      freed := s.freed ++ [⟨obj,buf.toNat,release,s.live⟩] }

def Heap.initial (libcMalloc : Bool) (lines : List (Nat × Nat)) (loadAddr : Nat → Nat) : Heap :=
  ⟨Allocator.initial libcMalloc lines loadAddr,fun _ => ⟨[],[]⟩,[],[]⟩

/-- `free` gets a block of `posix_memalign` that is still live, and a pool buffer
goes back to the pool it was cut from. -/
structure Freed.Right (f : Freed) : Prop where
  heap : f.release = .heap → ∃ b ∈ f.live, b.origin = .heap ∧ b.buf.lo = f.buf
  pool : ∀ b ∈ f.live, b.origin = .pool → b.buf.lo = f.buf → f.release = .pool ∧ f.obj = b.obj

/-- Buffers are released where they came from, and live ones share no byte. -/
structure Accounted (s : Heap) : Prop where
  released : ∀ f ∈ s.freed, f.Right
  apart : s.live.Pairwise fun b c => b.buf.Apart c.buf

/-- What `posix_memalign` promises: its block is apart from the blocks still
allocated and from what is mapped for pools. -/
def FreshBlock (s : Heap) : HeapCall → Prop
  | .request r => ∀ block ∈ heapBlock s.pools.as r,
      (∀ b ∈ s.live, b.origin = .heap → b.buf.Apart block) ∧
      (∀ h ∈ (serve s.pools r).handed, block.Apart h.2) ∧
      ∀ o, block.Apart ((serve s.pools r).as.pools o).mapped
  | .free _ _ => True

def Rounds : Request → Prop
  | .newInterval _ _ => True
  | .allocate _ size _ _ => size.toNat + (pageSize - 1) < 2 ^ 64

instance : (r : Request) → Decidable (Rounds r)
  | .newInterval _ _ => .isTrue trivial
  | .allocate _ _ _ _ => inferInstanceAs (Decidable (_ < _))

/-- Only buffers of `posix_memalign` are released, and no request asks for exactly
what is left of a pool, wraps, or gets a block in an interval still kept as free. -/
def HeapOnly (s : Heap) : HeapCall → Prop
  | .request r => NotExactFit s.pools r ∧ Rounds r ∧
      ∀ block ∈ heapBlock s.pools.as r, ∀ i ∈ leftOver s.pools.as r, i.used = false → block.Apart i.wanted
  | .free _ buf => buf = 0 ∨ ∃ b ∈ s.live, b.origin = .heap ∧ b.buf.lo = buf.toNat

instance (s : Heap) : (c : HeapCall) → Decidable (HeapOnly s c)
  | .request _ => inferInstanceAs (Decidable (_ ∧ _))
  | .free _ _ => inferInstanceAs (Decidable (_ ∨ _))

theorem FreeInterval.wanted_pos (i : FreeInterval) : 0 < i.wanted.lo := by
  simp only [FreeInterval.wanted]
  generalize sub64 i.stop _ = base
  by_cases low : base < pageSize
  · rw [if_pos low]
    simp only [add64,pageSize] at low ⊢
    omega
  · rw [if_neg low]
    simp only [pageSize] at low ⊢
    omega

theorem allocateNewInterval_other (as : AddrSpace) {obj o : Nat} (mmap : Nat → Nat → Bool) (other : o ≠ obj) :
    (allocateNewInterval as obj mmap).pools o = as.pools o := by
  simp only [allocateNewInterval]
  split
  · rfl
  · simp [AddrSpace.setPool,other]

/-- What refilling does to a pool: it stays, or becomes a range in the part wanted
of an interval that was unused. -/
theorem allocateNewInterval_pools {as : AddrSpace} (obj : Nat) (mmap : Nat → Nat → Bool)
    (ok : ∀ i ∈ as.intervals, i.Ok) (o : Nat) :
    (allocateNewInterval as obj mmap).pools o = as.pools o ∨
    ∃ i ∈ as.intervals, i.used = false ∧
      ((allocateNewInterval as obj mmap).pools o).mapped.Within i.wanted := by
  by_cases here : o = obj
  · subst here
    cases made : fixedMapping as o mmap with
    | none =>
      refine .inl ?_
      simp only [fixedMapping] at made
      simp only [allocateNewInterval]
      split
      next => rfl
      next i intervals found =>
        simp only [found] at made
        simp [AddrSpace.setPool,initMemoryAlloc,made]
    | some r =>
      refine .inr ?_
      rcases fixedMapping_cases o mmap ok with ⟨quiet,_⟩ | ⟨k,i,there,free,_,within⟩
      · rw [made] at quiet
        cases quiet
      · refine ⟨i,List.mem_of_getElem? there,free,?_⟩
        rw [fixedMapping_pool made]
        exact within r made
  · exact .inl (allocateNewInterval_other as mmap here)

theorem allocateNewInterval_free {as : AddrSpace} (obj : Nat) (mmap : Nat → Nat → Bool)
    {j : FreeInterval} (member : j ∈ (allocateNewInterval as obj mmap).intervals)
    (free : j.used = false) : j ∈ as.intervals := by
  simp only [allocateNewInterval] at member
  split at member
  · exact member
  next i intervals found =>
    obtain ⟨k,there,_,rfl⟩ := getClosestInterval_spec found
    rcases List.mem_or_eq_of_mem_set member with old | rfl
    · exact old
    · cases free

/-- A range apart from everything the allocator has mapped for pools and from what
it still may map. -/
structure Clear (p : Pools) (r : Region) : Prop where
  handed : ∀ h ∈ p.handed, r.Apart h.2
  pools : ∀ o, r.Apart (p.as.pools o).mapped
  wanted : ∀ i ∈ p.as.intervals, i.used = false → r.Apart i.wanted

theorem Clear.mapped {p : Pools} {r q : Region} (clear : Clear p r) {i : FreeInterval}
    (member : i ∈ p.as.intervals) (free : i.used = false) (inside : q.Within i.wanted) : r.Apart q :=
  (clear.wanted i member free).mono (fun _ has => has) fun _ has => inside.has has

theorem serve_allocate (s : Pools) (obj : Nat) (size : BitVec 64) (mmap : Nat → Nat → Bool)
    (memalign : Nat → Option Nat) :
    let as := refilled s.as obj size.toNat mmap
    let pool := as.pools obj
    let request := Request.allocate obj size mmap memalign
    size.toNat ≤ pool.bufSize ∧ heapBlock s.as request = none ∧
      received s.as request = some ⟨obj,⟨pool.base,size.toNat⟩,.pool⟩ ∧
      serve s request = ⟨as.setPool obj {pool with
          base := add64 pool.base (size.toNat + 1)
          bufSize := sub64 pool.bufSize (size.toNat + 1)},
        s.handed ++ [(⟨pool.base,size.toNat⟩,pool.mapped)]⟩ ∨
    pool.bufSize < size.toNat ∧ serve s request = ⟨as,s.handed⟩ ∧
      (received s.as request = none ∨ ∃ addr, received s.as request = some ⟨obj,⟨addr,size.toNat⟩,.heap⟩ ∧
        heapBlock s.as request = some ⟨addr,roundUp size.toNat⟩) := by
  intro as pool request
  by_cases fits : pool.bufSize ≥ size.toNat
  · have less : ¬pool.bufSize < size.toNat := by omega
    refine .inl ⟨fits,if_neg less,?_,?_⟩
    · simp only [request,received,allocateBuffer,as,pool] at fits ⊢
      simp only [if_pos fits]
    · simp only [request,serve,allocateBuffer,as,pool] at fits ⊢
      simp only [if_pos fits]
  · have less : pool.bufSize < size.toNat := by omega
    refine .inr ⟨less,?_,?_⟩
    · simp only [request,serve,allocateBuffer,as,pool] at fits ⊢
      simp only [if_neg fits]
      cases memalign (roundUp size.toNat) <;> rfl
    · simp only [request,received,heapBlock,allocateBuffer,as,pool] at fits less ⊢
      simp only [if_neg fits,if_pos less]
      cases memalign (roundUp size.toNat) with
      | none => exact .inl rfl
      | some addr => exact .inr ⟨addr,rfl,rfl⟩

theorem serve_other (s : Pools) (obj : Nat) (size : BitVec 64) (mmap : Nat → Nat → Bool)
    (memalign : Nat → Option Nat) {o : Nat} (other : o ≠ obj) :
    (serve s (.allocate obj size mmap memalign)).as.pools o = s.as.pools o := by
  have same : (refilled s.as obj size.toNat mmap).pools o = s.as.pools o := by
    simp only [refilled]
    split
    · exact allocateNewInterval_other s.as mmap other
    · rfl
  rcases serve_allocate s obj size mmap memalign with ⟨_,_,_,cut⟩ | ⟨_,kept,_⟩
  · rw [cut]
    simpa [AddrSpace.setPool,other] using same
  · rw [kept]
    exact same

theorem Clear.newInterval {p : Pools} {r : Region} (clear : Clear p r) (ok : ∀ i ∈ p.as.intervals, i.Ok)
    (obj : Nat) (mmap : Nat → Nat → Bool) : Clear {p with as := allocateNewInterval p.as obj mmap} r where
  handed := clear.handed
  pools o := by
    rcases allocateNewInterval_pools obj mmap ok o with same | ⟨i,member,free,inside⟩
    · rw [same]
      exact clear.pools o
    · exact clear.mapped member free inside
  wanted i member free := clear.wanted i (allocateNewInterval_free obj mmap member free) free

theorem Clear.refilled {p : Pools} {r : Region} (clear : Clear p r) (ok : ∀ i ∈ p.as.intervals, i.Ok)
    (obj size : Nat) (mmap : Nat → Nat → Bool) : Clear {p with as := refilled p.as obj size mmap} r := by
  simp only [Allocator.refilled]
  split
  · exact clear.newInterval ok obj mmap
  · exact clear

theorem Clear.serve {p : Pools} {r : Region} (clear : Clear p r) (ok : ∀ i ∈ p.as.intervals, i.Ok)
    (q : Request) : Clear (serve p q) r := by
  cases q with
  | newInterval obj mmap => exact clear.newInterval ok obj mmap
  | allocate obj size mmap memalign =>
    have full := clear.refilled ok obj size.toNat mmap
    rcases serve_allocate p obj size mmap memalign with ⟨_,_,_,cut⟩ | ⟨_,same,_⟩
    · rw [cut]
      refine ⟨fun h member => ?_,fun o => ?_,full.wanted⟩
      · rcases List.mem_append.mp member with old | new
        · exact full.handed h old
        · obtain rfl := List.mem_singleton.mp new
          exact full.pools obj
      · by_cases here : o = obj
        · subst here
          simpa [AddrSpace.setPool] using full.pools o
        · simpa [AddrSpace.setPool,here] using full.pools o
    · rw [same]
      exact full

theorem freeBuffer_heap {table : BufTable} (plain : table.allocBufs = []) {buf : BitVec 64}
    (nonnull : buf ≠ 0) : freeBuffer table buf = (.heap,table) := by
  rw [freeBuffer,if_neg nonnull,plain]
  rfl

/-- What every run under the condition keeps. -/
structure Ledger (s : Heap) : Prop where
  inv : Inv s.pools
  null : Clear s.pools ⟨0,1⟩
  plain : ∀ o, (s.tables o).allocBufs = []
  pool : ∀ b ∈ s.live, b.origin = .pool → ∃ h ∈ s.pools.handed, h.1 = b.buf ∧ h.2.Has b.buf.lo
  heap : ∀ b ∈ s.live, b.origin = .heap → 0 < b.buf.len ∧ Clear s.pools b.buf
  accounted : Accounted s

theorem Ledger.initial {libcMalloc : Bool} {lines : List (Nat × Nat)} {loadAddr : Nat → Nat}
    (maps : MapsOk 0 lines) : Ledger (Heap.initial libcMalloc lines loadAddr) where
  inv := Inv.initial maps
  null := by
    refine ⟨fun h member => ?_,fun o => ?_,fun i _ _ => ?_⟩
    · cases member
    · exact fun x _ => Region.not_has_empty x
    · refine Region.apart_of_le ?_
      have positive := i.wanted_pos
      simp only [Region.hi]
      omega
  plain _ := rfl
  pool b member := by cases member
  heap b member := by cases member
  accounted := ⟨fun _ member => absurd member List.not_mem_nil,List.Pairwise.nil⟩

theorem Ledger.differ {s : Heap} (ledger : Ledger s) {b c : Live} (first : b ∈ s.live) (second : c ∈ s.live)
    (heap : b.origin = .heap) (pool : c.origin = .pool) : b.buf.lo ≠ c.buf.lo := by
  intro same
  obtain ⟨positive,clear⟩ := ledger.heap b first heap
  obtain ⟨h,member,_,has⟩ := ledger.pool c second pool
  refine clear.handed h member c.buf.lo ?_ has
  simp only [Region.Has,Region.hi]
  omega

/-- A call of `FreeBuffer` under the condition: it does nothing to a null pointer,
and else gives a live block back. -/
theorem Ledger.free_cases {s : Heap} (ledger : Ledger s) (obj : Nat) {buf : BitVec 64}
    (ok : HeapOnly s (.free obj buf)) : ∃ (release : Release) (live : List Live),
    (Freed.mk obj buf.toNat release s.live).Right ∧ live.Sublist s.live ∧
      s.step (.free obj buf) = {s with live := live, freed := s.freed ++ [⟨obj,buf.toNat,release,s.live⟩]} := by
  have unchanged : (fun o => if o = obj then s.tables obj else s.tables o) = s.tables := by
    funext o
    split
    next here => rw [here]
    next => rfl
  by_cases null : buf = 0
  · subst null
    have same : freeBuffer (s.tables obj) 0 = (.refused,s.tables obj) := rfl
    refine ⟨.refused,s.live,⟨nofun,fun b live pool starts => ?_⟩,List.Sublist.refl _,?_⟩
    · -- no pool buffer starts at address 0
      obtain ⟨h,handed,_,has⟩ := ledger.pool b live pool
      have zero : b.buf.lo = 0 := starts
      rw [zero] at has
      exact absurd has (ledger.null.handed h handed 0 (by simp [Region.Has,Region.hi]))
    · simp only [Heap.step,same,unchanged,if_true]
  · obtain ⟨b,live,heap,starts⟩ := ok.resolve_left null
    have freed := freeBuffer_heap (ledger.plain obj) null
    refine ⟨.heap,s.live.filter fun b => b.buf.lo ≠ buf.toNat,⟨fun _ => ⟨b,live,heap,starts⟩,fun c within pool at' => ?_⟩,
      List.filter_sublist,?_⟩
    · exact absurd (starts.trans at'.symm) (ledger.differ live within heap pool)
    · simp only [Heap.step,freed,unchanged]
      rfl

theorem Ledger.free {s : Heap} (ledger : Ledger s) (obj : Nat) (buf : BitVec 64)
    (ok : HeapOnly s (.free obj buf)) : Ledger (s.step (.free obj buf)) := by
  obtain ⟨release,live,right,fewer,stepped⟩ := ledger.free_cases obj ok
  rw [stepped]
  refine ⟨ledger.inv,ledger.null,ledger.plain,fun b member => ledger.pool b (fewer.mem member),
    fun b member => ledger.heap b (fewer.mem member),fun f member => ?_,ledger.accounted.apart.sublist fewer⟩
  rcases List.mem_append.mp member with old | new
  · exact ledger.accounted.released f old
  · obtain rfl := List.mem_singleton.mp new
    exact right

structure Ledger.Adds (s : Heap) (pools : Pools) (b : Live) : Prop where
  pool : b.origin = .pool → ∃ h ∈ pools.handed, h.1 = b.buf ∧ h.2.Has b.buf.lo
  heap : b.origin = .heap → 0 < b.buf.len ∧ Clear pools b.buf
  apart : ∀ c ∈ s.live, c.buf.Apart b.buf

theorem Ledger.request {s : Heap} (ledger : Ledger s) {r : Request} (fit : NotExactFit s.pools r)
    (adds : ∀ b ∈ received s.pools.as r, Ledger.Adds s (serve s.pools r) b) :
    Ledger (s.step (.request r)) := by
  have handed : ∀ h ∈ s.pools.handed, h ∈ (serve s.pools r).handed := by
    intro h member
    cases r with
    | newInterval obj mmap => exact member
    | allocate obj size mmap memalign =>
      rcases serve_allocate s.pools obj size mmap memalign with ⟨_,_,_,cut⟩ | ⟨_,same,_⟩
      · rw [cut]
        exact List.mem_append_left _ member
      · rw [same]
        exact member
  have clear : ∀ q, Clear s.pools q → Clear (serve s.pools r) q := fun q here => here.serve ledger.inv.intervals r
  have split : ∀ b ∈ (s.step (.request r)).live, b ∈ s.live ∨ Ledger.Adds s (serve s.pools r) b := by
    intro b member
    rcases List.mem_append.mp member with old | new
    · exact .inl old
    · exact .inr (adds b (Option.mem_toList.mp new))
  refine ⟨ledger.inv.step r fit,clear _ ledger.null,ledger.plain,fun b member pool => ?_,fun b member heap => ?_,
    ledger.accounted.released,?_⟩
  · rcases split b member with old | new
    · obtain ⟨h,here,same,has⟩ := ledger.pool b old pool
      exact ⟨h,handed h here,same,has⟩
    · exact new.pool pool
  · rcases split b member with old | new
    · obtain ⟨positive,here⟩ := ledger.heap b old heap
      exact ⟨positive,clear _ here⟩
    · exact new.heap heap
  · refine List.pairwise_append.mpr ⟨ledger.accounted.apart,?_,fun c old b new => ?_⟩
    · cases received s.pools.as r with
      | none => exact List.Pairwise.nil
      | some b => exact List.pairwise_singleton _ b
    · exact (adds b (Option.mem_toList.mp new)).apart c old

/-- A buffer cut from a pool is apart from what is live: from other pool buffers by
the pools' own invariant, from blocks because they are clear of what is mapped. -/
theorem Ledger.adds_pool {s : Heap} (ledger : Ledger s) {obj : Nat} {size : BitVec 64}
    {mmap : Nat → Nat → Bool} {memalign : Nat → Option Nat}
    (fit : NotExactFit s.pools (.allocate obj size mmap memalign))
    (room : size.toNat ≤ ((refilled s.pools.as obj size.toNat mmap).pools obj).bufSize)
    (cut : (serve s.pools (.allocate obj size mmap memalign)).handed = s.pools.handed ++
      [(⟨((refilled s.pools.as obj size.toNat mmap).pools obj).base,size.toNat⟩,
        ((refilled s.pools.as obj size.toNat mmap).pools obj).mapped)]) :
    Ledger.Adds s (serve s.pools (.allocate obj size mmap memalign))
      ⟨obj,⟨((refilled s.pools.as obj size.toNat mmap).pools obj).base,size.toNat⟩,.pool⟩ := by
  have inv := ledger.inv.step _ fit
  obtain ⟨⟨low,high⟩,_⟩ := (ledger.inv.refilled obj size.toNat mmap).pools obj
  simp only [FreeBufs.region,Region.hi] at low high
  simp only [NotExactFit] at fit
  refine ⟨fun _ => ⟨(_,((refilled s.pools.as obj size.toNat mmap).pools obj).mapped),?_,rfl,?_⟩,
    fun heap => absurd heap (by simp),fun c live => ?_⟩
  · rw [cut]
    exact List.mem_append_right _ (List.mem_singleton.mpr rfl)
  · simp only [Region.Has,Region.hi]
    omega
  · cases origin : c.origin with
    | pool =>
      obtain ⟨h,handed,same,_⟩ := ledger.pool c live origin
      have apart := inv.safe.apart
      rw [cut] at apart
      rw [← same]
      exact (List.pairwise_append.mp apart).2.2 h handed _ (List.mem_singleton.mpr rfl)
    | heap =>
      have clear := (ledger.heap c live origin).2.refilled ledger.inv.intervals obj size.toNat mmap
      refine (clear.pools obj).mono (fun _ has => has) fun x has => ?_
      simp only [Region.Has,Region.hi] at has ⊢
      omega

theorem le_roundUp {size : Nat} (small : size + (pageSize - 1) < 2 ^ 64) : size ≤ roundUp size := by
  rw [roundUp,add64_of_lt small]
  simp only [pageSize]
  omega

theorem Ledger.adds_heap {s : Heap} (ledger : Ledger s) {obj : Nat} {size : BitVec 64}
    {mmap : Nat → Nat → Bool} {memalign : Nat → Option Nat} {addr : Nat}
    (ok : HeapOnly s (.request (.allocate obj size mmap memalign)))
    (fresh : FreshBlock s (.request (.allocate obj size mmap memalign)))
    (small : ((refilled s.pools.as obj size.toNat mmap).pools obj).bufSize < size.toNat)
    (block : heapBlock s.pools.as (.allocate obj size mmap memalign) = some ⟨addr,roundUp size.toNat⟩)
    (same : serve s.pools (.allocate obj size mmap memalign) =
      ⟨refilled s.pools.as obj size.toNat mmap,s.pools.handed⟩) :
    Ledger.Adds s (serve s.pools (.allocate obj size mmap memalign)) ⟨obj,⟨addr,size.toNat⟩,.heap⟩ := by
  obtain ⟨_,rounds,free⟩ := ok
  obtain ⟨blocks,handed,pools⟩ := fresh _ block
  have fits := le_roundUp rounds
  have inside : ∀ x, (Region.mk addr size.toNat).Has x → (Region.mk addr (roundUp size.toNat)).Has x := by
    intro x has
    simp only [Region.Has,Region.hi] at has ⊢
    omega
  have smaller : ∀ q : Region, (Region.mk addr (roundUp size.toNat)).Apart q → (Region.mk addr size.toNat).Apart q :=
    fun q apart => apart.mono inside fun _ has => has
  refine ⟨fun pool => absurd pool (by simp),fun _ => ⟨?_,fun h member => ?_,fun o => ?_,fun i member unused => ?_⟩,
    fun c live => ?_⟩
  · simp only
    omega
  · exact smaller _ (handed h member)
  · exact smaller _ (pools o)
  · rw [same] at member
    exact smaller _ (free _ block i member unused)
  · cases origin : c.origin with
    | heap => exact (smaller _ (blocks c live origin).symm).symm
    | pool =>
      obtain ⟨h,member,held,_⟩ := ledger.pool c live origin
      have within := ledger.inv.handed h member
      rw [same] at handed
      rw [← held]
      exact ((smaller _ (handed h member)).mono (fun _ has => has) fun _ has => within.has has).symm

theorem Ledger.step {s : Heap} (ledger : Ledger s) (c : HeapCall) (ok : HeapOnly s c)
    (fresh : FreshBlock s c) : Ledger (s.step c) := by
  cases c with
  | free obj buf => exact ledger.free obj buf ok
  | request r =>
    refine ledger.request ok.1 fun b member => ?_
    cases r with
    | newInterval obj mmap => cases member
    | allocate obj size mmap memalign =>
      rcases serve_allocate s.pools obj size mmap memalign with ⟨room,_,gets,cut⟩ | ⟨small,same,gets⟩
      · rw [gets] at member
        cases member
        exact ledger.adds_pool ok.1 room (by rw [cut])
      · rcases gets with nothing | ⟨addr,gets,block⟩
        · rw [nothing] at member
          cases member
        · rw [gets] at member
          cases member
          exact ledger.adds_heap ok fresh small block same

/-- In every run in which only blocks of `posix_memalign` are released (and no
request runs into the other defects of the allocator), every release is right and
live buffers share no byte. -/
theorem buffers_accounted (libcMalloc : Bool) (lines : List (Nat × Nat)) (loadAddr : Nat → Nat)
    (calls : List HeapCall) (maps : MapsOk 0 lines)
    (fresh : Meets Heap.step FreshBlock (Heap.initial libcMalloc lines loadAddr) calls)
    (met : Meets Heap.step HeapOnly (Heap.initial libcMalloc lines loadAddr) calls) :
    Accounted (run Heap.step (Heap.initial libcMalloc lines loadAddr) calls) := by
  have both := Meets.and _ _ met fresh
  have keeps : ∀ (s : Heap) (c : HeapCall), Ledger s → HeapOnly s c ∧ FreshBlock s c → Ledger (s.step c) :=
    fun _ c ledger ok => ledger.step c ok.1 ok.2
  exact (invariant_run Heap.step _ keeps (Ledger.initial maps) both).accounted

def oneCut : Heap :=
  run Heap.step (Heap.initial false oneMapping fun _ => 0x12000)
    [.request (.newInterval 0 fun _ _ => true),.request (request 0x400)]

theorem oneCut_fresh : Meets Heap.step FreshBlock (Heap.initial false oneMapping fun _ => 0x12000)
    [.request (.newInterval 0 fun _ _ => true),.request (request 0x400)] := by
  have none : heapBlock (run Heap.step (Heap.initial false oneMapping fun _ => 0x12000)
      [.request (.newInterval 0 fun _ _ => true)]).pools.as (request 0x400) = none := by decide +kernel
  refine ⟨fun block member => ?_,fun block member => ?_,trivial⟩
  · cases member
  · exact absurd (none.symm.trans member) (by simp)

def large : Request :=
  .allocate 0 0x20000 (fun _ _ => true) fun _ => some 0x7f0000001000

theorem large_fresh : FreshBlock oneCut (.request large) := by
  have gives : heapBlock oneCut.pools.as large = some ⟨0x7f0000001000,0x20000⟩ := by decide +kernel
  intro block member
  cases gives.symm.trans member
  refine ⟨by decide +kernel,by decide +kernel,fun o => ?_⟩
  by_cases here : o = 0
  · subst here
    decide +kernel
  · have bound : (oneCut.pools.as.pools o).mapped = .empty := by
      simp only [oneCut,run_cons,run_nil,Heap.step,request]
      rw [serve_other _ _ _ _ _ here,serve,allocateNewInterval_other _ _ here]
      rfl
    rw [large,serve_other _ _ _ _ _ here,bound]
    exact fun x _ => Region.not_has_empty x

/-- A buffer from the pool, a block, and the release of the block. -/
theorem buffers_accounted_block :
    Accounted (run Heap.step (Heap.initial false oneMapping fun _ => 0x12000)
      ([.request (.newInterval 0 fun _ _ => true),.request (request 0x400)] ++
        [.request large,.free 0 0x7f0000001000])) :=
  buffers_accounted false oneMapping (fun _ => 0x12000) _ oneMapping_ok
    ((meets_append Heap.step FreshBlock).mpr ⟨oneCut_fresh,large_fresh,trivial,trivial⟩) (by decide +kernel)

/-- A buffer cut from the pool is handed to `free`. -/
theorem pool_buffer_to_heap : MapsOk 0 oneMapping ∧
    Meets Heap.step FreshBlock (Heap.initial false oneMapping fun _ => 0x12000)
      ([.request (.newInterval 0 fun _ _ => true),.request (request 0x400)] ++ [.free 0 0x1000]) ∧
    ¬Accounted (run Heap.step (Heap.initial false oneMapping fun _ => 0x12000)
      ([.request (.newInterval 0 fun _ _ => true),.request (request 0x400)] ++ [.free 0 0x1000])) := by
  refine ⟨oneMapping_ok,(meets_append Heap.step FreshBlock).mpr ⟨oneCut_fresh,trivial,trivial⟩,fun accounted => ?_⟩
  have logged : (⟨0,0x1000,.heap,[⟨0,⟨0x1000,0x400⟩,.pool⟩]⟩ : Freed) ∈ (oneCut.step (.free 0 0x1000)).freed := by
    decide +kernel
  obtain ⟨b,live,heap,_⟩ := (accounted.released _ logged).heap rfl
  obtain rfl := List.mem_singleton.mp live
  cases heap

end SelfPropelled.Allocator
