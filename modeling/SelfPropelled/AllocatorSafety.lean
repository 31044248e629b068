import SelfPropelled.Allocator

/-! Safety of the allocator over whole runs: near-memory buffers stay inside the
range mapped for their pool and never overlap. -/

namespace SelfPropelled.Allocator
open Library

@[simp] theorem sub64_of_le {a b : Nat} (le : b ≤ a) (small : a < 2 ^ 64) : sub64 a b = a - b := by
  simp only [sub64]
  omega

@[simp] theorem add64_of_lt {a b : Nat} (small : a + b < 2 ^ 64) : add64 a b = a + b :=
  Nat.mod_eq_of_lt small

/-- An interval the allocator can use whole: not empty, below the kernel's half,
and page-sized unless it is larger than any size a pool gets. -/
structure FreeInterval.Ok (i : FreeInterval) : Prop where
  nonempty : i.start < i.stop
  user : i.stop < 2 ^ 63
  paged : pageSize ∣ i.stop - i.start ∨ 2 ^ 31 ≤ i.stop - i.start

/-- The lines of a maps file: ascending, page-sized holes. The last line may be one
whose addresses `strtoll` saturates to one value, after a hole larger than 2 GB. -/
def MapsOk : Nat → List (Nat × Nat) → Prop
  | _, [] => True
  | previousEnd, (start,stop) :: lines =>
    previousEnd ≤ start ∧ (start < stop ∨ start = stop ∧ lines = []) ∧ stop < 2 ^ 63 ∧
      (pageSize ∣ start - previousEnd ∨ 2 ^ 31 ≤ start - previousEnd) ∧ MapsOk stop lines

def Ascending (intervals : List FreeInterval) : Prop :=
  intervals.Pairwise fun i j => i.stop ≤ j.start

theorem memoryMappings_intervals {previousEnd : Nat} (starts : List Nat) {lines : List (Nat × Nat)}
    (maps : MapsOk previousEnd lines) (seen : ∀ a ∈ starts, a < previousEnd) :
    (∀ i ∈ (memoryMappings previousEnd starts lines).2, i.Ok ∧ i.used = false ∧ previousEnd ≤ i.start) ∧
      Ascending (memoryMappings previousEnd starts lines).2 := by
  induction lines generalizing previousEnd starts with
  | nil => simp [memoryMappings,Ascending]
  | cons line lines ih =>
    obtain ⟨start,stop⟩ := line
    obtain ⟨after,proper,user,paged,rest⟩ := maps
    have fresh : start ∉ starts := fun member => absurd (seen start member) (by omega)
    obtain ⟨each,ordered⟩ : (∀ i ∈ (memoryMappings stop (start :: starts) lines).2,
        i.Ok ∧ i.used = false ∧ stop ≤ i.start) ∧
        Ascending (memoryMappings stop (start :: starts) lines).2 := by
      rcases proper with less | ⟨_,rfl⟩
      · refine ih _ rest fun a member => ?_
        rcases List.mem_cons.mp member with rfl | old
        · exact less
        · exact Nat.lt_of_lt_of_le (seen a old) (by omega)
      · simp [memoryMappings,Ascending]
    rw [memoryMappings,if_neg fresh]
    by_cases hole : previousEnd ≠ start
    · simp only [if_pos hole]
      refine ⟨fun i member => ?_,List.pairwise_cons.mpr ⟨fun j member => ?_,ordered⟩⟩
      · rcases List.mem_cons.mp member with rfl | old
        · exact ⟨⟨by simp only; omega,by simp only; omega,paged⟩,rfl,Nat.le_refl _⟩
        · obtain ⟨ok,free,above⟩ := each i old
          exact ⟨ok,free,by omega⟩
      · have above := (each j member).2.2
        simp only
        omega
    · simp only [if_neg hole]
      refine ⟨fun i member => ?_,ordered⟩
      obtain ⟨ok,free,above⟩ := each i member
      exact ⟨ok,free,by omega⟩

theorem slices_spec (fuel : Nat) {stop newStart : Nat} (nonempty : newStart < stop) (user : stop < 2 ^ 63)
    (paged : pageSize ∣ stop - newStart) :
    (∀ i ∈ slices stop fuel newStart, i.Ok ∧ i.used = false ∧ newStart ≤ i.start ∧ i.stop ≤ stop) ∧
      Ascending (slices stop fuel newStart) := by
  induction fuel generalizing newStart with
  | zero => simp [slices,Ascending]
  | succ fuel ih =>
    have step : add64 newStart maxIntervalSize = newStart + maxIntervalSize :=
      add64_of_lt (by simp only [maxIntervalSize]; omega)
    simp only [slices,step]
    by_cases more : newStart + maxIntervalSize < stop
    · have whole : ¬newStart + maxIntervalSize > stop := by omega
      have next : pageSize ∣ stop - (newStart + maxIntervalSize) := by
        have split : stop - (newStart + maxIntervalSize) = stop - newStart - maxIntervalSize := by omega
        rw [split]
        exact Nat.dvd_sub paged (by decide)
      obtain ⟨each,ordered⟩ := ih more next
      simp only [if_pos more,if_neg whole]
      refine ⟨fun i member => ?_,List.pairwise_cons.mpr ⟨fun j member => (each j member).2.2.1,ordered⟩⟩
      rcases List.mem_cons.mp member with rfl | old
      · refine ⟨⟨?_,?_,.inl ?_⟩,rfl,Nat.le_refl _,?_⟩
        · simp only [maxIntervalSize]; omega
        · simp only; omega
        · simp only [Nat.add_sub_cancel_left]
          decide
        · simp only; omega
      · obtain ⟨ok,free,above,below⟩ := each i old
        exact ⟨ok,free,by omega,below⟩
    · simp only [if_neg more]
      refine ⟨fun i member => ?_,List.pairwise_singleton _ _⟩
      obtain rfl := List.mem_singleton.mp member
      have last : (if newStart + maxIntervalSize > stop then stop else newStart + maxIntervalSize) = stop := by
        split <;> omega
      rw [last]
      exact ⟨⟨nonempty,user,.inl paged⟩,rfl,Nat.le_refl _,Nat.le_refl _⟩

/-- The loop stops by its own condition: more fuel changes nothing. -/
theorem slices_more {stop fuel newStart : Nat} (user : stop < 2 ^ 63) (start : newStart ≤ stop)
    (enough : stop - newStart < fuel * maxIntervalSize) :
    slices stop (fuel + 1) newStart = slices stop fuel newStart := by
  induction fuel generalizing newStart with
  | zero => simp at enough
  | succ fuel ih =>
    have step : add64 newStart maxIntervalSize = newStart + maxIntervalSize :=
      add64_of_lt (by simp only [maxIntervalSize]; omega)
    conv_lhs => rw [slices,step]
    conv_rhs => rw [slices,step]
    by_cases more : newStart + maxIntervalSize < stop
    · have same := @ih (newStart + maxIntervalSize) (by omega) (by
        simp only [maxIntervalSize] at enough more ⊢
        omega)
      simp only [if_pos more,same]
    · simp only [if_neg more]

theorem reduce_spec {i : FreeInterval} (ok : i.Ok) (free : i.used = false) :
    (reduce i).used = false ∧ (reduce i).stop = i.stop ∧ i.start ≤ (reduce i).start ∧
      (reduce i).start < (reduce i).stop ∧ pageSize ∣ (reduce i).stop - (reduce i).start := by
  have proper := ok.nonempty
  have user := ok.user
  have size : i.size = i.stop - i.start := sub64_of_le (by omega) (by omega)
  by_cases large : i.size > maxMappedAreaSize
  · have cut : sub64 i.stop maxMappedAreaSize = i.stop - maxMappedAreaSize := by
      apply sub64_of_le
      · rw [size] at large; omega
      · omega
    rw [size] at large
    simp only [reduce,size,if_pos large,cut]
    refine ⟨free,trivial,by omega,?_,?_⟩
    · simp only [maxMappedAreaSize] at large ⊢; omega
    · have whole : i.stop - (i.stop - maxMappedAreaSize) = maxMappedAreaSize := by omega
      rw [whole]
      decide
  · simp only [reduce,if_neg large]
    refine ⟨free,trivial,Nat.le_refl _,proper,ok.paged.resolve_right fun huge => ?_⟩
    rw [size] at large
    simp only [maxMappedAreaSize] at large
    omega

theorem slice_reduce_spec {i : FreeInterval} (ok : i.Ok) (free : i.used = false) :
    (∀ j ∈ slice (reduce i), j.Ok ∧ j.used = false ∧ i.start ≤ j.start ∧ j.stop ≤ i.stop) ∧
      Ascending (slice (reduce i)) := by
  obtain ⟨_,stop,above,proper,paged⟩ := reduce_spec ok free
  obtain ⟨inner,sorted⟩ := slices_spec ((reduce i).size / maxIntervalSize + 1) proper
    (by rw [stop]; exact ok.user) paged
  refine ⟨fun j cut => ?_,sorted⟩
  obtain ⟨okj,freej,low,high⟩ := inner j cut
  exact ⟨okj,freej,by omega,by omega⟩

theorem updateFreeIntervals_spec {intervals : List FreeInterval} (libcMalloc : Bool)
    (each : ∀ i ∈ intervals, i.Ok ∧ i.used = false) (ordered : Ascending intervals) :
    (∀ i ∈ updateFreeIntervals libcMalloc intervals, i.Ok ∧ i.used = false) ∧
      Ascending (updateFreeIntervals libcMalloc intervals) := by
  cases libcMalloc with
  | true => exact ⟨each,ordered⟩
  | false =>
    simp only [updateFreeIntervals,Bool.false_eq_true,if_false,List.flatMap_map]
    have cut := fun i (member : i ∈ intervals) => slice_reduce_spec (each i member).1 (each i member).2
    refine ⟨fun j member => ?_,List.pairwise_flatMap.mpr ⟨fun i member => (cut i member).2,?_⟩⟩
    · obtain ⟨i,member,inside⟩ := List.mem_flatMap.mp member
      obtain ⟨ok,free,_⟩ := (cut i member).1 j inside
      exact ⟨ok,free⟩
    · refine ordered.imp_of_mem fun {i k} first second before x left y right => ?_
      have low := ((cut i first).1 x left).2.2.2
      have high := ((cut k second).1 y right).2.2.1
      omega

theorem getClosestInterval_spec {addr : Nat} {intervals intervals' : List FreeInterval}
    {i : FreeInterval} (found : getClosestInterval addr intervals = some (i,intervals')) :
    ∃ k, intervals[k]? = some i ∧ i.used = false ∧
      intervals' = intervals.set k {i with used := true} := by
  induction intervals generalizing intervals' with
  | nil => cases found
  | cons j rest ih =>
    rw [getClosestInterval] at found
    split at found
    · obtain ⟨⟨i',rest'⟩,inner,same⟩ := Option.map_eq_some_iff.mp found
      cases same
      obtain ⟨k,at',free,marked⟩ := ih inner
      exact ⟨k + 1,by simpa using at',free,by simp [marked]⟩
    · rename_i suitable
      cases found
      refine ⟨0,rfl,?_,rfl⟩
      simp only [Bool.or_eq_true,not_or] at suitable
      exact Bool.eq_false_iff.mpr suitable.1.2

theorem mapInterval_within {mmap : Nat → Nat → Bool} {fuel base size : Nat} {r : Region}
    (mapped : mapInterval mmap fuel base size = some r) (small : base + size < 2 ^ 63) :
    r.Within ⟨base,size⟩ := by
  induction fuel generalizing base size with
  | zero => cases mapped
  | succ fuel ih =>
    rw [mapInterval] at mapped
    split at mapped
    · cases mapped
      exact ⟨Nat.le_refl _,Nat.le_refl _⟩
    · by_cases fits : pageSize ≤ size
      · have shorter : sub64 size pageSize = size - pageSize := sub64_of_le fits (by omega)
        have higher : add64 base pageSize = base + pageSize := add64_of_lt (by
          simp only [pageSize]; omega)
        rw [shorter,higher] at mapped
        split at mapped
        · cases mapped
        · obtain ⟨low,high⟩ := ih mapped (by omega)
          simp only [Region.Within,Region.hi] at *
          omega
      · have wraps : sub64 size pageSize ≥ 2 ^ 63 := by
          simp only [sub64,pageSize] at *
          omega
        rw [if_pos wraps] at mapped
        cases mapped

theorem FreeInterval.Ok.wanted {i : FreeInterval} (ok : i.Ok) :
    i.wanted.Within ⟨i.start,i.stop - i.start⟩ := by
  have proper := ok.nonempty
  have user := ok.user
  have whole : i.size = i.stop - i.start := sub64_of_le (by omega) (by omega)
  obtain ⟨size,rounded,positive,fits⟩ : ∃ size,
      roundUp (if i.size ≤ 2147483646 then i.size else 2147483646) = size ∧ pageSize ≤ size ∧
        size ≤ i.stop - i.start := by
    refine ⟨_,rfl,?_⟩
    rw [whole]
    rcases ok.paged with ⟨pages,paged⟩ | huge
    · split <;> simp only [roundUp,add64,pageSize] at * <;> omega
    · rw [if_neg (by omega)]
      simp only [roundUp,add64,pageSize]
      omega
  have low : sub64 i.stop size = i.stop - size := sub64_of_le (by omega) (by omega)
  simp only [FreeInterval.wanted,rounded,low]
  split
  · rw [add64_of_lt (by simp only [pageSize] at *; omega),sub64_of_le positive (by omega)]
    simp only [Region.Within,Region.hi]
    omega
  · simp only [Region.Within,Region.hi]
    omega

theorem allocateNewInterval_cases {as : AddrSpace} (obj : Nat) (mmap : Nat → Nat → Bool)
    (ok : ∀ i ∈ as.intervals, i.Ok) :
    allocateNewInterval as obj mmap = as ∨
    ∃ (k : Nat) (i : FreeInterval) (pool : FreeBufs), as.intervals[k]? = some i ∧ i.used = false ∧
      allocateNewInterval as obj mmap =
        AddrSpace.setPool {as with intervals := as.intervals.set k {i with used := true}} obj pool ∧
      (pool = as.pools obj ∨ ∃ r : Region, pool = ⟨r.lo,r.len,r⟩ ∧
        r.Within ⟨i.start,i.stop - i.start⟩) := by
  simp only [allocateNewInterval]
  split
  next => exact .inl rfl
  next i intervals found =>
    obtain ⟨k,there,free,rfl⟩ := getClosestInterval_spec found
    have proper := ok i (List.mem_of_getElem? there)
    have wanted := proper.wanted
    have user := proper.user
    refine .inr ⟨k,i,_,there,free,rfl,?_⟩
    simp only [initMemoryAlloc]
    split
    next r mapped =>
      have small : i.wanted.lo + i.wanted.len < 2 ^ 63 := by
        have nonempty := proper.nonempty
        simp only [Region.Within,Region.hi] at wanted
        omega
      have inner := mapInterval_within mapped small
      refine .inr ⟨r,rfl,?_⟩
      simp only [Region.Within,Region.hi] at inner wanted ⊢
      omega
    next => exact .inl rfl

/-- The allocator with the buffers it has handed out from pools, each with the
range that was mapped for its pool. -/
structure Pools where
  as : AddrSpace
  handed : List (Region × Region)

inductive Request
  | newInterval (obj : Nat) (mmap : Nat → Nat → Bool)
  | allocate (obj : Nat) (size : BitVec 64) (mmap : Nat → Nat → Bool) (memalign : Nat → Option Nat)

def serve (s : Pools) : Request → Pools
  | .newInterval obj mmap => {s with as := allocateNewInterval s.as obj mmap}
  | .allocate obj size mmap memalign =>
    let (served,as) := allocateBuffer s.as obj size.toNat mmap memalign
    ⟨as,match served with
      | .pool buf mapped => s.handed ++ [(buf,mapped)]
      | _ => s.handed⟩

def initial (libcMalloc : Bool) (lines : List (Nat × Nat)) (loadAddr : Nat → Nat) : Pools where
  as :=
    { starts := (updateMemoryMappings lines).1
      loadAddr := loadAddr
      intervals := updateFreeIntervals libcMalloc (updateMemoryMappings lines).2
      pools := fun _ => .none }
  handed := []

/-- Every pool buffer lies in the range mapped for its pool, no two share a byte,
and no pool records more than what remains of its range. -/
structure Safe (s : Pools) : Prop where
  inside : ∀ h ∈ s.handed, h.1.Within h.2
  apart : s.handed.Pairwise fun h k => h.1.Apart k.1
  remaining : ∀ o, (s.as.pools o).bufSize ≤ (s.as.pools o).mapped.hi - (s.as.pools o).base

/-- The request does not ask for exactly what is left of the pool that serves it. -/
def NotExactFit (s : Pools) : Request → Prop
  | .newInterval _ _ => True
  | .allocate obj size mmap _ =>
    ((refilled s.as obj size.toNat mmap).pools obj).bufSize ≠ size.toNat

instance (s : Pools) : (r : Request) → Decidable (NotExactFit s r)
  | .newInterval _ _ => .isTrue trivial
  | .allocate _ _ _ _ => inferInstanceAs (Decidable (_ ≠ _))

inductive Owner
  | buffer (k : Nat)
  | pool (obj : Nat)
  | interval (k : Nat)
deriving DecidableEq

def FreeInterval.region (i : FreeInterval) : Region :=
  if i.used then .empty else ⟨i.start,i.stop - i.start⟩

def FreeBufs.region (p : FreeBufs) : Region := ⟨p.base,p.bufSize⟩

def Pools.region (s : Pools) : Owner → Region
  | .buffer k => (s.handed[k]?.map (·.1)).getD .empty
  | .pool obj => (s.as.pools obj).region
  | .interval k => (s.as.intervals[k]?.map FreeInterval.region).getD .empty

structure Inv (s : Pools) : Prop where
  owned : Owned s.region
  intervals : ∀ i ∈ s.as.intervals, i.Ok
  pools : ∀ o, (s.as.pools o).region.Within (s.as.pools o).mapped ∧ (s.as.pools o).mapped.hi < 2 ^ 63
  handed : ∀ h ∈ s.handed, h.1.Within h.2

theorem Inv.safe {s : Pools} (inv : Inv s) : Safe s where
  inside := inv.handed
  apart := by
    rw [List.pairwise_iff_getElem]
    intro i j first second before
    have apart := inv.owned (.buffer i) (.buffer j) (by simp; omega)
    simpa [Pools.region,List.getElem?_eq_getElem first,List.getElem?_eq_getElem second] using apart
  remaining := fun o => by
    obtain ⟨low,high⟩ := (inv.pools o).1
    simp only [FreeBufs.region,Region.hi] at low high
    simp only [Region.hi]
    omega

theorem region_interval_apart {intervals : List FreeInterval} (ordered : Ascending intervals)
    {k l : Nat} (differ : k ≠ l) :
    ((intervals[k]?.map FreeInterval.region).getD .empty).Apart
      ((intervals[l]?.map FreeInterval.region).getD .empty) := by
  have before : ∀ {k l : Nat}, k < l → ((intervals[k]?.map FreeInterval.region).getD .empty).Apart
      ((intervals[l]?.map FreeInterval.region).getD .empty) := by
    intro k l less x first second
    cases left : intervals[k]? with
    | none => simp [left,Region.not_has_empty] at first
    | some i =>
      cases right : intervals[l]? with
      | none => simp [right,Region.not_has_empty] at second
      | some j =>
        obtain ⟨inL,rfl⟩ := List.getElem?_eq_some_iff.mp left
        obtain ⟨inR,rfl⟩ := List.getElem?_eq_some_iff.mp right
        have sorted := List.pairwise_iff_getElem.mp ordered k l inL inR less
        simp only [left,right,Option.map_some,Option.getD_some,FreeInterval.region] at first second
        split at first
        · exact Region.not_has_empty x first
        · split at second
          · exact Region.not_has_empty x second
          · simp only [Region.Has,Region.hi] at first second
            omega
  rcases Nat.lt_or_gt_of_ne differ with less | more
  · exact before less
  · exact (before more).symm

theorem Inv.initial {libcMalloc : Bool} {lines : List (Nat × Nat)} {loadAddr : Nat → Nat}
    (maps : MapsOk 0 lines) : Inv (initial libcMalloc lines loadAddr) := by
  obtain ⟨each,ordered⟩ := memoryMappings_intervals [] maps (by simp)
  obtain ⟨ok,sorted⟩ := updateFreeIntervals_spec libcMalloc
    (fun i member => ⟨(each i member).1,(each i member).2.1⟩) ordered
  refine ⟨?_,fun i member => (ok i member).1,fun o => ?_,by simp [Allocator.initial]⟩
  · have nothing : ∀ i x, (∀ k, i ≠ Owner.interval k) →
        ¬((Allocator.initial libcMalloc lines loadAddr).region i).Has x := by
      intro i x other
      cases i with
      | buffer k => simp [Pools.region,Allocator.initial,Region.not_has_empty]
      | pool o => simp [Pools.region,Allocator.initial,FreeBufs.none,FreeBufs.region,Region.Has,Region.hi]
      | interval k => exact absurd rfl (other k)
    intro i j differ x first second
    cases i with
    | buffer k => exact nothing _ x (by simp) first
    | pool o => exact nothing _ x (by simp) first
    | interval k =>
      cases j with
      | buffer k => exact nothing _ x (by simp) second
      | pool o => exact nothing _ x (by simp) second
      | interval l => exact region_interval_apart sorted (by simpa using differ) x first second
  · simp [Allocator.initial,FreeBufs.none,FreeBufs.region,Region.Within,Region.hi,Region.empty]

theorem Inv.newInterval {s : Pools} (inv : Inv s) (obj : Nat) (mmap : Nat → Nat → Bool) :
    Inv {s with as := allocateNewInterval s.as obj mmap} := by
  rcases allocateNewInterval_cases obj mmap inv.intervals with same | ⟨k,i,pool,there,free,taken,choice⟩
  · rw [same]
    exact inv
  have proper := inv.intervals i (List.mem_of_getElem? there)
  have held : s.region (.interval k) = ⟨i.start,i.stop - i.start⟩ := by
    simp [Pools.region,there,FreeInterval.region,free]
  obtain ⟨bound,_⟩ := List.getElem?_eq_some_iff.mp there
  rw [taken]
  let s' : Pools := {s with as := AddrSpace.setPool {s.as with
    intervals := s.as.intervals.set k {i with used := true}} obj pool}
  change Inv s'
  have emptied : ∀ x, ¬(s'.region (.interval k)).Has x := by
    intro x
    simp [s',Pools.region,AddrSpace.setPool,bound,FreeInterval.region,Region.not_has_empty]
  have poured : s'.region (.pool obj) = pool.region := by simp [s',Pools.region,AddrSpace.setPool]
  have others : ∀ o, o ≠ .pool obj → o ≠ .interval k → s'.region o = s.region o := by
    intro o notPool notInterval
    cases o with
    | buffer j => rfl
    | pool p =>
      have other : p ≠ obj := fun same => notPool (by rw [same])
      simp [s',Pools.region,AddrSpace.setPool,other]
    | interval j =>
      have other : k ≠ j := fun same => notInterval (by rw [same])
      simp [s',Pools.region,AddrSpace.setPool,List.getElem?_set_ne other]
  refine ⟨?_,fun j member => ?_,fun o => ?_,inv.handed⟩
  · rcases choice with kept | ⟨r,made,within⟩
    · refine inv.owned.refine id (fun o x has => ?_) fun i j differ same => absurd same differ
      by_cases here : o = .pool obj
      · subst here
        rwa [poured,kept] at has
      · by_cases there : o = .interval k
        · subst there
          exact absurd has (emptied x)
        · rwa [others o here there] at has
    · -- the taken interval feeds the pool, every other range stays with its owner
      refine inv.owned.refine (fun o => if o = .pool obj then .interval k else o)
        (fun o x has => ?_) fun i j differ same => ?_
      · by_cases here : o = .pool obj
        · rw [if_pos here,held]
          subst here
          rw [poured,made] at has
          exact within.has has
        · rw [if_neg here]
          by_cases there : o = .interval k
          · subst there
            exact absurd has (emptied x)
          · rwa [others o here there] at has
      · have one : i = .interval k ∨ j = .interval k := by
          by_cases first : i = .pool obj
          · have second : j ≠ .pool obj := fun both => differ (first.trans both.symm)
            exact .inr (by simpa [first,second] using same.symm)
          · by_cases second : j = .pool obj
            · exact .inl (by simpa [first,second] using same)
            · exact absurd (by simpa [first,second] using same) differ
        rcases one with rfl | rfl
        · exact fun x has => absurd has (emptied x)
        · exact fun x _ has => emptied x has
  · rcases List.mem_or_eq_of_mem_set member with kept | marked
    · exact inv.intervals j kept
    · subst marked
      exact ⟨proper.nonempty,proper.user,proper.paged⟩
  · by_cases here : o = obj
    · subst here
      simp only [s',AddrSpace.setPool,if_true]
      rcases choice with rfl | ⟨r,rfl,within⟩
      · exact inv.pools o
      · have user := proper.user
        have nonempty := proper.nonempty
        simp only [Region.Within,Region.hi,FreeBufs.region] at within ⊢
        omega
    · simpa only [s',AddrSpace.setPool,if_neg here] using inv.pools o

/-- Serving a request that leaves at least one byte splits the pool's range. -/
theorem Inv.serve {s : Pools} (inv : Inv s) (obj : Nat) {size : Nat} (room : size < (s.as.pools obj).bufSize) :
    Inv ⟨s.as.setPool obj {s.as.pools obj with
        base := add64 (s.as.pools obj).base (size + 1)
        bufSize := sub64 (s.as.pools obj).bufSize (size + 1)},
      s.handed ++ [(⟨(s.as.pools obj).base,size⟩,(s.as.pools obj).mapped)]⟩ := by
  obtain ⟨⟨low,high⟩,user⟩ := inv.pools obj
  simp only [FreeBufs.region,Region.hi] at low high user
  have base : add64 (s.as.pools obj).base (size + 1) = (s.as.pools obj).base + (size + 1) :=
    add64_of_lt (by omega)
  have left : sub64 (s.as.pools obj).bufSize (size + 1) = (s.as.pools obj).bufSize - (size + 1) :=
    sub64_of_le room (by omega)
  rw [base,left]
  let s' : Pools := ⟨s.as.setPool obj {s.as.pools obj with
      base := (s.as.pools obj).base + (size + 1)
      bufSize := (s.as.pools obj).bufSize - (size + 1)},
    s.handed ++ [(⟨(s.as.pools obj).base,size⟩,(s.as.pools obj).mapped)]⟩
  change Inv s'
  have pool : s'.region (.pool obj) =
      ⟨(s.as.pools obj).base + (size + 1),(s.as.pools obj).bufSize - (size + 1)⟩ := by
    simp [s',Pools.region,AddrSpace.setPool,FreeBufs.region]
  have buffer : s'.region (.buffer s.handed.length) = ⟨(s.as.pools obj).base,size⟩ := by
    simp [s',Pools.region]
  have others : ∀ o, o ≠ .pool obj → o ≠ .buffer s.handed.length → s'.region o = s.region o := by
    intro o notPool notBuffer
    cases o with
    | buffer k =>
      have other : k ≠ s.handed.length := fun same => notBuffer (by rw [same])
      simp only [s',Pools.region]
      by_cases old : k < s.handed.length
      · rw [List.getElem?_append_left old]
      · rw [List.getElem?_eq_none (by simp; omega),List.getElem?_eq_none (by omega)]
    | pool p =>
      have other : p ≠ obj := fun same => notPool (by rw [same])
      simp [s',Pools.region,AddrSpace.setPool,other]
    | interval k => rfl
  have split : (s'.region (.buffer s.handed.length)).Apart (s'.region (.pool obj)) := by
    rw [pool,buffer]
    exact Region.apart_of_le (by simp only [Region.hi]; omega)
  refine ⟨?_,inv.intervals,fun o => ?_,fun h member => ?_⟩
  · refine inv.owned.refine (fun o => if o = .buffer s.handed.length then .pool obj else o)
      (fun o x has => ?_) fun i j differ same => ?_
    · by_cases new : o = .buffer s.handed.length
      · rw [if_pos new]
        rw [new,buffer] at has
        simp only [Region.Has,Region.hi,Pools.region,FreeBufs.region] at has ⊢
        omega
      · rw [if_neg new]
        by_cases mine : o = .pool obj
        · rw [mine,pool] at has
          rw [mine]
          simp only [Region.Has,Region.hi,Pools.region,FreeBufs.region] at has ⊢
          omega
        · rwa [others o mine new] at has
    · by_cases first : i = .buffer s.handed.length
      · have second : j ≠ .buffer s.handed.length := fun both => differ (first.trans both.symm)
        have mine : j = .pool obj := by simpa [first,second] using same.symm
        rw [first,mine]
        exact split
      · by_cases second : j = .buffer s.handed.length
        · have mine : i = .pool obj := by simpa [first,second] using same
          rw [second,mine]
          exact split.symm
        · exact absurd (by simpa [first,second] using same) differ
  · by_cases here : o = obj
    · subst here
      simp only [s',AddrSpace.setPool,if_true,FreeBufs.region,Region.Within,Region.hi]
      omega
    · simpa only [s',AddrSpace.setPool,if_neg here] using inv.pools o
  · rcases List.mem_append.mp member with old | new
    · exact inv.handed h old
    · obtain rfl := List.mem_singleton.mp new
      simp only [Region.Within,Region.hi]
      omega

theorem Inv.refilled {s : Pools} (inv : Inv s) (obj size : Nat) (mmap : Nat → Nat → Bool) :
    Inv {s with as := refilled s.as obj size mmap} := by
  simp only [Allocator.refilled]
  split
  · exact inv.newInterval obj mmap
  · exact inv

theorem Inv.step {s : Pools} (inv : Inv s) (r : Request) (ok : NotExactFit s r) :
    Inv (Allocator.serve s r) := by
  cases r with
  | newInterval obj mmap => exact inv.newInterval obj mmap
  | allocate obj size mmap memalign =>
    have full := inv.refilled obj size.toNat mmap
    simp only [NotExactFit] at ok
    simp only [Allocator.serve,allocateBuffer]
    split
    next fits =>
      exact full.serve obj (by simp only; omega)
    next =>
      cases memalign (roundUp size.toNat) <;> exact full

/-- Allocator safety: in every run of requests and refills on any objects in which
no request asks for exactly what is left of the pool that serves it. -/
theorem allocator_safe (libcMalloc : Bool) (lines : List (Nat × Nat)) (loadAddr : Nat → Nat)
    (requests : List Request) (maps : MapsOk 0 lines)
    (met : Meets serve NotExactFit (initial libcMalloc lines loadAddr) requests) :
    Safe (run serve (initial libcMalloc lines loadAddr) requests) :=
  (invariant_run serve NotExactFit (fun _ r inv ok => inv.step r ok) (Inv.initial maps) met).safe

/-- One mapping with a hole of 18 pages in front of it; the first page stays free. -/
def oneMapping : List (Nat × Nat) := [(0x12000,0x13000)]

def request (size : BitVec 64) : Request :=
  .allocate 0 size (fun _ _ => true) fun _ => none

theorem oneMapping_ok : MapsOk 0 oneMapping := by
  refine ⟨by decide,.inl (by decide),by decide,.inl ?_,trivial⟩
  decide

theorem allocator_safe_oneMapping : Safe (run serve (initial false oneMapping fun _ => 0x12000)
    [.newInterval 0 fun _ _ => true,request 0x400,request 0x800]) :=
  allocator_safe false oneMapping (fun _ => 0x12000) _ oneMapping_ok (by decide +kernel)

/-- A request for all that is left makes the size wrap; the next buffer lies
outside the mapped range. -/
theorem allocator_exact_fit_oneMapping : MapsOk 0 oneMapping ∧
    ¬Safe (run serve (initial false oneMapping fun _ => 0x12000)
      [.newInterval 0 fun _ _ => true,request 0x11000,request 0x1000]) := by
  refine ⟨oneMapping_ok,fun safe => ?_⟩
  have inside := safe.inside (⟨0x12001,0x1000⟩,⟨0x1000,0x11000⟩) (by decide +kernel)
  exact absurd inside (by decide)

end SelfPropelled.Allocator
