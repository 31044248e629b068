import SelfPropelled.IntervalMapping

/-! Which free interval is bound to an object, and how far from the object its buffers lie. -/

namespace SelfPropelled.Allocator
open Library

/-- An unused interval that starts at or below the address, within 1.5 GB. -/
def Eligible (addr : Nat) (i : FreeInterval) : Prop :=
  i.start ≤ addr ∧ i.used = false ∧ addr - i.start ≤ maxMappedAreaSize

/-- What `GetClosestInterval` is to return: an eligible interval that no eligible one is
nearer than, and nothing only if there is none. -/
def Closest (addr : Nat) (intervals : List FreeInterval) : Prop :=
  (∀ i intervals', getClosestInterval addr intervals = some (i,intervals') → i ∈ intervals ∧
    Eligible addr i ∧ ∀ j ∈ intervals, Eligible addr j → addr - i.start ≤ addr - j.start) ∧
  (getClosestInterval addr intervals = none → ∀ j ∈ intervals, ¬Eligible addr j)

/-- No eligible interval behind the first one is nearer. -/
def FirstNearest (addr : Nat) (intervals : List FreeInterval) : Prop :=
  ∀ before i after, intervals = before ++ i :: after → (∀ j ∈ before, ¬Eligible addr j) →
    Eligible addr i → ∀ j ∈ after, Eligible addr j → j.start ≤ i.start

theorem skipped_iff {addr : Nat} (word : addr < 2 ^ 64) (i : FreeInterval) :
    (i.start > addr || i.used || sub64 addr i.start > maxMappedAreaSize) = true ↔ ¬Eligible addr i := by
  by_cases above : i.start > addr
  · have low : ¬i.start ≤ addr := by omega
    simp [Eligible,above,low]
  · have distance : sub64 addr i.start = addr - i.start := sub64_of_le (by omega) word
    have low : i.start ≤ addr := by omega
    have far : maxMappedAreaSize < addr - i.start ↔ maxMappedAreaSize + i.start < addr := by omega
    cases used : i.used <;> simp [Eligible,distance,above,low,used,far]

theorem getClosestInterval_none {addr : Nat} (word : addr < 2 ^ 64) {intervals : List FreeInterval} :
    getClosestInterval addr intervals = none ↔ ∀ j ∈ intervals, ¬Eligible addr j := by
  induction intervals with
  | nil => simp [getClosestInterval]
  | cons i rest ih =>
    rw [getClosestInterval,List.forall_mem_cons]
    split
    next skip =>
      rw [Option.map_eq_none_iff,ih]
      exact ⟨fun none => ⟨(skipped_iff word i).mp skip,none⟩,fun both => both.2⟩
    next taken => exact iff_of_false (by simp) fun both => taken ((skipped_iff word i).mpr both.1)

theorem getClosestInterval_some {addr : Nat} (word : addr < 2 ^ 64) {intervals intervals' : List FreeInterval}
    {i : FreeInterval} : getClosestInterval addr intervals = some (i,intervals') ↔
      ∃ before after, intervals = before ++ i :: after ∧ (∀ j ∈ before, ¬Eligible addr j) ∧ Eligible addr i ∧
        intervals' = before ++ {i with used := true} :: after := by
  induction intervals generalizing intervals' with
  | nil => simp [getClosestInterval]
  | cons k rest ih =>
    rw [getClosestInterval]
    split
    next skip =>
      have passed := (skipped_iff word k).mp skip
      rw [Option.map_eq_some_iff]
      constructor
      · rintro ⟨⟨j,rest'⟩,found,same⟩
        simp only [Prod.mk.injEq] at same
        obtain ⟨rfl,rfl⟩ := same
        obtain ⟨before,after,rfl,earlier,here,marked⟩ := ih.mp found
        exact ⟨k :: before,after,rfl,List.forall_mem_cons.mpr ⟨passed,earlier⟩,here,by rw [marked]; rfl⟩
      · rintro ⟨before,after,split,earlier,here,rfl⟩
        cases before with
        | nil =>
          obtain ⟨rfl,rfl⟩ := List.cons.inj split
          exact absurd here passed
        | cons b before =>
          obtain ⟨rfl,rfl⟩ := List.cons.inj split
          exact ⟨(i,before ++ {i with used := true} :: after),
            ih.mpr ⟨before,after,rfl,(List.forall_mem_cons.mp earlier).2,here,rfl⟩,rfl⟩
    next taken =>
      have first : Eligible addr k := by
        by_contra passed
        exact taken ((skipped_iff word k).mpr passed)
      constructor
      · intro found
        obtain ⟨rfl,rfl⟩ := Prod.mk.inj (Option.some.inj found)
        exact ⟨[],rest,rfl,by simp,first,rfl⟩
      · rintro ⟨before,after,split,earlier,_,rfl⟩
        cases before with
        | nil =>
          obtain ⟨rfl,rfl⟩ := List.cons.inj split
          rfl
        | cons b before =>
          obtain ⟨rfl,rfl⟩ := List.cons.inj split
          exact absurd first (List.forall_mem_cons.mp earlier).1

theorem closest_iff {addr : Nat} (word : addr < 2 ^ 64) (intervals : List FreeInterval) :
    Closest addr intervals ↔ FirstNearest addr intervals := by
  constructor
  · rintro ⟨nearest,_⟩ before i after rfl earlier here j later eligible
    have taken := (nearest i _ ((getClosestInterval_some word).mpr ⟨before,after,rfl,earlier,here,rfl⟩)).2.2 j
      (List.mem_append_right _ (List.mem_cons_of_mem _ later)) eligible
    have low := here.1
    have low' := eligible.1
    omega
  · intro first
    refine ⟨fun i intervals' found => ?_,fun none => (getClosestInterval_none word).mp none⟩
    obtain ⟨before,after,rfl,earlier,here,_⟩ := (getClosestInterval_some word).mp found
    refine ⟨List.mem_append_right _ List.mem_cons_self,here,fun j member eligible => ?_⟩
    rcases List.mem_append.mp member with old | behind
    · exact absurd eligible (earlier j old)
    · rcases List.mem_cons.mp behind with rfl | later
      · exact Nat.le_refl _
      · have nearer := first before i after rfl earlier here j later eligible
        omega

/-- Every byte of the buffer is a signed 32-bit displacement away. -/
def InReach (loadAddr : Nat) (buf : Region) : Prop :=
  ∀ x, buf.Has x → -2147483648 ≤ (x : Int) - loadAddr ∧ (x : Int) - loadAddr < 2147483648

/-- The request is for an object whose load address was a mapping when the maps were
read, and does not ask for exactly what is left of its pool. -/
def Known (s : Pools) (r : Request) : Prop :=
  NotExactFit s r ∧ match r with
    | .newInterval obj _ => s.as.loadAddr obj ∈ s.as.starts
    | .allocate obj _ _ _ => s.as.loadAddr obj ∈ s.as.starts

instance (s : Pools) : (r : Request) → Decidable (Known s r)
  | .newInterval _ _ | .allocate _ _ _ _ => inferInstanceAs (Decidable (_ ∧ _))

/-- What a run of such requests keeps: intervals do not pass a mapping's start, and the
pools of known objects lie in the 1.5 GB below their object. -/
structure Near (s : Pools) : Prop where
  below : ∀ a ∈ s.as.starts, ∀ i ∈ s.as.intervals, i.start ≤ a → i.stop ≤ a
  words : ∀ a ∈ s.as.starts, a < 2 ^ 63
  pools : ∀ o, s.as.loadAddr o ∈ s.as.starts → (s.as.pools o).bufSize = 0 ∨
    s.as.loadAddr o ≤ (s.as.pools o).base + maxMappedAreaSize ∧
      (s.as.pools o).base + (s.as.pools o).bufSize ≤ s.as.loadAddr o

theorem memoryMappings_below {previousEnd : Nat} (starts : List Nat) {lines : List (Nat × Nat)}
    (maps : MapsOk previousEnd lines) (seen : ∀ a ∈ starts, a < previousEnd) :
    (∀ a ∈ (memoryMappings previousEnd starts lines).1, a ∈ starts ∨ previousEnd ≤ a ∧ a < 2 ^ 63) ∧
      ∀ a ∈ (memoryMappings previousEnd starts lines).1,
        ∀ i ∈ (memoryMappings previousEnd starts lines).2, i.start ≤ a → i.stop ≤ a := by
  induction lines generalizing previousEnd starts with
  | nil => exact ⟨fun a member => .inl member,by simp [memoryMappings]⟩
  | cons line lines ih =>
    obtain ⟨start,stop⟩ := line
    obtain ⟨after,proper,user,_,rest⟩ := maps
    have fresh : start ∉ starts := fun member => absurd (seen start member) (by omega)
    have tail : (∀ a ∈ (memoryMappings stop (start :: starts) lines).1,
          a ∈ start :: starts ∨ stop ≤ a ∧ a < 2 ^ 63) ∧
        ∀ a ∈ (memoryMappings stop (start :: starts) lines).1,
          ∀ i ∈ (memoryMappings stop (start :: starts) lines).2, i.start ≤ a → i.stop ≤ a := by
      rcases proper with less | ⟨_,rfl⟩
      · refine ih (start :: starts) rest fun a member => ?_
        rcases List.mem_cons.mp member with rfl | old
        · exact less
        · exact Nat.lt_of_lt_of_le (seen a old) (by omega)
      · exact ⟨fun a member => .inl member,by simp [memoryMappings]⟩
    have keys : ∀ a ∈ (memoryMappings stop (start :: starts) lines).1,
        a ∈ starts ∨ start ≤ a ∧ a < 2 ^ 63 := by
      intro a member
      rcases tail.1 a member with known | later
      · rcases List.mem_cons.mp known with rfl | old
        · exact .inr ⟨Nat.le_refl _,by omega⟩
        · exact .inl old
      · exact .inr ⟨by omega,later.2⟩
    rw [memoryMappings,if_neg fresh]
    refine ⟨fun a member => ?_,fun a member i listed low => ?_⟩
    · rcases keys a member with old | above
      · exact .inl old
      · exact .inr ⟨by omega,above.2⟩
    · by_cases hole : previousEnd ≠ start
      · simp only [if_pos hole] at listed
        rcases List.mem_cons.mp listed with rfl | later
        · rcases keys a member with old | above
          · have before := seen a old
            simp only at low
            omega
          · exact above.1
        · exact tail.2 a member i later low
      · simp only [if_neg hole] at listed
        exact tail.2 a member i listed low

theorem Near.initial (libcMalloc : Bool) {lines : List (Nat × Nat)} (loadAddr : Nat → Nat)
    (maps : MapsOk 0 lines) : Near (initial libcMalloc lines loadAddr) := by
  have none : ∀ a ∈ ([] : List Nat), a < 0 := by simp
  obtain ⟨keys,below⟩ := memoryMappings_below [] maps none
  have each := (memoryMappings_intervals [] maps none).1
  refine ⟨fun a known j member low => ?_,fun a known => ?_,fun o _ => .inl rfl⟩
  · obtain ⟨i,hole,above,high⟩ := updateFreeIntervals_inside libcMalloc
      (fun i member => ⟨(each i member).1,(each i member).2.1⟩) j member
    have before := below a known i hole (by omega)
    omega
  · rcases keys a known with old | high
    · cases old
    · exact high.2

theorem Near.newInterval {s : Pools} (near : Near s) (ok : ∀ i ∈ s.as.intervals, i.Ok) {obj : Nat}
    (mmap : Nat → Nat → Bool) (known : s.as.loadAddr obj ∈ s.as.starts) :
    Near {s with as := allocateNewInterval s.as obj mmap} := by
  have start : s.as.mappingStart obj = s.as.loadAddr obj := if_pos known
  have word := near.words _ known
  simp only [allocateNewInterval,start]
  cases found : getClosestInterval (s.as.loadAddr obj) s.as.intervals with
  | none => exact near
  | some taken =>
    obtain ⟨i,intervals'⟩ := taken
    obtain ⟨before,after,list,_,eligible,rfl⟩ := (getClosestInterval_some (by omega)).mp found
    have listed : i ∈ s.as.intervals := by simp [list]
    have high := near.below _ known i listed eligible.1
    have proper := ok i listed
    refine ⟨fun a key j member low => ?_,near.words,fun o key => ?_⟩
    · rcases List.mem_append.mp member with old | rest
      · exact near.below a key j (by rw [list]; exact List.mem_append_left _ old) low
      · rcases List.mem_cons.mp rest with rfl | old
        · exact near.below a key i listed low
        · exact near.below a key j
            (by rw [list]; exact List.mem_append_right _ (List.mem_cons_of_mem _ old)) low
    · by_cases mine : o = obj
      · subst mine
        have wanted := proper.wanted
        have nonempty := proper.nonempty
        have user := proper.user
        simp only [AddrSpace.setPool,if_true,initMemoryAlloc]
        split
        next r mapped =>
          have inner := mapInterval_within mapped (by
            simp only [Region.Within,Region.hi] at wanted
            omega)
          have distance := eligible.2.2
          have low := eligible.1
          simp only [Region.Within,Region.hi] at inner wanted
          exact .inr ⟨by simp only; omega,by simp only; omega⟩
        next => exact near.pools o key
      · simpa only [AddrSpace.setPool,if_neg mine] using near.pools o key

theorem Near.refilled {s : Pools} (near : Near s) (ok : ∀ i ∈ s.as.intervals, i.Ok) {obj : Nat} (size : Nat)
    (mmap : Nat → Nat → Bool) (known : s.as.loadAddr obj ∈ s.as.starts) :
    Near {s with as := refilled s.as obj size mmap} := by
  simp only [Allocator.refilled]
  split
  · exact near.newInterval ok mmap known
  · exact near

theorem allocateNewInterval_kept (as : AddrSpace) (obj : Nat) (mmap : Nat → Nat → Bool) :
    (allocateNewInterval as obj mmap).starts = as.starts ∧
      (allocateNewInterval as obj mmap).loadAddr = as.loadAddr := by
  simp only [allocateNewInterval]
  split <;> exact ⟨rfl,rfl⟩

theorem refilled_kept (as : AddrSpace) (obj size : Nat) (mmap : Nat → Nat → Bool) :
    (refilled as obj size mmap).starts = as.starts ∧
      (refilled as obj size mmap).loadAddr = as.loadAddr := by
  simp only [refilled]
  split
  · exact allocateNewInterval_kept as obj mmap
  · exact ⟨rfl,rfl⟩

theorem Near.cut {s : Pools} (near : Near s) (inv : Inv s) (obj size : Nat)
    (room : size < (s.as.pools obj).bufSize) :
    Near {s with as := s.as.setPool obj {s.as.pools obj with
      base := add64 (s.as.pools obj).base (size + 1)
      bufSize := sub64 (s.as.pools obj).bufSize (size + 1)}} := by
  obtain ⟨⟨low,high⟩,user⟩ := inv.pools obj
  simp only [FreeBufs.region,Region.hi] at low high user
  have base : add64 (s.as.pools obj).base (size + 1) = (s.as.pools obj).base + (size + 1) :=
    add64_of_lt (by omega)
  have left : sub64 (s.as.pools obj).bufSize (size + 1) = (s.as.pools obj).bufSize - (size + 1) :=
    sub64_of_le room (by omega)
  refine ⟨near.below,near.words,fun o key => ?_⟩
  by_cases mine : o = obj
  · subst mine
    simp only [AddrSpace.setPool,if_true,base,left]
    have above := (near.pools o key).resolve_left (by omega)
    exact .inr ⟨by omega,by omega⟩
  · simpa only [AddrSpace.setPool,if_neg mine] using near.pools o key

theorem Near.step {s : Pools} (near : Near s) (inv : Inv s) (r : Request) (known : Known s r) :
    Near (serve s r) := by
  cases r with
  | newInterval obj mmap => exact near.newInterval inv.intervals mmap known.2
  | allocate obj size mmap memalign =>
    have full := near.refilled inv.intervals size.toNat mmap known.2
    have whole := inv.refilled obj size.toNat mmap
    have differ := known.1
    simp only [NotExactFit] at differ
    simp only [serve,allocateBuffer]
    split
    next fits =>
      have after := full.cut whole obj size.toNat (by simp only; omega)
      exact ⟨after.below,after.words,after.pools⟩
    next => cases memalign (roundUp size.toNat) <;> exact ⟨full.below,full.words,full.pools⟩

theorem serve_loadAddr (s : Pools) (r : Request) : (serve s r).as.loadAddr = s.as.loadAddr := by
  cases r with
  | newInterval obj mmap => exact (allocateNewInterval_kept s.as obj mmap).2
  | allocate obj size mmap memalign =>
    have kept := (refilled_kept s.as obj size.toNat mmap).2
    simp only [serve,allocateBuffer]
    split
    · exact kept
    · cases memalign (roundUp size.toNat) <;> exact kept

theorem run_loadAddr (s : Pools) (requests : List Request) :
    (run serve s requests).as.loadAddr = s.as.loadAddr :=
  @invariant_always _ _ serve (fun t => t.as.loadAddr = s.as.loadAddr)
    (fun t r same => (serve_loadAddr t r).trans same) s requests rfl

theorem Near.reached {s : Pools} (near : Near s) (inv : Inv s) {obj : Nat} {size : BitVec 64}
    {mmap : Nat → Nat → Bool} {memalign : Nat → Option Nat} {buf mapped : Region}
    (known : Known s (.allocate obj size mmap memalign))
    (served : (allocateBuffer s.as obj size.toNat mmap memalign).1 = .pool buf mapped) :
    InReach (s.as.loadAddr obj) buf := by
  have full := near.refilled inv.intervals size.toNat mmap known.2
  have differ := known.1
  have kept := refilled_kept s.as obj size.toNat mmap
  simp only [NotExactFit] at differ
  simp only [allocateBuffer] at served
  split at served
  next fits =>
    simp only [Served.pool.injEq] at served
    obtain ⟨rfl,rfl⟩ := served
    have key : (Allocator.refilled s.as obj size.toNat mmap).loadAddr obj ∈
        (Allocator.refilled s.as obj size.toNat mmap).starts := by
      rw [kept.1,kept.2]
      exact known.2
    have room := full.pools obj key
    simp only [kept.2,maxMappedAreaSize] at room
    intro x has
    simp only [Region.Has,Region.hi] at has
    omega
  next => cases gave : memalign (roundUp size.toNat) <;> simp [gave] at served

/-- The lookup returns the nearest interval exactly when the first eligible one is nearest,
and in every run of requests for objects whose load address is a mapping's start, none of
them for exactly what is left, every buffer cut for an object is within reach of it. -/
theorem closest_and_in_reach (addr : BitVec 64) (intervals : List FreeInterval) (libcMalloc : Bool)
    (lines : List (Nat × Nat)) (loadAddr : Nat → Nat) (requests : List Request) (obj : Nat)
    (size : BitVec 64) (mmap : Nat → Nat → Bool) (memalign : Nat → Option Nat) (buf mapped : Region) :
    (Closest addr.toNat intervals ↔ FirstNearest addr.toNat intervals) ∧
    (MapsOk 0 lines →
      Meets serve Known (initial libcMalloc lines loadAddr) (requests ++ [.allocate obj size mmap memalign]) →
      (allocateBuffer (run serve (initial libcMalloc lines loadAddr) requests).as obj size.toNat mmap
        memalign).1 = .pool buf mapped → InReach (loadAddr obj) buf) := by
  refine ⟨closest_iff addr.isLt intervals,fun maps met served => ?_⟩
  obtain ⟨before,last,_⟩ := (meets_append serve Known).mp met
  have keeps : ∀ s r, Near s ∧ Inv s → Known s r → Near (serve s r) ∧ Inv (serve s r) :=
    fun s r inv known => ⟨inv.1.step inv.2 r known,inv.2.step r known.1⟩
  have both := invariant_run serve Known keeps ⟨Near.initial libcMalloc loadAddr maps,Inv.initial maps⟩ before
  have reached := both.1.reached both.2 last served
  rwa [run_loadAddr] at reached

theorem closest_and_in_reach_oneMapping : InReach 0x12000 ⟨0x1401,0x800⟩ :=
  (closest_and_in_reach 0x12000 [] false oneMapping (fun _ => 0x12000)
    [.newInterval 0 fun _ _ => true,request 0x400] 0 0x800 (fun _ _ => true) (fun _ => none)
    ⟨0x1401,0x800⟩ ⟨0x1000,0x11000⟩).2 oneMapping_ok (by decide +kernel) (by decide +kernel)

def twoIntervals : List FreeInterval := [⟨0x1000,0x2000,false⟩,⟨0x10000,0x12000,false⟩]

/-- The farther one is returned; and an object loaded far above the mappings that were
read gets its buffer from the interval at address 0. -/
theorem closest_returns_first : ¬Closest 0x12000 twoIntervals ∧ MapsOk 0 oneMapping ∧
    (allocateBuffer (initial false oneMapping fun _ => 0x7f0000000000).as 0 0x400 (fun _ _ => true)
      fun _ => none).1 = .pool ⟨0x1000,0x400⟩ ⟨0x1000,0x11000⟩ ∧
    ¬InReach 0x7f0000000000 ⟨0x1000,0x400⟩ := by
  refine ⟨fun ⟨nearest,_⟩ => ?_,oneMapping_ok,by decide +kernel,fun near => ?_⟩
  · have far := (nearest ⟨0x1000,0x2000,false⟩ _ (by decide +kernel : getClosestInterval 0x12000 twoIntervals =
      some (_,[⟨0x1000,0x2000,true⟩,⟨0x10000,0x12000,false⟩]))).2.2 ⟨0x10000,0x12000,false⟩ (by decide) (by
        refine ⟨by decide,rfl,by decide⟩)
    exact absurd far (by decide)
  · have reached := near 0x1000 (by simp [Region.Has,Region.hi])
    omega

end SelfPropelled.Allocator
