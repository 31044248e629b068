import SelfPropelled.AllocatorSafety

/-! The address space the allocator works in: fixed mappings of free intervals
between mappings and unmappings of the application. -/

namespace SelfPropelled.Allocator
open Library

/-- The mapping at a fixed address that binding an interval to an object makes. -/
def fixedMapping (as : AddrSpace) (obj : Nat) (mmap : Nat → Nat → Bool) : Option Region :=
  match getClosestInterval (as.mappingStart obj) as.intervals with
  | none => none
  | some (i,_) => mapInterval mmap (i.wanted.len / pageSize + 1) i.wanted.lo i.wanted.len

def requestMapping (as : AddrSpace) : Request → Option Region
  | .newInterval obj mmap => fixedMapping as obj mmap
  | .allocate obj size mmap _ =>
    if (as.pools obj).bufSize < size.toNat then fixedMapping as obj mmap else none

/-- The allocator, the addresses mapped in the process, and every fixed mapping
made so far with the addresses that were mapped when it was made. -/
structure Process where
  pools : Pools
  mapped : Nat → Bool
  fixed : List (Region × (Nat → Bool))

inductive Event
  | mmap (r : Region)
  | munmap (r : Region)
  | request (r : Request)

def cover (mapped : Nat → Bool) (r : Region) (now : Bool) : Nat → Bool :=
  fun x => if r.lo ≤ x ∧ x < r.hi then now else mapped x

def Process.step (p : Process) : Event → Process
  | .mmap r => {p with mapped := cover p.mapped r true}
  | .munmap r => {p with mapped := cover p.mapped r false}
  | .request q =>
    match requestMapping p.pools.as q with
    | some r => ⟨serve p.pools q,cover p.mapped r true,p.fixed ++ [(r,p.mapped)]⟩
    | none => {p with pools := serve p.pools q}

def started (libcMalloc : Bool) (lines : List (Nat × Nat)) (loadAddr : Nat → Nat)
    (mapped : Nat → Bool) : Process :=
  ⟨initial libcMalloc lines loadAddr,mapped,[]⟩

/-- The maps file lists every mapped address of the user half. -/
def Lists (lines : List (Nat × Nat)) (mapped : Nat → Bool) : Prop :=
  ∀ x < 2 ^ 63, mapped x = true ↔ ∃ line ∈ lines, line.1 ≤ x ∧ x < line.2

/-- No fixed mapping covered an address that was mapped. -/
def Preserving (p : Process) : Prop :=
  ∀ entry ∈ p.fixed, ∀ x, entry.1.Has x → entry.2 x = false

/-- What the application maps is apart from the intervals still kept as free. -/
def KeepsOut (p : Process) : Event → Prop
  | .mmap r => ∀ i ∈ p.pools.as.intervals, i.used = false → r.Apart i.wanted
  | .munmap _ | .request _ => True

instance (p : Process) : (e : Event) → Decidable (KeepsOut p e)
  | .mmap _ => inferInstanceAs (Decidable (∀ i ∈ _, _))
  | .munmap _ | .request _ => .isTrue trivial

theorem cover_of_not_has {mapped : Nat → Bool} {r : Region} {now : Bool} {x : Nat} (outside : ¬r.Has x) :
    cover mapped r now x = mapped x :=
  if_neg outside

theorem fixedMapping_pool {as : AddrSpace} {obj : Nat} {mmap : Nat → Nat → Bool} {r : Region}
    (made : fixedMapping as obj mmap = some r) :
    (allocateNewInterval as obj mmap).pools obj = ⟨r.lo,r.len,r⟩ := by
  simp only [fixedMapping] at made
  split at made
  · cases made
  next i intervals found =>
    simp [allocateNewInterval,found,initMemoryAlloc,made,AddrSpace.setPool]

theorem fixedMapping_cases {as : AddrSpace} (obj : Nat) (mmap : Nat → Nat → Bool)
    (ok : ∀ i ∈ as.intervals, i.Ok) :
    fixedMapping as obj mmap = none ∧ (allocateNewInterval as obj mmap).intervals = as.intervals ∨
    ∃ (k : Nat) (i : FreeInterval), as.intervals[k]? = some i ∧ i.used = false ∧
      (allocateNewInterval as obj mmap).intervals = as.intervals.set k {i with used := true} ∧
      ∀ r, fixedMapping as obj mmap = some r → r.Within i.wanted := by
  cases found : getClosestInterval (as.mappingStart obj) as.intervals with
  | none => exact .inl ⟨by simp [fixedMapping,found],by simp [allocateNewInterval,found]⟩
  | some chosen =>
    obtain ⟨i,intervals⟩ := chosen
    obtain ⟨k,there,free,rfl⟩ := getClosestInterval_spec found
    refine .inr ⟨k,i,there,free,by simp [allocateNewInterval,found,AddrSpace.setPool],fun r made => ?_⟩
    have proper := ok i (List.mem_of_getElem? there)
    have wanted := proper.wanted
    have user := proper.user
    have nonempty := proper.nonempty
    have small : i.wanted.lo + i.wanted.len < 2 ^ 63 := by
      simp only [Region.Within,Region.hi] at wanted
      omega
    simp only [fixedMapping,found] at made
    exact mapInterval_within made small

/-- What serving a request does to the free intervals: none is taken and nothing
is mapped, or one is taken and the mapping lies in the part wanted of it. -/
theorem serve_cases {s : Pools} (q : Request) (ok : ∀ i ∈ s.as.intervals, i.Ok) :
    requestMapping s.as q = none ∧ (serve s q).as.intervals = s.as.intervals ∨
    ∃ (k : Nat) (i : FreeInterval), s.as.intervals[k]? = some i ∧ i.used = false ∧
      (serve s q).as.intervals = s.as.intervals.set k {i with used := true} ∧
      ∀ r, requestMapping s.as q = some r → r.Within i.wanted := by
  cases q with
  | newInterval obj mmap => exact fixedMapping_cases obj mmap ok
  | allocate obj size mmap memalign =>
    have same : (serve s (.allocate obj size mmap memalign)).as.intervals =
        (refilled s.as obj size.toNat mmap).intervals := by
      simp only [serve,allocateBuffer]
      split
      · simp [AddrSpace.setPool]
      · cases memalign (roundUp size.toNat) <;> rfl
    rw [same]
    simp only [requestMapping,refilled]
    split
    · exact fixedMapping_cases obj mmap ok
    · exact .inl ⟨rfl,rfl⟩

theorem MapsOk.above {previousEnd : Nat} {lines : List (Nat × Nat)} (maps : MapsOk previousEnd lines) :
    ∀ line ∈ lines, previousEnd ≤ line.1 := by
  induction lines generalizing previousEnd with
  | nil => simp
  | cons line lines ih =>
    obtain ⟨start,stop⟩ := line
    obtain ⟨after,proper,_,_,rest⟩ := maps
    intro other member
    rcases List.mem_cons.mp member with rfl | later
    · exact after
    · have above := ih rest other later
      omega

theorem Process.step_fixed {p : Process} {q : Request} {r : Region}
    (made : requestMapping p.pools.as q = some r) :
    (p.step (.request q)).fixed = p.fixed ++ [(r,p.mapped)] := by
  simp [Process.step,made]

theorem memoryMappings_holes {previousEnd : Nat} (starts : List Nat) {lines : List (Nat × Nat)}
    (maps : MapsOk previousEnd lines) (seen : ∀ a ∈ starts, a < previousEnd) :
    ∀ i ∈ (memoryMappings previousEnd starts lines).2, ∀ x, i.start ≤ x → x < i.stop →
      ∀ line ∈ lines, ¬(line.1 ≤ x ∧ x < line.2) := by
  induction lines generalizing previousEnd starts with
  | nil => simp
  | cons line lines ih =>
    obtain ⟨start,stop⟩ := line
    have whole := maps
    obtain ⟨after,proper,_,_,rest⟩ := maps
    have fresh : start ∉ starts := fun member => absurd (seen start member) (by omega)
    have split : (memoryMappings previousEnd starts ((start,stop) :: lines)).2 =
        (if previousEnd ≠ start then [⟨previousEnd,start,false⟩] else []) ++
          (memoryMappings stop (start :: starts) lines).2 := by
      rw [memoryMappings,if_neg fresh]
      by_cases hole : previousEnd ≠ start <;> simp [hole]
    intro i member x low high line among
    rw [split,List.mem_append] at member
    rcases member with first | later
    · have here : i = ⟨previousEnd,start,false⟩ := by
        by_cases hole : previousEnd ≠ start
        · simpa [hole] using first
        · simp [hole] at first
      subst here
      rcases List.mem_cons.mp among with rfl | other
      · simp only at high ⊢
        omega
      · have above := rest.above line other
        simp only at high
        rcases proper with less | ⟨rfl,_⟩ <;> omega
    · rcases proper with less | ⟨_,rfl⟩
      · have seen' : ∀ a ∈ start :: starts, a < stop := by
          intro a old
          rcases List.mem_cons.mp old with rfl | old
          · exact less
          · exact Nat.lt_of_lt_of_le (seen a old) (by omega)
        rcases List.mem_cons.mp among with rfl | other
        · have above := ((memoryMappings_intervals (start :: starts) rest seen').1 i later).2.2
          simp only
          omega
        · exact ih (start :: starts) rest seen' i later x low high line other
      · simp [memoryMappings] at later

theorem updateFreeIntervals_inside {intervals : List FreeInterval} (libcMalloc : Bool)
    (each : ∀ i ∈ intervals, i.Ok ∧ i.used = false) :
    ∀ j ∈ updateFreeIntervals libcMalloc intervals, ∃ i ∈ intervals, i.start ≤ j.start ∧ j.stop ≤ i.stop := by
  cases libcMalloc with
  | true => exact fun j member => ⟨j,member,Nat.le_refl _,Nat.le_refl _⟩
  | false =>
    intro j member
    simp only [updateFreeIntervals,Bool.false_eq_true,if_false,List.flatMap_map] at member
    obtain ⟨i,hole,inside⟩ := List.mem_flatMap.mp member
    obtain ⟨_,low,high⟩ := (slice_reduce_spec (each i hole).1 (each i hole).2).1 j inside
    exact ⟨i,hole,high⟩

/-- Every interval still kept as free is unmapped where it would be mapped. -/
structure Vacant (p : Process) : Prop where
  intervals : ∀ i ∈ p.pools.as.intervals, i.Ok
  ordered : Ascending p.pools.as.intervals
  unmapped : ∀ i ∈ p.pools.as.intervals, i.used = false → ∀ x, i.wanted.Has x → p.mapped x = false
  fixed : Preserving p

theorem FreeInterval.Ok.wanted_has {i : FreeInterval} (ok : i.Ok) {x : Nat} (has : i.wanted.Has x) :
    i.start ≤ x ∧ x < i.stop := by
  have inside := ok.wanted.has has
  have nonempty := ok.nonempty
  simp only [Region.Has,Region.hi] at inside
  omega

theorem Vacant.started (libcMalloc : Bool) {lines : List (Nat × Nat)} (loadAddr : Nat → Nat)
    {mapped : Nat → Bool} (maps : MapsOk 0 lines) (lists : Lists lines mapped) :
    Vacant (started libcMalloc lines loadAddr mapped) := by
  have none : ∀ a ∈ ([] : List Nat), a < 0 := by simp
  obtain ⟨each,ordered⟩ := memoryMappings_intervals [] maps none
  have free : ∀ i ∈ (updateMemoryMappings lines).2, i.Ok ∧ i.used = false :=
    fun i member => ⟨(each i member).1,(each i member).2.1⟩
  obtain ⟨ok,sorted⟩ := updateFreeIntervals_spec libcMalloc free ordered
  refine ⟨fun j member => (ok j member).1,sorted,fun j member _ x has => ?_,by simp [Preserving,Allocator.started]⟩
  obtain ⟨i,hole,low,high⟩ := updateFreeIntervals_inside libcMalloc free j member
  obtain ⟨above,below⟩ := (ok j member).1.wanted_has has
  have user := (free i hole).1.user
  have outside := memoryMappings_holes [] maps none i hole x (by omega) (by omega)
  refine Bool.eq_false_iff.mpr fun listed => ?_
  obtain ⟨line,among,inside⟩ := (lists x (by omega)).mp listed
  exact outside line among inside

theorem Ascending.markUsed {intervals : List FreeInterval} (ordered : Ascending intervals) {k : Nat}
    {i : FreeInterval} (there : intervals[k]? = some i) :
    Ascending (intervals.set k {i with used := true}) := by
  have bounds : (intervals.set k {i with used := true}).map (fun j => (j.start,j.stop)) =
      intervals.map fun j => (j.start,j.stop) := by
    apply List.ext_getElem?
    intro l
    by_cases same : k = l
    · subst same
      obtain ⟨inside,rfl⟩ := List.getElem?_eq_some_iff.mp there
      simp [inside]
    · simp [same]
  have mapped : ∀ list : List FreeInterval, Ascending list ↔
      (list.map fun j => (j.start,j.stop)).Pairwise fun a b => a.2 ≤ b.1 := by
    intro list
    simp [Ascending,List.pairwise_map]
  rwa [mapped,bounds,← mapped]

theorem Ascending.wanted_apart {intervals : List FreeInterval} (ordered : Ascending intervals)
    (ok : ∀ i ∈ intervals, i.Ok) {k l : Nat} {i j : FreeInterval} (differ : k ≠ l)
    (first : intervals[k]? = some i) (second : intervals[l]? = some j) : i.wanted.Apart j.wanted := by
  intro x left right
  have low := (ok i (List.mem_of_getElem? first)).wanted_has left
  have high := (ok j (List.mem_of_getElem? second)).wanted_has right
  obtain ⟨inK,atK⟩ := List.getElem?_eq_some_iff.mp first
  obtain ⟨inL,atL⟩ := List.getElem?_eq_some_iff.mp second
  rcases Nat.lt_or_gt_of_ne differ with before | after
  · have order := List.pairwise_iff_getElem.mp ordered k l inK inL before
    rw [atK,atL] at order
    omega
  · have order := List.pairwise_iff_getElem.mp ordered l k inL inK after
    rw [atK,atL] at order
    omega

theorem Vacant.step {p : Process} (inv : Vacant p) (e : Event) (out : KeepsOut p e) :
    Vacant (p.step e) := by
  cases e with
  | mmap r =>
    refine ⟨inv.intervals,inv.ordered,fun i member free x has => ?_,inv.fixed⟩
    have outside : ¬r.Has x := fun inside => out i member free x inside has
    simpa only [Process.step,cover_of_not_has outside] using inv.unmapped i member free x has
  | munmap r =>
    refine ⟨inv.intervals,inv.ordered,fun i member free x has => ?_,inv.fixed⟩
    have old := inv.unmapped i member free x has
    simp only [Process.step,cover]
    split
    · rfl
    · exact old
  | request q =>
    rcases serve_cases q inv.intervals with ⟨quiet,same⟩ | ⟨k,i,there,free,marked,within⟩
    · simp only [Process.step,quiet]
      refine ⟨?_,?_,?_,inv.fixed⟩ <;> simp only [same]
      · exact inv.intervals
      · exact inv.ordered
      · exact inv.unmapped
    · have member := List.mem_of_getElem? there
      have intervals : ∀ j ∈ (serve p.pools q).as.intervals, j.Ok := by
        intro j among
        rw [marked] at among
        rcases List.mem_or_eq_of_mem_set among with old | rfl
        · exact inv.intervals j old
        · have proper := inv.intervals i member
          exact ⟨proper.nonempty,proper.user,proper.paged⟩
      have ordered : Ascending (serve p.pools q).as.intervals := by
        rw [marked]
        exact inv.ordered.markUsed there
      -- an interval that stays free is another one than the one taken
      have kept : ∀ j ∈ (serve p.pools q).as.intervals, j.used = false →
          j ∈ p.pools.as.intervals ∧ i.wanted.Apart j.wanted := by
        intro j among unused
        obtain ⟨l,place⟩ := List.mem_iff_getElem?.mp among
        rw [marked,List.getElem?_set] at place
        by_cases same : k = l
        · obtain ⟨inside,_⟩ := List.getElem?_eq_some_iff.mp there
          rw [if_pos same,if_pos (same ▸ inside)] at place
          cases place
          cases unused
        · rw [if_neg same] at place
          exact ⟨List.mem_of_getElem? place,inv.ordered.wanted_apart inv.intervals same there place⟩
      cases made : requestMapping p.pools.as q with
      | none =>
        simp only [Process.step,made]
        exact ⟨intervals,ordered,fun j among unused => inv.unmapped j (kept j among unused).1 unused,inv.fixed⟩
      | some r =>
        have inside := within r made
        simp only [Process.step,made]
        refine ⟨intervals,ordered,fun j among unused x has => ?_,fun entry logged x has => ?_⟩
        · obtain ⟨old,apart⟩ := kept j among unused
          have outside : ¬r.Has x := fun here => apart x (inside.has here) has
          simpa only [cover_of_not_has outside] using inv.unmapped j old unused x has
        · rcases List.mem_append.mp logged with old | new
          · exact inv.fixed entry old x has
          · obtain rfl := List.mem_singleton.mp new
            exact inv.unmapped i member free x (inside.has has)

/-- In every run in which the application maps nothing into an interval that is
still kept as free, no fixed mapping covers an address that was mapped. -/
theorem fixed_mappings_preserve (libcMalloc : Bool) (lines : List (Nat × Nat)) (loadAddr : Nat → Nat)
    (mapped : Nat → Bool) (events : List Event) (maps : MapsOk 0 lines) (lists : Lists lines mapped)
    (met : Meets Process.step KeepsOut (started libcMalloc lines loadAddr mapped) events) :
    Preserving (run Process.step (started libcMalloc lines loadAddr mapped) events) :=
  (invariant_run Process.step KeepsOut (fun _ e inv out => inv.step e out)
    (Vacant.started libcMalloc loadAddr maps lists) met).fixed

def oneMapped (x : Nat) : Bool := 0x12000 ≤ x && x < 0x13000

theorem oneMapping_lists : Lists oneMapping oneMapped := by
  intro x _
  simp [oneMapping,oneMapped]

/-- The application maps above the snapshot's one mapping and unmaps below it. -/
theorem fixed_mappings_preserve_oneMapping :
    Preserving (run Process.step (started false oneMapping (fun _ => 0x12000) oneMapped)
      [.mmap ⟨0x20000,0x1000⟩,.request (.newInterval 0 fun _ _ => true),.munmap ⟨0x2000,0x1000⟩,
        .mmap ⟨0x3000,0x1000⟩,.request (request 0x400)]) :=
  fixed_mappings_preserve false oneMapping (fun _ => 0x12000) oneMapped _ oneMapping_ok oneMapping_lists
    (by decide +kernel)

/-- A page mapped after the snapshot, in the hole in front of the one mapping, is
mapped over when that hole is bound. -/
theorem fixed_mappings_overwrite : MapsOk 0 oneMapping ∧ Lists oneMapping oneMapped ∧
    ¬Preserving (run Process.step (started false oneMapping (fun _ => 0x12000) oneMapped)
      [.mmap ⟨0x5000,0x1000⟩,.request (.newInterval 0 fun _ _ => true)]) := by
  refine ⟨oneMapping_ok,oneMapping_lists,fun preserving => ?_⟩
  let s := started false oneMapping (fun _ => 0x12000) oneMapped
  have made : requestMapping s.pools.as (.newInterval 0 fun _ _ => true) = some ⟨0x1000,0x11000⟩ := by
    decide +kernel
  have logged : (⟨0x1000,0x11000⟩,cover oneMapped ⟨0x5000,0x1000⟩ true) ∈
      (run Process.step s [.mmap ⟨0x5000,0x1000⟩,.request (.newInterval 0 fun _ _ => true)]).fixed := by
    rw [run_cons,run_cons,run_nil,Process.step_fixed (p := s.step (.mmap ⟨0x5000,0x1000⟩)) made]
    exact List.mem_singleton.mpr rfl
  have before := preserving _ logged 0x5000 (by simp [Region.Has,Region.hi])
  exact absurd before (by decide)

end SelfPropelled.Allocator
