import SelfPropelled.AllocatorSafety

/-! The free intervals computed from a maps file: what they cover, and when a gap is
cut as it stands in the file. -/

namespace SelfPropelled.Allocator
open Library

/-- An address as `strtoll` gives it back. -/
def strtoll (a : Nat) : Nat := min a (2 ^ 63 - 1)

def parsed (maps : List (Nat × Nat)) : List (Nat × Nat) := maps.map fun m => (strtoll m.1,strtoll m.2)

/-- Mappings sorted by address: none is empty, none begins before the last one ends. -/
def SortedFrom : Nat → List (Nat × Nat) → Prop
  | _, [] => True
  | previousEnd, (start,stop) :: maps => previousEnd ≤ start ∧ start < stop ∧ SortedFrom stop maps

/-- The gaps in front of the mappings; the first one begins at address 0. -/
def gaps : Nat → List (Nat × Nat) → List (Nat × Nat)
  | _, [] => []
  | previousEnd, (start,stop) :: maps =>
    (if previousEnd ≠ start then [(previousEnd,start)] else []) ++ gaps stop maps

def kept (g : Nat × Nat) : Nat := max g.1 (g.2 - maxMappedAreaSize)

/-- The slicing loop, without a bound on its rounds. -/
inductive Slices (stop : Nat) : Nat → List FreeInterval → Prop
  | more (newStart : Nat) (rest : List FreeInterval) (again : add64 newStart maxIntervalSize < stop)
      (sliced : Slices stop (add64 newStart maxIntervalSize) rest) : Slices stop newStart
        (⟨newStart,if add64 newStart maxIntervalSize > stop then stop else add64 newStart maxIntervalSize,false⟩
          :: rest)
  | last (newStart : Nat) (done : ¬add64 newStart maxIntervalSize < stop) : Slices stop newStart
      [⟨newStart,if add64 newStart maxIntervalSize > stop then stop else add64 newStart maxIntervalSize,false⟩]

/-- Intervals of at most 16 MB, each beginning where the one before ends. -/
def Chain : Nat → List FreeInterval → Nat → Prop
  | start, [], stop => start = stop
  | start, i :: rest, stop =>
    i.start = start ∧ start < i.stop ∧ i.stop - start ≤ maxIntervalSize ∧ Chain i.stop rest stop

theorem Chain.bounds {start stop : Nat} {intervals : List FreeInterval} (chain : Chain start intervals stop) :
    start ≤ stop ∧ ∀ i ∈ intervals, start ≤ i.start ∧ i.start < i.stop ∧ i.stop ≤ stop ∧
      i.stop - i.start ≤ maxIntervalSize := by
  induction intervals generalizing start with
  | nil => exact ⟨Nat.le_of_eq chain,by simp⟩
  | cons i rest ih =>
    obtain ⟨rfl,proper,short,tail⟩ := chain
    obtain ⟨before,each⟩ := ih tail
    refine ⟨by omega,fun j member => ?_⟩
    rcases List.mem_cons.mp member with rfl | later
    · exact ⟨Nat.le_refl _,proper,before,short⟩
    · obtain ⟨low,nonempty,high,small⟩ := each j later
      exact ⟨by omega,nonempty,high,small⟩

theorem Chain.ascending {start stop : Nat} {intervals : List FreeInterval}
    (chain : Chain start intervals stop) : Ascending intervals := by
  induction intervals generalizing start with
  | nil => exact List.Pairwise.nil
  | cons i rest ih =>
    obtain ⟨_,_,_,tail⟩ := chain
    exact List.pairwise_cons.mpr ⟨fun j later => (tail.bounds.2 j later).1,ih tail⟩

theorem Chain.covers {start stop x : Nat} {intervals : List FreeInterval} (chain : Chain start intervals stop)
    (low : start ≤ x) (high : x < stop) : ∃ i ∈ intervals, i.start ≤ x ∧ x < i.stop := by
  induction intervals generalizing start with
  | nil =>
    have same : start = stop := chain
    omega
  | cons i rest ih =>
    obtain ⟨rfl,_,_,tail⟩ := chain
    by_cases here : x < i.stop
    · exact ⟨i,List.mem_cons_self,low,here⟩
    · obtain ⟨j,later,inside⟩ := ih tail (by omega)
      exact ⟨j,List.mem_cons_of_mem _ later,inside⟩

theorem slices_chain {fuel newStart stop : Nat} (nonempty : newStart < stop) (user : stop < 2 ^ 63)
    (enough : stop - newStart ≤ fuel * maxIntervalSize) :
    Chain newStart (slices stop fuel newStart) stop ∧ Slices stop newStart (slices stop fuel newStart) := by
  induction fuel generalizing newStart with
  | zero => omega
  | succ fuel ih =>
    have step : add64 newStart maxIntervalSize = newStart + maxIntervalSize :=
      add64_of_lt (by simp only [maxIntervalSize]; omega)
    by_cases more : newStart + maxIntervalSize < stop
    · obtain ⟨chain,loop⟩ := @ih (newStart + maxIntervalSize) more (by
        simp only [maxIntervalSize] at enough ⊢
        omega)
      have whole : ¬newStart + maxIntervalSize > stop := by omega
      constructor
      · simp only [slices,step,if_pos more,if_neg whole]
        exact ⟨rfl,by simp only [maxIntervalSize]; omega,by simp only; omega,chain⟩
      · rw [slices]
        simp only [if_pos (step ▸ more)]
        exact .more newStart _ (step ▸ more) (by rwa [step])
    · constructor
      · have last : (if newStart + maxIntervalSize > stop then stop else newStart + maxIntervalSize) = stop := by
          split <;> omega
        simp only [slices,step,if_neg more,last]
        exact ⟨rfl,nonempty,by dsimp only; omega,rfl⟩
      · rw [slices]
        simp only [if_neg (step ▸ more : ¬add64 newStart maxIntervalSize < stop)]
        exact .last newStart (step ▸ more)

theorem reduce_eq {start stop : Nat} (proper : start < stop) (user : stop < 2 ^ 63) :
    reduce ⟨start,stop,false⟩ = ⟨kept (start,stop),stop,false⟩ := by
  have size : FreeInterval.size ⟨start,stop,false⟩ = stop - start := sub64_of_le (by simp only; omega) (by simp only; omega)
  simp only [reduce,size,kept]
  by_cases large : stop - start > maxMappedAreaSize
  · have cut : sub64 stop maxMappedAreaSize = stop - maxMappedAreaSize := sub64_of_le (by omega) (by omega)
    have upper : max start (stop - maxMappedAreaSize) = stop - maxMappedAreaSize := by omega
    rw [if_pos large,cut,upper]
  · have whole : max start (stop - maxMappedAreaSize) = start := by omega
    rw [if_neg large,whole]

theorem slice_reduce_chain {start stop : Nat} (proper : start < stop) (user : stop < 2 ^ 63) :
    Chain (kept (start,stop)) (slice (reduce ⟨start,stop,false⟩)) stop ∧
      Slices stop (kept (start,stop)) (slice (reduce ⟨start,stop,false⟩)) := by
  have above : kept (start,stop) < stop := by
    simp only [kept,maxMappedAreaSize]
    omega
  have size : FreeInterval.size ⟨kept (start,stop),stop,false⟩ = stop - kept (start,stop) :=
    sub64_of_le (by simp only; omega) (by simp only; omega)
  rw [reduce_eq proper user]
  simp only [slice,size]
  exact slices_chain above user (by simp only [maxIntervalSize]; omega)

theorem strtoll_le (a : Nat) : strtoll a ≤ a ∧ strtoll a < 2 ^ 63 := by
  simp only [strtoll]
  omega

theorem strtoll_of_lt {a : Nat} (small : a < 2 ^ 63) : strtoll a = a := by
  simp only [strtoll]
  omega

/-- The holes the maps file comes to: its gaps, but for those above what `strtoll` reads. -/
theorem memoryMappings_gaps {previousEnd : Nat} {starts : List Nat} {maps : List (Nat × Nat)}
    (sorted : SortedFrom previousEnd maps) (seen : ∀ a ∈ starts, a < previousEnd) :
    (memoryMappings (strtoll previousEnd) starts (parsed maps)).2 =
      ((gaps previousEnd maps).filter (·.1 < 2 ^ 63 - 1)).map fun g => ⟨g.1,strtoll g.2,false⟩ := by
  induction maps generalizing previousEnd starts with
  | nil => rfl
  | cons m rest ih =>
    obtain ⟨start,stop⟩ := m
    obtain ⟨after,proper,later⟩ := sorted
    have cut := strtoll_le start
    rw [parsed,List.map_cons,memoryMappings,gaps,List.filter_append,List.map_append]
    by_cases again : strtoll start ∈ starts
    · -- only saturated starts repeat
      have high := seen _ again
      have top : 2 ^ 63 ≤ previousEnd := by
        by_contra low
        have exact : strtoll start = start ∨ strtoll start = 2 ^ 63 - 1 := by
          simp only [strtoll]
          omega
        omega
      have same : strtoll previousEnd = strtoll stop := by
        simp only [strtoll]
        omega
      have none : (if previousEnd ≠ start then [(previousEnd,start)] else []).filter (·.1 < 2 ^ 63 - 1) = [] := by
        split
        · rw [List.filter_cons_of_neg (by simp only [decide_eq_true_eq]; omega)]
          rfl
        · rfl
      rw [if_pos again,same,none,List.map_nil,List.nil_append]
      exact ih later fun a member => Nat.lt_of_lt_of_le (seen a member) (by omega)
    · have tail := @ih stop (strtoll start :: starts) later (by
        intro a member
        rcases List.mem_cons.mp member with rfl | old
        · omega
        · exact Nat.lt_of_lt_of_le (seen a old) (by omega))
      rw [if_neg again]
      dsimp only
      rw [← parsed,tail]
      by_cases hole : strtoll previousEnd ≠ strtoll start
      · have gap : previousEnd ≠ start ∧ previousEnd < 2 ^ 63 - 1 := by
          simp only [strtoll] at hole
          omega
        have low : strtoll previousEnd = previousEnd := strtoll_of_lt (by omega)
        rw [if_pos hole,if_pos gap.1,List.filter_cons_of_pos (by simpa using gap.2),low]
        rfl
      · rw [if_neg hole]
        split
        · have high : ¬previousEnd < 2 ^ 63 - 1 := by
            simp only [strtoll] at hole
            omega
          rw [List.filter_cons_of_neg (by simpa using high)]
          rfl
        · rfl

theorem gaps_spec {previousEnd : Nat} {maps : List (Nat × Nat)} (sorted : SortedFrom previousEnd maps) :
    (∀ m ∈ maps, previousEnd ≤ m.1 ∧ m.1 < m.2) ∧ (∀ g ∈ gaps previousEnd maps, previousEnd ≤ g.1 ∧ g.1 < g.2) ∧
      (∀ g ∈ gaps previousEnd maps, ∀ m ∈ maps, g.2 ≤ m.1 ∨ m.2 ≤ g.1) ∧
        (gaps previousEnd maps).Pairwise fun g h => g.2 ≤ h.1 := by
  induction maps generalizing previousEnd with
  | nil => simp [gaps]
  | cons m rest ih =>
    obtain ⟨start,stop⟩ := m
    obtain ⟨after,proper,later⟩ := sorted
    obtain ⟨mapped,bounds,apart,ordered⟩ := ih later
    have cases : ∀ g ∈ gaps previousEnd ((start,stop) :: rest), g = (previousEnd,start) ∧ previousEnd < start ∨
        g ∈ gaps stop rest := by
      intro g member
      rw [gaps,List.mem_append] at member
      rcases member with here | there
      · split at here
        · exact .inl ⟨List.mem_singleton.mp here,by omega⟩
        · cases here
      · exact .inr there
    refine ⟨fun m member => ?_,fun g member => ?_,fun g member m listed => ?_,?_⟩
    · rcases List.mem_cons.mp member with rfl | old
      · exact ⟨after,proper⟩
      · obtain ⟨low,nonempty⟩ := mapped m old
        exact ⟨by omega,nonempty⟩
    · rcases cases g member with ⟨rfl,less⟩ | there
      · exact ⟨Nat.le_refl _,less⟩
      · obtain ⟨low,nonempty⟩ := bounds g there
        exact ⟨by omega,nonempty⟩
    · rcases cases g member with ⟨rfl,_⟩ | there
      · rcases List.mem_cons.mp listed with rfl | old
        · exact .inl (Nat.le_refl _)
        · have low := (mapped m old).1
          exact .inl (by simp only; omega)
      · rcases List.mem_cons.mp listed with rfl | old
        · exact .inr (bounds g there).1
        · exact apart g there m old
    · rw [gaps]
      split
      · refine List.pairwise_cons.mpr ⟨fun h there => ?_,ordered⟩
        have low := (bounds h there).1
        simp only
        omega
      · exact ordered

def freeIntervals (maps : List (Nat × Nat)) : List FreeInterval :=
  updateFreeIntervals false (updateMemoryMappings (parsed maps)).2

/-- What the free intervals are to be. -/
structure Computed (maps : List (Nat × Nat)) : Prop where
  nonempty : ∀ i ∈ freeIntervals maps, i.start < i.stop
  short : ∀ i ∈ freeIntervals maps, i.stop - i.start ≤ maxIntervalSize
  disjoint : Ascending (freeIntervals maps)
  free : ∀ i ∈ freeIntervals maps, ∀ m ∈ maps, i.stop ≤ m.1 ∨ m.2 ≤ i.start
  covers : ∀ x, (∃ i ∈ freeIntervals maps, i.start ≤ x ∧ x < i.stop) ↔
    ∃ g ∈ gaps 0 maps, kept g ≤ x ∧ x < g.2
  ends : ∀ hole ∈ (updateMemoryMappings (parsed maps)).2,
    Slices hole.stop (reduce hole).start (slice (reduce hole))

theorem updateMemoryMappings_holes {maps : List (Nat × Nat)} (sorted : SortedFrom 0 maps) :
    (updateMemoryMappings (parsed maps)).2 =
      ((gaps 0 maps).filter (·.1 < 2 ^ 63 - 1)).map fun g => ⟨g.1,strtoll g.2,false⟩ :=
  @memoryMappings_gaps 0 [] maps sorted (by simp)

/-- Every free interval is a slice of one gap, as far as `strtoll` reads it. -/
theorem mem_freeIntervals {maps : List (Nat × Nat)} (sorted : SortedFrom 0 maps) {i : FreeInterval} :
    i ∈ freeIntervals maps ↔ ∃ g ∈ gaps 0 maps, g.1 < 2 ^ 63 - 1 ∧
      i ∈ slice (reduce ⟨g.1,strtoll g.2,false⟩) := by
  simp only [freeIntervals,updateFreeIntervals,updateMemoryMappings_holes sorted,Bool.false_eq_true,if_false,
    List.flatMap_map,List.mem_flatMap,List.mem_filter,decide_eq_true_eq,and_assoc]

theorem gap_chain {maps : List (Nat × Nat)} (sorted : SortedFrom 0 maps) {g : Nat × Nat}
    (member : g ∈ gaps 0 maps) (low : g.1 < 2 ^ 63 - 1) :
    Chain (kept (g.1,strtoll g.2)) (slice (reduce ⟨g.1,strtoll g.2,false⟩)) (strtoll g.2) ∧
      Slices (strtoll g.2) (kept (g.1,strtoll g.2)) (slice (reduce ⟨g.1,strtoll g.2,false⟩)) := by
  have proper := ((gaps_spec sorted).2.1 g member).2
  exact slice_reduce_chain (by simp only [strtoll]; omega) (strtoll_le _).2

/-- The free intervals are as they are to be exactly when no gap ends at or above 2^63,
where `strtoll` gives every address the same value. -/
theorem free_intervals_iff (maps : List (Nat × Nat)) (sorted : SortedFrom 0 maps) :
    Computed maps ↔ ∀ g ∈ gaps 0 maps, g.2 < 2 ^ 63 := by
  obtain ⟨_,bounds,apart,ordered⟩ := gaps_spec sorted
  constructor
  · intro computed g member
    by_contra high
    have proper := (bounds g member).2
    obtain ⟨i,listed,_,above⟩ := (computed.covers (g.2 - 1)).mpr ⟨g,member,by
      simp only [kept,maxMappedAreaSize]
      omega,by omega⟩
    obtain ⟨h,there,low,cut⟩ := (mem_freeIntervals sorted).mp listed
    have top := ((gap_chain sorted there low).1.bounds.2 i cut).2.2.1
    have read := (strtoll_le h.2).2
    omega
  · intro user
    have whole : ∀ g ∈ gaps 0 maps, g.1 < 2 ^ 63 - 1 ∧ strtoll g.2 = g.2 := by
      intro g member
      have proper := (bounds g member).2
      have small := user g member
      exact ⟨by omega,strtoll_of_lt small⟩
    have chains : ∀ g ∈ gaps 0 maps, Chain (kept g) (slice (reduce ⟨g.1,strtoll g.2,false⟩)) g.2 := by
      intro g member
      obtain ⟨low,exact⟩ := whole g member
      have chain := (gap_chain sorted member low).1
      rwa [exact] at chain ⊢
    have cut : ∀ i ∈ freeIntervals maps, ∃ g ∈ gaps 0 maps, i ∈ slice (reduce ⟨g.1,strtoll g.2,false⟩) := by
      intro i listed
      obtain ⟨g,member,_,inside⟩ := (mem_freeIntervals sorted).mp listed
      exact ⟨g,member,inside⟩
    have below : ∀ g, g.1 ≤ kept g := fun g => Nat.le_max_left _ _
    refine ⟨fun i listed => ?_,fun i listed => ?_,?_,fun i listed m mapped => ?_,fun x => ⟨?_,?_⟩,?_⟩
    · obtain ⟨g,member,inside⟩ := cut i listed
      exact ((chains g member).bounds.2 i inside).2.1
    · obtain ⟨g,member,inside⟩ := cut i listed
      exact ((chains g member).bounds.2 i inside).2.2.2
    · simp only [freeIntervals,updateFreeIntervals,updateMemoryMappings_holes sorted,Bool.false_eq_true,
        if_false,List.flatMap_map]
      refine List.pairwise_flatMap.mpr ⟨fun g member => ?_,?_⟩
      · exact (chains g (List.mem_filter.mp member).1).ascending
      · refine (ordered.filter _).imp_of_mem fun {g h} first second before i left j right => ?_
        have high := ((chains g (List.mem_filter.mp first).1).bounds.2 i left).2.2.1
        have low := ((chains h (List.mem_filter.mp second).1).bounds.2 j right).1
        have start := below h
        omega
    · obtain ⟨g,member,inside⟩ := cut i listed
      obtain ⟨low,_,high,_⟩ := (chains g member).bounds.2 i inside
      have start := below g
      rcases apart g member m mapped with before | after
      · exact .inl (by omega)
      · exact .inr (by omega)
    · rintro ⟨i,listed,low,high⟩
      obtain ⟨g,member,inside⟩ := cut i listed
      obtain ⟨start,_,stop,_⟩ := (chains g member).bounds.2 i inside
      exact ⟨g,member,by omega,by omega⟩
    · rintro ⟨g,member,low,high⟩
      obtain ⟨i,inside,has⟩ := (chains g member).covers low high
      exact ⟨i,(mem_freeIntervals sorted).mpr ⟨g,member,(whole g member).1,inside⟩,has⟩
    · intro hole listed
      rw [updateMemoryMappings_holes sorted] at listed
      obtain ⟨g,filtered,rfl⟩ := List.mem_map.mp listed
      obtain ⟨member,low⟩ := List.mem_filter.mp filtered
      have proper := (bounds g member).2
      have low' : g.1 < 2 ^ 63 - 1 := by simpa using low
      have read : g.1 < strtoll g.2 := by
        simp only [strtoll]
        omega
      have loop := (gap_chain sorted member low').2
      rw [reduce_eq read (strtoll_le _).2] at loop ⊢
      exact loop

def withVsyscall : List (Nat × Nat) :=
  [(0x400000,0x401000),(0x7f0000000000,0x7f0000200000),(0xffffffffff600000,0xffffffffff601000)]

theorem withVsyscall_sorted : SortedFrom 0 withVsyscall := by
  simp [withVsyscall,SortedFrom]

/-- The gap below the last page is not covered at its upper end. -/
theorem withVsyscall_uncovered : SortedFrom 0 withVsyscall ∧ ¬Computed withVsyscall := by
  refine ⟨withVsyscall_sorted,fun computed => ?_⟩
  obtain ⟨i,listed,_,above⟩ := (computed.covers 0xffffffffff5fffff).mpr
    ⟨(0x7f0000200000,0xffffffffff600000),by decide,by decide,by decide⟩
  obtain ⟨g,there,low,cut⟩ := (mem_freeIntervals withVsyscall_sorted).mp listed
  have top := ((gap_chain withVsyscall_sorted there low).1.bounds.2 i cut).2.2.1
  have read := (strtoll_le g.2).2
  omega

theorem free_intervals_iff_withoutVsyscall : Computed [(0x400000,0x401000),(0x7f0000000000,0x7f0000200000)] := by
  refine (free_intervals_iff _ (by simp [SortedFrom])).mpr ?_
  decide

end SelfPropelled.Allocator
