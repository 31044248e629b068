import SelfPropelled.CallIsolation

/-! The arguments of a call, popped one after another from a fresh handle. -/

namespace SelfPropelled.CallContext
open Machine

def popArguments (m : Memory) (loc : Word) (h : ArgumentHandle) : List Nat → List Popped
  | [] => []
  | size :: rest =>
    let (popped,h) := popArgument m loc h size
    popped :: popArguments m loc h rest

def ArgumentHandle.after (h : ArgumentHandle) (sizes : List Nat) : ArgumentHandle :=
  sizes.foldl (fun h size => if h.num < 6 then {h with num := h.num + 1} else ⟨h.offset + size,h.num + 1⟩) h

def fresh : ArgumentHandle := ⟨0,0⟩

/-- The bytes of an integer argument, as the calling convention passes it. -/
def argument (isTailCall : Bool) (s : State) (k size : Nat) : List Byte :=
  if k < 6 then (toBytes 8 (s.reg (argReg k))).take size else bytesAt s.mem (argSlot isTailCall s k) size

def Popped.read (m : Memory) (size : Nat) : Popped → List Byte
  | .buffer bytes => bytes
  | .slot a => bytesAt m a size

/-- What was popped is the argument: its bytes and, on the stack, its place. -/
def Popped.Yields (isTailCall : Bool) (s : State) (m : Memory) (k size : Nat) (popped : Popped) : Prop :=
  popped.read m size = argument isTailCall s k size ∧ ∀ a, popped = .slot a → a = argSlot isTailCall s k

theorem popArgument_after (m : Memory) (loc : Word) (h : ArgumentHandle) (size : Nat) :
    (popArgument m loc h size).2 = h.after [size] := by
  simp only [popArgument,ArgumentHandle.after,List.foldl_cons,List.foldl_nil]
  split <;> rfl

theorem popArguments_get (m : Memory) (loc : Word) (h : ArgumentHandle) (sizes : List Nat) (k : Nat) :
    (popArguments m loc h sizes)[k]? =
      sizes[k]?.map fun size => (popArgument m loc (h.after (sizes.take k)) size).1 := by
  induction sizes generalizing h k with
  | nil => simp [popArguments]
  | cons size rest ih =>
    cases k with
    | zero => rfl
    | succ k =>
      have next : h.after (size :: rest.take k) = (h.after [size]).after (rest.take k) := rfl
      simp only [popArguments,List.getElem?_cons_succ,List.take_succ_cons,next,ih,popArgument_after]

theorem fresh_after (sizes : List Nat) : fresh.after sizes = ⟨(sizes.drop 6).sum,sizes.length⟩ := by
  induction sizes using List.reverseRecOn with
  | nil => rfl
  | append_singleton sizes size ih =>
    have last : fresh.after (sizes ++ [size]) = (fresh.after sizes).after [size] := by
      simp [ArgumentHandle.after]
    rw [last,ih]
    by_cases few : sizes.length < 6
    · have none : sizes.drop 6 = [] := List.drop_eq_nil_of_le (by omega)
      have none' : (sizes ++ [size]).drop 6 = [] := List.drop_eq_nil_of_le (by simp; omega)
      simp [ArgumentHandle.after,few,none,none']
    · have more : (sizes ++ [size]).drop 6 = sizes.drop 6 ++ [size] := List.drop_append_of_le_length (by omega)
      simp [ArgumentHandle.after,few,more]

theorem sum_eq_slots {sizes : List Nat} (small : ∀ size ∈ sizes, size ≤ 8) :
    sizes.sum ≤ 8 * sizes.length ∧ (sizes.sum = 8 * sizes.length ↔ ∀ size ∈ sizes, size = 8) := by
  induction sizes with
  | nil => simp
  | cons size rest ih =>
    obtain ⟨here,others⟩ := List.forall_mem_cons.mp small
    obtain ⟨bound,full⟩ := ih others
    rw [List.forall_mem_cons,← full,List.sum_cons,List.length_cons]
    omega

theorem mem_before {sizes : List Nat} {k : Nat} (inside : k ≤ sizes.length) :
    (∀ size ∈ (sizes.take k).drop 6, size = 8) ↔ ∀ j, 6 ≤ j → j < k → sizes[j]? = some 8 := by
  constructor
  · intro all j low high
    have here : ((sizes.take k).drop 6)[j - 6]? = sizes[j]? := by
      rw [List.getElem?_drop,Nat.add_sub_cancel' low,List.getElem?_take_of_lt high]
    have bound : j < sizes.length := by omega
    rw [List.getElem?_eq_getElem bound] at here ⊢
    rw [all _ (List.mem_of_getElem? here)]
  · intro each size member
    obtain ⟨i,at'⟩ := List.mem_iff_getElem?.mp member
    rw [List.getElem?_drop,List.getElem?_take] at at'
    split at at'
    next before =>
      have eight := each (6 + i) (by omega) before
      rw [eight] at at'
      exact (Option.some.inj at').symm
    next => cases at'

theorem length_before {sizes : List Nat} {k : Nat} (inside : k ≤ sizes.length) :
    ((sizes.take k).drop 6).length = k - 6 := by
  rw [List.length_drop,List.length_take,Nat.min_eq_left inside]

/-- What is popped as the `k`-th argument: a copy of a register, or a place on the stack
as far up as the sizes before it add up to. -/
def poppedAt (s : State) (sizes : List Nat) (k size : Nat) : Popped :=
  if k < 6 then .buffer ((toBytes 8 (s.reg (argReg k))).take size)
  else .slot (s.reg .rsp + BitVec.ofNat 64 ((sizes.take k).drop 6).sum)

theorem pop_saved (indirect isTailCall : Bool) (loc top : Word) (s : State) (code : Memory)
    (sizes : List Nat) (aligned : AlignedFor isTailCall (s.reg .rsp))
    (room : contextSize indirect isTailCall + (top - s.reg .rsp).toNat < 2 ^ 64)
    (field : ∀ x, InStack top (s.reg .rsp - BitVec.ofNat 64 (contextSize indirect isTailCall)) x →
      ¬In loc 8 x)
    (held : CodeAt code s.rip (emitSave indirect isTailCall loc)) :
    ∃ u, Falls code s u ∧ u.rip = s.rip + BitVec.ofNat 64 (emitSave indirect isTailCall loc).length ∧
      (∀ x, InStack top (s.reg .rsp) x → u.mem x = s.mem x) ∧
      ∀ k size, sizes[k]? = some size →
        (popArguments u.mem (load 64 u.mem loc) fresh sizes)[k]? = some (poppedAt s sizes k size) := by
  let low := s.reg .rsp - BitVec.ofNat 64 (contextSize indirect isTailCall)
  have up : s.reg .rsp = low + BitVec.ofNat 64 (contextSize indirect isTailCall) :=
    (BitVec.sub_add_cancel _ _).symm
  have tight := room
  rw [up] at tight
  obtain ⟨u,save,saved⟩ := save_spec indirect isTailCall loc s aligned fun x inside => field x
    (inStack_below (j := 0) (k := contextSize indirect isTailCall) (by simpa using inside) (by omega) tight)
  have bottom : u.reg .rsp = low := by
    have sum := saved.rsp
    rw [up] at sum
    exact ((BitVec.add_left_inj _).mp sum).symm
  refine ⟨_,.straight (emitSave_assembles indirect isTailCall loc) held save,rfl,fun x inside => ?_,
    fun k size here => ?_⟩
  · rw [State.at_mem]
    refine saved.frame x (fun context => ?_) (field x ?_)
    · rw [bottom] at context
      rw [up] at inside
      exact InStack.apart (j := 0) (n := contextSize indirect isTailCall) (by omega) tight x
        (by simpa using context) inside
    · rw [up] at inside
      exact inside.lower tight
  · have bound := (List.getElem?_eq_some_iff.mp here).1
    have count : (sizes.take k).length = k := by rw [List.length_take]; omega
    rw [State.at_mem,saved.location,popArguments_get,here,Option.map_some,fresh_after,count]
    simp only [popArgument,poppedAt]
    split
    next => rw [getSavedReg_saved saved (Site.keeps_argReg _ k)]
    next =>
      simp only [rspOffset]
      congr 2
      ring

theorem argSlot_eq (isTailCall : Bool) (s : State) (k : Nat) :
    argSlot isTailCall s k = s.reg .rsp + BitVec.ofNat 64 ((if isTailCall then 8 else 0) + 8 * (k - 6)) := by
  cases isTailCall
  · simp [argSlot]
  · exact add_ofNat _ 8 _

theorem add_ofNat_inj {a : Word} {i j : Nat} (small : i < 2 ^ 64) (small' : j < 2 ^ 64) :
    a + BitVec.ofNat 64 i = a + BitVec.ofNat 64 j ↔ i = j := by
  rw [BitVec.add_right_inj,← BitVec.toNat_inj,BitVec.toNat_ofNat,BitVec.toNat_ofNat,
    Nat.mod_eq_of_lt small,Nat.mod_eq_of_lt small']

/-- Argument popping. After the save sequence of a snippet of any kind, run from any call
point, the `k`-th pop yields the `k`-th integer argument of the call exactly when it is
passed in a register, or the call is no tail jump and every stack argument popped before
fills its slot. -/
theorem pop_argument_iff (indirect isTailCall : Bool) (loc top : Word) (s : State) (code : Memory)
    (sizes : List Nat) (aligned : AlignedFor isTailCall (s.reg .rsp))
    (room : contextSize indirect isTailCall + (top - s.reg .rsp).toNat < 2 ^ 64)
    (field : ∀ x, InStack top (s.reg .rsp - BitVec.ofNat 64 (contextSize indirect isTailCall)) x →
      ¬In loc 8 x)
    (held : CodeAt code s.rip (emitSave indirect isTailCall loc))
    (integers : ∀ size ∈ sizes, size ∈ [1,2,4,8])
    (passed : (if isTailCall then 8 else 0) + 8 * (sizes.length - 6) ≤ (top - s.reg .rsp).toNat) :
    ∃ u, Falls code s u ∧ u.rip = s.rip + BitVec.ofNat 64 (emitSave indirect isTailCall loc).length ∧
      ∀ k size, sizes[k]? = some size →
        ∃ popped, (popArguments u.mem (load 64 u.mem loc) fresh sizes)[k]? = some popped ∧
          (popped.Yields isTailCall s u.mem k size ↔
            k < 6 ∨ isTailCall = false ∧ ∀ j, 6 ≤ j → j < k → sizes[j]? = some 8) := by
  obtain ⟨u,runs,last,stack,pops⟩ := pop_saved indirect isTailCall loc top s code sizes aligned room field held
  refine ⟨u,runs,last,fun k size here => ⟨_,pops k size here,?_⟩⟩
  have bound := (List.getElem?_eq_some_iff.mp here).1
  by_cases register : k < 6
  · simp [Popped.Yields,poppedAt,Popped.read,argument,register]
  have integer := integers size (List.mem_of_getElem? here)
  have small : size ≤ 8 := by
    simp only [List.mem_cons,List.not_mem_nil,or_false] at integer
    omega
  have before : ∀ other ∈ (sizes.take k).drop 6, other ≤ 8 := fun other member => by
    have among := integers other (List.mem_of_mem_take (List.mem_of_mem_drop member))
    simp only [List.mem_cons,List.not_mem_nil,or_false] at among
    omega
  obtain ⟨under,full⟩ := sum_eq_slots before
  rw [length_before (Nat.le_of_lt bound)] at under full
  rw [mem_before (Nat.le_of_lt bound)] at full
  have place : s.reg .rsp + BitVec.ofNat 64 ((sizes.take k).drop 6).sum = argSlot isTailCall s k ↔
      isTailCall = false ∧ ∀ j, 6 ≤ j → j < k → sizes[j]? = some 8 := by
    rw [← full,argSlot_eq,add_ofNat_inj (by omega) (by cases isTailCall <;> simp at passed ⊢ <;> omega)]
    cases isTailCall <;> simp
    omega
  have untouched : bytesAt u.mem (argSlot isTailCall s k) size = bytesAt s.mem (argSlot isTailCall s k) size := by
    rw [argSlot_eq]
    refine bytesAt_congr (by omega) fun x inside => stack x (inside.shift ?_ (Nat.le_of_lt (BitVec.isLt _)))
    omega
  have popped : poppedAt s sizes k size = .slot (s.reg .rsp + BitVec.ofNat 64 ((sizes.take k).drop 6).sum) :=
    if_neg register
  have expected : argument isTailCall s k size = bytesAt s.mem (argSlot isTailCall s k) size := if_neg register
  rw [or_iff_right register,← place]
  simp only [Popped.Yields,popped,expected,Popped.read,Popped.slot.injEq,forall_eq']
  exact ⟨fun both => both.2,fun same => ⟨by rw [same,untouched],same⟩⟩

/-- A direct call with eight arguments, two of them on the stack. -/
def eightArguments : State where
  reg r := if r = .rsp then 0x7fffffffe000 else 0
  xmm _ := 0
  flags := ⟨true,false,true,false,true,true⟩
  mem _ := 0
  rip := 0x403000

def savedFromEight : Memory := imageOf 0x403000 (emitSave false false 0x600000)

theorem eightArguments_field (x : Word)
    (inside : InStack 0x7ffffffff000 (eightArguments.reg .rsp - BitVec.ofNat 64 (contextSize false false)) x) :
    ¬In 0x600000 8 x := by
  have size : contextSize false false = 208 := by decide
  rw [size] at inside
  simp only [InStack,In,eightArguments,if_true] at inside ⊢
  bv_omega

theorem pop_argument_iff_eightArguments : ∃ u, Falls savedFromEight eightArguments u ∧
    ∃ popped, (popArguments u.mem (load 64 u.mem 0x600000) fresh [8,8,8,8,4,8,8,4])[7]? = some popped ∧
      popped.Yields false eightArguments u.mem 7 4 := by
  obtain ⟨u,runs,_,pops⟩ := pop_argument_iff false false 0x600000 0x7ffffffff000 eightArguments savedFromEight
    [8,8,8,8,4,8,8,4] (by unfold AlignedFor; decide) (by decide) eightArguments_field
    (codeAt_imageOf _ _ (by decide +kernel)) (by decide) (by decide)
  obtain ⟨popped,here,yields⟩ := pops 7 4 rfl
  refine ⟨u,runs,popped,here,yields.mpr (.inr ⟨rfl,fun j low high => ?_⟩)⟩
  interval_cases j
  rfl

/-- After a 4-byte argument on the stack the next one is read from the middle of its slot. -/
theorem pop_argument_misplaced : ∃ u, Falls savedFromEight eightArguments u ∧
    u.rip = eightArguments.rip + BitVec.ofNat 64 (emitSave false false 0x600000).length ∧
    (popArguments u.mem (load 64 u.mem 0x600000) fresh [8,8,8,8,8,8,4,8])[7]? = some (.slot 0x7fffffffe004) ∧
      ¬(Popped.slot 0x7fffffffe004).Yields false eightArguments u.mem 7 8 := by
  obtain ⟨u,runs,last,_,pops⟩ := pop_saved false false 0x600000 0x7ffffffff000 eightArguments savedFromEight
    [8,8,8,8,8,8,4,8] (by unfold AlignedFor; decide) (by decide) eightArguments_field
    (codeAt_imageOf _ _ (by decide +kernel))
  refine ⟨u,runs,last,pops 7 8 rfl,fun yields => ?_⟩
  exact absurd (yields.2 _ rfl) (by decide)

end SelfPropelled.CallContext
