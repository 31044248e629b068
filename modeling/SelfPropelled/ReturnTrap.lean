import SelfPropelled.BlobSize
import SelfPropelled.Payload
import SelfPropelled.Transparency

/-! Return traps: `ModifyPC` replaces the return instructions of a function that was active
when the agent came in, `OnTrap` sends them to the exit part of a call site's blob. -/

namespace SelfPropelled.ReturnTrap
open Machine

/-- A frame of the stack walk made at injection. -/
structure Frame where
  name : String
  ra : Word

/-- What the trap handler asks the context and the workers. A `none` of the maps is the null
pointer; an error ends the process only when debug messages are on. -/
structure SpContext where
  stackwalk : List Frame
  raCspMap : Word → Option Nat
  ptRaMap : Nat → Option Word
  instMap : Word → Option Nat
  debug : Bool

def isRecvLikeFunction (func : String) : Bool := func == "recv"

/-- The return address the frame after the first recv-like function has. A walk that ends
there has no such frame. -/
def getReturnAddress : List Frame → Word
  | f :: next :: rest =>
    if isRecvLikeFunction f.name then next.ra else getReturnAddress (next :: rest)
  | [_] | [] => 0

namespace SpContext

def callSite (ctx : SpContext) : Option Nat :=
  if getReturnAddress ctx.stackwalk = 0 then none else ctx.raCspMap (getReturnAddress ctx.stackwalk)

def exitInstAddr (ctx : SpContext) : Option Word := ctx.callSite.bind ctx.ptRaMap

end SpContext

def alignStack (s : State) : State := s.set .rsp (s.reg .rsp - 8)

/-- The part of `TrapWorker::OnTrap` for addresses that are no call site. -/
def onTrap (ctx : SpContext) (s : State) : Option State :=
  match ctx.instMap (s.rip - 1) with
  | some _ => none
  | none =>
    if getReturnAddress ctx.stackwalk = 0 then some s
    else if ctx.debug && ctx.exitInstAddr.isNone then none
    else some ((alignStack s).at (ctx.exitInstAddr.getD 0))

/-- `TrapWorker::ReplaceReturnWithTrap` for the return instruction at an address. -/
def replaceReturnWithTrap (mem : Memory) (last : Word) (granted : Bool) : Bool × Memory :=
  if Workers.belowPage last then (false,mem)
  else if Workers.permits last granted then (true,storeBytes mem last [0xcc])
  else (false,mem)

/-- The loop of `SpPropeller::ModifyPC` over the function's exit points, each with the
answer to the change of its permission. What the worker returns is not looked at. -/
def modifyPC (mem : Memory) (returns : List (Word × Bool)) : Memory :=
  returns.foldl (fun m r => (replaceReturnWithTrap m r.1 r.2).2) mem

theorem storeBytes_trap (mem : Memory) (last : Word) : storeBytes mem last [0xcc] last = 0xcc := by
  rw [storeBytes_inside _ _ _ _ (by simp)]
  simp

theorem replaceReturnWithTrap_keeps {mem : Memory} {last x : Word} (granted : Bool) (trapped : mem x = 0xcc) :
    (replaceReturnWithTrap mem last granted).2 x = 0xcc := by
  have kept : storeBytes mem last [0xcc] x = 0xcc := by
    by_cases same : x = last
    · rw [same,storeBytes_trap]
    · rw [storeBytes_outside _ _ _ _ fun inside => same ?_,trapped]
      simp only [In,List.length_singleton] at inside
      bv_omega
  unfold replaceReturnWithTrap
  split
  · exact trapped
  split
  · exact kept
  · exact trapped

theorem modifyPC_trapped {returns : List (Word × Bool)} {last : Word} (mem : Memory)
    (listed : (last,true) ∈ returns) (page : Workers.belowPage last = false) : modifyPC mem returns last = 0xcc := by
  have later : ∀ (rs : List (Word × Bool)) (m : Memory), m last = 0xcc → modifyPC m rs last = 0xcc := by
    intro rs
    induction rs with
    | nil => exact fun _ trapped => trapped
    | cons r rs ih => exact fun m trapped => ih _ (replaceReturnWithTrap_keeps r.2 trapped)
  induction returns generalizing mem with
  | nil => cases listed
  | cons r rs ih =>
    rcases List.mem_cons.mp listed with rfl | rest
    · refine later rs _ ?_
      simp only [replaceReturnWithTrap,page,Workers.permits_of_page page,Bool.false_eq_true,if_false,if_true]
      exact storeBytes_trap mem last
    · exact ih _ rest

/-- What a return instruction does, as the rest of the program sees it: the stack pointer is
eight higher, the results are there, and control is at the address on top of the stack. -/
structure LikeReturn (s t : State) : Prop where
  rip : t.rip = load 64 s.mem (s.reg .rsp)
  rsp : t.reg .rsp = s.reg .rsp + 8
  rax : t.reg .rax = s.reg .rax
  rdx : t.reg .rdx = s.reg .rdx
  xmm0 : t.xmm 0 = s.xmm 0
  xmm1 : t.xmm 1 = s.xmm 1

/-- What an execution of a trapped return is to be: the handler finds the exit part of a call
site, whose wrapper finds the site's handle on the stack of handles, and whose code then
comes back as the return would have. -/
def ReturnsThroughExit (ctx : SpContext) (snip : Nat → Snippet) (code : Memory) (top : Word)
    (handles : List Payload.PointCallHandle) (s : State) : Prop :=
  ∃ pt a entered, ctx.callSite = some pt ∧ ctx.ptRaMap pt = some a ∧ onTrap ctx s = some entered ∧
    (∃ h ∈ handles, h.pt = pt) ∧ ∃ t, Enters code entered t ∧ WrapperCalled (snip pt).wrapperExit (snip pt).point (snip pt).exit t ∧
      ∀ r, AbiReturn top t r → ∃ u, Enters code r u ∧ LikeReturn s u

section
variable {ctx : SpContext} {snip : Nat → Snippet} {code : Memory} {top : Word} {s : State}

/-- The exit part runs to its end with the stack pointer the handler has set, and goes to
the return address of the call site the stack walk found. -/
theorem exit_runs {pt : Nat} {a : Word} {entered : State} (site : ctx.callSite = some pt)
    (address : ctx.ptRaMap pt = some a) (redirected : onTrap ctx s = some entered)
    (held : CodeAt code a ((snip pt).emitExit a)) (stack : StackFor top (snip pt) (s.reg .rsp - 8)) :
    entered.reg .rsp = s.reg .rsp - 8 ∧ ExitReturns code top (snip pt) entered := by
  have exit : ctx.exitInstAddr = some a := by simp [SpContext.exitInstAddr,site,address]
  have found : getReturnAddress ctx.stackwalk ≠ 0 := by
    intro none
    simp [SpContext.callSite,none] at site
  have sent : (alignStack s).at a = entered := by
    simp only [onTrap,if_neg found,exit] at redirected
    split at redirected
    · cases redirected
    · simpa using redirected
  have sp : entered.reg .rsp = s.reg .rsp - 8 := by simp [← sent,alignStack]
  have rip : entered.rip = a := by rw [← sent]; rfl
  exact ⟨sp,emitExit_returns (by rwa [sp]) (by rwa [rip])⟩

theorem abiReturn_exists (top : Word) (t : State) : ∃ r, AbiReturn top t r :=
  ⟨{t.set .rsp (t.reg .rsp + 8) with rip := load 64 t.mem (t.reg .rsp)},rfl,by simp,
    by simp [calleeSaved],fun _ _ => rfl⟩

/-- No execution comes back as a return does: the handler moves the stack pointer down where
the return address should be taken off. -/
theorem not_returns (registered : ∀ pt a, ctx.ptRaMap pt = some a → CodeAt code a ((snip pt).emitExit a))
    (stack : ∀ pt, ctx.callSite = some pt → StackFor top (snip pt) (s.reg .rsp - 8))
    (handles : List Payload.PointCallHandle) : ¬ReturnsThroughExit ctx snip code top handles s := by
  rintro ⟨pt,a,entered,site,address,redirected,_,t,enters,_,after⟩
  obtain ⟨sp,t',enters',_,after'⟩ := exit_runs site address redirected (registered pt a address) (stack pt site)
  obtain rfl := enters.unique enters'
  obtain ⟨r,returned⟩ := abiReturn_exists top t
  obtain ⟨u,leaves,like⟩ := after r returned
  obtain ⟨u',leaves',_,sp',_⟩ := after' r returned
  obtain rfl := leaves.unique leaves'
  have below : u.reg .rsp = s.reg .rsp - 8 := sp'.trans sp
  rw [like.rsp] at below
  bv_omega

/-- Return trap after mid-call injection. Whatever function was active and whatever is on the
stack of handles, no execution of one of its replaced return instructions comes back as
the return would have. -/
theorem return_trap_never (ctx : SpContext) (snip : Nat → Snippet) (mem code : Memory)
    (returns : List (Word × Bool)) (last : Word) (replaced : (last,true) ∈ returns)
    (page : Workers.belowPage last = false)
    (registered : ∀ pt a, ctx.ptRaMap pt = some a → CodeAt code a ((snip pt).emitExit a))
    (handles : List Payload.PointCallHandle) (top : Word) (s : State) (here : s.rip = last + 1)
    (stack : ∀ pt, ctx.callSite = some pt → StackFor top (snip pt) (s.reg .rsp - 8)) :
    modifyPC mem returns (s.rip - 1) = 0xcc ∧ ¬ReturnsThroughExit ctx snip code top handles s := by
  have back : s.rip - 1 = last := by rw [here]; bv_omega
  rw [back]
  exact ⟨modifyPC_trapped mem replaced page,not_returns registered stack handles⟩

end

def recvContext : SpContext where
  stackwalk := [⟨"recv",0x405010⟩,⟨"main",0x401005⟩]
  raCspMap := fun a => if a = 0x401005 then some 0 else none
  ptRaMap := fun pt => if pt = 0 then some 0x403000 else none
  instMap := fun _ => none
  debug := false

def recvCode : Memory := imageOf 0x403000 (directCallPoint.emitExit 0x403000)

def recvState : State where
  reg := fun r => if r = .rsp then 0x7fffffffe008 else 0
  xmm := fun _ => 0
  flags := ⟨false,false,false,false,false,false⟩
  mem := fun _ => 0
  rip := 0x405021

theorem recv_registered (pt : Nat) (a : Word) (address : recvContext.ptRaMap pt = some a) :
    CodeAt recvCode a (directCallPoint.emitExit a) := by
  simp only [recvContext,Option.ite_none_right_eq_some,Option.some.injEq] at address
  rw [← address.2]
  exact codeAt_imageOf _ _ ((directCallPoint.length_emitExit _).trans (by decide))

theorem recv_stack : StackFor 0x7ffffffff000 directCallPoint (recvState.reg .rsp - 8) := by
  have lower : recvState.reg .rsp - 8 = 0x7fffffffe000 := by decide
  rw [lower]
  exact directCallPoint_stack

/-- The exit part is entered with the stack pointer sixteen bytes too low, and the return is
not as the return instruction's. -/
theorem recvReturn_low : ∃ entered, onTrap recvContext recvState = some entered ∧
    entered.rip = 0x403000 ∧ entered.reg .rsp = 0x7fffffffe000 ∧
    ¬ReturnsThroughExit recvContext (fun _ => directCallPoint) recvCode 0x7ffffffff000 [⟨0,0,none,0,0⟩] recvState :=
  ⟨(alignStack recvState).at 0x403000,rfl,rfl,by decide,
    not_returns recv_registered (fun _ _ => recv_stack) [⟨0,0,none,0,0⟩]⟩

theorem return_trap_never_recv : modifyPC (fun _ => 0xc3) [(0x405020,true)] (recvState.rip - 1) = 0xcc ∧
    ¬ReturnsThroughExit recvContext (fun _ => directCallPoint) recvCode 0x7ffffffff000 [⟨0,0,none,0,0⟩] recvState :=
  return_trap_never recvContext _ _ _ _ 0x405020 List.mem_cons_self (by decide) recv_registered _ _ _ rfl
    fun _ _ => recv_stack

end SelfPropelled.ReturnTrap
