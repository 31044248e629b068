import SelfPropelled.Library.Run

/-! The channel cache of an IPC worker: `GetChannel` and `CloseChannel`. -/

namespace SelfPropelled.Ipc

inductive ChannelRW
  | read | write | norw
deriving DecidableEq, Repr

/-- A channel, with the number of its construction. -/
structure SpChannel where
  id : Nat
  fd : Int
  rw : ChannelRW
deriving DecidableEq, Repr

/-- The maps from descriptors to channels, and the number of channels constructed. -/
structure SpIpcWorkerDelegate where
  channelMapWrite : Int → Option SpChannel
  channelMapRead : Int → Option SpChannel
  created : Nat

namespace SpIpcWorkerDelegate

def empty : SpIpcWorkerDelegate := ⟨fun _ => none,fun _ => none,0⟩

def cached (d : SpIpcWorkerDelegate) (rw : ChannelRW) (fd : Int) : Option SpChannel :=
  if rw = .write then d.channelMapWrite fd else d.channelMapRead fd

/-- `made` tells whether `CreateChannel` constructs a channel. -/
def getChannel (d : SpIpcWorkerDelegate) (fd : Int) (rw : ChannelRW) (made : Bool) :
    Option SpChannel × SpIpcWorkerDelegate :=
  match d.cached rw fd with
  | some c => (some c,d)
  | none =>
    if made then
      if rw = .write then
        let c : SpChannel := ⟨d.created,fd,.write⟩
        (some c,{d with
          channelMapWrite := Function.update d.channelMapWrite fd (some c), created := d.created + 1})
      else
        let c : SpChannel := ⟨d.created,fd,.read⟩
        (some c,{d with
          channelMapRead := Function.update d.channelMapRead fd (some c), created := d.created + 1})
    else (none,d)

def closeChannel (d : SpIpcWorkerDelegate) (fd : Int) : SpIpcWorkerDelegate :=
  if (d.channelMapWrite fd).isSome then
    {d with channelMapWrite := Function.update d.channelMapWrite fd none}
  else if (d.channelMapRead fd).isSome then
    {d with channelMapRead := Function.update d.channelMapRead fd none}
  else d

end SpIpcWorkerDelegate

open SpIpcWorkerDelegate

inductive Op
  | get (fd : Int) (rw : ChannelRW) (made : Bool)
  | close (fd : Int)
deriving DecidableEq

def step (d : SpIpcWorkerDelegate) : Op → SpIpcWorkerDelegate
  | .get fd rw made => (d.getChannel fd rw made).2
  | .close fd => d.closeChannel fd

def after (ops : List Op) : SpIpcWorkerDelegate := Library.run step empty ops

structure CacheFresh (ops : List Op) : Prop where
  /-- No channel is returned that is older than a close of its descriptor. -/
  fresh : ∀ before fd between rw made rest, ops = before ++ .close fd :: (between ++ .get fd rw made :: rest) →
    ∀ c, ((after (before ++ .close fd :: between)).getChannel fd rw made).1 = some c →
      (after before).created ≤ c.id
  /-- A close removes both channels of its descriptor and no other. -/
  removes : ∀ before fd rest, ops = before ++ .close fd :: rest → ∀ rw,
    ((after before).closeChannel fd).cached rw fd = none ∧
      ∀ fd', fd' ≠ fd → ((after before).closeChannel fd).cached rw fd' = (after before).cached rw fd'
  /-- A channel is returned again until its descriptor is closed. -/
  same : ∀ before fd rw made between made' rest,
    ops = before ++ .get fd rw made :: (between ++ .get fd rw made' :: rest) → .close fd ∉ between →
    ∀ c, ((after before).getChannel fd rw made).1 = some c →
      ((after (before ++ .get fd rw made :: between)).getChannel fd rw made').1 = some c

def OneCached (d : SpIpcWorkerDelegate) : Op → Prop
  | .get _ _ _ => True
  | .close fd => d.channelMapWrite fd = none ∨ d.channelMapRead fd = none

section
variable {d : SpIpcWorkerDelegate} {fd fd' : Int} {rw rw' : ChannelRW} {made : Bool}

theorem cached_side (side : rw' = .write ↔ rw = .write) : d.cached rw' fd = d.cached rw fd := by
  simp only [cached,side]

theorem getChannel_found {c : SpChannel} (found : d.cached rw fd = some c) :
    d.getChannel fd rw made = (some c,d) := by
  rw [getChannel,found]

theorem getChannel_cached : (d.getChannel fd rw made).2.cached rw' fd' =
    if fd' = fd ∧ (rw' = .write ↔ rw = .write) then (d.getChannel fd rw made).1 else d.cached rw' fd' := by
  unfold getChannel
  split
  next c found =>
    split_ifs with own
    · rw [own.1,cached_side own.2,found]
    · rfl
  next missing =>
    cases made with
    | false =>
      simp only [Bool.false_eq_true,if_false]
      split_ifs with own
      · rw [own.1,cached_side own.2,missing]
      · rfl
    | true =>
      by_cases write : rw = .write <;> by_cases write' : rw' = .write <;>
        simp [cached,write,write',Function.update_apply]

theorem getChannel_new {c : SpChannel} (answer : (d.getChannel fd rw made).1 = some c) :
    d.cached rw fd = some c ∨ c.id = d.created := by
  unfold getChannel at answer
  split at answer
  next c' found => exact .inl (found.trans answer)
  next missing =>
    split_ifs at answer with new write
    · exact .inr (by rw [← Option.some.inj answer])
    · exact .inr (by rw [← Option.some.inj answer])

theorem getChannel_created : d.created ≤ (d.getChannel fd rw made).2.created := by
  unfold getChannel
  split
  · exact le_rfl
  · split_ifs
    · exact Nat.le_succ _
    · exact Nat.le_succ _
    · exact le_rfl

theorem closeChannel_created : (d.closeChannel fd).created = d.created := by
  unfold closeChannel
  split_ifs <;> rfl

theorem closeChannel_other (other : fd' ≠ fd) : (d.closeChannel fd).cached rw fd' = d.cached rw fd' := by
  unfold closeChannel
  split_ifs <;> simp [cached,Function.update_of_ne other]

theorem closeChannel_left {c : SpChannel} (found : (d.closeChannel fd).cached rw fd' = some c) :
    d.cached rw fd' = some c := by
  rcases eq_or_ne fd' fd with rfl | other
  · unfold closeChannel at found
    split_ifs at found <;> by_cases write : rw = .write <;> simp_all [cached]
  · rwa [closeChannel_other other] at found

/-- A close empties both entries just when it finds at most one of them. -/
theorem closeChannel_removes : (∀ rw, (d.closeChannel fd).cached rw fd = none) ↔
    d.channelMapWrite fd = none ∨ d.channelMapRead fd = none := by
  unfold closeChannel
  constructor
  · intro removed
    cases write : d.channelMapWrite fd with
    | none => exact .inl rfl
    | some c =>
      have gone := removed .read
      simp only [write,Option.isSome_some,if_true] at gone
      exact .inr gone
  · intro one rw
    cases write : d.channelMapWrite fd with
    | none =>
      cases read : d.channelMapRead fd with
      | none => simp [cached,write,read]
      | some c => simp [cached,write]
    | some c =>
      have read : d.channelMapRead fd = none := one.resolve_left (by simp [write])
      simp [cached,read]

/-- What is cached stays cached until a close of its descriptor. -/
theorem step_keeps {op : Op} {c : SpChannel} (found : d.cached rw fd = some c) (other : op ≠ .close fd) :
    (step d op).cached rw fd = some c := by
  cases op with
  | get fd' rw' made =>
    rw [step,getChannel_cached]
    split_ifs with own
    · rw [own.1,cached_side own.2] at found
      rw [getChannel_found found]
    · exact found
  | close fd' =>
    have apart : fd ≠ fd' := fun same => other (by rw [same])
    rw [step,closeChannel_other apart]
    exact found

theorem run_keeps {ops : List Op} {c : SpChannel} (found : d.cached rw fd = some c) (open' : .close fd ∉ ops) :
    (Library.run step d ops).cached rw fd = some c := by
  induction ops generalizing d with
  | nil => exact found
  | cons op ops ih =>
    rw [List.mem_cons,not_or] at open'
    exact ih (step_keeps found (Ne.symm open'.1)) open'.2

/-- Nothing older than the first `n` channels is cached for the descriptor. -/
def Since (n : Nat) (fd : Int) (d : SpIpcWorkerDelegate) : Prop :=
  n ≤ d.created ∧ ∀ rw c, d.cached rw fd = some c → n ≤ c.id

theorem Since.step {n : Nat} (since : Since n fd d) (op : Op) : Since n fd (step d op) := by
  cases op with
  | get fd' rw' made =>
    refine ⟨since.1.trans getChannel_created,fun rw c found => ?_⟩
    rw [Ipc.step,getChannel_cached] at found
    split_ifs at found with own
    · rcases getChannel_new found with old | new
      · rw [← own.1] at old
        exact since.2 rw' c old
      · exact new ▸ since.1
    · exact since.2 rw c found
  | close fd' =>
    refine ⟨?_,fun rw c found => since.2 rw c (closeChannel_left found)⟩
    rw [Ipc.step,closeChannel_created]
    exact since.1

theorem after_append (ops ops' : List Op) : after (ops ++ ops') = Library.run step (after ops) ops' :=
  Library.run_append ..

theorem OneCached.removes (one : OneCached d (.close fd)) (rw : ChannelRW) :
    (d.closeChannel fd).cached rw fd = none :=
  closeChannel_removes.mpr one rw

end

/-- The cache is fresh along a sequence of operations just when no close finds both channels
of its descriptor. -/
theorem cache_fresh_iff (ops : List Op) : CacheFresh ops ↔ Library.Meets step OneCached empty ops := by
  rw [Library.meets_iff_split]
  constructor
  · intro fresh before op rest split
    cases op with
    | get fd rw made => trivial
    | close fd => exact closeChannel_removes.mp fun rw => (fresh.removes before fd rest split rw).1
  · intro one
    constructor
    · intro before fd between rw made rest split c answer
      have closed : OneCached (after before) (.close fd) := one before _ _ split
      have gone : Since (after before).created fd ((after before).closeChannel fd) :=
        ⟨closeChannel_created.ge,fun rw c found => absurd found (by simp [closed.removes rw])⟩
      have kept : Since (after before).created fd (after (before ++ .close fd :: between)) := by
        rw [after_append]
        exact @Library.invariant_always _ _ step (Since (after before).created fd)
          (fun _ op since => since.step op) _ between gone
      rcases getChannel_new answer with old | new
      · exact kept.2 rw c old
      · exact new ▸ kept.1
    · intro before fd rest split rw
      have closed : OneCached (after before) (.close fd) := one before _ _ split
      exact ⟨closed.removes rw,fun fd' other => closeChannel_other other⟩
    · intro before fd rw made between made' rest split still c answer
      have found : (step (after before) (.get fd rw made)).cached rw fd = some c := by
        rw [step,getChannel_cached,if_pos ⟨rfl,Iff.rfl⟩]
        exact answer
      have kept : (after (before ++ .get fd rw made :: between)).cached rw fd = some c := by
        rw [after_append,Library.run_cons]
        exact run_keeps found still
      rw [getChannel_found kept]

/-- A descriptor is written to and read from, closed, and read from again after it was
opened anew. -/
def reused : List Op := [.get 5 .write true,.get 5 .read true,.close 5,.get 5 .read true]

/-- The channel of before is returned. -/
theorem reused_stale : ¬CacheFresh reused := by
  intro fresh
  have stale := fresh.fresh [.get 5 .write true,.get 5 .read true] 5 [] .read true [] rfl ⟨1,5,.read⟩
    (by decide)
  exact absurd stale (by decide)

end SelfPropelled.Ipc
