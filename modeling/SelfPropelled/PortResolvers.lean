import Mathlib

/-! `GetPidsFromAddrs`, written twice: in the agent library and in the injector's helper. Both
look for the socket of a local port in the kernel's TCP table. -/

namespace SelfPropelled.PortResolvers

/-- The columns `sscanf` reads of a row: `%08X:%04X %08X:%04X` and, after some that are
skipped, the inode. -/
structure Row where
  locIp : BitVec 32
  locPort : BitVec 16
  remIp : BitVec 32
  remPort : BitVec 16
  inode : BitVec 64

/-- A line of the table. One that does not match leaves `inode` as it was and `iloc_port`,
which is declared in the loop, with some value. -/
inductive Line
  | row (r : Row)
  | bad (ilocPort : Int)

def Line.ilocPort : Line → Int
  | row r => r.locPort.toNat
  | bad port => port

/-- The inode is read by `%u` into an `int`. -/
def Row.scanned (r : Row) : BitVec 32 := r.inode.setWidth 32

def Line.inode (before : BitVec 32) : Line → BitVec 32
  | row r => r.scanned
  | bad _ => before

/-- What becomes of a call before it looks at the processes: it ends the process, returns or
goes on with an inode, widened to `ino_t`. -/
inductive Outcome
  | exit
  | returned
  | selected (inode : BitVec 64)
deriving DecidableEq

/-- `int inode = -1` -/
def noInode : BitVec 32 := -1

namespace Agent

def scan (port : Int) : List Line → BitVec 32 → BitVec 32
  | [], inode => inode
  | l :: rest, inode => if l.ilocPort = port then l.inode inode else scan port rest noInode

/-- The table is read again while the socket has no inode, at most five times. -/
def attempt (port : Int) (read : Nat → List Line) : (left : Nat) → BitVec 32 → Outcome
  | left, before =>
    let inode := scan port (read (5 - left)) before
    if inode = noInode then .returned
    else if inode = 0 then
      match left with
      | 0 => .selected (inode.signExtend 64)
      | left + 1 => attempt port read left inode
    else .selected (inode.signExtend 64)

/-- `read` gives the rows below the headline at each opening of the table. -/
def getPidsFromAddrs (port : Int) (read : Nat → List Line) : Outcome := attempt port read 5 noInode

end Agent

namespace Injector

/-- No result where a line does not match and the helper exits. -/
def scan (port : Int) : List Line → BitVec 32 → Option (BitVec 32)
  | [], inode => some inode
  | .bad _ :: _, _ => none
  | .row r :: rest, _ => if (r.locPort.toNat : Int) = port then some r.scanned else scan port rest r.scanned

/-- The helper exits if there is no headline. -/
def getPidsFromAddrs (port : Int) (headline : Bool) (lines : List Line) : Outcome :=
  if headline then
    match scan port lines noInode with
    | none => .exit
    | some inode => if inode = noInode then .returned else .selected (inode.signExtend 64)
  else .exit

end Injector

def Row.hasPort (port : Int) (r : Row) : Bool := r.locPort.toNat = port

/-- The socket of the first row with the port, if there is one. -/
def wanted (port : Int) (rows : List Row) : Outcome :=
  match rows.find? (Row.hasPort port) with
  | some r => .selected r.inode
  | none => .returned

def Agree (port : Int) (rows : List Row) : Prop :=
  Agent.getPidsFromAddrs port (fun _ => rows.map .row) = wanted port rows ∧
    Injector.getPidsFromAddrs port true (rows.map .row) = wanted port rows

/-- The inode is not changed by the way through an `int`, and is not the mark for none. -/
def Row.fits (r : Row) : Prop := r.scanned.signExtend 64 = r.inode ∧ r.scanned ≠ noInode

/-- The first row with the port has an inode that fits; or there is none, and the table is
empty or what is read of its last inode is the mark for none. -/
def Resolvable (port : Int) (rows : List Row) : Prop :=
  match rows.find? (Row.hasPort port) with
  | some r => r.fits
  | none => ∀ r ∈ rows.getLast?, r.scanned = noInode

section
variable {port : Int}

theorem agent_scan (rows : List Row) : Agent.scan port (rows.map .row) noInode =
    match rows.find? (Row.hasPort port) with
    | some r => r.scanned
    | none => noInode := by
  induction rows with
  | nil => rfl
  | cons r rest ih =>
    rw [List.map_cons,Agent.scan,List.find?_cons]
    by_cases here : (r.locPort.toNat : Int) = port
    · simp [Line.ilocPort,Line.inode,Row.hasPort,here]
    · simp [Line.ilocPort,Row.hasPort,here,ih]

theorem agent_scan_again (rows : List Row) {r : Row} (found : rows.find? (Row.hasPort port) = some r)
    (before : BitVec 32) : Agent.scan port (rows.map .row) before = r.scanned := by
  cases rows with
  | nil => simp at found
  | cons r' rest =>
    have first : Agent.scan port ((r' :: rest).map .row) before = Agent.scan port ((r' :: rest).map .row) noInode :=
      rfl
    rw [first,agent_scan,found]

theorem agent_attempt (rows : List Row) {r : Row} (found : rows.find? (Row.hasPort port) = some r)
    (left : Nat) (before : BitVec 32) : Agent.attempt port (fun _ => rows.map .row) left before =
      if r.scanned = noInode then .returned else .selected (r.scanned.signExtend 64) := by
  induction left generalizing before with
  | zero =>
    rw [Agent.attempt]
    simp only [agent_scan_again rows found]
    split_ifs <;> rfl
  | succ left ih =>
    rw [Agent.attempt]
    simp only [agent_scan_again rows found,ih]
    split_ifs <;> rfl

theorem agent_eq (rows : List Row) : Agent.getPidsFromAddrs port (fun _ => rows.map .row) =
    match rows.find? (Row.hasPort port) with
    | some r => if r.scanned = noInode then .returned else .selected (r.scanned.signExtend 64)
    | none => .returned := by
  rw [Agent.getPidsFromAddrs]
  cases found : rows.find? (Row.hasPort port) with
  | some r => exact agent_attempt rows found 5 noInode
  | none =>
    rw [Agent.attempt]
    simp only [agent_scan,found]
    rfl

theorem injector_scan (rows : List Row) (before : BitVec 32) : Injector.scan port (rows.map .row) before =
    some (match rows.find? (Row.hasPort port) with
    | some r => r.scanned
    | none => (rows.getLast?.map Row.scanned).getD before) := by
  induction rows generalizing before with
  | nil => rfl
  | cons r rest ih =>
    rw [List.map_cons,Injector.scan,List.find?_cons]
    by_cases here : (r.locPort.toNat : Int) = port
    · simp [Row.hasPort,here]
    · have skipped : Row.hasPort port r = false := by simpa [Row.hasPort] using here
      rw [if_neg here,ih,skipped]
      have last : ((r :: rest).getLast?.map Row.scanned).getD before = (rest.getLast?.map Row.scanned).getD r.scanned := by
        cases rest with
        | nil => rfl
        | cons r' rest => rw [List.getLast?_cons_cons,List.getLast?_cons]; rfl
      rw [last]

theorem injector_eq (rows : List Row) : Injector.getPidsFromAddrs port true (rows.map .row) =
    let inode := match rows.find? (Row.hasPort port) with
      | some r => r.scanned
      | none => (rows.getLast?.map Row.scanned).getD noInode
    if inode = noInode then .returned else .selected (inode.signExtend 64) := by
  rw [Injector.getPidsFromAddrs,if_pos rfl,injector_scan]

/-- The resolvers agree on the socket of the first row with the port just when its inode
survives the way through an `int`; where there is no such row, when the table's last row
leaves no inode behind. -/
theorem resolvers_agree_iff (rows : List Row) : Agree port rows ↔ Resolvable port rows := by
  rw [Agree,agent_eq,injector_eq,Resolvable,wanted]
  cases found : rows.find? (Row.hasPort port) with
  | some r =>
    simp only [Row.fits]
    by_cases unknown : r.scanned = noInode
    · simp [unknown]
    · simp [unknown]
  | none =>
    cases last : rows.getLast? with
    | none => simp
    | some r => simp

end

def listening : Row := ⟨0,8080,0,0,4711⟩

/-- A table with one socket, asked for another port: the agent returns and the helper goes on
with the inode of that socket. -/
theorem listening_selected : ¬∀ (port : Int) (rows : List Row), Agree port rows := by
  intro all
  have helper := (all 80 [listening]).2
  exact absurd helper (by decide)

end SelfPropelled.PortResolvers
