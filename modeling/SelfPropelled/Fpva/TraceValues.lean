import SelfPropelled.Fpva.TraceMgr
import SelfPropelled.SecStar.TraceParse

/-! The values of a call's parameters that the visualizer gets back. -/

namespace SelfPropelled.Fpva
open Library Xml SecStar

/-- The type of an event as the call's name gives it. -/
def eventType : Kind → Option Str
  | .fork _ => some "fork".toList
  | .clone _ => some "clone".toList
  | .connect .. => some "connect".toList
  | .accept .. => some "accept".toList
  | .seteuid _ => some "seteuid".toList
  | .exec _ type .. => some type
  | .open _ type .. => some type
  | .chown _ type .. => some type
  | .chroot _ => some "chroot".toList
  | .chdir _ => some "chdir".toList
  | _ => none

/-- What an event carries of the parameter with a name. -/
def field (key : String) : Kind → Option Str
  | .fork child | .clone child => if key = "pid" then child else none
  | .connect host port _ | .accept host port =>
    if key = "host" then host else if key = "port" then port else none
  | .seteuid euid => if key = "name" then euid else none
  | .exec exe _ argvs envs fd flags =>
    if key = "path" then some exe else if key = "argvs" then argvs else if key = "envs" then envs
    else if key = "directory_fd" then fd else if key = "flags" then flags else none
  | .open file _ mode fd flags =>
    if key = "file" then file else if key = "mode" then mode else if key = "directory_fd" then fd
    else if key = "flags" then flags else none
  | .chown file _ owner group fd flags =>
    if key = "file" then file else if key = "owner" then owner else if key = "group" then group
    else if key = "directory_fd" then fd else if key = "flags" then flags else none
  | .chroot dir | .chdir dir => if key = "directory" then dir else none
  | _ => none

/-- The visualizer keeps the last part of an executable's path, and its own host for the local one. -/
def shown (host : Str) (p : String × Str) : Str :=
  if p.1 = "path" then basename p.2
  else if p.1 = "host" ∧ p.2 = "127.0.0.1".toList then host
  else p.2

/-- The event is that of the call, with every value recorded for it. -/
def Returns (host : Str) (c : Call) (kind : Kind) : Prop :=
  eventType kind = some c.functionName.toList ∧ ∀ p ∈ c.inserts, field p.1 kind = some (shown host p)

/-- No text that the visualizer asks for is empty, and a repeated argument is always the same. -/
def Uniform (values : List Str) : Prop := ∀ a ∈ values, a ≠ [] ∧ values.head? = some a

/-- The calls that come back with all their values. -/
def Recovered : Call → Prop
  | .connect host service | .accept host service => host ≠ [] ∧ service ≠ []
  | .execve _ path argvs envs => path ≠ [] ∧ Uniform (argvs.getD []) ∧ Uniform envs
  | .fexecve _ argvs envs => Uniform (argvs.getD []) ∧ Uniform envs
  | .execveat _ path argvs envs _ => path ≠ [] ∧ Uniform (argvs.getD []) ∧ Uniform envs
  | .execl path | .execlp path | .execv path | .execvp path => path ≠ []
  | .fork _ | .clone _ | .fdopen .. | .fchown .. => True
  | .open fname | .fopen fname _ | .freopen fname _ | .openat _ fname _ => fname ≠ []
  | .chown pathname .. | .lchown pathname .. | .fchownat _ pathname .. => pathname ≠ []
  | .chroot pathname | .chdir pathname => pathname ≠ []
  | .chmod .. | .seteuid .. | .setuid .. => False

theorem toStr_ne_nil (n : Int) : toStr n ≠ [] := by
  cases n with
  | ofNat n => exact fun none => Nat.repr_ne_empty (String.toList_eq_nil_iff.mp none)
  | negSucc n =>
    intro none
    rw [toStr,String.toList_eq_nil_iff] at none
    simp [toString,Int.repr] at none

/-- The value of a parameter that is inserted: an empty one cannot be asked for. -/
def present (v : Str) : Option (Option Str) := if v = [] then none else some (some v)

@[simp] theorem present_eq_some {v : Str} {a : Option Str} : present v = some a ↔ v ≠ [] ∧ a = some v := by
  unfold present
  split_ifs with empty
  · simp [empty]
  · simp [empty,eq_comm]

/-- What is found of an argument that is inserted once for each of its elements. -/
def firstValue (values : List Str) : Option (Option Str) :=
  (values.head?.map present).getD (some none)

theorem uniform_iff (values : List Str) :
    Uniform values ↔ ∃ a, firstValue values = some a ∧ ∀ v ∈ values, a = some v := by
  cases values with
  | nil => simp [Uniform,firstValue]
  | cons v values =>
    simp only [Uniform,firstValue,List.head?_cons,Option.map_some,Option.getD_some,present_eq_some]
    constructor
    · intro uniform
      exact ⟨some v,⟨(uniform v List.mem_cons_self).1,rfl⟩,fun a member => (uniform a member).2⟩
    · rintro ⟨_,⟨some,rfl⟩,same⟩ a member
      cases same a member
      exact ⟨some,rfl⟩

/-- What the visualizer finds of a parameter. -/
def Call.value (c : Call) (key : String) : Option (Option Str) :=
  (((c.inserts.find? fun p => p.1 = key).map Prod.snd).map present).getD (some none)

theorem firstValue_eq (values : List Str) : (values.head?.map present).getD (some none) = firstValue values := rfl

theorem find_arguments (key : String) (argvs : Option (List Str)) (envs : List Str) :
    ((Call.arguments argvs envs).find? fun p => p.1 = key).map Prod.snd =
      if key = "argvs" then (argvs.getD []).head? else if key = "envs" then envs.head? else none := by
  have pairs : ∀ (name : String) (values : List Str), ((values.map fun v => (name,v)).find? fun p => p.1 = key).map Prod.snd =
      if key = name then values.head? else none := by
    intro name values
    cases values with
    | nil => simp
    | cons v values =>
      by_cases here : name = key
      · simp [here]
      · simp [here,Ne.symm here]
  rw [Call.arguments,List.find?_append,Option.map_or,pairs,pairs]
  by_cases here : key = "argvs"
  · simp [here]
  · simp [here]

theorem shown_other {host : Str} {p : String × Str} (path : p.1 ≠ "path") (target : p.1 ≠ "host") : shown host p = p.2 := by
  rw [shown,if_neg path,if_neg fun both => target both.1]

theorem shown_path (host path : Str) : shown host ("path",path) = basename path := rfl

theorem arguments_shown (host : Str) (argvs : Option (List Str)) (envs : List Str) (kind : Kind) :
    (∀ p ∈ Call.arguments argvs envs, field p.1 kind = some (shown host p)) ↔
      (∀ a ∈ argvs.getD [], field "argvs" kind = some a) ∧ ∀ e ∈ envs, field "envs" kind = some e := by
  simp only [Call.arguments,List.forall_mem_append,List.forall_mem_map]
  refine and_congr (forall₂_congr fun a _ => ?_) (forall₂_congr fun e _ => ?_)
  · rw [shown_other (by simp) (by simp)]
  · rw [shown_other (by simp) (by simp)]

theorem exists_bind {α β : Type} {x : Option α} {f : α → Option (Option β)} {P : β → Prop} :
    (∃ k, x >>= f = some (some k) ∧ P k) ↔ ∃ a, x = some a ∧ ∃ k, f a = some (some k) ∧ P k := by
  cases x with
  | none => simp
  | some a => simp

theorem exists_pure {β : Type} {b : β} {P : β → Prop} : (∃ k, (pure (some b) : Option (Option β)) = some (some k) ∧ P k) ↔ P b := by
  simp

theorem exists_present {v : Str} {P : Option Str → Prop} : (∃ a, present v = some a ∧ P a) ↔ v ≠ [] ∧ P (some v) := by
  simp [and_assoc]

theorem uniform_both {argvs envs : List Str} : Uniform argvs ∧ Uniform envs ↔
    ∃ a, firstValue argvs = some a ∧ ∃ e, firstValue envs = some e ∧
      (∀ v ∈ argvs, a = some v) ∧ ∀ v ∈ envs, e = some v := by
  rw [uniform_iff,uniform_iff]
  constructor
  · rintro ⟨⟨a,first,all⟩,e,first',all'⟩
    exact ⟨a,first,e,first',all,all'⟩
  · rintro ⟨a,first,e,first',all,all'⟩
    exact ⟨⟨a,first,all⟩,e,first',all'⟩

theorem shown_host (host target : Str) : shown host ("host",target) = if target = "127.0.0.1".toList then host else target := by
  by_cases here : target = "127.0.0.1".toList
  · rw [shown,if_neg (by simp),if_pos ⟨rfl,here⟩,if_pos here]
  · rw [shown,if_neg (by simp),if_neg fun both => here both.2,if_neg here]

theorem target_present {host target : Str} {P : Option Str → Prop} :
    (∃ a, ((present target).map fun h => if h = some "127.0.0.1".toList then some host else h) = some a ∧ P a) ↔
      target ≠ [] ∧ P (some (shown host ("host",target))) := by
  rw [shown_host]
  generalize "127.0.0.1".toList = loopback
  by_cases empty : target = []
  · simp [present,empty]
  · by_cases here : target = loopback
    · simp [present,here]
    · simp [present,empty,here]

/-- The call is read as an event with all its values. -/
def Readable (host : Str) (first : Option Node) (c : Call) : Prop :=
  ∃ kind, readKind (some host) c.functionName.toList c.value first = some (some kind) ∧ Returns host c kind

section
variable (host : Str) (first : Option Node)

theorem readable_connect (target service : Str) :
    Recovered (.connect target service) ↔ Readable host first (.connect target service) := by
  have asked : (Call.connect target service).value "host" = present target := rfl
  have port : (Call.connect target service).value "port" = present service := rfl
  rw [Readable,Call.functionName,readKind_connect]
  simp only [exists_bind,exists_pure]
  rw [asked,port,target_present,exists_present]
  simp [Recovered,Returns,eventType,Call.functionName,Call.inserts,field,shown_other]

theorem readable_accept (target service : Str) :
    Recovered (.accept target service) ↔ Readable host first (.accept target service) := by
  have asked : (Call.accept target service).value "host" = present target := rfl
  have port : (Call.accept target service).value "port" = present service := rfl
  rw [Readable,Call.functionName,readKind_accept]
  simp only [exists_bind,exists_pure]
  rw [asked,port,target_present,exists_present]
  simp [Recovered,Returns,eventType,Call.functionName,Call.inserts,field,shown_other]

theorem readable_execve (vpe : Bool) (path : Str) (argvs : Option (List Str)) (envs : List Str) :
    Recovered (.execve vpe path argvs envs) ↔ Readable host first (.execve vpe path argvs envs) := by
  have known : (if vpe then "execvpe" else "execve") ∈ execTypes := by cases vpe <;> decide
  rw [Readable,Call.functionName,readKind_exec _ _ _ known]
  simp only [exists_bind,exists_pure,Returns,Call.inserts,List.forall_mem_cons,arguments_shown]
  simp [Call.value,Call.inserts,find_arguments,firstValue_eq,shown_path,Recovered,uniform_both,eventType,
    Call.functionName,field]

theorem readable_fexecve (file : Int) (argvs : Option (List Str)) (envs : List Str) :
    Recovered (.fexecve file argvs envs) ↔ Readable host first (.fexecve file argvs envs) := by
  rw [Readable,Call.functionName,readKind_exec _ _ _ (by decide : "fexecve" ∈ execTypes)]
  simp only [exists_bind,exists_pure,Returns,Call.inserts,List.forall_mem_cons,arguments_shown]
  simp [Call.value,Call.inserts,find_arguments,firstValue_eq,shown_path,Recovered,uniform_both,eventType,
    Call.functionName,field,toStr_ne_nil]

theorem readable_execveat (dirfd : Int) (path : Str) (argvs : Option (List Str)) (envs : List Str) (flags : Int) :
    Recovered (.execveat dirfd path argvs envs flags) ↔ Readable host first (.execveat dirfd path argvs envs flags) := by
  have other : ((Call.arguments argvs envs).find? fun p => p.1 = "flags") = none :=
    Option.map_eq_none_iff.mp (find_arguments "flags" argvs envs)
  rw [Readable,Call.functionName,readKind_exec _ _ _ (by decide : "execveat" ∈ execTypes)]
  simp only [exists_bind,exists_pure,Returns,Call.inserts,List.forall_mem_cons,List.forall_mem_append,arguments_shown]
  simp [Call.value,Call.inserts,find_arguments,other,firstValue_eq,shown_path,shown_other,Recovered,uniform_both,
    eventType,Call.functionName,field,toStr_ne_nil]

/-- What the visualizer gets of a call is exactly what was recorded where `Recovered` says so. -/
theorem recovered_iff (c : Call) : Recovered c ↔ Readable host first c := by
  cases c with
  | connect target service => exact readable_connect host first target service
  | accept target service => exact readable_accept host first target service
  | execve vpe path argvs envs => exact readable_execve host first vpe path argvs envs
  | fexecve file argvs envs => exact readable_fexecve host first file argvs envs
  | execveat dirfd path argvs envs flags => exact readable_execveat host first dirfd path argvs envs flags
  | execl path | execlp path | execv path | execvp path =>
    rw [Readable,Call.functionName,readKind_exec]
    · simp only [exists_bind,exists_pure]
      simp [Call.value,Call.inserts,Recovered,Returns,eventType,Call.functionName,field,shown_path]
    · decide
  | fork ret =>
    rw [Readable,Call.functionName,readKind_fork]
    simp only [exists_bind,exists_pure]
    simp [Call.value,Call.inserts,Recovered,Returns,eventType,Call.functionName,field,shown_other,toStr_ne_nil]
  | clone ret =>
    rw [Readable,Call.functionName,readKind_clone]
    simp only [exists_bind,exists_pure]
    simp [Call.value,Call.inserts,Recovered,Returns,eventType,Call.functionName,field,shown_other,toStr_ne_nil]
  | «open» fname =>
    rw [Readable,Call.functionName,readKind_open _ _ _ (by decide : "open" ∈ openTypes)]
    simp only [exists_bind,exists_pure]
    simp [Call.value,Call.inserts,Recovered,Returns,eventType,Call.functionName,field,shown_other]
  | fopen fname mode | freopen fname mode | fdopen fd mode | openat dirfd fname flags =>
    rw [Readable,Call.functionName,readKind_open]
    · simp only [exists_bind,exists_pure]
      simp [Call.value,Call.inserts,Recovered,Returns,eventType,Call.functionName,field,shown_other,toStr_ne_nil]
    · decide
  | chown pathname owner group | fchown fd owner group | lchown pathname owner group
  | fchownat dirfd pathname owner group flags =>
    rw [Readable,Call.functionName,readKind_chown]
    · simp only [exists_bind,exists_pure]
      simp [Call.value,Call.inserts,Call.ownership,Recovered,Returns,eventType,Call.functionName,field,shown_other,
        toStr_ne_nil]
    · decide
  | chmod fname mode =>
    rw [Readable,Call.functionName,readKind_unknown _ _ _ (.inr rfl)]
    simp [Recovered]
  | setuid name uid =>
    rw [Readable,Call.functionName,readKind_unknown _ _ _ (.inl rfl)]
    simp [Recovered]
  | seteuid name uid =>
    -- the number is recorded, the visualizer takes the name alone
    rw [Readable,Call.functionName,readKind_seteuid]
    simp only [exists_bind,exists_pure]
    simp [Call.value,Call.inserts,Recovered,Returns,eventType,Call.functionName,field,shown_other]
  | chroot pathname =>
    rw [Readable,Call.functionName,readKind_chroot]
    simp only [exists_bind,exists_pure]
    simp [Call.value,Call.inserts,Recovered,Returns,eventType,Call.functionName,field,shown_other]
  | chdir pathname =>
    rw [Readable,Call.functionName,readKind_chdir]
    simp only [exists_bind,exists_pure]
    simp [Call.value,Call.inserts,Recovered,Returns,eventType,Call.functionName,field,shown_other]

end

end SelfPropelled.Fpva
