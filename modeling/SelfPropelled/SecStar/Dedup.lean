import SelfPropelled.SecStar.Event

/-! `__dedup`: of the processes a parent creates that look alike, one is drawn. -/

namespace SelfPropelled.SecStar
open Library

/-- parent's pid → initial executable → user → pids of the children -/
abbrev DedupDict := Dict (Option Str) (Dict Str (Dict (Option Str) (List (Option Str))))

/-- The events of a child that keep its fork event out of the deduplication. -/
def Kind.active : Kind → Bool
  | .exec .. | .seteuid _ | .fork _ | .clone _ | .connect .. => true
  | _ => false

def Trace.active (t : Trace) : Bool := t.eventList.any fun e => (e.map fun e => e.kind.active).getD false

/-- `__is_not_dup_event`, with the dictionary it leaves; a child without a trace raises `KeyError`. -/
def isNotDupEvent (m : TraceMap) (d : DedupDict) (e : Event) : Option (Bool × DedupDict) :=
  match e.child? with
  | none => some (true,d)
  | some child => do
    let trace ← m.trace? e.host child
    if trace.active then return (true,d)
    let byExe := (d.get e.pid).getD []
    let byUid := (byExe.get trace.initExe).getD []
    let add (pids : List (Option Str)) : DedupDict :=
      d.set e.pid (byExe.set trace.initExe (byUid.set trace.initEuid (pids ++ [trace.pid])))
    match byUid.get trace.initEuid with
    | none => return (true,add [])
    | some pids => return (false,add pids)

/-- Each event with the answer it gets. -/
def mark (m : TraceMap) : DedupDict → List Event → Option (List (Event × Bool) × DedupDict)
  | d, [] => some ([],d)
  | d, e :: rest => do
    let (keep,d) ← isNotDupEvent m d e
    let (marks,d) ← mark m d rest
    return ((e,keep) :: marks,d)

def dedup (m : TraceMap) (evs : List Event) : Option (List Event × DedupDict) :=
  (mark m [] evs).map fun r => ((r.1.filter Prod.snd).map Prod.fst,r.2)

def childTrace (m : TraceMap) (e : Event) : Option Trace := e.child?.bind fun child => m.trace? e.host child

/-- A fork or clone event whose child made no exec, seteuid, fork, clone or connect. -/
def inert (m : TraceMap) (e : Event) : Bool := ((childTrace m e).map fun t => !t.active).getD false

/-- What the dictionary is keyed by. -/
def dedupKey (m : TraceMap) (e : Event) : Option (Option Str × Str × Option Str) :=
  (childTrace m e).map fun t => (e.pid,t.initExe,t.initEuid)

/-- The same parent process, and children with the same initial executable and user. -/
def Twin (m : TraceMap) (e e' : Event) : Prop :=
  e'.host = e.host ∧ (dedupKey m e).isSome ∧ dedupKey m e' = dedupKey m e

/-- A removed event is one of a child that did nothing, and before it there is a retained
one of the same parent process whose child looks the same; the other events stay in order. -/
def DropsOnlyDuplicates (m : TraceMap) (evs : List Event) : Prop :=
  ∀ marks d, mark m [] evs = some (marks,d) → marks.map Prod.fst = evs ∧
    ∀ first e rest, marks = first ++ (e,false) :: rest →
      inert m e = true ∧ ∃ e', (e',true) ∈ first ∧ Twin m e e'

def alike (m : TraceMap) (e e₀ : Event) : Bool := inert m e₀ && decide (dedupKey m e₀ = dedupKey m e)

def Known (m : TraceMap) (evs : List Event) : Prop :=
  ∀ e ∈ evs, e.child?.isSome = true → (childTrace m e).isSome = true

/-- Where the first event with the pid and the child of a later one is of another host, an
event of the same parent process with such a child was kept for what its child did. -/
def Separated (m : TraceMap) (evs : List Event) : Prop :=
  ∀ first e rest, evs = first ++ e :: rest → inert m e = true → ∀ e₀, first.find? (alike m e) = some e₀ →
    e₀.host ≠ e.host → ∃ e' ∈ first, Twin m e e' ∧ inert m e' = false

def DedupDict.find (d : DedupDict) (k : Option Str × Str × Option Str) : Option (List (Option Str)) :=
  (d.get k.1).bind fun byExe => (byExe.get k.2.1).bind fun byUid => byUid.get k.2.2

theorem find_add (d : DedupDict) (pid : Option Str) (exe : Str) (uid : Option Str) (pids : List (Option Str))
    (k : Option Str × Str × Option Str) :
    DedupDict.find (d.set pid (((d.get pid).getD []).set exe
      (((((d.get pid).getD []).get exe).getD []).set uid pids))) k =
      if (pid,exe,uid) = k then some pids else d.find k := by
  obtain ⟨pid',exe',uid'⟩ := k
  simp only [DedupDict.find,Dict.get_set,Prod.mk.injEq]
  by_cases first : pid = pid'
  · subst first
    by_cases second : exe = exe'
    · subst second
      by_cases third : uid = uid'
      · simp [Dict.get_set,third]
      · cases row : d.get pid with
        | none => simp [Dict.get_set,third]
        | some byExe => cases inner : byExe.get exe <;> simp [Dict.get_set,third,inner]
    · cases row : d.get pid <;> simp [Dict.get_set,second]
  · simp [first]

section
variable {m : TraceMap} {d d' : DedupDict} {e : Event}

/-- The event is answered with no just when it is inert and its key is in the dictionary, and
an inert event leaves its key there. -/
theorem isNotDupEvent_spec {keep : Bool} (done : isNotDupEvent m d e = some (keep,d')) :
    (keep = false ↔ inert m e = true ∧ ∃ k, dedupKey m e = some k ∧ (d.find k).isSome = true) ∧
      ∀ k, (d'.find k).isSome = true ↔
        (d.find k).isSome = true ∨ inert m e = true ∧ dedupKey m e = some k := by
  unfold isNotDupEvent at done
  cases child : e.child? with
  | none =>
    rw [child] at done
    cases done
    simp [inert,dedupKey,childTrace,child]
  | some c =>
    simp only [child] at done
    cases found : m.trace? e.host c with
    | none => simp [found] at done
    | some t =>
      have trace : childTrace m e = some t := by simp [childTrace,child,found]
      simp only [found,Option.bind_eq_bind,Option.bind_some] at done
      cases busy : t.active with
      | true =>
        rw [busy,if_pos rfl] at done
        cases done
        simp [inert,trace,busy]
      | false =>
        rw [busy,if_neg (by simp)] at done
        have key : dedupKey m e = some (e.pid,t.initExe,t.initEuid) := by simp [dedupKey,trace]
        have idle : inert m e = true := by simp [inert,trace,busy]
        have entry : ((((d.get e.pid).getD []).get t.initExe).getD []).get t.initEuid =
            d.find (e.pid,t.initExe,t.initEuid) := by
          unfold DedupDict.find
          cases row : d.get e.pid with
          | none => rfl
          | some byExe => cases inner : byExe.get t.initExe <;> simp [inner]
        rw [entry] at done
        cases before : d.find (e.pid,t.initExe,t.initEuid) with
        | none =>
          rw [before] at done
          cases done
          refine ⟨by simp [idle,key,before],fun k => ?_⟩
          rw [find_add,key]
          by_cases same : (e.pid,t.initExe,t.initEuid) = k <;> simp [same,idle]
        | some pids =>
          rw [before] at done
          cases done
          refine ⟨by simp [idle,key,before],fun k => ?_⟩
          rw [find_add,key]
          by_cases same : (e.pid,t.initExe,t.initEuid) = k <;> simp [same,idle]

/-- The keys of the dictionary are those of the inert events met so far. -/
def Collected (m : TraceMap) (d : DedupDict) (seen : List Event) : Prop :=
  ∀ k, (d.find k).isSome = true ↔ ∃ e ∈ seen, inert m e = true ∧ dedupKey m e = some k

theorem Collected.cons {keep : Bool} {seen : List Event} (held : Collected m d seen)
    (done : isNotDupEvent m d e = some (keep,d')) : Collected m d' (seen ++ [e]) := by
  intro k
  rw [(isNotDupEvent_spec done).2 k,held k]
  simp only [List.mem_append,List.mem_singleton,or_and_right,exists_or,exists_eq_left]

theorem Collected.answer {keep : Bool} {seen : List Event} (held : Collected m d seen)
    (done : isNotDupEvent m d e = some (keep,d')) :
    keep = false ↔ inert m e = true ∧ seen.any (alike m e) = true := by
  rw [(isNotDupEvent_spec done).1]
  refine and_congr_right fun idle => ?_
  simp only [List.any_eq_true,alike,Bool.and_eq_true,decide_eq_true_eq]
  constructor
  · rintro ⟨k,key,there⟩
    obtain ⟨e₀,before,idle₀,key₀⟩ := (held k).mp there
    exact ⟨e₀,before,idle₀,key₀.trans key.symm⟩
  · rintro ⟨e₀,before,idle₀,same⟩
    obtain ⟨t,trace⟩ : ∃ t, childTrace m e = some t := by
      cases trace : childTrace m e with
      | none => simp [inert,trace] at idle
      | some t => exact ⟨t,rfl⟩
    have key : dedupKey m e = some (e.pid,t.initExe,t.initEuid) := by simp [dedupKey,trace]
    exact ⟨_,key,(held _).mpr ⟨e₀,before,idle₀,same.trans key⟩⟩

theorem mark_cons {evs : List Event} {marks : List (Event × Bool)} (done : mark m d (e :: evs) = some (marks,d')) :
    ∃ keep d₁ later, isNotDupEvent m d e = some (keep,d₁) ∧ mark m d₁ evs = some (later,d') ∧
      marks = (e,keep) :: later := by
  simp only [mark,Option.bind_eq_bind,Option.bind_eq_some_iff] at done
  obtain ⟨⟨keep,d₁⟩,answered,⟨later,d₂⟩,rest,made⟩ := done
  cases made
  exact ⟨keep,d₁,later,answered,rest,rfl⟩

/-- An event is marked for removal just when it is inert and an inert event with its key is
in front of it. -/
theorem mark_spec {evs seen : List Event} {marks : List (Event × Bool)} (held : Collected m d seen)
    (done : mark m d evs = some (marks,d')) : marks.map Prod.fst = evs ∧
      ∀ first e keep rest, marks = first ++ (e,keep) :: rest →
        (keep = false ↔ inert m e = true ∧ (seen ++ first.map Prod.fst).any (alike m e) = true) := by
  induction evs generalizing d seen marks with
  | nil =>
    cases done
    exact ⟨rfl,fun first e keep rest split => by simp at split⟩
  | cons a evs ih =>
    obtain ⟨keep₀,d₁,later,answered,rest₀,rfl⟩ := mark_cons done
    obtain ⟨same,each⟩ := ih (held.cons answered) rest₀
    refine ⟨by rw [List.map_cons,same],fun first e keep rest split => ?_⟩
    cases first with
    | nil =>
      obtain ⟨head,rfl⟩ := List.cons.inj split
      cases head
      rw [List.map_nil,List.append_nil]
      exact held.answer answered
    | cons b first =>
      obtain ⟨rfl,tail⟩ := List.cons.inj split
      rw [each first e keep rest tail,List.map_cons,List.append_assoc,List.singleton_append]

theorem mark_isSome {evs : List Event} : (mark m d evs).isSome = true ↔ Known m evs := by
  induction evs generalizing d with
  | nil => simp [mark,Known]
  | cons a evs ih =>
    have answer : (isNotDupEvent m d a).isSome = true ↔ (a.child?.isSome = true → (childTrace m a).isSome = true) := by
      unfold isNotDupEvent childTrace
      cases child : a.child? with
      | none => simp
      | some c =>
        cases found : m.trace? a.host c with
        | none => simp [found]
        | some t =>
          simp only [found,Option.bind_eq_bind,Option.bind_some]
          split
          · simp
          · split <;> simp
    have split : Known m (a :: evs) ↔
        (a.child?.isSome = true → (childTrace m a).isSome = true) ∧ Known m evs := List.forall_mem_cons
    rw [split,← answer,mark]
    cases isNotDupEvent m d a with
    | none => simp
    | some r =>
      have rest := ih (d := r.2)
      cases later : mark m r.2 evs <;> simp [later] at rest ⊢ <;> exact rest

theorem alike_iff {e₀ : Event} : alike m e e₀ = true ↔ inert m e₀ = true ∧ dedupKey m e₀ = dedupKey m e := by
  simp [alike]

theorem key_of_inert (idle : inert m e = true) : (dedupKey m e).isSome = true := by
  unfold inert at idle
  cases trace : childTrace m e with
  | none => simp [trace] at idle
  | some t => simp [dedupKey,trace]

theorem alike_congr {e' : Event} (same : dedupKey m e' = dedupKey m e) : alike m e' = alike m e := by
  funext e₀
  rw [alike,alike,same]

/-- The first inert event with a key is kept. -/
theorem first_kept {evs : List Event} {marks first : List (Event × Bool)} {e₀ : Event} {rest : List (Event × Bool)}
    (done : mark m [] evs = some (marks,d)) (split : marks = first ++ rest)
    (found : (first.map Prod.fst).find? (alike m e) = some e₀) : (e₀,true) ∈ first := by
  obtain ⟨like,before,after,at₀,unlike⟩ := List.find?_eq_some_iff_append.mp found
  obtain ⟨mbefore,mafter,rfl,rfl,later⟩ := List.map_eq_append_iff.mp at₀
  obtain ⟨⟨e₁,keep⟩,mafter,rfl,rfl,rfl⟩ := List.map_eq_cons_iff.mp later
  have start : Collected m [] [] := fun k => by simp [DedupDict.find]
  have answer := (mark_spec start done).2 mbefore e₁ keep (mafter ++ rest) (by rw [split]; simp)
  cases keep with
  | true => simp
  | false =>
    obtain ⟨_,another⟩ := answer.mp rfl
    rw [alike_congr (alike_iff.mp like).2] at another
    obtain ⟨a,member,holds⟩ := List.any_eq_true.mp another
    have no := unlike a (by simpa using member)
    simp [holds] at no

/-- The deduplication drops only duplicates just when it fails for a child without a trace,
or no two hosts have a parent with the same pid and children that look the same, unless the
duplicate has another twin that was kept. -/
theorem dedup_duplicates_iff (m : TraceMap) (evs : List Event) :
    DropsOnlyDuplicates m evs ↔ (Known m evs → Separated m evs) := by
  have start : Collected m [] [] := fun k => by simp [DedupDict.find]
  constructor
  · intro sound known first e rest split idle e₀ found apart
    obtain ⟨⟨marks,d⟩,done⟩ := Option.isSome_iff_exists.mp (mark_isSome.mpr known)
    obtain ⟨same,each⟩ := mark_spec start done
    rw [split] at same
    obtain ⟨mfirst,mlater,rfl,rfl,later⟩ := List.map_eq_append_iff.mp same
    obtain ⟨⟨e₁,keep⟩,mrest,rfl,rfl,rfl⟩ := List.map_eq_cons_iff.mp later
    have removed : keep = false := by
      refine (each mfirst e₁ keep mrest rfl).mpr ⟨idle,List.any_eq_true.mpr ⟨e₀,?_,?_⟩⟩
      · exact List.mem_of_find?_eq_some found
      · exact List.find?_some found
    subst removed
    obtain ⟨_,e',kept,twin⟩ := (sound _ _ done).2 mfirst e₁ mrest rfl
    refine ⟨e',List.mem_map_of_mem kept,twin,?_⟩
    cases idle' : inert m e' with
    | false => rfl
    | true =>
      -- the kept twin is then the first with the key, and of the same host
      obtain ⟨a,b,rfl⟩ := List.append_of_mem kept
      have answer := each a e' true (b ++ (e₁,false) :: mrest) (by simp)
      have alone : ∀ x ∈ a.map Prod.fst, alike m e₁ x = false := by
        intro x member
        cases like : alike m e₁ x with
        | false => rfl
        | true =>
          rw [← alike_congr twin.2.2] at like
          exact absurd (answer.mpr ⟨idle',List.any_eq_true.mpr ⟨x,by simpa using member,like⟩⟩) (by simp)
      have here : alike m e₁ e' = true := alike_iff.mpr ⟨idle',twin.2.2⟩
      have first₀ : (a.map Prod.fst).find? (alike m e₁) = none := by
        rw [List.find?_eq_none]
        intro x member
        rw [alone x member]
        exact Bool.false_ne_true
      rw [List.map_append,List.map_cons,List.find?_append,first₀,List.find?_cons,here] at found
      cases found
      exact absurd twin.1 apart
  · intro separated marks d done
    obtain ⟨same,each⟩ := mark_spec start done
    refine ⟨same,fun first e rest split => ?_⟩
    have known : Known m evs := mark_isSome.mp (by rw [done]; rfl)
    obtain ⟨idle,another⟩ := (each first e false rest split).mp rfl
    refine ⟨idle,?_⟩
    rw [List.nil_append] at another
    obtain ⟨e₀,found⟩ := Option.isSome_iff_exists.mp (List.find?_isSome.mpr (List.any_eq_true.mp another))
    by_cases host : e₀.host = e.host
    · have like := alike_iff.mp (List.find?_some found)
      exact ⟨e₀,first_kept done split found,host,key_of_inert idle,like.2⟩
    · have order : evs = first.map Prod.fst ++ e :: rest.map Prod.fst := by rw [← same,split]; simp
      obtain ⟨e',member,twin,busy⟩ := separated known _ e _ order idle e₀ found host
      obtain ⟨⟨e₁,keep⟩,there,rfl⟩ := List.mem_map.mp member
      obtain ⟨a,b,rfl⟩ := List.append_of_mem there
      have answer := each a e₁ keep (b ++ (e,false) :: rest) (by rw [split]; simp)
      cases keep with
      | true => exact ⟨e₁,there,twin⟩
      | false => simp [busy] at answer

end

def idleTrace (host pid : String) : Trace :=
  ⟨some host.toList,some pid.toList,none,[],"cat".toList,some "root".toList,some "/".toList,[],[]⟩

/-- On each of two hosts the process 7 forks a child that does nothing. -/
def twoHosts : TraceMap :=
  [("a".toList,[("8".toList,idleTrace "a" "8")]),("b".toList,[("9".toList,idleTrace "b" "9")])]

def forkOn (host child : String) : Event :=
  ⟨"1".toList,some host.toList,some "7".toList,.fork (some child.toList)⟩

/-- The fork on the second host is dropped for the one on the first. -/
theorem twoForks_dropped : ¬∀ m evs, DropsOnlyDuplicates m evs := by
  intro sound
  have marked : (mark twoHosts [] [forkOn "a" "8",forkOn "b" "9"]).map Prod.fst =
      some [(forkOn "a" "8",true),(forkOn "b" "9",false)] := by decide
  obtain ⟨⟨marks,d⟩,done,rfl⟩ := Option.map_eq_some_iff.mp marked
  obtain ⟨_,e',kept,twin⟩ := (sound _ _ _ d done).2 [(forkOn "a" "8",true)] (forkOn "b" "9") [] rfl
  have same : e' = forkOn "a" "8" := by simpa using kept
  rw [same] at twin
  exact absurd twin.1 (by decide)

end SelfPropelled.SecStar
