import SelfPropelled.SecStar.Event

/-! `LookupTable`: the traces by process, and the list of their events in the order of time. -/

namespace SelfPropelled.SecStar
open Library

def insertTrace (m : TraceMap) (t : Trace) : TraceMap := m.set2 (format t.hostname) (format t.pid) t

def lookupTable (traces : List Trace) : TraceMap := traces.foldl insertTrace []

def getPidByPort (m : TraceMap) (host port : Option Str) : Option Str :=
  (host.bind fun h => m.get h).bind fun row => (row.find? fun t => decide (port ∈ t.2.portList)).map Prod.fst

/-- A connect event gets the pid of its target; one without a target is left out. -/
def resolve (m : TraceMap) (e : Event) : Option Event :=
  match e.kind with
  | .connect host port _ => (getPidByPort m host port).map fun pid => {e with kind := .connect host port pid}
  | _ => some e

def Kind.listed : Kind → Bool
  | .accept .. | .recv .. => false
  | _ => true

/-- `relation_types` -/
def Kind.relates : Kind → Bool
  | .connect .. | .fork _ | .clone _ | .accept .. | .send .. | .open .. => true
  | _ => false

/-- The other process of an event, where a trace of it is in the map. -/
def partner (m : TraceMap) (e : Event) : Option (Str × Str) :=
  let known (host pid : Option Str) : Option (Str × Str) :=
    host.bind fun h => pid.bind fun p => (m.get2 h p).map fun _ => (h,p)
  match e.kind with
  | .connect host _ pid => known host (some pid)
  | .fork child => known e.host child
  | .clone child => known e.host child
  | .open file .. => known e.host file
  | .send host pid => known host pid
  | _ => none

abbrev Relation := Dict Str (Dict Str Unit)

def gather (m : TraceMap) (s : List Event × Relation) (x : Str × Str × Option Event) : List Event × Relation :=
  match x.2.2.bind (resolve m) with
  | none => s
  | some e =>
    let events := if e.kind.listed then s.1 ++ [e] else s.1
    if e.kind.relates then
      let relation := s.2.set2 x.1 x.2.1 ()
      match partner m e with
      | some (host,pid) => (events,relation.set2 host pid ())
      | none => (events,relation)
    else (events,s.2)

/-- What the loops over hosts, processes and events go through. -/
def visits (m : TraceMap) : List (Str × Str × Option Event) :=
  m.flatMap fun row => row.2.flatMap fun t => t.2.eventList.map fun e => (row.1,t.1,e)

def related (r : Relation) (e : Event) : Bool :=
  ((e.host.bind fun h => e.pid.bind fun p => r.get2 h p)).isSome

/-- The key is the time as it was read, a string. -/
def buildEventList (m : TraceMap) : List Event :=
  let s := (visits m).foldl (gather m) ([],[])
  (s.1.filter (related s.2)).mergeSort fun a b => decide (a.time ≤ b.time)

/-- The value of a decimal numeral. -/
def numeric (time : Str) : Nat := time.foldl (fun n c => 10 * n + (c.toNat - '0'.toNat)) 0

/-- The processes an event names. -/
def Event.mentions (e : Event) : List (Option Str × Option Str) :=
  (e.host,e.pid) :: match e.kind with
    | .fork child => [(e.host,child)]
    | .clone child => [(e.host,child)]
    | .connect host _ pid => [(host,some pid)]
    | .send host pid => [(host,pid)]
    | _ => []

def TraceMap.Present (m : TraceMap) (q : Option Str × Option Str) : Prop := (m.trace? q.1 q.2).isSome = true

structure ClosedInOrder (m : TraceMap) (evs : List Event) : Prop where
  order : evs.Pairwise fun a b => numeric a.time ≤ numeric b.time
  closed : ∀ e ∈ evs, ∀ q ∈ e.mentions, m.Present q

/-- As `parse` makes them: the events of a trace are those of its process. -/
def Trace.Own (t : Trace) : Prop := ∀ e, some e ∈ t.eventList → e.host = t.hostname ∧ e.pid = t.pid

/-- A process is related that has an event of a relation or is the other process of one. -/
def Related (m : TraceMap) (q : Str × Str) : Prop :=
  ∃ x ∈ visits m, ∃ e, x.2.2.bind (resolve m) = some e ∧ e.kind.relates = true ∧
    (q = (x.1,x.2.1) ∨ partner m e = some q)

/-- The events of related processes, with the targets of the connections. -/
def Drawn (m : TraceMap) (e : Event) : Prop :=
  (∃ x ∈ visits m, x.2.2.bind (resolve m) = some e) ∧ e.kind.listed = true ∧
    ∃ host pid, e.host = some host ∧ e.pid = some pid ∧ Related m (host,pid)

section
variable {m : TraceMap}

theorem gather_events (xs : List (Str × Str × Option Event)) (s : List Event × Relation) :
    (xs.foldl (gather m) s).1 =
      s.1 ++ (xs.filterMap fun x => x.2.2.bind (resolve m)).filter fun e => e.kind.listed := by
  induction xs generalizing s with
  | nil => simp
  | cons x xs ih =>
    rw [List.foldl_cons,ih,List.filterMap_cons]
    unfold gather
    cases made : x.2.2.bind (resolve m) with
    | none => rfl
    | some e =>
      simp only [List.filter_cons]
      cases e.kind.listed <;> cases e.kind.relates <;> cases partner m e <;> simp

theorem gather_relation (xs : List (Str × Str × Option Event)) (s : List Event × Relation) (q : Str × Str) :
    ((xs.foldl (gather m) s).2.get2 q.1 q.2).isSome = true ↔ (s.2.get2 q.1 q.2).isSome = true ∨
      ∃ x ∈ xs, ∃ e, x.2.2.bind (resolve m) = some e ∧ e.kind.relates = true ∧
        (q = (x.1,x.2.1) ∨ partner m e = some q) := by
  induction xs generalizing s with
  | nil => simp
  | cons x xs ih =>
    have one : ((gather m s x).2.get2 q.1 q.2).isSome = true ↔ (s.2.get2 q.1 q.2).isSome = true ∨
        ∃ e, x.2.2.bind (resolve m) = some e ∧ e.kind.relates = true ∧
          (q = (x.1,x.2.1) ∨ partner m e = some q) := by
      unfold gather
      cases made : x.2.2.bind (resolve m) with
      | none => simp
      | some e =>
        cases relates : e.kind.relates with
        | false => simp [relates]
        | true =>
          cases other : partner m e with
          | none => simp [relates,other,Dict.get2_set2_isSome]
          | some p =>
            have turn : p = q ↔ q = p := eq_comm
            simp [relates,other,Dict.get2_set2_isSome,or_assoc,turn]
    rw [List.foldl_cons,ih,one,or_assoc]
    simp only [List.mem_cons,exists_eq_or_imp]

theorem mem_buildEventList {e : Event} : e ∈ buildEventList m ↔ Drawn m e := by
  rw [buildEventList,List.mem_mergeSort,List.mem_filter,gather_events]
  have kept : related ((visits m).foldl (gather m) ([],[])).2 e = true ↔
      ∃ host pid, e.host = some host ∧ e.pid = some pid ∧ Related m (host,pid) := by
    unfold related
    cases e.host with
    | none => simp
    | some host =>
      cases e.pid with
      | none => simp
      | some pid =>
        have both := gather_relation (m := m) (visits m) ([],[]) (host,pid)
        simpa [Related,Dict.get2] using both
  rw [kept,Drawn]
  simp only [List.nil_append,List.mem_filter,List.mem_filterMap,and_assoc]

/-- What is in the table is filed under its own process. -/
structure Filed (traces : List Trace) (m : TraceMap) : Prop where
  hosts : Dict.Plain m
  pids : ∀ host row, (host,row) ∈ m → Dict.Plain row
  own : ∀ host row, (host,row) ∈ m → ∀ pid t, (pid,t) ∈ row →
    t ∈ traces ∧ host = format t.hostname ∧ pid = format t.pid

theorem Filed.insert {traces : List Trace} (filed : Filed traces m) {t : Trace} (known : t ∈ traces) :
    Filed traces (insertTrace m t) := by
  have row : ∀ host row, (host,row) ∈ insertTrace m t → (host,row) ∈ m ∨
      host = format t.hostname ∧ row = Dict.set ((m.get (format t.hostname)).getD []) (format t.pid) t := by
    intro host row member
    rcases Dict.mem_set member with new | old
    · cases new
      exact .inr ⟨rfl,rfl⟩
    · exact .inl old
  have before : ∀ pid t', (pid,t') ∈ (m.get (format t.hostname)).getD [] →
      ∃ row, (format t.hostname,row) ∈ m ∧ (pid,t') ∈ row := by
    intro pid t' member
    cases found : m.get (format t.hostname) with
    | none => simp [found] at member
    | some row => exact ⟨row,Dict.get_mem found,by simpa [found] using member⟩
  refine ⟨filed.hosts.set _ _,?_,?_⟩
  · intro host r member
    rcases row host r member with old | ⟨rfl,rfl⟩
    · exact filed.pids host r old
    · cases found : m.get (format t.hostname) with
      | none => exact Dict.Plain.set Dict.plain_nil _ _
      | some r' => exact (filed.pids _ r' (Dict.get_mem found)).set _ _
  · intro host r member pid t' inside
    rcases row host r member with old | ⟨rfl,rfl⟩
    · exact filed.own host r old pid t' inside
    · rcases Dict.mem_set inside with new | old
      · cases new
        exact ⟨known,rfl,rfl⟩
      · obtain ⟨r',there,inside'⟩ := before pid t' old
        exact filed.own _ r' there pid t' inside'

theorem filed_lookupTable (traces : List Trace) : Filed traces (lookupTable traces) := by
  have all : ∀ rest ⊆ traces, ∀ m, Filed traces m → Filed traces (rest.foldl insertTrace m) := by
    intro rest
    induction rest with
    | nil => exact fun _ _ filed => filed
    | cons t rest ih =>
      intro known m filed
      exact ih (fun x member => known (List.mem_cons_of_mem _ member)) _ (filed.insert (known List.mem_cons_self))
  refine all traces (List.Subset.refl _) [] ⟨Dict.plain_nil,?_,?_⟩
  · intro host row member
    cases member
  · intro host row member
    cases member

section
variable {traces : List Trace}

theorem Filed.get2 (filed : Filed traces m) {host pid : Str} {row : Dict Str Trace} {t : Trace}
    (there : (host,row) ∈ m) (inside : (pid,t) ∈ row) : m.get2 host pid = some t := by
  rw [Dict.get2,filed.hosts.get_of_mem there]
  exact (filed.pids host row there).get_of_mem inside

theorem Filed.visit (filed : Filed traces m) {x : Str × Str × Option Event} (visited : x ∈ visits m) :
    ∃ t ∈ traces, m.get2 x.1 x.2.1 = some t ∧ x.2.2 ∈ t.eventList ∧
      x.1 = format t.hostname ∧ x.2.1 = format t.pid := by
  obtain ⟨⟨host,row⟩,there,inner⟩ := List.mem_flatMap.mp visited
  obtain ⟨⟨pid,t⟩,inside,last⟩ := List.mem_flatMap.mp inner
  obtain ⟨e,listed,rfl⟩ := List.mem_map.mp last
  obtain ⟨known,hostname,own⟩ := filed.own host row there pid t inside
  exact ⟨t,known,filed.get2 there inside,listed,hostname,own⟩

theorem partner_present {e : Event} {q : Str × Str} (other : partner m e = some q) :
    (m.get2 q.1 q.2).isSome = true := by
  have known : ∀ host pid : Option Str, (host.bind fun h => pid.bind fun p => (m.get2 h p).map fun _ => (h,p)) = some q →
      (m.get2 q.1 q.2).isSome = true := by
    intro host pid found
    obtain ⟨h,rfl,rest⟩ := Option.bind_eq_some_iff.mp found
    obtain ⟨p,rfl,there⟩ := Option.bind_eq_some_iff.mp rest
    obtain ⟨t,traced,rfl⟩ := Option.map_eq_some_iff.mp there
    exact Option.isSome_iff_exists.mpr ⟨t,traced⟩
  unfold partner at other
  split at other
  all_goals first | exact known _ _ other | cases other

theorem related_present (filed : Filed traces m) {q : Str × Str} (rel : Related m q) :
    (m.get2 q.1 q.2).isSome = true := by
  obtain ⟨x,visited,e,_,_,here | other⟩ := rel
  · obtain ⟨t,_,found,_⟩ := filed.visit visited
    rw [here,found]
    rfl
  · exact partner_present other

theorem target_present (filed : Filed traces m) {host port : Option Str} {pid : Str}
    (found : getPidByPort m host port = some pid) : m.Present (host,some pid) := by
  obtain ⟨row,there,served⟩ := Option.bind_eq_some_iff.mp found
  obtain ⟨h,rfl,there⟩ := Option.bind_eq_some_iff.mp there
  obtain ⟨⟨p,t⟩,first,rfl⟩ := Option.map_eq_some_iff.mp served
  have present := filed.get2 (Dict.get_mem there) (List.mem_of_find?_eq_some first)
  simp [TraceMap.Present,TraceMap.trace?,present]

theorem Related.own {x : Str × Str × Option Event} {e : Event} (visited : x ∈ visits m)
    (made : x.2.2.bind (resolve m) = some e) (relates : e.kind.relates = true) : Related m (x.1,x.2.1) :=
  ⟨x,visited,e,made,relates,.inl rfl⟩

end

/-- Of two listed events the one with the smaller string has not the larger time. -/
def InOrder (m : TraceMap) : Prop :=
  ∀ a b, Drawn m a → Drawn m b → a.time < b.time → numeric a.time ≤ numeric b.time

/-- Every child and every target of a send has a trace. -/
def PeersKnown (m : TraceMap) : Prop :=
  ∀ x ∈ visits m, ∀ e, x.2.2 = some e → e.host.isSome = true → e.pid.isSome = true →
    (∀ child, e.child? = some child → m.Present (e.host,child)) ∧
      ∀ host pid, e.kind = .send host pid → m.Present (host,pid)

theorem sorted_buildEventList (m : TraceMap) : (buildEventList m).Pairwise fun a b => a.time ≤ b.time := by
  rw [buildEventList]
  apply List.Pairwise.imp (fun {_ _} before => of_decide_eq_true before)
  apply List.pairwise_mergeSort
  · intro a b c first second
    exact decide_eq_true (le_trans (of_decide_eq_true first) (of_decide_eq_true second))
  · intro a b
    rw [Bool.or_eq_true]
    exact (le_total a.time b.time).imp decide_eq_true decide_eq_true

theorem order_iff (m : TraceMap) :
    ((buildEventList m).Pairwise fun a b => numeric a.time ≤ numeric b.time) ↔ InOrder m := by
  constructor
  · intro order a b drawn drawn' less
    obtain ⟨before,after,split⟩ := List.append_of_mem (mem_buildEventList.mpr drawn)
    have sorted := sorted_buildEventList m
    have member := mem_buildEventList.mpr drawn'
    rw [split] at sorted order member
    rcases List.mem_append.mp member with earlier | later
    · have le := (List.pairwise_append.mp sorted).2.2 b earlier a List.mem_cons_self
      exact absurd less (not_lt.mpr le)
    · rcases List.mem_cons.mp later with same | later
      · exact absurd (same ▸ less) (lt_irrefl a.time)
      · exact (List.pairwise_cons.mp (List.pairwise_append.mp order).2.1).1 b later
  · intro inOrder
    refine (sorted_buildEventList m).imp_of_mem fun {a b} first second before => ?_
    rcases eq_or_lt_of_le before with same | less
    · rw [same]
    · exact inOrder a b (mem_buildEventList.mp first) (mem_buildEventList.mp second) less

theorem resolve_eq {e e' : Event} (made : resolve m e = some e') :
    (e' = e ∧ ∀ host port pid, e.kind ≠ .connect host port pid) ∨
      ∃ host port pid, e'.kind = .connect host port pid ∧ getPidByPort m host port = some pid := by
  unfold resolve at made
  split at made
  · obtain ⟨pid,found,rfl⟩ := Option.map_eq_some_iff.mp made
    exact .inr ⟨_,_,pid,rfl,found⟩
  next other =>
    cases made
    exact .inl ⟨rfl,other⟩

theorem closed_iff {traces : List Trace} (filed : Filed traces m) (own : ∀ t ∈ traces, t.Own) :
    (∀ e ∈ buildEventList m, ∀ q ∈ e.mentions, m.Present q) ↔ PeersKnown m := by
  constructor
  · intro closed x visited e here host pid
    have visible : ∀ q ∈ e.mentions, resolve m e = some e → e.kind.listed = true → e.kind.relates = true →
        m.Present q := by
      intro q mention resolved listed relates
      refine closed e (mem_buildEventList.mpr ?_) q mention
      have made : x.2.2.bind (resolve m) = some e := by rw [here,Option.bind_some,resolved]
      obtain ⟨t,member,_,inside,sameHost,samePid⟩ := filed.visit visited
      obtain ⟨hostname,pidOf⟩ := own t member e (here ▸ inside)
      obtain ⟨h,eqHost⟩ := Option.isSome_iff_exists.mp host
      obtain ⟨p,eqPid⟩ := Option.isSome_iff_exists.mp pid
      rw [← hostname,eqHost] at sameHost
      rw [← pidOf,eqPid] at samePid
      refine ⟨⟨x,visited,made⟩,listed,h,p,eqHost,eqPid,?_⟩
      have mine := Related.own visited made relates
      rwa [sameHost,samePid] at mine
    constructor
    · intro child forked
      rcases Event.child?_eq_some.mp forked with kind | kind
      all_goals
        refine visible _ ?_ ?_ ?_ ?_
        · simp [Event.mentions,kind]
        · simp [resolve,kind]
        · rw [kind]; rfl
        · rw [kind]; rfl
    · intro trgHost trgPid sent
      refine visible _ ?_ ?_ ?_ ?_
      · simp [Event.mentions,sent]
      · simp [resolve,sent]
      · rw [sent]; rfl
      · rw [sent]; rfl
  · intro known e listed q mention
    obtain ⟨⟨x,visited,made⟩,_,host,pid,eqHost,eqPid,rel⟩ := mem_buildEventList.mp listed
    have caller : m.Present (e.host,e.pid) := by
      rw [eqHost,eqPid]
      exact related_present filed rel
    obtain ⟨e₀,here,resolved⟩ := Option.bind_eq_some_iff.mp made
    rcases resolve_eq resolved with ⟨rfl,plain⟩ | ⟨trgHost,trgPort,trgPid,connects,found⟩
    · obtain ⟨child,sent⟩ := known x visited e here (by rw [eqHost]; rfl) (by rw [eqPid]; rfl)
      rcases List.mem_cons.mp mention with rfl | other
      · exact caller
      · cases kind : e.kind with
        | fork c =>
          rw [kind] at other
          rw [List.mem_singleton.mp other]
          exact child c (Event.child?_eq_some.mpr (.inl kind))
        | clone c =>
          rw [kind] at other
          rw [List.mem_singleton.mp other]
          exact child c (Event.child?_eq_some.mpr (.inr kind))
        | send trgHost trgPid =>
          rw [kind] at other
          rw [List.mem_singleton.mp other]
          exact sent trgHost trgPid kind
        | connect trgHost trgPort trgPid => exact absurd kind (plain trgHost trgPort trgPid)
        | _ => simp [kind] at other
    · rcases List.mem_cons.mp mention with rfl | other
      · exact caller
      · rw [connects] at other
        rw [List.mem_singleton.mp other]
        exact target_present filed found

/-- `trace_map[host][pid]` for the parts of `pidhost`, as the drawing looks a process up. -/
def TraceMap.node? (m : TraceMap) (pidhost : Str) : Option Trace :=
  m.get2 (partitionAt pidhost).2 (partitionAt pidhost).1

theorem partitionAt_pidhost {pid host : Str} (plain : '@' ∉ pid) :
    partitionAt (pid ++ '@' :: host) = (pid,host) := by
  have front : ∀ c ∈ pid, (decide (c ≠ '@')) = true := fun c member =>
    decide_eq_true fun same => plain (same ▸ member)
  rw [partitionAt,List.takeWhile_append_of_pos front,List.dropWhile_append_of_pos front]
  simp

theorem node?_present {q : Option Str × Option Str} (present : m.Present q) (plain : '@' ∉ format q.2) :
    (m.node? (pidhostOf q.2 q.1)).isSome = true := by
  obtain ⟨host,pid⟩ := q
  cases host with
  | none => simp [TraceMap.Present,TraceMap.trace?] at present
  | some host =>
    cases pid with
    | none => simp [TraceMap.Present,TraceMap.trace?] at present
    | some pid =>
      have parts : partitionAt (pidhostOf (some pid) (some host)) = (pid,host) := partitionAt_pidhost plain
      rw [TraceMap.node?,parts]
      exact present

/-- The event list is in the order of time and closed just when the strings compare as the
times do and every child and every target of a send has a trace. Then no drawing of an event
misses a process. -/
theorem event_list_iff (traces : List Trace) (own : ∀ t ∈ traces, t.Own) :
    let m := lookupTable traces
    (ClosedInOrder m (buildEventList m) ↔ InOrder m ∧ PeersKnown m) ∧
      (ClosedInOrder m (buildEventList m) → ∀ e ∈ buildEventList m, ∀ q ∈ e.mentions,
        '@' ∉ format q.2 → (m.node? (pidhostOf q.2 q.1)).isSome = true) := by
  intro m
  refine ⟨?_,fun good e listed q mention plain => node?_present (good.closed e listed q mention) plain⟩
  rw [← order_iff,← closed_iff (filed_lookupTable traces) own]
  exact ⟨fun good => ⟨good.order,good.closed⟩,fun both => ⟨both.1,both.2⟩⟩

end

/-- A process 7 that forks a child 8. -/
def forking : Trace :=
  ⟨some "a".toList,some "7".toList,none,[],"sh".toList,some "root".toList,some "/".toList,
    [some ⟨"1".toList,some "a".toList,some "7".toList,.fork (some "8".toList)⟩],[]⟩

def forked : Trace :=
  ⟨some "a".toList,some "8".toList,none,[],"sh".toList,some "root".toList,some "/".toList,[],[]⟩

theorem own_forking : ∀ t ∈ [forking,forked], t.Own := by
  intro t member e listed
  rcases List.mem_cons.mp member with rfl | member
  · rw [Option.some.inj (List.mem_singleton.mp listed)]
    exact ⟨rfl,rfl⟩
  · rw [List.mem_singleton.mp member] at listed
    cases listed

theorem event_list_iff_forking : let m := lookupTable [forking,forked]
    (ClosedInOrder m (buildEventList m) ↔ InOrder m ∧ PeersKnown m) ∧
      (ClosedInOrder m (buildEventList m) → ∀ e ∈ buildEventList m, ∀ q ∈ e.mentions,
        '@' ∉ format q.2 → (m.node? (pidhostOf q.2 q.1)).isSome = true) :=
  event_list_iff [forking,forked] own_forking

/-- Without a trace of the child its fork is listed all the same. -/
theorem forking_open : ¬∀ traces : List Trace, (∀ t ∈ traces, t.Own) →
    ClosedInOrder (lookupTable traces) (buildEventList (lookupTable traces)) := by
  intro all
  have own : ∀ t ∈ [forking], t.Own := fun t member => own_forking t (List.mem_cons.mpr (.inl (List.mem_singleton.mp member)))
  have good := all [forking] own
  have listed : buildEventList (lookupTable [forking]) =
      [⟨"1".toList,some "a".toList,some "7".toList,.fork (some "8".toList)⟩] := by
    have gathered : ((visits (lookupTable [forking])).foldl (gather (lookupTable [forking])) ([],[])).1.filter
        (related ((visits (lookupTable [forking])).foldl (gather (lookupTable [forking])) ([],[])).2) =
        [⟨"1".toList,some "a".toList,some "7".toList,.fork (some "8".toList)⟩] := by decide
    rw [buildEventList,gathered,List.mergeSort_singleton]
  rw [listed] at good
  have missing := good.closed _ List.mem_cons_self (some "a".toList,some "8".toList) (by decide)
  exact absurd missing (by unfold TraceMap.Present; decide)

end SelfPropelled.SecStar
