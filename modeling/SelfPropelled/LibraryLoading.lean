import SelfPropelled.ParserCache

/-! Libraries that come in with `dlopen`: what `ParseDlExit` makes of them when the call
returns, in every run of lookups, calls and returns. -/

namespace SelfPropelled.Parser
open Machine Library

/-- A loaded library, by its symbol table. Creating its object may fail. -/
structure Symtab where
  name : Name
  created : Option SpObject

/-- The library as `ParseDlExit` handles it; an object is named after its symbol table. -/
def Symtab.tab (t : Symtab) : Name × Option SpObject :=
  (t.name,t.created.map fun obj => {obj with name := t.name})

/-- An execution of an instrumented call: the callee PatchAPI knows if it is direct, and
what its target evaluates to in the registers saved at its entry and at its exit. -/
structure CallInstance where
  direct : Option SpFunction
  entryTarget : Option Word
  exitTarget : Option Word

/-- `SpParser::callee`: only a direct call's callee is kept at the point. -/
def SpParser.callee (p : SpParser) (parseIndirect : Bool) (direct : Option SpFunction) (target : Option Word) :
    Option SpFunction × SpParser :=
  match direct with
  | some f => (some f,p)
  | none =>
    if parseIndirect then
      match target with
      | some addr => p.findFunction addr
      | none => (none,p)
    else (none,p)

/-- The end of the exit wrapper. -/
def SpParser.afterCall (p : SpParser) (parseIndirect : Bool) (call : CallInstance) (loaded : List Symtab)
    (place : Nat) : SpParser :=
  let (f,p) := p.callee parseIndirect call.direct call.exitTarget
  (p.parseDlExit (f.map (·.name)) (loaded.map Symtab.tab) place).2

inductive ParserEvent
  | entry (call : CallInstance)
  | exit (call : CallInstance) (loaded : List Symtab) (place : Nat)
  | findFunction (addr : Word)
  | findFunctionByName (name : Name)
  | findFunctionByMangledName (name : Name)

def SpParser.event (parseIndirect : Bool) (p : SpParser) : ParserEvent → SpParser
  | .entry call => (p.callee parseIndirect call.direct call.entryTarget).2
  | .exit call loaded place => p.afterCall parseIndirect call loaded place
  | .findFunction addr => (p.findFunction addr).2
  | .findFunctionByName name => (p.findFunctionByName name ∅).2
  | .findFunctionByMangledName name => (p.findFunctionByMangledName name).2

namespace SpParser
variable (p : SpParser)

def objNames : List Name := p.objMap.map (·.name)

/-- Every loaded library that is not excluded has exactly one object. -/
def Complete (loaded : List Symtab) : Prop :=
  ∀ t ∈ loaded, canInstrumentLib p.binariesNotToInst t.name = true → p.objNames.count t.name = 1

def missing (loaded : List Symtab) : List Symtab :=
  loaded.filter fun t => canInstrumentLib p.binariesNotToInst t.name && !p.objNames.contains t.name

/-- The call is taken for one of `dlopen` also when it returns, or for none that is
known; it has brought in one library at most (by name), whose object can be created. -/
def Parses (parseIndirect : Bool) (call : CallInstance) (loaded : List Symtab) : Prop :=
  ∀ t ∈ p.missing loaded,
    (call.direct = none → ∀ f, (p.callee parseIndirect none call.exitTarget).1 = some f → f.name = "dlopen".toList) ∧
      (∀ s ∈ p.missing loaded, s.name = t.name) ∧
      ((p.missing loaded).head?.bind (·.created)).isSome = true

variable {p}

theorem findFunction_objMap (addr : Word) :
    (p.findFunction addr).2.objMap = p.objMap ∧ (p.findFunction addr).2.binariesNotToInst = p.binariesNotToInst := by
  unfold findFunction
  split
  · exact ⟨rfl,rfl⟩
  · split
    · exact ⟨rfl,rfl⟩
    · split
      · exact ⟨rfl,rfl⟩
      · split <;> exact ⟨rfl,rfl⟩

theorem findFunctionByName_objMap (name : Name) (found : FuncSet) :
    (p.findFunctionByName name found).2.objMap = p.objMap ∧
      (p.findFunctionByName name found).2.binariesNotToInst = p.binariesNotToInst := by
  unfold findFunctionByName
  split
  · exact ⟨rfl,rfl⟩
  · split
    · exact ⟨rfl,rfl⟩
    · split
      · exact ⟨rfl,rfl⟩
      · dsimp only
        split <;> exact ⟨rfl,rfl⟩

theorem findFunctionByMangledName_objMap (name : Name) :
    (p.findFunctionByMangledName name).2.objMap = p.objMap ∧
      (p.findFunctionByMangledName name).2.binariesNotToInst = p.binariesNotToInst := by
  unfold findFunctionByMangledName
  split
  · exact ⟨rfl,rfl⟩
  · split
    · exact ⟨rfl,rfl⟩
    · split
      · exact ⟨rfl,rfl⟩
      · dsimp only
        split <;> exact ⟨rfl,rfl⟩

theorem callee_objMap (parseIndirect : Bool) (direct : Option SpFunction) (target : Option Word) :
    (p.callee parseIndirect direct target).2.objMap = p.objMap ∧
      (p.callee parseIndirect direct target).2.binariesNotToInst = p.binariesNotToInst := by
  unfold callee
  cases direct with
  | some f => exact ⟨rfl,rfl⟩
  | none =>
    cases parseIndirect with
    | false => exact ⟨rfl,rfl⟩
    | true =>
      cases target with
      | none => exact ⟨rfl,rfl⟩
      | some addr => exact findFunction_objMap addr

theorem newLibrary_eq (callee : Option Name) (loaded : List Symtab) :
    p.newLibrary callee (loaded.map Symtab.tab) =
      if callee.isSome ∧ callee ≠ some "dlopen".toList then none
      else (p.missing loaded).head?.map fun t => t.tab.2 := by
  unfold newLibrary
  split
  · rfl
  · rw [List.find?_map,missing,List.head?_filter,Option.map_map]
    rfl

theorem afterCall_objMap (parseIndirect : Bool) (call : CallInstance) (loaded : List Symtab) (place : Nat) :
    (p.afterCall parseIndirect call loaded place).binariesNotToInst = p.binariesNotToInst ∧
    ((p.afterCall parseIndirect call loaded place).objMap = p.objMap ∧
        ((∃ f, (p.callee parseIndirect call.direct call.exitTarget).1 = some f ∧ f.name ≠ "dlopen".toList) ∨
          ((p.missing loaded).head?.bind (·.created)).isSome = false) ∨
      (∀ f, (p.callee parseIndirect call.direct call.exitTarget).1 = some f → f.name = "dlopen".toList) ∧
        ∃ t obj, (p.missing loaded).head? = some t ∧ t.created = some obj ∧
          (p.afterCall parseIndirect call loaded place).objMap =
            p.objMap.take place ++ {obj with name := t.name} :: p.objMap.drop place) := by
  obtain ⟨objects,bins⟩ := @callee_objMap p parseIndirect call.direct call.exitTarget
  have same : (p.callee parseIndirect call.direct call.exitTarget).2.missing loaded = p.missing loaded := by
    simp only [missing,objNames,objects,bins]
  simp only [afterCall,parseDlExit,newLibrary_eq,same]
  generalize (p.callee parseIndirect call.direct call.exitTarget).1 = f at *
  by_cases other : ∃ g, f = some g ∧ g.name ≠ "dlopen".toList
  · obtain ⟨g,rfl,name⟩ := other
    have skips : ((some g).map (·.name)).isSome = true ∧ (some g).map (·.name) ≠ some "dlopen".toList :=
      ⟨rfl,fun same => name (Option.some.inj same)⟩
    rw [if_pos skips]
    exact ⟨bins,.inl ⟨objects,.inl ⟨g,rfl,name⟩⟩⟩
  · have opens : ∀ g, f = some g → g.name = "dlopen".toList := by
      intro g is
      exact not_not.mp fun name => other ⟨g,is,name⟩
    have proceeds : ¬((f.map (·.name)).isSome = true ∧ f.map (·.name) ≠ some "dlopen".toList) := by
      cases f with
      | none => simp
      | some g => simp [opens g rfl]
    rw [if_neg proceeds]
    cases first : (p.missing loaded).head? with
    | none => exact ⟨bins,.inl ⟨objects,.inr rfl⟩⟩
    | some t =>
      cases created : t.created with
      | none =>
        simp only [Option.map_some,Symtab.tab,created,Option.map_none]
        exact ⟨bins,.inl ⟨objects,.inr (by simp [created])⟩⟩
      | some obj =>
        simp only [Option.map_some,Symtab.tab,created]
        exact ⟨bins,.inr ⟨opens,t,obj,rfl,created,by rw [objects]⟩⟩

theorem mem_missing {loaded : List Symtab} {t : Symtab} : t ∈ p.missing loaded ↔
    t ∈ loaded ∧ canInstrumentLib p.binariesNotToInst t.name = true ∧ t.name ∉ p.objNames := by
  simp [missing]

theorem distinct_afterCall (distinct : p.objNames.Nodup) (parseIndirect : Bool) (call : CallInstance)
    (loaded : List Symtab) (place : Nat) : (p.afterCall parseIndirect call loaded place).objNames.Nodup := by
  obtain ⟨_,⟨same,_⟩ | ⟨_,t,obj,first,_,inserted⟩⟩ := @afterCall_objMap p parseIndirect call loaded place
  · simpa only [objNames,same] using distinct
  · have new := (mem_missing.mp (List.mem_of_head? first)).2.2
    have halves : p.objNames = (p.objMap.take place).map (·.name) ++ (p.objMap.drop place).map (·.name) := by
      rw [objNames,← List.map_append,List.take_append_drop]
    rw [halves] at distinct new
    simp only [objNames,inserted,List.map_append,List.map_cons]
    rw [List.nodup_middle,List.nodup_cons]
    exact ⟨new,distinct⟩

theorem distinct_event (distinct : p.objNames.Nodup) (parseIndirect : Bool) (e : ParserEvent) :
    (p.event parseIndirect e).objNames.Nodup := by
  cases e with
  | entry call => simpa only [event,objNames,(callee_objMap ..).1] using distinct
  | exit call loaded place => exact distinct_afterCall distinct parseIndirect call loaded place
  | findFunction addr => simpa only [event,objNames,(findFunction_objMap ..).1] using distinct
  | findFunctionByName name => simpa only [event,objNames,(findFunctionByName_objMap ..).1] using distinct
  | findFunctionByMangledName name =>
    simpa only [event,objNames,(findFunctionByMangledName_objMap ..).1] using distinct

theorem complete_iff (distinct : p.objNames.Nodup) (loaded : List Symtab) :
    p.Complete loaded ↔ p.missing loaded = [] := by
  constructor
  · intro complete
    refine List.eq_nil_iff_forall_not_mem.mpr fun t absent => ?_
    obtain ⟨member,admitted,new⟩ := mem_missing.mp absent
    have once := complete t member admitted
    rw [List.count_eq_zero.mpr new] at once
    cases once
  · intro none t member admitted
    refine List.count_eq_one_of_mem distinct (not_not.mp fun new => ?_)
    have absent := mem_missing.mpr ⟨member,admitted,new⟩
    rw [none] at absent
    cases absent

theorem complete_afterCall_iff (distinct : p.objNames.Nodup) (parseIndirect : Bool) (call : CallInstance)
    (known : ∀ f, call.direct = some f → f.name = "dlopen".toList) (loaded : List Symtab) (place : Nat) :
    (p.afterCall parseIndirect call loaded place).Complete loaded ↔ p.Parses parseIndirect call loaded := by
  have opens : (call.direct = none → ∀ f, (p.callee parseIndirect none call.exitTarget).1 = some f →
        f.name = "dlopen".toList) ↔
      ∀ f, (p.callee parseIndirect call.direct call.exitTarget).1 = some f → f.name = "dlopen".toList := by
    cases direct : call.direct with
    | none => simp
    | some f => simpa [callee] using known f direct
  rw [complete_iff (distinct_afterCall distinct parseIndirect call loaded place)]
  simp only [Parses,opens]
  obtain ⟨bins,⟨same,stuck⟩ | ⟨decided,t,obj,first,created,inserted⟩⟩ :=
    @afterCall_objMap p parseIndirect call loaded place
  · have kept : (p.afterCall parseIndirect call loaded place).missing loaded = p.missing loaded := by
      simp only [missing,objNames,same,bins]
    rw [kept]
    constructor
    · intro none
      simp [none]
    · intro parses
      refine List.eq_nil_iff_forall_not_mem.mpr fun t absent => ?_
      obtain ⟨decided,_,creates⟩ := parses t absent
      rcases stuck with ⟨f,found,other⟩ | failed
      · exact other (decided f found)
      · rw [creates] at failed
        cases failed
  · have creates : ((p.missing loaded).head?.bind (·.created)).isSome = true := by simp [first,created]
    have names : ∀ n, n ∈ (p.afterCall parseIndirect call loaded place).objNames ↔ n = t.name ∨ n ∈ p.objNames := by
      intro n
      have halves : p.objNames = (p.objMap.take place).map (·.name) ++ (p.objMap.drop place).map (·.name) := by
        rw [objNames,← List.map_append,List.take_append_drop]
      rw [halves]
      simp only [objNames,inserted,List.map_append,List.map_cons,List.mem_append,List.mem_cons]
      exact or_left_comm
    constructor
    · intro none s absent
      refine ⟨decided,?_,creates⟩
      -- every library missing before is the one that was parsed
      have only : ∀ s ∈ p.missing loaded, s.name = t.name := by
        intro s absent
        obtain ⟨member,admitted,new⟩ := mem_missing.mp absent
        refine not_not.mp fun other => ?_
        have still : s ∈ (p.afterCall parseIndirect call loaded place).missing loaded := by
          refine mem_missing.mpr ⟨member,by rwa [bins],fun there => ?_⟩
          exact ((names s.name).mp there).elim other new
        rw [none] at still
        cases still
      exact fun s' absent' => (only s' absent').trans (only s absent).symm
    · intro parses
      refine List.eq_nil_iff_forall_not_mem.mpr fun s absent => ?_
      obtain ⟨member,admitted,new⟩ := mem_missing.mp absent
      have before : s ∈ p.missing loaded := by
        refine mem_missing.mpr ⟨member,by rwa [← bins],fun there => new ?_⟩
        exact (names s.name).mpr (.inr there)
      have same := (parses s before).2.1 t (List.mem_of_head? first)
      exact new ((names s.name).mpr (.inl same.symm))

end SpParser

/-- Library loading. Over any run no library gets two objects, and after a call whose callee
at entry was `dlopen` every loaded library that is not excluded has its object,
exactly if the call is still taken for one of `dlopen` (or for none known) and has
brought in at most one such library, whose object could be created. -/
theorem library_loading_iff (parseIndirect : Bool) (p : SpParser) (distinct : p.objNames.Nodup)
    (before during : List ParserEvent) (call : CallInstance) (loaded : List Symtab) (place : Nat)
    (entered : ∃ f, ((run (SpParser.event parseIndirect) p before).callee parseIndirect call.direct
      call.entryTarget).1 = some f ∧ f.name = "dlopen".toList) :
    let q := run (SpParser.event parseIndirect) p (before ++ .entry call :: during)
    (q.event parseIndirect (.exit call loaded place)).objNames.Nodup ∧
      ((q.event parseIndirect (.exit call loaded place)).Complete loaded ↔
        q.Parses parseIndirect call loaded) := by
  intro q
  have kept : q.objNames.Nodup := by
    have keeps : ∀ (p : SpParser) (e : ParserEvent), p.objNames.Nodup → (p.event parseIndirect e).objNames.Nodup :=
      fun p e distinct => SpParser.distinct_event distinct parseIndirect e
    exact @invariant_always _ _ (SpParser.event parseIndirect) (fun p => p.objNames.Nodup) keeps p _ distinct
  refine ⟨SpParser.distinct_afterCall kept parseIndirect call loaded place,
    SpParser.complete_afterCall_iff kept parseIndirect call (fun f direct => ?_) loaded place⟩
  obtain ⟨g,found,name⟩ := entered
  rw [direct] at found
  obtain rfl : f = g := Option.some.inj found
  exact name

def directDlopen : CallInstance := ⟨some ⟨3,"dlopen".toList,"dlopen".toList⟩,none,none⟩

def programTab : Symtab := ⟨"/bin/program".toList,some program⟩

def pluginTab : Symtab := ⟨"/lib/plugin.so".toList,some plugin⟩

def helperTab : Symtab := ⟨"/lib/helper.so".toList,some plugin⟩

theorem library_loading_iff_plugin :
    ((run (SpParser.event true) (fresh [program] []) [.entry directDlopen]).event true
      (.exit directDlopen [programTab,pluginTab] 1)).Complete [programTab,pluginTab] := by
  refine (library_loading_iff true (fresh [program] []) (List.nodup_singleton _) [] [] directDlopen
    [programTab,pluginTab] 1 ⟨_,rfl,rfl⟩).2.mpr ?_
  have only : (fresh [program] []).missing [programTab,pluginTab] = [pluginTab] := rfl
  intro t absent
  have new : t ∈ [pluginTab] := absent
  obtain rfl := List.mem_singleton.mp new
  refine ⟨nofun,fun s other => ?_,rfl⟩
  have same : s ∈ [pluginTab] := other
  rw [List.mem_singleton.mp same]

/-- One `dlopen` brings in a library and another that it needs; only the first found
gets an object. -/
theorem plugin_incomplete : (fresh [program] []).objNames.Nodup ∧
    (∃ f, ((fresh [program] []).callee true directDlopen.direct directDlopen.entryTarget).1 = some f ∧
      f.name = "dlopen".toList) ∧
    ¬((run (SpParser.event true) (fresh [program] []) [.entry directDlopen]).event true
      (.exit directDlopen [programTab,helperTab,pluginTab] 1)).Complete [programTab,helperTab,pluginTab] := by
  refine ⟨List.nodup_singleton _,⟨_,rfl,rfl⟩,fun complete => ?_⟩
  have once := complete pluginTab (by simp) rfl
  exact absurd once (by decide)

end SelfPropelled.Parser
