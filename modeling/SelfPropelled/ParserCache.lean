import SelfPropelled.Parser
import SelfPropelled.Library.Memo
import SelfPropelled.Library.Run

/-! The caches of function lookup against fresh scans over the objects known. -/

namespace SelfPropelled.Parser
open Machine Library

namespace SpParser
variable (p : SpParser)

def freshFunction (addr : Word) : Option SpFunction :=
  if addr = 0 then none else scanAddr p.binariesNotToInst addr p.objMap

def freshByName (name : Name) (foundFuncs : FuncSet) : Bool × FuncSet :=
  let funcSet := scanName p.binariesNotToInst false p.objMap name
  if name.length = 0 ∨ funcSet = ∅ then (false,foundFuncs) else (true,foundFuncs ∪ funcSet)

def freshByMangledName (name : Name) : FuncSet :=
  if name.length = 0 then ∅ else scanName p.binariesNotToInst true p.objMap name

def knownAddr : Word → Option (Option SpFunction) := consult p.addrFuncMap p.addrFuncNotFound some none

def knownName : Name → Option FuncSet := consult p.demangledFuncMap p.demangledFuncNotFound id ∅

def knownMangled : Name → Option FuncSet := consult p.mangledFuncMap p.mangledFuncNotFound id ∅

/-- Every lookup gives what a fresh scan gives. -/
structure Transparent : Prop where
  address : ∀ addr, (p.findFunction addr).1 = p.freshFunction addr
  name : ∀ name foundFuncs, (p.findFunctionByName name foundFuncs).1 = p.freshByName name foundFuncs
  mangled : ∀ name, (p.findFunctionByMangledName name).1 = p.freshByMangledName name

/-- The caches are faithful to the scans; a cached name has functions. -/
structure Coherent : Prop where
  address : Faithful p.knownAddr fun addr => scanAddr p.binariesNotToInst addr p.objMap
  name : Faithful p.knownName (scanName p.binariesNotToInst false p.objMap)
  mangled : Faithful p.knownMangled (scanName p.binariesNotToInst true p.objMap)
  found : ∀ name funcs, p.demangledFuncMap.lookup name = some funcs → funcs ≠ ∅

variable {p}

theorem Coherent.transparent (coherent : p.Coherent) : p.Transparent := by
  refine ⟨fun addr => ?_,fun name foundFuncs => ?_,fun name => ?_⟩
  · have answer := coherent.address.answer addr
    unfold findFunction freshFunction
    by_cases null : addr = 0
    · rw [if_pos null,if_pos null]
    · rw [if_neg null,if_neg null,← answer,knownAddr]
      cases hit : p.addrFuncMap.lookup addr with
      | some func => rw [consult_hit hit,Option.getD_some]
      | none =>
        by_cases missing : addr ∈ p.addrFuncNotFound
        · simp only [consult_missing hit missing,if_pos missing,Option.getD_some]
        · simp only [consult_none hit missing,if_neg missing,Option.getD_none]
          cases scanAddr p.binariesNotToInst addr p.objMap <;> rfl
  · have answer := coherent.name.answer name
    unfold findFunctionByName freshByName
    by_cases empty : name.length = 0
    · simp only [empty,true_or,if_true]
    · rw [if_neg empty]
      simp only [empty,false_or]
      rw [← answer,knownName]
      cases hit : p.demangledFuncMap.lookup name with
      | some funcs =>
        simp only [consult_hit hit,Option.getD_some,id,if_neg (coherent.found name funcs hit)]
      | none =>
        by_cases missing : name ∈ p.demangledFuncNotFound
        · simp only [consult_missing hit missing,if_pos missing,Option.getD_some,if_true]
        · simp only [consult_none hit missing,if_neg missing,Option.getD_none]
          split <;> rfl
  · have answer := coherent.mangled.answer name
    unfold findFunctionByMangledName freshByMangledName
    by_cases empty : name.length = 0
    · rw [if_pos empty,if_pos empty]
    · rw [if_neg empty,if_neg empty,← answer,knownMangled]
      cases hit : p.mangledFuncMap.lookup name with
      | some funcs => rw [consult_hit hit,Option.getD_some,id]
      | none =>
        by_cases missing : name ∈ p.mangledFuncNotFound
        · simp only [consult_missing hit missing,if_pos missing,Option.getD_some]
        · simp only [consult_none hit missing,if_neg missing,Option.getD_none]
          split
          next none => rw [none]
          next => rfl

theorem Coherent.findFunction (coherent : p.Coherent) (addr : Word) : (p.findFunction addr).2.Coherent := by
  unfold SpParser.findFunction
  split
  · exact coherent
  · cases hit : p.addrFuncMap.lookup addr with
    | some func => exact coherent
    | none =>
      simp only
      split
      · exact coherent
      · cases scan : scanAddr p.binariesNotToInst addr p.objMap with
        | some found => exact ⟨coherent.address.found scan,coherent.name,coherent.mangled,coherent.found⟩
        | none => exact ⟨coherent.address.missed scan,coherent.name,coherent.mangled,coherent.found⟩

theorem Coherent.findFunctionByName (coherent : p.Coherent) (name : Name) (foundFuncs : FuncSet) :
    (p.findFunctionByName name foundFuncs).2.Coherent := by
  unfold SpParser.findFunctionByName
  split
  · exact coherent
  · cases hit : p.demangledFuncMap.lookup name with
    | some funcs => exact coherent
    | none =>
      simp only
      split
      · exact coherent
      · split
        next none => exact ⟨coherent.address,coherent.name.missed none,coherent.mangled,coherent.found⟩
        next some =>
          refine ⟨coherent.address,coherent.name.found rfl,coherent.mangled,fun other funcs there => ?_⟩
          rw [List.lookup_cons] at there
          split at there
          · cases there
            exact some
          · exact coherent.found other funcs there

theorem Coherent.findFunctionByMangledName (coherent : p.Coherent) (name : Name) :
    (p.findFunctionByMangledName name).2.Coherent := by
  unfold SpParser.findFunctionByMangledName
  split
  · exact coherent
  · cases hit : p.mangledFuncMap.lookup name with
    | some funcs => exact coherent
    | none =>
      simp only
      split
      · exact coherent
      · split
        next none => exact ⟨coherent.address,coherent.name,coherent.mangled.missed none,coherent.found⟩
        next => exact coherent

end SpParser

/-- Nothing that was asked for before is in the object: no address looked up lies
in it and no name looked up is a function of it. -/
structure Unasked (p : SpParser) (obj : SpObject) : Prop where
  address : ∀ addr ∈ p.addrFuncMap.map Prod.fst ++ p.addrFuncNotFound,
    canInstrumentLib p.binariesNotToInst obj.name = true → obj.findRegions (addr - obj.codeBase) ≠ 1
  name : ∀ name ∈ p.demangledFuncMap.map Prod.fst ++ p.demangledFuncNotFound,
    searched p.binariesNotToInst false obj = true → getFuncsByName obj name false = []
  mangled : ∀ name ∈ p.mangledFuncMap.map Prod.fst ++ p.mangledFuncNotFound,
    searched p.binariesNotToInst true obj = true → getFuncsByName obj name true = []

/-- A library that is loaded answers to no earlier lookup. -/
def Timely (p : SpParser) : Call → Prop
  | .parseDlExit callee tabs _ => ∀ obj, p.newLibrary callee tabs = some (some obj) → Unasked p obj
  | _ => True

theorem scanAddr_insert {bins : List Name} {addr : Word} {obj : SpObject}
    (other : canInstrumentLib bins obj.name = true → obj.findRegions (addr - obj.codeBase) ≠ 1)
    (front back : List SpObject) :
    scanAddr bins addr (front ++ obj :: back) = scanAddr bins addr (front ++ back) := by
  induction front with
  | nil =>
    rw [List.nil_append,List.nil_append,scanAddr]
    by_cases instrumentable : canInstrumentLib bins obj.name = true
    · rw [if_neg (by simp [instrumentable]),if_pos (other instrumentable)]
    · rw [if_pos (by simpa using instrumentable)]
  | cons o front ih => simp only [List.cons_append,scanAddr,ih]

theorem scanName_insert {bins : List Name} {mangled : Bool} {name : Name} {obj : SpObject}
    (other : searched bins mangled obj = true → getFuncsByName obj name mangled = [])
    (front back : List SpObject) :
    scanName bins mangled (front ++ obj :: back) name = scanName bins mangled (front ++ back) name := by
  have nothing : (if searched bins mangled obj then getFuncsByName obj name mangled else []) = [] := by
    split
    next yes => exact other yes
    next => rfl
  simp only [scanName,List.flatMap_append,List.flatMap_cons,nothing,List.nil_append]

theorem SpParser.Coherent.parseDlExit {p : SpParser} (coherent : p.Coherent) (callee : Option Name)
    (tabs : List (Name × Option SpObject)) (place : Nat)
    (timely : Timely p (.parseDlExit callee tabs place)) : (p.parseDlExit callee tabs place).2.Coherent := by
  unfold SpParser.parseDlExit
  cases new : p.newLibrary callee tabs with
  | none => exact coherent
  | some created =>
    cases created with
    | none => exact coherent
    | some obj =>
      have unasked := timely obj new
      have halves : p.objMap = p.objMap.take place ++ p.objMap.drop place := (List.take_append_drop _ _).symm
      refine ⟨coherent.address.change fun addr known => ?_,coherent.name.change fun name known => ?_,
        coherent.mangled.change fun name known => ?_,coherent.found⟩
      · exact (scanAddr_insert (unasked.address addr (mem_of_consult known)) _ _).trans (by rw [← halves])
      · exact (scanName_insert (unasked.name name (mem_of_consult known)) _ _).trans (by rw [← halves])
      · exact (scanName_insert (unasked.mangled name (mem_of_consult known)) _ _).trans (by rw [← halves])

def fresh (objMap : List SpObject) (binariesNotToInst : List Name) : SpParser where
  objMap := objMap
  binariesNotToInst := binariesNotToInst
  addrFuncMap := []
  addrFuncNotFound := []
  demangledFuncMap := []
  demangledFuncNotFound := []
  mangledFuncMap := []
  mangledFuncNotFound := []

/-- After every run in which no library is loaded that answers to an earlier
lookup, all lookups are transparent. -/
theorem lookup_transparent (objMap : List SpObject) (binariesNotToInst : List Name) (calls : List Call)
    (timely : Meets step Timely (fresh objMap binariesNotToInst) calls) :
    (run step (fresh objMap binariesNotToInst) calls).Transparent := by
  have start : (fresh objMap binariesNotToInst).Coherent := by
    refine ⟨fun addr v known => ?_,fun name v known => ?_,fun name v known => ?_,fun name funcs there => ?_⟩
    · cases known
    · cases known
    · cases known
    · cases there
  refine (invariant_run step Timely (fun p call coherent ok => ?_) start timely).transparent
  cases call with
  | findFunction addr => exact coherent.findFunction addr
  | findFunctionByName name foundFuncs => exact coherent.findFunctionByName name foundFuncs
  | findFunctionByMangledName name => exact coherent.findFunctionByMangledName name
  | parseDlExit callee tabs place => exact coherent.parseDlExit callee tabs place ok

def program : SpObject where
  name := "/bin/program".toList
  codeBase := 0x400000
  findRegions offset := if offset.toNat < 0x1000 then 1 else 0
  findBlocks _ := [some ⟨1,"main".toList,"main".toList⟩]
  funcs := [some ⟨1,"main".toList,"main".toList⟩]

def plugin : SpObject where
  name := "/lib/plugin.so".toList
  codeBase := 0x7f0000000000
  findRegions offset := if offset.toNat < 0x1000 then 1 else 0
  findBlocks _ := [some ⟨2,"start".toList,"start".toList⟩]
  funcs := [some ⟨2,"start".toList,"start".toList⟩]

def dlopenPlugin : Call := .parseDlExit (some "dlopen".toList) [("/lib/plugin.so".toList,some plugin)] 1

theorem lookup_transparent_dlopen : (run step (fresh [program] [])
    [.findFunctionByName "main".toList ∅,.findFunction 0x400010,dlopenPlugin]).Transparent := by
  refine lookup_transparent [program] [] _ ⟨trivial,trivial,fun obj new => ?_,trivial⟩
  obtain rfl : plugin = obj := Option.some.inj (Option.some.inj new)
  refine ⟨fun addr asked _ => ?_,fun name asked _ => ?_,fun name asked => absurd asked List.not_mem_nil⟩
  · obtain rfl : addr = 0x400010 := List.mem_singleton.mp asked
    decide
  · obtain rfl : name = "main".toList := List.mem_singleton.mp asked
    decide

/-- A name that was looked for before its library is loaded stays hidden. -/
theorem lookup_hidden_dlopen :
    let p := run step (fresh [program] []) [.findFunctionByName "start".toList ∅,dlopenPlugin]
    (p.findFunctionByName "start".toList ∅).1 = (false,∅) ∧
      p.freshByName "start".toList ∅ = (true,{⟨2,"start".toList,"start".toList⟩}) :=
  ⟨rfl,by decide⟩

end SelfPropelled.Parser
