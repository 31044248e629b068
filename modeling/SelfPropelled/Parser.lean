import SelfPropelled.Machine.Memory

/-! Function lookup of `parser.cc`: by address, by pretty name and by mangled
name, with their caches, and the objects that `ParseDlExit` adds. -/

namespace SelfPropelled.Parser
open Machine

abbrev Name := List Char

/-- A function, with the identity of its pointer. -/
structure SpFunction where
  id : Nat
  name : Name
  mangledName : Name
deriving DecidableEq, Repr

abbrev FuncSet := Finset SpFunction

/-- A parsed object. Its code object tells how many regions hold an offset, which
blocks do (each by its first function), and all functions; PatchAPI may have
no instance of a function. -/
structure SpObject where
  name : Name
  codeBase : Word
  findRegions : Word → Nat
  findBlocks : Word → List (Option SpFunction)
  funcs : List (Option SpFunction)

structure SpParser where
  objMap : List SpObject
  binariesNotToInst : List Name
  addrFuncMap : List (Word × SpFunction)
  addrFuncNotFound : List Word
  demangledFuncMap : List (Name × FuncSet)
  demangledFuncNotFound : List Name
  mangledFuncMap : List (Name × FuncSet)
  mangledFuncNotFound : List Name

def spFilename (path : Name) : Name := (path.reverse.takeWhile (· ≠ '/')).reverse

def canInstrumentLib (binariesNotToInst : List Name) (lib : Name) : Bool :=
  binariesNotToInst.all fun b => !decide (b <:+: lib)

/-- The functions of an object with the name; of libc only few are looked at. -/
def getFuncsByName (obj : SpObject) (name : Name) (mangled : Bool) : List SpFunction :=
  if name ≠ "recv".toList ∧ name ≠ "read".toList ∧ "libc-".toList <:+: obj.name ∧
    name ≠ "__libc_start_main".toList then []
  else (obj.funcs.filterMap id).filter fun found =>
    let own := if mangled then found.mangledName else found.name
    own.length ≠ 0 ∧ own = name

def scanAddr (binariesNotToInst : List Name) (addr : Word) : List SpObject → Option SpFunction
  | [] => none
  | obj :: rest =>
    let offset := addr - obj.codeBase
    if !canInstrumentLib binariesNotToInst obj.name then scanAddr binariesNotToInst addr rest
    else if obj.findRegions offset ≠ 1 then scanAddr binariesNotToInst addr rest
    else match obj.findBlocks offset with
      | [found] => found
      | _ => none

/-- Is the object looked at in a lookup by name? The one by mangled name also skips the agent. -/
def searched (binariesNotToInst : List Name) (mangled : Bool) (obj : SpObject) : Bool :=
  !(mangled && spFilename obj.name == "libagent.so".toList) &&
    canInstrumentLib binariesNotToInst (spFilename obj.name)

def scanName (binariesNotToInst : List Name) (mangled : Bool) (objs : List SpObject) (name : Name) : FuncSet :=
  (objs.flatMap fun obj =>
    if searched binariesNotToInst mangled obj then getFuncsByName obj name mangled else []).toFinset

namespace SpParser
variable (p : SpParser)

def findFunction (addr : Word) : Option SpFunction × SpParser :=
  if addr = 0 then (none,p)
  else match p.addrFuncMap.lookup addr with
    | some func => (some func,p)
    | none =>
      if addr ∈ p.addrFuncNotFound then (none,p)
      else match scanAddr p.binariesNotToInst addr p.objMap with
        | some found => (some found,{p with addrFuncMap := (addr,found) :: p.addrFuncMap})
        | none => (none,{p with addrFuncNotFound := addr :: p.addrFuncNotFound})

/-- Find functions by pretty name; they are added to the caller's set. -/
def findFunctionByName (name : Name) (foundFuncs : FuncSet) : (Bool × FuncSet) × SpParser :=
  if name.length = 0 then ((false,foundFuncs),p)
  else match p.demangledFuncMap.lookup name with
    | some funcs => ((true,foundFuncs ∪ funcs),p)
    | none =>
      if name ∈ p.demangledFuncNotFound then ((false,foundFuncs),p)
      else
        let funcSet := scanName p.binariesNotToInst false p.objMap name
        if funcSet = ∅ then
          ((false,foundFuncs),{p with demangledFuncNotFound := name :: p.demangledFuncNotFound})
        else ((true,foundFuncs ∪ funcSet),{p with demangledFuncMap := (name,funcSet) :: p.demangledFuncMap})

/-- Find function by mangled name. The positive cache is read but never filled. -/
def findFunctionByMangledName (name : Name) : FuncSet × SpParser :=
  if name.length = 0 then (∅,p)
  else match p.mangledFuncMap.lookup name with
    | some funcs => (funcs,p)
    | none =>
      if name ∈ p.mangledFuncNotFound then (∅,p)
      else
        let funcSet := scanName p.binariesNotToInst true p.objMap name
        if funcSet = ∅ then (∅,{p with mangledFuncNotFound := name :: p.mangledFuncNotFound})
        else (funcSet,p)

/-- The library `ParseDlExit` parses: the first instrumentable one that is not known yet. -/
def newLibrary (callee : Option Name) (tabs : List (Name × Option SpObject)) : Option (Option SpObject) :=
  if callee.isSome ∧ callee ≠ some "dlopen".toList then none
  else (tabs.find? fun tab => canInstrumentLib p.binariesNotToInst tab.1 &&
    !(p.objMap.map (·.name)).contains tab.1).map (·.2)

/-- Parse library that is instrumentable and not parsed yet. `tabs` are the
symbol tables of the process with the object each would give; the new object
has its place in the order of the object map. -/
def parseDlExit (callee : Option Name) (tabs : List (Name × Option SpObject)) (place : Nat) : Bool × SpParser :=
  match p.newLibrary callee tabs with
  | none => (true,p)
  | some none => (false,p)
  | some (some obj) => (true,{p with objMap := p.objMap.take place ++ obj :: p.objMap.drop place})

end SpParser

inductive Call
  | findFunction (addr : Word)
  | findFunctionByName (name : Name) (foundFuncs : FuncSet)
  | findFunctionByMangledName (name : Name)
  | parseDlExit (callee : Option Name) (tabs : List (Name × Option SpObject)) (place : Nat)

def step (p : SpParser) : Call → SpParser
  | .findFunction addr => (p.findFunction addr).2
  | .findFunctionByName name foundFuncs => (p.findFunctionByName name foundFuncs).2
  | .findFunctionByMangledName name => (p.findFunctionByMangledName name).2
  | .parseDlExit callee tabs place => (p.parseDlExit callee tabs place).2

end SelfPropelled.Parser
