import SelfPropelled.SecStar.Event

/-! The combine worker. A directory is a dictionary of the texts of its files. -/

namespace SelfPropelled.SecStar
open Library

abbrev Files := Dict Str Str

/-- What is in front of the last place of a text. -/
def beforeLast (p : Str) : Str → Option Str
  | [] => if p = [] then some [] else none
  | c :: s => ((beforeLast p s).map (c :: ·)).or (if p.isPrefixOf (c :: s) then some [] else none)

def openTraces : Str := "<traces>".toList

def closeTraces : Str := "</traces></process>".toList

/-- `<traces>(.*)</traces></process>` at its last place. -/
def lastTraces : Str → Option Str
  | [] => none
  | c :: s => (lastTraces s).or
      (if openTraces.isPrefixOf (c :: s) then beforeLast closeTraces ((c :: s).drop openTraces.length) else none)

/-- The group that `re.search('.+<traces>(.*)</traces></process>', text)` finds: a dot is no
newline, and takes as much as it can. -/
def searchTraces : Str → Option Str
  | [] => none
  | c :: s => (if c = '\n' then none else lastTraces (s.takeWhile (· ≠ '\n'))).or (searchTraces s)

/-- What `insert_traces_from` makes of the file's own text and the other's. `seek(-19, 2)` is
Python 2's, which fails in a shorter file; Python 3 refuses it in every text file. -/
def insertTracesFrom (toText fromText : Str) : Option Str :=
  match searchTraces fromText with
  | none => some toText
  | some traces => if toText.length < 19 then none else some (toText.take (toText.length - 19) ++ traces ++ closeTraces)

def newXml (xmlFile : Str) : Str := xmlFile.takeWhile (· ≠ '-') ++ ".xml".toList

/-- The states of the directory while a file is combined: its traces are added and it is
removed, or it is renamed. There are none where the worker ends. -/
def combineFile (files : Files) (xmlFile : Str) : Option (List Files) :=
  if '-' ∈ xmlFile then
    (Dict.get files xmlFile).bind fun text =>
      match Dict.get files (newXml xmlFile) with
      | some toText => (insertTracesFrom toText text).map fun combined =>
          [Dict.set files (newXml xmlFile) combined,Dict.remove (Dict.set files (newXml xmlFile) combined) xmlFile]
      | none => some [Dict.set (Dict.remove files xmlFile) (newXml xmlFile) text]
  else none

/-- The states of a host's directory, and whether the worker goes on after it. -/
def combineFiles : List Str → Files → List Files × Bool
  | [], _ => ([],true)
  | xmlFile :: rest, files =>
    match combineFile files xmlFile with
    | none => ([],false)
    | some states =>
      let later := combineFiles rest (states.getLastD files)
      (states ++ later.1,later.2)

def sortedNames (files : Files) : List Str := (files.map Prod.fst).mergeSort fun a b => decide (a ≤ b)

inductive Entry
  | file (text : Str)
  | dir (files : Files)

/-- The states of each host's directory in turn. -/
def run : List (Str × Entry) → List (Str × List Files)
  | [] => []
  | (_,.file _) :: rest => run rest
  | (host,.dir files) :: rest =>
    let states := combineFiles (sortedNames files) files
    (host,states.1) :: if states.2 then run rest else []

theorem beforeLast_shape {p s before : Str} (found : beforeLast p s = some before) : p <:+: s := by
  induction s generalizing before with
  | nil =>
    rw [beforeLast] at found
    split_ifs at found with empty
    exact empty ▸ List.infix_rfl
  | cons c s ih =>
    rcases Option.or_eq_some_iff.mp found with later | ⟨_,here⟩
    · obtain ⟨rest,there,_⟩ := Option.map_eq_some_iff.mp later
      exact List.infix_cons (ih there)
    · split_ifs at here with first
      exact (List.isPrefixOf_iff_prefix.mp first).isInfix

theorem lastTraces_shape {s traces : Str} (found : lastTraces s = some traces) : closeTraces <:+: s := by
  induction s with
  | nil => cases found
  | cons c s ih =>
    rcases Option.or_eq_some_iff.mp found with later | ⟨_,here⟩
    · exact List.infix_cons (ih later)
    · split_ifs at here with first
      exact (beforeLast_shape here).trans (List.drop_suffix _ _).isInfix

/-- Traces are found only where the root element is a `process`. -/
theorem searchTraces_shape {s traces : Str} (found : searchTraces s = some traces) : closeTraces <:+: s := by
  induction s with
  | nil => cases found
  | cons c s ih =>
    rcases Option.or_eq_some_iff.mp found with here | ⟨_,later⟩
    · split_ifs at here with line
      exact List.infix_cons ((lastTraces_shape here).trans (List.takeWhile_prefix _).isInfix)
    · exact List.infix_cons (ih later)

end SelfPropelled.SecStar
