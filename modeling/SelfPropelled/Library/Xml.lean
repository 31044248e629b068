import Mathlib

/-! XML documents: the text a serializer writes for a tree, with its indentation, and a parser
of such text. The parser knows elements, attributes with double quotes, character references
and processing instructions. -/

namespace SelfPropelled.Library.Xml

/-- The contents of a file. A `Char` stands for one unit of them, a byte or a code point,
as the program that writes them has it. -/
abbrev Text := List Char

/-- What a parser reads. -/
inductive Node
  | text (s : Text)
  | element (name : Text) (attrs : List (Text × Text)) (children : List Node)

/-- What a serializer is given: an element has a text or elements in it. -/
inductive Tree
  | leaf (name : Text) (attrs : List (Text × Text)) (content : Text)
  | branch (name : Text) (attrs : List (Text × Text)) (children : List Tree)

/-- Attribute values are escaped further than the text of elements. -/
def entity (attr : Bool) (c : Char) : Text :=
  if c = '<' then "&lt;".toList
  else if c = '>' then "&gt;".toList
  else if c = '&' then "&amp;".toList
  else if c = '\r' then "&#13;".toList
  else if attr = true ∧ c = '"' then "&quot;".toList
  else if attr = true ∧ c = '\n' then "&#10;".toList
  else if attr = true ∧ c = '\t' then "&#9;".toList
  else [c]

def escape (attr : Bool) (s : Text) : Text := s.flatMap (entity attr)

def reference (r : Text) : Option Char :=
  if r = "lt".toList then some '<'
  else if r = "gt".toList then some '>'
  else if r = "amp".toList then some '&'
  else if r = "quot".toList then some '"'
  else if r = "apos".toList then some '\''
  else match r with
    | '#' :: digits =>
      if digits ≠ [] ∧ digits.all Char.isDigit then
        some (Char.ofNat (digits.foldl (fun n c => 10 * n + (c.toNat - '0'.toNat)) 0))
      else none
    | _ => none

/-- The first argument is the reference being read. -/
def unescapeFrom : Option Text → Text → Option Text
  | none, [] => some []
  | some _, [] => none
  | none, c :: s => if c = '&' then unescapeFrom (some []) s else (unescapeFrom none s).map (c :: ·)
  | some r, c :: s =>
    if c = ';' then (reference r).bind fun d => (unescapeFrom none s).map (d :: ·)
    else unescapeFrom (some (r ++ [c])) s

def unescape (s : Text) : Option Text := unescapeFrom none s

def isNameStart (c : Char) : Bool := c.isAlpha || c = '_' || c = ':'

def isNameChar (c : Char) : Bool := isNameStart c || c.isDigit || c = '-' || c = '.'

def isName : Text → Bool
  | [] => false
  | c :: s => isNameStart c && s.all isNameChar

def isSpace (c : Char) : Bool := c = ' ' || c = '\n' || c = '\t' || c = '\r'

inductive AttrMode
  | gap (space : Bool)
  | key (k : Text)
  | equals (k : Text)
  | value (k v : Text)

def attributesFrom : AttrMode → Text → Option (List (Text × Text))
  | .gap _, [] => some []
  | _, [] => none
  | .gap space, c :: s =>
    if isSpace c then attributesFrom (.gap true) s
    else if space && isNameStart c then attributesFrom (.key [c]) s
    else none
  | .key k, c :: s =>
    if c = '=' then attributesFrom (.equals k) s
    else if isNameChar c then attributesFrom (.key (k ++ [c])) s
    else none
  | .equals k, c :: s => if c = '"' then attributesFrom (.value k []) s else none
  | .value k v, c :: s =>
    if c = '"' then (unescape v).bind fun v => (attributesFrom (.gap false) s).map ((k,v) :: ·)
    else attributesFrom (.value k (v ++ [c])) s

def startTag (body : Text) : Option (Text × List (Text × Text)) :=
  let name := body.takeWhile fun c => !isSpace c
  if isName name then
    (attributesFrom (.gap false) (body.drop name.length)).bind fun attrs =>
      if (attrs.map Prod.fst).Nodup then some (name,attrs) else none
  else none

/-- An element that is open, with the children read so far. -/
structure Frame where
  name : Text
  attrs : List (Text × Text)
  children : List Node

inductive Mode
  | content (buffer : Text)
  | tag (buffer : Text)

/-- The innermost open element comes first and the document itself last. -/
structure State where
  frames : List Frame
  mode : Mode

def addChild (n : Node) : List Frame → List Frame
  | [] => []
  | f :: fs => {f with children := f.children ++ [n]} :: fs

def flush (buffer : Text) (frames : List Frame) : Option (List Frame) :=
  if buffer = [] then some frames else (unescape buffer).map fun s => addChild (.text s) frames

/-- What a tag does, given all between its angle brackets. -/
def endTag (body : Text) (frames : List Frame) : Option (List Frame) :=
  match body with
  | '?' :: rest => if rest.getLast? = some '?' then some frames else none
  | '/' :: name =>
    match frames with
    | f :: g :: fs => if f.name = name then some (addChild (.element f.name f.attrs f.children) (g :: fs)) else none
    | _ => none
  | _ =>
    if body.getLast? = some '/' then (startTag body.dropLast).map fun t => addChild (.element t.1 t.2 []) frames
    else (startTag body).map fun t => ⟨t.1,t.2,[]⟩ :: frames

def feed (s : State) (c : Char) : Option State :=
  match s.mode with
  | .content buffer =>
    if c = '<' then (flush buffer s.frames).map (⟨·,.tag []⟩) else some {s with mode := .content (buffer ++ [c])}
  | .tag buffer =>
    if c = '<' then none
    else if c = '>' then (endTag buffer s.frames).map (⟨·,.content []⟩)
    else some {s with mode := .tag (buffer ++ [c])}

def run (s : State) (text : Text) : Option State := text.foldlM feed s

/-- The one element among the children of the document. -/
def root? : List Node → Option Node
  | [] => none
  | .text s :: rest => if s.all isSpace then root? rest else none
  | .element name attrs children :: rest =>
    if rest.all (fun n => match n with | .text s => s.all isSpace | .element .. => false) then
      some (.element name attrs children)
    else none

def parse (text : Text) : Option Node :=
  (run ⟨[⟨[],[],[]⟩],.content []⟩ text).bind fun s =>
    match s.mode, s.frames with
    | .content buffer, [document] => (flush buffer [document]).bind fun fs => (fs.head?).bind fun f => root? f.children
    | _, _ => none

def attrText (a : Text × Text) : Text := ' ' :: a.1 ++ "=\"".toList ++ escape true a.2 ++ ['"']

def tagText (name : Text) (attrs : List (Text × Text)) : Text := name ++ attrs.flatMap attrText

/-- Two blanks for each level. -/
def indent (level : Nat) : Text := List.replicate (2 * level) ' '

mutual

def Tree.write (level : Nat) : Tree → Text
  | .leaf name attrs content =>
    '<' :: tagText name attrs ++ ['>'] ++ escape false content ++ '<' :: '/' :: name ++ ['>']
  | .branch name attrs children =>
    if children.isEmpty then '<' :: (tagText name attrs ++ ['/']) ++ ['>']
    else '<' :: tagText name attrs ++ ['>'] ++ ['\n'] ++ writeAll (level + 1) children ++ indent level ++
      '<' :: '/' :: name ++ ['>']

def writeAll (level : Nat) : List Tree → Text
  | [] => []
  | t :: ts => indent level ++ t.write level ++ ['\n'] ++ writeAll level ts

end

def declaration : Text := "?xml version=\"1.0\" encoding=\"UTF-8\"?".toList

def document (t : Tree) : Text := '<' :: declaration ++ ['>'] ++ ['\n'] ++ t.write 0 ++ ['\n']

mutual

/-- The node that is read for what is written of a tree: the indentation comes back as text,
and an empty text does not come back. -/
def Tree.read (level : Nat) : Tree → Node
  | .leaf name attrs content => .element name attrs (if content = [] then [] else [.text content])
  | .branch name attrs children =>
    .element name attrs (if children.isEmpty then [] else readAll level children ++ [.text ('\n' :: indent level)])

def readAll (level : Nat) : List Tree → List Node
  | [] => []
  | t :: ts => .text ('\n' :: indent (level + 1)) :: t.read (level + 1) :: readAll level ts

end

def validTag (name : Text) (attrs : List (Text × Text)) : Bool :=
  isName name && attrs.all (fun a => isName a.1) && decide (attrs.map Prod.fst).Nodup

mutual

/-- Names are names, and no attribute is there twice. -/
def Tree.valid : Tree → Bool
  | .leaf name attrs _ => validTag name attrs
  | .branch name attrs children => validTag name attrs && allValid children

def allValid : List Tree → Bool
  | [] => true
  | t :: ts => t.valid && allValid ts

end

theorem allValid_iff {ts : List Tree} : allValid ts = true ↔ ∀ t ∈ ts, t.valid = true := by
  induction ts with
  | nil => simp [allValid]
  | cons t ts ih => simp [allValid,ih]

theorem run_append (s : State) (a b : Text) : run s (a ++ b) = (run s a).bind (run · b) :=
  List.foldlM_append

theorem unescape_entity (attr : Bool) (c : Char) (s : Text) :
    unescapeFrom none (entity attr c ++ s) = (unescapeFrom none s).map (c :: ·) := by
  unfold entity
  split_ifs with lt gt amp cr quot nl tab
  · subst lt; rfl
  · subst gt; rfl
  · subst amp; rfl
  · subst cr; rfl
  · obtain ⟨_,rfl⟩ := quot; rfl
  · obtain ⟨_,rfl⟩ := nl; rfl
  · obtain ⟨_,rfl⟩ := tab; rfl
  · simp [unescapeFrom,amp]

theorem unescape_escape (attr : Bool) (s : Text) : unescape (escape attr s) = some s := by
  unfold unescape escape
  induction s with
  | nil => rfl
  | cons c s ih => rw [List.flatMap_cons,unescape_entity,ih,Option.map_some]

theorem not_mem_entity (attr : Bool) (c : Char) : '<' ∉ entity attr c ∧ '>' ∉ entity attr c ∧
    (attr = true → '"' ∉ entity attr c) := by
  unfold entity
  split_ifs with lt gt amp cr quot nl tab
  all_goals first | exact ⟨by decide,by decide,fun _ => by decide⟩ | skip
  simp only [List.mem_singleton]
  refine ⟨Ne.symm lt,Ne.symm gt,fun isAttr same => quot ⟨isAttr,same.symm⟩⟩

theorem not_mem_escape (attr : Bool) (s : Text) : '<' ∉ escape attr s ∧ '>' ∉ escape attr s ∧
    (attr = true → '"' ∉ escape attr s) := by
  simp only [escape,List.mem_flatMap,not_exists,not_and]
  exact ⟨fun c _ => (not_mem_entity attr c).1,fun c _ => (not_mem_entity attr c).2.1,
    fun isAttr c _ => (not_mem_entity attr c).2.2 isAttr⟩

section
variable {name k : Text} {attrs : List (Text × Text)}

theorem name_chars (valid : isName name = true) : ∀ c ∈ name, isNameChar c = true := by
  cases name with
  | nil => cases valid
  | cons d s =>
    simp only [isName,Bool.and_eq_true,List.all_eq_true] at valid
    intro c member
    rcases List.mem_cons.mp member with rfl | later
    · simp [isNameChar,valid.1]
    · exact valid.2 c later

theorem nameChar_plain {c d : Char} (first : isNameChar c = true) (second : isNameChar d = false) : c ≠ d := by
  rintro rfl
  rw [first] at second
  cases second

theorem not_mem_name (valid : isName name = true) {c : Char} (other : isNameChar c = false) : c ∉ name :=
  fun member => nameChar_plain (name_chars valid c member) other rfl

theorem not_space {c : Char} (char : isNameChar c = true) : isSpace c = false := by
  have blank := nameChar_plain (d := ' ') char (by decide)
  have line := nameChar_plain (d := '\n') char (by decide)
  have tab := nameChar_plain (d := '\t') char (by decide)
  have back := nameChar_plain (d := '\r') char (by decide)
  simp [isSpace,blank,line,tab,back]

theorem attributesFrom_key (k rest s : Text) (chars : ∀ c ∈ rest, isNameChar c = true) :
    attributesFrom (.key k) (rest ++ '=' :: s) = attributesFrom (.equals (k ++ rest)) s := by
  induction rest generalizing k with
  | nil => simp [attributesFrom]
  | cons c rest ih =>
    have char := chars c List.mem_cons_self
    have equals := nameChar_plain (d := '=') char (by decide)
    rw [List.cons_append,attributesFrom,if_neg equals,if_pos char,
      ih _ fun d member => chars d (List.mem_cons_of_mem _ member),List.append_assoc]
    rfl

theorem attributesFrom_value (k v w s : Text) (plain : '"' ∉ w) :
    attributesFrom (.value k v) (w ++ '"' :: s) =
      (unescape (v ++ w)).bind fun v => (attributesFrom (.gap false) s).map ((k,v) :: ·) := by
  induction w generalizing v with
  | nil => simp [attributesFrom]
  | cons c w ih =>
    obtain ⟨head,tail⟩ := not_or.mp (mt List.mem_cons.mpr plain)
    rw [List.cons_append,attributesFrom,if_neg (Ne.symm head),ih _ tail,List.append_assoc]
    rfl

theorem attributesFrom_attrText (keys : ∀ a ∈ attrs, isName a.1 = true) (space : Bool) :
    attributesFrom (.gap space) (attrs.flatMap attrText) = some attrs := by
  induction attrs generalizing space with
  | nil => rfl
  | cons a attrs ih =>
    obtain ⟨k,v⟩ := a
    have key : isName k = true := keys (k,v) List.mem_cons_self
    have later := ih (fun a member => keys a (List.mem_cons_of_mem _ member)) false
    obtain ⟨c,k',rfl⟩ : ∃ c k', k = c :: k' := List.exists_cons_of_ne_nil (by rintro rfl; cases key)
    have start : isNameStart c = true := by
      rw [isName,Bool.and_eq_true] at key
      exact key.1
    have chars : ∀ d ∈ k', isNameChar d = true := fun d member => name_chars key d (List.mem_cons_of_mem _ member)
    have head : isSpace c = false := not_space (name_chars key c List.mem_cons_self)
    have shape : ((c :: k',v) :: attrs).flatMap attrText =
        ' ' :: c :: (k' ++ '=' :: '"' :: (escape true v ++ '"' :: attrs.flatMap attrText)) := by
      simp [attrText]
    rw [shape,attributesFrom,if_pos (by decide),attributesFrom,head,if_neg (by simp),Bool.true_and,if_pos start,
      attributesFrom_key _ _ _ chars,attributesFrom,if_pos rfl,
      attributesFrom_value _ _ _ _ ((not_mem_escape true v).2.2 rfl),List.nil_append,unescape_escape,later]
    rfl

theorem validTag_iff : validTag name attrs = true ↔
    isName name = true ∧ (∀ a ∈ attrs, isName a.1 = true) ∧ (attrs.map Prod.fst).Nodup := by
  simp [validTag,and_assoc]

theorem startTag_tagText (valid : validTag name attrs = true) : startTag (tagText name attrs) = some (name,attrs) := by
  obtain ⟨named,keys,distinct⟩ := validTag_iff.mp valid
  have front : ∀ c ∈ name, (!isSpace c) = true := fun c member => by
    rw [not_space (name_chars named c member)]
    rfl
  have whole : (tagText name attrs).takeWhile (fun c => !isSpace c) = name := by
    rw [tagText,List.takeWhile_append_of_pos front]
    cases attrs with
    | nil => simp
    | cons a attrs => simp [attrText,isSpace]
  have rest : (tagText name attrs).drop name.length = attrs.flatMap attrText := List.drop_left
  unfold startTag
  simp only [whole,rest]
  rw [if_pos named,attributesFrom_attrText keys,Option.bind_some,if_pos distinct]

theorem not_mem_tagText (valid : validTag name attrs = true) :
    '<' ∉ tagText name attrs ∧ '>' ∉ tagText name attrs := by
  obtain ⟨named,keys,_⟩ := validTag_iff.mp valid
  have each : ∀ c, isNameChar c = false → c ≠ ' ' → c ≠ '=' → c ≠ '"' → (∀ s, c ∉ escape true s) →
      c ∉ tagText name attrs := by
    intro c other blank equals quote escaped member
    rcases List.mem_append.mp member with inName | inAttrs
    · exact not_mem_name named other inName
    · obtain ⟨a,here,inside⟩ := List.mem_flatMap.mp inAttrs
      have key := not_mem_name (keys a here) other
      simp [attrText,blank,equals,quote,key,escaped a.2] at inside
  exact ⟨each '<' (by decide) (by decide) (by decide) (by decide) fun s => (not_mem_escape true s).1,
    each '>' (by decide) (by decide) (by decide) (by decide) fun s => (not_mem_escape true s).2.1⟩

end

theorem unescape_plain {s : Text} (plain : '&' ∉ s) : unescape s = some s := by
  unfold unescape
  induction s with
  | nil => rfl
  | cons c s ih =>
    obtain ⟨head,tail⟩ := not_or.mp (mt List.mem_cons.mpr plain)
    rw [unescapeFrom,if_neg (Ne.symm head),ih tail,Option.map_some]

section
variable {name body b : Text} {attrs : List (Text × Text)} {fs : List Frame}

theorem run_plain (fs : List Frame) {t : Text} (plain : '<' ∉ t) : run ⟨fs,.content b⟩ t = some ⟨fs,.content (b ++ t)⟩ := by
  induction t generalizing b with
  | nil => rw [List.append_nil]; rfl
  | cons c t ih =>
    obtain ⟨head,tail⟩ := not_or.mp (mt List.mem_cons.mpr plain)
    have one : feed ⟨fs,.content b⟩ c = some ⟨fs,.content (b ++ [c])⟩ := by
      simp only [feed,if_neg (Ne.symm head)]
    rw [run,List.foldlM_cons,one]
    exact (ih tail).trans (by rw [List.append_assoc]; rfl)

theorem run_tagBody {b : Text} (low : '<' ∉ body) (high : '>' ∉ body) :
    run ⟨fs,.tag b⟩ body = some ⟨fs,.tag (b ++ body)⟩ := by
  induction body generalizing b with
  | nil => rw [List.append_nil]; rfl
  | cons c body ih =>
    obtain ⟨head,tail⟩ := not_or.mp (mt List.mem_cons.mpr low)
    obtain ⟨head',tail'⟩ := not_or.mp (mt List.mem_cons.mpr high)
    have one : feed ⟨fs,.tag b⟩ c = some ⟨fs,.tag (b ++ [c])⟩ := by
      simp only [feed,if_neg (Ne.symm head),if_neg (Ne.symm head')]
    rw [run,List.foldlM_cons,one]
    exact (ih tail tail').trans (by rw [List.append_assoc]; rfl)

/-- A tag ends the text in front of it. -/
theorem run_tag {fs' : List Frame} (low : '<' ∉ body) (high : '>' ∉ body) (flushed : flush b fs = some fs') :
    run ⟨fs,.content b⟩ ('<' :: body ++ ['>']) = (endTag body fs').map (⟨·,.content []⟩) := by
  have first : feed ⟨fs,.content b⟩ '<' = some ⟨fs',.tag []⟩ := by simp [feed,flushed]
  have last : run ⟨fs',.tag body⟩ ['>'] = (endTag body fs').map (⟨·,.content []⟩) := by
    simp [run,feed]
  rw [run_append,run,List.foldlM_cons,first]
  change ((run ⟨fs',.tag []⟩ body).bind (run · ['>'])) = _
  rw [run_tagBody low high,List.nil_append,Option.bind_some,last]

theorem tagText_cons (valid : validTag name attrs = true) :
    ∃ c rest, tagText name attrs = c :: rest ∧ isNameStart c = true := by
  obtain ⟨named,_⟩ := validTag_iff.mp valid
  cases name with
  | nil => cases named
  | cons c s =>
    rw [isName,Bool.and_eq_true] at named
    exact ⟨c,s ++ attrs.flatMap attrText,rfl,named.1⟩

theorem tagText_last (valid : validTag name attrs = true) : (tagText name attrs).getLast? ≠ some '/' := by
  obtain ⟨named,_⟩ := validTag_iff.mp valid
  intro last
  rcases List.eq_nil_or_concat attrs with rfl | ⟨front,a,rfl⟩
  · have member : '/' ∈ name := List.mem_of_getLast? (by simpa [tagText] using last)
    exact not_mem_name named (by decide) member
  · have shape : tagText name (front.concat a) =
        (name ++ front.flatMap attrText ++ ' ' :: a.1 ++ "=\"".toList ++ escape true a.2) ++ ['"'] := by
      simp [tagText,attrText]
    rw [shape,List.getLast?_concat] at last
    exact absurd last (by decide)

theorem endTag_other {c : Char} {rest : Text} (start : isNameStart c = true) : endTag (c :: rest) fs =
    if (c :: rest).getLast? = some '/' then
      (startTag (c :: rest).dropLast).map fun t => addChild (.element t.1 t.2 []) fs
    else (startTag (c :: rest)).map fun t => ⟨t.1,t.2,[]⟩ :: fs := by
  have char : isNameChar c = true := by simp [isNameChar,start]
  have question := nameChar_plain (d := '?') char (by decide)
  have slash := nameChar_plain (d := '/') char (by decide)
  unfold endTag
  split
  next head => exact absurd (List.cons.inj head).1 question
  next head => exact absurd (List.cons.inj head).1 slash
  · rfl

theorem endTag_open (valid : validTag name attrs = true) :
    endTag (tagText name attrs) fs = some (⟨name,attrs,[]⟩ :: fs) := by
  obtain ⟨c,rest,shape,start⟩ := tagText_cons valid
  have last := tagText_last valid
  have read := startTag_tagText valid
  rw [shape] at last read ⊢
  rw [endTag_other start,if_neg last,read]
  rfl

theorem endTag_empty (valid : validTag name attrs = true) :
    endTag (tagText name attrs ++ ['/']) fs = some (addChild (.element name attrs []) fs) := by
  obtain ⟨c,rest,shape,start⟩ := tagText_cons valid
  have read := startTag_tagText valid
  rw [shape] at read ⊢
  rw [List.cons_append,endTag_other start,← List.cons_append,if_pos List.getLast?_concat,List.dropLast_concat,read]
  rfl

theorem endTag_close {f g : Frame} (same : f.name = name) :
    endTag ('/' :: name) (f :: g :: fs) = some (addChild (.element f.name f.attrs f.children) (g :: fs)) := by
  simp only [endTag,if_pos same]

/-- An open tag, text in it and the tag that closes it. -/
theorem run_open (valid : validTag name attrs = true) {fs' : List Frame} (flushed : flush b fs = some fs') :
    run ⟨fs,.content b⟩ ('<' :: tagText name attrs ++ ['>']) = some ⟨⟨name,attrs,[]⟩ :: fs',.content []⟩ := by
  obtain ⟨low,high⟩ := not_mem_tagText valid
  rw [run_tag low high flushed,endTag_open valid]
  rfl

theorem run_close {f f' g : Frame} (named : isName name = true) (same : f'.name = name)
    (flushed : flush b (f :: g :: fs) = some (f' :: g :: fs)) :
    run ⟨f :: g :: fs,.content b⟩ ('<' :: '/' :: name ++ ['>']) =
      some ⟨addChild (.element name f'.attrs f'.children) (g :: fs),.content []⟩ := by
  have low : '<' ∉ '/' :: name := by simp [not_mem_name named (c := '<') (by decide)]
  have high : '>' ∉ '/' :: name := by simp [not_mem_name named (c := '>') (by decide)]
  have whole : '<' :: '/' :: name ++ ['>'] = '<' :: ('/' :: name) ++ ['>'] := rfl
  rw [whole,run_tag low high flushed,endTag_close same,same]
  rfl

theorem flush_nil : flush [] fs = some fs := if_pos rfl

theorem flush_plain (fs : List Frame) {f : Frame} {c : Char} {t : Text} (plain : '&' ∉ c :: t) :
    flush (c :: t) (f :: fs) = some ({f with children := f.children ++ [.text (c :: t)]} :: fs) := by
  rw [flush,if_neg (List.cons_ne_nil c t),unescape_plain plain]
  rfl

theorem flush_escape (s : Text) {f : Frame} : flush (escape false s) (f :: fs) =
    some ({f with children := f.children ++ if s = [] then [] else [.text s]} :: fs) := by
  cases s with
  | nil => simp [escape,flush]
  | cons c s =>
    have filled : escape false (c :: s) ≠ [] := by
      intro none
      have whole := unescape_escape false (c :: s)
      rw [none] at whole
      cases whole
    rw [flush,if_neg filled,unescape_escape]
    rfl

end

theorem indent_plain (level : Nat) {c : Char} (other : c ≠ ' ') : c ∉ indent level := by
  intro member
  exact other (List.eq_of_mem_replicate member)

theorem line_plain (level : Nat) {c : Char} (blank : c ≠ ' ') (line : c ≠ '\n') : c ∉ '\n' :: indent level := by
  simp [line,indent_plain level blank]

mutual

/-- What is written of a tree is read as its node, after the text in front of it. -/
theorem Tree.run_write {b : Text} {f g : Frame} {fs : List Frame} (level : Nat) :
    (t : Tree) → t.valid = true → flush b (f :: fs) = some (g :: fs) →
      run ⟨f :: fs,.content b⟩ (t.write level) = some ⟨addChild (t.read level) (g :: fs),.content []⟩
  | .leaf name attrs content, valid, flushed => by
    rw [Tree.valid] at valid
    have named := (validTag_iff.mp valid).1
    have shape : (Tree.leaf name attrs content).write level =
        '<' :: tagText name attrs ++ ['>'] ++ escape false content ++ ('<' :: '/' :: name ++ ['>']) := by
      rw [Tree.write,List.append_assoc]
    rw [shape,run_append,run_append,run_open valid flushed,Option.bind_some,
      run_plain _ (not_mem_escape false content).1,Option.bind_some,List.nil_append,
      run_close named rfl (flush_escape content),Tree.read,List.nil_append]
  | .branch name attrs children, valid, flushed => by
    rw [Tree.valid,Bool.and_eq_true] at valid
    have named := (validTag_iff.mp valid.1).1
    cases empty : children.isEmpty with
    | true =>
      obtain ⟨low,high⟩ := not_mem_tagText valid.1
      rw [Tree.write,if_pos empty,Tree.read,if_pos empty,
        run_tag (by simp [low]) (by simp [high]) flushed,endTag_empty valid.1]
      rfl
    | false =>
      have filled : ¬children.isEmpty = true := by simp [empty]
      have shape : (Tree.branch name attrs children).write level = '<' :: tagText name attrs ++ ['>'] ++
          ['\n'] ++ writeAll (level + 1) children ++ indent level ++ ('<' :: '/' :: name ++ ['>']) := by
        rw [Tree.write,if_neg filled,List.append_assoc]
      have line := run_plain (⟨name,attrs,[]⟩ :: g :: fs) (b := []) (t := ['\n']) (by decide)
      rw [shape,run_append,run_append,run_append,run_append,run_open valid.1 flushed,Option.bind_some,line,
        Option.bind_some,List.nil_append,run_writeAll level children valid.2,Option.bind_some,
        run_plain _ (indent_plain level (by decide)),Option.bind_some]
      have last := flush_plain (g :: fs) (f := ⟨name,attrs,[] ++ readAll level children⟩)
        (line_plain level (c := '&') (by decide) (by decide))
      rw [List.singleton_append,run_close named rfl last,Tree.read,if_neg filled,List.nil_append]

theorem run_writeAll {f : Frame} {fs : List Frame} (level : Nat) : (ts : List Tree) → allValid ts = true →
    run ⟨f :: fs,.content ['\n']⟩ (writeAll (level + 1) ts) =
      some ⟨{f with children := f.children ++ readAll level ts} :: fs,.content ['\n']⟩
  | [], _ => by
    rw [writeAll,readAll,List.append_nil]
    rfl
  | t :: ts, valid => by
    rw [allValid,Bool.and_eq_true] at valid
    have shape : writeAll (level + 1) (t :: ts) =
        indent (level + 1) ++ t.write (level + 1) ++ ['\n'] ++ writeAll (level + 1) ts := by rw [writeAll]
    have before := flush_plain fs (f := f) (line_plain (level + 1) (c := '&') (by decide) (by decide))
    have line := run_plain
      (addChild (t.read (level + 1)) ({f with children := f.children ++ [.text ('\n' :: indent (level + 1))]} :: fs))
      (b := []) (t := ['\n']) (by decide)
    rw [shape,run_append,run_append,run_append,run_plain _ (indent_plain (level + 1) (by decide)),Option.bind_some,
      List.singleton_append,Tree.run_write (level + 1) t valid.1 before,Option.bind_some,line,Option.bind_some,
      List.nil_append,addChild,run_writeAll level ts valid.2,readAll]
    simp

end

theorem read_element (level : Nat) (t : Tree) : ∃ name attrs children, t.read level = .element name attrs children := by
  cases t with
  | leaf name attrs content => exact ⟨_,_,_,rfl⟩
  | branch name attrs children => exact ⟨_,_,_,rfl⟩

/-- A document that is written is read back, with its indentation as text. -/
theorem parse_document {t : Tree} (valid : t.valid = true) : parse (document t) = some (t.read 0) := by
  have head : run ⟨[⟨[],[],[]⟩],.content []⟩ ('<' :: declaration ++ ['>']) =
      (endTag declaration [⟨[],[],[]⟩]).map (⟨·,.content []⟩) := run_tag (by decide) (by decide) flush_nil
  have skipped : endTag declaration [⟨[],[],[]⟩] = some [⟨[],[],[]⟩] := rfl
  have line := run_plain [⟨[],[],[]⟩] (b := []) (t := ['\n']) (by decide)
  have before := flush_plain [] (f := ⟨[],[],[]⟩) (c := '\n') (t := []) (by decide)
  have written := Tree.run_write 0 t valid before
  have last := run_plain (addChild (t.read 0) [⟨[],[],[] ++ [.text ['\n']]⟩]) (b := []) (t := ['\n']) (by decide)
  have whole : run ⟨[⟨[],[],[]⟩],.content []⟩ (document t) =
      some ⟨addChild (t.read 0) [⟨[],[],[.text ['\n']]⟩],.content ['\n']⟩ := by
    rw [document,run_append,run_append,run_append,head,skipped,Option.map_some,Option.bind_some,line,Option.bind_some,
      List.nil_append,written,Option.bind_some]
    exact last
  obtain ⟨name,attrs,children,element⟩ := read_element 0 t
  rw [parse,whole,element]
  rfl

end SelfPropelled.Library.Xml
