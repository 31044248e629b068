import SelfPropelled.BlobReuse
import SelfPropelled.BlobSize

/-! The blob of a snippet over the attempts on its point: which of them ask for a buffer, which
generate code, where and in which mode. Only what the attempts are given is read; the worlds
they run through are seen to follow. -/

namespace SelfPropelled.Workers
open Machine

/-- Code that was generated: into which buffer, with what size this was asked for, in which mode. -/
structure Made where
  buffer : Word
  asked : Nat
  reloc : Bool
deriving DecidableEq, Repr

/-- `replaced`: a buffer was asked for after the code was generated. `patched`: the call
instruction was overwritten and given up. `mem` is the memory apart from the application's code. -/
structure BlobHistory where
  blob : Word
  asked : Nat
  made : Option Made
  replaced : Bool
  patched : Bool
  mem : Memory

namespace BlobHistory

def start (w : World) : BlobHistory := ⟨0,0,none,false,false,w.mem⟩

def ask (h : BlobHistory) (size : Nat) (malloc : Nat → Word) : BlobHistory :=
  {h with blob := malloc size, asked := size, replaced := h.made.isSome}

def ensure (h : BlobHistory) (size : Nat) (malloc : Nat → Word) : BlobHistory :=
  if h.blob = 0 then h.ask size malloc else h

section
variable (c : Config) (pt : Nat)

/-- Code is generated once. `none`: an assertion of the generator fails. -/
def build (h : BlobHistory) (reloc : Bool) : Option BlobHistory :=
  if h.made.isSome then some h
  else ((c.snippet pt).generate c.lib reloc h.blob).map fun code =>
    {h with made := some ⟨h.blob,h.asked,reloc⟩, mem := storeBytes h.mem h.blob code}

/-- The spring block is relocated. -/
def host (h : BlobHistory) (s : Nat) (spring : Word) : Option BlobHistory :=
  (springCode c s spring).map fun code => {h with mem := storeBytes h.mem spring code}

/-- An attempt of a worker on the point of a world. -/
def attempt (w : World) (h : BlobHistory) (k : InstallMethod) (a : Answers) : Option BlobHistory :=
  let b := c.blockOf pt
  match k with
  | .relocInsn =>
    if b.callSize < 5 ∨ w.mem b.last ≠ 0xe8 ∨ h.patched = true then some h
    else
      let h := h.ask baseEstimateRelocInsnSize a.blob
      if h.blob = 0 ∨ isDisp32 (h.blob - b.last) = false ∨ belowPage b.last = true then some h
      else (h.build c pt false).map fun h =>
        {h with patched := !belowPage h.blob && (c.point pt).func.isSome && a.codePerm}
  | .relocBlk =>
    let h := h.ask (baseEstimateRelocBlockSize b) a.blob
    if h.blob = 0 ∨ b.size < 5 ∨ (isDisp32 (h.blob - b.start - 5) = false ∧ b.size < jumpAbsSize) then some h
    else h.build c pt true
  | .springboard =>
    match (findSpringboard c w pt).1 with
    | none => some h
    | some s =>
      let h := h.ensure (baseEstimateRelocBlockSize b) a.blob
      if h.blob = 0 then some h
      else (h.build c pt true).bind fun h =>
        if belowPage h.blob = true ∨ a.blobPerm = false ∨ springBuffer c a s = 0 then some h
        else h.host c s (springBuffer c a s)
  | .trap =>
    if belowPage b.last = true then some h
    else
      let h := h.ensure baseEstimateRelocInsnSize a.blob
      if h.blob = 0 then some h else h.build c pt false

/-- The buffer that an attempt would transfer control to. -/
def buffer (h : BlobHistory) (a : Answers) : InstallMethod → Word
  | .relocInsn => (h.ask baseEstimateRelocInsnSize a.blob).blob
  | .relocBlk => (h.ask (baseEstimateRelocBlockSize (c.blockOf pt)) a.blob).blob
  | .springboard => (h.ensure (baseEstimateRelocBlockSize (c.blockOf pt)) a.blob).blob
  | .trap => (h.ensure baseEstimateRelocInsnSize a.blob).blob

/-- The block is its call alone, so that there is nothing to relocate with it. -/
def OnlyCall : Prop := ∀ x ∈ (c.blockOf pt).code.insns, x.1 = (c.blockOf pt).last

/-- The worker takes the buffer it finds, this is the one that was generated into, and the
code in it is of the worker's mode, or the modes are one. -/
def Keeps (h : BlobHistory) (k : InstallMethod) : Prop :=
  (k = .springboard ∨ k = .trap) ∧ h.replaced = false ∧
    ∃ m, h.made = some m ∧ (m.reloc = k.reloc ∨ OnlyCall c pt)

/-- Just the code that is never generated lies in the worker's buffer. -/
def Coincides (h : BlobHistory) (k : InstallMethod) (a : Answers) : Prop :=
  ∃ code, (c.snippet pt).generate c.lib k.reloc (h.buffer c pt a k) = some code ∧
    bytesAt h.mem (h.buffer c pt a k) code.length = code

/-- The attempts on the point of a world, all of them given up. -/
def follow (w : World) : BlobHistory → List (InstallMethod × Answers) → Option BlobHistory
  | h, [] => some h
  | h, (k,a) :: rest => (if (save c w pt k).1 then h.attempt c pt w k a else some h).bind fun h => follow w h rest

end

end BlobHistory

/-- The world has the blob that the history has come to. -/
structure Agrees (c : Config) (pt : Nat) (w₀ : World) (h : BlobHistory) (w : World) : Prop where
  blob : (w.snippet pt).blob = h.blob
  unmade : h.made = none → (w.snippet pt).blobSize = 0
  made : ∀ m, h.made = some m → m.buffer ≠ 0 ∧ ∃ code, (c.snippet pt).generate c.lib m.reloc m.buffer = some code ∧
    (w.snippet pt).blobSize = code.length
  own : ∀ m code, h.made = some m → h.replaced = false → (c.snippet pt).generate c.lib m.reloc m.buffer = some code →
    m.buffer = h.blob ∧ bytesAt h.mem m.buffer code.length = code
  mem : ∀ x, ¬HasCode c x → w.mem x = h.mem x
  spring : (findSpringboard c w pt).1 = (findSpringboard c w₀ pt).1
  sound : SpringsOk c pt w

/-- The worlds differ in nothing that the blob depends on. -/
structure Alike (c : Config) (pt : Nat) (w w' : World) : Prop where
  snippet : w'.snippet pt = w.snippet pt
  isSpring : w'.isSpring = w.isSpring
  mem : ∀ x, ¬HasCode c x → w'.mem x = w.mem x

section
variable {c : Config} {pt : Nat} {w₀ w w' w'' : World} {h h' : BlobHistory} {a : Answers} {k : InstallMethod}

theorem Alike.refl (w : World) : Alike c pt w w := ⟨rfl,rfl,fun _ _ => rfl⟩

theorem Alike.trans (first : Alike c pt w w') (second : Alike c pt w' w'') : Alike c pt w w'' :=
  ⟨second.snippet.trans first.snippet,second.isSpring.trans first.isSpring,
    fun x out => (second.mem x out).trans (first.mem x out)⟩

theorem alike_permission {x : Word} {n : Nat} {granted : Bool} (permitted : setMemoryPermission w x n granted = some w') :
    Alike c pt w w' := by
  simp only [setMemoryPermission,Option.ite_none_right_eq_some,Option.some.injEq] at permitted
  obtain ⟨_,rfl⟩ := permitted
  exact ⟨rfl,rfl,fun _ _ => rfl⟩

theorem alike_write (w : World) {p : Word} {bs : List Byte} (code : ∀ x, In p bs.length x → HasCode c x) :
    Alike c pt w (w.write p bs) :=
  ⟨rfl,rfl,fun x out => storeBytes_outside _ _ _ _ fun inside => out (code x inside)⟩

theorem alike_installSpring (layout : Layout c) {s : Nat} (ok : SpringOk c (c.blockOf pt).start s) (w : World)
    (blob spring : Word) : Alike c pt w (installSpring c w pt s blob spring a) := by
  have room := layout.size_ge s
  have split := layout.last s
  have first : ∀ x, In (c.obj.block s).start (springJumps blob spring).length x → HasCode c x := by
    intro x inside
    refine ⟨s,inside.widen ?_⟩
    rw [length_springJumps]
    have large := ok.2
    simp only [Block.last] at *
    omega
  have second : ∀ (d : Byte) x, In (c.blockOf pt).start [0xeb,d].length x → HasCode c x := fun d x inside =>
    ⟨_,inside.widen (Nat.le_trans (layout.call pt) (layout.size_ge _))⟩
  have allowed : ∀ (w : World) r, Alike c pt w {w with rwx := r :: w.rwx} := fun w r => ⟨rfl,rfl,fun _ _ => rfl⟩
  rw [installSpring_eq]
  cases permits (c.obj.block s).start a.springBlkPerm <;> cases permits (c.blockOf pt).start a.codePerm
  · exact .refl w
  · exact (allowed w _).trans (alike_write _ (second _))
  · exact (allowed w _).trans (alike_write _ first)
  · exact ((allowed w _).trans (alike_write _ first)).trans ((allowed _ _).trans (alike_write _ (second _)))

theorem findSpringboard_congr (w w' : World) (springBlk : (w'.snippet pt).springBlk = (w.snippet pt).springBlk)
    (isSpring : w'.isSpring = w.isSpring) : (findSpringboard c w' pt).1 = (findSpringboard c w pt).1 := by
  unfold findSpringboard
  rw [springBlk,isSpring]
  split
  · rfl
  · dsimp only
    split <;> rfl

theorem findSpringboard_again (w : World) :
    (findSpringboard c (findSpringboard c w pt).2 pt).1 = (findSpringboard c w pt).1 := by
  rcases findSpringboard_cases (c := c) w pt with ⟨s,cached,eq⟩ | ⟨_,eq | ⟨s,_,eq⟩⟩
  · rw [eq]
    exact congrArg Prod.fst eq
  · rw [eq]
    exact congrArg Prod.fst eq
  · rw [eq]
    simp [findSpringboard,World.setSnippet]

namespace Agrees

theorem start (fresh : w₀.snippet pt = .fresh) : Agrees c pt w₀ (.start w₀) w₀ where
  blob := by rw [fresh]; rfl
  unmade _ := by rw [fresh]; rfl
  made _ none := by cases none
  own _ _ none := by cases none
  mem _ _ := rfl
  spring := rfl
  sound s cached := by rw [fresh] at cached; cases cached

theorem alike (agrees : Agrees c pt w₀ h w) (alike : Alike c pt w w') : Agrees c pt w₀ h w' where
  blob := by rw [alike.snippet,agrees.blob]
  unmade none := by rw [alike.snippet,agrees.unmade none]
  made m found := by
    rw [alike.snippet]
    exact agrees.made m found
  own := agrees.own
  mem x out := (alike.mem x out).trans (agrees.mem x out)
  spring := (findSpringboard_congr w w' (by rw [alike.snippet]) alike.isSpring).trans agrees.spring
  sound s cached := agrees.sound s (by rwa [alike.snippet] at cached)

theorem setPatched (agrees : Agrees c pt w₀ h w) (patched : Bool) : Agrees c pt w₀ {h with patched := patched} w :=
  ⟨agrees.blob,agrees.unmade,agrees.made,agrees.own,agrees.mem,agrees.spring,agrees.sound⟩

theorem ask (agrees : Agrees c pt w₀ h w) (size : Nat) (malloc : Nat → Word) :
    Agrees c pt w₀ (h.ask size malloc) (getBlob w pt size malloc) where
  blob := by rw [getBlob_snippet]; rfl
  unmade none := by
    rw [getBlob_snippet]
    exact agrees.unmade none
  made m found := by
    rw [getBlob_snippet]
    exact agrees.made m found
  own m code found kept := by
    have found' : h.made = some m := found
    simp [BlobHistory.ask,found'] at kept
  mem := agrees.mem
  spring := (findSpringboard_congr w (getBlob w pt size malloc) (by rw [getBlob_snippet]) rfl).trans agrees.spring
  sound s cached := by
    rw [getBlob_snippet] at cached
    exact agrees.sound s cached

theorem ensure (agrees : Agrees c pt w₀ h w) (size : Nat) (malloc : Nat → Word) :
    Agrees c pt w₀ (h.ensure size malloc) (ensureBlob w pt size malloc) := by
  unfold BlobHistory.ensure ensureBlob
  rw [agrees.blob]
  split
  · exact agrees.ask size malloc
  · exact agrees

theorem search (agrees : Agrees c pt w₀ h w) : Agrees c pt w₀ h (findSpringboard c w pt).2 := by
  obtain ⟨blob,size⟩ := findSpringboard_snippet (c := c) w pt
  have quiet : Quiet c pt w (findSpringboard c w pt).2 := quiet_findSpringboard w
  have mem : (findSpringboard c w pt).2.mem = w.mem := by
    rcases findSpringboard_cases (c := c) w pt with ⟨s,_,eq⟩ | ⟨_,eq | ⟨s,_,eq⟩⟩ <;> rw [eq]
    rfl
  constructor
  · rw [blob,agrees.blob]
  · rw [size]
    exact agrees.unmade
  · rw [size]
    exact agrees.made
  · exact agrees.own
  · rw [mem]
    exact agrees.mem
  · exact (findSpringboard_again w).trans agrees.spring
  · exact quiet.springsOk agrees.sound

/-- What `BuildBlob` does to a world with a blob, the history does too. -/
theorem build (agrees : Agrees c pt w₀ h w) {reloc : Bool} (there : h.blob ≠ 0) (built : Built c w pt reloc w')
    (small : ∀ code, (c.snippet pt).generate c.lib reloc h.blob = some code → code.length ≤ 2 ^ 64) :
    ∃ h', h.build c pt reloc = some h' ∧ h'.blob = h.blob ∧ Agrees c pt w₀ h' w' := by
  rcases built with ⟨old,rfl⟩ | ⟨none,code,generated,rfl⟩
  · have some : h.made.isSome = true := by
      cases made : h.made with
      | some m => rfl
      | none =>
        have size := agrees.unmade made
        omega
    exact ⟨h,if_pos some,rfl,agrees⟩
  · have unmade : h.made = Option.none := by
      cases made : h.made with
      | none => rfl
      | some m =>
        obtain ⟨_,code',generated',size⟩ := agrees.made m made
        have long := generate_pos generated'
        omega
    rw [agrees.blob] at generated
    refine ⟨{h with made := some ⟨h.blob,h.asked,reloc⟩, mem := storeBytes h.mem h.blob code},?_,rfl,?_⟩
    · simp only [BlobHistory.build,unmade,Option.isSome_none,Bool.false_eq_true,if_false,generated,Option.map_some]
    constructor
    · rw [setSnippet_self]
      exact agrees.blob
    · intro made
      cases made
    · intro m made
      cases made
      exact ⟨there,code,generated,by rw [setSnippet_self]⟩
    · intro m code' made _ generated'
      cases made
      obtain rfl := Option.some.inj (generated.symm.trans generated')
      exact ⟨rfl,bytesAt_storeBytes _ _ _ (small code generated)⟩
    · intro x out
      rw [setSnippet_mem,agrees.blob]
      change storeBytes w.mem h.blob code x = storeBytes h.mem h.blob code x
      simp only [storeBytes,agrees.mem x out]
    · have same := findSpringboard_congr (c := c) w
        ((w.write (w.snippet pt).blob code).setSnippet pt {w.snippet pt with blobSize := code.length})
        (by rw [setSnippet_self]) rfl
      exact same.trans agrees.spring
    · intro s cached
      rw [setSnippet_self] at cached
      exact agrees.sound s cached

theorem buildBlob {est : Nat} {malloc : Nat → Word} (reloc : Bool)
    (agrees : Agrees c pt w₀ h (ensureBlob w pt est malloc)) (there : h.blob ≠ 0)
    (small : ∀ code, (c.snippet pt).generate c.lib reloc h.blob = some code → code.length ≤ 2 ^ 64) :
    h.build c pt reloc = none ∧ buildBlob c w pt est reloc malloc = none ∨
    ∃ h' w', h.build c pt reloc = some h' ∧ h'.blob = h.blob ∧
      Workers.buildBlob c w pt est reloc malloc = some (h.blob,w') ∧ Agrees c pt w₀ h' w' := by
  have present : ((ensureBlob w pt est malloc).snippet pt).blob ≠ 0 := agrees.blob ▸ there
  by_cases generates : Generates c (ensureBlob w pt est malloc) pt reloc ((ensureBlob w pt est malloc).snippet pt).blob
  · obtain ⟨w',same,built⟩ := buildBlob_built w pt est reloc malloc present generates
    obtain ⟨h',builds,blob,next⟩ := agrees.build there built small
    exact .inr ⟨h',w',builds,blob,agrees.blob ▸ same,next⟩
  · refine .inl ⟨?_,buildBlob_stops present generates⟩
    simp only [Generates,not_or,Option.isSome_iff_ne_none,ne_eq,not_not,agrees.blob] at generates
    have unmade : h.made = none := by
      cases made : h.made with
      | none => rfl
      | some m =>
        obtain ⟨_,code,generated,size⟩ := agrees.made m made
        have long := generate_pos generated
        omega
    simp [BlobHistory.build,unmade,generates.2]

theorem host (agrees : Agrees c pt w₀ h w) {s : Nat} {malloc : Nat → Word} {spring : Word}
    (apart : ∀ moved, springCode c s spring = some moved → ∀ x, In spring moved.length x →
      ∀ reloc code, (c.snippet pt).generate c.lib reloc h.blob = some code → ¬In h.blob code.length x)
    (small : ∀ reloc code, (c.snippet pt).generate c.lib reloc h.blob = some code → code.length ≤ 2 ^ 64)
    (moved : relocateSpring c w pt s malloc = .ok (spring,w')) :
    ∃ h', h.host c s spring = some h' ∧ Agrees c pt w₀ h' w' := by
  obtain ⟨_,_,code,made,rfl⟩ := relocateSpring_eq_ok.mp moved
  refine ⟨{h with mem := storeBytes h.mem spring code},by simp only [BlobHistory.host,made,Option.map_some],?_⟩
  constructor
  · rw [setSnippet_self]
    exact agrees.blob
  · intro unmade
    rw [setSnippet_self]
    exact agrees.unmade unmade
  · intro m found
    rw [setSnippet_self]
    exact agrees.made m found
  · intro m code' found kept generated
    obtain ⟨same,bytes⟩ := agrees.own m code' found kept generated
    refine ⟨same,(bytesAt_congr (small m.reloc code' (same ▸ generated)) fun x inside => ?_).trans bytes⟩
    rw [same] at generated inside
    exact storeBytes_outside _ _ _ _ fun there => apart code made x there m.reloc code' generated inside
  · intro x out
    change storeBytes w.mem spring code x = storeBytes h.mem spring code x
    simp only [storeBytes,agrees.mem x out]
  · refine (findSpringboard_congr (c := c) w _ ?_ ?_).trans agrees.spring
    · rw [setSnippet_self]
    · rfl
  · intro s cached
    rw [setSnippet_self] at cached
    exact agrees.sound s cached

end Agrees

/-- What a worker's run comes to, the history comes to. -/
def Tracks (c : Config) (pt : Nat) (w₀ : World) (next : Option BlobHistory) (run : Result × World) : Prop :=
  match next with
  | none => run.1 = .aborts
  | some h => Agrees c pt w₀ h run.2

theorem tracks_callInsnRun (layout : Layout c) (placed : Placed c w pt .relocInsn a) (agrees : Agrees c pt w₀ h w)
    (opcode : w.mem (c.blockOf pt).last = 0xe8 ↔ w₀.mem (c.blockOf pt).last = 0xe8 ∧ h.patched = false) :
    Tracks c pt w₀ (h.attempt c pt w₀ .relocInsn a) (callInsnRun c w pt a) := by
  have got := agrees.ask baseEstimateRelocInsnSize a.blob
  have blob : (h.ask baseEstimateRelocInsnSize a.blob).blob = a.blob baseEstimateRelocInsnSize := rfl
  simp only [BlobHistory.attempt,callInsnRun,getBlob_snippet]
  by_cases large : (c.blockOf pt).callSize < 5
  · rw [if_pos (.inl large),if_pos large]
    exact agrees
  rw [if_neg large]
  by_cases call : w.mem (c.blockOf pt).last = 0xe8
  swap
  · have other : w₀.mem (c.blockOf pt).last ≠ 0xe8 ∨ h.patched = true := by
      by_contra both
      simp only [not_or,not_not,Bool.not_eq_true] at both
      exact call (opcode.mpr both)
    rw [if_pos (.inr other),if_pos call]
    exact agrees
  have same := opcode.mp call
  rw [if_neg (by simp [large,same.1,same.2]),if_neg (not_not.mpr call),blob]
  by_cases null : a.blob baseEstimateRelocInsnSize = 0
  · rw [if_pos (.inl null),if_pos null]
    exact got
  rw [if_neg null]
  by_cases near : isDisp32 (a.blob baseEstimateRelocInsnSize - (c.blockOf pt).last) = false
  · rw [if_pos (.inr (.inl near)),if_pos (by simp [near])]
    exact got
  have near' : ¬(!isDisp32 (a.blob baseEstimateRelocInsnSize - (c.blockOf pt).last)) = true := by simpa using near
  rw [if_neg near']
  simp only [callInsnInstall]
  by_cases site : belowPage (c.blockOf pt).last = true
  · rw [if_pos (.inr (.inr site)),if_pos site]
    exact got
  have reached : ¬(a.blob baseEstimateRelocInsnSize = 0 ∨
      isDisp32 (a.blob baseEstimateRelocInsnSize - (c.blockOf pt).last) = false ∨
      belowPage (c.blockOf pt).last = true) := fun either => either.elim null fun either => either.elim near site
  rw [if_neg reached,if_neg site]
  have there : ((getBlob w pt baseEstimateRelocInsnSize a.blob).snippet pt).blob ≠ 0 := by
    rw [getBlob_snippet]
    exact null
  have ensured : Agrees c pt w₀ (h.ask baseEstimateRelocInsnSize a.blob)
      (ensureBlob (getBlob w pt baseEstimateRelocInsnSize a.blob) pt baseEstimateRelocInsnSize a.blob) := by
    rw [ensureBlob_of_blob _ _ there]
    exact got
  rcases ensured.buildBlob false null fun code generated => layout.small pt (placed.blob false code generated) with
    ⟨stops,fails⟩ | ⟨h',w',builds,kept,made,next⟩
  · rw [stops,fails]
    rfl
  rw [builds,made,blob]
  dsimp only [Option.map_some]
  rw [if_neg null]
  have done := next.setPatched (!belowPage h'.blob && (c.point pt).func.isSome && a.codePerm)
  split
  · exact done
  split
  · exact done
  split
  · exact done
  next w₂ permitted =>
    have written := done.alike (alike_permission permitted)
    have site : ∀ x, In (c.blockOf pt).last (callInsnJump (c.blockOf pt) (a.blob baseEstimateRelocInsnSize)).length x →
        HasCode c x := fun x inside => ⟨_,layout.in_last _ (Nat.le_of_not_lt large) (by rwa [length_callInsnJump] at inside)⟩
    have patched := written.alike (alike_write w₂ site)
    split
    · exact patched.alike ⟨rfl,rfl,fun _ _ => rfl⟩
    next w₃ permitted' => exact patched.alike (alike_permission permitted')

theorem tracks_installJumpToBlock (agrees : Agrees c pt w₀ h w) (there : h.blob ≠ 0) {jump : List Byte}
    (small : ∀ code, (c.snippet pt).generate c.lib true h.blob = some code → code.length ≤ 2 ^ 64)
    (fits : jump.length ≤ (c.blockOf pt).size) :
    Tracks c pt w₀ (h.build c pt true) (installJumpToBlock c w pt a jump) := by
  have present : (w.snippet pt).blob ≠ 0 := agrees.blob ▸ there
  have ensured : Agrees c pt w₀ h (ensureBlob w pt (baseEstimateRelocBlockSize (c.blockOf pt)) a.blob) := by
    rwa [ensureBlob_of_blob _ _ present]
  simp only [installJumpToBlock]
  rcases ensured.buildBlob true there small with ⟨stops,fails⟩ | ⟨h',w',builds,kept,made,next⟩
  · rw [stops,fails]
    rfl
  rw [builds,made]
  dsimp only
  split
  · exact next
  split
  · exact next
  next w₂ permitted =>
    have ready := next.alike (alike_permission permitted)
    split
    · exact ready
    split
    · exact ready
    next w₃ permitted' =>
      have site : ∀ x, In (c.blockOf pt).start jump.length x → HasCode c x := fun x inside => ⟨_,inside.widen fits⟩
      exact (ready.alike (alike_permission permitted')).alike (alike_write w₃ site)

theorem tracks_callBlockRun (layout : Layout c) (placed : Placed c w pt .relocBlk a) (agrees : Agrees c pt w₀ h w) :
    Tracks c pt w₀ (h.attempt c pt w₀ .relocBlk a) (callBlockRun c w pt a) := by
  have got := agrees.ask (baseEstimateRelocBlockSize (c.blockOf pt)) a.blob
  have blob : (h.ask (baseEstimateRelocBlockSize (c.blockOf pt)) a.blob).blob =
      a.blob (baseEstimateRelocBlockSize (c.blockOf pt)) := rfl
  simp only [BlobHistory.attempt,callBlockRun,getBlob_snippet,blob]
  by_cases null : a.blob (baseEstimateRelocBlockSize (c.blockOf pt)) = 0
  · rw [if_pos (.inl null),if_pos null]
    exact got
  rw [if_neg null]
  by_cases short : (c.blockOf pt).size < 5
  · rw [if_pos (.inr (.inl short)),if_pos short]
    exact got
  rw [if_neg short]
  have installs : ∀ jump : List Byte, jump.length ≤ (c.blockOf pt).size →
      Tracks c pt w₀ ((h.ask (baseEstimateRelocBlockSize (c.blockOf pt)) a.blob).build c pt true)
        (installJumpToBlock c (getBlob w pt (baseEstimateRelocBlockSize (c.blockOf pt)) a.blob) pt a jump) :=
    fun jump => tracks_installJumpToBlock got null fun code generated => layout.small pt (placed.blob true code generated)
  by_cases near : isDisp32 (a.blob (baseEstimateRelocBlockSize (c.blockOf pt)) - (c.blockOf pt).start - 5) = true
  · rw [if_neg fun either => either.elim null fun either =>
      either.elim short fun far => Bool.eq_false_iff.mp far.1 near,if_pos near]
    exact installs _ (by simpa using short)
  rw [if_neg near]
  by_cases room : jumpAbsSize ≤ (c.blockOf pt).size
  · rw [if_neg fun either => either.elim null fun either =>
      either.elim short fun far => Nat.not_lt.mpr room far.2,if_pos room]
    exact installs _ (by simpa [emitJumpAbs,length_emitPushImm64,jumpAbsSize] using room)
  · rw [if_pos (.inr (.inr ⟨Bool.eq_false_iff.mpr near,Nat.lt_of_not_le room⟩)),if_neg room]
    exact got

theorem tracks_trapRun (layout : Layout c) (placed : Placed c w pt .trap a) (agrees : Agrees c pt w₀ h w) :
    Tracks c pt w₀ (h.attempt c pt w₀ .trap a) (trapRun c w pt a) := by
  have registered : Agrees c pt w₀ h (registerTrap c w pt) := agrees.alike ⟨rfl,rfl,fun _ _ => rfl⟩
  simp only [BlobHistory.attempt,trapRun]
  by_cases site : belowPage (c.blockOf pt).last = true
  · rw [if_pos site,if_pos site]
    exact registered
  rw [if_neg site,if_neg site]
  have ensured := registered.ensure baseEstimateRelocInsnSize a.blob
  have blob : (h.ensure baseEstimateRelocInsnSize a.blob).blob = blobBuffer c w pt a .trap :=
    ensured.blob.symm.trans (ensureBlob_blob _ _ _ _)
  by_cases null : (h.ensure baseEstimateRelocInsnSize a.blob).blob = 0
  · rw [if_pos null,buildBlob_null _ (ensured.blob.trans null)]
    exact ensured
  rw [if_neg null]
  rcases ensured.buildBlob false null fun code generated => layout.small pt ((blob ▸ placed.blob) false code generated) with
    ⟨stops,fails⟩ | ⟨h',w',builds,kept,made,next⟩
  · rw [stops,fails]
    rfl
  rw [builds,made]
  dsimp only
  rw [if_neg null]
  split
  · exact next
  next w₂ permitted =>
    have site : ∀ x, In (c.blockOf pt).last (trapBytes c).length x → HasCode c x := fun x inside =>
      ⟨_,layout.in_last _ (Nat.le_trans (length_trapBytes c) (layout.call pt)) inside⟩
    exact (next.alike (alike_permission permitted)).alike (alike_write w₂ site)

theorem relocateSpring_error {s : Nat} {r : Result} (fails : relocateSpring c w pt s a.spring = .error r) :
    springBuffer c a s = 0 ∧ r = .faults ∨
      springBuffer c a s ≠ 0 ∧ springCode c s (springBuffer c a s) = none ∧ r = .aborts := by
  simp only [relocateSpring] at fails
  split at fails
  next null => exact .inl ⟨null,(Except.error.inj fails).symm⟩
  next there =>
    split at fails
    next none => exact .inr ⟨there,none,(Except.error.inj fails).symm⟩
    · cases fails

theorem tracks_springboardInstall (layout : Layout c) (agrees : Agrees c pt w₀ h w) (there : h.blob ≠ 0) {s : Nat}
    (ok : SpringOk c (c.blockOf pt).start s)
    (apart : ∀ moved, springCode c s (springBuffer c a s) = some moved → ∀ x, In (springBuffer c a s) moved.length x →
      ∀ reloc code, (c.snippet pt).generate c.lib reloc h.blob = some code → ¬In h.blob code.length x)
    (small : ∀ reloc code, (c.snippet pt).generate c.lib reloc h.blob = some code → code.length ≤ 2 ^ 64) :
    Tracks c pt w₀ (if belowPage h.blob = true ∨ a.blobPerm = false ∨ springBuffer c a s = 0 then some h
      else h.host c s (springBuffer c a s)) (springboardInstall c w pt s h.blob a) := by
  simp only [springboardInstall,there,decide_false,Bool.false_or]
  by_cases page : belowPage h.blob = true
  · rw [if_pos (.inl page),if_pos page]
    exact agrees
  rw [if_neg page]
  cases permitted : setMemoryPermission w h.blob (w.snippet pt).blobSize a.blobPerm with
  | none =>
    have refused : a.blobPerm = false := by
      simpa [setMemoryPermission,permits_of_page (Bool.eq_false_iff.mpr page)] using permitted
    rw [if_pos (.inr (.inl refused))]
    exact agrees
  | some w₂ =>
  have granted : a.blobPerm ≠ false := by
    rintro refused
    simp [setMemoryPermission,refused,permits] at permitted
  have ready := agrees.alike (alike_permission permitted)
  dsimp only
  cases moved : relocateSpring c w₂ pt s a.spring with
  | error r =>
    rcases relocateSpring_error moved with ⟨null,rfl⟩ | ⟨present,none,rfl⟩
    · rw [if_pos (.inr (.inr null))]
      exact ready
    · rw [if_neg fun either => either.elim page fun either => either.elim granted present]
      simp only [BlobHistory.host,none]
      rfl
  | ok pair =>
  obtain ⟨spring,w₃⟩ := pair
  obtain ⟨rfl,present,_⟩ := relocateSpring_eq_ok.mp moved
  obtain ⟨h',hosts,next⟩ := ready.host apart small moved
  rw [if_neg fun either => either.elim page fun either => either.elim granted present,hosts]
  dsimp only
  split
  · exact next
  split
  · exact next
  next w₄ permitted' =>
    have executable := next.alike (alike_permission permitted')
    split
    · exact executable
    · exact executable.alike (alike_installSpring layout ok w₄ _ _)

theorem tracks_springboardRun (layout : Layout c) (placed : Placed c w pt .springboard a) (agrees : Agrees c pt w₀ h w) :
    Tracks c pt w₀ (h.attempt c pt w₀ .springboard a) (springboardRun c w pt a) := by
  have searched := agrees.search
  have chosen := fun s => agrees.sound.chosen (s := s)
  have size := (findSpringboard_snippet (c := c) w pt).1
  simp only [BlobHistory.attempt,springboardRun,← agrees.spring]
  cases found : findSpringboard c w pt with
  | mk s w₁ =>
  rw [found] at searched chosen size
  cases s with
  | none => exact searched
  | some s =>
  have ok := chosen s rfl
  dsimp only
  have ensured := searched.ensure (baseEstimateRelocBlockSize (c.blockOf pt)) a.blob
  have blob : (h.ensure (baseEstimateRelocBlockSize (c.blockOf pt)) a.blob).blob = blobBuffer c w pt a .springboard := by
    rw [← ensured.blob,ensureBlob_blob,size]
    rfl
  by_cases null : (h.ensure (baseEstimateRelocBlockSize (c.blockOf pt)) a.blob).blob = 0
  · rw [if_pos null,buildBlob_null _ (ensured.blob.trans null)]
    exact ensured
  rw [if_neg null]
  rcases ensured.buildBlob true null fun code generated => layout.small pt ((blob ▸ placed.blob) true code generated) with
    ⟨stops,fails⟩ | ⟨h',w',builds,kept,made,next⟩
  · rw [stops,fails]
    rfl
  rw [builds,made]
  dsimp only [Option.bind_some]
  rw [← kept] at null blob ⊢
  refine tracks_springboardInstall layout next null ok ?_ ?_
  · rw [blob]
    exact fun moved relocated x inside => (placed.spring rfl s moved relocated x inside).2
  · rw [blob]
    exact fun reloc code generated => layout.small pt (placed.blob reloc code generated)

/-- Whatever an attempt comes to, the history comes to; an assertion of the generator ends both. -/
theorem tracks_worker (layout : Layout c) (placed : Placed c w pt k a) (agrees : Agrees c pt w₀ h w)
    (opcode : w.mem (c.blockOf pt).last = 0xe8 ↔ w₀.mem (c.blockOf pt).last = 0xe8 ∧ h.patched = false) :
    Tracks c pt w₀ (h.attempt c pt w₀ k a) (worker c w pt a k) := by
  cases k with
  | relocInsn => exact tracks_callInsnRun layout placed agrees opcode
  | relocBlk => exact tracks_callBlockRun layout placed agrees
  | springboard => exact tracks_springboardRun layout placed agrees
  | trap => exact tracks_trapRun layout placed agrees

theorem build_frame {reloc : Bool} (builds : h.build c pt reloc = some h') :
    h'.blob = h.blob ∧ h'.asked = h.asked ∧ h'.replaced = h.replaced ∧ h'.patched = h.patched := by
  unfold BlobHistory.build at builds
  split at builds
  · cases builds
    exact ⟨rfl,rfl,rfl,rfl⟩
  · obtain ⟨code,_,rfl⟩ := Option.map_eq_some_iff.mp builds
    exact ⟨rfl,rfl,rfl,rfl⟩

theorem ensure_patched (size : Nat) (malloc : Nat → Word) : (h.ensure size malloc).patched = h.patched := by
  unfold BlobHistory.ensure
  split <;> rfl

theorem attempt_patched (other : k ≠ .relocInsn) (next : h.attempt c pt w₀ k a = some h') : h'.patched = h.patched := by
  cases k with
  | relocInsn => exact absurd rfl other
  | relocBlk =>
    simp only [BlobHistory.attempt] at next
    split at next
    · cases next
      rfl
    · have same := (build_frame next).2.2.2
      exact same
  | trap =>
    simp only [BlobHistory.attempt] at next
    split at next
    · cases next
      rfl
    split at next
    · cases next
      exact ensure_patched _ _
    · exact (build_frame next).2.2.2.trans (ensure_patched _ _)
  | springboard =>
    simp only [BlobHistory.attempt] at next
    split at next
    · cases next
      rfl
    split at next
    · cases next
      exact ensure_patched _ _
    obtain ⟨h₁,builds,next⟩ := Option.bind_eq_some_iff.mp next
    refine Eq.trans ?_ ((build_frame builds).2.2.2.trans (ensure_patched _ _))
    split at next
    · cases next
      rfl
    · obtain ⟨moved,_,rfl⟩ := Option.map_eq_some_iff.mp next
      rfl

theorem generates_of_build (agrees : Agrees c pt w₀ h w) (h₁ : BlobHistory) {reloc : Bool} {p : Word}
    (buffer : h₁.blob = p) (same : h₁.made = h.made) (builds : h₁.build c pt reloc = some h') :
    Generates c w pt reloc p := by
  cases made : h.made with
  | some m =>
    obtain ⟨_,code,generated,size⟩ := agrees.made m made
    exact .inl (size ▸ generate_pos generated)
  | none =>
    simp only [BlobHistory.build,same,made,buffer,Option.isSome_none,Bool.false_eq_true,if_false] at builds
    obtain ⟨code,generated,_⟩ := Option.map_eq_some_iff.mp builds
    exact .inr (Option.isSome_of_mem generated)

theorem attempt_callInsn (agrees : Agrees c pt w₀ h w)
    (opcode : w.mem (c.blockOf pt).last = 0xe8 ↔ w₀.mem (c.blockOf pt).last = 0xe8 ∧ h.patched = false)
    (next : h.attempt c pt w₀ .relocInsn a = some h') :
    h'.patched = true ↔ h.patched = true ∨ Reaches c w pt a .relocInsn := by
  simp only [BlobHistory.attempt] at next
  split at next
  next skipped =>
    cases next
    refine ⟨.inl,fun either => either.elim id fun reaches => ?_⟩
    obtain ⟨_,_,large,call,_⟩ := reaches
    rcases skipped with short | other | patched
    · omega
    · exact absurd (opcode.mp call).1 other
    · exact patched
  next tested =>
  simp only [not_or,not_not,Bool.not_eq_true,Nat.not_lt] at tested
  obtain ⟨large,call,unpatched⟩ := tested
  split at next
  next stopped =>
    cases next
    refine ⟨.inl,fun either => either.elim id fun reaches => ?_⟩
    obtain ⟨there,_,_,_,near,site,_⟩ := reaches
    rcases stopped with null | far | page
    · exact absurd null there
    · exact absurd near (Bool.eq_false_iff.mp far)
    · exact absurd page (Bool.eq_false_iff.mp site)
  next reached =>
  simp only [not_or,Bool.not_eq_true,Bool.not_eq_false] at reached
  obtain ⟨there,near,site⟩ := reached
  obtain ⟨h₁,builds,rfl⟩ := Option.map_eq_some_iff.mp next
  have generates : Generates c w pt false (a.blob baseEstimateRelocInsnSize) :=
    generates_of_build agrees (h.ask baseEstimateRelocInsnSize a.blob) rfl rfl builds
  have blob : h₁.blob = a.blob baseEstimateRelocInsnSize := (build_frame builds).1
  simp only [unpatched,Bool.false_eq_true,false_or,blob,Bool.and_eq_true,Bool.not_eq_true',Reaches,blobBuffer]
  constructor
  · rintro ⟨⟨page,known⟩,granted⟩
    exact ⟨there,generates,large,opcode.mpr ⟨call,unpatched⟩,near,site,page,known,granted⟩
  · rintro ⟨_,_,_,_,_,_,page,known,granted⟩
    exact ⟨⟨page,known⟩,granted⟩

theorem opcode_failed (placed : Placed c w pt k a) (layout : Layout c) (agrees : Agrees c pt w₀ h w)
    (opcode : w.mem (c.blockOf pt).last = 0xe8 ↔ w₀.mem (c.blockOf pt).last = 0xe8 ∧ h.patched = false)
    (fails : worker c w pt a k = (.returns false,w')) (next : h.attempt c pt w₀ k a = some h') :
    w'.mem (c.blockOf pt).last = 0xe8 ↔ w₀.mem (c.blockOf pt).last = 0xe8 ∧ h'.patched = false := by
  rcases failed_cases placed fails with ⟨short,quiet⟩ | ⟨rfl,reaches,w₁,_,rfl⟩
  · have same : h'.patched = h.patched := by
      by_cases mode : k = .relocInsn
      · subst mode
        exact Bool.eq_iff_iff.mpr ((attempt_callInsn agrees opcode next).trans (or_iff_left short))
      · exact attempt_patched mode next
    rw [quiet.code _ (layout.hasCode_last pt),same]
    exact opcode
  · have patched := (attempt_callInsn agrees opcode next).mpr (.inr reaches)
    refine iff_of_false (fun call => ?_) (by simp [patched])
    have written : callInsnJump (c.blockOf pt) (a.blob baseEstimateRelocInsnSize) =
        0xe9 :: toBytes 4 ((a.blob baseEstimateRelocInsnSize - (c.blockOf pt).last -
          BitVec.ofNat 64 (c.blockOf pt).callSize).setWidth 32) := rfl
    simp [World.free,World.write,written,storeBytes] at call

theorem save_fst (agrees : Agrees c pt w₀ h w) : (save c w pt k).1 = (save c w₀ pt k).1 := by
  have spring := agrees.spring
  cases k with
  | springboard =>
    simp only [save]
    cases found : findSpringboard c w pt
    cases found₀ : findSpringboard c w₀ pt
    rw [found,found₀] at spring
    cases spring
    split <;> simp_all
  | trap | relocInsn | relocBlk => rfl

theorem Agrees.saved {ok : Bool} (agrees : Agrees c pt w₀ h w) (saves : save c w pt k = (ok,w')) :
    Agrees c pt w₀ h w' := by
  cases k with
  | springboard =>
    have searched := agrees.search
    simp only [save] at saves
    cases found : findSpringboard c w pt with
    | mk s w₁ =>
      rw [found] at saves searched
      cases s <;> cases saves <;> exact searched
  | trap | relocInsn | relocBlk =>
    cases saves
    exact agrees

theorem opcode_saved {ok : Bool} (layout : Layout c) (saves : save c w pt k = (ok,w')) :
    w'.mem (c.blockOf pt).last = w.mem (c.blockOf pt).last :=
  (quiet_saved saves).code _ (layout.hasCode_last pt)

/-- By induction on the attempts: a run of given-up ones comes to what the history comes to. -/
theorem GivenUp.agrees {before : List (InstallMethod × Answers)} (layout : Layout c) (given : GivenUp c pt w before w')
    (agrees : Agrees c pt w₀ h w)
    (opcode : w.mem (c.blockOf pt).last = 0xe8 ↔ w₀.mem (c.blockOf pt).last = 0xe8 ∧ h.patched = false) :
    ∃ h', h.follow c pt w₀ before = some h' ∧ Agrees c pt w₀ h' w' ∧
      (w'.mem (c.blockOf pt).last = 0xe8 ↔ w₀.mem (c.blockOf pt).last = 0xe8 ∧ h'.patched = false) := by
  induction given generalizing h with
  | nil w => exact ⟨h,rfl,agrees,opcode⟩
  | skipped saves later ih =>
    have skips := congrArg Prod.fst saves
    rw [save_fst agrees] at skips
    rw [BlobHistory.follow,if_neg (by simp [skips])]
    exact ih (agrees.saved saves) (opcode_saved layout saves ▸ opcode)
  | @failed w w₁ w₂ w' k a rest saves placed fails later ih =>
    have goes := congrArg Prod.fst saves
    rw [save_fst agrees] at goes
    rw [BlobHistory.follow,if_pos goes]
    have opcode₁ := opcode_saved layout saves ▸ opcode
    have tracks := tracks_worker layout placed (agrees.saved saves) opcode₁
    cases next : h.attempt c pt w₀ k a with
    | none =>
      rw [next,fails] at tracks
      cases tracks
    | some h₁ =>
      rw [next,fails] at tracks
      exact ih tracks (opcode_failed placed layout (agrees.saved saves) opcode₁ fails next)

theorem Agrees.buffer (agrees : Agrees c pt w₀ h w) : blobBuffer c w pt a k = h.buffer c pt a k := by
  cases k with
  | relocInsn | relocBlk => rfl
  | springboard | trap =>
    simp only [blobBuffer,BlobHistory.buffer,BlobHistory.ensure,agrees.blob]
    split <;> rfl

theorem relocBlock_last {lib : ArchX86} {insns : List (Word × Instruction)} {last : Word}
    (only : ∀ x ∈ insns, x.1 = last) (p : Word) : relocBlock lib insns last p = some [] := by
  induction insns generalizing p with
  | nil => rfl
  | cons x rest ih =>
    obtain ⟨here,later⟩ := List.forall_mem_cons.mp only
    simp [relocBlock,relocInsn,here,ih later]

theorem generate_onlyCall (only : BlobHistory.OnlyCall c pt) (first second : Bool) (p : Word) :
    (c.snippet pt).generate c.lib first p = (c.snippet pt).generate c.lib second p := by
  have none : relocBlock c.lib (c.snippet pt).block.insns (c.snippet pt).block.last p = some [] :=
    relocBlock_last only p
  cases first <;> cases second <;> simp [Snippet.generate,none]

/-- What an attempt finds, as the history tells it. -/
theorem Agrees.ready_iff (layout : Layout c) (agrees : Agrees c pt w₀ h w) (placed : Placed c w pt k a)
    (done : worker c w pt a k = (.returns true,w')) :
    Ready c pt w a k ↔ h.made = none ∨ h.Keeps c pt k ∨ ¬h.Keeps c pt k ∧ h.Coincides c pt k a := by
  have same : ∀ code, (c.snippet pt).generate c.lib k.reloc (h.buffer c pt a k) = some code →
      bytesAt w.mem (h.buffer c pt a k) code.length = bytesAt h.mem (h.buffer c pt a k) code.length := by
    intro code generated
    have apart := placed.blob
    rw [agrees.buffer] at apart
    exact bytesAt_congr (layout.small pt (apart _ code generated)) fun x inside =>
      agrees.mem x (apart _ code generated x inside)
  cases made : h.made with
  | none =>
    exact iff_of_true (ready_of_fresh layout agrees.sound placed done (agrees.unmade made)) (.inl rfl)
  | some m =>
  obtain ⟨there,code,generated,size⟩ := agrees.made m made
  have long := generate_pos generated
  have coincides : Ready c pt w a k ↔ h.Coincides c pt k a := by
    rw [Ready,agrees.buffer,BlobHistory.Coincides]
    refine exists_congr fun code' => and_congr_right fun generated' => ?_
    rw [same code' generated',or_iff_right (by omega)]
  have keeps : h.Keeps c pt k → h.Coincides c pt k a := by
    rintro ⟨mode,kept,m',made',agree⟩
    obtain rfl := Option.some.inj (made.symm.trans made')
    obtain ⟨buffer,bytes⟩ := agrees.own m code made kept generated
    have its : h.buffer c pt a k = m.buffer := by
      have present : h.blob ≠ 0 := buffer ▸ there
      rcases mode with rfl | rfl <;> simp only [BlobHistory.buffer,BlobHistory.ensure,if_neg present,buffer]
    refine ⟨code,?_,?_⟩
    · rw [its]
      rcases agree with same | only
      · rwa [← same]
      · rwa [generate_onlyCall only k.reloc m.reloc]
    · rw [its]
      exact bytes
  rw [coincides]
  refine ⟨fun coincides => ?_,fun either => ?_⟩
  · by_cases kept : h.Keeps c pt k
    · exact .inr (.inl kept)
    · exact .inr (.inr ⟨kept,coincides⟩)
  · rcases either with none | kept | ⟨_,coincides⟩
    · cases none
    · exact keeps kept
    · exact coincides

/-- Snippet state across worker fall-through. In every sequence of attempts on a fresh point that
succeeds, the buffer that the last one leads to holds exactly the code for its address and
mode if and only if the given-up ones generated none, or generated it in the buffer that
is still the snippet's and in the mode of a last worker that keeps the buffer (where the
block is its call alone, in either mode), or else just these bytes happen to lie there.
The worker loop makes such a sequence. -/
theorem blob_current_iff (layout : Layout c) (w : World) (fresh : w.snippet pt = .fresh)
    (attempts : List (InstallMethod × Answers)) (f : World)
    (placed : EachAttempt c pt (fun w k a => Placed c w pt k a) w attempts)
    (done : tryAttempts c pt w attempts = (.returns true,f)) :
    (∀ answers ks, tryWorkers c w pt answers ks = tryAttempts c pt w (ks.map fun k => (k,answers k))) ∧
    ∃ before k a after w₀ w₁ h, attempts = before ++ (k,a) :: after ∧ GivenUp c pt w before w₀ ∧
      save c w₀ pt k = (true,w₁) ∧ (worker c w₁ pt a k).1 = .returns true ∧ f.method pt = some k ∧
      (BlobHistory.start w).follow c pt w before = some h ∧
      (Current c pt f k ↔ h.made = none ∨ h.Keeps c pt k ∨ ¬h.Keeps c pt k ∧ h.Coincides c pt k a) := by
  refine ⟨tryWorkers_eq c pt w,?_⟩
  obtain ⟨before,k,a,after,w₀,w₁,f',split,given,saves,here,run,mem,snippet,method⟩ :=
    tryAttempts_succeeds placed done
  obtain ⟨h,comes,agrees,_⟩ := given.agrees layout (.start fresh) (by simp [BlobHistory.start])
  have found := agrees.saved saves
  refine ⟨before,k,a,after,w₀,w₁,h,split,given,saves,by rw [run],method,comes,?_⟩
  have same : Current c pt f k ↔ Current c pt f' k := by simp only [Current,mem,snippet]
  exact same.trans ((current_iff layout found.sound here run).trans (found.ready_iff layout here run))

end

/-- The first worker generates and may not change the code; the trap keeps its buffer. -/
def refusedThenTrap : List (InstallMethod × Answers) :=
  [(.relocInsn,{nearAnswers true with codePerm := false}),(.trap,nearAnswers true)]

theorem nearCall_apart {w : World} {k : InstallMethod} {a : Answers} (mode : k ≠ .springboard)
    (buffer : blobBuffer nearCall w 0 a k = 0x500000) : Placed nearCall w 0 k a where
  blob := by
    rw [buffer]
    exact (nearCall_placed true).blob
  spring := fun spring => absurd spring mode

theorem blob_current_iff_refusedThenTrap :
    Current nearCall 0 (tryAttempts nearCall 0 nearWorld refusedThenTrap).2 .trap := by
  have placed : EachAttempt nearCall 0 (fun w k a => Placed nearCall w 0 k a) nearWorld refusedThenTrap :=
    ⟨fun _ => ⟨nearCall_apart (by decide) rfl,fun _ => ⟨fun _ => ⟨nearCall_apart (by decide) (by decide +kernel),
      fun _ => trivial⟩,fun _ => trivial⟩⟩,fun no => absurd no (by decide +kernel)⟩
  have ends : (tryAttempts nearCall 0 nearWorld refusedThenTrap).1 = .returns true ∧
      (tryAttempts nearCall 0 nearWorld refusedThenTrap).2.method 0 = some .trap := by decide +kernel
  have made : ((BlobHistory.start nearWorld).follow nearCall 0 nearWorld
      [(.relocInsn,{nearAnswers true with codePerm := false})]).map (fun h => (h.made,h.replaced)) =
        some (some ⟨0x500000,600,false⟩,false) := by decide +kernel
  have done : tryAttempts nearCall 0 nearWorld refusedThenTrap =
      (.returns true,(tryAttempts nearCall 0 nearWorld refusedThenTrap).2) := by rw [← ends.1]
  obtain ⟨_,before,k,a,after,_,_,h,split,_,_,_,method,comes,current⟩ :=
    blob_current_iff nearCall_layout nearWorld rfl refusedThenTrap _ placed done
  obtain rfl : k = .trap := Option.some.inj (method.symm.trans ends.2)
  refine current.mpr (.inr (.inl ?_))
  match before,split with
  | [first],split =>
    obtain ⟨rfl,_⟩ := List.cons.inj split
    rw [comes,Option.map_some,Option.some.injEq,Prod.mk.injEq] at made
    exact ⟨.inr rfl,made.2,_,made.1,.inl rfl⟩
  | [],split => simp [refusedThenTrap] at split
  | [_,_],split => simp [refusedThenTrap] at split
  | _ :: _ :: _ :: rest,split => simp [refusedThenTrap] at split

def twoAttempts : List (InstallMethod × Answers) :=
  [(.relocInsn,nearAnswers false),(.relocBlk,⟨fun _ => 0x510000,fun _ => 0,true,true,true,true⟩)]

/-- The second worker jumps to its new buffer, in which nothing was written. -/
theorem twoAttempts_unwritten : (tryAttempts nearCall 0 nearWorld twoAttempts).1 = .returns true ∧
    (tryAttempts nearCall 0 nearWorld twoAttempts).2.method 0 = some .relocBlk ∧
    ShortJump (tryAttempts nearCall 0 nearWorld twoAttempts).2.mem 0x401000 0x510000 ∧
    ¬Current nearCall 0 (tryAttempts nearCall 0 nearWorld twoAttempts).2 .relocBlk := by
  refine ⟨by decide +kernel,by decide +kernel,⟨by decide +kernel,by decide +kernel⟩,?_⟩
  rintro ⟨code,generated,bytes⟩
  have buffer : ((tryAttempts nearCall 0 nearWorld twoAttempts).2.snippet 0).blob = 0x510000 := by decide +kernel
  have empty : (tryAttempts nearCall 0 nearWorld twoAttempts).2.mem 0x510000 = 0 := by decide +kernel
  have first : ((nearCall.snippet 0).generate nearCall.lib true 0x510000).map (·.head?) = some (some 0x57) := by
    decide +kernel
  rw [buffer] at generated bytes
  have made : (nearCall.snippet 0).generate nearCall.lib true 0x510000 = some code := generated
  rw [made,Option.map_some,Option.some.injEq] at first
  cases code with
  | nil => cases first
  | cons b rest =>
    rw [List.length_cons,bytesAt,empty,List.cons.injEq] at bytes
    rw [← bytes.1] at first
    simp at first

end SelfPropelled.Workers
