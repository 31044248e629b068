import SelfPropelled.BlobSize
import SelfPropelled.Library.Run

/-! The search for a spring block: it ends, and what it returns is as the worker needs
it but for the call block, which a tail call may be given as its own spring. -/

namespace SelfPropelled.Workers
open Machine

section
variable (c : Config)

/-- What the parser promises the search: a block it reports contains the address, and
blocks lie in the user half of the address space, above their object's base. -/
structure Mapped : Prop where
  found : ∀ cr a b, b ∈ c.obj.findBlocks cr a →
    (c.obj.block b).start.toNat ≤ (a + c.obj.loadAddr).toNat ∧
      (a + c.obj.loadAddr).toNat < (c.obj.block b).stop.toNat
  base : ∀ b, c.obj.loadAddr.toNat ≤ (c.obj.block b).start.toNat
  user : ∀ b, (c.obj.block b).start.toNat ≤ (c.obj.block b).stop.toNat ∧
    (c.obj.block b).stop.toNat < 2 ^ 47

def nextSpan (cr : Word × Word) (spanAddr : Word) : Word :=
  match (c.obj.findBlocks cr spanAddr).getLast? with
  | none => spanAddr + 1
  | some b => (c.obj.block b).stop - c.obj.loadAddr

/-- The loop through a region, without a bound on its rounds. -/
inductive Scans (isSpring : Nat → Bool) (callStart : Word) (cr : Word × Word) (upper : Word) :
    Word → Option Nat → Prop
  | found (spanAddr : Word) (b : Nat) (there : (c.obj.findBlocks cr spanAddr).getLast? = some b)
      (fits : suitable c isSpring callStart b = true) : Scans isSpring callStart cr upper spanAddr (some b)
  | next (spanAddr : Word) (r : Option Nat)
      (skip : ∀ b, (c.obj.findBlocks cr spanAddr).getLast? = some b → suitable c isSpring callStart b = false)
      (more : (nextSpan c cr spanAddr).slt upper = true)
      (rest : Scans isSpring callStart cr upper (nextSpan c cr spanAddr) r) :
      Scans isSpring callStart cr upper spanAddr r
  | done (spanAddr : Word)
      (skip : ∀ b, (c.obj.findBlocks cr spanAddr).getLast? = some b → suitable c isSpring callStart b = false)
      (last : (nextSpan c cr spanAddr).slt upper = false) :
      Scans isSpring callStart cr upper spanAddr none

/-- The blocks the loop comes to, in order, as long as none is suitable. -/
def walk (cr : Word × Word) (upper : Word) : Nat → Word → List Nat
  | 0, _ => []
  | fuel + 1, spanAddr =>
    (c.obj.findBlocks cr spanAddr).getLast?.toList ++
      if (nextSpan c cr spanAddr).slt upper then walk cr upper fuel (nextSpan c cr spanAddr) else []

end

variable {c : Config} {isSpring : Nat → Bool} {callStart upper : Word} {cr : Word × Word}

theorem scan_succ (fuel : Nat) (spanAddr : Word) :
    scan c isSpring callStart cr upper (fuel + 1) spanAddr =
      ((c.obj.findBlocks cr spanAddr).getLast?.filter (suitable c isSpring callStart)).or
        (if (nextSpan c cr spanAddr).slt upper then
          scan c isSpring callStart cr upper fuel (nextSpan c cr spanAddr) else none) := by
  cases there : (c.obj.findBlocks cr spanAddr).getLast? with
  | none => simp [scan,there,nextSpan]
  | some b =>
    cases fits : suitable c isSpring callStart b with
    | true => simp [scan,there,fits,Option.filter]
    | false => simp [scan,there,fits,Option.filter,nextSpan]

theorem scan_eq_find (fuel : Nat) (spanAddr : Word) : scan c isSpring callStart cr upper fuel spanAddr =
    (walk c cr upper fuel spanAddr).find? (suitable c isSpring callStart) := by
  induction fuel generalizing spanAddr with
  | zero => rfl
  | succ fuel ih =>
    rw [scan_succ,walk,List.find?_append]
    congr 1
    · cases (c.obj.findBlocks cr spanAddr).getLast? with
      | none => rfl
      | some b => cases fits : suitable c isSpring callStart b <;> simp [Option.filter,fits]
    · split
      · exact ih _
      · rfl

theorem nextSpan_up (mapped : Mapped c) {spanAddr : Word} (below : spanAddr.toInt < upper.toInt) :
    spanAddr.toInt < (nextSpan c cr spanAddr).toInt := by
  have one : (1 : Word).toNat = 1 := rfl
  have top := upper.isLt
  have bound := spanAddr.isLt
  rw [BitVec.toInt_eq_toNat_cond,BitVec.toInt_eq_toNat_cond] at *
  cases there : (c.obj.findBlocks cr spanAddr).getLast? with
  | none =>
    simp only [nextSpan,there,BitVec.toNat_add,one]
    omega
  | some b =>
    obtain ⟨above,inside⟩ := mapped.found cr spanAddr b (List.mem_of_getLast? there)
    have base := mapped.base b
    have user := mapped.user b
    simp only [nextSpan,there,BitVec.toNat_sub]
    rw [BitVec.toNat_add] at above inside
    omega

theorem scans_scan (mapped : Mapped c) {fuel : Nat} {spanAddr : Word}
    (below : spanAddr.toInt < upper.toInt) (enough : upper.toInt - spanAddr.toInt ≤ fuel) :
    Scans c isSpring callStart cr upper spanAddr (scan c isSpring callStart cr upper fuel spanAddr) := by
  induction fuel generalizing spanAddr with
  | zero => omega
  | succ fuel ih =>
    have up : spanAddr.toInt < (nextSpan c cr spanAddr).toInt := nextSpan_up mapped below
    rw [scan_succ]
    cases fits : (c.obj.findBlocks cr spanAddr).getLast?.filter (suitable c isSpring callStart) with
    | some b =>
      rw [Option.filter_eq_some_iff] at fits
      exact .found spanAddr b fits.1 fits.2
    | none =>
      have skip : ∀ b, (c.obj.findBlocks cr spanAddr).getLast? = some b →
          suitable c isSpring callStart b = false := by
        intro b there
        simpa [there,Option.filter_eq_none_iff] using fits
      cases more : (nextSpan c cr spanAddr).slt upper with
      | false => simpa using Scans.done spanAddr skip more
      | true =>
        have near : (nextSpan c cr spanAddr).toInt < upper.toInt := by simpa [BitVec.slt] using more
        simpa using Scans.next spanAddr _ skip more (ih near (by omega))

section
variable (c : Config)

/-- The end of the search: a short jump from the call block reaches no further. -/
def springUpper (pt : Nat) : Word :=
  127 + ((c.blockOf pt).start + 2) - BitVec.ofNat 64 jumpAbsSize - c.obj.loadAddr

def candidates (pt : Nat) : List Nat :=
  (c.obj.regions.filter (inRange (springUpper c pt - 255) (springUpper c pt))).flatMap fun cr =>
    walk c cr (springUpper c pt) 256 (springUpper c pt - 255)

/-- The search through every region it looks into comes to an end. -/
def Ends (w : World) (pt : Nat) : Prop :=
  ∀ cr ∈ c.obj.regions, Scans c w.isSpring (c.blockOf pt).start cr (springUpper c pt) (springUpper c pt - 255)
    (scan c w.isSpring (c.blockOf pt).start cr (springUpper c pt) 256 (springUpper c pt - 255))

def InObject (b : Nat) : Prop := ∃ cr ∈ c.obj.regions, ∃ a, b ∈ c.obj.findBlocks cr a

/-- What a block returned for a point's snippet is to be: in the object, without a call,
not the call block, not another snippet's, with room for two long jumps before
its last instruction, the second within reach of a short jump. -/
structure Hosts (w : World) (pt b : Nat) : Prop where
  object : InObject c b
  plain : (c.obj.block b).containsCall = false
  other : b ≠ (c.point pt).block
  fresh : ∀ q, q ≠ pt → (w.snippet q).springBlk ≠ some b
  room : 2 * jumpAbsSize ≤ ((c.obj.block b).last - (c.obj.block b).start).toNat
  near : ∃ d : Byte, (c.blockOf pt).start + 2 + d.signExtend 64 =
    (c.obj.block b).start + BitVec.ofNat 64 jumpAbsSize

/-- What a history of searches keeps: a found block is as the search wants it and marked,
and no two snippets have the same. -/
structure Searched (w : World) : Prop where
  found : ∀ p b, (w.snippet p).springBlk = some b → InObject c b ∧
    SpringOk c (c.blockOf p).start b ∧ (c.obj.block b).containsCall = false ∧ w.isSpring b = true
  unique : ∀ p q b, (w.snippet p).springBlk = some b → (w.snippet q).springBlk = some b → p = q

def search (w : World) (pt : Nat) : World := (findSpringboard c w pt).2

/-- The call block is not what the search returns: it was not found before, and it is not
suitable itself or a suitable block comes before it. -/
def Elsewhere (w : World) (pt : Nat) : Prop :=
  match (w.snippet pt).springBlk with
  | some b => b ≠ (c.point pt).block
  | none => suitable c w.isSpring (c.blockOf pt).start (c.point pt).block = true →
      ∀ before after, candidates c pt = before ++ (c.point pt).block :: after →
        ∃ b ∈ before, suitable c w.isSpring (c.blockOf pt).start b = true

end

theorem mem_walk {fuel : Nat} {spanAddr : Word} {b : Nat} (listed : b ∈ walk c cr upper fuel spanAddr) :
    ∃ a, b ∈ c.obj.findBlocks cr a := by
  induction fuel generalizing spanAddr with
  | zero => cases listed
  | succ fuel ih =>
    rw [walk,List.mem_append] at listed
    rcases listed with here | later
    · exact ⟨spanAddr,List.mem_of_getLast? (Option.mem_toList.mp here)⟩
    · split at later
      · exact ih later
      · cases later

/-- A new search takes the first suitable candidate. -/
theorem findSpringboard_eq_find {w : World} {pt : Nat} (new : (w.snippet pt).springBlk = none) :
    (findSpringboard c w pt).1 = (candidates c pt).find? (suitable c w.isSpring (c.blockOf pt).start) := by
  have first : ((c.obj.regions.filter (inRange (springUpper c pt - 255) (springUpper c pt))).findSome?
      fun cr => scan c w.isSpring (c.blockOf pt).start cr (springUpper c pt) 256 (springUpper c pt - 255)) =
        (candidates c pt).find? (suitable c w.isSpring (c.blockOf pt).start) := by
    simp only [candidates,List.find?_flatMap,scan_eq_find]
  rw [← first]
  unfold findSpringboard
  rw [new]
  simp only [springUpper]
  split
  next none => rw [none]
  next b found => rw [found]

theorem ends (mapped : Mapped c) (w : World) (pt : Nat) : Ends c w pt := by
  intro cr _
  have base := mapped.base (c.point pt).block
  have user := mapped.user (c.point pt).block
  have lower : (springUpper c pt).toInt - (springUpper c pt - 255).toInt = 255 := by
    simp only [springUpper,Config.blockOf,jumpAbsSize]
    rw [BitVec.toInt_eq_toNat_cond,BitVec.toInt_eq_toNat_cond]
    bv_omega
  exact scans_scan mapped (by omega) (by omega)

theorem inObject_candidate {pt b : Nat} (listed : b ∈ candidates c pt) : InObject c b := by
  obtain ⟨cr,region,walked⟩ := List.mem_flatMap.mp listed
  obtain ⟨a,found⟩ := mem_walk walked
  exact ⟨cr,(List.mem_filter.mp region).1,a,found⟩

theorem findSpringboard_new {w : World} {pt b : Nat} (new : (w.snippet pt).springBlk = none)
    (returned : (findSpringboard c w pt).1 = some b) :
    suitable c w.isSpring (c.blockOf pt).start b = true ∧ InObject c b ∧
      search c w pt = {w.setSnippet pt {w.snippet pt with springBlk := some b} with
        isSpring := fun q => q == b || w.isSpring q} := by
  have listed : b ∈ candidates c pt := by
    rw [findSpringboard_eq_find new] at returned
    exact List.mem_of_find?_eq_some returned
  rcases findSpringboard_cases (c := c) w pt with ⟨s,cached,_⟩ | ⟨_,eq | ⟨s,fits,eq⟩⟩
  · rw [new] at cached
    cases cached
  · rw [eq] at returned
    cases returned
  · rw [eq] at returned
    obtain rfl := Option.some.inj returned
    exact ⟨fits,inObject_candidate listed,by rw [search,eq]⟩

theorem Searched.step {w : World} (inv : Searched c w) (pt : Nat) : Searched c (search c w pt) := by
  rcases findSpringboard_cases (c := c) w pt with ⟨s,_,eq⟩ | ⟨new,eq | ⟨s,fits,eq⟩⟩
  · rw [search,eq]
    exact inv
  · rw [search,eq]
    exact inv
  · obtain ⟨_,object,state⟩ := findSpringboard_new new (by rw [eq])
    obtain ⟨ok,plain,unused⟩ := suitable_iff.mp fits
    have marked : ∀ p b, ((search c w pt).snippet p).springBlk = some b →
        p = pt ∧ b = s ∨ p ≠ pt ∧ (w.snippet p).springBlk = some b := by
      intro p b found
      rw [state] at found
      by_cases same : p = pt
      · exact .inl ⟨same,by simpa [World.setSnippet,same,eq_comm] using found⟩
      · exact .inr ⟨same,by simpa [World.setSnippet,same] using found⟩
    refine ⟨fun p b found => ?_,fun p q b first second => ?_⟩
    · rcases marked p b found with ⟨rfl,rfl⟩ | ⟨_,old⟩
      · exact ⟨object,ok,plain,by simp [state]⟩
      · obtain ⟨inside,near,call,spring⟩ := inv.found p b old
        exact ⟨inside,near,call,by simp [state,spring]⟩
    · -- a block that is found now was not marked before, so no snippet had it
      have unseen : ∀ r, (w.snippet r).springBlk ≠ some s := by
        intro r old
        have spring := (inv.found r s old).2.2.2
        rw [unused] at spring
        cases spring
      rcases marked p b first with ⟨here,same⟩ | ⟨_,old⟩
      · rcases marked q b second with ⟨there,_⟩ | ⟨_,old⟩
        · rw [here,there]
        · exact absurd (same ▸ old) (unseen q)
      · rcases marked q b second with ⟨_,same⟩ | ⟨_,old'⟩
        · exact absurd (same ▸ old) (unseen p)
        · exact inv.unique p q b old old'

theorem SpringOk.near {callStart : Word} {b : Nat} (ok : SpringOk c callStart b) : ∃ d : Byte,
    callStart + 2 + d.signExtend 64 = (c.obj.block b).start + BitVec.ofNat 64 jumpAbsSize := by
  refine ⟨((c.obj.block b).start + BitVec.ofNat 64 jumpAbsSize - (callStart + 2)).setWidth 8,?_⟩
  rw [signExtend_disp8 _ ok.1]
  ring

theorem hosts_iff {w : World} (inv : Searched c w) {pt b : Nat}
    (returned : (findSpringboard c w pt).1 = some b) : Hosts c w pt b ↔ b ≠ (c.point pt).block := by
  refine ⟨fun hosts => hosts.other,fun other => ?_⟩
  cases cached : (w.snippet pt).springBlk with
  | some s =>
    obtain rfl : s = b := by simpa [findSpringboard,cached] using returned
    obtain ⟨object,ok,plain,_⟩ := inv.found pt s cached
    exact ⟨object,plain,other,fun q differ same => differ (inv.unique q pt s same cached),
      by rw [Nat.mul_comm]; exact ok.2,ok.near⟩
  | none =>
    obtain ⟨fits,object,_⟩ := findSpringboard_new cached returned
    obtain ⟨ok,plain,unused⟩ := suitable_iff.mp fits
    refine ⟨object,plain,other,fun q _ same => ?_,by rw [Nat.mul_comm]; exact ok.2,ok.near⟩
    have spring := (inv.found q b same).2.2.2
    rw [unused] at spring
    cases spring

theorem elsewhere_iff (w : World) (pt : Nat) :
    Elsewhere c w pt ↔ (findSpringboard c w pt).1 ≠ some (c.point pt).block := by
  cases cached : (w.snippet pt).springBlk with
  | some s =>
    have returned : (findSpringboard c w pt).1 = some s := by simp [findSpringboard,cached]
    simp only [Elsewhere,cached,returned,ne_eq,Option.some.injEq]
  | none =>
    rw [findSpringboard_eq_find cached,ne_eq,List.find?_eq_some_iff_append]
    simp only [Elsewhere,cached]
    constructor
    · rintro elsewhere ⟨fits,before,after,split,none⟩
      obtain ⟨b,member,earlier⟩ := elsewhere fits before after split
      have late := none b member
      simp [earlier] at late
    · intro misses fits before after split
      by_contra none
      refine misses ⟨fits,before,after,split,fun b member => ?_⟩
      cases earlier : suitable c w.isSpring (c.blockOf pt).start b with
      | true => exact absurd ⟨b,member,earlier⟩ none
      | false => rfl

/-- The springboard search after any history of searches: it ends, and what it returns is
as it is to be exactly when the call block, which no check but the one for calls
keeps out, is not the first suitable block it comes to. -/
theorem search_sound_iff (mapped : Mapped c) (w : World) (fresh : ∀ p, (w.snippet p).springBlk = none)
    (history : List Nat) (pt : Nat) :
    let w' := Library.run (search c) w history
    (Ends c w' pt ∧ ∀ b, (findSpringboard c w' pt).1 = some b → Hosts c w' pt b) ↔ Elsewhere c w' pt := by
  intro w'
  have start : Searched c w := by
    refine ⟨fun p b found => ?_,fun p q b found _ => ?_⟩
    · rw [fresh p] at found
      cases found
    · rw [fresh p] at found
      cases found
  have inv : Searched c w' := Library.invariant_always (search c) (fun _ q kept => kept.step q) start
  rw [elsewhere_iff]
  constructor
  · rintro ⟨_,sound⟩ own
    exact (sound _ own).other rfl
  · intro elsewhere
    refine ⟨ends mapped w' pt,fun b returned => (hosts_iff inv returned).mpr fun own => elsewhere ?_⟩
    rw [returned,own]

def tailBlock : Config := {ripPoint with
  obj := {
    loadAddr := 0
    block := fun _ => ⟨0x402000,0x40202d,⟨[],0x402028,ripInsn [0xe9,0,0,0,0] 0⟩,true,false,true⟩
    regions := [(0x402000,0x403000)]
    findBlocks := fun _ a => if 0x402000 ≤ a ∧ a < 0x40202d then [0] else [] }}

theorem tailBlock_mapped : Mapped tailBlock where
  found := by
    intro cr a b listed
    have inside : (0x402000 ≤ a ∧ a < 0x40202d) ∧ b = 0 := by simpa [tailBlock] using listed
    change (0x402000 : Word).toNat ≤ (a + 0).toNat ∧ (a + 0).toNat < (0x40202d : Word).toNat
    simpa [BitVec.le_def,BitVec.lt_def] using inside.1
  base := fun b => Nat.zero_le _
  user := by
    intro b
    change (0x402000 : Word).toNat ≤ (0x40202d : Word).toNat ∧ (0x40202d : Word).toNat < 2 ^ 47
    decide

/-- The tail-call block is returned as its own spring block. -/
theorem tailBlock_own_spring : Mapped tailBlock ∧ (findSpringboard tailBlock farWorld 0).1 = some 0 ∧
    ¬Hosts tailBlock farWorld 0 0 :=
  ⟨tailBlock_mapped,by decide +kernel,fun hosts => hosts.other rfl⟩

/-- A block that calls at once, and one that can be a spring block. -/
def callAt (start : Word) : Block :=
  ⟨start,start + 5,⟨[],start,ripInsn [0xe8,0,0,0,0] 0⟩,false,true,true⟩

def springAt (start : Word) : Block :=
  ⟨start,start + 0x24,{(farSpring.obj.block 1).code with last := start + 0x23},false,false,true⟩

/-- Two calls next to each other, with a spring block before them and one behind. -/
def twoSprings : Config := {farSpring with
  obj := {
    loadAddr := 0x7f0000000000
    block := fun
      | 0 => callAt 0x7f0000402030
      | 1 => callAt 0x7f0000402038
      | 2 => springAt 0x7f0000402000
      | _ => springAt 0x7f0000402040
    regions := [(0x402000,0x402100)]
    findBlocks := fun _ a => if 0x402000 ≤ a ∧ a < 0x402024 then [2]
      else if 0x402040 ≤ a ∧ a < 0x402064 then [3] else [] }
  point := fun p => {farSpring.point p with block := if p = 0 then 0 else 1}}

theorem twoSprings_mapped : Mapped twoSprings where
  found := by
    intro cr a b listed
    simp only [twoSprings] at listed
    split at listed
    next inside =>
      obtain rfl := List.mem_singleton.mp listed
      change (0x7f0000402000 : Word).toNat ≤ (a + 0x7f0000000000).toNat ∧
        (a + 0x7f0000000000).toNat < (0x7f0000402024 : Word).toNat
      simp only [BitVec.le_def,BitVec.lt_def] at inside
      bv_omega
    next =>
      split at listed
      next inside =>
        obtain rfl := List.mem_singleton.mp listed
        change (0x7f0000402040 : Word).toNat ≤ (a + 0x7f0000000000).toNat ∧
          (a + 0x7f0000000000).toNat < (0x7f0000402064 : Word).toNat
        simp only [BitVec.le_def,BitVec.lt_def] at inside
        bv_omega
      next => cases listed
  base
    | 0 | 1 | 2 => by decide
    | _ + 3 => (by decide : (0x7f0000000000 : Word).toNat ≤ (springAt 0x7f0000402040).start.toNat)
  user
    | 0 | 1 | 2 => by decide
    | _ + 3 => (by decide : (springAt 0x7f0000402040).start.toNat ≤ (springAt 0x7f0000402040).stop.toNat ∧
        (springAt 0x7f0000402040).stop.toNat < 2 ^ 47)

/-- The first search takes the block before the calls, the next one the block behind them. -/
theorem search_sound_iff_secondSearch :
    let w := Library.run (search twoSprings) farWorld [1]
    (w.snippet 1).springBlk = some 2 ∧ Ends twoSprings w 0 ∧
      ∃ b, (findSpringboard twoSprings w 0).1 = some b ∧ Hosts twoSprings w 0 b := by
  intro w
  have call : suitable twoSprings w.isSpring (twoSprings.blockOf 0).start (twoSprings.point 0).block = false := by
    decide +kernel
  have unsearched : (w.snippet 0).springBlk = none := by decide +kernel
  have elsewhere : Elsewhere twoSprings w 0 := by
    rw [Elsewhere,unsearched]
    exact fun suits => Bool.noConfusion (call.symm.trans suits)
  have sound := (search_sound_iff twoSprings_mapped farWorld (fun _ => rfl) [1] 0).mpr elsewhere
  have returned : (findSpringboard twoSprings w 0).1 = some 3 := by decide +kernel
  exact ⟨by decide +kernel,sound.1,3,returned,sound.2 3 returned⟩

end SelfPropelled.Workers
