import SelfPropelled.CallContext

/-! Payloads see the context of their own call instance. -/

namespace SelfPropelled.CallContext
open Library Machine

/-- What each instruction of the save sequence may do: the store of the stack
pointer to the field, everything else inside the region at `low`. -/
def SaveStep (low : Word) (size : Nat) (loc sp : Word) (op : Op) (s : State) : Prop :=
  op.loads = false ∧
    (op = saveStore → s.reg .rax = loc ∧ s.reg .rsp = sp - 64) ∧
    (op ≠ saveStore → ∀ x, In (op.written s).1 (op.written s).2 x → In low size x)

private theorem saveStep_of_confined {low : Word} {size : Nat} {loc sp : Word} {ops : List Op} {s : State}
    (along : Along (Confined low size) ops s) (plain : saveStore ∉ ops) :
    Along (SaveStep low size loc sp) ops s :=
  along.mono fun _ member _ held => ⟨held.1,fun same => absurd (same ▸ member) plain,fun _ => held.2⟩

private theorem push_rsp {rs : List Reg} {s t : State} (plain : Reg.rsp ∉ rs) (few : rs.length ≤ 8)
    (done : applyOps (rs.map .push) s = some t) :
    t.reg .rsp = s.reg .rsp - BitVec.ofNat 64 (8 * rs.length) := by
  obtain ⟨u,pushed,p⟩ := applyOps_push rs [] s plain trivial (by simp only [List.length_nil]; omega)
  rw [pushed] at done
  cases done
  exact p.rsp

private theorem saveStore_not_push (rs : List Reg) : saveStore ∉ rs.map Op.push := by
  simp [saveStore]

private theorem saveStep_push (rs : List Reg) {low loc sp : Word} {size k : Nat} {s : State}
    (top : s.reg .rsp = low + BitVec.ofNat 64 k) (room : 8 * rs.length ≤ k) (inside : k ≤ size)
    (small : size ≤ 280) : Along (SaveStep low size loc sp) (rs.map .push) s :=
  saveStep_of_confined (confined_push rs top room inside (by omega)) (saveStore_not_push rs)

private theorem saveStep_fp {isTailCall : Bool} {low loc sp : Word} {size : Nat} {s : State}
    (top : s.reg .rsp = low + BitVec.ofNat 64 (xmmRoom isTailCall + 8))
    (inside : xmmRoom isTailCall + 8 ≤ size) (small : size ≤ 280) :
    Along (SaveStep low size loc sp) (saveFpOps isTailCall) s := by
  have room := xmmRoom_le isTailCall
  refine saveStep_of_confined ?_ (by cases isTailCall <;> decide)
  have index : Along (Confined low size)
      ([.lea .rsp ⟨some .rsp,none,-BitVec.ofNat 64 (xmmRoom isTailCall)⟩] ++ indexOps) s := by
    refine confined_registers fun op member => ?_
    simp only [indexOps,List.cons_append,List.nil_append,List.mem_cons,List.not_mem_nil,or_false] at member
    rcases member with rfl | rfl | rfl <;> exact ⟨rfl,fun _ => rfl⟩
  have addr : MemRef.addr ⟨some .rsp,none,-BitVec.ofNat 64 (xmmRoom isTailCall)⟩ s.reg = low + 8 := by
    simp only [MemRef.addr,top]
    bv_omega
  -- the area starts at the lowered stack pointer plus 8
  have lowered : ∀ t, applyOps ([.lea .rsp ⟨some .rsp,none,-BitVec.ofNat 64 (xmmRoom isTailCall)⟩] ++
      indexOps) s = some t → t.reg .rsp = low + 8 ∧ t.reg .rax = low + BitVec.ofNat 64 16 := by
    intro t done
    simp only [List.cons_append,List.nil_append,applyOps_cons,Op.apply,Option.bind_some,
      applyOps_indexOps,Option.some.injEq,addr] at done
    subst done
    refine ⟨by simp,?_⟩
    simp only [State.set_reg,if_true]
    exact add_ofNat low 8 8
  refine (index.append fun t done => ?_).append fun t done => ?_
  · exact confined_xmmStores .rax 8 (lowered t done).2 (by omega) (by omega)
  · rw [applyOps_append,Option.bind_eq_some_iff] at done
    obtain ⟨u,first,stores⟩ := done
    have still : t.reg .rsp = low + BitVec.ofNat 64 8 := by
      rw [applyOps_xmmStores_reg _ _ stores]
      exact (lowered u first).1
    exact confined_push [.rax] still (by decide) (by omega) (by omega)

theorem saveOps_confined (indirect isTailCall : Bool) (loc : Word) (s : State) :
    let size := contextSize indirect isTailCall
    Along (SaveStep (s.reg .rsp - BitVec.ofNat 64 size) size loc (s.reg .rsp))
      (saveOps indirect isTailCall loc) s := by
  intro size
  have words := wordsSize_le indirect
  have room := xmmRoom_le isTailCall
  have bound : size ≤ 280 := contextSize_le indirect isTailCall
  have total : size = wordsSize indirect + xmmRoom isTailCall + 8 := rfl
  have length : wordsSize indirect = 64 + 8 * (indirectRegs indirect).length := by
    simp only [wordsSize]
    omega
  -- the stack pointer `n` bytes down the sequence
  have down (n : Nat) (few : n ≤ size) : s.reg .rsp - BitVec.ofNat 64 n =
      s.reg .rsp - BitVec.ofNat 64 size + BitVec.ofNat 64 (size - n) := by
    bv_omega
  have general : ∀ t, applyOps (savedRegs.map .push ++ flagOps) s = some t →
      t.reg .rsp = s.reg .rsp - BitVec.ofNat 64 56 := by
    intro t done
    rw [applyOps_append,Option.bind_eq_some_iff] at done
    obtain ⟨u,first,flags⟩ := done
    rw [applyOps_flagOps] at flags
    cases flags
    have moved := push_rsp (by decide) (by decide) first
    simpa [savedRegs] using moved
  have flagged : ∀ t, applyOps (savedRegs.map .push ++ flagOps ++ [.push .rax]) s = some t →
      t.reg .rsp = s.reg .rsp - 64 := by
    intro t done
    obtain ⟨u,same,p⟩ := saveFlagged_spec s
    rw [same] at done
    cases done
    rw [p.rsp,BitVec.add_sub_cancel]
  have located : ∀ t, applyOps (savedRegs.map .push ++ flagOps ++ [.push .rax] ++ saveSpOps loc) s =
      some t → t.reg .rsp = s.reg .rsp - BitVec.ofNat 64 64 := by
    intro t done
    rw [applyOps_append,Option.bind_eq_some_iff] at done
    obtain ⟨u,first,store⟩ := done
    rw [applyOps_saveSpOps] at store
    cases store
    simpa using flagged u first
  have saved : ∀ t, applyOps (savedRegs.map .push ++ flagOps ++ [.push .rax] ++ saveSpOps loc ++
      (indirectRegs indirect).map .push) s = some t →
      t.reg .rsp = s.reg .rsp - BitVec.ofNat 64 (wordsSize indirect) := by
    intro t done
    rw [applyOps_append,Option.bind_eq_some_iff] at done
    obtain ⟨u,first,pushes⟩ := done
    rw [push_rsp (by cases indirect <;> decide) (by cases indirect <;> decide) pushes,located u first,
      length,BitVec.ofNat_add (n := 64) 64]
    bv_omega
  refine ((((Along.append ?_ ?_).append ?_).append ?_).append ?_).append ?_
  · exact saveStep_push savedRegs (k := size) (BitVec.sub_add_cancel _ _).symm
      (by simp only [savedRegs,List.length_cons,List.length_nil]; omega) (by omega) bound
  · intro t _
    refine saveStep_of_confined (confined_registers fun op member => ?_) (by decide)
    simp only [flagOps,List.mem_cons,List.not_mem_nil,or_false] at member
    rcases member with rfl | rfl <;> exact ⟨rfl,fun _ => rfl⟩
  · intro t done
    exact saveStep_push [.rax] (k := size - 56) (by rw [general t done]; exact down 56 (by omega))
      (by simp only [List.length_cons,List.length_nil]; omega) (by omega) bound
  · intro t done
    refine ⟨⟨rfl,fun same => by simp [saveStore] at same,fun _ x inside => ?_⟩,fun u first =>
      ⟨⟨rfl,fun _ => ?_,?_⟩,fun _ _ => trivial⟩⟩
    · exact absurd inside (Nat.not_lt_zero _)
    · cases first
      exact ⟨by simp,by simpa using flagged t done⟩
    · exact fun other => absurd rfl other
  · intro t done
    exact saveStep_push (indirectRegs indirect) (k := size - 64)
      (by rw [located t done]; exact down 64 (by omega)) (by omega) (by omega) bound
  · intro t done
    refine saveStep_fp ?_ (by omega) bound
    rw [saved t done,down (wordsSize indirect) (by omega),total]
    congr 2
    omega

private theorem wordsAt_get {m : Memory} {a : Word} {ws : List Word} (held : WordsAt m a ws) {i : Nat}
    {v : Word} (entry : ws[i]? = some v) : load 64 m (a + BitVec.ofNat 64 (8 * i)) = v := by
  induction ws generalizing a i with
  | nil => simp at entry
  | cons w ws ih =>
    cases i with
    | zero =>
      simp only [List.getElem?_cons_zero,Option.some.injEq] at entry
      subst entry
      simpa using held.1
    | succ i =>
      have next : a + BitVec.ofNat 64 (8 * (i + 1)) = a + 8 + BitVec.ofNat 64 (8 * i) := by bv_omega
      rw [List.getElem?_cons_succ] at entry
      rw [next]
      exact ih held.2 entry

def savedSlot (indirect : Bool) (r : Reg) : Nat :=
  (((savedRegMap r).getD 0 + (wordsSize indirect : Int) - 64) / 8).toNat

private theorem savedSlot_holds (indirect : Bool) {s : State} {r : Reg} (notSp : r ≠ .rsp)
    (keeps : r ∈ savedRegs ∨ r ∈ indirectRegs indirect) :
    ∃ offset, savedRegMap r = some offset ∧
      (savedWords indirect s)[savedSlot indirect r]? = some (s.reg r) ∧
      BitVec.ofNat 64 (8 * savedSlot indirect r) =
        BitVec.ofNat 64 (wordsSize indirect) - 64 + BitVec.ofInt 64 offset := by
  cases indirect <;> cases r <;>
    first
    | exact absurd rfl notSp
    | exact absurd keeps (by decide)
    | exact ⟨_,rfl,rfl,by decide⟩

theorem getSavedReg_own {site : Site} {s : State} {m : Memory}
    (words : WordsAt m (s.reg .rsp - BitVec.ofNat 64 (wordsSize site.indirect)) (savedWords site.indirect s))
    {r : Reg} (keeps : site.Keeps r) : getSavedReg m (s.reg .rsp - 64) r = s.reg r := by
  by_cases sp : r = .rsp
  · subst sp
    simp [getSavedReg,savedRegMap,rspOffset]
  · obtain ⟨offset,mapped,entry,place⟩ := savedSlot_holds site.indirect (s := s) sp (keeps.resolve_left sp)
    have found := wordsAt_get words entry
    simp only [getSavedReg,mapped,regVal]
    rw [place] at found
    rw [← found]
    congr 1
    bv_omega

theorem getSavedReg_saved {indirect isTailCall : Bool} {loc : Word} {s u : State}
    (saved : Saved indirect isTailCall loc s u) {r : Reg} (keeps : (Site.mk loc indirect isTailCall).Keeps r) :
    getSavedReg u.mem (s.reg .rsp - 64) r = s.reg r := by
  have base : u.reg .rsp + BitVec.ofNat 64 (xmmRoom isTailCall + 8) =
      s.reg .rsp - BitVec.ofNat 64 (wordsSize indirect) := by
    rw [saved.rsp,contextSize,Nat.add_assoc,BitVec.ofNat_add (n := 64) (wordsSize indirect)]
    ring
  have words := saved.context.words
  rw [base] at words
  exact @getSavedReg_own ⟨loc,indirect,isTailCall⟩ s u.mem words r keeps

theorem Site.keeps_argReg (site : Site) (n : Nat) : site.Keeps (argReg n) := by
  have listed : argReg n ∈ savedRegs := by
    simp only [argReg]
    split <;> decide
  exact .inr (.inl listed)

theorem ask_own {site : Site} {s : State} {m : Memory}
    (words : WordsAt m (s.reg .rsp - BitVec.ofNat 64 (wordsSize site.indirect)) (savedWords site.indirect s))
    {q : Query} (kept : q.Kept site) : q.ask m (s.reg .rsp - 64) = q.own site s := by
  cases q with
  | savedReg r => exact congrArg _ (getSavedReg_own words kept)
  | retVal => exact congrArg _ (getSavedReg_own words (.inr (.inl (by decide))))
  | argument h size =>
    by_cases small : h.num < 6
    · simp only [Query.ask,Query.own,popArgument,small,if_true,
        getSavedReg_own words (site.keeps_argReg h.num)]
    · simp only [Query.Kept,small,if_false] at kept
      obtain ⟨plain,offset⟩ := kept
      simp [Query.ask,Query.own,popArgument,small,argSlot,plain,offset,rspOffset]

section
variable {P : Type} (sites : P → Site)

/-- The state of one activation: alone in its region of the memory, it is where the
rest of the save sequence takes it to its context; once it has stored the
address the field holds it; and its payload was told about its own call. -/
structure Good (m : Memory) (a : Activation P) : Prop where
  saving : ∃ u t : State, {a.cpu with mem := u.mem} = u ∧
    (∀ x, In (a.low sites) (a.size sites) x → m x = u.mem x) ∧
    applyOps a.todo u = some t ∧
    Saved (sites a.point).indirect (sites a.point).isTailCall (sites a.point).savedContextLoc a.start t ∧
    Along (SaveStep (a.low sites) (a.size sites) (sites a.point).savedContextLoc (a.start.reg .rsp)) a.todo u
  location : saveStore ∉ a.todo →
    load 64 m (sites a.point).savedContextLoc = a.start.reg .rsp - 64
  fetched : ∀ v, a.fetched = some v → a.todo = [] ∧ v = a.start.reg .rsp - 64
  seen : ∀ o ∈ a.seen, o.2 = o.1.own (sites a.point) a.start

structure Inv (s : System P) : Prop where
  good : ∀ a ∈ s.acts, Good sites s.mem a
  apart : s.acts.Pairwise fun a b => Apart (a.low sites) (a.size sites) (b.low sites) (b.size sites)
  fields : ∀ a ∈ s.acts, ∀ q, Apart (a.low sites) (a.size sites) (sites q).savedContextLoc 8

theorem Good.frame {m m' : Memory} {a : Activation P} (good : Good sites m a)
    (own : ∀ x, In (a.low sites) (a.size sites) x → m' x = m x)
    (field : saveStore ∉ a.todo → load 64 m' (sites a.point).savedContextLoc =
      load 64 m (sites a.point).savedContextLoc) : Good sites m' a := by
  obtain ⟨u,t,cpu,same,rest⟩ := good.saving
  exact ⟨⟨u,t,cpu,fun x inside => (own x inside).trans (same x inside),rest⟩,
    fun past => (field past).trans (good.location past),good.fetched,good.seen⟩

theorem Good.words {m : Memory} {a : Activation P} (good : Good sites m a) (through : a.todo = []) :
    WordsAt m (a.start.reg .rsp - BitVec.ofNat 64 (wordsSize (sites a.point).indirect))
      (savedWords (sites a.point).indirect a.start) := by
  obtain ⟨u,t,_,same,done,saved,_⟩ := good.saving
  rw [through] at done
  cases done
  have bound := wordsSize_le (sites a.point).indirect
  have room := xmmRoom_le (sites a.point).isTailCall
  have low : u.reg .rsp = a.low sites := by
    rw [Activation.low,saved.rsp]
    exact (BitVec.add_sub_cancel _ _).symm
  have size : a.size sites = xmmRoom (sites a.point).isTailCall + 8 + wordsSize (sites a.point).indirect := by
    simp only [Activation.size,contextSize]
    omega
  have base : a.start.reg .rsp - BitVec.ofNat 64 (wordsSize (sites a.point).indirect) =
      a.low sites + BitVec.ofNat 64 (xmmRoom (sites a.point).isTailCall + 8) := by
    rw [Activation.low,size]
    bv_omega
  have held := saved.context.words
  rw [low,← base] at held
  refine held.congr (by rw [length_savedWords]; omega) fun x inside => same x ?_
  rw [length_savedWords,base] at inside
  exact inside.shift (by omega) (by omega)

theorem innermost_split {s : System P} {tid : Nat} {a : Activation P}
    (top : s.innermost tid = some a) : ∃ before after, s.acts = before ++ a :: after ∧
      ∀ f, replace tid f s.acts = before ++ f a ++ after := by
  obtain ⟨mem,acts⟩ := s
  simp only [System.innermost] at top ⊢
  induction acts with
  | nil => simp at top
  | cons b rest ih =>
    by_cases here : b.tid = tid
    · simp only [List.find?_cons,here,beq_self_eq_true,Option.some.injEq] at top
      subst top
      exact ⟨[],rest,rfl,fun f => by simp [replace,here]⟩
    · simp only [List.find?_cons,beq_eq_false_iff_ne.mpr here] at top
      obtain ⟨before,after,split,new⟩ := ih top
      exact ⟨b :: before,after,by rw [split,List.cons_append],fun f => by simp [replace,here,new]⟩

theorem Inv.update {s : System P} (inv : Inv sites s) {tid : Nat} {a a' : Activation P}
    (top : s.innermost tid = some a) (m' : Memory) {f : Activation P → List (Activation P)}
    (new : f a = [a']) (start : a'.start = a.start) (point : a'.point = a.point)
    (good : Good sites m' a') (others : ∀ b ∈ s.others tid, Good sites m' b) :
    Inv sites ⟨m',replace tid f s.acts⟩ := by
  obtain ⟨before,after,split,replaced⟩ := innermost_split top
  have size : a'.size sites = a.size sites := by simp only [Activation.size,point]
  have low : a'.low sites = a.low sites := by simp only [Activation.low,size,start]
  have apart := inv.apart
  have fields := inv.fields
  simp only [split,List.pairwise_append,List.pairwise_cons,List.forall_mem_cons,
    List.forall_mem_append] at apart fields
  simp only [System.others,replaced,List.append_nil,List.forall_mem_append] at others
  refine ⟨?_,?_,?_⟩ <;>
    simp only [replaced,new,List.append_assoc,List.singleton_append,List.pairwise_append,
      List.pairwise_cons,List.forall_mem_cons,List.forall_mem_append,size,low]
  · exact ⟨others.1,good,others.2⟩
  · exact apart
  · exact fields

theorem Inv.drop {s : System P} (inv : Inv sites s) {tid : Nat} {a : Activation P}
    (top : s.innermost tid = some a) : Inv sites ⟨s.mem,replace tid (fun _ => []) s.acts⟩ := by
  obtain ⟨before,after,split,replaced⟩ := innermost_split top
  have fewer : (before ++ after).Sublist s.acts := by
    rw [split]
    exact (List.Sublist.refl before).append (List.sublist_cons_self a after)
  simp only [replaced,List.append_nil]
  exact ⟨fun b member => inv.good b (fewer.subset member),inv.apart.sublist fewer,
    fun b member => inv.fields b (fewer.subset member)⟩

theorem Inv.others {s : System P} (inv : Inv sites s) {tid : Nat} {a : Activation P}
    (top : s.innermost tid = some a) : a ∈ s.acts ∧ ∀ b ∈ s.others tid, b ∈ s.acts ∧
      Apart (a.low sites) (a.size sites) (b.low sites) (b.size sites) := by
  obtain ⟨before,after,split,replaced⟩ := innermost_split top
  have apart := inv.apart
  simp only [split,List.pairwise_append,List.pairwise_cons,List.forall_mem_cons] at apart
  obtain ⟨_,⟨later,_⟩,across⟩ := apart
  refine ⟨by simp [split],fun b member => ?_⟩
  simp only [System.others,replaced,List.append_nil,List.mem_append] at member
  rcases member with first | last
  · exact ⟨by simp [split,first],((across b first).1).symm⟩
  · exact ⟨by simp [split,last],later b last⟩

theorem Inv.exec {s : System P} (fields : ∀ p q, p ≠ q →
      Apart (sites p).savedContextLoc 8 (sites q).savedContextLoc 8)
    (inv : Inv sites s) {tid : Nat} (alone : Undisturbed sites s (tid,.exec)) :
    Inv sites (step sites s (tid,.exec)) := by
  simp only [step]
  cases top : s.innermost tid with
  | none => exact inv
  | some a =>
    simp only
    cases more : a.todo with
    | nil => exact inv
    | cons op rest =>
      simp only
      obtain ⟨live,apart⟩ := inv.others sites top
      obtain ⟨u,t,cpu,same,done,saved,along⟩ := (inv.good a live).saving
      have own := inv.fields a live
      rw [more] at done along
      obtain ⟨⟨blind,store,inside⟩,next⟩ := along
      rw [applyOps_cons,Option.bind_eq_some_iff] at done
      obtain ⟨v,first,done⟩ := done
      obtain ⟨m',moved,written,kept,alone'⟩ := Op.apply_elsewhere blind first s.mem
      have here : ({a.cpu with mem := s.mem} : State) = {u with mem := s.mem} := by rw [← cpu]
      rw [here,moved]
      simp only
      -- the two memories stay in step inside the context
      have region : ∀ x, In (a.low sites) (a.size sites) x → m' x = v.mem x := by
        intro x inRegion
        by_cases touched : In (op.written u).1 (op.written u).2 x
        · exact written x touched
        · rw [kept x touched,alone' x touched,same x inRegion]
      by_cases isStore : op = saveStore
      · -- the field now holds this activation's address
        obtain ⟨loc,sp⟩ := store isStore
        have place : op.written u = ((sites a.point).savedContextLoc,8) := by
          simp [isStore,saveStore,Op.written,MemRef.addr,loc]
        rw [place] at kept written
        have now : load 64 m' (sites a.point).savedContextLoc = a.start.reg .rsp - 64 := by
          rw [load_congr (by decide) written,← sp]
          subst isStore
          cases first
          have read := load_store u.mem (sites a.point).savedContextLoc (u.reg .rsp) (by decide) (by decide)
          simpa [saveStore,Op.apply,MemRef.addr,loc] using read
        refine inv.update sites top m' rfl rfl rfl ?_ fun b other => ?_
        · refine ⟨⟨v,t,rfl,region,done,saved,next v first⟩,fun _ => now,fun w fetched => ?_,
            (inv.good a live).seen⟩
          have none := ((inv.good a live).fetched w fetched).1
          rw [more] at none
          cases none
        · obtain ⟨member,away⟩ := apart b other
          refine (inv.good b member).frame sites (fun x held => kept x fun touched => ?_) fun past => ?_
          · exact inv.fields b member _ x held touched
          · have elsewhere : b.point ≠ a.point := fun equal =>
              past (alone a top (by rw [more,isStore]; rfl) b other equal)
            exact load_frame kept (fields _ _ (Ne.symm elsewhere)) (by decide)
      · have frame : SameOutside (a.low sites) (a.size sites) s.mem m' :=
          kept.mono (inside isStore)
        refine inv.update sites top m' rfl rfl rfl ?_ fun b other => ?_
        · refine ⟨⟨v,t,rfl,region,done,saved,next v first⟩,fun past => ?_,fun w fetched => ?_,
            (inv.good a live).seen⟩
          · have before : saveStore ∉ a.todo := by
              rw [more]
              simp only [List.mem_cons,not_or]
              exact ⟨fun equal => isStore equal.symm,past⟩
            exact (load_frame frame (own _) (by decide)).trans ((inv.good a live).location before)
          · have none := ((inv.good a live).fetched w fetched).1
            rw [more] at none
            cases none
        · obtain ⟨member,away⟩ := apart b other
          exact (inv.good b member).frame sites (frame.apart away)
            fun _ => load_frame frame (own _) (by decide)

theorem Inv.enter {s : System P} (inv : Inv sites s) {tid : Nat} {p : P} {cpu : State}
    (respects : Respects sites s (tid,.enter p cpu)) :
    Inv sites (step sites s (tid,.enter p cpu)) := by
  obtain ⟨aligned,fields,apart⟩ := respects
  refine ⟨?_,List.pairwise_cons.mpr ⟨apart,inv.apart⟩,List.forall_mem_cons.mpr ⟨fields,inv.fields⟩⟩
  refine List.forall_mem_cons.mpr ⟨?_,inv.good⟩
  let start : State := {cpu with mem := s.mem}
  obtain ⟨t,done,saved⟩ := save_spec (sites p).indirect (sites p).isTailCall (sites p).savedContextLoc
    start aligned (fields p)
  have pending : saveStore ∈ saveSequence sites p := by
    simp [saveSequence,saveOps,saveSpOps,saveStore]
  exact ⟨⟨start,t,rfl,fun _ _ => rfl,done,saved,saveOps_confined _ _ _ start⟩,
    fun past => absurd pending past,by simp,by simp⟩

theorem Inv.write {s : System P} (inv : Inv sites s) {tid : Nat} {a : Word} {v : Byte}
    (respects : Respects sites s (tid,.write a v)) :
    Inv sites (step sites s (tid,.write a v)) := by
  obtain ⟨contexts,fields⟩ := respects
  have kept : ∀ {x y : Word} {n : Nat}, ¬In y n a → In y n x →
      (step sites s (tid,.write a v)).mem x = s.mem x := by
    intro x y n outside inside
    have other : x ≠ a := by
      rintro rfl
      exact outside inside
    simp [step,other]
  exact ⟨fun b member => (inv.good b member).frame sites (fun x => kept (contexts b member))
    fun _ => load_congr (by decide) fun x => kept (fields b.point),inv.apart,inv.fields⟩

theorem Inv.fetch {s : System P} (inv : Inv sites s) {tid : Nat} {asked : P}
    (alone : Undisturbed sites s (tid,.fetch asked)) :
    Inv sites (step sites s (tid,.fetch asked)) := by
  simp only [step]
  cases top : s.innermost tid with
  | none => exact inv
  | some a =>
    simp only
    split
    · rename_i through
      obtain ⟨live,others⟩ := inv.others sites top
      have good := inv.good a live
      refine inv.update sites top s.mem rfl rfl rfl ?_ fun b other => inv.good b (others b other).1
      refine ⟨good.saving,good.location,fun v fetched => ⟨through,?_⟩,good.seen⟩
      cases fetched
      rw [alone a top]
      exact good.location (by simp [through])
    · exact inv

theorem Inv.answer {s : System P} (inv : Inv sites s) {tid : Nat} {q : Query}
    (alone : Undisturbed sites s (tid,.answer q)) :
    Inv sites (step sites s (tid,.answer q)) := by
  simp only [step]
  cases top : s.innermost tid with
  | none => exact inv
  | some a =>
    simp only
    cases fetched : a.fetched with
    | none => exact inv
    | some loc =>
      obtain ⟨live,others⟩ := inv.others sites top
      have good := inv.good a live
      obtain ⟨through,own⟩ := good.fetched loc fetched
      refine inv.update sites top s.mem rfl rfl rfl ?_ fun b other => inv.good b (others b other).1
      refine ⟨good.saving,good.location,by simp,fun o member => ?_⟩
      rcases List.mem_append.mp member with earlier | now
      · exact good.seen o earlier
      · rw [List.mem_singleton.mp now,own]
        exact ask_own (good.words sites through) (alone a top)

theorem Inv.step (fields : ∀ p q, p ≠ q →
      Apart (sites p).savedContextLoc 8 (sites q).savedContextLoc 8) {s : System P} {input : Nat × Act P}
    (inv : Inv sites s) (ok : Respects sites s input ∧ Undisturbed sites s input) :
    Inv sites (step sites s input) := by
  obtain ⟨tid,act⟩ := input
  cases act with
  | enter p cpu => exact inv.enter sites ok.1
  | exec => exact inv.exec sites fields ok.2
  | fetch asked => exact inv.fetch sites ok.2
  | answer q => exact inv.answer sites ok.2
  | leave =>
    simp only [CallContext.step]
    cases top : s.innermost tid with
    | none => exact inv
    | some a => exact inv.drop sites top
  | write a v => exact inv.write sites ok.1

/-- In every interleaving of any number of threads in which no two activations of
one point overlap from their store to the field on, and payloads ask the point
they run for what it keeps, every answer is about the payload's own call. -/
theorem context_isolated (fields : ∀ p q, p ≠ q →
      Apart (sites p).savedContextLoc 8 (sites q).savedContextLoc 8) (m : Memory)
    (inputs : List (Nat × Act P))
    (met : Meets (step sites) (fun s input => Respects sites s input ∧ Undisturbed sites s input)
      ⟨m,[]⟩ inputs) :
    ∀ a ∈ (run (step sites) ⟨m,[]⟩ inputs).acts, ∀ o ∈ a.seen, o.2 = o.1.own (sites a.point) a.start := by
  have start : Inv sites ⟨m,[]⟩ := ⟨by simp,by simp,by simp⟩
  have after := invariant_run (step sites) _ (fun s input inv ok => inv.step sites fields ok) start met
  exact fun a live => (after.good a live).seen

end

def onePoint (_ : Unit) : Site := ⟨0x1000,false,false⟩

/-- A thread at the point, with its own stack and its own first argument. -/
def caller (sp argument : Word) : State where
  reg r := match r with | .rsp => sp | .rdi => argument | _ => 0
  xmm _ := 0
  flags := ⟨false,false,false,false,false,false⟩
  mem _ := 0
  rip := 0

def noActivation : System Unit := ⟨fun _ => 0,[]⟩

theorem exec_alone (n : Nat) {s : System Unit} {a : Activation Unit} (single : s.acts = [a]) :
    Meets (step onePoint) (fun s input => Respects onePoint s input ∧ Undisturbed onePoint s input) s
      (List.replicate n (a.tid,.exec)) ∧
    ∃ a', (run (step onePoint) s (List.replicate n (a.tid,.exec))).acts = [a'] ∧
      a'.tid = a.tid ∧ a'.start = a.start := by
  induction n generalizing s a with
  | zero => exact ⟨trivial,a,single,rfl,rfl⟩
  | succ n ih =>
    have nobody : s.others a.tid = [] := by simp [System.others,single,replace]
    obtain ⟨b,moved,tid,start⟩ : ∃ b, (step onePoint s (a.tid,.exec)).acts = [b] ∧ b.tid = a.tid ∧
        b.start = a.start := by
      have top : s.innermost a.tid = some a := by simp [System.innermost,single]
      simp only [step,top]
      split
      · exact ⟨a,single,rfl,rfl⟩
      · split
        · exact ⟨a,single,rfl,rfl⟩
        · rename_i op rest _ _ t _
          exact ⟨{a with cpu := t, todo := rest},by simp [replace,single],rfl,rfl⟩
    have more := ih moved
    rw [tid,start] at more
    exact ⟨⟨⟨trivial,fun _ _ _ b other => by simp [nobody] at other⟩,more.1⟩,more.2⟩

def undisturbed : List (Nat × Act Unit) :=
  (0,.enter () (caller 0x8000 1)) :: (List.replicate 24 (0,.exec) ++
    [(0,.fetch ()),(0,.answer (.argument ⟨0,0⟩ 8))])

theorem context_isolated_undisturbed :
    (run (step onePoint) noActivation undisturbed).acts.length = 1 ∧
    ∀ a ∈ (run (step onePoint) noActivation undisturbed).acts,
      ∀ o ∈ a.seen, o.2 = o.1.own (onePoint a.point) a.start := by
  have saves := exec_alone 24 (s := step onePoint noActivation (0,.enter () (caller 0x8000 1))) rfl
  refine ⟨by decide +kernel,context_isolated onePoint (fun p q other => absurd rfl other) _ _
    ⟨⟨⟨rfl,fun q x inside field => ?_,fun b none => absurd none List.not_mem_nil⟩,trivial⟩,?_⟩⟩
  · simp only [In,caller,onePoint,show contextSize false false = 208 from rfl] at inside field
    bv_omega
  · refine (meets_append _ _).mpr ⟨saves.1,⟨trivial,fun _ _ => rfl⟩,⟨trivial,fun _ _ => ?_⟩,trivial⟩
    exact Nat.le_refl 8

/-- Thread 0 is in its payload when thread 1 comes to the same point. -/
def overlapping : List (Nat × Act Unit) :=
  (0,.enter () (caller 0x8000 1)) :: (List.replicate 24 (0,.exec) ++
    (1,.enter () (caller 0x9000 2)) :: (List.replicate 12 (1,.exec) ++
      [(0,.fetch ()),(0,.answer (.argument ⟨0,0⟩ 8))]))

/-- Thread 0's payload is told thread 1's argument. -/
theorem context_observed_overlapping :
    Meets (step onePoint) (Respects onePoint) noActivation overlapping ∧
    ∃ a ∈ (run (step onePoint) noActivation overlapping).acts,
      ∃ o ∈ a.seen, o.2 ≠ o.1.own (onePoint a.point) a.start := by
  refine ⟨?_,by decide +kernel⟩
  have size : contextSize false false = 208 := rfl
  obtain ⟨met,b,live,_,start⟩ := exec_alone 24
    (s := step onePoint noActivation (0,.enter () (caller 0x8000 1))) rfl
  refine ⟨⟨rfl,fun q x inside field => ?_,fun b none => absurd none List.not_mem_nil⟩,?_⟩
  · simp only [In,caller,onePoint,size] at inside field
    bv_omega
  · refine (meets_append _ _).mpr ⟨met.mono _ _ fun _ _ => And.left,⟨rfl,fun q x inside field => ?_,?_⟩,?_⟩
    · simp only [In,caller,onePoint,size] at inside field
      bv_omega
    · intro other member x inside held
      have same := (congrArg (other ∈ ·) live).mp member
      cases List.mem_singleton.mp same
      simp only [In,caller,onePoint,Activation.low,Activation.size,start,size] at inside held
      bv_omega
    · simp [Meets,Respects,List.replicate]

end SelfPropelled.CallContext
