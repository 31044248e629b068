import SelfPropelled.WorkerLoop

/-! Where the jump that replaces a call instruction leads. The worker tests the
distance from the call to the blob; the jump holds the distance from the end of
the call. -/

namespace SelfPropelled.Workers
open Machine

/-- What `RelocCallInsnWorker::run` checks before it installs. -/
def Accepts (c : Config) (w : World) (pt : Nat) (blob : Word) : Prop :=
  5 ≤ (c.blockOf pt).callSize ∧ w.mem (c.blockOf pt).last = 0xe8 ∧ blob ≠ 0 ∧
    isDisp32 (blob - (c.blockOf pt).last) = true

section
variable {c : Config} {w : World} {pt : Nat} {a : Answers}

theorem callInsnRun_accepts (done : (callInsnRun c w pt a).1 = .returns true) :
    Accepts c w pt (a.blob baseEstimateRelocInsnSize) ∧ callInsnRun c w pt a =
      callInsnInstall c (getBlob w pt baseEstimateRelocInsnSize a.blob) pt a := by
  by_cases small : (c.blockOf pt).callSize < 5
  · simp only [callInsnRun,if_pos small] at done
    cases done
  by_cases indirect : w.mem (c.blockOf pt).last ≠ 0xe8
  · simp only [callInsnRun,if_neg small,if_pos indirect] at done
    cases done
  by_cases null : a.blob baseEstimateRelocInsnSize = 0
  · simp only [callInsnRun,if_neg small,if_neg indirect,getBlob_snippet,if_pos null] at done
    cases done
  cases near : isDisp32 (a.blob baseEstimateRelocInsnSize - (c.blockOf pt).last) with
  | false =>
    simp only [callInsnRun,if_neg small,if_neg indirect,getBlob_snippet,if_neg null,near,Bool.not_false,
      if_true] at done
    cases done
  | true =>
    refine ⟨⟨by omega,not_not.mp indirect,null,near⟩,?_⟩
    simp only [callInsnRun,if_neg small,if_neg indirect,getBlob_snippet,if_neg null,near,Bool.not_true,
      Bool.false_eq_true,if_false]

theorem callInsnInstall_written (there : (w.snippet pt).blob ≠ 0)
    (done : (callInsnInstall c w pt a).1 = .returns true) :
    ∃ mem, (callInsnInstall c w pt a).2.mem =
      storeBytes mem (c.blockOf pt).last (callInsnJump (c.blockOf pt) (w.snippet pt).blob) := by
  have same : ensureBlob w pt baseEstimateRelocInsnSize a.blob = w := ensureBlob_of_blob _ _ there
  cases site : belowPage (c.blockOf pt).last with
  | true => simp [callInsnInstall,site] at done
  | false =>
    by_cases generates : Generates c w pt false (w.snippet pt).blob
    swap
    · have stuck : buildBlob c w pt baseEstimateRelocInsnSize false a.blob = none :=
        buildBlob_stops (by rwa [same]) (by rwa [same])
      simp [callInsnInstall,site,stuck] at done
    obtain ⟨w',builds,_⟩ := buildBlob_built (c := c) w pt baseEstimateRelocInsnSize false a.blob
      (by rwa [same]) (by rwa [same])
    rw [same] at builds
    simp only [callInsnInstall,site,builds,if_neg there,Bool.false_eq_true,if_false] at done ⊢
    cases buffer : belowPage (w.snippet pt).blob with
    | true => simp [buffer] at done
    | false =>
      cases callee : (c.point pt).func.isNone with
      | true => simp [buffer,callee] at done
      | false =>
        cases code : a.codePerm with
        | false => simp [buffer,callee,setMemoryPermission,permits_of_page site,code] at done
        | true =>
          refine ⟨w'.mem,?_⟩
          simp only [setMemoryPermission,permits_of_page site,permits_of_page buffer,
            Bool.false_eq_true,if_false,if_true]
          cases a.blobPerm <;> rfl

end

theorem callInsnJump_enters {b : Block} {blob : Word} {code : Memory} {s : State}
    (held : CodeAt code b.last (callInsnJump b blob)) (here : s.rip = b.last) :
    Enters code s (s.at (b.last + 5 +
      ((blob - b.last - BitVec.ofNat 64 b.callSize).setWidth 32).signExtend 64)) := by
  have enters := Enters.straight (s := s) .nil (encodes_jmpCut _) (by rw [here]; simpa [callInsnJump] using held) rfl
  simpa [Ctl.apply,Target.resolve,State.at,here] using enters

/-- For a distance the worker accepts, the displacement survives its 32 bits unless it
is too far down by less than an instruction's length. -/
theorem fits_of_near {d : Word} (near : isDisp32 d = true) : Fits32 (d - 5) ↔ -2147483643 ≤ d.toInt := by
  simp only [isDisp32,Bool.and_eq_true,decide_eq_true_eq] at near
  have down : (d - 5).toInt = d.toInt - 5 := by
    rw [BitVec.toInt_sub,Int.bmod_eq_of_le]
    · rfl
    · have five : (5 : Word).toInt = 5 := rfl
      omega
    · have five : (5 : Word).toInt = 5 := rfl
      omega
  rw [Fits32,down]
  omega

theorem cut_signExtend (d : BitVec 32) : (d.signExtend 64).setWidth 32 = d := by
  ext i inside
  have bound : i < 64 := by omega
  rw [BitVec.getElem_setWidth,BitVec.getLsbD_signExtend]
  simp [inside,bound]

theorem cut_eq_iff (d : Word) (n : Nat) :
    (d - BitVec.ofNat 64 n).setWidth 32 = (d - 5).setWidth 32 ↔ n % 2 ^ 32 = 5 := by
  rw [← BitVec.toNat_inj,BitVec.toNat_setWidth,BitVec.toNat_setWidth,BitVec.toNat_sub,BitVec.toNat_sub,
    BitVec.toNat_ofNat]
  have five : (5 : Word).toNat = 5 := rfl
  have bound := d.isLt
  omega

theorem callInsnJump_reaches {b : Block} {blob : Word} (near : isDisp32 (blob - b.last) = true)
    {code : Memory} {s : State} (held : CodeAt code b.last (callInsnJump b blob)) (here : s.rip = b.last) :
    (∃ t, Enters code s t ∧ t.rip = blob) ↔
      b.callSize % 2 ^ 32 = 5 ∧ -2147483643 ≤ (blob - b.last).toInt := by
  have enters := callInsnJump_enters held here
  have lands : (∃ t, Enters code s t ∧ t.rip = blob) ↔
      ((blob - b.last - BitVec.ofNat 64 b.callSize).setWidth 32).signExtend 64 = blob - b.last - 5 := by
    constructor
    · rintro ⟨t,there,rip⟩
      rw [← enters.unique there,State.at_rip] at rip
      generalize ((blob - b.last - BitVec.ofNat 64 b.callSize).setWidth 32).signExtend 64 = d at rip ⊢
      bv_omega
    · intro exact
      refine ⟨_,enters,?_⟩
      rw [State.at_rip,exact]
      bv_omega
  rw [lands,← fits_of_near near,← signExtend_setWidth_iff]
  constructor
  · intro exact
    have cut : (blob - b.last - BitVec.ofNat 64 b.callSize).setWidth 32 = (blob - b.last - 5).setWidth 32 := by
      rw [← exact,cut_signExtend]
    exact ⟨(cut_eq_iff _ _).mp cut,by rw [← cut,exact]⟩
  · rintro ⟨five,fits⟩
    rw [(cut_eq_iff _ _).mpr five,fits]

/-- The jump a run leaves over the call is the one for the accepted blob; executing it
gets to the blob exactly when the call has five bytes and the blob is at most
2147483643 bytes below it. -/
theorem callInsn_reaches_iff (c : Config) (w : World) (pt : Nat) (a : Answers) :
    let b := c.blockOf pt
    let blob := a.blob baseEstimateRelocInsnSize
    let run := callInsnRun c w pt a
    (run.1 = .returns true → Accepts c w pt blob ∧ CodeAt run.2.mem b.last (callInsnJump b blob)) ∧
    (Accepts c w pt blob → ∀ code s, CodeAt code b.last (callInsnJump b blob) → s.rip = b.last →
      ((∃ t, Enters code s t ∧ t.rip = blob) ↔
        b.callSize % 2 ^ 32 = 5 ∧ -2147483643 ≤ (blob - b.last).toInt)) := by
  refine ⟨fun done => ?_,fun accepts code s held here => callInsnJump_reaches accepts.2.2.2 held here⟩
  obtain ⟨accepts,installs⟩ := callInsnRun_accepts done
  refine ⟨accepts,?_⟩
  rw [installs] at done ⊢
  obtain ⟨mem,written⟩ := callInsnInstall_written (by simpa using accepts.2.2.1) done
  rw [written,getBlob_snippet]
  exact codeAt_storeBytes _ _ _ (by rw [length_callInsnJump]; decide)

/-- The call of `nearCall` four gigabytes up. -/
def highCall : Config := {nearCall with
  obj := {nearCall.obj with
    block := fun _ => ⟨0x100401000,0x100401005,⟨[],0x100401000,⟨[],false,false,[],[],[],[],[],none⟩⟩,
      false,true,true⟩}}

def highWorld : World := {nearWorld with mem := fun x => if x = 0x100401000 then 0xe8 else 0}

def below (distance : Word) : Answers := ⟨fun _ => 0x100401000 - distance,fun _ => 0,true,true,true,true⟩

/-- The worker accepts a blob 2147483645 bytes down, installs the jump, and the jump
does not get there. -/
theorem highCall_misses : (callInsnRun highCall highWorld 0 (below 2147483645)).1 = .returns true ∧
    ¬∃ t, Enters (callInsnRun highCall highWorld 0 (below 2147483645)).2.mem
      ⟨fun _ => 0,fun _ => 0,⟨false,false,false,false,false,false⟩,fun _ => 0,0x100401000⟩ t ∧
        t.rip = 0x80401003 := by
  have done : (callInsnRun highCall highWorld 0 (below 2147483645)).1 = .returns true := by decide +kernel
  refine ⟨done,fun reaches => ?_⟩
  obtain ⟨accepts,installs⟩ := callInsnRun_accepts done
  rw [installs] at done reaches
  obtain ⟨mem,written⟩ := callInsnInstall_written (by simpa using accepts.2.2.1) done
  rw [written,getBlob_snippet] at reaches
  have held := codeAt_storeBytes mem (highCall.blockOf 0).last (callInsnJump (highCall.blockOf 0) 0x80401003)
    (by rw [length_callInsnJump]; decide)
  have far := (callInsnJump_reaches (by decide) held rfl).mp reaches
  exact absurd far.2 (by decide)

theorem callInsn_reaches_iff_below : ∃ t, Enters (callInsnRun highCall highWorld 0 (below 2147483643)).2.mem
    ⟨fun _ => 0,fun _ => 0,⟨false,false,false,false,false,false⟩,fun _ => 0,0x100401000⟩ t ∧
      t.rip = 0x80401005 := by
  have both := callInsn_reaches_iff highCall highWorld 0 (below 2147483643)
  obtain ⟨accepts,held⟩ := both.1 (by decide +kernel)
  exact (both.2 accepts _ _ held rfl).mpr (by decide)

end SelfPropelled.Workers
