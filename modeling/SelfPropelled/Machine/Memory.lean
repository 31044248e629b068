import Mathlib

/-! Byte-addressed memory of a 64-bit little-endian machine.
Addresses wrap modulo 2^64, so a region is its start and its length and a byte
lies in it when its distance from the start is smaller than the length. -/

namespace SelfPropelled.Machine

abbrev Byte := BitVec 8
abbrev Word := BitVec 64
abbrev Memory := Word → Byte

/-- The little-endian encoding of a value in `n` bytes. -/
def toBytes {w : Nat} : Nat → BitVec w → List Byte
  | 0, _ => []
  | n + 1, v => v.setWidth 8 :: toBytes n (v >>> 8)

/-- The value of a little-endian byte list, cut to `w` bits. -/
def ofBytes (w : Nat) : List Byte → BitVec w
  | [] => 0
  | b :: bs => b.setWidth w ||| (ofBytes w bs <<< 8)

@[simp] theorem length_toBytes {w : Nat} (n : Nat) (v : BitVec w) : (toBytes n v).length = n := by
  induction n generalizing v with
  | zero => rfl
  | succ n ih => simp [toBytes,ih]

theorem getLsbD_ofBytes_toBytes {w : Nat} (n i : Nat) (v : BitVec w) :
    (ofBytes w (toBytes n v)).getLsbD i = (decide (i < 8 * n) && v.getLsbD i) := by
  induction n generalizing v i with
  | zero => simp [toBytes,ofBytes]
  | succ n ih =>
    simp only [toBytes,ofBytes,BitVec.getLsbD_or,BitVec.getLsbD_setWidth,BitVec.getLsbD_shiftLeft,
      ih,BitVec.getLsbD_ushiftRight]
    by_cases inside : i < w
    · by_cases low : i < 8
      · have below : i < 8 * (n + 1) := by omega
        simp [inside,low,below]
      · have shifted : 8 + (i - 8) = i := by omega
        have same : (i - 8 < 8 * n) = (i < 8 * (n + 1)) := by apply propext; omega
        simp [inside,low,shifted,same]
    · have beyond : v.getLsbD i = false := BitVec.getLsbD_of_ge _ _ (by omega)
      simp [inside,beyond]

theorem ofBytes_toBytes {w : Nat} (n : Nat) (v : BitVec w) (wide : w ≤ 8 * n) :
    ofBytes w (toBytes n v) = v := by
  apply BitVec.eq_of_getLsbD_eq
  intro i inside
  have below : i < 8 * n := by omega
  simp [getLsbD_ofBytes_toBytes,below]

def In (a : Word) (n : Nat) (x : Word) : Prop := (x - a).toNat < n

def Apart (a : Word) (n : Nat) (b : Word) (k : Nat) : Prop := ∀ x, In a n x → ¬In b k x

theorem Apart.symm {a b : Word} {n k : Nat} (apart : Apart a n b k) : Apart b k a n :=
  fun x second first => apart x first second

theorem Apart.mono {a a' b b' : Word} {n n' k k' : Nat} (apart : Apart a n b k)
    (left : ∀ x, In a' n' x → In a n x) (right : ∀ x, In b' k' x → In b k x) : Apart a' n' b' k' :=
  fun x first second => apart x (left x first) (right x second)

theorem In.widen {a x : Word} {n N : Nat} (inside : In a n x) (fits : n ≤ N) : In a N x :=
  Nat.lt_of_lt_of_le inside fits

theorem In.shift {a x : Word} {k n N : Nat} (inside : In (a + BitVec.ofNat 64 k) n x)
    (fits : k + n ≤ N) (small : N ≤ 2 ^ 64) : In a N x := by
  simp only [In] at *
  bv_omega

theorem apart_shift (a : Word) {i n j k : Nat} (before : i + n ≤ j) (small : j + k ≤ 2 ^ 64) :
    Apart (a + BitVec.ofNat 64 i) n (a + BitVec.ofNat 64 j) k := by
  intro x first second
  simp only [In] at *
  bv_omega

theorem apart_next (a : Word) {n k : Nat} (small : n + k ≤ 2 ^ 64) :
    Apart a n (a + BitVec.ofNat 64 n) k := by
  simpa using apart_shift a (i := 0) (n := n) (j := n) (k := k) (by omega) small

theorem in_base {a : Word} {n i : Nat} (inside : i < n) (small : n ≤ 2 ^ 64) :
    In a n (a + BitVec.ofNat 64 i) := by
  simp only [In]
  bv_omega

theorem add_ofNat (a : Word) (i j : Nat) :
    a + BitVec.ofNat 64 i + BitVec.ofNat 64 j = a + BitVec.ofNat 64 (i + j) := by
  rw [BitVec.add_assoc,BitVec.ofNat_add]

def bytesAt (m : Memory) (a : Word) : Nat → List Byte
  | 0 => []
  | n + 1 => m a :: bytesAt m (a + 1) n

def storeBytes (m : Memory) (a : Word) (bs : List Byte) : Memory :=
  fun x => (bs[(x - a).toNat]?).getD (m x)

def load (w : Nat) (m : Memory) (a : Word) : BitVec w := ofBytes w (bytesAt m a (w / 8))

def store {w : Nat} (m : Memory) (a : Word) (v : BitVec w) : Memory :=
  storeBytes m a (toBytes (w / 8) v)

@[simp] theorem length_bytesAt (m : Memory) (a : Word) (n : Nat) : (bytesAt m a n).length = n := by
  induction n generalizing a with
  | zero => rfl
  | succ n ih => simp [bytesAt,ih]

theorem getElem_bytesAt (m : Memory) (a : Word) (n i : Nat) (h : i < (bytesAt m a n).length) :
    (bytesAt m a n)[i] = m (a + BitVec.ofNat 64 i) := by
  induction n generalizing a i with
  | zero => simp at h
  | succ n ih =>
    cases i with
    | zero => simp [bytesAt]
    | succ i =>
      have step : a + 1 + BitVec.ofNat 64 i = a + BitVec.ofNat 64 (i + 1) := by bv_omega
      simp only [bytesAt,List.getElem_cons_succ,ih,step]

theorem bytesAt_congr {m m' : Memory} {a : Word} {n : Nat} (small : n ≤ 2 ^ 64)
    (same : ∀ x, In a n x → m' x = m x) : bytesAt m' a n = bytesAt m a n := by
  apply List.ext_getElem
  · simp
  · intro i left right
    simp only [length_bytesAt] at left
    rw [getElem_bytesAt,getElem_bytesAt]
    exact same _ (in_base left small)

theorem load_congr {w : Nat} {m m' : Memory} {a : Word} (small : w / 8 ≤ 2 ^ 64)
    (same : ∀ x, In a (w / 8) x → m' x = m x) : load w m' a = load w m a := by
  rw [load,load,bytesAt_congr small same]

theorem storeBytes_inside (m : Memory) (a x : Word) (bs : List Byte)
    (inside : (x - a).toNat < bs.length) : storeBytes m a bs x = bs[(x - a).toNat] := by
  simp only [storeBytes,List.getElem?_eq_getElem inside,Option.getD_some]

theorem storeBytes_outside (m : Memory) (a x : Word) (bs : List Byte)
    (outside : ¬In a bs.length x) : storeBytes m a bs x = m x := by
  simp only [storeBytes,List.getElem?_eq_none (Nat.le_of_not_lt outside),Option.getD_none]

theorem bytesAt_storeBytes (m : Memory) (a : Word) (bs : List Byte) (small : bs.length ≤ 2 ^ 64) :
    bytesAt (storeBytes m a bs) a bs.length = bs := by
  apply List.ext_getElem
  · simp
  · intro i left right
    have distance : (a + BitVec.ofNat 64 i - a).toNat = i := by bv_omega
    rw [getElem_bytesAt,storeBytes_inside _ _ _ _ (by omega)]
    simp only [distance]

/-- Two stores side by side are one store of both contents. -/
theorem storeBytes_append {m : Memory} {a b : Word} {bs cs : List Byte} (n k : Nat)
    (first : bs.length = n) (second : cs.length = k) (next : b = a + BitVec.ofNat 64 n)
    (small : n + k ≤ 2 ^ 64) :
    storeBytes (storeBytes m b cs) a bs = storeBytes m a (bs ++ cs) := by
  funext x
  subst b n k
  by_cases front : (x - a).toNat < bs.length
  · simp only [storeBytes,List.getElem?_append_left front,List.getElem?_eq_getElem front,
      Option.getD_some]
  · rw [storeBytes_outside _ _ _ _ front]
    simp only [storeBytes,List.getElem?_append_right (Nat.le_of_not_lt front)]
    by_cases back : (x - a).toNat < bs.length + cs.length
    · have after : (x - (a + BitVec.ofNat 64 bs.length)).toNat = (x - a).toNat - bs.length := by
        bv_omega
      rw [after]
    · have beyond : cs.length ≤ (x - (a + BitVec.ofNat 64 bs.length)).toNat := by bv_omega
      rw [List.getElem?_eq_none beyond,List.getElem?_eq_none (by omega)]

/-- The memories agree outside the `n` bytes at `a`. -/
def SameOutside (a : Word) (n : Nat) (m m' : Memory) : Prop := ∀ x, ¬In a n x → m' x = m x

theorem SameOutside.refl (a : Word) (n : Nat) (m : Memory) : SameOutside a n m m := fun _ _ => rfl

theorem SameOutside.trans {a : Word} {n : Nat} {m m' m'' : Memory} (first : SameOutside a n m m')
    (second : SameOutside a n m' m'') : SameOutside a n m m'' :=
  fun x outside => (second x outside).trans (first x outside)

theorem SameOutside.mono {a b : Word} {n k : Nat} {m m' : Memory} (same : SameOutside b k m m')
    (covered : ∀ x, In b k x → In a n x) : SameOutside a n m m' :=
  fun x outside => same x fun inside => outside (covered x inside)

theorem SameOutside.apart {a b : Word} {n k : Nat} {m m' : Memory} (same : SameOutside a n m m')
    (apart : Apart a n b k) : ∀ x, In b k x → m' x = m x :=
  fun x inside => same x fun other => apart x other inside

theorem sameOutside_store {w : Nat} (m : Memory) (a : Word) (v : BitVec w) :
    SameOutside a (w / 8) m (store m a v) := fun x outside =>
  storeBytes_outside m a x _ (by simpa using outside)

/-- A load reads back the value stored at its address. -/
theorem load_store {w : Nat} (m : Memory) (a : Word) (v : BitVec w) (whole : w ≤ 8 * (w / 8))
    (small : w / 8 ≤ 2 ^ 64) : load w (store m a v) a = v := by
  have same := bytesAt_storeBytes m a (toBytes (w / 8) v) (by simpa using small)
  rw [length_toBytes] at same
  rw [load,store,same,ofBytes_toBytes _ _ whole]

/-- A change elsewhere does not change what a load reads. -/
theorem load_frame {w n : Nat} {m m' : Memory} {a b : Word} (same : SameOutside a n m m')
    (apart : Apart a n b (w / 8)) (small : w / 8 ≤ 2 ^ 64) : load w m' b = load w m b :=
  load_congr small (same.apart apart)

end SelfPropelled.Machine
