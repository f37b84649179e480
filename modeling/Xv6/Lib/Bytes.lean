/-
Fixed-size byte arrays with little-endian 32-bit words, as a C program sees a block buffer through a cast pointer.

`Bytes n` has exactly n bytes. Offsets are natural numbers: reading past the end gives 0 and writing past the end does
nothing, so every access of a proof carries its own bound where it matters.
-/
import Mathlib.Tactic

namespace Xv6.Lib

abbrev Byte := BitVec 8

/-- an array of n bytes -/
def Bytes (n : ℕ) : Type := Fin n → Byte

namespace Bytes

variable {n : ℕ}

/-- the array of n zero bytes -/
def zero (n : ℕ) : Bytes n := fun _ => 0

def get (b : Bytes n) (i : ℕ) : Byte := if h : i < n then b ⟨i, h⟩ else 0

def set (b : Bytes n) (i : ℕ) (v : Byte) : Bytes n := fun j => if j.val = i then v else b j

theorem get_set_self (b : Bytes n) {i : ℕ} (hi : i < n) (v : Byte) : (b.set i v).get i = v := by
  simp [get, set, hi]

theorem get_set_of_ne (b : Bytes n) {i j : ℕ} (h : j ≠ i) (v : Byte) : (b.set i v).get j = b.get j := by
  unfold get set
  split
  · simp
  · rfl

/-! ## Little-endian words at a byte offset -/

def getWord (b : Bytes n) (o : ℕ) : BitVec 32 := b.get (o + 3) ++ b.get (o + 2) ++ b.get (o + 1) ++ b.get o

def setWord (b : Bytes n) (o : ℕ) (w : BitVec 32) : Bytes n :=
  (((b.set o (w.extractLsb' 0 8)).set (o + 1) (w.extractLsb' 8 8)).set (o + 2) (w.extractLsb' 16 8)).set (o + 3)
    (w.extractLsb' 24 8)

theorem get_setWord_of_disjoint (b : Bytes n) {o i : ℕ} (h : i < o ∨ o + 4 ≤ i) (w : BitVec 32) :
    (b.setWord o w).get i = b.get i := by
  unfold setWord
  rw [get_set_of_ne _ (by omega), get_set_of_ne _ (by omega), get_set_of_ne _ (by omega), get_set_of_ne _ (by omega)]

theorem getWord_setWord_of_disjoint (b : Bytes n) {o p : ℕ} (h : p + 4 ≤ o ∨ o + 4 ≤ p) (w : BitVec 32) :
    (b.setWord o w).getWord p = b.getWord p := by
  unfold getWord
  rw [get_setWord_of_disjoint _ (by omega), get_setWord_of_disjoint _ (by omega),
    get_setWord_of_disjoint _ (by omega), get_setWord_of_disjoint _ (by omega)]

theorem append_bytes (w : BitVec 32) :
    (w.extractLsb' 24 8 ++ w.extractLsb' 16 8 ++ w.extractLsb' 8 8 ++ w.extractLsb' 0 8 : BitVec 32) = w := by
  apply BitVec.eq_of_getLsbD_eq
  intro i hi
  simp only [BitVec.getLsbD_append, BitVec.getLsbD_extractLsb']
  by_cases h1 : i < 8
  · simp [h1]
  · by_cases h2 : i - 8 < 8
    · simp [h1, h2, show 8 + (i - 8) = i by omega]
    · by_cases h3 : i - 8 - 8 < 8
      · simp [h1, h2, h3, show 16 + (i - 8 - 8) = i by omega]
      · simp [h1, h2, h3, show 24 + (i - 8 - 8 - 8) = i by omega, show i - 8 - 8 - 8 < 8 by omega]

theorem getWord_setWord_self (b : Bytes n) {o : ℕ} (h : o + 4 ≤ n) (w : BitVec 32) : (b.setWord o w).getWord o = w := by
  have h0 : (b.setWord o w).get o = w.extractLsb' 0 8 := by
    unfold setWord
    rw [get_set_of_ne _ (by omega), get_set_of_ne _ (by omega), get_set_of_ne _ (by omega),
      get_set_self _ (by omega)]
  have h1 : (b.setWord o w).get (o + 1) = w.extractLsb' 8 8 := by
    unfold setWord
    rw [get_set_of_ne _ (by omega), get_set_of_ne _ (by omega), get_set_self _ (by omega)]
  have h2 : (b.setWord o w).get (o + 2) = w.extractLsb' 16 8 := by
    unfold setWord
    rw [get_set_of_ne _ (by omega), get_set_self _ (by omega)]
  have h3 : (b.setWord o w).get (o + 3) = w.extractLsb' 24 8 := by
    unfold setWord
    rw [get_set_self _ (by omega)]
  unfold getWord
  rw [h0, h1, h2, h3]
  exact append_bytes w

end Bytes

end Xv6.Lib
