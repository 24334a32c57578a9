import Mathlib.Algebra.Group.Int.Defs
import Mathlib.Algebra.Group.Nat.Defs
import Mathlib.Logic.Function.Basic
import Mathlib.Tactic.Common

/-!
# Byte memory and little-endian words

A memory is a function from addresses to bytes.  Writing a list of bytes, filling a
range with one byte and storing a 32-bit word are defined one byte at a time, and
each comes with the lemma that says what every address holds afterwards.

* `Bytes.write_apply`, `Bytes.fill_apply` — the two kinds of write.
* `Bytes.word_storeWord`, `Bytes.word_congr` — a word read where it was stored, and
  where nothing has changed.
* `Bytes.getD_flatMap_ofWord` — the bytes of a list of words.
-/

/-- A byte memory. -/
abbrev Bytes := Nat → UInt8

namespace Bytes

/-- Write a list of bytes from address `a` on. -/
def write (m : Bytes) (a : Nat) : List UInt8 → Bytes
  | [] => m
  | b :: l => write (Function.update m a b) (a + 1) l

/-- Read `n` bytes from address `a` on. -/
def read (m : Bytes) (a n : Nat) : List UInt8 := (List.range n).map fun i => m (a + i)

/-- Fill `n` bytes from address `a` on with `b`. -/
def fill (m : Bytes) (a : Nat) (b : UInt8) : Nat → Bytes
  | 0 => m
  | n + 1 => fill (Function.update m a b) (a + 1) b n

/-- The word at address `a`. -/
def word (m : Bytes) (a : Nat) : Nat :=
  (m a).toNat + 256 * (m (a + 1)).toNat + 256 ^ 2 * (m (a + 2)).toNat + 256 ^ 3 * (m (a + 3)).toNat

/-- The bytes of a word. -/
def ofWord (w : Nat) : List UInt8 :=
  [.ofNat w, .ofNat (w / 256), .ofNat (w / 256 ^ 2), .ofNat (w / 256 ^ 3)]

/-- Store the word `w` at address `a`. -/
def storeWord (m : Bytes) (a w : Nat) : Bytes := m.write a (ofWord w)

variable {m m' : Bytes} {a x : Nat}

theorem write_of_lt {l : List UInt8} (hx : x < a) : m.write a l x = m x := by
  induction l generalizing m a with
  | nil => rfl
  | cons b l ih =>
      rw [write, ih (by omega)]
      exact Function.update_of_ne (by omega) _ _

theorem write_apply (l : List UInt8) : m.write a l x =
    if a ≤ x ∧ x < a + l.length then l.getD (x - a) 0 else m x := by
  induction l generalizing m a with
  | nil =>
      rw [if_neg (by simp)]
      rfl
  | cons b l ih =>
      by_cases hxa : x = a
      · subst hxa
        rw [write, write_of_lt (by omega)]
        simp
      · rw [write, ih, Function.update_of_ne hxa, List.length_cons]
        by_cases hx : a < x ∧ x < a + (l.length + 1)
        · rw [if_pos (by omega), if_pos (by omega), show x - a = (x - (a + 1)) + 1 by omega]
          rfl
        · rw [if_neg (by omega), if_neg (by omega)]

theorem write_of_ge {l : List UInt8} (hx : a + l.length ≤ x) : m.write a l x = m x := by
  rw [write_apply, if_neg (by omega)]

theorem fill_apply (b : UInt8) (n : Nat) : m.fill a b n x =
    if a ≤ x ∧ x < a + n then b else m x := by
  induction n generalizing m a with
  | zero =>
      rw [if_neg (by omega)]
      rfl
  | succ n ih =>
      rw [fill, ih]
      by_cases hxa : x = a
      · subst hxa
        rw [if_neg (by omega), if_pos (by omega), Function.update_self]
      · rw [Function.update_of_ne hxa]
        by_cases hx : a < x ∧ x < a + (n + 1)
        · rw [if_pos (by omega), if_pos (by omega)]
        · rw [if_neg (by omega), if_neg (by omega)]

@[simp] theorem length_read (n : Nat) : (m.read a n).length = n := by
  simp [read]

theorem getD_read {n i : Nat} (hi : i < n) (d : UInt8) : (m.read a n).getD i d = m (a + i) := by
  simp [read, List.getD, hi]

theorem read_add (n k : Nat) : m.read a (n + k) = m.read a n ++ m.read (a + n) k := by
  rw [read, List.range_add, List.map_append, List.map_map, read, read]
  congr 1
  refine List.map_congr_left fun i _ => ?_
  rw [Function.comp, Nat.add_assoc]

theorem read_succ (n : Nat) : m.read a (n + 1) = m a :: m.read (a + 1) n := by
  rw [Nat.add_comm, read_add]
  rfl

theorem read_congr {n : Nat} (h : ∀ i < n, m' (a + i) = m (a + i)) : m'.read a n = m.read a n :=
  List.map_congr_left fun i hi => h i (List.mem_range.1 hi)

/-- What was written is read back. -/
theorem read_write (l : List UInt8) : (m.write a l).read a l.length = l := by
  apply List.ext_getElem
  · exact length_read _
  · intro i h1 h2
    simp only [read, List.getElem_map, List.getElem_range, write_apply]
    rw [if_pos (by omega), Nat.add_sub_cancel_left, List.getD, List.getElem?_eq_getElem h2,
      Option.getD_some]

/-! ## Words -/

theorem word_lt (m : Bytes) (a : Nat) : m.word a < 2 ^ 32 := by
  have h0 := (m a).toNat_lt
  have h1 := (m (a + 1)).toNat_lt
  have h2 := (m (a + 2)).toNat_lt
  have h3 := (m (a + 3)).toNat_lt
  unfold word
  omega

theorem word_congr {b : Nat} (h : ∀ i < 4, m' (b + i) = m (a + i)) : m'.word b = m.word a := by
  have h0 := h 0 (by omega)
  rw [Nat.add_zero, Nat.add_zero] at h0
  unfold word
  rw [h0, h 1 (by omega), h 2 (by omega), h 3 (by omega)]

@[simp] theorem length_ofWord (w : Nat) : (ofWord w).length = 4 := rfl

theorem storeWord_of_ne {w : Nat} (hx : x < a ∨ a + 4 ≤ x) : m.storeWord a w x = m x := by
  rw [storeWord, write_apply, length_ofWord, if_neg (by omega)]

/-- Four bytes that are those of a word read as the word. -/
theorem word_of_bytes {w : Nat} (hw : w < 2 ^ 32) (h : ∀ i < 4, m (a + i) = (ofWord w).getD i 0) :
    m.word a = w := by
  have h0 := h 0 (by omega)
  rw [Nat.add_zero] at h0
  unfold word
  rw [h0, h 1 (by omega), h 2 (by omega), h 3 (by omega)]
  simp only [ofWord, List.getD_cons_zero, List.getD_cons_succ, UInt8.toNat_ofNat']
  omega

theorem word_storeWord {w : Nat} (hw : w < 2 ^ 32) : (m.storeWord a w).word a = w := by
  refine word_of_bytes hw fun i hi => ?_
  rw [storeWord, write_apply, length_ofWord, if_pos (by omega), Nat.add_sub_cancel_left]

/-- A word has 32 bits. -/
theorem ofWord_mod (w : Nat) : ofWord (w % 2 ^ 32) = ofWord w := by
  have hbyte : ∀ x y : Nat, x % 256 = y % 256 → UInt8.ofNat x = UInt8.ofNat y := fun x y h =>
    UInt8.toNat_inj.1 (by rw [UInt8.toNat_ofNat', UInt8.toNat_ofNat']; exact h)
  unfold ofWord
  rw [hbyte (w % 2 ^ 32) w (by omega), hbyte (w % 2 ^ 32 / 256) (w / 256) (by omega),
    hbyte (w % 2 ^ 32 / 256 ^ 2) (w / 256 ^ 2) (by omega),
    hbyte (w % 2 ^ 32 / 256 ^ 3) (w / 256 ^ 3) (by omega)]

theorem word_storeWord_mod (w : Nat) : (m.storeWord a w).word a = w % 2 ^ 32 := by
  rw [storeWord, ← ofWord_mod]
  exact word_storeWord (Nat.mod_lt _ (by decide))

theorem word_storeWord_of_ne {w b : Nat} (h : b + 4 ≤ a ∨ a + 4 ≤ b) :
    (m.storeWord a w).word b = m.word b :=
  word_congr fun i hi => storeWord_of_ne (by omega)

theorem length_flatMap_ofWord (l : List Nat) : (l.flatMap ofWord).length = 4 * l.length := by
  induction l with
  | nil => rfl
  | cons w l ih =>
      rw [List.flatMap_cons, List.length_append, ih, length_ofWord, List.length_cons]
      omega

/-- Byte `j` of word `i` of a list of words. -/
theorem getD_flatMap_ofWord {l : List Nat} {i j : Nat} (hi : i < l.length) (hj : j < 4) :
    (l.flatMap ofWord).getD (4 * i + j) 0 = (ofWord (l.getD i 0)).getD j 0 := by
  induction l generalizing i with
  | nil => cases hi
  | cons w l ih =>
      rw [List.flatMap_cons]
      cases i with
      | zero =>
          rw [Nat.mul_zero, Nat.zero_add, List.getD, List.getElem?_append_left hj]
          rfl
      | succ i =>
          rw [List.getD, List.getElem?_append_right (by rw [length_ofWord]; omega), length_ofWord,
            show 4 * (i + 1) + j - 4 = 4 * i + j by omega]
          exact ih (Nat.lt_of_succ_lt_succ hi)

end Bytes
