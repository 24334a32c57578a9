import Wl00.Lib.Numeral

/-!
# Printing integers

The kernel has two functions that print an integer and the user library one.  Each fills a
buffer of its own size with digits, lowest first, and prints it backwards; here an index that
leaves its array gives none.

* `putDigits_eq` — what the buffer holds after the division loop, and that it fits.
* `printing_canonical` — each of the three prints the canonical numeral.
-/

namespace Wl00.Clib

open Numeral

/-! ## The functions -/

/-- `digits` -/
def digits : List Char := "0123456789abcdef".toList

/-- `nums[i++] = c`, in a buffer of `size` characters of which `i` are in use -/
def push (size : Nat) (nums : List Char) (c : Char) : Option (List Char) :=
  if nums.length < size then some (nums ++ [c]) else none

/-- `do { nums[i++] = digits[n % base]; n /= base; } while (n != 0);`.  After `size` rounds the
buffer is full. -/
def digitLoop (size : Nat) (base : BitVec 32) : Nat → BitVec 32 → List Char → Option (List Char)
  | 0, _, _ => none
  | fuel + 1, n, nums => do
      let c ← digits[(n % base).toNat]?
      let nums ← push size nums c
      if n / base ≠ 0 then digitLoop size base fuel (n / base) nums else some nums

/-- The loop from the start; division by zero is undefined. -/
def putDigits (size : Nat) (base n : BitVec 32) : Option (List Char) :=
  if base = 0 then none else digitLoop size base (size + 1) n []

/-- `while (--i >= 0) putchar(nums[i]);` and `while (i > 0) putchar(nums[--i]);` -/
def putBack (nums : List Char) : Nat → Option (List Char)
  | 0 => some []
  | i + 1 => do
      let c ← nums[i]?
      let out ← putBack nums i
      some (c :: out)

/-- The magnitude of `x`, a sign if `negative`, and all of it backwards; both versions of
`printint` go on like this once they know the sign. -/
def printSigned (size : Nat) (base : BitVec 32) (negative : Bool) (x : BitVec 32) :
    Option (List Char) := do
  let nums ← putDigits size base (if negative then -x else x)
  let nums ← if negative then push size nums '-' else some nums
  putBack nums nums.length

/-- `error` -/
def error (str : String) : List Char := "error: ".toList ++ str.toList ++ ['\n']

namespace Kernel

/-- `print_uint` in `kprint.c` -/
def printUint (num : BitVec 32) (base : BitVec 8) : Option (List Char) := do
  let nums ← putDigits 32 (base.setWidth 32) num
  putBack nums nums.length

/-- `printint` in `kprint.c` -/
def printint (num : BitVec 32) (base : BitVec 8) : Option (List Char) :=
  if ¬(base = 2 ∨ base = 8 ∨ base = 10 ∨ base = 16) then some (error "printint: invalid base")
  else printSigned 34 (base.setWidth 32) (decide (num.toInt < 0)) num

end Kernel

/-- `printint` in `printf.c` -/
def User.printint (x base : BitVec 32) (sign : Bool) : Option (List Char) :=
  printSigned 12 base (sign && decide (x.toInt < 0)) x

/-! ## The loops -/

theorem digits_getElem {d : Nat} (hd : d < 16) : digits[d]? = some (digitChar d) := by
  interval_cases d <;> rfl

theorem putBack_append (nums l : List Char) : putBack (nums ++ l) nums.length = some nums.reverse := by
  induction nums using List.reverseRecOn generalizing l with
  | nil => rfl
  | append_singleton nums c ih =>
      rw [List.length_append, List.length_singleton, putBack, List.append_assoc,
        List.getElem?_append_right (Nat.le_refl _), Nat.sub_self, ih]
      simp

/-- The buffer is printed backwards. -/
theorem putBack_length (nums : List Char) : putBack nums nums.length = some nums.reverse := by
  simpa using putBack_append nums []

section Loop

variable {size : Nat} {base : BitVec 32}

theorem digitLoop_eq (hb : 1 < base.toNat) (hb' : base.toNat ≤ 16) {fuel : Nat} {n : BitVec 32}
    {nums : List Char} (hfuel : (lowDigits base.toNat n.toNat).length ≤ fuel)
    (hsize : nums.length + (lowDigits base.toNat n.toNat).length ≤ size) :
    digitLoop size base fuel n nums =
      some (nums ++ (lowDigits base.toNat n.toNat).map digitChar) := by
  induction fuel generalizing n nums with
  | zero =>
      have hne := lowDigits_ne_nil base.toNat n.toNat
      rw [Nat.le_zero, List.length_eq_zero_iff] at hfuel
      exact absurd hfuel hne
  | succ fuel ih =>
      have hmod : (n % base).toNat = n.toNat % base.toNat := BitVec.toNat_umod
      have hdiv : (n / base).toNat = n.toNat / base.toNat := BitVec.toNat_udiv
      have hlt : n.toNat % base.toNat < 16 := (Nat.mod_lt _ (by omega)).trans_le hb'
      have hzero : n / base = 0 ↔ n.toNat / base.toNat = 0 := by
        rw [← hdiv]
        exact ⟨fun h => by rw [h]; rfl, fun h => BitVec.eq_of_toNat_eq h⟩
      rw [lowDigits_eq hb] at hfuel hsize ⊢
      rw [List.length_cons] at hfuel hsize
      rw [digitLoop, hmod, digits_getElem hlt]
      simp only [Option.bind_eq_bind, Option.bind_some, push]
      rw [if_pos (by omega), Option.bind_some]
      by_cases h0 : n / base = 0
      · rw [if_neg (not_not.2 h0), if_pos (hzero.1 h0)]
        rfl
      · rw [if_neg fun h => h0 (hzero.2 h)] at hfuel hsize ⊢
        rw [if_pos h0, ih]
        · simp [hdiv]
        · rw [hdiv]
          omega
        · rw [hdiv, List.length_append, List.length_singleton]
          omega

/-- **The buffer holds the digits**, if they fit. -/
theorem putDigits_eq (hb : 1 < base.toNat) (hb' : base.toNat ≤ 16) {n : BitVec 32}
    (hsize : (lowDigits base.toNat n.toNat).length ≤ size) :
    putDigits size base n = some ((lowDigits base.toNat n.toNat).map digitChar) := by
  have h0 : base ≠ 0 := by
    rintro rfl
    exact absurd hb (by decide)
  rw [putDigits, if_neg h0, digitLoop_eq hb hb' (by omega) (by simpa using hsize)]
  rfl

end Loop

/-- What is printed of a number and its sign. -/
theorem printSigned_eq {size : Nat} {base : BitVec 32} (hb : 1 < base.toNat) (hb' : base.toNat ≤ 16)
    {negative : Bool} {x : BitVec 32} {n : Nat} (hn : (if negative then -x else x).toNat = n)
    (hsize : (lowDigits base.toNat n).length < size) :
    printSigned size base negative x =
      some (if negative then '-' :: natNumeral base.toNat n else natNumeral base.toNat n) := by
  subst hn
  rw [printSigned, putDigits_eq hb hb' (Nat.le_of_lt hsize)]
  simp only [Option.bind_eq_bind, Option.bind_some]
  cases negative with
  | false => exact putBack_length _
  | true =>
      simp only [if_true, push, List.length_map] at hsize ⊢
      rw [if_pos hsize, Option.bind_some, putBack_length, List.reverse_append]
      rfl

/-! ## The three functions -/

theorem toNat_magnitude (x : BitVec 32) :
    (if decide (x.toInt < 0) then -x else x).toNat = x.toInt.natAbs := by
  have hlt := x.isLt
  have hint := BitVec.toInt_eq_toNat_cond x
  by_cases hx : x.toInt < 0
  · rw [decide_eq_true hx, if_pos rfl, BitVec.toNat_neg]
    split_ifs at hint <;> omega
  · rw [decide_eq_false hx, if_neg Bool.false_ne_true]
    split_ifs at hint <;> omega

/-- A 32-bit number has at most 32 digits, and at most 10 from base 10 on. -/
theorem length_lowDigits_word {b n : Nat} (hn : n < 2 ^ 32) :
    (2 ≤ b → (lowDigits b n).length ≤ 32) ∧ (10 ≤ b → (lowDigits b n).length ≤ 10) := by
  refine ⟨fun hb => length_lowDigits (by omega) (by decide) ?_,
    fun hb => length_lowDigits (by omega) (by decide) ?_⟩
  · exact hn.trans_le (Nat.pow_le_pow_left hb 32)
  · calc n < 2 ^ 32 := hn
      _ ≤ 10 ^ 10 := by decide
      _ ≤ b ^ 10 := Nat.pow_le_pow_left hb 10

theorem Kernel.printint_eq {x : BitVec 32} {base : BitVec 8}
    (hbase : base = 2 ∨ base = 8 ∨ base = 10 ∨ base = 16) :
    printint x base = some (numeral base.toNat x.toInt) := by
  obtain ⟨hw, h1, h2⟩ : (base.setWidth 32).toNat = base.toNat ∧ 1 < base.toNat ∧ base.toNat ≤ 16 := by
    rcases hbase with rfl | rfl | rfl | rfl <;> decide
  have hmag := toNat_magnitude x
  have hlen := (length_lowDigits_word (b := base.toNat) (hmag ▸ BitVec.isLt _)).1 (by omega)
  rw [printint, if_neg (not_not.2 hbase),
    printSigned_eq (by omega) (by omega) hmag (by rw [hw]; omega), hw, numeral]
  simp only [decide_eq_true_eq]

theorem Kernel.printUint_eq {x : BitVec 32} {base : BitVec 8} (hbase : base = 10 ∨ base = 16) :
    printUint x base = some (numeral base.toNat x.toNat) := by
  obtain ⟨hw, h1, h2⟩ : (base.setWidth 32).toNat = base.toNat ∧ 1 < base.toNat ∧ base.toNat ≤ 16 := by
    rcases hbase with rfl | rfl <;> decide
  have hlen := (length_lowDigits_word (b := base.toNat) x.isLt).1 (by omega)
  rw [printUint, putDigits_eq (by omega) (by omega) (by rw [hw]; exact hlen), hw]
  simp only [Option.bind_eq_bind, Option.bind_some]
  rw [putBack_length, numeral, if_neg (by omega), Int.natAbs_natCast]
  rfl

theorem User.printint_signed (x : BitVec 32) : printint x 10 true = some (numeral 10 x.toInt) := by
  have hmag := toNat_magnitude x
  have hlen := (length_lowDigits_word (b := 10) (hmag ▸ BitVec.isLt _)).2 (by omega)
  rw [printint, Bool.true_and,
    printSigned_eq (by decide) (by decide) hmag (Nat.lt_of_le_of_lt hlen (by decide)), numeral]
  simp only [decide_eq_true_eq]
  rfl

theorem User.printint_unsigned (x : BitVec 32) : printint x 16 false = some (numeral 16 x.toNat) := by
  have hlen := (length_lowDigits_word (b := 16) x.isLt).2 (by omega)
  rw [printint, Bool.false_and,
    printSigned_eq (n := x.toNat) (by decide) (by decide) rfl (Nat.lt_of_le_of_lt hlen (by decide)),
    if_neg Bool.false_ne_true, numeral, if_neg (by omega), Int.natAbs_natCast]
  rfl

/-- **Integers are printed in canonical form**, inside the buffers, and the kernel and the user
library print alike. -/
theorem printing_canonical (x : BitVec 32) :
    (∀ base : BitVec 8, base = 2 ∨ base = 8 ∨ base = 10 ∨ base = 16 →
      ∃ s, Kernel.printint x base = some s ∧ Canonical base.toNat x.toInt s) ∧
    (∀ base : BitVec 8, base = 10 ∨ base = 16 →
      ∃ s, Kernel.printUint x base = some s ∧ Canonical base.toNat x.toNat s) ∧
    (∃ s, User.printint x 10 true = some s ∧ Canonical 10 x.toInt s) ∧
    (∃ s, User.printint x 16 false = some s ∧ Canonical 16 x.toNat s) ∧
    Kernel.printint x 10 = User.printint x 10 true ∧
    Kernel.printUint x 16 = User.printint x 16 false := by
  have hkernel : ∀ base : BitVec 8, base = 2 ∨ base = 8 ∨ base = 10 ∨ base = 16 →
      ∃ s, Kernel.printint x base = some s ∧ Canonical base.toNat x.toInt s := by
    intro base hbase
    refine ⟨_, Kernel.printint_eq hbase, canonical_numeral ?_ ?_ _⟩ <;>
      rcases hbase with rfl | rfl | rfl | rfl <;> decide
  have hunsigned : ∀ base : BitVec 8, base = 10 ∨ base = 16 →
      ∃ s, Kernel.printUint x base = some s ∧ Canonical base.toNat x.toNat s := by
    intro base hbase
    refine ⟨_, Kernel.printUint_eq hbase, canonical_numeral ?_ ?_ _⟩ <;>
      rcases hbase with rfl | rfl <;> decide
  have huser := canonical_numeral (b := 10) (by decide) (by decide) x.toInt
  have huser' := canonical_numeral (b := 16) (by decide) (by decide) x.toNat
  refine ⟨hkernel, hunsigned, ⟨_, User.printint_signed x, huser⟩, ⟨_, User.printint_unsigned x, huser'⟩,
    ?_, ?_⟩
  -- there is one canonical numeral only
  · obtain ⟨s, hs, hc⟩ := hkernel 10 (by decide)
    rw [hs, User.printint_signed, hc.eq_numeral (by decide) (by decide)]
    rfl
  · obtain ⟨s, hs, hc⟩ := hunsigned 16 (by decide)
    rw [hs, User.printint_unsigned, hc.eq_numeral (by decide) (by decide)]
    rfl

/-- `INT32_MIN` in base 2. -/
theorem printing_canonical_min : ∃ s, Kernel.printint 0x80000000#32 2 = some s ∧
    Canonical 2 (-2147483648) s :=
  (printing_canonical 0x80000000#32).1 2 (.inl rfl)

end Wl00.Clib
