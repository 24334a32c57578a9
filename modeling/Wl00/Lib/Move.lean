import Mathlib.Algebra.Group.Int.Defs
import Mathlib.Algebra.Group.Nat.Defs
import Mathlib.Logic.Function.Basic
import Mathlib.Tactic.Common

/-!
# Copying between ranges that may overlap

A memory maps addresses of `w` bits to cells.  The two loops copy one cell at a time, upwards
or downwards, with pointers that wrap.  What they have in common is `Moved`: in an interval of
the destination there is what the source held at first, and nothing else has changed.  A loop
extends the interval by one cell as long as the cell it reads lies outside.

* `moved_copyUp` — upwards, if no cell is read after it has been written.
* `moved_copyDown` — downwards, likewise.
-/

namespace Copying

variable {w : Nat} {α : Type*}

/-- `while (n-- > 0) *d++ = *s++;` -/
def copyUp (m : BitVec w → α) (d s : BitVec w) : Nat → BitVec w → α
  | 0 => m
  | n + 1 => copyUp (Function.update m d (m s)) (d + 1) (s + 1) n

/-- `while (n-- > 0) *--d = *--s;` -/
def copyDown (m : BitVec w → α) (d s : BitVec w) : Nat → BitVec w → α
  | 0 => m
  | n + 1 => copyDown (Function.update m (d - 1) (m (s - 1))) (d - 1) (s - 1) n

/-- From `m₀` to `m`, exactly the cells `lo` to `hi` of the destination have been copied. -/
structure Moved (m₀ m : BitVec w → α) (d s : BitVec w) (lo hi : Nat) : Prop where
  copied : ∀ i, lo ≤ i → i < hi → m (d + BitVec.ofNat w i) = m₀ (s + BitVec.ofNat w i)
  frame : ∀ a, (∀ i, lo ≤ i → i < hi → a ≠ d + BitVec.ofNat w i) → m a = m₀ a

/-! ## Pointers -/

theorem toNat_offset {p : BitVec w} {i n : Nat} (hp : p.toNat + n ≤ 2 ^ w) (hi : i < n) :
    (p + BitVec.ofNat w i).toNat = p.toNat + i := by
  rw [BitVec.toNat_add, BitVec.toNat_ofNat, Nat.add_mod_mod, Nat.mod_eq_of_lt (by omega)]

theorem offset_succ (p : BitVec w) (k : Nat) :
    p + BitVec.ofNat w k + 1 = p + BitVec.ofNat w (k + 1) := by
  rw [BitVec.add_assoc, BitVec.ofNat_add]
  rfl

theorem offset_pred (p : BitVec w) (k : Nat) :
    p + BitVec.ofNat w (k + 1) - 1 = p + BitVec.ofNat w k := by
  rw [← offset_succ, BitVec.add_sub_cancel]

theorem offset_ne {p : BitVec w} {i j n : Nat} (hp : p.toNat + n ≤ 2 ^ w) (hi : i < n) (hj : j < n)
    (hne : i ≠ j) : p + BitVec.ofNat w i ≠ p + BitVec.ofNat w j := by
  intro he
  have hnat := congrArg BitVec.toNat he
  rw [toNat_offset hp hi, toNat_offset hp hj] at hnat
  omega

/-! ## One cell more -/

namespace Moved

variable {m₀ m : BitVec w → α} {d s : BitVec w} {lo hi k n : Nat}

theorem refl (m : BitVec w → α) (d s : BitVec w) (k : Nat) : Moved m m d s k k :=
  ⟨fun i h1 h2 => absurd h1 (by omega), fun _ _ => rfl⟩

/-- Cell `k`, at one end of the interval, is copied while the source still holds it. -/
theorem extend (hm : Moved m₀ m d s lo hi) (hd : d.toNat + n ≤ 2 ^ w) (hn : hi ≤ n) (hk : k < n)
    {lo' hi' : Nat} (hends : ∀ i, lo' ≤ i ∧ i < hi' ↔ (lo ≤ i ∧ i < hi) ∨ i = k)
    (hout : ¬(lo ≤ k ∧ k < hi))
    (hread : ∀ i, lo ≤ i → i < hi → s + BitVec.ofNat w k ≠ d + BitVec.ofNat w i) :
    Moved m₀ (Function.update m (d + BitVec.ofNat w k) (m (s + BitVec.ofNat w k))) d s lo' hi' := by
  have hval : m (s + BitVec.ofNat w k) = m₀ (s + BitVec.ofNat w k) := hm.frame _ hread
  refine ⟨fun i h1 h2 => ?_, fun a ha => ?_⟩
  · rcases (hends i).1 ⟨h1, h2⟩ with hin | rfl
    · have hik : i ≠ k := by
        rintro rfl
        exact hout hin
      rw [Function.update_of_ne (offset_ne hd (by omega) hk hik)]
      exact hm.copied i hin.1 hin.2
    · rw [Function.update_self, hval]
  · have hak : a ≠ d + BitVec.ofNat w k := by
      obtain ⟨h1, h2⟩ := (hends k).2 (.inr rfl)
      exact ha k h1 h2
    rw [Function.update_of_ne hak]
    refine hm.frame a fun i h1 h2 => ?_
    obtain ⟨h3, h4⟩ := (hends i).2 (.inl ⟨h1, h2⟩)
    exact ha i h3 h4

end Moved

/-! ## The loops -/

variable {m₀ m : BitVec w → α} {d s : BitVec w} {k n : Nat}

theorem moved_copyUp_from (hd : d.toNat + n ≤ 2 ^ w)
    (hread : ∀ i j, i < j → j < n → s + BitVec.ofNat w j ≠ d + BitVec.ofNat w i) {r : Nat}
    (hr : k + r = n) (hm : Moved m₀ m d s 0 k) :
    Moved m₀ (copyUp m (d + BitVec.ofNat w k) (s + BitVec.ofNat w k) r) d s 0 n := by
  induction r generalizing m k with
  | zero =>
      obtain rfl : k = n := hr
      exact hm
  | succ r ih =>
      rw [copyUp, offset_succ, offset_succ]
      refine ih (by omega) ?_
      apply hm.extend hd (n := n) (by omega) (by omega)
      · intro i
        omega
      · omega
      · intro i _ hi
        exact hread i k hi (by omega)

/-- **The upward loop moves**, if no cell is read after it has been written. -/
theorem moved_copyUp (m : BitVec w → α) (hd : d.toNat + n ≤ 2 ^ w)
    (hread : ∀ i j, i < j → j < n → s + BitVec.ofNat w j ≠ d + BitVec.ofNat w i) :
    Moved m (copyUp m d s n) d s 0 n := by
  have h := moved_copyUp_from hd hread (Nat.zero_add n) (Moved.refl m d s 0)
  simpa using h

theorem moved_copyDown_from (hd : d.toNat + n ≤ 2 ^ w)
    (hread : ∀ i j, j < i → i < n → s + BitVec.ofNat w j ≠ d + BitVec.ofNat w i) (hk : k ≤ n)
    (hm : Moved m₀ m d s k n) :
    Moved m₀ (copyDown m (d + BitVec.ofNat w k) (s + BitVec.ofNat w k) k) d s 0 n := by
  induction k generalizing m with
  | zero => exact hm
  | succ k ih =>
      rw [copyDown, offset_pred, offset_pred]
      refine ih (by omega) ?_
      apply hm.extend hd (n := n) (by omega) (by omega)
      · intro i
        omega
      · omega
      · intro i hi hin
        exact hread i k (by omega) hin

/-- **The downward loop moves**, if no cell is read after it has been written. -/
theorem moved_copyDown (m : BitVec w → α) (hd : d.toNat + n ≤ 2 ^ w)
    (hread : ∀ i j, j < i → i < n → s + BitVec.ofNat w j ≠ d + BitVec.ofNat w i) :
    Moved m (copyDown m (d + BitVec.ofNat w n) (s + BitVec.ofNat w n) n) d s 0 n :=
  moved_copyDown_from hd hread (Nat.le_refl n) (Moved.refl m d s n)

/-! ## Which way round -/

/-- From above, or from a range that ends below the destination, one may copy upwards. -/
theorem unread_up (hd : d.toNat + n ≤ 2 ^ w) (hs : s.toNat + n ≤ 2 ^ w)
    (h : d.toNat ≤ s.toNat ∨ s.toNat + n ≤ d.toNat) (i j : Nat) (hij : i < j) (hj : j < n) :
    s + BitVec.ofNat w j ≠ d + BitVec.ofNat w i := by
  intro he
  have hnat := congrArg BitVec.toNat he
  rw [toNat_offset hs hj, toNat_offset hd (by omega)] at hnat
  omega

/-- From below one may copy downwards. -/
theorem unread_down (hd : d.toNat + n ≤ 2 ^ w) (hs : s.toNat + n ≤ 2 ^ w)
    (h : s.toNat ≤ d.toNat) (i j : Nat) (hij : j < i) (hi : i < n) :
    s + BitVec.ofNat w j ≠ d + BitVec.ofNat w i := by
  intro he
  have hnat := congrArg BitVec.toNat he
  rw [toNat_offset hs (by omega), toNat_offset hd hi] at hnat
  omega

/-- A move is determined by what it moves. -/
theorem Moved.unique {m' : BitVec w → α} (h : Moved m₀ m d s 0 n) (h' : Moved m₀ m' d s 0 n) :
    m = m' := by
  funext a
  by_cases ha : ∃ i, i < n ∧ a = d + BitVec.ofNat w i
  · obtain ⟨i, hi, rfl⟩ := ha
    rw [h.copied i (Nat.zero_le i) hi, h'.copied i (Nat.zero_le i) hi]
  · simp only [not_exists, not_and] at ha
    rw [h.frame a fun i _ hi => ha i hi, h'.frame a fun i _ hi => ha i hi]

end Copying
