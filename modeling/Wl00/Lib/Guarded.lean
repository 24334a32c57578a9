import Mathlib.Data.Nat.ModEq
import Wl00.Lib.Bytes

/-!
# Guarded memories

A memory of which only a part is mapped, and in which every mapped address has a permission
beside its byte.  Addresses are taken modulo `N`.  Strings are read and bytes are stored one
after another, up to the first address that does not allow it.

* `Guarded.store_at`, `Guarded.store_other` — what every address holds after a store.
* `Guarded.read_eq`, `Guarded.string_eq` — what is read, from what the single addresses hold.
-/

/-- What a mapped address holds. -/
structure Guarded.Cell (F : Type) where
  perm : F
  byte : UInt8

/-- A memory with permissions `F`. -/
abbrev Guarded (F : Type) := Nat → Option (Guarded.Cell F)

namespace Guarded

variable {F : Type}

section Ops

variable (ok : F → Prop) [DecidablePred ok] (N : Nat)

/-- The byte at `a`, if its permission is `ok`. -/
def get (m : Guarded F) (a : Nat) : Option UInt8 :=
  (m a).bind fun c => if ok c.perm then some c.byte else none

/-- Replace the byte at `a`. -/
def set (m : Guarded F) (a : Nat) (b : UInt8) : Guarded F :=
  Function.update m a ((m a).map fun c => { c with byte := b })

/-- Store bytes from `a` on, up to the first address that is not `ok`. -/
def store (m : Guarded F) (a : Nat) : List UInt8 → Guarded F
  | [] => m
  | b :: l =>
      if (get ok m (a % N)).isSome then store (m.set (a % N) b) (a + 1) l else m

/-- Read `n` bytes from `a` on. -/
def read (m : Guarded F) : Nat → Nat → Option (List UInt8)
  | 0, _ => some []
  | n + 1, a => do
      let b ← get ok m (a % N)
      let l ← read m n (a + 1)
      some (b :: l)

/-- Read the string at `a`, whose NUL must be among the first `n` bytes. -/
def string (m : Guarded F) : Nat → Nat → Option (List UInt8)
  | 0, _ => none
  | n + 1, a => do
      let b ← get ok m (a % N)
      if b = 0 then some []
      else do
        let l ← string m n (a + 1)
        some (b :: l)

end Ops

variable {ok : F → Prop} [DecidablePred ok] {N : Nat} {m : Guarded F} {a k n x : Nat}
  {l : List UInt8}

/-! ## Storing -/

theorem set_self (b : UInt8) : m.set a b a = (m a).map fun c => { c with byte := b } :=
  Function.update_self ..

theorem set_of_ne (hx : x ≠ a) (b : UInt8) : m.set a b x = m x := Function.update_of_ne hx ..

/-- A permission does not go away. -/
theorem isSome_get_set (b : UInt8) : (get ok (m.set a b) x).isSome = (get ok m x).isSome := by
  by_cases hx : x = a
  · subst hx
    rw [get, set_self, get]
    cases m x with
    | none => rfl
    | some c =>
        simp only [Option.map_some, Option.bind_some]
        split <;> rfl
  · rw [get, set_of_ne hx, get]

/-- `k` of the `n` bytes from `a` on can be accessed, and not the next. -/
structure Reach (ok : F → Prop) [DecidablePred ok] (N : Nat) (m : Guarded F) (a n k : Nat) :
    Prop where
  le : k ≤ n
  access : ∀ i < k, (get ok m ((a + i) % N)).isSome
  stop : k < n → (get ok m ((a + k) % N)).isSome = false

/-- The first byte has been stored. -/
theorem Reach.tail (h : Reach ok N m a (n + 1) (k + 1)) (b : UInt8) :
    Reach ok N (m.set (a % N) b) (a + 1) n k := by
  refine ⟨Nat.le_of_succ_le_succ h.le, fun i hi => ?_, fun hk => ?_⟩
  · rw [isSome_get_set, Nat.add_assoc, Nat.add_comm 1]
    exact h.access (i + 1) (Nat.succ_lt_succ hi)
  · rw [isSome_get_set, Nat.add_assoc, Nat.add_comm 1]
    exact h.stop (Nat.succ_lt_succ hk)

/-- Nothing else changes. -/
theorem store_other (h : Reach ok N m a l.length k) (hx : ∀ i < k, x ≠ (a + i) % N) :
    store ok N m a l x = m x := by
  induction l generalizing m a k with
  | nil => rfl
  | cons b l ih =>
      cases k with
      | zero =>
          have hstop := h.stop (Nat.succ_pos _)
          rw [Nat.add_zero] at hstop
          rw [store, if_neg (by simp [hstop])]
      | succ k =>
          have h0 := h.access 0 (Nat.succ_pos _)
          have hne := hx 0 (Nat.succ_pos _)
          rw [Nat.add_zero] at h0 hne
          rw [store, if_pos h0, ih (h.tail b) fun i hi => ?_, set_of_ne hne]
          rw [Nat.add_assoc, Nat.add_comm 1]
          exact hx (i + 1) (Nat.succ_lt_succ hi)

theorem add_mod_ne {i j : Nat} (hi : i < N) (hj : j < N) (hij : i ≠ j) :
    (a + i) % N ≠ (a + j) % N := by
  intro he
  have hmod : i % N = j % N := Nat.ModEq.add_left_cancel' a he
  rw [Nat.mod_eq_of_lt hi, Nat.mod_eq_of_lt hj] at hmod
  exact hij hmod

/-- **The bytes that can be stored are stored.** -/
theorem store_at (h : Reach ok N m a l.length k) (hN : l.length ≤ N) {i : Nat} (hi : i < k) :
    store ok N m a l ((a + i) % N) =
      (m ((a + i) % N)).map fun c => { c with byte := l.getD i 0 } := by
  induction l generalizing m a k i with
  | nil => exact absurd (Nat.lt_of_lt_of_le hi h.le) (Nat.not_lt_zero i)
  | cons b l ih =>
      obtain ⟨k, rfl⟩ : ∃ j, k = j + 1 := ⟨k - 1, by omega⟩
      have hk : k + 1 ≤ l.length + 1 := h.le
      rw [List.length_cons] at hN
      have h0 := h.access 0 (Nat.succ_pos _)
      rw [Nat.add_zero] at h0
      rw [store, if_pos h0]
      cases i with
      | zero =>
          -- the later bytes go elsewhere, as they are fewer than `N`
          simp only [Nat.add_zero]
          rw [store_other (h.tail b), set_self]
          · rfl
          · intro j hj
            rw [Nat.add_assoc, Nat.add_comm 1]
            exact add_mod_ne (i := 0) (by omega) (by omega) (by omega)
      | succ i =>
          have hne : (a + (i + 1)) % N ≠ a % N :=
            add_mod_ne (j := 0) (by omega) (by omega) (by omega)
          rw [show a + (i + 1) = a + 1 + i by omega] at hne ⊢
          rw [ih (h.tail b) (by omega) (by omega), set_of_ne hne]
          rfl

/-! ## Reading -/

variable {f : Bytes}

theorem read_eq (h : ∀ i < n, get ok m ((a + i) % N) = some (f (a + i))) :
    read ok N m n a = some (f.read a n) := by
  induction n generalizing a with
  | zero => rfl
  | succ n ih =>
      have h0 := h 0 (Nat.succ_pos _)
      have htail := ih (a := a + 1) fun i hi => by
        rw [Nat.add_assoc, Nat.add_comm 1]
        exact h (i + 1) (Nat.succ_lt_succ hi)
      rw [Nat.add_zero] at h0
      rw [read, h0, htail, Bytes.read_succ]
      rfl

theorem string_eq (hk : k < n) (h : ∀ i ≤ k, get ok m ((a + i) % N) = some (f (a + i)))
    (hz : f (a + k) = 0) (hne : ∀ i < k, f (a + i) ≠ 0) :
    string ok N m n a = some (f.read a k) := by
  induction n generalizing a k with
  | zero => exact absurd hk (Nat.not_lt_zero k)
  | succ n ih =>
      have h0 := h 0 (Nat.zero_le _)
      rw [Nat.add_zero] at h0
      cases k with
      | zero =>
          rw [Nat.add_zero] at hz
          rw [string, h0]
          simp [hz, Bytes.read]
      | succ k =>
          have hf := hne 0 (Nat.succ_pos _)
          rw [Nat.add_zero] at hf
          have hstep : ∀ i, a + 1 + i = a + (i + 1) := by
            intro i
            omega
          have htail := ih (a := a + 1) (Nat.lt_of_succ_lt_succ hk)
            (fun i hi => by
              rw [hstep]
              exact h (i + 1) (Nat.succ_le_succ hi))
            (by rw [hstep]; exact hz)
            fun i hi => by
              rw [hstep]
              exact hne (i + 1) (Nat.succ_lt_succ hi)
          rw [string, h0, htail, Bytes.read_succ]
          simp [hf]

end Guarded
