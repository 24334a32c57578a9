import Mathlib.Algebra.Group.Int.Defs
import Mathlib.Algebra.Group.Nat.Defs
import Wl00.Lib.Transition

/-!
# The 64-bit timer registers in halves

`time` counts while `r_time64` reads it in three steps, and the hardware compares while
`w_stimecmp64` writes `stimecmp` in three steps.  Both functions run here beside a clock that
may count any amount between two of their steps.

* `rTime64_exact` — what is returned is the time at one instant of the call.
* `rTime64_returns` — the loop ends: every retry has seen the high half grow.
* `wStimecmp64_quiet` — no half-written deadline raises an interrupt.
-/

namespace Wl00.Timer

/-! ## Halves -/

/-- A value of `time` or `stimecmp` -/
abbrev Time := BitVec 64

abbrev Half := BitVec 32

/-- `timeh`, and `(uint32_t)(x >> 32)` -/
def high (t : Time) : Half := (t >>> 32).setWidth 32

/-- `time`, and `(uint32_t)x` -/
def low (t : Time) : Half := t.setWidth 32

/-- `((uint64_t)hi << 32) | lo` -/
def join (hi lo : Half) : Time := hi.setWidth 64 <<< 32 ||| lo.setWidth 64

theorem toNat_high (t : Time) : (high t).toNat = t.toNat / 2 ^ 32 := by
  have := t.isLt
  rw [high, BitVec.toNat_setWidth, BitVec.toNat_ushiftRight, Nat.shiftRight_eq_div_pow]
  omega

theorem toNat_low (t : Time) : (low t).toNat = t.toNat % 2 ^ 32 := by
  rw [low, BitVec.toNat_setWidth]

theorem toNat_join (hi lo : Half) : (join hi lo).toNat = hi.toNat * 2 ^ 32 + lo.toNat := by
  have h1 := hi.isLt
  have h2 := lo.isLt
  have hlo : lo.toNat % 2 ^ 64 = lo.toNat := Nat.mod_eq_of_lt (by omega)
  have hhi : (hi.toNat % 2 ^ 64) <<< 32 % 2 ^ 64 = hi.toNat <<< 32 := by
    rw [Nat.mod_eq_of_lt (by omega : hi.toNat < 2 ^ 64), Nat.shiftLeft_eq, Nat.mod_eq_of_lt]
    omega
  rw [join, BitVec.toNat_or, BitVec.toNat_shiftLeft, BitVec.toNat_setWidth, BitVec.toNat_setWidth,
    hlo, hhi, ← Nat.shiftLeft_add_eq_or_of_lt h2, Nat.shiftLeft_eq]

theorem join_high_low (t : Time) : join (high t) (low t) = t := by
  apply BitVec.eq_of_toNat_eq
  rw [toNat_join, toNat_high, toNat_low]
  omega

theorem high_join (hi lo : Half) : high (join hi lo) = hi := by
  apply BitVec.eq_of_toNat_eq
  have := lo.isLt
  rw [toNat_high, toNat_join]
  omega

theorem low_join (hi lo : Half) : low (join hi lo) = lo := by
  apply BitVec.eq_of_toNat_eq
  have := lo.isLt
  rw [toNat_low, toNat_join]
  omega

theorem high_mono {t t' : Time} (h : t ≤ t') : high t ≤ high t' := by
  rw [BitVec.le_def, toNat_high, toNat_high]
  exact Nat.div_le_div_right h

/-! ## `r_time64` -/

/-- Where `r_time64` is: before each of its three reads, or back in its caller. -/
inductive ReadPc where
  | hi
  | lo (hi : Half)
  | hi2 (hi lo : Half)
  | ret (v : Time)
  deriving DecidableEq

/-- `mark` is the time at the latest read of the low half, and `retries` counts how often the
loop has started again. -/
structure Reading where
  time : Time
  pc : ReadPc
  mark : Time
  retries : Nat
  deriving DecidableEq

/-- The clock counts, or the hart goes on. -/
inductive Act where
  | tick (t : Time)
  | go
  deriving DecidableEq

def Reading.next (s : Reading) : Act → Option Reading
  | .tick t => if s.time ≤ t then some { s with time := t } else none
  | .go =>
      match s.pc with
      | .hi => some { s with pc := .lo (high s.time) }
      | .lo hi => some { s with pc := .hi2 hi (low s.time), mark := s.time }
      | .hi2 hi lo =>
          if hi ≠ high s.time then some { s with pc := .hi, retries := s.retries + 1 }
          else some { s with pc := .ret (join hi lo) }
      | .ret _ => none

/-- A call of `r_time64` that starts at time `t₀`. -/
def rTime64 (t₀ : Time) : Lts Reading Act :=
  .ofNext (fun s => s.time = t₀ ∧ s.pc = .hi ∧ s.retries = 0) Reading.next

/-- What is known before each read.  The high half has grown with every retry. -/
def ReadOk (t₀ : Time) (s : Reading) : Prop :=
  t₀ ≤ s.time ∧
    match s.pc with
    | .hi => (high t₀).toNat + s.retries ≤ (high s.time).toNat
    | .lo hi => (high t₀).toNat + s.retries ≤ hi.toNat ∧ hi ≤ high s.time
    | .hi2 hi lo => (high t₀).toNat + s.retries ≤ hi.toNat ∧ hi ≤ high s.mark ∧ lo = low s.mark ∧
        t₀ ≤ s.mark ∧ s.mark ≤ s.time
    | .ret v => v = s.mark ∧ t₀ ≤ s.mark ∧ s.mark ≤ s.time

section Read

variable {t₀ : Time} {s s' : Reading}

theorem ReadOk.tick (hi : ReadOk t₀ s) {t : Time} (ht : s.time ≤ t) :
    ReadOk t₀ { s with time := t } := by
  obtain ⟨h0, hp⟩ := hi
  refine ⟨BitVec.le_trans h0 ht, ?_⟩
  cases hpc : s.pc <;> simp only [hpc] at hp ⊢
  case hi => exact Nat.le_trans hp (high_mono ht)
  case lo hi => exact ⟨hp.1, BitVec.le_trans hp.2 (high_mono ht)⟩
  case hi2 hi lo =>
    obtain ⟨h1, h2, h3, h4, h5⟩ := hp
    exact ⟨h1, h2, h3, h4, BitVec.le_trans h5 ht⟩
  case ret v =>
    obtain ⟨h1, h2, h3⟩ := hp
    exact ⟨h1, h2, BitVec.le_trans h3 ht⟩

theorem ReadOk.go (hi : ReadOk t₀ s) (hn : s.next .go = some s') : ReadOk t₀ s' := by
  obtain ⟨h0, hp⟩ := hi
  cases hpc : s.pc <;> simp only [Reading.next, hpc] at hn hp
  case hi =>
    cases hn
    exact ⟨h0, hp, BitVec.le_refl _⟩
  case lo hi =>
    cases hn
    exact ⟨h0, hp.1, hp.2, rfl, h0, BitVec.le_refl _⟩
  case hi2 hi lo =>
    obtain ⟨h1, h2, h3, h4, h5⟩ := hp
    have h6 := high_mono h5
    split_ifs at hn with hne
    · -- the second read of the high half is above the first one
      cases hn
      refine ⟨h0, ?_⟩
      have hlt : hi.toNat ≠ (high s.time).toNat := fun he => hne (BitVec.eq_of_toNat_eq he)
      rw [BitVec.le_def] at h2 h6
      simp only
      omega
    · cases hn
      simp only [not_not] at hne
      have he : hi = high s.mark := BitVec.le_antisymm h2 (hne ▸ h6)
      exact ⟨h0, by rw [he, h3, join_high_low], h4, h5⟩
  case ret v => cases hn

theorem ReadOk.of_reachable (hr : (rTime64 t₀).Reachable s) : ReadOk t₀ s := by
  refine hr.invariant (fun s h0 => ?_) (fun s a s' _ hi hn => ?_)
  · obtain ⟨ht, hp, hz⟩ := h0
    refine ⟨ht ▸ BitVec.le_refl _, ?_⟩
    simp only [hp, ht, hz]
    exact Nat.le_refl _
  · cases a with
    | tick t =>
        simp only [rTime64, Lts.ofNext, Reading.next] at hn
        split_ifs at hn with ht
        cases hn
        exact hi.tick ht
    | go => exact hi.go hn

/-- **`r_time64` returns a time of the call**: the one at the read of the low half in the last
round. -/
theorem rTime64_exact {v : Time} (hr : (rTime64 t₀).Reachable s) (hp : s.pc = .ret v) :
    v = s.mark ∧ t₀ ≤ v ∧ v ≤ s.time := by
  have hi := (ReadOk.of_reachable hr).2
  rw [hp] at hi
  obtain ⟨rfl, h1, h2⟩ := hi
  exact ⟨rfl, h1, h2⟩

/-- A carry falls between the first two reads, and the second round is quiet. -/
theorem rTime64_exact_carry : ∃ s, (rTime64 0xFFFFFFFF#64).Reachable s ∧
    s.pc = .ret 0x100000007#64 ∧ s.mark = 0x100000007#64 ∧ s.retries = 1 ∧
    0xFFFFFFFF#64 ≤ (0x100000007#64 : Time) ∧ 0x100000007#64 ≤ s.time := by
  have h0 : (rTime64 0xFFFFFFFF#64).Reachable ⟨0xFFFFFFFF#64, .hi, 0, 0⟩ := .start ⟨rfl, rfl, rfl⟩
  have he : Lts.exec Reading.next [.go, .tick 0x100000002#64, .go, .go, .go, .tick 0x100000007#64,
      .go, .tick 0x100000009#64, .go] ⟨0xFFFFFFFF#64, .hi, 0, 0⟩ =
      some ⟨0x100000009#64, .ret 0x100000007#64, 0x100000007#64, 1⟩ := by decide
  have hr := h0.exec he
  obtain ⟨-, h1, h2⟩ := rTime64_exact hr rfl
  exact ⟨_, hr, rfl, rfl, rfl, h1, h2⟩

/-- Every round but the last takes three steps. -/
theorem go_count {tr : List Act} (hr : (rTime64 t₀).Run tr s) :
    match s.pc with
    | .hi => tr.count .go = 3 * s.retries
    | .lo _ => tr.count .go = 3 * s.retries + 1
    | .hi2 _ _ => tr.count .go = 3 * s.retries + 2
    | .ret _ => True := by
  induction hr with
  | start h0 =>
      obtain ⟨-, hp, hz⟩ := h0
      simp [hp, hz]
  | @next tr s s' a _ hn ih =>
      cases a with
      | tick t =>
          simp only [rTime64, Lts.ofNext, Reading.next] at hn
          split_ifs at hn with ht
          cases hn
          simpa using ih
      | go =>
          cases hpc : s.pc <;> simp only [rTime64, Lts.ofNext, Reading.next, hpc] at hn ih
          case hi | lo =>
            cases hn
            simp [ih]
          case hi2 hi lo =>
            split_ifs at hn <;> cases hn
            · simp only [List.count_cons_self, ih]
              omega
            · trivial
          case ret v => cases hn

/-- **`r_time64` returns** after at most 2³² rounds, however the clock counts. -/
theorem rTime64_returns {tr : List Act} (hr : (rTime64 t₀).Run tr s)
    (hlong : 3 * 2 ^ 32 ≤ tr.count .go) : ∃ v, s.pc = .ret v := by
  have hok := (ReadOk.of_reachable ⟨tr, hr⟩).2
  have hcount := go_count hr
  have h1 := (high s.time).isLt
  cases hpc : s.pc <;> simp only [hpc] at hok hcount
  case hi => omega
  case lo hi =>
    have := hi.isLt
    omega
  case hi2 hi lo =>
    have := hi.isLt
    omega
  case ret v => exact ⟨v, rfl⟩

end Read

/-! ## `w_stimecmp64` -/

/-- A write to half of `stimecmp` -/
inductive Write where
  | stimecmp (w : Half)
  | stimecmph (w : Half)
  deriving DecidableEq

/-- The live compare value after the write -/
def Write.apply (c : Time) : Write → Time
  | .stimecmp w => join (high c) w
  | .stimecmph w => join w (low c)

/-- The writes of `w_stimecmp64(x)` -/
def wStimecmp64 (x : Time) : List Write :=
  [.stimecmp 0xFFFFFFFF#32, .stimecmph (high x), .stimecmp (low x)]

/-- `todo` are the writes still to come. -/
structure Arming where
  time : Time
  stimecmp : Time
  todo : List Write
  deriving DecidableEq

/-- The hardware raises the timer interrupt. -/
def Arming.Pending (s : Arming) : Prop := s.stimecmp ≤ s.time

def Arming.next (s : Arming) : Act → Option Arming
  | .tick t => if s.time ≤ t then some { s with time := t } else none
  | .go =>
      match s.todo with
      | [] => none
      | w :: ws => some { s with stimecmp := w.apply s.stimecmp, todo := ws }

/-- A call of `w_stimecmp64(x)` while `stimecmp` is `old`. -/
def arming (old x : Time) : Lts Arming Act :=
  .ofNext (fun s => s.stimecmp = old ∧ s.todo = wStimecmp64 x) Arming.next

/-- The four values that `stimecmp` has in turn. -/
def Stage (old x : Time) (s : Arming) : Prop :=
  s.todo = wStimecmp64 x ∧ s.stimecmp = old ∨
    s.todo = [.stimecmph (high x), .stimecmp (low x)] ∧ s.stimecmp = join (high old) 0xFFFFFFFF#32 ∨
    s.todo = [.stimecmp (low x)] ∧ s.stimecmp = join (high x) 0xFFFFFFFF#32 ∨
    s.todo = [] ∧ s.stimecmp = x

/-- A parked value is above everything with the same high half. -/
theorem le_parked (t : Time) : t ≤ join (high t) 0xFFFFFFFF#32 := by
  have := t.isLt
  rw [BitVec.le_def, toNat_join, toNat_high]
  simp only [BitVec.reduceToNat]
  omega

section Arm

variable {old x : Time} {s s' : Arming}

theorem Stage.go (hi : Stage old x s) (hn : s.next .go = some s') : Stage old x s' := by
  rcases hi with ⟨ht, hc⟩ | ⟨ht, hc⟩ | ⟨ht, hc⟩ | ⟨ht, hc⟩ <;>
    simp only [Arming.next, ht, hc, wStimecmp64] at hn <;> cases hn
  · exact .inr (.inl ⟨rfl, rfl⟩)
  · refine .inr (.inr (.inl ⟨rfl, ?_⟩))
    rw [Write.apply, low_join]
  · refine .inr (.inr (.inr ⟨rfl, ?_⟩))
    rw [Write.apply, high_join, join_high_low]

theorem Stage.of_reachable (hr : (arming old x).Reachable s) : Stage old x s := by
  refine hr.invariant (fun s h0 => ?_) (fun s a s' _ hi hn => ?_)
  · exact .inl ⟨h0.2, h0.1⟩
  · cases a with
    | tick t =>
        simp only [arming, Lts.ofNext, Arming.next] at hn
        split_ifs at hn
        cases hn
        exact hi
    | go => exact hi.go hn

/-- **`w_stimecmp64` raises no false interrupt.**  Before the new deadline, an interrupt comes
only while the high half is still to be written, and is one that the old deadline asks for. -/
theorem wStimecmp64_quiet (hr : (arming old x).Reachable s) :
    (s.time < x → s.Pending → (∃ w, .stimecmph w ∈ s.todo) ∧ old ≤ s.time) ∧
      (s.todo = [] → s.stimecmp = x) := by
  have hpark := le_parked old
  have hpark' := le_parked x
  rcases Stage.of_reachable hr with ⟨ht, hc⟩ | ⟨ht, hc⟩ | ⟨ht, hc⟩ | ⟨ht, hc⟩ <;>
    rw [Arming.Pending, ht, hc]
  · exact ⟨fun _ hle => ⟨⟨high x, by simp [wStimecmp64]⟩, hle⟩, fun he => nomatch he⟩
  · exact ⟨fun _ hle => ⟨⟨_, List.mem_cons_self ..⟩, BitVec.le_trans hpark hle⟩, fun he => nomatch he⟩
  · refine ⟨fun hlt hle => absurd (BitVec.le_trans hpark' hle) ?_, fun he => nomatch he⟩
    exact BitVec.not_le.2 hlt
  · exact ⟨fun hlt hle => absurd hle (BitVec.not_le.2 hlt), fun _ => rfl⟩

/-- The old deadline passes after the first write, and the interrupt is still there. -/
theorem wStimecmp64_quiet_passed : ∃ s, (arming 0x1FFFFFFFF#64 0x300000000#64).Reachable s ∧
    s.time < 0x300000000#64 ∧ s.Pending ∧ (∃ w, .stimecmph w ∈ s.todo) ∧
    0x1FFFFFFFF#64 ≤ s.time := by
  have h0 : (arming 0x1FFFFFFFF#64 0x300000000#64).Reachable
      ⟨0#64, 0x1FFFFFFFF#64, wStimecmp64 0x300000000#64⟩ := .start ⟨rfl, rfl⟩
  have he : Lts.exec Arming.next [.go, .tick 0x200000000#64]
      ⟨0#64, 0x1FFFFFFFF#64, wStimecmp64 0x300000000#64⟩ =
      some ⟨0x200000000#64, 0x1FFFFFFFF#64, [.stimecmph 3#32, .stimecmp 0#32]⟩ := by decide
  have hr := h0.exec he
  have hlt : (0x200000000#64 : Time) < 0x300000000#64 := by decide
  have hpend : (0x1FFFFFFFF#64 : Time) ≤ 0x200000000#64 := by decide
  exact ⟨_, hr, hlt, hpend, (wStimecmp64_quiet hr).1 hlt hpend⟩

end Arm

end Wl00.Timer
